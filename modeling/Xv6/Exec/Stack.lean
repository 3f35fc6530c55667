import Xv6.Exec.Load

/-!
# The new stack (`kernel/exec.c`: the arguments)

Two pages are put on top of the image, the lower one out of the user's reach.
The argument strings and then the array of pointers to them are pushed onto
the upper one, each at a multiple of 16. The limit is tested after each
subtraction; nothing wraps, since a string is shorter than a page and the
stack starts above the first page of the image.
-/

namespace Xv6.Exec

open Framework Vm

variable {pool rest : Multiset Frame} {km km' : Kmem} {pt pt' : PageTable}

/-! ## The guard page -/

/-- Only permissions changed. -/
theorem pages_congr_frame (h : ∀ va < TRAPFRAME,
    (pt'.leaf va).map Leaf.frame = (pt.leaf va).map Leaf.frame) :
    pt'.pages = pt.pages := by
  rw [PageTable.pages_eq, PageTable.pages_eq]
  apply Finset.sum_congr rfl
  intro k hk
  rw [h _ (PageTable.page_lt hk)]

/-- The page of `va` is there but not for the user, and nothing else
changed. -/
structure Guarded (va : ℕ) (pt pt' : PageTable) : Prop where
  guard : ∃ l, pt'.leaf va = some l ∧ l.perm.u = false
  other : ∀ vb < MAXVA, pgrounddown vb ≠ pgrounddown va →
    pt'.leaf vb = pt.leaf vb
  byte : ∀ km, ∀ vb < MAXVA, imageByte km pt' vb = imageByte km pt vb

/-- **`uvmclear` never panics on a page that is there.** -/
theorem Image.uvmclear {sz va : ℕ} (h : Image pool rest km pt sz)
    (hva : va < pgroundup sz) : ∃ pt', uvmclear pt va = .ok pt' ∧
      Image pool rest km pt' sz ∧ Guarded va pt pt' := by
  obtain ⟨l, hl⟩ := h.mapped va hva
  have hup := h.pgroundup_le
  have hmax : va < MAXVA := Nat.lt_trans hva
    (Nat.lt_of_le_of_lt hup (by decide))
  obtain ⟨e, he⟩ : ∃ e, pt.pte va = some e := by
    cases hpte : pt.pte va with
    | none =>
      rw [PageTable.leaf_eq_join, hpte] at hl
      cases hl
    | some e => exact ⟨e, rfl⟩
  obtain rfl : e = some l := by
    rw [PageTable.leaf_eq_join, he] at hl
    exact hl
  let l' : Leaf := { l with perm := { l.perm with u := false } }
  have hcall : Exec.uvmclear pt va = .ok (pt.setPte va (some l')) := by
    unfold Exec.uvmclear walk
    rw [if_pos hmax, he]
    rfl
  have hself : ∀ vb, pgrounddown vb = pgrounddown va →
      (pt.setPte va (some l')).leaf vb = some l' := fun vb hvb =>
    PageTable.leaf_setPte_self _ he hvb
  have hother : ∀ vb < MAXVA, pgrounddown vb ≠ pgrounddown va →
      (pt.setPte va (some l')).leaf vb = pt.leaf vb := fun vb hvb hne =>
    PageTable.leaf_setPte_of_ne _ _ hmax hvb hne
  have hframe : ∀ vb < MAXVA,
      ((pt.setPte va (some l')).leaf vb).map Leaf.frame =
        (pt.leaf vb).map Leaf.frame := by
    intro vb hvb
    by_cases hpage : pgrounddown vb = pgrounddown va
    · rw [hself vb hpage, pt.leaf_congr hpage, hl]
      rfl
    · rw [hother vb hvb hpage]
  have hpages : (pt.setPte va (some l')).pages = pt.pages :=
    pages_congr_frame fun vb hvb =>
      hframe vb (Nat.lt_trans hvb TRAPFRAME_lt_MAXVA)
  have hnone : ∀ vb < MAXVA, (pt.setPte va (some l')).leaf vb = none ↔
      pt.leaf vb = none := by
    intro vb hvb
    rw [← Option.map_eq_none_iff (f := Leaf.frame), hframe vb hvb,
      Option.map_eq_none_iff]
  refine ⟨_, hcall, ⟨?_, ?_, ?_, ?_, h.sz_le⟩, ⟨l', hself va rfl, rfl⟩,
    hother, ?_⟩
  · rw [PageTable.owned, PageTable.frames_setPte, hpages]
    exact h.ledger
  · intro vb hvb hle
    exact (hnone vb (Nat.lt_trans hvb TRAPFRAME_lt_MAXVA)).mpr
      (h.below vb hvb hle)
  · intro vb hvb
    have hvb' : vb < MAXVA := Nat.lt_trans hvb
      (Nat.lt_of_le_of_lt hup (by decide))
    apply Option.ne_none_iff_exists'.mp
    intro hempty
    obtain ⟨l₁, hl₁⟩ := h.mapped vb hvb
    rw [(hnone vb hvb').mp hempty] at hl₁
    cases hl₁
  · exact fun hnone' => h.trap ((hnone _ TRAPFRAME_lt_MAXVA).mp hnone')
  · intro km vb hvb
    by_cases hpage : pgrounddown vb = pgrounddown va
    · rw [imageByte, imageByte, hself vb hpage, pt.leaf_congr hpage, hl]
      rfl
    · rw [imageByte, imageByte, hother vb hvb hpage]

/-! ## `copyout` onto the stack page -/

/-- The page that the arguments go to. -/
structure StackPage (pt : PageTable) (base : ℕ) : Prop where
  aligned : base % PGSIZE = 0
  above : PGSIZE ≤ base
  below : base + PGSIZE ≤ TRAPFRAME
  leaf : ∃ l, pt.leaf base = some l ∧ l.perm.u = true ∧ l.perm.w = true

theorem copyoutNew_nil (km : Kmem) (pt : PageTable) (va : ℕ) :
    copyoutNew km pt va [] = .ok (km, true) := by
  rw [copyoutNew, if_pos rfl]

/-- **`copyout` inside the stack page stores the bytes.** -/
theorem StackPage.copyoutNew {base va : ℕ} (h : StackPage pt base)
    (hd : Distinct pt) (km : Kmem) {src : List UInt8} (hlo : base ≤ va)
    (hhi : va + src.length ≤ base + PGSIZE) :
    ∃ km', copyoutNew km pt va src = .ok (km', true) ∧
      Stored pt va src.length (fun k => src.getD k 0) km km' := by
  by_cases hsrc : src = []
  · subst hsrc
    exact ⟨km, copyoutNew_nil km pt va, .refl ..⟩
  have hpos : 0 < src.length := List.length_pos_iff.mpr hsrc
  have halign := h.aligned
  have hbelow := h.below
  have hpage : pgrounddown va = base := by
    unfold pgrounddown PGSIZE at *
    omega
  have hoff : va - base = va % PGSIZE := by
    unfold pgrounddown PGSIZE at *
    omega
  obtain ⟨l, hl, hu, hw⟩ := h.leaf
  have hva : pt.leaf va = some l := by
    rw [← pt.leaf_pgrounddown, hpage, hl]
  have hmax : ¬ MAXVA ≤ base := by
    have := TRAPFRAME_lt_MAXVA
    omega
  have hfound : copyoutNewPage pt base = .ok (some l.frame.pa) := by
    unfold copyoutNewPage
    rw [if_neg hmax, hl]
    dsimp only
    rw [hu, hw]
    rfl
  have hn : min (PGSIZE - va % PGSIZE) src.length = src.length := by
    unfold PGSIZE at *
    omega
  have hfit : va % PGSIZE + src.length ≤ PGSIZE := by
    unfold PGSIZE at *
    omega
  have hwrite : kwrite km (l.frame.pa + va % PGSIZE) src =
      .ok (km.memmove (l.frame.pa + va % PGSIZE) (fun k => src.getD k 0)
        src.length) := by
    have hlo := l.frame.KERNBASE_le_pa
    have hhi := l.frame.pa_add_le
    exact if_pos ⟨by omega, by omega⟩
  refine ⟨_, ?_, stored_memmove hd _ km (by omega) hva hfit⟩
  rw [Exec.copyoutNew, if_neg hsrc]
  dsimp only
  rw [hpage, hfound, hoff, hn, List.take_length, List.drop_length]
  dsimp only
  rw [hwrite]
  exact copyoutNew_nil ..

/-! ## Pushing -/

theorem toUint64_sub {a b : ℕ} (ha : a < 2 ^ 64) (hb : b ≤ a) :
    toUint64 ((a : ℤ) - b) = a - b := by
  unfold toUint64
  omega

variable {n : ℕ}

/-- The subtraction does not wrap. -/
theorem push_eq {sp : ℕ} (hsp : sp < 2 ^ 64) (hn : n ≤ sp) :
    push sp n = (sp - n) / 16 * 16 := by
  unfold push
  rw [toUint64_sub hsp hn]
  dsimp only
  omega

/-- The kernel's copy of `argv` ends in a null pointer, and each string fits
in the page it was copied to. -/
structure Argv.Ok (argv : Argv) : Prop where
  ends : ∃ i, argv i = none
  fits : ∀ i s, argv i = some s → s.length < PGSIZE

/-- The strings of `argv` from `argc` on were pushed from `sp` on down to
`sp'`; each starts where rounding down leaves the exact difference. -/
structure Pushed (pt : PageTable) (base : ℕ) (argv : Argv) (argc sp : ℕ)
    (km : Kmem) (ustack : Fin MAXARG → ℕ) (km' : Kmem) (argc' sp' : ℕ)
    (ustack' : Fin MAXARG → ℕ) : Prop where
  le : argc ≤ argc'
  last : ∃ h : argc' < MAXARG, argv ⟨argc', h⟩ = none
  sp_le : sp' ≤ sp
  base_le : base ≤ sp'
  aligned : sp' % 16 = 0
  frame : ∀ va < TRAPFRAME, va < base ∨ sp ≤ va →
    imageByte km' pt va = imageByte km pt va
  kept : ∀ i : Fin MAXARG, i.val < argc → ustack' i = ustack i
  string : ∀ i : Fin MAXARG, argc ≤ i.val → i.val < argc' →
    ∃ str top, argv i = some str ∧
      (i.val = argc → top = sp) ∧
      (∀ j : Fin MAXARG, argc ≤ j.val → j.val + 1 = i.val →
        top = ustack' j) ∧
      str.length + 1 ≤ top ∧
      ustack' i = (top - (str.length + 1)) / 16 * 16 ∧
      sp' ≤ ustack' i ∧ top ≤ sp ∧
      ∀ k ≤ str.length, imageByte km' pt (ustack' i + k) =
        some ((str ++ [0]).getD k 0)
  bottom : (argc' = argc → sp' = sp) ∧
    ∀ j : Fin MAXARG, argc ≤ j.val → j.val + 1 = argc' → sp' = ustack' j

/-- One string and the strings after it. -/
theorem Pushed.cons {base argc sp argc' sp' : ℕ} {argv : Argv} {km₁ : Kmem}
    {ustack ustack' : Fin MAXARG → ℕ} {str : List UInt8}
    (hargc : argc < MAXARG) (hstr : argv ⟨argc, hargc⟩ = some str)
    (hfits : str.length + 1 ≤ sp) (hsp : sp ≤ base + PGSIZE)
    (hbase : base ≤ (sp - (str.length + 1)) / 16 * 16)
    (htop : base + PGSIZE ≤ TRAPFRAME)
    (hstored : Stored pt ((sp - (str.length + 1)) / 16 * 16)
      (str.length + 1) (fun k => (str ++ [0]).getD k 0) km km₁)
    (hrest : Pushed pt base argv (argc + 1)
      ((sp - (str.length + 1)) / 16 * 16) km₁
      (Function.update ustack ⟨argc, hargc⟩
        ((sp - (str.length + 1)) / 16 * 16)) km' argc' sp' ustack') :
    Pushed pt base argv argc sp km ustack km' argc' sp' ustack' := by
  generalize ha : (sp - (str.length + 1)) / 16 * 16 = a at *
  have hle : a + (str.length + 1) ≤ sp := by omega
  have hfirst : ustack' ⟨argc, hargc⟩ = a := by
    rw [hrest.kept ⟨argc, hargc⟩ (Nat.lt_succ_self argc),
      Function.update_self]
  refine ⟨Nat.le_of_succ_le hrest.le, hrest.last,
    Nat.le_trans hrest.sp_le (by omega), hrest.base_le, hrest.aligned,
    ?_, ?_, ?_, ?_, ?_⟩
  · intro va hva hout
    rw [hrest.frame va hva (by omega), hstored.bytes va hva,
      if_neg (by omega)]
  · intro i hi
    rw [hrest.kept i (Nat.lt_succ_of_lt hi), Function.update_of_ne]
    rintro rfl
    exact absurd hi (Nat.lt_irrefl _)
  · intro i hlo hhi
    rcases Nat.eq_or_lt_of_le hlo with heq | hlt
    · -- this string
      obtain rfl : i = ⟨argc, hargc⟩ := Fin.ext heq.symm
      refine ⟨str, sp, hstr, fun _ => rfl, ?_, hfits, ?_, ?_,
        Nat.le_refl _, ?_⟩
      · intro j hj hsucc
        exact absurd hsucc (by dsimp only; omega)
      · rw [hfirst, ha]
      · rw [hfirst]
        exact hrest.sp_le
      · intro k hk
        rw [hfirst, hrest.frame (a + k) (by omega) (by omega),
          hstored.bytes (a + k) (by omega), if_pos ⟨by omega, by omega⟩,
          Nat.add_sub_cancel_left]
    · obtain ⟨str', top, hstr', hhead, hnext, hlen, haddr, hlow, hmax,
        hbytes⟩ := hrest.string i hlt hhi
      refine ⟨str', top, hstr', ?_, ?_, hlen, haddr, hlow, by omega, hbytes⟩
      · intro heq
        omega
      · intro j hj hsucc
        rcases Nat.eq_or_lt_of_le hj with heq | hlt'
        · obtain rfl : j = ⟨argc, hargc⟩ := Fin.ext heq.symm
          rw [hfirst]
          exact hhead hsucc.symm
        · exact hnext j hlt' hsucc
  · intro heq
    have := hrest.le
    omega
  · intro j hj hsucc
    rcases Nat.eq_or_lt_of_le hj with heq | hlt
    · obtain rfl : j = ⟨argc, hargc⟩ := Fin.ext heq.symm
      rw [hfirst]
      exact hrest.bottom.1 hsucc.symm
    · exact hrest.bottom.2 j hlt hsucc

variable {argv : Argv}

/-- **The loop over the strings**: it ends, no index leaves the arrays, and
nothing outside the stack page is touched. -/
theorem pushStrings_ok {base : ℕ} (h : StackPage pt base) (hd : Distinct pt)
    (hargv : argv.Ok) (n : ℕ) : ∀ {argc sp : ℕ} (km : Kmem)
    (ustack : Fin MAXARG → ℕ), argc + n = MAXARG + 1 →
    (∃ i, argc ≤ i.val ∧ argv i = none) → base ≤ sp →
    sp ≤ base + PGSIZE → sp % 16 = 0 → ∃ km' pushed,
      pushStrings pt base argv n argc sp km ustack = .ok (km', pushed) ∧
      km'.freelist = km.freelist ∧ (∀ f ∉ pt.pages, km.SameIn km' f) ∧
      (∀ va < TRAPFRAME, va < base ∨ base + PGSIZE ≤ va →
        imageByte km' pt va = imageByte km pt va) ∧
      ∀ argc' sp' ustack', pushed = some (argc', sp', ustack') →
        Pushed pt base argv argc sp km ustack km' argc' sp' ustack' := by
  have hbelow := h.below
  have habove := h.above
  have htrap : TRAPFRAME < 2 ^ 38 := by decide
  induction n with
  | zero =>
    rintro argc sp km ustack hn ⟨i, hi, -⟩
    have := i.isLt
    omega
  | succ n ih =>
    rintro argc sp km ustack hn ⟨i, hi, hnull⟩ hlo hhi halign
    have hargc : argc < MAXARG := Nat.lt_of_le_of_lt hi i.isLt
    have hget : argv.get argc = .ok (argv ⟨argc, hargc⟩) := dif_pos hargc
    rw [pushStrings, hget]
    dsimp only [bind, Except.bind]
    cases hstr : argv ⟨argc, hargc⟩ with
    | none =>
      refine ⟨km, _, rfl, rfl, fun _ _ _ _ => rfl, fun _ _ _ => rfl, ?_⟩
      rintro _ _ _ ⟨⟩
      refine ⟨Nat.le_refl _, ⟨hargc, hstr⟩, Nat.le_refl _, hlo, halign,
        fun _ _ _ => rfl, fun _ _ => rfl, ?_, fun _ => rfl, ?_⟩
      · intro j hj hj'
        omega
      · intro j hj hj'
        omega
    | some str =>
      have hlen := hargv.fits _ _ hstr
      have hpush := push_eq (show sp < 2 ^ 64 by omega)
        (show str.length + 1 ≤ sp by omega)
      dsimp only
      rw [if_neg (by omega), hpush]
      split
      · exact ⟨km, none, rfl, rfl, fun _ _ _ _ => rfl, fun _ _ _ => rfl,
          by rintro _ _ _ ⟨⟩⟩
      rename_i hroom
      have hsrc : (str ++ [0]).length = str.length + 1 := by simp
      obtain ⟨km₁, hcopy, hstored⟩ := @StackPage.copyoutNew pt base
        ((sp - (str.length + 1)) / 16 * 16) h hd km (str ++ [0])
        (by omega) (by omega)
      rw [hsrc] at hstored
      have hset : setUstack ustack argc
          ((sp - (str.length + 1)) / 16 * 16) =
          .ok (Function.update ustack ⟨argc, hargc⟩
            ((sp - (str.length + 1)) / 16 * 16)) := dif_pos hargc
      rw [hcopy]
      dsimp only
      rw [if_pos rfl, hset]
      have hnull' : ∃ j : Fin MAXARG, argc + 1 ≤ j.val ∧
          argv j = none := by
        refine ⟨i, Nat.lt_of_le_of_ne hi ?_, hnull⟩
        rintro rfl
        rw [hnull] at hstr
        cases hstr
      obtain ⟨km', pushed, hloop, hlist, hsame, hframe, hpushed⟩ :=
        ih km₁ (Function.update ustack ⟨argc, hargc⟩
          ((sp - (str.length + 1)) / 16 * 16))
          (show argc + 1 + n = MAXARG + 1 by omega) hnull'
          (show base ≤ (sp - (str.length + 1)) / 16 * 16 by omega)
          (by omega) (by omega)
      refine ⟨km', pushed, hloop, hlist.trans hstored.freelist,
        fun f hf => (hstored.same f hf).trans (hsame f hf), ?_, ?_⟩
      · intro va hva hout
        rw [hframe va hva hout, hstored.bytes va hva, if_neg (by omega)]
      · intro argc' sp' ustack' hres
        exact (hpushed argc' sp' ustack' hres).cons hargc hstr
          (by omega) hhi (by omega) (by omega) hstored

/-! ## The array of pointers -/

/-- The `uint64` at a user address. -/
def WordAt (km : Kmem) (pt : PageTable) (va x : ℕ) : Prop :=
  ∃ b : ℕ → UInt8, (∀ k < 8, imageByte km pt (va + k) = some (b k)) ∧
    leNat b 0 8 = x

theorem leNat_div (x : ℕ) : ∀ k i,
    leNat (fun j => UInt8.ofNat (x / 256 ^ j)) i k =
      x / 256 ^ i % 256 ^ k
  | 0, i => by
    rw [leNat, Nat.pow_zero, Nat.mod_one]
  | k + 1, i => by
    have hbyte : (UInt8.ofNat (x / 256 ^ i)).toNat = x / 256 ^ i % 256 :=
      UInt8.toNat_ofNat'
    rw [leNat, leNat_div x k (i + 1), hbyte, Nat.pow_succ 256 i,
      ← Nat.div_div_eq_div_mul, Nat.pow_succ 256 k,
      Nat.mul_comm (256 ^ k) 256, Nat.mod_mul]

/-- The bytes of a `uint64` make it up again. -/
theorem leNat_word {x : ℕ} (hx : x < 2 ^ 64) :
    leNat (fun j => UInt8.ofNat (x / 256 ^ j)) 0 8 = x := by
  rw [leNat_div, Nat.pow_zero, Nat.div_one]
  exact Nat.mod_eq_of_lt hx

/-- An entry of a list of words, byte by byte. -/
theorem getD_flatMap_words {α : Type} (f : α → ℕ) {k : ℕ} (hk : k < 8) :
    ∀ (l : List α) (i : ℕ) (hi : i < l.length),
    (l.flatMap fun a => wordBytes (f a)).getD (8 * i + k) 0 =
      UInt8.ofNat (f l[i] / 256 ^ k)
  | [], i, hi => by cases hi
  | a :: l, 0, _ => by
    have hlen : (wordBytes (f a)).length = 8 := by simp [wordBytes]
    rw [List.flatMap_cons, Nat.mul_zero, Nat.zero_add,
      List.getD_append _ _ _ _ (by omega)]
    simp [wordBytes, List.getD_eq_getElem?_getD, hk]
  | a :: l, i + 1, hi => by
    have hlen : (wordBytes (f a)).length = 8 := by simp [wordBytes]
    rw [List.flatMap_cons, List.getD_append_right _ _ _ _ (by omega),
      show 8 * (i + 1) + k - (wordBytes (f a)).length = 8 * i + k by omega,
      getD_flatMap_words f hk l i (Nat.lt_of_succ_lt_succ hi)]
    rfl

theorem length_ustackBytes (ustack : Fin MAXARG → ℕ) (hn : n ≤ MAXARG) :
    (ustackBytes ustack n).length = 8 * n := by
  have hword : ∀ x, (wordBytes x).length = 8 := fun x => by simp [wordBytes]
  have htake : ((List.finRange MAXARG).take n).length = n := by
    rw [List.length_take, List.length_finRange, Nat.min_eq_left hn]
  rw [ustackBytes, List.length_flatMap, List.map_congr_left
    fun i _ => hword (ustack i), List.map_const', List.sum_replicate, htake]
  exact Nat.mul_comm n 8

/-- **The array of pointers reads back** as the entries of `ustack`. -/
theorem wordAt_ustack {ustack : Fin MAXARG → ℕ} {sp : ℕ} (hn : n ≤ MAXARG)
    (hsp : sp + 8 * n ≤ TRAPFRAME)
    (h : Stored pt sp (8 * n) (fun k => (ustackBytes ustack n).getD k 0)
      km km') {i : Fin MAXARG} (hi : i.val < n) (hlt : ustack i < 2 ^ 64) :
    WordAt km' pt (sp + 8 * i.val) (ustack i) := by
  refine ⟨fun j => UInt8.ofNat (ustack i / 256 ^ j), ?_, leNat_word hlt⟩
  intro k hk
  rw [h.bytes _ (by omega), if_pos ⟨by omega, by omega⟩,
    show sp + 8 * i.val + k - sp = 8 * i.val + k by omega]
  have hlen : i.val < ((List.finRange MAXARG).take n).length := by
    rw [List.length_take, List.length_finRange, Nat.min_eq_left hn]
    exact hi
  refine congrArg some ((getD_flatMap_words ustack hk _ _ hlen).trans ?_)
  rw [List.getElem_take, List.getElem_finRange]
  rfl

/-- **The argument block**: from `sp` on `argc` pointers and a null pointer,
each pointer to the string that it stands for, all of it apart from each other
on the stack page. -/
structure ArgBlock (km : Kmem) (pt : PageTable) (base : ℕ) (argv : Argv)
    (argc sp : ℕ) (addr : Fin MAXARG → ℕ) : Prop where
  last : ∃ h : argc < MAXARG, argv ⟨argc, h⟩ = none
  aligned : sp % 16 = 0
  base_le : base ≤ sp
  pointer : ∀ i : Fin MAXARG, i.val < argc →
    WordAt km pt (sp + 8 * i.val) (addr i)
  null : WordAt km pt (sp + 8 * argc) 0
  string : ∀ i : Fin MAXARG, i.val < argc → ∃ str top, argv i = some str ∧
    (i.val = 0 → top = base + PGSIZE) ∧
    (∀ j : Fin MAXARG, j.val + 1 = i.val → top = addr j) ∧
    str.length + 1 ≤ top ∧
    addr i = (top - (str.length + 1)) / 16 * 16 ∧
    sp + 8 * (argc + 1) ≤ addr i ∧ top ≤ base + PGSIZE ∧
    ∀ k ≤ str.length, imageByte km pt (addr i + k) =
      some ((str ++ [0]).getD k 0)
  array : ∃ top, (argc = 0 → top = base + PGSIZE) ∧
    (∀ j : Fin MAXARG, j.val + 1 = argc → top = addr j) ∧
    8 * (argc + 1) ≤ top ∧ sp = (top - 8 * (argc + 1)) / 16 * 16 ∧
    top ≤ base + PGSIZE

/-- **The strings and the pointers to them**: it never stops the kernel, and
touches nothing outside the stack page. -/
theorem pushArgs_ok {base : ℕ} (h : StackPage pt base) (hd : Distinct pt)
    (hargv : argv.Ok) (km : Kmem) : ∃ km' pushed,
      pushArgs km pt (base + PGSIZE) argv = .ok (km', pushed) ∧
      km'.freelist = km.freelist ∧ (∀ f ∉ pt.pages, km.SameIn km' f) ∧
      (∀ va < TRAPFRAME, va < base ∨ base + PGSIZE ≤ va →
        imageByte km' pt va = imageByte km pt va) ∧
      ∀ argc sp, pushed = some (argc, sp) →
        ∃ addr, ArgBlock km' pt base argv argc sp addr := by
  have hbelow := h.below
  have habove := h.above
  have halign := h.aligned
  have htrap : TRAPFRAME < 2 ^ 38 := by decide
  have hbase : toUint64 (((base + PGSIZE : ℕ) : ℤ) - USERSTACK * PGSIZE) =
      base := by
    have hone : (USERSTACK : ℤ) * PGSIZE = PGSIZE := one_mul _
    rw [hone, toUint64_sub (by omega) (by omega), Nat.add_sub_cancel]
  obtain ⟨i, hi⟩ := hargv.ends
  obtain ⟨km₁, pushed, hloop, hlist, hsame, hframe, hpushed⟩ :=
    pushStrings_ok h hd hargv (MAXARG + 1) km (fun _ => 0)
      (Nat.zero_add _) ⟨i, Nat.zero_le _, hi⟩
      (show base ≤ base + PGSIZE by omega) (Nat.le_refl _)
      (by unfold PGSIZE at *; omega)
  unfold pushArgs
  dsimp only
  rw [hbase, hloop]
  dsimp only [bind, Except.bind]
  cases pushed with
  | none => exact ⟨km₁, none, rfl, hlist, hsame, hframe, by rintro _ _ ⟨⟩⟩
  | some r =>
    obtain ⟨argc, sp, ustack⟩ := r
    have hp := hpushed argc sp ustack rfl
    obtain ⟨hargc, hnull⟩ := hp.last
    have hset : setUstack ustack argc 0 =
        .ok (Function.update ustack ⟨argc, hargc⟩ 0) := dif_pos hargc
    have hsp := hp.sp_le
    have hmaxarg : MAXARG = 32 := rfl
    have hpage : PGSIZE = 4096 := rfl
    have hlow := hp.base_le
    have hpush := push_eq (show sp < 2 ^ 64 by omega)
      (show (argc + 1) * 8 ≤ sp by omega)
    dsimp only
    rw [hset]
    dsimp only
    rw [hpush]
    split
    · exact ⟨km₁, none, rfl, hlist, hsame, hframe, by rintro _ _ ⟨⟩⟩
    rename_i hroom
    generalize ha : (sp - (argc + 1) * 8) / 16 * 16 = a at *
    have hlen := length_ustackBytes
      (Function.update ustack ⟨argc, hargc⟩ 0)
      (show argc + 1 ≤ MAXARG by omega)
    obtain ⟨km₂, hcopy, hstored⟩ := @StackPage.copyoutNew pt base a h hd km₁
      (ustackBytes (Function.update ustack ⟨argc, hargc⟩ 0) (argc + 1))
      (by omega) (by omega)
    rw [hlen] at hstored
    rw [hcopy]
    refine ⟨km₂, some (argc, a), rfl, hstored.freelist.trans hlist,
      fun f hf => (hsame f hf).trans (hstored.same f hf), ?_, ?_⟩
    · intro va hva hout
      rw [hstored.bytes va hva, if_neg (by omega), hframe va hva hout]
    · rintro _ _ ⟨⟩
      have haddr : ∀ j : Fin MAXARG, j.val < argc →
          Function.update ustack ⟨argc, hargc⟩ 0 j = ustack j := by
        intro j hj
        rw [Function.update_of_ne]
        rintro rfl
        exact absurd hj (Nat.lt_irrefl _)
      have hlt : ∀ j : Fin MAXARG, j.val ≤ argc →
          Function.update ustack ⟨argc, hargc⟩ 0 j < 2 ^ 64 := by
        intro j hj
        rcases Nat.lt_or_ge j.val argc with hj' | hj'
        · obtain ⟨str, top, -, -, -, -, hplace, -, htop, -⟩ :=
            hp.string j (Nat.zero_le _) hj'
          rw [haddr j hj', hplace]
          omega
        · obtain rfl : j = ⟨argc, hargc⟩ :=
            Fin.ext (Nat.le_antisymm hj hj')
          rw [Function.update_self]
          decide
      have hword : ∀ j : Fin MAXARG, j.val ≤ argc →
          WordAt km₂ pt (a + 8 * j.val)
            (Function.update ustack ⟨argc, hargc⟩ 0 j) := fun j hj =>
        wordAt_ustack (by omega) (by omega) hstored
          (Nat.lt_succ_of_le hj) (hlt j hj)
      refine ⟨ustack, ⟨hargc, hnull⟩, by omega, by omega, ?_, ?_, ?_,
        sp, hp.bottom.1, fun j => hp.bottom.2 j (Nat.zero_le _), by omega,
        by omega, hsp⟩
      · intro j hj
        rw [← haddr j hj]
        exact hword j (Nat.le_of_lt hj)
      · have := hword ⟨argc, hargc⟩ (Nat.le_refl _)
        rwa [Function.update_self] at this
      · intro j hj
        obtain ⟨str, top, hstr, hhead, hnext, hfits, hplace, hmin, htop,
          hbytes⟩ := hp.string j (Nat.zero_le _) hj
        refine ⟨str, top, hstr, hhead, ?_, hfits, hplace, by omega, htop,
          ?_⟩
        · intro j' hsucc
          exact hnext j' (Nat.zero_le _) hsucc
        · intro k hk
          rw [hstored.bytes _ (by omega), if_neg (by omega)]
          exact hbytes k hk

/-! ## `kexec` from the stack on -/

theorem Image.rounded {sz : ℕ} (h : Image pool rest km pt sz) :
    Image pool rest km pt (pgroundup sz) := by
  have hup := h.pgroundup_le
  have hram : RAM = 2 ^ 27 := by decide
  have hround : pgroundup (pgroundup sz) = pgroundup sz :=
    pgroundup_of_mod (by omega) (pgroundup_mod sz)
  refine ⟨h.ledger, ?_, ?_, h.trap, hup⟩
  · intro va hva hle
    rw [hround] at hle
    exact h.below va hva hle
  · rw [hround]
    exact h.mapped

/-- The stack with its arguments is on top of the image, above a page out of
the user's reach. -/
structure StackDone (km : Kmem) (pt : PageTable) (sz : ℕ) (argv : Argv)
    (km' : Kmem) (pt' : PageTable) (sz' argc sp : ℕ) : Prop where
  size : sz' = pgroundup sz + 2 * PGSIZE
  low : ∀ va < pgroundup sz, pt'.leaf va = pt.leaf va ∧
    imageByte km' pt' va = imageByte km pt va
  guard : ∀ va, pgroundup sz ≤ va → va < pgroundup sz + PGSIZE →
    ∃ l, pt'.leaf va = some l ∧ l.perm.u = false
  stack : ∀ va, pgroundup sz + PGSIZE ≤ va → va < sz' →
    ∃ l, pt'.leaf va = some l ∧ l.perm.u = true ∧ l.perm.w = true
  block : ∃ addr, ArgBlock km' pt' (pgroundup sz + PGSIZE) argv argc sp addr

/-- **`kexec` from the stack on** never stops the kernel, whatever the
arguments, and touches only the image. -/
theorem kexecStack_ok {sz : ℕ} (h : Image pool rest km pt sz) (hargv : argv.Ok) :
    ∃ km' pt' sz' pushed,
      kexecStack km pt sz argv = .ok (km', pt', sz', pushed) ∧
      Image pool rest km' pt' sz' ∧ (∀ f ∈ rest, km.SameIn km' f) ∧
      ∀ argc sp, pushed = some (argc, sp) →
        StackDone km pt sz argv km' pt' sz' argc sp := by
  have hram : RAM = 2 ^ 27 := by decide
  have hup := h.pgroundup_le
  have hround : pgroundup (pgroundup sz) = pgroundup sz :=
    pgroundup_of_mod (by omega) (pgroundup_mod sz)
  have hpage : PGSIZE = 4096 := rfl
  have hmod := pgroundup_mod sz
  have hmax : MAXVA = 2 ^ 38 := rfl
  have hsum : (pgroundup sz + (USERSTACK + 1) * PGSIZE) % 2 ^ 64 =
      pgroundup sz + 2 * PGSIZE := by
    unfold USERSTACK
    omega
  obtain ⟨km₁, pt₁, r, halloc, hsame, hcases⟩ :=
    h.rounded.resize (pgroundup sz + 2 * PGSIZE) (userPerm { w := true })
  unfold kexecStack
  dsimp only
  rw [hsum, lift_eq_ok.mpr halloc]
  dsimp only [bind, Except.bind]
  rcases hcases with ⟨hr, himage, hsized⟩ | ⟨rfl, himage, -⟩
  · obtain rfl : r = pgroundup sz + 2 * PGSIZE := by omega
    have htop : pgroundup (pgroundup sz + 2 * PGSIZE) =
        pgroundup sz + 2 * PGSIZE :=
      pgroundup_of_mod (by omega) (by rw [Nat.add_mul_mod_self_right, hmod])
    have hguard : toUint64 (((pgroundup sz + 2 * PGSIZE : ℕ) : ℤ) -
        (USERSTACK + 1) * PGSIZE) = pgroundup sz := by
      have htwo : ((USERSTACK : ℤ) + 1) * PGSIZE = (2 * PGSIZE : ℕ) := rfl
      rw [htwo, toUint64_sub (by omega) (by omega), Nat.add_sub_cancel]
    obtain ⟨pt₂, hclear, himage₂, hg⟩ := @Image.uvmclear pool rest km₁ pt₁
      (pgroundup sz + 2 * PGSIZE) (pgroundup sz) himage (by omega)
    rw [if_neg (by omega), hguard, hclear]
    dsimp only
    have hother : ∀ va < MAXVA, va < pgroundup sz ∨
        pgroundup sz + PGSIZE ≤ va → pt₂.leaf va = pt₁.leaf va := by
      intro va hva hout
      apply hg.other va hva
      unfold pgrounddown PGSIZE at *
      omega
    have hlast := himage.sz_le
    have hstack : ∀ va, pgroundup sz + PGSIZE ≤ va →
        va < pgroundup sz + 2 * PGSIZE →
        ∃ l, pt₂.leaf va = some l ∧ l.perm.u = true ∧ l.perm.w = true := by
      intro va hlo hhi
      obtain ⟨f, hf⟩ := hsized.fresh va (by omega) (by omega)
      exact ⟨_, (hother va (by omega) (Or.inr hlo)).trans hf, rfl, rfl⟩
    have htrap := RAM_lt_TRAPFRAME
    have hpage₂ : StackPage pt₂ (pgroundup sz + PGSIZE) :=
      ⟨by rw [Nat.add_mod_right, hmod], by omega, by omega,
        hstack _ (Nat.le_refl _) (by omega)⟩
    obtain ⟨km₂, pushed, hpush, hlist, hsame₂, hframe, hdone⟩ :=
      pushArgs_ok hpage₂ himage₂.distinct hargv km₁
    have htwo : pgroundup sz + PGSIZE + PGSIZE = pgroundup sz + 2 * PGSIZE :=
      by omega
    rw [htwo] at hpush hframe
    rw [hpush]
    refine ⟨km₂, pt₂, pgroundup sz + 2 * PGSIZE, pushed, rfl,
      himage₂.congr hlist,
      fun f hf => (hsame f hf).trans (hsame₂ f (himage₂.rest_not_page hf)),
      ?_⟩
    intro argc sp hres
    refine ⟨rfl, ?_, ?_, hstack, hdone argc sp hres⟩
    · intro va hva
      refine ⟨(hother va (by omega) (Or.inl hva)).trans
        (hsized.low va (by omega)), ?_⟩
      rw [hframe va (by omega) (by omega), hg.byte km₁ va (by omega),
        hsized.bytes va (by omega), if_pos (by omega)]
    · intro va hlo hhi
      obtain ⟨l, hl, hu⟩ := hg.guard
      refine ⟨l, ?_, hu⟩
      rw [← hl]
      apply PageTable.leaf_congr
      unfold pgrounddown PGSIZE at *
      omega
  · exact ⟨km₁, pt₁, pgroundup sz, none, rfl, himage, hsame,
      by rintro _ _ ⟨⟩⟩

end Xv6.Exec
