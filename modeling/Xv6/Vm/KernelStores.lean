import Xv6.Vm.Contents
import Xv6.Vm.Copyin
import Xv6.Vm.ExactWriteBack
import Xv6.Vm.Sysfile

/-!
# Bytes that the kernel puts into a shared mapping

`read`, `fstat`, `wait` and `pipe` store into user memory through `copyout`,
which writes by the kernel's own mapping of RAM. The dirty bit of the user's
PTE is then not set, and write-back goes by that bit. So what `copyout` stored
reaches the file only if the program has stored into the same page as well.
-/

namespace Xv6.Vm

open Framework

/-! ## Stores and copies, put on record -/

/-- A store instruction of the program, or a copy of the kernel. -/
inductive Put
  | store (va : UInt64) (b : UInt8)
  | copyout (dstva : UInt64) (src : List UInt8)

/-- The kernel with a record of the byte put last at every address. -/
structure Noted where
  st : State
  last : ℕ → Option UInt8

/-- Bytes were put at `va`. -/
def note (last : ℕ → Option UInt8) (va : ℕ) (bs : List UInt8) :
    ℕ → Option UInt8 :=
  fun x => if va ≤ x ∧ x < va + bs.length then bs[x - va]? else last x

/-- `copyout` with every round on record: a call that fails has put the bytes
of the rounds before. -/
def copyoutNoted (n : Noted) (dstva : ℕ) (src : List UInt8) :
    Except Panic (Noted × Bool) :=
  if src = [] then .ok (n, true)
  else
    let va0 := pgrounddown dstva
    match copyoutPage n.st va0 with
    | .error e => .error e
    | .ok (s, none) => .ok (⟨s, n.last⟩, false)
    | .ok (s, some pa0) =>
        let m := min (PGSIZE - (dstva - va0)) src.length
        match kwrite s.kmem ((pa0 + (dstva - va0)) % 2 ^ 64) (src.take m) with
        | .error e => .error e
        | .ok km =>
            copyoutNoted ⟨{ s with kmem := km },
              note n.last dstva (src.take m)⟩ ((va0 + PGSIZE) % 2 ^ 64)
              (src.drop m)
termination_by src.length
decreasing_by
  rename_i hsrc
  have := pgrounddown_le dstva
  have := lt_pgrounddown_add dstva
  have : 0 < src.length := List.length_pos_iff.mpr hsrc
  rw [List.length_drop]
  omega

/-- The record aside, this is `copyout`. -/
theorem copyoutNoted_copyout (n : Noted) (dstva : ℕ) (src : List UInt8) :
    (copyoutNoted n dstva src).map (Prod.map Noted.st id) =
      copyout n.st dstva src := by
  fun_induction copyoutNoted n dstva src with
  | case1 n =>
    rw [copyout, if_pos rfl]
    rfl
  | case2 n dstva src hsrc va0 e hpage =>
    rw [copyout, if_neg hsrc]
    simp only [va0] at hpage
    simp only [hpage]
    rfl
  | case3 n dstva src hsrc va0 s hpage =>
    rw [copyout, if_neg hsrc]
    simp only [va0] at hpage
    simp only [hpage]
    rfl
  | case4 n dstva src hsrc va0 s pa0 hpage m e hwrite =>
    rw [copyout, if_neg hsrc]
    simp only [va0, m] at hpage hwrite
    simp only [hpage, hwrite]
    rfl
  | case5 n dstva src hsrc va0 s pa0 hpage m km hwrite ih =>
    rw [ih, copyout.eq_def n.st, if_neg hsrc]
    simp only [va0, m] at hpage hwrite
    simp only [hpage, hwrite, va0, m]

/-- One store instruction, which goes through or traps, or one copy. -/
def putStep (n : Noted) : Put → Except Panic Noted
  | .store va b => do
      let s ← userStore n.st va.toNat b
      .ok ⟨s, match translateStore n.st.p.pagetable va.toNat with
        | some _ => note n.last va.toNat [b]
        | none => n.last⟩
  | .copyout dstva src => (copyoutNoted n dstva.toNat src).map Prod.fst

/-! ## The record is what memory holds -/

/-- Pages are apart from each other, and every byte on record is in memory. -/
structure Recorded (n : Noted) : Prop where
  separate : Separate n.st
  bytes : ∀ va b, n.last va = some b → va < MAXVA ∧
    ∃ l, n.st.p.pagetable.leaf va = some l ∧
      n.st.kmem.mem (l.frame.pa + va % PGSIZE) = b

variable {s : State} {va va0 pa0 : ℕ} {l : Leaf} {bs : List UInt8}

namespace Recorded

variable {n : Noted} {s' : State}

theorem start (h : Separate s) : Recorded ⟨s, fun _ => none⟩ :=
  ⟨h, fun _ _ hnone => by cases hnone⟩

theorem of_same (h : Recorded n) (hmem : s'.kmem = n.st.kmem)
    (hpt : s'.p.pagetable = n.st.p.pagetable) : Recorded ⟨s', n.last⟩ where
  separate := h.separate.of_frames (by rw [hmem])
    fun va _ l hl => ⟨l, hpt ▸ hl, rfl⟩
  bytes := by
    intro va b hb
    obtain ⟨hva, l, hl, hbyte⟩ := h.bytes va b hb
    exact ⟨hva, l, by rw [hpt, hl], by rw [hmem, hbyte]⟩

/-- A fault brings a page in and leaves the record true. -/
theorem fault {r : ℕ} {read : Bool} (h : Recorded n)
    (hfault : vmfault n.st va read = .ok (s', r)) :
    Recorded ⟨s', n.last⟩ where
  separate := vmfault_separate h.separate hfault
  bytes := by
    intro vb b hb
    obtain ⟨hvb, l, hl, hbyte⟩ := h.bytes vb b hb
    refine ⟨hvb, l, vmfault_leaf hvb hl hfault, ?_⟩
    rw [← hbyte]
    exact (vmfault_spares hfault).same l.frame (h.separate.free vb hvb l hl) _
      (Nat.mod_lt _ (by decide))

/-- Bytes written into one page, at the address the record gets them at. -/
theorem write (h : Recorded n) (hva : va < MAXVA)
    (hl : n.st.p.pagetable.leaf va = some l)
    (hfit : va % PGSIZE + bs.length ≤ PGSIZE)
    (hfree : s'.kmem.freelist = n.st.kmem.freelist)
    (hmem : ∀ x, s'.kmem.mem x = if l.frame.pa + va % PGSIZE ≤ x ∧
        x < l.frame.pa + va % PGSIZE + bs.length then
        bs.getD (x - (l.frame.pa + va % PGSIZE)) 0 else n.st.kmem.mem x)
    (hleaf : ∀ vb < MAXVA, (s'.p.pagetable.leaf vb).map Leaf.frame =
      (n.st.p.pagetable.leaf vb).map Leaf.frame) :
    Recorded ⟨s', note n.last va bs⟩ := by
  have hframe : ∀ vb < MAXVA, ∀ m, n.st.p.pagetable.leaf vb = some m →
      ∃ m', s'.p.pagetable.leaf vb = some m' ∧ m'.frame = m.frame := by
    intro vb hvb m hm
    have := hleaf vb hvb
    rw [hm, Option.map_some, Option.map_eq_some_iff] at this
    exact this
  refine ⟨h.separate.of_frames (by rw [hfree]) ?_, ?_⟩
  · intro vb hvb m hm
    have := (hleaf vb hvb).symm
    rw [hm, Option.map_some, Option.map_eq_some_iff] at this
    exact this
  · intro x b hx
    simp only [note] at hx
    split at hx
    · -- one of the new bytes, on the page of `va`
      rename_i hin
      have hpage : pgrounddown x = pgrounddown va ∧
          x % PGSIZE = va % PGSIZE + (x - va) := by
        unfold pgrounddown PGSIZE at *
        omega
      have hxmax : x < MAXVA := by
        unfold pgrounddown MAXVA PGSIZE at *
        omega
      have hlx : n.st.p.pagetable.leaf x = some l := by
        rw [← hl]
        exact PageTable.leaf_congr _ hpage.1
      obtain ⟨m', hm', hmf⟩ := hframe x hxmax l hlx
      refine ⟨hxmax, m', hm', ?_⟩
      rw [hmem, hmf, hpage.2, if_pos ⟨by omega, by omega⟩,
        show l.frame.pa + (va % PGSIZE + (x - va)) -
          (l.frame.pa + va % PGSIZE) = x - va by omega,
        List.getD_eq_getElem?_getD, hx]
      rfl
    · -- an old byte, elsewhere in memory
      rename_i hout
      obtain ⟨hxmax, m, hm, hbyte⟩ := h.bytes x b hx
      obtain ⟨m', hm', hmf⟩ := hframe x hxmax m hm
      refine ⟨hxmax, m', hm', ?_⟩
      have hmod := Nat.mod_lt x (show 0 < PGSIZE by decide)
      rw [hmem, hmf, ← hbyte]
      refine if_neg ?_
      rintro ⟨hlo, hhi⟩
      have hsame : m.frame = l.frame := by
        by_contra hne
        exact Frame.add_ne (Ne.symm hne) hmod (m.frame.pa + x % PGSIZE)
          ⟨by omega, by omega⟩ rfl
      have hpage := h.separate.one x hxmax va hva m l hm hl hsame
      rw [hsame] at hlo hhi
      unfold pgrounddown PGSIZE at *
      omega

/-- A store instruction that goes through. -/
theorem store (h : Recorded n) (b : UInt8)
    (hl : translateStore n.st.p.pagetable va = some l) :
    Recorded ⟨storeThrough n.st va l b, note n.last va [b]⟩ := by
  obtain ⟨hva, hleaf, -⟩ := translateStore_some hl
  have hmod := Nat.mod_lt va (show 0 < PGSIZE by decide)
  refine h.write hva hleaf hmod rfl ?_ ?_
  · intro x
    show (if _ ∧ _ then b else _) = _
    simp only [List.length_singleton]
    by_cases hx : l.frame.pa + va % PGSIZE ≤ x ∧
        x < l.frame.pa + va % PGSIZE + 1
    · rw [if_pos hx, if_pos hx,
        show x - (l.frame.pa + va % PGSIZE) = 0 by omega]
      rfl
    · rw [if_neg hx, if_neg hx]
  · intro vb hvb
    rw [storeThrough_leaf b hl hvb]
    split
    · rename_i hpage
      rw [PageTable.leaf_congr _ hpage, hleaf]
      rfl
    · rfl

theorem copyinPage (h : Recorded n)
    (hpage : copyinPage n.st va0 = .ok (s', pa0)) : Recorded ⟨s', n.last⟩ := by
  unfold Vm.copyinPage at hpage
  split at hpage
  · exact h.fault hpage
  · cases hpage
    exact h

/-- What a round of `copyout` does before it writes. -/
theorem copyoutPage {o : Option ℕ} (h : Recorded n)
    (hpage : copyoutPage n.st va0 = .ok (s', o)) : Recorded ⟨s', n.last⟩ := by
  unfold Vm.copyoutPage at hpage
  split at hpage
  · cases hpage
    exact h
  · obtain ⟨⟨s₁, pa⟩, hin, hpage⟩ := bind_ok_iff.mp hpage
    have hs := h.copyinPage hin
    dsimp only at hpage
    split at hpage
    · cases hpage
      exact hs
    · split at hpage
      · cases hpage
      · cases hpage
        exact hs
      · cases hpage
        exact hs

end Recorded

/-- The page that `copyin` or `copyout` works on is a page of the user, or
the -1 of a denied store. -/
theorem copyinPage_leaf {s' : State} (hva : va0 < MAXVA)
    (h : copyinPage s va0 = .ok (s', pa0)) (hzero : pa0 ≠ 0)
    (hl : s'.p.pagetable.leaf va0 = some l) :
    pa0 = l.frame.pa ∨ pa0 = negOne := by
  unfold copyinPage at h
  split at h
  · by_cases hneg : pa0 = negOne
    · exact Or.inr hneg
    · obtain ⟨l', hr, -, hleaf, -⟩ := vmfault_served h hzero hneg
      rw [hleaf va0 rfl] at hl
      cases hl
      exact Or.inl hr
  · obtain ⟨rfl, hpa⟩ := Prod.mk.inj (Except.ok.inj h)
    rw [walkaddr_of_leaf hva hl] at hpa
    split at hpa
    · exact Or.inl hpa.symm
    · exact absurd hpa.symm hzero

/-- A round of `copyout` writes to a page of the user, or to -1. -/
theorem copyoutPage_leaf {s' : State}
    (h : copyoutPage s va0 = .ok (s', some pa0)) : va0 < MAXVA ∧
      ∃ l, s'.p.pagetable.leaf va0 = some l ∧
        (pa0 = l.frame.pa ∨ pa0 = negOne) := by
  unfold copyoutPage at h
  split at h
  · cases h
  · rename_i hva
    have hva : va0 < MAXVA := Nat.not_le.mp hva
    obtain ⟨⟨s₁, pa⟩, hin, h⟩ := bind_ok_iff.mp h
    dsimp only at h
    split at h
    · cases h
    · rename_i hzero
      split at h
      · cases h
      · cases h
      · rename_i l hl
        obtain ⟨rfl, hpa⟩ := Prod.mk.inj (Except.ok.inj h)
        split at hpa
        · cases hpa
          have hleaf : s₁.p.pagetable.leaf va0 = some l := by
            rw [PageTable.leaf_eq_join, hl]
            rfl
          exact ⟨hva, l, hleaf, copyinPage_leaf hva hin hzero hleaf⟩
        · cases hpa

/-- The kernel cannot write around address -1. -/
theorem kwrite_negOne (km : Kmem) {off : ℕ} (hoff : off < PGSIZE)
    (hbs : bs ≠ []) :
    kwrite km ((negOne + off) % 2 ^ 64) bs = .error .kerneltrap := by
  have hlen : 0 < bs.length := List.length_pos_iff.mpr hbs
  rw [kwrite, if_neg]
  unfold negOne KERNBASE PHYSTOP KERNBASE PGSIZE at *
  omega

theorem kwrite_ok {km km' : Kmem} {a : ℕ} (h : kwrite km a bs = .ok km') :
    km'.freelist = km.freelist ∧
      ∀ x, km'.mem x = if a ≤ x ∧ x < a + bs.length then bs.getD (x - a) 0
        else km.mem x := by
  unfold kwrite at h
  split at h
  · cases h
    exact ⟨rfl, fun _ => rfl⟩
  · cases h

/-- **`copyout` keeps the record true**, in every round. -/
theorem recorded_copyout (n : Noted) (dstva : ℕ) (src : List UInt8) :
    ∀ r, Recorded n → copyoutNoted n dstva src = .ok r → Recorded r.1 := by
  fun_induction copyoutNoted n dstva src with
  | case1 n =>
    intro r hn h
    cases h
    exact hn
  | case2 =>
    intro r _ h
    cases h
  | case3 n dstva src hsrc va0 s hpage =>
    intro r hn h
    cases h
    exact hn.copyoutPage hpage
  | case4 =>
    intro r _ h
    cases h
  | case5 n dstva src hsrc va0 s pa0 hpage m km hwrite ih =>
    intro r hn h
    refine ih r ?_ h
    obtain ⟨hva, l, hl, hpa⟩ := copyoutPage_leaf hpage
    have hs := hn.copyoutPage hpage
    have hoff : dstva - va0 = dstva % PGSIZE := sub_pgrounddown dstva
    have hmod := Nat.mod_lt dstva (show 0 < PGSIZE by decide)
    have hlen : 0 < src.length := List.length_pos_iff.mpr hsrc
    have htake : (src.take m).length = m := by
      rw [List.length_take]
      omega
    have hpos : src.take m ≠ [] := by
      apply List.ne_nil_of_length_pos
      omega
    rcases hpa with rfl | rfl
    · have hnowrap : (l.frame.pa + dstva % PGSIZE) % 2 ^ 64 =
          l.frame.pa + dstva % PGSIZE := by
        have := l.frame.pa_add_le
        apply Nat.mod_eq_of_lt
        unfold PHYSTOP KERNBASE at this
        omega
      rw [hoff, hnowrap] at hwrite
      obtain ⟨hfree, hmem⟩ := kwrite_ok hwrite
      have hleaf : s.p.pagetable.leaf dstva = some l := by
        rw [← PageTable.leaf_pgrounddown]
        exact hl
      refine hs.write ?_ hleaf (by omega) hfree hmem (fun _ _ => rfl)
      have h₁ := lt_pgrounddown_add dstva
      have h₂ : va0 % PGSIZE = 0 := pgrounddown_mod dstva
      simp only [va0] at hva h₂
      unfold MAXVA PGSIZE at *
      omega
    · rw [hoff, kwrite_negOne _ hmod hpos] at hwrite
      cases hwrite

/-! ## Runs -/

/-- The process runs. -/
def Alive (n : Noted) (_ : Put) : Prop := n.st.p.state = .running

theorem recorded_step {n n' : Noted} (put : Put) (h : Recorded n)
    (hstep : putStep n put = .ok n') (hlive : n'.st.p.state = .running) :
    Recorded n' := by
  cases put with
  | store va b =>
    obtain ⟨s', hstore, hstep⟩ := bind_ok_iff.mp hstep
    cases hstep
    unfold userStore at hstore
    cases hl : translateStore n.st.p.pagetable va.toNat with
    | some l =>
      rw [hl] at hstore
      cases hstore
      exact h.store b hl
    | none =>
      rw [hl] at hstore
      obtain ⟨s₂, hfault, hret⟩ := bind_ok_iff.mp hstore
      obtain ⟨⟨s₁, r⟩, hvm, hfault⟩ := bind_ok_iff.mp hfault
      unfold usertrapret at hret
      split at hret
      · have hdead : s'.p.state = .zombie := kexit_zombie hret
        rw [show s'.p.state = .running from hlive] at hdead
        cases hdead
      · cases hret
        have hs₁ := h.fault hvm
        cases hfault
        dsimp only
        split
        · exact hs₁.of_same rfl rfl
        · exact hs₁
  | copyout dstva src =>
    obtain ⟨r, hcopy, hstep⟩ := map_ok_iff.mp hstep
    cases hstep
    exact recorded_copyout n dstva.toNat src r h hcopy

/-- **What was put into a shared mapping reaches the file** when it is
unmapped as a whole, whether the program or the kernel put it there, as long
as every page that has something on record is dirty and no dirty page lies
behind a page of the file that is not. -/
theorem puts_reach_file {s₀ : State} {n : Noted} {puts : List Put}
    {i : Fin NVMA} {j : InodeId} (hsep : Separate s₀)
    (hrun : Run putStep Alive ⟨s₀, fun _ => none⟩ puts n)
    (hlive : n.st.p.state = .running)
    (hm : SharedMapping n.st i j (n.st.p.vma i).start (n.st.p.vma i).end_)
    (hdirty : ∀ va, (n.st.p.vma i).Mem va → n.last va ≠ none →
      Dirty n.st.p.pagetable va)
    (hgap : NoGap n.st i j (n.st.p.vma i).start (n.st.p.vma i).end_) :
    ∃ s', uvmunmapVma n.st i (n.st.p.vma i).start (n.st.p.vma i).end_ =
        .ok (s', true) ∧ (s'.inode j).size = (n.st.inode j).size ∧
      ∀ va b, (n.st.p.vma i).Mem va → n.last va = some b →
        fileOffset (n.st.p.vma i) va < (n.st.inode j).size →
        (s'.inode j).byte (fileOffset (n.st.p.vma i) va) = b := by
  have hrec : Recorded n := by
    refine hrun.invariant
      (I := fun n => n.st.p.state = .running → Recorded n) ?_ ?_ hlive
    · intro n put n' h hok hstep
      exact recorded_step put (h hok) hstep
    · intro _
      exact .start hsep
  obtain ⟨s', hun, hexact⟩ := hm.exact_of_noGap hgap
  refine ⟨s', hun, hexact.size, ?_⟩
  intro va b hva hb hsize
  rw [hexact.written va hva.2.1 hva.2.2 (hdirty va hva (by rw [hb]; nofun))
    hsize]
  obtain ⟨-, l, hl, hbyte⟩ := hrec.bytes va b hb
  rw [userByte, hl]
  exact hbyte

/-! ## One page of a file -/

/-- Above the user's addresses are the two trap pages. -/
theorem bootTable_leaf_cases (hva : va < MAXVA) (h : bootTable.leaf va = some l) :
    (pgrounddown va = TRAPFRAME ∧ l.frame = 103) ∨
      (pgrounddown va = TRAMPOLINE ∧ l.frame = trampolineFrame) := by
  have h₁ : bootTable.leaf TRAPFRAME = some ⟨103, { r := true, w := true }⟩ := by
    decide +kernel
  have h₂ : bootTable.leaf TRAMPOLINE =
      some ⟨trampolineFrame, { r := true, x := true }⟩ := by
    decide +kernel
  have htrap : ¬ va < TRAPFRAME := by
    intro hlt
    rw [bootTable_leaf hlt] at h
    cases h
  have hpage : pgrounddown va = TRAPFRAME ∨ pgrounddown va = TRAMPOLINE := by
    unfold pgrounddown TRAPFRAME TRAMPOLINE MAXVA PGSIZE at *
    omega
  rw [← PageTable.leaf_pgrounddown] at h
  rcases hpage with hp | hp
  · rw [hp, h₁] at h
    cases h
    exact Or.inl ⟨hp, rfl⟩
  · rw [hp, h₂] at h
    cases h
    exact Or.inr ⟨hp, rfl⟩

theorem bootState_separate {freelist : List Frame} {f : File} {ip : Inode}
    (hnodup : freelist.Nodup)
    (hfree : 103 ∉ freelist ∧ trampolineFrame ∉ freelist) :
    Separate (bootState freelist f ip) where
  nodup := hnodup
  free := by
    intro va hva l hl
    rcases bootTable_leaf_cases hva hl with ⟨-, hf⟩ | ⟨-, hf⟩
    · rw [hf]
      exact hfree.1
    · rw [hf]
      exact hfree.2
  one := by
    intro va hva vb hvb l l' hl hl' heq
    rcases bootTable_leaf_cases hva hl with ⟨hp, hf⟩ | ⟨hp, hf⟩ <;>
      rcases bootTable_leaf_cases hvb hl' with ⟨hp', hf'⟩ | ⟨hp', hf'⟩
    · rw [hp, hp']
    · rw [hf, hf'] at heq
      exact absurd heq (by decide)
    · rw [hf, hf'] at heq
      exact absurd heq (by decide)
    · rw [hp, hp']

/-- The top page of the mapping region, shared for reading and writing. -/
def topPage : VMA :=
  { valid := true, start := 0x3fffffd000, end_ := 0x3fffffe000
    prot := 3, flags := 1, f := 0, offset := 0 }

/-- A process that has just mapped a file of one page there. -/
def justMapped : State :=
  let s := bootState [200, 201, 202] { rwFile with ref := 2 } pageInode
  { s with
    p := { s.p with
      mmapBase := 0x3fffffd000
      vma := fun i => if i = 0 then topPage else {} } }

theorem justMapped_separate : Separate justMapped :=
  (@bootState_separate [200, 201, 202] { rwFile with ref := 2 } pageInode
    (by decide) (by decide)).of_frames (.refl _) fun _ _ l hl => ⟨l, hl, rfl⟩

/-- What a run from there has to leave in place for the mapping to be
unmapped. -/
def stillMapped (s : State) : Bool :=
  decide (s.p.state = .running) && decide (s.p.vma 0 = topPage) &&
    decide ((s.file 0).ref = 2) && decide ((s.file 0).type = .inode) &&
    decide ((s.file 0).ip = some 0) && decide ((s.inode 0).ref = 1) &&
    (s.p.pagetable.leaf 0x3fffffd000).all fun l =>
      l.perm.u && decide l.frame.Usable

theorem sharedMapping_of_stillMapped (h : stillMapped s = true) :
    SharedMapping s 0 0 (s.p.vma 0).start (s.p.vma 0).end_ := by
  simp only [stillMapped, Bool.and_eq_true, decide_eq_true_eq] at h
  obtain ⟨⟨⟨⟨⟨⟨-, hv⟩, hfref⟩, htype⟩, hip⟩, hiref⟩, hleaf⟩ := h
  rw [hv]
  refine ⟨by rw [hv]; rfl, by rw [hv]; rfl, ?_, by rw [hv]; decide,
    by rw [hv]; decide, by decide, by decide, by decide, ?_, ?_, ?_, ?_, ?_,
    ?_, ?_⟩
  · rw [hv]
    exact ⟨by decide, by decide, by decide, by decide⟩
  · rw [hv]
    exact Or.inl ⟨rfl, Nat.le_refl _⟩
  · rw [hv]
    show 0 < (s.file 0).ref
    omega
  · rw [hv]
    exact htype
  · rw [hv]
    exact hip
  · omega
  · intro va l hlo hhi hl
    have hpage : pgrounddown va = pgrounddown 0x3fffffd000 := by
      change 0x3fffffd000 ≤ va at hlo
      change va < 0x3fffffe000 at hhi
      unfold pgrounddown PGSIZE
      omega
    rw [s.p.pagetable.leaf_congr hpage] at hl
    rw [hl] at hleaf
    simpa using hleaf
  · intro _ _ hone
    rw [hv, show topPage.f = 0 from rfl, hfref] at hone
    cases hone

theorem running_of_stillMapped (h : stillMapped s = true) :
    s.p.state = .running ∧ s.p.vma 0 = topPage := by
  simp only [stillMapped, Bool.and_eq_true, decide_eq_true_eq] at h
  exact h.1.1.1.1.1

theorem dirty_of_stillMapped (h : stillMapped s = true)
    (hd : (s.p.pagetable.leaf 0x3fffffd000).any (fun l => l.perm.d) = true)
    (hva : (s.p.vma 0).Mem va) : Dirty s.p.pagetable va := by
  rw [(running_of_stillMapped h).2] at hva
  have hpage : pgrounddown va = pgrounddown 0x3fffffd000 := by
    have hlo : 0x3fffffd000 ≤ va := hva.2.1
    have hhi : va < 0x3fffffe000 := hva.2.2
    unfold pgrounddown PGSIZE
    omega
  rw [Dirty.congr hpage]
  obtain ⟨l, hl, hdl⟩ := exists_some_of_any hd
  exact ⟨l, hl, hdl⟩

/-- In one page there is no gap. -/
theorem noGap_of_stillMapped (h : stillMapped s = true) :
    NoGap s 0 0 (s.p.vma 0).start (s.p.vma 0).end_ := by
  rw [(running_of_stillMapped h).2]
  intro p q hp hq hap hpq hqb
  change 0x3fffffd000 ≤ p at hap
  change q < 0x3fffffe000 at hqb
  unfold PGSIZE at hp hq
  omega

instance (n : Noted) (put : Put) : Decidable (Alive n put) :=
  inferInstanceAs (Decidable (_ = _))

/-- The program stores a byte, the kernel copies two behind it, and all three
reach the file. -/
theorem puts_reach_file_page : ∃ n s',
    Run putStep Alive ⟨justMapped, fun _ => none⟩
      [.store 0x3fffffd000 7, .store 0x3fffffd000 7,
        .copyout 0x3fffffd001 [8, 9]] n ∧
    uvmunmapVma n.st 0 0x3fffffd000 0x3fffffe000 = .ok (s', true) ∧
    (s'.inode 0).byte 0 = 7 ∧ (s'.inode 0).byte 2 = 9 := by
  obtain ⟨n, hn, htest⟩ := exists_some_of_any
    (o := Run.checked putStep Alive ⟨justMapped, fun _ => none⟩
      [.store 0x3fffffd000 7, .store 0x3fffffd000 7,
        .copyout 0x3fffffd001 [8, 9]])
    (p := fun n => stillMapped n.st &&
      decide (n.last 0x3fffffd000 = some 7) &&
      decide (n.last 0x3fffffd002 = some 9) &&
      decide ((n.st.inode 0).size = 4096) &&
      (n.st.p.pagetable.leaf 0x3fffffd000).any fun l => l.perm.d)
    (by decide +kernel)
  simp only [Bool.and_eq_true, decide_eq_true_eq] at htest
  obtain ⟨⟨⟨⟨hstill, h₁⟩, h₂⟩, hsize⟩, hd⟩ := htest
  have hrun := Run.of_checked hn
  obtain ⟨hlive, hv⟩ := running_of_stillMapped hstill
  obtain ⟨s', hun, -, hbytes⟩ := puts_reach_file justMapped_separate hrun hlive
    (sharedMapping_of_stillMapped hstill)
    (fun va hva _ => dirty_of_stillMapped hstill hd hva)
    (noGap_of_stillMapped hstill)
  rw [hv] at hun hbytes
  refine ⟨n, s', hrun, hun, ?_, ?_⟩
  · exact hbytes 0x3fffffd000 7 ⟨rfl, by decide, by decide⟩ h₁
      (by rw [hsize]; decide)
  · exact hbytes 0x3fffffd002 9 ⟨rfl, by decide, by decide⟩ h₂
      (by rw [hsize]; decide)

/-- The kernel copies a byte into a page that the program has not stored to;
after the unmapping the file still has the old one. -/
theorem copyout_lost : ∃ n s',
    Run putStep Alive ⟨justMapped, fun _ => none⟩
      [.copyout 0x3fffffd000 [8]] n ∧
    SharedMapping n.st 0 0 (n.st.p.vma 0).start (n.st.p.vma 0).end_ ∧
    uvmunmapVma n.st 0 0x3fffffd000 0x3fffffe000 = .ok (s', true) ∧
    n.last 0x3fffffd000 = some 8 ∧
    fileOffset (n.st.p.vma 0) 0x3fffffd000 < (n.st.inode 0).size ∧
    (s'.inode 0).byte (fileOffset (n.st.p.vma 0) 0x3fffffd000) ≠ 8 := by
  obtain ⟨n, hn, htest⟩ := exists_some_of_any
    (o := Run.checked putStep Alive ⟨justMapped, fun _ => none⟩
      [.copyout 0x3fffffd000 [8]])
    (p := fun n => stillMapped n.st &&
      decide (n.last 0x3fffffd000 = some 8) &&
      decide (fileOffset (n.st.p.vma 0) 0x3fffffd000 < (n.st.inode 0).size) &&
      (uvmunmapVma n.st 0 0x3fffffd000 0x3fffffe000).toOption.any
        fun x : State × Bool => x.2 && decide ((x.1.inode 0).byte
          (fileOffset (n.st.p.vma 0) 0x3fffffd000) ≠ 8))
    (by decide +kernel)
  simp only [Bool.and_eq_true, decide_eq_true_eq] at htest
  obtain ⟨⟨⟨hstill, hlast⟩, hsize⟩, hany⟩ := htest
  obtain ⟨⟨s', done⟩, hun, hx⟩ := exists_ok_of_any hany
  simp only [Bool.and_eq_true, decide_eq_true_eq] at hx
  obtain ⟨rfl, hbyte⟩ := hx
  exact ⟨n, s', Run.of_checked hn, sharedMapping_of_stillMapped hstill, hun,
    hlast, hsize, hbyte⟩

end Xv6.Vm
