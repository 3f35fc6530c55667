import Xv6.Exec.Args

/-!
# The commit of `exec` (`kernel/exec.c`: `kexec`)

The last thing `kexec` does is to free the old page table. `freewalk` does not
get through it if a page above the size is still mapped. And it takes seven
frames to get there: three page tables for the trap pages, two at the bottom,
a guard page and a stack. With so many there is a file that does.
-/

namespace Xv6.Exec

open Framework Vm

variable {pool rest used : Multiset Frame} {km km' : Kmem} {pt : PageTable}
  {c : Caller}

/-! ## `freewalk` -/

/-- `freewalk` panics, or takes a page of data for a page table. -/
def FreewalkStop (e : Panic) : Prop := e = .freewalkLeaf ∨ e = .freewalkData

instance (e : Panic) : Decidable (FreewalkStop e) :=
  inferInstanceAs (Decidable (_ ∨ _))

/-- With frames that can be freed `freewalk` stops only over a leaf. -/
theorem freewalk_stop {e : Panic} (hframes : ∀ f ∈ pt.frames, f.Usable)
    (h : freewalk km pt = .error e) : FreewalkStop e := by
  have hfree : ∀ {f : Frame} (km : Kmem), f.Usable →
      Meets (fun e => ¬ FreewalkStop e) (kfree km f) fun _ => True := by
    intro f km hf
    obtain ⟨km', hcall, -⟩ := kfree_of_usable km hf
    rw [hcall]
    exact .ok trivial
  have hleaf : ∀ (t : Table Frame 512 (Option Leaf)) (km : Kmem),
      t.frame.Usable → Meets (fun e => ¬ FreewalkStop e)
        (freewalkLeafPage km t) fun _ => True := by
    intro t km ht
    unfold freewalkLeafPage
    split
    · refine .error (not_not.mpr ?_)
      split
      · exact Or.inl rfl
      · exact Or.inr rfl
    · exact hfree km ht
  have hmid : ∀ (m : Mid Frame 512 (Option Leaf)) (km : Kmem),
      (∀ f ∈ Root.midFrames m, f.Usable) → Meets (fun e => ¬ FreewalkStop e)
        (freewalkMid km m) fun _ => True := by
    intro m km hm
    refine Meets.bind (Meets.foldlM_inv (I := fun _ => True) ?_ trivial)
      fun km _ => hfree km (hm _ (Root.mem_midFrames.mpr (Or.inl rfl)))
    intro km j _
    cases hj : m.entry j with
    | none => exact .ok trivial
    | some t =>
      exact hleaf t km (hm _ (Root.mem_midFrames.mpr (Or.inr ⟨j, t, hj, rfl⟩)))
  have hwalk : Meets (fun e => ¬ FreewalkStop e) (freewalk km pt)
      fun _ => True := by
    refine Meets.bind (Meets.foldlM_inv (I := fun _ => True) ?_ trivial)
      fun km _ => hfree km (hframes _ (Root.mem_frames.mpr (Or.inl rfl)))
    intro km i _
    cases hi : pt.root.entry i with
    | none => exact .ok trivial
    | some m =>
      exact hmid m km fun f hf =>
        hframes f (Root.mem_frames.mpr (Or.inr ⟨i, m, hi, hf⟩))
  exact not_not.mp (hwalk.fails e h)

theorem uvmunmapLoop_no_stop (doFree : Bool) : ∀ (n a : ℕ) (km : Kmem)
    (pt : PageTable), Meets FreewalkStop (uvmunmapLoop doFree n a km pt)
      fun _ => True := by
  intro n
  induction n with
  | zero => exact fun _ _ _ => .ok trivial
  | succ n ih =>
    intro a km pt
    rw [uvmunmapLoop]
    have hwalk : Meets FreewalkStop (walk pt a) fun _ => True := by
      unfold walk
      split
      · exact .ok trivial
      · exact .error (by decide)
    refine hwalk.bind fun e _ => ?_
    split
    · refine Meets.bind (Q := fun _ => True) ?_ fun km _ => ih _ _ _
      unfold kfreeIf
      split
      · unfold kfree
        split
        · exact .error (by decide)
        · exact .ok trivial
      · exact .ok trivial
    · exact ih _ _ _

theorem freewalk_stops_iff (km : Kmem)
    (hframes : ∀ f ∈ pt.frames, f.Usable) :
    (∃ e, FreewalkStop e ∧ freewalk km pt = .error e) ↔
      ∃ va < MAXVA, pt.leaf va ≠ none := by
  constructor
  · rintro ⟨e, -, hwalk⟩
    by_contra hall
    obtain ⟨km', hok, -⟩ := freewalk_ok km (fun va hva => by
      by_contra hleaf
      exact hall ⟨va, hva, hleaf⟩) hframes
    cases hok.symm.trans hwalk
  · rintro ⟨va, -, hleaf⟩
    cases hwalk : freewalk km pt with
    | ok km' => exact absurd (leaf_of_freewalk hwalk va) hleaf
    | error e => exact ⟨e, freewalk_stop hframes hwalk, rfl⟩

/-- A page of the user above the size is mapped; `uvmfree` leaves it. -/
def LeftMapped (pt : PageTable) (sz : ℕ) : Prop :=
  ∃ va < TRAPFRAME, pgroundup sz ≤ va ∧ pt.leaf va ≠ none

variable {sz : ℕ}

theorem leftMapped_iff {pt₁ : PageTable}
    (hhigh : ∀ va < MAXVA, TRAPFRAME ≤ va → pt.leaf va = none)
    (hin : ∀ va < MAXVA, va < pgroundup sz → pt₁.leaf va = none)
    (hout : ∀ va < MAXVA, pgroundup sz ≤ va → pt₁.leaf va = pt.leaf va) :
    (∃ va < MAXVA, pt₁.leaf va ≠ none) ↔ LeftMapped pt sz := by
  constructor
  · rintro ⟨va, hva, hleaf⟩
    rcases Nat.lt_or_ge va (pgroundup sz) with hlt | hge
    · exact absurd (hin va hva hlt) hleaf
    · rw [hout va hva hge] at hleaf
      refine ⟨va, ?_, hge, hleaf⟩
      by_contra htrap
      exact hleaf (hhigh va hva (Nat.not_lt.mp htrap))
  · rintro ⟨va, hva, hge, hleaf⟩
    have hmax := Nat.lt_trans hva TRAPFRAME_lt_MAXVA
    exact ⟨va, hmax, hout va hmax hge ▸ hleaf⟩

theorem uvmfree_stops_iff (km : Kmem) (hframes : ∀ f ∈ pt.frames, f.Usable)
    (huser : ∀ va < TRAPFRAME, ∀ l, pt.leaf va = some l → l.frame.Usable)
    (hhigh : ∀ va < MAXVA, TRAPFRAME ≤ va → pt.leaf va = none) :
    (∃ e, FreewalkStop e ∧ uvmfree km pt sz = .error e) ↔
      LeftMapped pt sz := by
  have hmod := pgroundup_mod sz
  have htrap := TRAPFRAME_lt_MAXVA
  have hspan : 0 + pgroundup sz / PGSIZE * PGSIZE = pgroundup sz := by
    unfold PGSIZE at *
    omega
  have hbound : pgroundup sz < 2 ^ 64 := by
    unfold pgroundup PGSIZE
    omega
  unfold uvmfree
  split
  · cases hun : uvmunmap km pt 0 (pgroundup sz / PGSIZE) true with
    | error e =>
      constructor
      · rintro ⟨e', hstop, he⟩
        cases he
        unfold uvmunmap at hun
        rw [if_neg (by decide)] at hun
        exact absurd hstop ((uvmunmapLoop_no_stop ..).fails e hun)
      · rintro ⟨va, hva, hle, -⟩
        -- below the trap pages the walk does not panic
        obtain ⟨km₁, pt₁, hok⟩ := @uvmunmap_ok km pt 0
          (pgroundup sz / PGSIZE) true (by decide) (by omega) (by
            intro _ f hf
            obtain ⟨k, hk, l, hl, rfl⟩ := mem_leafFrames.mp hf
            refine huser _ ?_ l hl
            unfold PGSIZE at *
            omega)
        cases hok.symm.trans hun
    | ok r =>
      obtain ⟨km₁, pt₁⟩ := r
      have hspec := uvmunmap_spec (by omega) hun
      dsimp only [bind, Except.bind]
      rw [freewalk_stops_iff km₁ (by rw [hspec.frames]; exact hframes)]
      refine leftMapped_iff hhigh ?_ ?_
      · intro va hva hlt
        exact hspec.inside va hva (Nat.zero_le _) (by omega)
      · intro va hva hge
        exact hspec.outside va hva (by omega)
  · rename_i hzero
    obtain rfl : sz = 0 := by omega
    rw [freewalk_stops_iff km hframes]
    exact leftMapped_iff hhigh (fun _ _ h => absurd h (Nat.not_lt_zero _))
      fun _ _ _ => rfl

/-- **`freewalk` stops in `proc_freepagetable` just when a page is left.** -/
theorem procFreepagetable_stops_iff (hled : Ledger pool km (pt.owned + rest)) :
    (∃ e, FreewalkStop e ∧ procFreepagetable km pt sz = .error e) ↔
      LeftMapped pt sz := by
  obtain ⟨km₁, pt₁, heq, -, hframes, hlow, hhigh⟩ :=
    procFreepagetable_eq km pt sz
  have husable : ∀ f ∈ pt.owned, f.Usable := fun f hf =>
    hled.usable f (hled.sum ▸ Multiset.mem_add.mpr
      (Or.inr (Multiset.mem_add.mpr (Or.inl hf))))
  rw [heq, uvmfree_stops_iff km₁ ?_ ?_ hhigh]
  · constructor
    · rintro ⟨va, hva, hle, hleaf⟩
      exact ⟨va, hva, hle, hlow va hva ▸ hleaf⟩
    · rintro ⟨va, hva, hle, hleaf⟩
      exact ⟨va, hva, hle, (hlow va hva).symm ▸ hleaf⟩
  · intro f hf
    exact husable f (Multiset.mem_add.mpr (Or.inl (hframes ▸ hf)))
  · intro va hva l hl
    rw [hlow va hva] at hl
    exact husable _ (PageTable.mem_owned hva hl)

/-! ## What an image takes -/

/-- Two pages at the bottom and the trapframe at the top: seven frames. -/
theorem Image.seven_le (h : Image pool used km pt sz) (hsz : 2 * PGSIZE ≤ sz) :
    7 ≤ pt.owned.card := by
  have hup : sz ≤ pgroundup sz :=
    le_pgroundup (Nat.lt_of_le_of_lt h.sz_le (by decide))
  have hpage : PGSIZE = 4096 := rfl
  have hne : ∀ va, va < 2 * PGSIZE → pt.leaf va ≠ none := by
    intro va hva
    obtain ⟨l, hl⟩ := h.mapped va (by omega)
    rw [hl]
    exact Option.some_ne_none l
  have htables : 5 ≤ pt.frames.length :=
    Root.five_le_length_frames (show px 2 0 ≠ px 2 TRAPFRAME by decide)
      (pte_of_leaf (hne 0 (by omega))) (pte_of_leaf h.trap)
  obtain ⟨l₀, hl₀⟩ := Option.ne_none_iff_exists'.mp
    (hne 0 (by omega))
  obtain ⟨l₁, hl₁⟩ := Option.ne_none_iff_exists'.mp
    (hne PGSIZE (by omega))
  have hl₁' : (pt.setPte 0 none).leaf PGSIZE = some l₁ := by
    rw [PageTable.leaf_setPte_of_ne pt none (by decide) (by decide)
      (by decide), hl₁]
  rw [PageTable.owned, Multiset.card_add, Multiset.coe_card,
    PageTable.pages_setPte_none rfl (by decide) hl₀,
    PageTable.pages_setPte_none rfl (by decide) hl₁', Multiset.card_cons,
    Multiset.card_cons]
  omega

/-- **The commit is out of reach with fewer than seven free frames.** -/
theorem Ready.seven_le {exe : Option (InodeId × Inode)} {argv : Argv}
    {c₁ : Caller} {entry argc sp : ℕ} (hled : Ledger pool c.st.kmem used)
    (h : Ready pool used c exe argv c₁ entry pt sz argc sp) :
    7 ≤ c.st.kmem.freelist.length := by
  obtain ⟨_, _, r, _, _, -, -, -, -, -, hstack⟩ := h.loaded
  have hsize := hstack.size
  have hseven := h.image.seven_le (by omega)
  have hbefore := congrArg Multiset.card hled.sum
  have hafter := congrArg Multiset.card h.image.ledger.sum
  simp only [Multiset.card_add, Multiset.coe_card] at hbefore hafter
  omega

/-! ## A file that gets to the commit -/

/-- Three frames are enough for the trap pages. -/
theorem procPagetable_of_three (trapframe : Frame)
    (hfree : 3 ≤ km.freelist.length) : ∃ km' pt,
      procPagetable km trapframe = .ok (km', some pt) ∧
      km.freelist.length ≤ km'.freelist.length + 3 := by
  have hmod : TRAMPOLINE % PGSIZE = 0 := by decide
  unfold procPagetable
  cases halloc : kalloc km with
  | none =>
    rw [kalloc_none halloc] at hfree
    cases hfree
  | some fk =>
    obtain ⟨f, km₀⟩ := fk
    rw [kalloc_some halloc, List.length_cons] at hfree ⊢
    have hcreate : uvmcreate km =
        some (PageTable.empty f, km₀.memset f.pa 0 PGSIZE) := by
      simp [uvmcreate, halloc]
    have hempty : ∀ va, (PageTable.empty f).leaf va = none := fun va => rfl
    obtain ⟨km₁, pt₁, done₁, hmap₁, -⟩ := mappages_tables
      (km₀.memset f.pa 0 PGSIZE) trampolineFrame { r := true, x := true }
      hmod TRAMPOLINE_lt_MAXVA (hempty _)
    have htook₁ := mappages_took hmap₁
    rw [Kmem.freelist_memset] at htook₁
    have htwo := htook₁.two
    rcases mappages_spec hmap₁ with ⟨rfl, hm₁⟩ | ⟨rfl, -⟩
    · -- the page for the trampoline is the one for the trapframe
      have hthere : pt₁.pte TRAMPOLINE ≠ none := by
        apply pte_of_leaf
        rw [hm₁.self _ (pgrounddown_of_mod hmod)]
        exact Option.some_ne_none _
      have hleaf : pt₁.leaf TRAPFRAME = none := by
        rw [hm₁.other _ TRAPFRAME_lt_MAXVA (by decide)]
        exact hempty _
      obtain ⟨km₂, pt₂, done₂, hmap₂, -⟩ := mappages_tables km₁ trapframe
        { r := true, w := true } TRAPFRAME_mod TRAPFRAME_lt_MAXVA hleaf
      obtain ⟨hsame, rfl⟩ := (mappages_took hmap₂).nothing
        (pte_congr (by decide) (by decide) hthere)
      refine ⟨km₂, pt₂, ?_, by rw [hsame]; omega⟩
      simp only [hcreate, hmap₁, hmap₂, bind, Except.bind, if_true]
    · have := htook₁.short rfl
      omega

/-- A page can be added if there is a frame for it and for its tables. -/
theorem mappages_of_room (perm : Perm) {va : ℕ} (ha : va % PGSIZE = 0)
    (hva : va < MAXVA) (hleaf : pt.leaf va = none)
    (hroom : 3 ≤ km.freelist.length ∨
      1 ≤ km.freelist.length ∧ pt.pte va ≠ none) : ∃ f km₁ km₂ pt₂,
      kalloc km = some (f, km₁) ∧
      mappages (km₁.memset f.pa 0 PGSIZE) pt va f perm =
        .ok (km₂, pt₂, true) ∧
      (pt.pte va ≠ none → km.freelist.length = km₂.freelist.length + 1) ∧
      km.freelist.length ≤ km₂.freelist.length + 3 := by
  cases halloc : kalloc km with
  | none =>
    rw [kalloc_none halloc, List.length_nil] at hroom
    omega
  | some fk =>
    obtain ⟨f, km₁⟩ := fk
    rw [kalloc_some halloc, List.length_cons] at hroom ⊢
    obtain ⟨km₂, pt₂, done, hmap, -⟩ := mappages_tables
      (km₁.memset f.pa 0 PGSIZE) f perm ha hva hleaf
    have htook := mappages_took hmap
    rw [Kmem.freelist_memset] at htook
    have htwo := htook.two
    have hdone : done = true := by
      cases done with
      | true => rfl
      | false =>
        obtain ⟨hshort, -⟩ := htook.short rfl
        rcases hroom with hroom | ⟨-, hthere⟩
        · omega
        · exact (htook.nothing hthere).2
    subst hdone
    refine ⟨f, km₁, km₂, pt₂, rfl, hmap, fun hthere => ?_, by omega⟩
    rw [(htook.nothing hthere).1]

/-- Four frames are enough for two pages at the bottom. -/
theorem uvmalloc_of_four (perm : Perm) (hfree : 4 ≤ km.freelist.length)
    (himage : Image pool used km pt 0) : ∃ km' pt',
      uvmalloc km pt 0 (2 * PGSIZE) perm = .ok (km', pt', 2 * PGSIZE) := by
  have hnone : ∀ va < TRAPFRAME, pt.leaf va = none := fun va hva =>
    himage.below va hva (Nat.zero_le va)
  obtain ⟨f, km₁, km₂, pt₂, halloc, hmap, -, htook⟩ := mappages_of_room
    perm rfl (show 0 < MAXVA by decide) (hnone 0 (by decide))
    (Or.inl (Nat.le_of_succ_le hfree))
  rcases mappages_spec hmap with ⟨-, hm⟩ | ⟨hfalse, -⟩
  · have hthere : pt₂.pte 0 ≠ none := by
      apply pte_of_leaf
      rw [hm.self 0 rfl]
      exact Option.some_ne_none _
    have hleaf : pt₂.leaf PGSIZE = none := by
      rw [hm.other _ (by decide) (by decide)]
      exact hnone _ (by decide)
    have hleft : 1 ≤ km₂.freelist.length := by omega
    obtain ⟨f', km₃, km₄, pt₄, halloc', hmap', -, -⟩ := mappages_of_room
      perm rfl (by decide) hleaf
      (Or.inr ⟨hleft, pte_congr (by decide) (by decide) hthere⟩)
    refine ⟨km₄, pt₄, ?_⟩
    have hround : (2 * PGSIZE - pgroundup 0 + PGSIZE - 1) / PGSIZE = 2 := by
      decide
    unfold uvmalloc
    rw [if_neg (Nat.not_lt_zero _)]
    dsimp only
    rw [hround, show pgroundup 0 = 0 from rfl]
    simp only [uvmallocLoop, halloc, hmap, halloc', hmap', bind, Except.bind,
      if_true, Nat.zero_add]
  · cases hfalse

theorem pushStrings_none (pt : PageTable) (base n sp : ℕ) (km : Kmem)
    (ustack : Fin MAXARG → ℕ) :
    pushStrings pt base (fun _ => none) (n + 1) 0 sp km ustack =
      .ok (km, some (0, sp, ustack)) := by
  unfold pushStrings Argv.get
  rw [dif_pos (by decide)]
  rfl

theorem setUstack_zero (ustack : Fin MAXARG → ℕ) (x : ℕ) :
    setUstack ustack 0 x =
      .ok (Function.update ustack ⟨0, by decide⟩ x) := by
  unfold setUstack
  rw [dif_pos (by decide)]

theorem pushArgs_eq {base sp : ℕ}
    (hbase : toUint64 ((sz : ℤ) - USERSTACK * PGSIZE) = base)
    (hsp : push sz ((0 + 1) * 8) = sp) (hlo : base ≤ sp)
    (hcopy : copyoutNew km pt sp (ustackBytes
      (Function.update (fun _ => 0) ⟨0, by decide⟩ 0) (0 + 1)) =
        .ok (km', true)) :
    pushArgs km pt sz (fun _ => none) = .ok (km', some (0, sp)) := by
  unfold pushArgs
  dsimp only
  rw [hbase, pushStrings_none]
  dsimp only [bind, Except.bind]
  rw [setUstack_zero]
  dsimp only
  rw [hsp, if_neg (Nat.not_lt.mpr hlo), hcopy]
  rfl

/-- Without arguments there is room on the stack. -/
theorem pushArgs_none {base : ℕ} (h : StackPage pt base) (hd : Distinct pt)
    (km : Kmem) : ∃ km' sp, pushArgs km pt (base + PGSIZE) (fun _ => none) =
      .ok (km', some (0, sp)) := by
  have hpage : PGSIZE = 4096 := rfl
  have hbelow := h.below
  have htrap : TRAPFRAME < 2 ^ 38 := by decide
  have hbase : toUint64 (((base + PGSIZE : ℕ) : ℤ) - USERSTACK * PGSIZE) =
      base := by
    have hone : (USERSTACK : ℤ) * PGSIZE = (PGSIZE : ℕ) := one_mul _
    rw [hone, toUint64_sub (by omega) (by omega), Nat.add_sub_cancel]
  obtain ⟨sp, hsp, hlo, hhi⟩ : ∃ sp,
      push (base + PGSIZE) ((0 + 1) * 8) = sp ∧ base ≤ sp ∧
      sp + 8 ≤ base + PGSIZE := by
    refine ⟨_, push_eq (by omega) (by omega), ?_, ?_⟩
    · have := h.aligned
      unfold PGSIZE at *
      omega
    · omega
  obtain ⟨km', hcopy, -⟩ := @StackPage.copyoutNew pt base sp h hd km
    (ustackBytes (Function.update (fun _ => 0) ⟨0, by decide⟩ 0) (0 + 1))
    hlo (by rw [length_ustackBytes _ (by decide)]; exact hhi)
  exact ⟨km', sp, pushArgs_eq hbase hsp hlo hcopy⟩

/-- A stack on top of nothing. -/
theorem kexecStack_of_four (hfree : 4 ≤ km.freelist.length)
    (himage : Image pool used km pt 0) : ∃ km' pt' sz sp,
      kexecStack km pt 0 (fun _ => none) = .ok (km', pt', sz, some (0, sp)) := by
  obtain ⟨km₁, pt₁, halloc⟩ :=
    uvmalloc_of_four (userPerm { w := true }) hfree himage
  obtain ⟨_, _, _, halloc', -, hcases⟩ :=
    himage.resize (2 * PGSIZE) (userPerm { w := true })
  cases halloc.symm.trans halloc'
  rcases hcases with ⟨-, himage₁, hsized⟩ | ⟨hzero, -⟩
  · have hup : pgroundup (2 * PGSIZE) = 2 * PGSIZE := by decide
    obtain ⟨pt₂, hclear, himage₂, hg⟩ :=
      @Image.uvmclear pool used km₁ pt₁ (2 * PGSIZE) 0 himage₁ (by decide)
    have hstack : StackPage pt₂ PGSIZE := by
      refine ⟨by decide, Nat.le_refl _, by decide, ?_⟩
      obtain ⟨f, hf⟩ := hsized.fresh PGSIZE (by decide) (by decide)
      exact ⟨_, (hg.other _ (by decide) (by decide)).trans hf, rfl, rfl⟩
    obtain ⟨km₃, sp, hpush⟩ := pushArgs_none hstack himage₂.distinct km₁
    rw [← Nat.two_mul] at hpush
    refine ⟨km₃, pt₂, 2 * PGSIZE, sp, ?_⟩
    have hsum : (pgroundup 0 + (USERSTACK + 1) * PGSIZE) % 2 ^ 64 =
        2 * PGSIZE := by decide
    have hguard : toUint64 (((2 * PGSIZE : ℕ) : ℤ) -
        (USERSTACK + 1) * PGSIZE) = 0 := by
      have htwo : ((USERSTACK : ℤ) + 1) * PGSIZE = (2 * PGSIZE : ℕ) := rfl
      rw [htwo, toUint64_sub (by decide) (Nat.le_refl _), Nat.sub_self]
    unfold kexecStack
    dsimp only
    rw [hsum, show pgroundup 0 = 0 from rfl, lift_eq_ok.mpr halloc]
    dsimp only [bind, Except.bind]
    rw [if_neg (by decide), hguard, hclear]
    dsimp only
    rw [hpush]
  · cases hzero

theorem elfhdrSize_le_block : elfhdrSize ≤ 1 * BSIZE := by decide

theorem one_le_MAXFILE : 1 ≤ MAXFILE := by decide

/-- A program without segments. -/
def bareElf : Inode where
  type := 2
  nlink := 1
  size := elfhdrSize
  blocks := 1
  byte := fun k => ([0x7F, 0x45, 0x4C, 0x46] : List UInt8).getD k 0
  size_le := elfhdrSize_le_block
  blocks_le := one_le_MAXFILE

theorem kexecLoad_of_three {trapframe : Frame}
    (hfree : 3 ≤ km.freelist.length) : ∃ km' pt elf,
      kexecLoad km trapframe { bareElf with ref := 1 } =
        .ok ⟨km', some pt, 0, some elf⟩ ∧
      km.freelist.length ≤ km'.freelist.length + 3 := by
  obtain ⟨km', pt, hmake, htook⟩ := procPagetable_of_three trapframe hfree
  refine ⟨km', pt, elfOf { bareElf with ref := 1 }, ?_, htook⟩
  unfold kexecLoad
  rcases readVar_eq { bareElf with ref := 1 } (show 0 < 2 ^ 32 by decide)
    (show elfhdrSize < 2 ^ 31 by decide) (by decide) with
    ⟨b, hread, -, hb⟩ | ⟨-, hshort⟩
  · rw [hread]
    dsimp only
    have hdecode : Elfhdr.decode b = elfOf { bareElf with ref := 1 } :=
      Elfhdr.decode_congr fun j hj => (hb j hj).trans (by rw [Nat.zero_add])
    rw [hdecode, if_neg (by decide), lift_eq_ok.mpr hmake]
    dsimp only [bind, Except.bind]
    rw [show (elfOf { bareElf with ref := 1 }).phnum = 0 by decide]
    rfl
  · exact absurd hshort (by decide)

/-- **With seven free frames there is a file that gets to the commit.** -/
theorem kexec_of_seven (hled : Ledger pool c.st.kmem used)
    (hfree : 7 ≤ c.st.kmem.freelist.length) (hunused : (c.st.inode 0).ref = 0)
    (path : List UInt8) (c' : Caller) :
    kexec c path (some (0, bareElf)) (fun _ => none) ≠ .ok (c', none) := by
  obtain ⟨km', pt, elf, hload, htook⟩ :=
    @kexecLoad_of_three c.st.kmem c.st.p.trapframe (by omega)
  obtain ⟨_, hload', hok⟩ := kexecLoad_ok hled c.st.p.trapframe
    { bareElf with ref := 1 }
  cases hload.symm.trans hload'
  have hleft : 4 ≤ km'.freelist.length := by omega
  obtain ⟨km₂, pt₂, sz, sp, hstack⟩ :=
    kexecStack_of_four hleft (hok.image pt rfl)
  have hlookup : (lookupInode c.st 0 bareElf).inode 0 =
      { bareElf with ref := 1 } := by
    simp [lookupInode, hunused, State.setInode]
  have hlock : lift (ilock (lookupInode c.st 0 bareElf) (some 0)) = .ok 0 :=
    lift_eq_ok.mpr (ilock_lookup c.st 0 bareElf)
  intro hcall
  dsimp only [kexec, Caller.beginOp] at hcall
  rw [hlock] at hcall
  dsimp only [bind, Except.bind] at hcall
  rw [hlookup, lookupInode_kmem, lookupInode_p, hload] at hcall
  dsimp only [Caller.setKmem, Caller.iunlockput, Caller.endOp] at hcall
  rw [iput_setKmem] at hcall
  dsimp only at hcall
  rw [hstack] at hcall
  obtain ⟨_, -, hcall⟩ := bind_ok_iff.mp hcall
  obtain ⟨_, -, hcall⟩ := bind_ok_iff.mp hcall
  obtain ⟨_, -, hcall⟩ := bind_ok_iff.mp hcall
  obtain ⟨_, -, hcall⟩ := bind_ok_iff.mp hcall
  cases hcall

end Xv6.Exec
