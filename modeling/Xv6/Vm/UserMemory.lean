import Xv6.Vm.PageTable

/-!
# User memory (`kernel/vm.c`: `uvmalloc`, `uvmdealloc`, `uvmcopy`, `uvmfree`)

Growing, shrinking, copying and discarding the pages of an address space. The
loops run over page counts; each is followed by its effect on the leaves.
-/

namespace Xv6.Vm

open Framework

/-! ## Growing and shrinking -/

/-- `uvmdealloc`; the page count goes through an `int` on its way. -/
def uvmdealloc (km : Kmem) (pt : PageTable) (oldsz newsz : ℕ) :
    Except Panic (Kmem × PageTable × ℕ) :=
  if oldsz ≤ newsz then .ok (km, pt, oldsz)
  else if pgroundup newsz < pgroundup oldsz then do
    let npages := toInt32 ((pgroundup oldsz - pgroundup newsz) / PGSIZE : ℕ)
    let (km, pt) ← uvmunmap km pt (pgroundup newsz) (toUint64 npages) true
    .ok (km, pt, newsz)
  else .ok (km, pt, newsz)

/-- The loop of `uvmalloc` at address `a`, with the pages still to map;
`oldsz` is already rounded. -/
def uvmallocLoop (oldsz : ℕ) (perm : Perm) :
    ℕ → ℕ → Kmem → PageTable → Except Panic (Kmem × PageTable × Bool)
  | 0, _, km, pt => .ok (km, pt, true)
  | n + 1, a, km, pt =>
      match kalloc km with
      | none => do
          let (km, pt, _) ← uvmdealloc km pt a oldsz
          .ok (km, pt, false)
      | some (mem, km) => do
          let (km, pt, done) ←
            mappages (km.memset mem.pa 0 PGSIZE) pt a mem perm
          if done then uvmallocLoop oldsz perm n (a + PGSIZE) km pt
          else do
            let km ← kfree km mem
            let (km, pt, _) ← uvmdealloc km pt a oldsz
            .ok (km, pt, false)

/-- `uvmalloc`; `perm` is `PTE_R|PTE_U|xperm`. -/
def uvmalloc (km : Kmem) (pt : PageTable) (oldsz newsz : ℕ) (perm : Perm) :
    Except Panic (Kmem × PageTable × ℕ) :=
  if newsz < oldsz then .ok (km, pt, oldsz)
  else do
    let oldsz := pgroundup oldsz
    let (km, pt, done) ← uvmallocLoop oldsz perm
      ((newsz - oldsz + PGSIZE - 1) / PGSIZE) oldsz km pt
    .ok (km, pt, if done then newsz else 0)

/-! ## Copying -/

/-- The loop of `uvmcopy` at address `i`, with the pages still to look at; the
failure path unmaps what the child got so far. -/
def uvmcopyLoop (old : PageTable) :
    ℕ → ℕ → Kmem → PageTable → Except Panic (Kmem × PageTable × Bool)
  | 0, _, km, new => .ok (km, new, true)
  | n + 1, i, km, new => do
      match ← walk old i with
      | some (some l) =>
          match kalloc km with
          | none => do
              let (km, new) ← uvmunmap km new 0 (i / PGSIZE) true
              .ok (km, new, false)
          | some (mem, km) => do
              let km := km.memmove mem.pa (fun k => km.mem (l.frame.pa + k)) PGSIZE
              let (km, new, done) ← mappages km new i mem l.perm
              if done then uvmcopyLoop old n (i + PGSIZE) km new
              else do
                let km ← kfree km mem
                let (km, new) ← uvmunmap km new 0 (i / PGSIZE) true
                .ok (km, new, false)
      | _ => uvmcopyLoop old n (i + PGSIZE) km new

/-- `uvmcopy`; the flag says whether it returned 0. -/
def uvmcopy (km : Kmem) (old new : PageTable) (sz : ℕ) :
    Except Panic (Kmem × PageTable × Bool) :=
  uvmcopyLoop old ((sz + PGSIZE - 1) / PGSIZE) 0 km new

/-! ## Discarding -/

/-- `freewalk` of a bottom-level page. A valid entry without `R`, `W` and `X`
is taken for a pointer to another page table. -/
def freewalkLeafPage (km : Kmem) (t : Table Frame 512 (Option Leaf)) :
    Except Panic Kmem :=
  match (List.finRange 512).findSome? t.entry with
  | some l =>
      .error (if l.perm.r || l.perm.w || l.perm.x then .freewalkLeaf
        else .freewalkData)
  | none => kfree km t.frame

/-- `freewalk` of a second-level page. -/
def freewalkMid (km : Kmem) (m : Mid Frame 512 (Option Leaf)) :
    Except Panic Kmem := do
  let km ← (List.finRange 512).foldlM (fun km j =>
    match m.entry j with
    | some t => freewalkLeafPage km t
    | none => .ok km) km
  kfree km m.frame

/-- `freewalk` of a whole page table. -/
def freewalk (km : Kmem) (pt : PageTable) : Except Panic Kmem := do
  let km ← (List.finRange 512).foldlM (fun km i =>
    match pt.root.entry i with
    | some m => freewalkMid km m
    | none => .ok km) km
  kfree km pt.root.frame

/-- `uvmfree`. -/
def uvmfree (km : Kmem) (pt : PageTable) (sz : ℕ) : Except Panic Kmem := do
  if 0 < sz then do
    let (km, pt) ← uvmunmap km pt 0 (pgroundup sz / PGSIZE) true
    freewalk km pt
  else freewalk km pt

/-- `proc_freepagetable`. -/
def procFreepagetable (km : Kmem) (pt : PageTable) (sz : ℕ) :
    Except Panic Kmem := do
  let (km, pt) ← uvmunmap km pt TRAMPOLINE 1 false
  let (km, pt) ← uvmunmap km pt TRAPFRAME 1 false
  uvmfree km pt sz

/-! ## What shrinking does -/

variable {km km' : Kmem} {pt pt' : PageTable} {r : ℕ}

theorem uvmdealloc_spec {oldsz newsz : ℕ} (hold : oldsz < 2 ^ 40)
    (hlt : newsz < oldsz) (h : uvmdealloc km pt oldsz newsz = .ok (km', pt', r)) :
    r = newsz ∧
    (∀ vb < MAXVA, pgroundup newsz ≤ vb → vb < pgroundup oldsz →
      pt'.leaf vb = none) ∧
    (∀ vb < MAXVA, ¬ (pgroundup newsz ≤ vb ∧ vb < pgroundup oldsz) →
      pt'.leaf vb = pt.leaf vb) := by
  unfold uvmdealloc at h
  rw [if_neg (Nat.not_le.mpr hlt)] at h
  split at h
  · rename_i hround
    obtain ⟨⟨km₁, pt₁⟩, hun, h⟩ := bind_ok_iff.mp h
    simp only [Except.ok.injEq, Prod.mk.injEq] at h
    obtain ⟨rfl, rfl, rfl⟩ := h
    have hup : pgroundup oldsz < 2 ^ 41 := by
      have := pgroundup_lt (x := oldsz) (by omega)
      unfold PGSIZE at this
      omega
    have hcount : pgroundup newsz +
        (pgroundup oldsz - pgroundup newsz) / PGSIZE * PGSIZE =
          pgroundup oldsz := by
      have h₁ := pgroundup_mod oldsz
      have h₂ := pgroundup_mod newsz
      unfold PGSIZE at *
      omega
    rw [toUint64_toInt32 (by unfold PGSIZE; omega)] at hun
    have hspec := uvmunmap_spec (by rw [hcount]; omega) hun
    refine ⟨rfl, ?_, ?_⟩
    · intro vb hvb hlo hhi
      exact hspec.inside vb hvb hlo (by rw [hcount]; exact hhi)
    · intro vb hvb hout
      exact hspec.outside vb hvb (by rw [hcount]; exact hout)
  · rename_i hround
    simp only [Except.ok.injEq, Prod.mk.injEq] at h
    obtain ⟨rfl, rfl, rfl⟩ := h
    refine ⟨rfl, ?_, fun _ _ _ => rfl⟩
    intro vb _ hlo hhi
    omega

/-! ## What growing does -/

/-- The range `[lo, hi)` of pages is mapped with `perm` and nothing else
changed. -/
structure Grown (lo hi : ℕ) (perm : Perm) (pt pt' : PageTable) : Prop where
  inside : ∀ vb < MAXVA, lo ≤ vb → vb < hi →
    ∃ f, pt'.leaf vb = some ⟨f, perm⟩
  outside : ∀ vb < MAXVA, ¬ (lo ≤ vb ∧ vb < hi) → pt'.leaf vb = pt.leaf vb

variable {perm : Perm}

/-- Giving back the pages mapped so far restores every leaf. -/
theorem uvmdealloc_undo {pt₀ : PageTable} {lo a : ℕ} (hlo : lo % PGSIZE = 0)
    (ha : a % PGSIZE = 0) (hle : lo ≤ a) (hb : a < 2 ^ 40)
    (hgrown : Grown lo a perm pt₀ pt)
    (hfresh : ∀ vb < MAXVA, lo ≤ vb → vb < a → pt₀.leaf vb = none)
    (h : uvmdealloc km pt a lo = .ok (km', pt', r)) :
    ∀ vb < MAXVA, pt'.leaf vb = pt₀.leaf vb := by
  intro vb hvb
  rcases Nat.lt_or_ge lo a with hlt | hge
  · obtain ⟨-, hin, hout⟩ := uvmdealloc_spec hb hlt h
    rw [pgroundup_of_mod (by omega) hlo, pgroundup_of_mod (by omega) ha]
      at hin hout
    by_cases hrange : lo ≤ vb ∧ vb < a
    · rw [hin vb hvb hrange.1 hrange.2, hfresh vb hvb hrange.1 hrange.2]
    · rw [hout vb hvb hrange, hgrown.outside vb hvb hrange]
  · obtain rfl : lo = a := Nat.le_antisymm hle hge
    simp only [uvmdealloc, Nat.le_refl, if_true, Except.ok.injEq,
      Prod.mk.injEq] at h
    obtain ⟨-, rfl, -⟩ := h
    exact hgrown.outside vb hvb (by omega)

theorem uvmallocLoop_spec {pt₀ : PageTable} {lo : ℕ} (hlo : lo % PGSIZE = 0) :
    ∀ {n a : ℕ} {km km' : Kmem}
    {pt pt' : PageTable} {done : Bool}, a % PGSIZE = 0 → lo ≤ a →
    a + n * PGSIZE < 2 ^ 40 → Grown lo a perm pt₀ pt →
    (∀ vb < MAXVA, lo ≤ vb → vb < a → pt₀.leaf vb = none) →
    uvmallocLoop lo perm n a km pt = .ok (km', pt', done) →
    if done then Grown lo (a + n * PGSIZE) perm pt₀ pt'
    else ∀ vb < MAXVA, pt'.leaf vb = pt₀.leaf vb
  | 0, a, km, km', pt, pt', done, _, _, _, hgrown, _, h => by
    simp only [uvmallocLoop, Except.ok.injEq, Prod.mk.injEq] at h
    obtain ⟨rfl, rfl, rfl⟩ := h
    simpa using hgrown
  | n + 1, a, km, km', pt, pt', done, ha, hle, hb, hgrown, hfresh, h => by
    rw [Nat.succ_mul] at hb
    have hb' : a < 2 ^ 40 := by omega
    unfold uvmallocLoop at h
    cases halloc : kalloc km with
    | none =>
      simp only [halloc] at h
      obtain ⟨⟨km₁, pt₁, r⟩, hde, h⟩ := bind_ok_iff.mp h
      simp only [Except.ok.injEq, Prod.mk.injEq] at h
      obtain ⟨rfl, rfl, rfl⟩ := h
      exact uvmdealloc_undo hlo ha hle hb' hgrown hfresh hde
    | some fk =>
      obtain ⟨f, km₁⟩ := fk
      simp only [halloc] at h
      obtain ⟨⟨km₂, pt₂, mapped⟩, hmap, h⟩ := bind_ok_iff.mp h
      rcases mappages_spec hmap with ⟨rfl, hm⟩ | ⟨rfl, hext⟩
      · simp only [if_true] at h
        have hnext : Grown lo (a + PGSIZE) perm pt₀ pt₂ := by
          refine ⟨?_, ?_⟩
          · intro vb hvb hl hh
            by_cases hpage : pgrounddown vb = a
            · exact ⟨f, hm.self vb hpage⟩
            · rw [hm.other vb hvb hpage]
              refine hgrown.inside vb hvb hl ?_
              unfold pgrounddown PGSIZE at *
              omega
          · intro vb hvb hout
            have hpage : pgrounddown vb ≠ a := by
              rintro rfl
              have := pgrounddown_le vb
              have := lt_pgrounddown_add vb
              omega
            rw [hm.other vb hvb hpage]
            exact hgrown.outside vb hvb (by omega)
        have hfresh' : ∀ vb < MAXVA, lo ≤ vb → vb < a + PGSIZE →
            pt₀.leaf vb = none := by
          intro vb hvb hl hh
          rcases Nat.lt_or_ge vb a with hva | hva
          · exact hfresh vb hvb hl hva
          · rw [← hgrown.outside vb hvb (by omega), ← hm.fresh]
            apply pt.leaf_congr
            unfold pgrounddown PGSIZE at *
            omega
        have := uvmallocLoop_spec hlo (by simpa using ha)
          (by omega) (by omega) hnext hfresh' h
        rw [Nat.succ_mul]
        rwa [show a + PGSIZE + n * PGSIZE = a + (n * PGSIZE + PGSIZE) by
          omega] at this
      · simp only [Bool.false_eq_true, if_false] at h
        obtain ⟨km₃, -, h⟩ := bind_ok_iff.mp h
        obtain ⟨⟨km₄, pt₄, r⟩, hde, h⟩ := bind_ok_iff.mp h
        simp only [Except.ok.injEq, Prod.mk.injEq] at h
        obtain ⟨rfl, rfl, rfl⟩ := h
        have hkept : Grown lo a perm pt₀ pt₂ := by
          refine ⟨?_, ?_⟩
          · intro vb hvb hl hh
            rw [hext.leaf]
            exact hgrown.inside vb hvb hl hh
          · intro vb hvb hout
            rw [hext.leaf]
            exact hgrown.outside vb hvb hout
        exact uvmdealloc_undo hlo ha hle hb' hkept hfresh hde

/-- **`uvmalloc` is all or nothing on the leaves.** -/
theorem uvmalloc_spec {oldsz newsz : ℕ} (hb : newsz < 2 ^ 39)
    (hle : oldsz ≤ newsz) (hpos : 0 < newsz)
    (h : uvmalloc km pt oldsz newsz perm = .ok (km', pt', r)) :
    (r = newsz ∧ Grown (pgroundup oldsz) (pgroundup newsz) perm pt pt') ∨
      (r = 0 ∧ ∀ vb < MAXVA, pt'.leaf vb = pt.leaf vb) := by
  unfold uvmalloc at h
  rw [if_neg (Nat.not_lt.mpr hle)] at h
  obtain ⟨⟨km₁, pt₁, done⟩, hloop, h⟩ := bind_ok_iff.mp h
  simp only [Except.ok.injEq, Prod.mk.injEq] at h
  obtain ⟨rfl, rfl, rfl⟩ := h
  have hrefl : Grown (pgroundup oldsz) (pgroundup oldsz) perm pt pt :=
    ⟨fun vb _ hl hh => by omega, fun _ _ _ => rfl⟩
  have hcount : pgroundup oldsz +
      (newsz - pgroundup oldsz + PGSIZE - 1) / PGSIZE * PGSIZE =
        pgroundup newsz := by
    unfold pgroundup PGSIZE
    omega
  have hup := pgroundup_lt (x := newsz) (by omega)
  have hspec := uvmallocLoop_spec (pgroundup_mod oldsz) (pgroundup_mod oldsz)
    (Nat.le_refl _) (by rw [hcount]; unfold PGSIZE at hup; omega) hrefl
    (fun vb _ hl hh => by omega) hloop
  rw [hcount] at hspec
  cases done with
  | true => exact Or.inl ⟨rfl, by simpa using hspec⟩
  | false => exact Or.inr ⟨rfl, by simpa using hspec⟩

/-! ## What discarding does -/

theorem freewalkLeafPage_ok (km : Kmem) {t : Table Frame 512 (Option Leaf)}
    (h : ∀ k, t.entry k = none) (hframe : t.frame.Usable) :
    ∃ km', freewalkLeafPage km t = .ok km' ∧
      km'.freelist = t.frame :: km.freelist := by
  unfold freewalkLeafPage
  split
  · rename_i l hl
    obtain ⟨k, -, hk⟩ := List.exists_of_findSome?_eq_some hl
    rw [h k] at hk
    cases hk
  · exact kfree_of_usable km hframe

theorem freewalkMid_ok (km : Kmem) {m : Mid Frame 512 (Option Leaf)}
    (h : ∀ j t, m.entry j = some t → ∀ k, t.entry k = none)
    (hframes : ∀ f ∈ Root.midFrames m, f.Usable) :
    ∃ km', freewalkMid km m = .ok km' ∧
      km'.freelist = (Root.midFrames m).reverse ++ km.freelist := by
  have hround : ∀ km, ∀ j ∈ List.finRange 512, ∃ km',
      (match m.entry j with
        | some t => freewalkLeafPage km t
        | none => .ok km) = Except.ok km' ∧ km'.freelist =
        ((m.entry j).map Table.frame).toList.reverse ++ km.freelist := by
    intro km j _
    cases hj : m.entry j with
    | none => exact ⟨km, rfl, rfl⟩
    | some t =>
      exact freewalkLeafPage_ok km (h j t hj) (hframes _
        (Root.mem_midFrames.mpr (Or.inr ⟨j, t, hj, rfl⟩)))
  obtain ⟨km₁, hloop, hlist⟩ := foldlM_collects _ Kmem.freelist _ hround km
  obtain ⟨km', hfree, hlist'⟩ := kfree_of_usable km₁
    (hframes m.frame (Root.mem_midFrames.mpr (Or.inl rfl)))
  refine ⟨km', ?_, ?_⟩
  · unfold freewalkMid
    exact bind_ok_iff.mpr ⟨km₁, hloop, hfree⟩
  · rw [hlist', hlist, Root.midFrames, List.reverse_append,
      List.reverse_singleton, List.singleton_append, List.cons_append]

/-- Every entry of a bottom-level page is the leaf of some address. -/
theorem PageTable.entry_of_leaf (pt : PageTable) {i j : Fin 512}
    {m : Mid Frame 512 (Option Leaf)} {t : Table Frame 512 (Option Leaf)}
    (h : ∀ va < MAXVA, pt.leaf va = none) (hi : pt.root.entry i = some m)
    (hj : m.entry j = some t) (k : Fin 512) : t.entry k = none := by
  have hlow : i.val < 256 := by
    by_contra hhigh
    rw [pt.high i (Nat.not_lt.mp hhigh)] at hi
    cases hi
  obtain ⟨va, hva, rfl, rfl, rfl⟩ := exists_px hlow j k
  have hnone := h va hva
  rw [PageTable.leaf, Root.value, Root.slot, hi] at hnone
  simp only [hj] at hnone
  exact hnone

/-- **`freewalk` of a table without leaves frees exactly its pages.** -/
theorem freewalk_ok (km : Kmem) {pt : PageTable}
    (h : ∀ va < MAXVA, pt.leaf va = none)
    (hframes : ∀ f ∈ pt.frames, f.Usable) :
    ∃ km', freewalk km pt = .ok km' ∧
      km'.freelist = pt.frames.reverse ++ km.freelist := by
  have hround : ∀ km, ∀ i ∈ List.finRange 512, ∃ km',
      (match pt.root.entry i with
        | some m => freewalkMid km m
        | none => .ok km) = Except.ok km' ∧ km'.freelist =
        (((pt.root.entry i).map Root.midFrames).getD []).reverse ++
          km.freelist := by
    intro km i _
    cases hi : pt.root.entry i with
    | none => exact ⟨km, rfl, rfl⟩
    | some m =>
      refine freewalkMid_ok km ?_ fun f hf => hframes f
        (Root.mem_frames.mpr (Or.inr ⟨i, m, hi, hf⟩))
      intro j t hj k
      exact pt.entry_of_leaf h hi hj k
  obtain ⟨km₁, hloop, hlist⟩ := foldlM_collects _ Kmem.freelist _ hround km
  obtain ⟨km', hfree, hlist'⟩ := kfree_of_usable km₁
    (hframes pt.root.frame (Root.mem_frames.mpr (Or.inl rfl)))
  refine ⟨km', ?_, ?_⟩
  · unfold freewalk
    exact bind_ok_iff.mpr ⟨km₁, hloop, hfree⟩
  · rw [hlist', hlist, PageTable.frames, Root.frames, List.reverse_append,
      List.reverse_singleton, List.singleton_append, List.cons_append]

/-- `freewalk` only returns for a table without leaves. -/
theorem leaf_of_freewalk (h : freewalk km pt = .ok km') (va : ℕ) :
    pt.leaf va = none := by
  unfold freewalk at h
  obtain ⟨km₁, hloop, -⟩ := bind_ok_iff.mp h
  rw [PageTable.leaf, Root.value, Root.slot]
  obtain ⟨km₂, km₃, hmid⟩ := foldlM_round hloop (px 2 va) (List.mem_finRange _)
  cases hi : pt.root.entry (px 2 va) with
  | none => rfl
  | some m =>
    simp only [hi] at hmid
    unfold freewalkMid at hmid
    obtain ⟨km₄, hloop', -⟩ := bind_ok_iff.mp hmid
    obtain ⟨km₅, km₆, hpage⟩ := foldlM_round hloop' (px 1 va)
      (List.mem_finRange _)
    cases hj : m.entry (px 1 va) with
    | none => simp only [hj]; rfl
    | some t =>
      simp only [hj] at hpage ⊢
      unfold freewalkLeafPage at hpage
      split at hpage
      · cases hpage
      · rename_i hnone
        rw [List.findSome?_eq_none_iff] at hnone
        exact hnone _ (List.mem_finRange _)

/-- `uvmfree` is `freewalk` once the pages below `sz` are unmapped. -/
theorem uvmfree_eq {km : Kmem} {pt : PageTable} {sz : ℕ}
    (hsz : sz ≤ TRAPFRAME)
    (huser : ∀ va < pgroundup sz, ∀ l, pt.leaf va = some l →
      l.frame.Usable) :
    ∃ km₁ pt₁, uvmfree km pt sz = freewalk km₁ pt₁ ∧
      km₁.freelist =
        (leafFrames pt (pgroundup sz / PGSIZE) 0).reverse ++ km.freelist ∧
      pt₁.frames = pt.frames ∧
      (∀ va < MAXVA, va < pgroundup sz → pt₁.leaf va = none) ∧
      (∀ va < MAXVA, pgroundup sz ≤ va → pt₁.leaf va = pt.leaf va) := by
  have hup : pgroundup sz ≤ TRAPFRAME := by
    have htrap : TRAPFRAME < 2 ^ 63 := by decide
    exact (pgroundup_le_iff (by omega) TRAPFRAME_mod).mpr hsz
  have hmod := pgroundup_mod sz
  have hspan : 0 + pgroundup sz / PGSIZE * PGSIZE = pgroundup sz := by
    unfold PGSIZE at *
    omega
  unfold uvmfree
  split
  · obtain ⟨km₁, pt₁, hun⟩ := @uvmunmap_ok km pt 0 (pgroundup sz / PGSIZE)
      true (by decide)
      (by rw [hspan]; exact Nat.le_trans hup (Nat.le_of_lt TRAPFRAME_lt_MAXVA))
      (by
        intro _ f hf
        obtain ⟨k, hk, l, hl, rfl⟩ := mem_leafFrames.mp hf
        refine huser _ ?_ l hl
        unfold PGSIZE at *
        omega)
    have hspec := uvmunmap_spec (by
      rw [hspan]
      unfold TRAPFRAME TRAMPOLINE MAXVA PGSIZE at hup
      omega) hun
    refine ⟨km₁, pt₁, ?_, hspec.freed, hspec.frames, ?_, ?_⟩
    · simp only [hun, bind, Except.bind]
    · intro va hva hlt
      exact hspec.inside va hva (Nat.zero_le _) (by rw [hspan]; exact hlt)
    · intro va hva hle
      refine hspec.outside va hva ?_
      rw [hspan]
      omega
  · rename_i hzero
    obtain rfl : sz = 0 := by omega
    exact ⟨km, pt, rfl, rfl, rfl, fun va _ h => absurd h (Nat.not_lt_zero _),
      fun _ _ _ => rfl⟩

/-- Taking the trap pages out of a page table frees nothing. -/
theorem uvmunmap_trap (km : Kmem) (pt : PageTable) :
    ∃ km₁ pt₁ km₂ pt₂, uvmunmap km pt TRAMPOLINE 1 false = .ok (km₁, pt₁) ∧
      uvmunmap km₁ pt₁ TRAPFRAME 1 false = .ok (km₂, pt₂) ∧
      km₂.freelist = km.freelist ∧ pt₂.frames = pt.frames ∧
      (∀ va < TRAPFRAME, pt₂.leaf va = pt.leaf va) ∧
      (∀ va < MAXVA, TRAPFRAME ≤ va → pt₂.leaf va = none) := by
  obtain ⟨km₁, pt₁, hun₁⟩ := @uvmunmap_ok km pt TRAMPOLINE 1 false
    (by decide) (by decide) (fun h => by cases h)
  obtain ⟨km₂, pt₂, hun₂⟩ := @uvmunmap_ok km₁ pt₁ TRAPFRAME 1 false
    (by decide) (by decide) (fun h => by cases h)
  have h₁ := uvmunmap_spec (by decide) hun₁
  have h₂ := uvmunmap_spec (by decide) hun₂
  refine ⟨km₁, pt₁, km₂, pt₂, hun₁, hun₂, ?_, h₂.frames.trans h₁.frames,
    ?_, ?_⟩
  · rw [h₂.freed, h₁.freed]
    rfl
  · intro va hva
    have hva' : va < MAXVA := Nat.lt_trans hva TRAPFRAME_lt_MAXVA
    rw [h₂.outside va hva' (by omega), h₁.outside va hva' ?_]
    unfold TRAPFRAME at hva
    omega
  · intro va hva hle
    have hpage : PGSIZE ≤ TRAMPOLINE := by decide
    by_cases htop : va < TRAMPOLINE
    · refine h₂.inside va hva hle ?_
      unfold TRAPFRAME
      omega
    · rw [h₂.outside va hva (by unfold TRAPFRAME; omega)]
      refine h₁.inside va hva (Nat.not_lt.mp htop) ?_
      unfold TRAMPOLINE PGSIZE MAXVA at *
      omega

/-- `proc_freepagetable` is `uvmfree` once the trap pages are unmapped. -/
theorem procFreepagetable_eq (km : Kmem) (pt : PageTable) (sz : ℕ) :
    ∃ km₁ pt₁, procFreepagetable km pt sz = uvmfree km₁ pt₁ sz ∧
      km₁.freelist = km.freelist ∧ pt₁.frames = pt.frames ∧
      (∀ va < TRAPFRAME, pt₁.leaf va = pt.leaf va) ∧
      (∀ va < MAXVA, TRAPFRAME ≤ va → pt₁.leaf va = none) := by
  obtain ⟨km₁, pt₁, km₂, pt₂, hun₁, hun₂, hfacts⟩ := uvmunmap_trap km pt
  refine ⟨km₂, pt₂, ?_, hfacts⟩
  simp only [procFreepagetable, hun₁, hun₂, bind, Except.bind]

/-- **A page table whose leaves are the pages below `sz` and the trap pages
goes back to the free list**, the pages first and then the tables. -/
theorem procFreepagetable_ok (km : Kmem) {sz : ℕ} (hsz : sz ≤ TRAPFRAME)
    (hframes : ∀ f ∈ pt.frames, f.Usable)
    (huser : ∀ va < TRAPFRAME, ∀ l, pt.leaf va = some l → l.frame.Usable)
    (hleaf : ∀ va < TRAPFRAME, pgroundup sz ≤ va → pt.leaf va = none) :
    ∃ km', procFreepagetable km pt sz = .ok km' ∧
      km'.freelist = pt.frames.reverse ++
        ((leafFrames pt (pgroundup sz / PGSIZE) 0).reverse ++ km.freelist) := by
  have hup : pgroundup sz ≤ TRAPFRAME := by
    have htrap : TRAPFRAME < 2 ^ 63 := by decide
    exact (pgroundup_le_iff (by omega) TRAPFRAME_mod).mpr hsz
  obtain ⟨km₁, pt₁, heq₁, hlist₁, hframes₁, hlow, hhigh⟩ :=
    procFreepagetable_eq km pt sz
  obtain ⟨km₂, pt₂, heq₂, hlist₂, hframes₂, hin, hout⟩ :=
    @uvmfree_eq km₁ pt₁ sz hsz (by
      intro va hva l hl
      rw [hlow va (by omega)] at hl
      exact huser va (by omega) l hl)
  obtain ⟨km', hwalk, hlist⟩ := @freewalk_ok km₂ pt₂ (by
    intro va hva
    rcases Nat.lt_or_ge va (pgroundup sz) with hlt | hge
    · exact hin va hva hlt
    · rw [hout va hva hge]
      rcases Nat.lt_or_ge va TRAPFRAME with hbelow | habove
      · rw [hlow va hbelow]
        exact hleaf va hbelow hge
      · exact hhigh va hva habove) (by
    rw [hframes₂, hframes₁]
    exact hframes)
  refine ⟨km', by rw [heq₁, heq₂, hwalk], ?_⟩
  have hsame : leafFrames pt₁ (pgroundup sz / PGSIZE) 0 =
      leafFrames pt (pgroundup sz / PGSIZE) 0 := by
    apply leafFrames_congr
    intro k hk
    apply hlow
    unfold PGSIZE at *
    omega
  rw [hlist, hlist₂, hlist₁, hframes₂, hframes₁, hsame]

end Xv6.Vm
