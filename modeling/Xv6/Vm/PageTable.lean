import Xv6.Framework.Radix
import Xv6.Framework.Run
import Xv6.Vm.Kalloc

/-!
# Page tables (`kernel/vm.c`: `walk`, `walkaddr`, `mappages`, `uvmunmap`)

A page table is a three-level tree of 512-entry pages, each carrying the frame
it occupies. A leaf slot is empty (a PTE without `PTE_V`, which the kernel
only ever leaves as 0) or holds a frame with its permission bits. The upper
half of the root is never used, since `walk` rejects addresses from `MAXVA`
on. Every function comes with its effect on `leaf`, the flat map from
addresses to leaves, and on the frames of the tree.
-/

namespace Xv6.Vm

open Framework

/-- The permission bits of a leaf PTE that the kernel or the MMU reads. -/
structure Perm where
  r : Bool := false
  w : Bool := false
  x : Bool := false
  u : Bool := false
  d : Bool := false
deriving DecidableEq, Repr

/-- A valid leaf PTE. -/
structure Leaf where
  frame : Frame
  perm : Perm
deriving DecidableEq, Repr

structure PageTable where
  root : Root Frame 512 (Option Leaf)
  high : ∀ i : Fin 512, 256 ≤ i.val → root.entry i = none

namespace PageTable

/-- The PTE that `walk(pagetable, va, 0)` points to, absent for a null
pointer. -/
def pte (pt : PageTable) (va : ℕ) : Option (Option Leaf) :=
  pt.root.slot (px 2 va) (px 1 va) (px 0 va)

/-- The valid leaf for an address. -/
def leaf (pt : PageTable) (va : ℕ) : Option Leaf :=
  pt.root.value (px 2 va) (px 1 va) (px 0 va)

/-- Store a PTE through the pointer `walk` returned. -/
def setPte (pt : PageTable) (va : ℕ) (e : Option Leaf) : PageTable where
  root := pt.root.put (px 2 va) (px 1 va) (px 0 va) e
  high := by
    intro i hi
    exact Root.entry_put_of_none _ (pt.high i hi)

/-- Hang a second-level page below the root. -/
def setMid (pt : PageTable) {va : ℕ} (h : va < MAXVA)
    (m : Mid Frame 512 (Option Leaf)) : PageTable where
  root := pt.root.setMid (px 2 va) m
  high := by
    intro i hi
    have hne : i ≠ px 2 va := by
      rintro rfl
      exact absurd (px_two_lt h) (Nat.not_lt.mpr hi)
    rw [Root.setMid, Table.entry_set_of_ne _ _ hne]
    exact pt.high i hi

/-- The frames of the page-table pages, in the order `freewalk` frees them. -/
def frames (pt : PageTable) : List Frame := pt.root.frames

end PageTable

/-! ## `walk` and `walkaddr` -/

/-- `walk(pagetable, va, 0)`. -/
def walk (pt : PageTable) (va : ℕ) : Except Panic (Option (Option Leaf)) :=
  if va < MAXVA then .ok (pt.pte va) else .error .walk

/-- The level-1 round of `walk(pagetable, va, 1)`, below the page `m` that the
root holds for `va`. -/
def walkAllocMid (km : Kmem) (pt : PageTable) {va : ℕ} (h : va < MAXVA)
    (m : Mid Frame 512 (Option Leaf)) : Kmem × PageTable × Bool :=
  match m.entry (px 1 va) with
  | some _ => (km, pt, true)
  | none =>
      match kalloc km with
      | none => (km, pt, false)
      | some (f, km) =>
          (km.memset f.pa 0 PGSIZE,
            pt.setMid h (m.set (px 1 va) (some (Table.blank f none))), true)

/-- `walk(pagetable, va, 1)`; the flag says whether the pointer is non-null.
A page allocated on the way stays even when the next allocation fails. -/
def walkAlloc (km : Kmem) (pt : PageTable) (va : ℕ) :
    Except Panic (Kmem × PageTable × Bool) :=
  if h : va < MAXVA then
    match pt.root.entry (px 2 va) with
    | some m => .ok (walkAllocMid km pt h m)
    | none =>
        match kalloc km with
        | none => .ok (km, pt, false)
        | some (f, km) =>
            let m := Table.blank f none
            .ok (walkAllocMid (km.memset f.pa 0 PGSIZE) (pt.setMid h m) h m)
  else .error .walk

/-- `walkaddr`: 0 unless the page is valid and the user may access it. -/
def walkaddr (pt : PageTable) (va : ℕ) : ℕ :=
  if va < MAXVA then
    match pt.leaf va with
    | some l => if l.perm.u then l.frame.pa else 0
    | none => 0
  else 0

/-- `ismapped`. -/
def ismapped (pt : PageTable) (va : ℕ) : Except Panic Bool :=
  if va < MAXVA then .ok (pt.leaf va).isSome else .error .walk

/-! ## `mappages` and `uvmunmap` -/

/-- `mappages` of one page, which is what every caller in the management of
user memory asks for; the flag says whether it returned 0. -/
def mappages (km : Kmem) (pt : PageTable) (va : ℕ) (f : Frame) (perm : Perm) :
    Except Panic (Kmem × PageTable × Bool) :=
  if va % PGSIZE ≠ 0 then .error .mappagesUnaligned
  else do
    let (km, pt, found) ← walkAlloc km pt va
    if found then
      match pt.leaf va with
      | some _ => .error .remap
      | none => .ok (km, pt.setPte va (some ⟨f, perm⟩), true)
    else .ok (km, pt, false)

/-- `if(do_free) kfree(pa)`. -/
def kfreeIf (doFree : Bool) (km : Kmem) (f : Frame) : Except Panic Kmem :=
  if doFree then kfree km f else .ok km

/-- The loop of `uvmunmap`, with the number of pages still to go. -/
def uvmunmapLoop (doFree : Bool) :
    ℕ → ℕ → Kmem → PageTable → Except Panic (Kmem × PageTable)
  | 0, _, km, pt => .ok (km, pt)
  | n + 1, a, km, pt => do
      match ← walk pt a with
      | some (some l) =>
          let km ← kfreeIf doFree km l.frame
          uvmunmapLoop doFree n (a + PGSIZE) km (pt.setPte a none)
      | _ => uvmunmapLoop doFree n (a + PGSIZE) km pt

/-- `uvmunmap`. The loop runs while `a < va + npages*PGSIZE` in 64-bit
arithmetic, so a count that makes the sum wrap runs no round at all. -/
def uvmunmap (km : Kmem) (pt : PageTable) (va npages : ℕ) (doFree : Bool) :
    Except Panic (Kmem × PageTable) :=
  if va % PGSIZE ≠ 0 then .error .uvmunmapUnaligned
  else
    uvmunmapLoop doFree (((va + npages * PGSIZE) % 2 ^ 64 - va) / PGSIZE)
      va km pt

/-! ## Leaves as a flat map -/

variable {va : ℕ} {pt : PageTable}

namespace PageTable

theorem leaf_eq_join (pt : PageTable) (va : ℕ) : pt.leaf va = (pt.pte va).join :=
  rfl

variable {vb : ℕ}

theorem leaf_congr (pt : PageTable) (h : pgrounddown va = pgrounddown vb) :
    pt.leaf va = pt.leaf vb := by
  unfold leaf
  rw [px_congr h 2, px_congr h 1, px_congr h 0]

theorem leaf_pgrounddown (pt : PageTable) (va : ℕ) :
    pt.leaf (pgrounddown va) = pt.leaf va :=
  pt.leaf_congr (pgrounddown_of_mod (pgrounddown_mod va))

@[simp] theorem frames_setPte (pt : PageTable) (va : ℕ) (e : Option Leaf) :
    (pt.setPte va e).frames = pt.frames := Root.frames_put ..

theorem leaf_setPte_of_ne (pt : PageTable) (e : Option Leaf) (ha : va < MAXVA)
    (hb : vb < MAXVA) (h : pgrounddown vb ≠ pgrounddown va) :
    (pt.setPte va e).leaf vb = pt.leaf vb :=
  Root.value_put_of_ne _ _ fun hpx => h (px_inj hb ha hpx)

theorem leaf_setPte_self {e : Option Leaf} (e' : Option Leaf)
    (he : pt.pte va = some e) (h : pgrounddown vb = pgrounddown va) :
    (pt.setPte va e').leaf vb = e' := by
  rw [leaf_congr _ h]
  exact Root.value_put_self e' he

theorem leaf_clear_self (pt : PageTable) (h : pgrounddown vb = pgrounddown va) :
    (pt.setPte va none).leaf vb = none := by
  rw [leaf_congr _ h]
  exact Root.value_clear ..

end PageTable

/-! ## What `walk` with allocation does -/

/-- Page-table pages were taken from the free list and hung into the tree; no
leaf changed. -/
structure Extends (km : Kmem) (pt : PageTable) (km' : Kmem) (pt' : PageTable) :
    Prop where
  leaf : ∀ va, pt'.leaf va = pt.leaf va
  taken : ∃ taken, km.freelist = taken ++ km'.freelist ∧
    ∀ f ∈ pt'.frames, f ∈ taken ∨ f ∈ pt.frames

theorem Extends.refl (km : Kmem) (pt : PageTable) : Extends km pt km pt :=
  ⟨fun _ => rfl, [], rfl, fun _ hf => Or.inr hf⟩

variable {km : Kmem}

theorem Extends.trans {km₁ km₂ : Kmem} {pt₁ pt₂ : PageTable}
    (h : Extends km pt km₁ pt₁) (h' : Extends km₁ pt₁ km₂ pt₂) :
    Extends km pt km₂ pt₂ := by
  obtain ⟨taken, hfl, hfr⟩ := h.taken
  obtain ⟨taken', hfl', hfr'⟩ := h'.taken
  refine ⟨fun va => by rw [h'.leaf, h.leaf], taken ++ taken', ?_, ?_⟩
  · rw [hfl, hfl', List.append_assoc]
  · intro f hf
    rcases hfr' f hf with hf | hf
    · exact Or.inl (List.mem_append_right _ hf)
    · rcases hfr f hf with hf | hf
      · exact Or.inl (List.mem_append_left _ hf)
      · exact Or.inr hf

variable {km' : Kmem} {f : Frame}

/-- Hanging a blank second-level page. -/
theorem extends_setMid (hva : va < MAXVA)
    (hmid : pt.root.entry (px 2 va) = none) (halloc : kalloc km = some (f, km')) :
    Extends km pt (km'.memset f.pa 0 PGSIZE)
      (pt.setMid hva (Table.blank f none)) := by
  refine ⟨fun vb => Root.value_setMid_blank f hmid .., [f], ?_, ?_⟩
  · rw [Kmem.freelist_memset]
    exact kalloc_some halloc
  · intro g hg
    rcases Root.mem_frames_setMid hg with hg | hg
    · exact Or.inr hg
    · rcases Root.mem_midFrames.mp hg with rfl | ⟨j, l, hj, -⟩
      · exact Or.inl (List.mem_singleton.mpr rfl)
      · cases hj

variable {pt' : PageTable}

theorem walkAllocMid_spec {m : Mid Frame 512 (Option Leaf)} {found : Bool}
    (hva : va < MAXVA) (hmid : pt.root.entry (px 2 va) = some m)
    (h : walkAllocMid km pt hva m = (km', pt', found)) :
    Extends km pt km' pt' ∧ (found = true → ∃ e, pt'.pte va = some e) := by
  unfold walkAllocMid at h
  cases hj : m.entry (px 1 va) with
  | some l =>
    simp only [hj, Prod.mk.injEq] at h
    obtain ⟨rfl, rfl, rfl⟩ := h
    refine ⟨.refl _ _, fun _ => ⟨l.entry (px 0 va), ?_⟩⟩
    simp [PageTable.pte, Root.slot, hmid, hj]
  | none =>
    cases halloc : kalloc km with
    | none =>
      simp only [hj, halloc, Prod.mk.injEq] at h
      obtain ⟨rfl, rfl, rfl⟩ := h
      exact ⟨.refl _ _, fun hfalse => by cases hfalse⟩
    | some fk =>
      obtain ⟨f, km₁⟩ := fk
      simp only [hj, halloc, Prod.mk.injEq] at h
      obtain ⟨rfl, rfl, rfl⟩ := h
      refine ⟨⟨fun vb => Root.value_setLeafPage f hmid hj .., [f], ?_, ?_⟩,
        fun _ => ⟨none, ?_⟩⟩
      · rw [Kmem.freelist_memset]
        exact kalloc_some halloc
      · intro g hg
        rcases Root.mem_frames_setMid hg with hg | hg
        · exact Or.inr hg
        · rcases Root.mem_midFrames_set hg with hg | rfl
          · exact Or.inr (Root.mem_frames.mpr (Or.inr ⟨_, m, hmid, hg⟩))
          · exact Or.inl (List.mem_singleton.mpr rfl)
      · simp [PageTable.pte, PageTable.setMid, Root.setMid, Root.slot]

theorem walkAlloc_spec {found : Bool}
    (h : walkAlloc km pt va = .ok (km', pt', found)) :
    va < MAXVA ∧ Extends km pt km' pt' ∧
      (found = true → ∃ e, pt'.pte va = some e) := by
  unfold walkAlloc at h
  split at h
  · rename_i hva
    refine ⟨hva, ?_⟩
    cases hmid : pt.root.entry (px 2 va) with
    | some m =>
      simp only [hmid, Except.ok.injEq] at h
      exact walkAllocMid_spec hva hmid h
    | none =>
      cases halloc : kalloc km with
      | none =>
        simp only [hmid, halloc, Except.ok.injEq, Prod.mk.injEq] at h
        obtain ⟨rfl, rfl, rfl⟩ := h
        exact ⟨.refl _ _, fun hfalse => by cases hfalse⟩
      | some fk =>
        obtain ⟨f, km₁⟩ := fk
        simp only [hmid, halloc, Except.ok.injEq] at h
        have hroot : (pt.setMid hva (Table.blank f none)).root.entry
            (px 2 va) = some (Table.blank f none) :=
          Table.entry_set_self ..
        obtain ⟨hext, hfound⟩ := walkAllocMid_spec hva hroot h
        exact ⟨(extends_setMid hva hmid halloc).trans hext, hfound⟩
  · cases h

/-- Where there is a leaf, nothing has to be allocated. -/
theorem walkAlloc_of_leaf {l : Leaf} (km : Kmem) (hva : va < MAXVA)
    (hleaf : pt.leaf va = some l) :
    walkAlloc km pt va = .ok (km, pt, true) := by
  unfold PageTable.leaf Root.value Root.slot at hleaf
  rw [walkAlloc, dif_pos hva]
  cases hmid : pt.root.entry (px 2 va) with
  | none => simp [hmid] at hleaf
  | some m =>
    cases hj : m.entry (px 1 va) with
    | none => simp [hmid, hj] at hleaf
    | some t => simp [walkAllocMid, hj]

/-! ## What `mappages` does -/

/-- `mappages` over a valid leaf panics. -/
theorem mappages_of_leaf {perm : Perm} {l : Leaf} {done : Bool}
    (hleaf : pt.leaf va = some l)
    (h : mappages km pt va f perm = .ok (km', pt', done)) : False := by
  unfold mappages at h
  split at h
  · cases h
  · obtain ⟨⟨km₁, pt₁, found⟩, hwalk, h⟩ := bind_ok_iff.mp h
    rw [walkAlloc_of_leaf km (walkAlloc_spec hwalk).1 hleaf] at hwalk
    cases hwalk
    simp only [if_true, hleaf] at h
    cases h

/-- One page was mapped: its leaf was empty and is now `f` with `perm`, every
other leaf is as before. -/
structure Mapped (km : Kmem) (pt : PageTable) (va : ℕ) (f : Frame)
    (perm : Perm) (km' : Kmem) (pt' : PageTable) : Prop where
  aligned : va % PGSIZE = 0
  lt : va < MAXVA
  fresh : pt.leaf va = none
  self : ∀ vb, pgrounddown vb = va → pt'.leaf vb = some ⟨f, perm⟩
  other : ∀ vb < MAXVA, pgrounddown vb ≠ va → pt'.leaf vb = pt.leaf vb
  taken : ∃ taken, km.freelist = taken ++ km'.freelist ∧
    ∀ g ∈ pt'.frames, g ∈ taken ∨ g ∈ pt.frames

theorem mappages_spec {perm : Perm} {done : Bool}
    (h : mappages km pt va f perm = .ok (km', pt', done)) :
    (done = true ∧ Mapped km pt va f perm km' pt') ∨
      (done = false ∧ Extends km pt km' pt') := by
  unfold mappages at h
  split at h
  · cases h
  · rename_i haligned
    have hva : va % PGSIZE = 0 := not_not.mp haligned
    obtain ⟨⟨km₁, pt₁, found⟩, hwalk, h⟩ := bind_ok_iff.mp h
    obtain ⟨hlt, hext, hfound⟩ := walkAlloc_spec hwalk
    cases found with
    | false =>
      simp only [Bool.false_eq_true, if_false, Except.ok.injEq,
        Prod.mk.injEq] at h
      obtain ⟨rfl, rfl, rfl⟩ := h
      exact Or.inr ⟨rfl, hext⟩
    | true =>
      simp only [if_true] at h
      cases hleaf : pt₁.leaf va with
      | some l =>
        simp only [hleaf] at h
        cases h
      | none =>
        simp only [hleaf, Except.ok.injEq, Prod.mk.injEq] at h
        obtain ⟨rfl, rfl, rfl⟩ := h
        obtain ⟨e, he⟩ := hfound rfl
        refine Or.inl ⟨rfl, hva, hlt, ?_, ?_, ?_, ?_⟩
        · rw [← hext.leaf]
          exact hleaf
        · intro vb hvb
          exact PageTable.leaf_setPte_self _ he
            (hvb.trans (pgrounddown_of_mod hva).symm)
        · intro vb hlt' hvb
          rw [PageTable.leaf_setPte_of_ne _ _ hlt hlt'
            (by rwa [pgrounddown_of_mod hva])]
          exact hext.leaf vb
        · simpa using hext.taken

/-! ## What `uvmunmap` does -/

/-- The frames mapped by the `n` pages from `a` on, in address order. -/
def leafFrames (pt : PageTable) : ℕ → ℕ → List Frame
  | 0, _ => []
  | n + 1, a =>
      ((pt.leaf a).map Leaf.frame).toList ++ leafFrames pt n (a + PGSIZE)

/-- The leaves of a range of pages were cleared and their frames given back
if asked. -/
structure Unmapped (doFree : Bool) (n a : ℕ) (km : Kmem) (pt : PageTable)
    (km' : Kmem) (pt' : PageTable) : Prop where
  inside : ∀ vb < MAXVA, a ≤ vb → vb < a + n * PGSIZE → pt'.leaf vb = none
  outside : ∀ vb < MAXVA, ¬ (a ≤ vb ∧ vb < a + n * PGSIZE) →
    pt'.leaf vb = pt.leaf vb
  frames : pt'.frames = pt.frames
  freed : km'.freelist =
    (if doFree then (leafFrames pt n a).reverse else []) ++ km.freelist

private theorem page_cases {a : ℕ} (ha : a % PGSIZE = 0) (n vb : ℕ) :
    pgrounddown vb = a ∨
      (pgrounddown vb ≠ a ∧ ((a ≤ vb ∧ vb < a + (n + 1) * PGSIZE) ↔
        (a + PGSIZE ≤ vb ∧ vb < a + PGSIZE + n * PGSIZE))) := by
  unfold pgrounddown PGSIZE at *
  omega

theorem leafFrames_congr : ∀ {n a : ℕ},
    (∀ k < n, pt'.leaf (a + k * PGSIZE) = pt.leaf (a + k * PGSIZE)) →
    leafFrames pt' n a = leafFrames pt n a
  | 0, _, _ => rfl
  | n + 1, a, h => by
    have h0 := h 0 (Nat.succ_pos n)
    simp only [Nat.zero_mul, Nat.add_zero] at h0
    have hrest : leafFrames pt' n (a + PGSIZE) =
        leafFrames pt n (a + PGSIZE) := by
      apply leafFrames_congr
      intro k hk
      have hshift : a + PGSIZE + k * PGSIZE = a + (k + 1) * PGSIZE := by
        rw [Nat.succ_mul]
        omega
      rw [hshift]
      exact h (k + 1) (Nat.succ_lt_succ hk)
    rw [leafFrames, leafFrames, h0, hrest]

theorem mem_leafFrames : ∀ {n a : ℕ},
    f ∈ leafFrames pt n a ↔
      ∃ k < n, ∃ l, pt.leaf (a + k * PGSIZE) = some l ∧ l.frame = f
  | 0, _ => by simp [leafFrames]
  | n + 1, a => by
    rw [leafFrames, List.mem_append, mem_leafFrames]
    simp only [Option.mem_toList, Option.map_eq_some_iff]
    constructor
    · rintro (⟨l, hl, hf⟩ | ⟨k, hk, l, hl, hf⟩)
      · exact ⟨0, Nat.succ_pos n, l, by simpa using hl, hf⟩
      · refine ⟨k + 1, Nat.succ_lt_succ hk, l, ?_, hf⟩
        rw [← hl, Nat.succ_mul]
        congr 1
        omega
    · rintro ⟨k, hk, l, hl, hf⟩
      cases k with
      | zero => exact Or.inl ⟨l, by simpa using hl, hf⟩
      | succ k =>
        refine Or.inr ⟨k, Nat.lt_of_succ_lt_succ hk, l, ?_, hf⟩
        rw [← hl, Nat.succ_mul]
        congr 1
        omega

/-- Writing one entry does not change the pages behind it. -/
theorem leafFrames_setPte (pt : PageTable) {n a : ℕ} (e : Option Leaf)
    (ha : a % PGSIZE = 0) (hb : a + PGSIZE + n * PGSIZE ≤ MAXVA) :
    leafFrames (pt.setPte a e) n (a + PGSIZE) =
      leafFrames pt n (a + PGSIZE) := by
  apply leafFrames_congr
  intro k hk
  have hmul : k * PGSIZE + PGSIZE ≤ n * PGSIZE := by
    rw [← Nat.succ_mul]
    exact Nat.mul_le_mul_right _ hk
  apply pt.leaf_setPte_of_ne e
  · unfold PGSIZE at *
    omega
  · unfold PGSIZE at *
    omega
  · rw [pgrounddown_of_mod ha]
    unfold pgrounddown PGSIZE at *
    omega

/-- One round of the loop, whatever it found, and the rounds after it. -/
theorem Unmapped.cons {doFree : Bool} {n a : ℕ} {km km₁ km' : Kmem}
    {pt pt₁ pt' : PageTable} (ha : a % PGSIZE = 0)
    (hbound : n = 0 ∨ a + PGSIZE + n * PGSIZE ≤ MAXVA)
    (hself : ∀ vb, pgrounddown vb = a → pt₁.leaf vb = none)
    (hother : ∀ vb < MAXVA, pgrounddown vb ≠ a → pt₁.leaf vb = pt.leaf vb)
    (hframes : pt₁.frames = pt.frames)
    (hfreed : km₁.freelist =
      (if doFree then ((pt.leaf a).map Leaf.frame).toList else []) ++
        km.freelist)
    (h : Unmapped doFree n (a + PGSIZE) km₁ pt₁ km' pt') :
    Unmapped doFree (n + 1) a km pt km' pt' := by
  have hrest : leafFrames pt₁ n (a + PGSIZE) =
      leafFrames pt n (a + PGSIZE) := by
    apply leafFrames_congr
    intro k hk
    have hmul : k * PGSIZE + PGSIZE ≤ n * PGSIZE := by
      rw [← Nat.succ_mul]
      exact Nat.mul_le_mul_right _ hk
    apply hother
    · unfold PGSIZE at *
      omega
    · unfold pgrounddown PGSIZE at *
      omega
  refine ⟨?_, ?_, h.frames.trans hframes, ?_⟩
  · intro vb hvb hlo hhi
    rcases page_cases ha n vb with hpage | ⟨hpage, hiff⟩
    · by_cases hin : a + PGSIZE ≤ vb ∧ vb < a + PGSIZE + n * PGSIZE
      · exact h.inside vb hvb hin.1 hin.2
      · rw [h.outside vb hvb hin]
        exact hself vb hpage
    · obtain ⟨hlo', hhi'⟩ := hiff.mp ⟨hlo, hhi⟩
      exact h.inside vb hvb hlo' hhi'
  · intro vb hvb hout
    rcases page_cases ha n vb with hpage | ⟨hpage, hiff⟩
    · exfalso
      apply hout
      have hlo := pgrounddown_le vb
      have hhi := lt_pgrounddown_add vb
      rw [Nat.succ_mul]
      omega
    · rw [h.outside vb hvb fun hin => hout (hiff.mpr hin)]
      exact hother vb hvb hpage
  · rw [h.freed, hfreed, hrest]
    cases doFree with
    | false => rfl
    | true =>
      cases hl : pt.leaf a with
      | none => simp [leafFrames, hl]
      | some l => simp [leafFrames, hl]

variable {doFree : Bool}

theorem uvmunmapLoop_spec : ∀ {n a : ℕ} {km km' : Kmem}
    {pt pt' : PageTable}, a % PGSIZE = 0 →
    uvmunmapLoop doFree n a km pt = .ok (km', pt') →
    Unmapped doFree n a km pt km' pt' ∧ (n = 0 ∨ a + n * PGSIZE ≤ MAXVA)
  | 0, a, km, km', pt, pt', _, h => by
    simp only [uvmunmapLoop, Except.ok.injEq, Prod.mk.injEq] at h
    obtain ⟨rfl, rfl⟩ := h
    refine ⟨⟨?_, fun _ _ _ => rfl, rfl, ?_⟩, Or.inl rfl⟩
    · intro vb _ hlo hhi
      omega
    · cases doFree <;> rfl
  | n + 1, a, km, km', pt, pt', ha, h => by
    rw [uvmunmapLoop] at h
    obtain ⟨e, hwalk, h⟩ := bind_ok_iff.mp h
    unfold walk at hwalk
    split at hwalk
    · rename_i hlt
      simp only [Except.ok.injEq] at hwalk
      have hnext : (a + PGSIZE) % PGSIZE = 0 := by simpa using ha
      have hpage := pgrounddown_of_mod ha
      have hlast : n = 0 ∨ a + PGSIZE + n * PGSIZE ≤ MAXVA →
          n + 1 = 0 ∨ a + (n + 1) * PGSIZE ≤ MAXVA := by
        intro hb
        right
        rw [Nat.succ_mul]
        rcases hb with rfl | hb
        · unfold PGSIZE MAXVA at *
          omega
        · omega
      have hleaf : pt.leaf a = e.join := by rw [← hwalk]; rfl
      -- only a valid leaf does anything in this round
      cases hl : pt.leaf a with
      | none =>
        have hskip : uvmunmapLoop doFree n (a + PGSIZE) km pt =
            .ok (km', pt') := by
          rcases e with _ | _ | l
          · exact h
          · exact h
          · rw [hl] at hleaf
            cases hleaf
        obtain ⟨hrest, hb⟩ := uvmunmapLoop_spec hnext hskip
        refine ⟨hrest.cons ha hb ?_ (fun _ _ _ => rfl) rfl ?_, hlast hb⟩
        · intro vb hvb
          rw [pt.leaf_congr (hvb.trans hpage.symm), hl]
        · rw [hl]
          cases doFree <;> rfl
      | some l =>
        have he : e = some (some l) := by
          rcases e with _ | _ | l'
          · rw [hl] at hleaf
            cases hleaf
          · rw [hl] at hleaf
            cases hleaf
          · rw [hl] at hleaf
            cases hleaf
            rfl
        subst he
        obtain ⟨km₁, hfree, h⟩ := bind_ok_iff.mp h
        obtain ⟨hrest, hb⟩ := uvmunmapLoop_spec hnext h
        refine ⟨hrest.cons ha hb ?_ ?_ (pt.frames_setPte a none) ?_,
          hlast hb⟩
        · intro vb hvb
          exact pt.leaf_clear_self (hvb.trans hpage.symm)
        · intro vb hvb hne
          exact pt.leaf_setPte_of_ne none hlt hvb (by rwa [hpage])
        · rw [hl]
          cases doFree with
          | false =>
            cases hfree
            rfl
          | true => exact (kfree_ok hfree).2
    · cases hwalk

/-- The loop completes when the range lies below `MAXVA` and every frame it
has to give back may be given back. -/
theorem uvmunmapLoop_ok : ∀ {n a : ℕ} {km : Kmem}
    {pt : PageTable}, a % PGSIZE = 0 → a + n * PGSIZE ≤ MAXVA →
    (doFree = true → ∀ f ∈ leafFrames pt n a, f.Usable) →
    ∃ km' pt', uvmunmapLoop doFree n a km pt = .ok (km', pt')
  | 0, _, km, pt, _, _, _ => ⟨km, pt, rfl⟩
  | n + 1, a, km, pt, ha, hb, huse => by
    rw [Nat.succ_mul] at hb
    have hlt : a < MAXVA := by
      unfold PGSIZE at hb
      omega
    have hnext : (a + PGSIZE) % PGSIZE = 0 := by simpa using ha
    rw [uvmunmapLoop, walk, if_pos hlt]
    show ∃ km' pt', (match pt.pte a with
      | some (some l) => _
      | _ => _) = Except.ok (km', pt')
    rcases hpte : pt.pte a with _ | _ | l
    · exact uvmunmapLoop_ok hnext (by omega) fun hd f hf =>
        huse hd f (List.mem_append_right _ hf)
    · exact uvmunmapLoop_ok hnext (by omega) fun hd f hf =>
        huse hd f (List.mem_append_right _ hf)
    · have hl : pt.leaf a = some l := by
        rw [PageTable.leaf_eq_join, hpte]
        rfl
      have hrest : ∀ km₁, ∃ km' pt', uvmunmapLoop doFree n (a + PGSIZE) km₁
          (pt.setPte a none) = .ok (km', pt') := by
        intro km₁
        refine uvmunmapLoop_ok hnext (by omega) fun hd f hf => ?_
        rw [leafFrames_setPte pt none ha (by omega)] at hf
        exact huse hd f (List.mem_append_right _ hf)
      cases doFree with
      | false => exact hrest km
      | true =>
        have hf : l.frame.Usable :=
          huse rfl _ (List.mem_append_left _ (by simp [hl]))
        obtain ⟨km₁, hfree, -⟩ := kfree_of_usable km hf
        obtain ⟨km', pt', hdone⟩ := hrest km₁
        exact ⟨km', pt', bind_ok_iff.mpr ⟨km₁, hfree, hdone⟩⟩

/-- The rounds of `uvmunmap` on a range that does not wrap. -/
theorem uvmunmap_rounds {npages : ℕ} (h : va + npages * PGSIZE < 2 ^ 64) :
    ((va + npages * PGSIZE) % 2 ^ 64 - va) / PGSIZE = npages := by
  rw [Nat.mod_eq_of_lt h, Nat.add_sub_cancel_left]
  exact Nat.mul_div_cancel _ (by decide)

theorem uvmunmap_spec {npages : ℕ} (hb : va + npages * PGSIZE < 2 ^ 64)
    (h : uvmunmap km pt va npages doFree = .ok (km', pt')) :
    Unmapped doFree npages va km pt km' pt' := by
  unfold uvmunmap at h
  split at h
  · cases h
  · rename_i ha
    rw [uvmunmap_rounds hb] at h
    exact (uvmunmapLoop_spec (not_not.mp ha) h).1

theorem uvmunmap_ok {km : Kmem} {pt : PageTable} {va npages : ℕ}
    {doFree : Bool} (ha : va % PGSIZE = 0) (hb : va + npages * PGSIZE ≤ MAXVA)
    (huse : doFree = true → ∀ f ∈ leafFrames pt npages va, f.Usable) :
    ∃ km' pt', uvmunmap km pt va npages doFree = .ok (km', pt') := by
  have hb' : va + npages * PGSIZE < 2 ^ 64 := by
    unfold MAXVA at hb
    omega
  rw [uvmunmap, if_neg (not_not.mpr ha), uvmunmap_rounds hb']
  exact uvmunmapLoop_ok ha hb huse

end Xv6.Vm
