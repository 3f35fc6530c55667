import Xv6.Vm.Ledger

/-!
# How many frames `mappages` takes (`kernel/vm.c`)

`walk` allocates the pages of the page table on the way to an entry. With two
free frames it gets there, and if the last page is there already it takes
none.
-/

namespace Xv6.Vm

open Framework

variable {km km' : Kmem} {pt pt' : PageTable} {va : ℕ}

/-- `walk` takes at most two frames. It comes back without an entry only if
there are no more, and takes none just if the page for the entry is there. -/
structure Took (free free' : List Frame) (there : Prop) (found : Bool) :
    Prop where
  two : free.length ≤ free'.length + 2
  short : found = false → free.length ≤ 1 ∧ free' = []
  nothing : there → free' = free ∧ found = true
  some : found = true → ¬ there → free ≠ []

theorem walkAllocMid_took {m : Mid Frame 512 (Option Leaf)} {found : Bool}
    (hva : va < MAXVA)
    (h : walkAllocMid km pt hva m = (km', pt', found)) :
    km.freelist.length ≤ km'.freelist.length + 1 ∧
    (found = false → km.freelist = [] ∧ km'.freelist = []) ∧
    (m.entry (px 1 va) ≠ none → km'.freelist = km.freelist ∧
      found = true) ∧
    (found = true → m.entry (px 1 va) = none → km.freelist ≠ []) := by
  unfold walkAllocMid at h
  cases hj : m.entry (px 1 va) with
  | some l =>
    simp only [hj, Prod.mk.injEq] at h
    obtain ⟨rfl, rfl, rfl⟩ := h
    exact ⟨by omega, by rintro ⟨⟩, fun _ => ⟨rfl, rfl⟩, by rintro _ ⟨⟩⟩
  | none =>
    cases halloc : kalloc km with
    | none =>
      simp only [hj, halloc, Prod.mk.injEq] at h
      obtain ⟨rfl, rfl, rfl⟩ := h
      have hfree := kalloc_none halloc
      exact ⟨by omega, fun _ => ⟨hfree, hfree⟩, fun h => absurd rfl h,
        by rintro ⟨⟩⟩
    | some fk =>
      obtain ⟨f, km₁⟩ := fk
      simp only [hj, halloc, Prod.mk.injEq] at h
      obtain ⟨rfl, rfl, rfl⟩ := h
      rw [Kmem.freelist_memset, kalloc_some halloc]
      exact ⟨Nat.le_refl _, by rintro ⟨⟩, fun h => absurd rfl h,
        fun _ _ => List.cons_ne_nil _ _⟩

theorem walkAlloc_took {found : Bool}
    (h : walkAlloc km pt va = .ok (km', pt', found)) :
    Took km.freelist km'.freelist (pt.pte va ≠ none) found := by
  unfold walkAlloc at h
  split at h
  · rename_i hva
    cases hmid : pt.root.entry (px 2 va) with
    | some m =>
      simp only [hmid, Except.ok.injEq] at h
      obtain ⟨htwo, hshort, hnone, hsome⟩ := walkAllocMid_took hva h
      have hthere : pt.pte va ≠ none ↔ m.entry (px 1 va) ≠ none := by
        unfold PageTable.pte Root.slot
        rw [hmid]
        cases hj : m.entry (px 1 va) with
        | none => simp [hj]
        | some t => simp [hj]
      refine ⟨by omega, fun hf => ?_, fun hpte => hnone (hthere.mp hpte),
        fun hf hpte => hsome hf ?_⟩
      · obtain ⟨hempty, hempty'⟩ := hshort hf
        rw [hempty]
        exact ⟨Nat.zero_le 1, hempty'⟩
      · exact not_not.mp fun hj => hpte (hthere.mpr hj)
    | none =>
      have hpte : pt.pte va = none := by
        simp [PageTable.pte, Root.slot, hmid]
      cases halloc : kalloc km with
      | none =>
        simp only [hmid, halloc, Except.ok.injEq, Prod.mk.injEq] at h
        obtain ⟨rfl, rfl, rfl⟩ := h
        have hfree := kalloc_none halloc
        refine ⟨by omega, fun _ => ⟨?_, hfree⟩, fun h => absurd hpte h,
          by rintro ⟨⟩⟩
        rw [hfree]
        exact Nat.zero_le 1
      | some fk =>
        obtain ⟨f, km₁⟩ := fk
        simp only [hmid, halloc, Except.ok.injEq] at h
        obtain ⟨htwo, hshort, -, -⟩ := walkAllocMid_took hva h
        rw [Kmem.freelist_memset] at htwo hshort
        rw [kalloc_some halloc]
        refine ⟨?_, fun hf => ?_, fun h => absurd hpte h,
          fun _ _ => List.cons_ne_nil _ _⟩
        · rw [List.length_cons]
          omega
        · obtain ⟨hempty, hempty'⟩ := hshort hf
          rw [hempty]
          exact ⟨Nat.le_refl 1, hempty'⟩
  · cases h

theorem mappages_took {f : Frame} {perm : Perm}
    {done : Bool} (h : mappages km pt va f perm = .ok (km', pt', done)) :
    Took km.freelist km'.freelist (pt.pte va ≠ none) done := by
  unfold mappages at h
  split at h
  · cases h
  · obtain ⟨⟨km₁, pt₁, found⟩, hwalk, h⟩ := bind_ok_iff.mp h
    have htook := walkAlloc_took hwalk
    cases found with
    | false =>
      cases h
      exact htook
    | true =>
      dsimp only at h
      rw [if_pos rfl] at h
      split at h
      · cases h
      · cases h
        exact htook

/-- Entries on one page of the page table are there together. -/
theorem pte_congr {vb : ℕ} (h₂ : px 2 va = px 2 vb) (h₁ : px 1 va = px 1 vb)
    (h : pt.pte va ≠ none) : pt.pte vb ≠ none := by
  unfold PageTable.pte Root.slot at h ⊢
  rw [← h₂, ← h₁]
  cases hmid : pt.root.entry (px 2 va) with
  | none => simp [hmid] at h
  | some m =>
    cases hj : m.entry (px 1 va) with
    | none => simp [hmid, hj] at h
    | some t => simp [hj]

theorem pte_of_leaf (h : pt.leaf va ≠ none) : pt.pte va ≠ none := by
  intro hpte
  rw [PageTable.leaf_eq_join, hpte] at h
  exact h rfl

/-- With no free frame at all nothing happens. -/
theorem mappages_of_nil {f : Frame} {perm : Perm} (hfree : km.freelist = [])
    (h : mappages km pt va f perm = .ok (km', pt', false)) :
    km' = km ∧ pt' = pt := by
  have halloc : kalloc km = none := by
    simp [kalloc, hfree]
  unfold mappages at h
  split at h
  · cases h
  · obtain ⟨⟨km₁, pt₁, found⟩, hwalk, h⟩ := bind_ok_iff.mp h
    cases found with
    | true =>
      dsimp only at h
      rw [if_pos rfl] at h
      split at h <;> cases h
    | false =>
      cases h
      unfold walkAlloc at hwalk
      split at hwalk
      · cases hmid : pt.root.entry (px 2 va) with
        | none =>
          simp only [hmid, halloc] at hwalk
          cases hwalk
          exact ⟨rfl, rfl⟩
        | some m =>
          simp only [hmid, walkAllocMid, halloc] at hwalk
          split at hwalk
          · cases hwalk
          · cases hwalk
            exact ⟨rfl, rfl⟩
      · cases hwalk

end Xv6.Vm
