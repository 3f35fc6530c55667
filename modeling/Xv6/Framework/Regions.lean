import Mathlib

/-!
# Families of disjoint regions

A table of regions, some of which may be empty, in which no point belongs to
two. The table changes in two ways: its regions shrink, and a slot is given a
new region that meets none of the others.
-/

namespace Xv6.Framework

variable {ι α : Type*}

/-- No point belongs to two regions of the table. -/
def Apart (r : ι → Set α) : Prop :=
  Pairwise fun i j => Disjoint (r i) (r j)

namespace Apart

variable {r r' : ι → Set α}

theorem eq_of_mem (h : Apart r) {i j : ι} {a : α} (hi : a ∈ r i)
    (hj : a ∈ r j) : i = j := by
  by_contra hne
  exact Set.disjoint_left.mp (h hne) hi hj

theorem of_eq_of_mem (h : ∀ i j a, a ∈ r i → a ∈ r j → i = j) : Apart r := by
  intro i j hne
  exact Set.disjoint_left.mpr fun a hi hj => hne (h i j a hi hj)

theorem shrink (h : Apart r) (hsub : ∀ i, r' i ⊆ r i) : Apart r' := by
  intro i j hne
  exact (h hne).mono (hsub i) (hsub j)

/-- A new region in one slot that meets none of the other regions. -/
theorem add {i : ι} (h : Apart r) (hold : ∀ j, j ≠ i → r' j = r j)
    (hnew : ∀ j, j ≠ i → ∀ a ∈ r' i, a ∉ r j) : Apart r' := by
  apply of_eq_of_mem
  intro j k a hj hk
  by_cases hji : j = i
  · subst hji
    by_contra hjk
    have hkj : k ≠ j := fun e => hjk e.symm
    rw [hold k hkj] at hk
    exact hnew k hkj a hj hk
  · by_cases hki : k = i
    · subst hki
      rw [hold j hji] at hj
      exact absurd hj (hnew j hji a hk)
    · rw [hold j hji] at hj
      rw [hold k hki] at hk
      exact h.eq_of_mem hj hk

end Apart

end Xv6.Framework
