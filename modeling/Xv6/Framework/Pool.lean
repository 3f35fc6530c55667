import Mathlib

/-!
# A pool that is shared out

A multiset is the sum of the shares of its holders. Without duplicates in the
pool, every element is in the share of exactly one holder.
-/

namespace Xv6.Framework

variable {ι α : Type*} [DecidableEq ι]

/-- Two sums that differ at one holder, where the first has one element. -/
theorem sum_eq_cons {s : Finset ι} {f g : ι → Multiset α} {k : ι} {a : α}
    (hk : k ∈ s) (hf : f k = {a}) (hg : g k = 0)
    (hother : ∀ j ∈ s, j ≠ k → f j = g j) :
    ∑ j ∈ s, f j = a ::ₘ ∑ j ∈ s, g j := by
  have hrest : ∑ j ∈ s.erase k, f j = ∑ j ∈ s.erase k, g j := by
    apply Finset.sum_congr rfl
    intro j hj
    exact hother j (Finset.mem_of_mem_erase hj) (Finset.ne_of_mem_erase hj)
  rw [← Finset.add_sum_erase s f hk, ← Finset.add_sum_erase s g hk, hrest,
    hf, hg, zero_add, Multiset.singleton_add]

/-- One share set apart from the others, which are as in `f`. -/
theorem sum_update [Fintype ι] (f g : ι → Multiset α) (i : ι)
    (h : ∀ j ≠ i, g j = f j) :
    ∑ j, g j = g i + ∑ j ∈ Finset.univ.erase i, f j := by
  rw [← Finset.add_sum_erase _ g (Finset.mem_univ i)]
  congr 1
  apply Finset.sum_congr rfl
  intro j hj
  exact h j (Finset.ne_of_mem_erase hj)

theorem existsUnique_share {s : Finset ι} {f : ι → Multiset α}
    (h : (∑ i ∈ s, f i).Nodup) {a : α} (ha : a ∈ ∑ i ∈ s, f i) :
    ∃! i, i ∈ s ∧ a ∈ f i := by
  obtain ⟨i, hi, hai⟩ := Multiset.mem_sum.mp ha
  refine ⟨i, ⟨hi, hai⟩, ?_⟩
  rintro j ⟨hj, haj⟩
  by_contra hne
  rw [← Finset.add_sum_erase s f hi, Multiset.nodup_add] at h
  refine Multiset.disjoint_left.mp h.2.2 hai (Multiset.mem_sum.mpr ?_)
  exact ⟨j, Finset.mem_erase.mpr ⟨hne, hj⟩, haj⟩

end Xv6.Framework
