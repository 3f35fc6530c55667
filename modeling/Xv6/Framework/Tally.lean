import Mathlib.Algebra.Order.BigOperators.Group.Finset
import Mathlib.Data.Fintype.Basic

/-!
# Counting the entries of a table

Reference counts are compared with the number of table entries that hold a
reference. Overwriting one entry moves the number by what the old and the new
entry count for.
-/

namespace Xv6.Framework

variable {ι α : Type*} [Fintype ι] {f g : ι → α} {p : α → Bool}

/-- How many entries of the table pass the test. -/
def tally (f : ι → α) (p : α → Bool) : ℕ := ∑ i, (p (f i)).toNat

/-- A sum over a table moves with the entry that is overwritten. -/
theorem sum_weight_update [DecidableEq ι] (f : ι → α) (w : α → ℕ) (i : ι) (a : α) :
    ∑ j, w (Function.update f i a j) + w (f i) = ∑ j, w (f j) + w a := by
  have h₁ := Finset.add_sum_erase Finset.univ
    (fun j => w (Function.update f i a j)) (Finset.mem_univ i)
  have h₂ := Finset.add_sum_erase Finset.univ
    (fun j => w (f j)) (Finset.mem_univ i)
  have hrest : ∑ j ∈ Finset.univ.erase i, w (Function.update f i a j) =
      ∑ j ∈ Finset.univ.erase i, w (f j) := by
    refine Finset.sum_congr rfl fun j hj => ?_
    rw [Function.update_of_ne (Finset.ne_of_mem_erase hj)]
  simp only [Function.update_self] at h₁
  omega

theorem tally_update [DecidableEq ι] (f : ι → α) (p : α → Bool) (i : ι)
    (a : α) : tally (Function.update f i a) p + (p (f i)).toNat =
      tally f p + (p a).toNat :=
  sum_weight_update f (fun a => (p a).toNat) i a

theorem tally_eq_zero (h : ∀ i, p (f i) = false) : tally f p = 0 := by
  simp [tally, h]

theorem tally_pos {i : ι} (h : p (f i) = true) : 0 < tally f p := by
  unfold tally
  have hle : (p (f i)).toNat ≤ ∑ j, (p (f j)).toNat :=
    Finset.single_le_sum (f := fun j => (p (f j)).toNat)
      (fun j _ => Nat.zero_le _) (Finset.mem_univ i)
  rw [h] at hle
  exact hle

theorem tally_le (h : ∀ i, p (f i) = true → p (g i) = true) :
    tally f p ≤ tally g p := by
  refine Finset.sum_le_sum fun i _ => ?_
  cases hi : p (f i) with
  | false => exact Nat.zero_le _
  | true => rw [h i hi]

/-- Two tests that no entry passes both. -/
theorem tally_add_le_card {q : α → Bool}
    (h : ∀ a, p a = true → q a = false) :
    tally f p + tally f q ≤ Fintype.card ι := by
  rw [tally, tally, ← Finset.sum_add_distrib]
  have hle : ∀ i ∈ Finset.univ, (p (f i)).toNat + (q (f i)).toNat ≤ 1 := by
    intro i _
    cases hi : p (f i) with
    | false => simpa using Bool.toNat_le (q (f i))
    | true => simp [h _ hi]
  calc ∑ i, ((p (f i)).toNat + (q (f i)).toNat)
      ≤ ∑ _i : ι, 1 := Finset.sum_le_sum hle
    _ = Fintype.card ι := by
        rw [← Finset.card_eq_sum_ones, Finset.card_univ]

end Xv6.Framework
