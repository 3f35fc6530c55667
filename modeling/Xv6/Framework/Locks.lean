import Mathlib.Logic.Function.Basic

/-!
# Locks and their holders

Locks record who holds them, and what a holder holds can be read off from
where it is. The two records agree while every holder has at most one lock and
locks change hands by being acquired when free and released by their holder.
-/

namespace Xv6.Framework

variable {ι κ : Type*}

/-- Each lock has the holder that says so. -/
def Matched (lock : ι → Option κ) (held : κ → Option ι) : Prop :=
  ∀ i k, lock i = some k ↔ held k = some i

namespace Matched

variable {lock : ι → Option κ} {held : κ → Option ι} {i : ι} {k k' : κ}

theorem unique (h : Matched lock held) (hk : held k = some i)
    (hk' : held k' = some i) : k = k' :=
  Option.some.inj (((h i k).mpr hk).symm.trans ((h i k').mpr hk'))

variable [DecidableEq ι] [DecidableEq κ]

theorem acquire (h : Matched lock held) (hfree : lock i = none)
    (hnone : held k = none) :
    Matched (Function.update lock i (some k))
      (Function.update held k (some i)) := by
  intro j l
  by_cases hj : j = i
  · subst hj
    by_cases hl : l = k
    · subst hl
      simp
    · have hother : held l ≠ some j := by
        rw [Ne, ← h j l, hfree]
        exact (Option.some_ne_none l).symm
      simp [hl, Ne.symm hl, hother]
  · by_cases hl : l = k
    · subst hl
      have hother : lock j ≠ some l := by
        rw [Ne, h j l, hnone]
        exact (Option.some_ne_none j).symm
      simp [hj, Ne.symm hj, hother]
    · simp [hj, hl, h j l]

theorem release (h : Matched lock held) (hheld : held k = some i) :
    Matched (Function.update lock i none) (Function.update held k none) := by
  intro j l
  by_cases hj : j = i
  · subst hj
    by_cases hl : l = k
    · simp [hl]
    · have hother : held l ≠ some j := fun hl' => hl (h.unique hl' hheld)
      simp [hl, hother]
  · by_cases hl : l = k
    · subst hl
      have hother : lock j ≠ some l := by
        rw [Ne, h j l, hheld]
        exact fun heq => hj (Option.some.inj heq).symm
      simp [hj, hother]
    · simp [hj, hl, h j l]

end Matched

/-! ## One lock

The holder is the only one at a point at which the lock is held. -/

section OneLock

variable {φ : Type*} {hold : φ → Bool} {lock : Option κ} {f : κ → φ}
variable [DecidableEq κ] {k : κ} {p : φ}

theorem held_update (h : ∀ j, lock = some j ↔ hold (f j) = true)
    (hp : hold p = hold (f k)) (j : κ) :
    lock = some j ↔ hold (Function.update f k p j) = true := by
  rw [h j]
  by_cases hj : j = k
  · rw [hj, Function.update_self, hp]
  · rw [Function.update_of_ne hj]

theorem held_acquire (h : ∀ j, lock = some j ↔ hold (f j) = true)
    (hfree : lock = none) (hp : hold p = true) (j : κ) :
    some k = some j ↔ hold (Function.update f k p j) = true := by
  by_cases hj : j = k
  · rw [hj, Function.update_self]
    exact iff_of_true rfl hp
  · rw [Function.update_of_ne hj, ← h j, hfree]
    simp [Ne.symm hj]

theorem held_release (h : ∀ j, lock = some j ↔ hold (f j) = true)
    (hk : hold (f k) = true) (hp : hold p = false) (j : κ) :
    none = some j ↔ hold (Function.update f k p j) = true := by
  by_cases hj : j = k
  · rw [hj, Function.update_self, hp]
    simp
  · rw [Function.update_of_ne hj, ← h j, (h k).mpr hk]
    simp [Ne.symm hj]

omit [DecidableEq κ] in
/-- Nobody else holds the lock. -/
theorem held_unique (h : ∀ j, lock = some j ↔ hold (f j) = true) {j : κ}
    (hj : hold (f j) = true) (hk : hold (f k) = true) : j = k :=
  Option.some.inj (((h j).mpr hj).symm.trans ((h k).mpr hk))

end OneLock

end Xv6.Framework
