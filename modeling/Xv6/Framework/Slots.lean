import Mathlib

/-!
# Slots that are handed out

The slots `0, …, n - 1` are free or belong to one of the holders, each of
which has a list of slots. A holder takes a free slot to the end of its list
and gives back the first one.
-/

namespace Xv6.Framework

variable {ι : Type*}

/-- The slots that are not free are shared out. -/
structure Slots (n : ℕ) (free : ℕ → Bool) (own : ι → List ℕ) : Prop where
  nodup : ∀ u, (own u).Nodup
  unique : ∀ {u v i}, i ∈ own u → i ∈ own v → u = v
  lt : ∀ {u i}, i ∈ own u → i < n
  taken : ∀ {u i}, i ∈ own u → free i = false
  owned : ∀ {i}, i < n → free i = false → ∃ u, i ∈ own u

namespace Slots

variable {n i : ℕ} {free : ℕ → Bool} {own : ι → List ℕ} {u : ι}

/-- A slot is free exactly if nobody has it. -/
theorem free_iff (h : Slots n free own) (hi : i < n) :
    free i = true ↔ ∀ u, i ∉ own u := by
  constructor
  · intro hfree u hu
    rw [h.taken hu] at hfree
    cases hfree
  · intro hnone
    by_contra hfree
    obtain ⟨u, hu⟩ := h.owned hi (by simpa using hfree)
    exact hnone u hu

theorem empty : Slots n (fun _ => true) (fun _ : ι => []) where
  nodup _ := List.nodup_nil
  unique hi := absurd hi List.not_mem_nil
  lt hi := absurd hi List.not_mem_nil
  taken hi := absurd hi List.not_mem_nil
  owned _ hfree := absurd hfree (by simp)

variable [DecidableEq ι]

theorem take (h : Slots n free own) (hi : i < n) (hfree : free i = true) :
    Slots n (Function.update free i false)
      (Function.update own u (own u ++ [i])) := by
  have hnone := (h.free_iff hi).mp hfree
  -- a slot of `v` is an old one, or the new one
  have hcase : ∀ {v j}, j ∈ Function.update own u (own u ++ [i]) v ↔
      j ∈ own v ∨ v = u ∧ j = i := by
    intro v j
    by_cases hv : v = u
    · subst hv
      simp
    · simp [hv]
  refine ⟨fun v => ?_, ?_, ?_, ?_, ?_⟩
  · by_cases hv : v = u
    · subst hv
      rw [Function.update_self, List.nodup_append]
      refine ⟨h.nodup v, List.nodup_singleton i, ?_⟩
      rintro j hj k hk rfl
      exact hnone v (List.mem_singleton.mp hk ▸ hj)
    · rw [Function.update_of_ne hv]
      exact h.nodup v
  · intro v w j hv hw
    rcases hcase.mp hv with hold | ⟨rfl, rfl⟩
    · rcases hcase.mp hw with hold' | ⟨-, rfl⟩
      · exact h.unique hold hold'
      · exact absurd hold (hnone v)
    · rcases hcase.mp hw with hold' | ⟨rfl, -⟩
      · exact absurd hold' (hnone w)
      · rfl
  · intro v j hv
    rcases hcase.mp hv with hv | ⟨-, rfl⟩
    · exact h.lt hv
    · exact hi
  · intro v j hv
    rcases hcase.mp hv with hv | ⟨-, rfl⟩
    · by_cases hj : j = i
      · rw [hj, Function.update_self]
      · rw [Function.update_of_ne hj]
        exact h.taken hv
    · exact Function.update_self ..
  · intro j hj hfree'
    by_cases hji : j = i
    · exact ⟨u, hcase.mpr (Or.inr ⟨rfl, hji⟩)⟩
    · rw [Function.update_of_ne hji] at hfree'
      obtain ⟨v, hv⟩ := h.owned hj hfree'
      exact ⟨v, hcase.mpr (Or.inl hv)⟩

theorem give (h : Slots n free own) {rest : List ℕ} (hown : own u = i :: rest) :
    Slots n (Function.update free i true) (Function.update own u rest) := by
  have hnodup := h.nodup u
  rw [hown, List.nodup_cons] at hnodup
  have hiu : i ∈ own u := by
    rw [hown]
    exact List.mem_cons_self
  -- the slots of `v` are the old ones without `i`
  have hcase : ∀ {v j}, j ∈ Function.update own u rest v ↔
      j ∈ own v ∧ j ≠ i := by
    intro v j
    by_cases hv : v = u
    · subst hv
      rw [Function.update_self, hown, List.mem_cons]
      constructor
      · intro hj
        exact ⟨Or.inr hj, fun hji => hnodup.1 (hji ▸ hj)⟩
      · rintro ⟨hj | hj, hne⟩
        · exact absurd hj hne
        · exact hj
    · rw [Function.update_of_ne hv]
      constructor
      · intro hj
        exact ⟨hj, fun hji => hv (h.unique (hji ▸ hj) hiu)⟩
      · exact And.left
  refine ⟨fun v => ?_, ?_, ?_, ?_, ?_⟩
  · by_cases hv : v = u
    · subst hv
      rw [Function.update_self]
      exact hnodup.2
    · rw [Function.update_of_ne hv]
      exact h.nodup v
  · intro v w j hv hw
    exact h.unique (hcase.mp hv).1 (hcase.mp hw).1
  · intro v j hv
    exact h.lt (hcase.mp hv).1
  · intro v j hv
    obtain ⟨hv, hne⟩ := hcase.mp hv
    rw [Function.update_of_ne hne]
    exact h.taken hv
  · intro j hj hfree
    by_cases hji : j = i
    · rw [hji, Function.update_self] at hfree
      cases hfree
    · rw [Function.update_of_ne hji] at hfree
      obtain ⟨v, hv⟩ := h.owned hj hfree
      exact ⟨v, hcase.mpr ⟨hv, hji⟩⟩

end Slots

/-- A list without repetitions of numbers below `n` has at most `n`
elements. -/
theorem length_le_of_nodup {l : List ℕ} {n : ℕ} (hl : l.Nodup)
    (hlt : ∀ j ∈ l, j < n) : l.length ≤ n := by
  have hsub : l ⊆ List.range n := fun j hj => List.mem_range.mpr (hlt j hj)
  have hle := (hl.subperm hsub).length_le
  rwa [List.length_range] at hle

/-- It has less if one of the numbers is missing. -/
theorem length_lt_of_nodup {l : List ℕ} {n i : ℕ} (hl : l.Nodup)
    (hlt : ∀ j ∈ l, j < n) (hi : i < n) (hmiss : i ∉ l) : l.length < n := by
  refine length_le_of_nodup (List.nodup_cons.mpr ⟨hmiss, hl⟩) fun j hj => ?_
  rcases List.mem_cons.mp hj with rfl | hj
  · exact hi
  · exact hlt j hj

end Xv6.Framework
