import Mathlib

/-!
# Sequences of writes to a store

A store is a function from addresses to values. What a program does to it is
the list of its writes in program order, and a crash leaves the store that
some prefix of that list produces (`CrashOf`). Two facts carry every replay
argument: a write sequence fixes the value of each address it names, whatever
the store held before (`applyWrites_congr`), so running it again over a
partially written store changes nothing (`applyWrites_take_replay`).
-/

namespace Xv6.Framework

variable {ι β : Type*} [DecidableEq ι]

/-- The store after a sequence of writes. -/
def applyWrites (d : ι → β) (ws : List (ι × β)) : ι → β :=
  ws.foldl (fun d w => Function.update d w.1 w.2) d

@[simp] theorem applyWrites_nil (d : ι → β) : applyWrites d [] = d := rfl

@[simp] theorem applyWrites_cons (d : ι → β) (w : ι × β) (ws : List (ι × β)) :
    applyWrites d (w :: ws) = applyWrites (Function.update d w.1 w.2) ws := rfl

@[simp] theorem applyWrites_append (d : ι → β) (ws vs : List (ι × β)) :
    applyWrites d (ws ++ vs) = applyWrites (applyWrites d ws) vs := by
  simp [applyWrites, List.foldl_append]

/-- An address no write names keeps its value. -/
theorem applyWrites_of_notMem : ∀ {ws : List (ι × β)} {d : ι → β} {x : ι},
    (∀ w ∈ ws, w.1 ≠ x) → applyWrites d ws x = d x
  | [], _, _, _ => rfl
  | w :: ws, d, x, h => by
    have hw : w.1 ≠ x := h w List.mem_cons_self
    rw [applyWrites_cons,
      applyWrites_of_notMem fun v hv => h v (List.mem_cons_of_mem _ hv)]
    exact Function.update_of_ne (Ne.symm hw) _ _

/-- Two stores that agree wherever the sequence does not write are equal
after it. -/
theorem applyWrites_congr : ∀ {ws : List (ι × β)} {d e : ι → β} {x : ι},
    ((∃ w ∈ ws, w.1 = x) ∨ d x = e x) → applyWrites d ws x = applyWrites e ws x
  | [], _, _, _, h => by
    rcases h with ⟨w, hw, -⟩ | h
    · exact absurd hw List.not_mem_nil
    · exact h
  | w :: ws, d, e, x, h => by
    rw [applyWrites_cons, applyWrites_cons]
    apply applyWrites_congr
    by_cases hx : x = w.1
    · subst hx
      exact Or.inr (by simp)
    · rcases h with ⟨v, hv, rfl⟩ | h
      · rcases List.mem_cons.mp hv with rfl | hv
        · exact absurd rfl hx
        · exact Or.inl ⟨v, hv, rfl⟩
      · exact Or.inr (by simpa [Function.update_of_ne hx] using h)

/-- Replaying a whole sequence over any of its partial results gives the
whole result. -/
theorem applyWrites_take_replay (d : ι → β) (ws : List (ι × β)) (k : ℕ) :
    applyWrites (applyWrites d (ws.take k)) ws = applyWrites d ws := by
  funext x
  apply applyWrites_congr
  by_cases h : ∃ w ∈ ws, w.1 = x
  · exact Or.inl h
  · refine Or.inr (applyWrites_of_notMem fun w hw hx => h ⟨w, ?_, hx⟩)
    exact List.mem_of_mem_take hw

omit [DecidableEq ι] in
/-- With no address named twice, looking one up finds its write. -/
theorem lookup_of_mem [BEq ι] [LawfulBEq ι] :
    ∀ {ws : List (ι × β)} {w : ι × β},
      (ws.map Prod.fst).Nodup → w ∈ ws → ws.lookup w.1 = some w.2
  | v :: ws, w, hnd, h => by
    rw [List.map_cons, List.nodup_cons] at hnd
    rcases List.mem_cons.mp h with rfl | h
    · simp [List.lookup]
    · have hne : (w.1 == v.1) = false := by
        rw [beq_eq_false_iff_ne]
        intro heq
        exact hnd.1 (List.mem_map.mpr ⟨w, h, heq⟩)
      rw [List.lookup, hne]
      exact lookup_of_mem hnd.2 h

/-! ## Crashes -/

/-- `d'` is what a crash during `ws` can leave of the store `d`. -/
def CrashOf (d : ι → β) (ws : List (ι × β)) (d' : ι → β) : Prop :=
  ∃ k, d' = applyWrites d (ws.take k)

theorem CrashOf.take (d : ι → β) (ws : List (ι × β)) (k : ℕ) :
    CrashOf d ws (applyWrites d (ws.take k)) := ⟨k, rfl⟩

/-- A crash in two consecutive phases falls in one of them. -/
theorem CrashOf.append_cases {d d' : ι → β} {ws vs : List (ι × β)}
    (h : CrashOf d (ws ++ vs) d') :
    CrashOf d ws d' ∨ CrashOf (applyWrites d ws) vs d' := by
  obtain ⟨k, rfl⟩ := h
  rw [List.take_append, applyWrites_append]
  rcases Nat.le_total k ws.length with hk | hk
  · left
    exact ⟨k, by simp [Nat.sub_eq_zero_of_le hk]⟩
  · right
    exact ⟨k - ws.length, by rw [List.take_of_length_le hk]⟩

/-- A crash around one write leaves the store before it or after it. -/
theorem CrashOf.singleton_cases {d d' : ι → β} {w : ι × β}
    (h : CrashOf d [w] d') : d' = d ∨ d' = Function.update d w.1 w.2 := by
  obtain ⟨k, rfl⟩ := h
  cases k with
  | zero => exact Or.inl rfl
  | succ k => exact Or.inr (by simp)

end Xv6.Framework
