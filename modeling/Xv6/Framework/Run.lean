import Mathlib.Data.List.Basic

/-!
# Guarded runs of a partial step function

The step function may fail; a run is a list of actions each of which is
allowed in the state it is taken in and succeeds there. Safety arguments go
through `Run.invariant`: what every allowed step keeps, every run keeps.
-/

namespace Xv6.Framework

universe u

variable {σ α ε : Type*}

/-- A computation that binds and succeeds, taken apart. -/
theorem bind_ok_iff {α β : Type u} {x : Except ε α} {f : α → Except ε β}
    {b : β} :
    (x >>= f) = .ok b ↔ ∃ a, x = .ok a ∧ f a = .ok b := by
  cases x with
  | error e =>
    constructor
    · intro h
      cases h
    · rintro ⟨a, ha, -⟩
      cases ha
  | ok a =>
    constructor
    · intro h
      exact ⟨a, rfl, h⟩
    · rintro ⟨a', ha, h⟩
      cases ha
      exact h

theorem map_ok_iff {α β : Type u} {x : Except ε α} {f : α → β} {b : β} :
    x.map f = .ok b ↔ ∃ a, x = .ok a ∧ f a = b := by
  cases x with
  | error e =>
    constructor
    · intro h
      cases h
    · rintro ⟨a, ha, -⟩
      cases ha
  | ok a => simp [Except.map]

/-- A loop whose rounds all go through and each put something in front. -/
theorem foldlM_collects {α σ φ : Type u} (f : σ → α → Except ε σ)
    (out : σ → List φ) (g : α → List φ) : ∀ {as : List α},
    (∀ s, ∀ a ∈ as, ∃ s', f s a = .ok s' ∧
      out s' = (g a).reverse ++ out s) →
    ∀ s, ∃ s', as.foldlM f s = .ok s' ∧
      out s' = (as.flatMap g).reverse ++ out s
  | [], _, s => ⟨s, rfl, rfl⟩
  | a :: as, hround, s => by
    obtain ⟨s₁, hstep, hout⟩ := hround s a (List.mem_cons_self ..)
    obtain ⟨s₂, hrest, hout'⟩ := foldlM_collects f out g
      (fun s b hb => hround s b (List.mem_cons_of_mem a hb)) s₁
    refine ⟨s₂, ?_, ?_⟩
    · rw [List.foldlM_cons, hstep]
      exact hrest
    · rw [hout', hout, List.flatMap_cons, List.reverse_append,
        List.append_assoc]

/-- Every round of a loop that goes through does. -/
theorem foldlM_round {α σ : Type u} {f : σ → α → Except ε σ} :
    ∀ {as : List α} {s s' : σ}, as.foldlM f s = .ok s' →
    ∀ a ∈ as, ∃ s₁ s₂, f s₁ a = .ok s₂
  | [], _, _, _, a, ha => by cases ha
  | b :: as, s, s', h, a, ha => by
    rw [List.foldlM_cons] at h
    obtain ⟨s₁, hstep, h⟩ := bind_ok_iff.mp h
    rcases List.mem_cons.mp ha with rfl | ha
    · exact ⟨s, s₁, hstep⟩
    · exact foldlM_round h a ha

/-- What every round of a loop keeps, the loop keeps. -/
theorem foldlM_invariant {α σ : Type u} {f : σ → α → Except ε σ}
    {I : σ → Prop} (hround : ∀ s a s', I s → f s a = .ok s' → I s') :
    ∀ {as : List α} {s s' : σ}, I s → as.foldlM f s = .ok s' → I s'
  | [], s, s', hs, h => by
    cases h
    exact hs
  | a :: as, s, s', hs, h => by
    rw [List.foldlM_cons] at h
    obtain ⟨s₁, hround₁, h⟩ := bind_ok_iff.mp h
    exact foldlM_invariant hround (hround s a s₁ hs hround₁) h

/-- A computation whose result passes a test succeeds. -/
theorem exists_ok_of_any {α : Type u} {x : Except ε α} {p : α → Bool}
    (h : x.toOption.any p = true) : ∃ a, x = .ok a ∧ p a = true := by
  cases x with
  | error e => cases h
  | ok a => exact ⟨a, rfl, h⟩

theorem exists_some_of_any {α : Type*} {o : Option α} {p : α → Bool}
    (h : o.any p = true) : ∃ a, o = some a ∧ p a = true := by
  cases o with
  | none => cases h
  | some a => exact ⟨a, rfl, h⟩

/-- Whether a computation ends in the given error. -/
def endsIn {α : Type u} [DecidableEq ε] (x : Except ε α) (e : ε) : Bool :=
  match x with
  | .error e' => decide (e' = e)
  | .ok _ => false

theorem eq_error_of_endsIn {α : Type u} [DecidableEq ε] {x : Except ε α}
    {e : ε} (h : endsIn x e = true) : x = .error e := by
  cases x with
  | error e' => rw [of_decide_eq_true h]
  | ok a => cases h

/-- A run from one state to another along a list of actions, every one of
which meets `ok` in the state it is taken in. -/
inductive Run (step : σ → α → Except ε σ) (ok : σ → α → Prop) :
    σ → List α → σ → Prop
  | nil (s : σ) : Run step ok s [] s
  | cons {s s₁ s₂ : σ} {a : α} {as : List α} (allowed : ok s a)
      (taken : step s a = .ok s₁) (rest : Run step ok s₁ as s₂) :
      Run step ok s (a :: as) s₂

namespace Run

variable {step : σ → α → Except ε σ} {ok ok' : σ → α → Prop}
variable {s s₁ s₂ : σ} {as bs : List α}

/-- A computed run, when the guard does not depend on the state. -/
theorem of_foldlM (hok : ∀ s, ∀ a ∈ as, ok s a)
    (h : as.foldlM step s = .ok s₁) : Run step ok s as s₁ := by
  induction as generalizing s with
  | nil =>
    cases h
    exact .nil _
  | cons a as ih =>
    rw [List.foldlM_cons] at h
    cases hstep : step s a with
    | error e =>
      rw [hstep] at h
      cases h
    | ok s₂ =>
      rw [hstep] at h
      exact .cons (hok s a (List.mem_cons_self ..)) hstep
        (ih (fun s b hb => hok s b (List.mem_cons_of_mem a hb)) h)

/-- A run computed with its guard. -/
def checked (step : σ → α → Except ε σ) (ok : σ → α → Prop)
    [∀ s a, Decidable (ok s a)] : σ → List α → Option σ
  | s, [] => some s
  | s, a :: as =>
      if ok s a then (step s a).toOption.bind (checked step ok · as) else none

theorem of_checked [∀ s a, Decidable (ok s a)] :
    ∀ {as : List α} {s : σ}, checked step ok s as = some s₁ →
      Run step ok s as s₁
  | [], _, h => by
    cases h
    exact .nil _
  | a :: as, s, h => by
    rw [checked] at h
    split at h
    · rename_i hok
      cases hstep : step s a with
      | error e =>
        rw [hstep] at h
        cases h
      | ok s₂ =>
        rw [hstep] at h
        exact .cons hok hstep (of_checked h)
    · cases h

/-- What every allowed step keeps, every run keeps. -/
theorem invariant {I : σ → Prop}
    (hstep : ∀ s a s', I s → ok s a → step s a = .ok s' → I s')
    (run : Run step ok s as s₁) (hs : I s) : I s₁ := by
  induction run with
  | nil s => exact hs
  | cons allowed taken _ ih => exact ih (hstep _ _ _ hs allowed taken)

/-- The guard may be weakened. -/
theorem mono (himp : ∀ s a, ok s a → ok' s a)
    (run : Run step ok s as s₁) : Run step ok' s as s₁ := by
  induction run with
  | nil s => exact .nil s
  | cons allowed taken _ ih => exact .cons (himp _ _ allowed) taken ih

theorem append (run : Run step ok s as s₁) (run' : Run step ok s₁ bs s₂) :
    Run step ok s (as ++ bs) s₂ := by
  induction run with
  | nil s => exact run'
  | cons allowed taken _ ih => exact .cons allowed taken (ih run')

/-- Two accounts of one run: every step meets both conditions. -/
theorem and (h : Run step ok s as s₁) (h' : Run step ok' s as s₁) :
    Run step (fun s a => ok s a ∧ ok' s a) s as s₁ := by
  induction h with
  | nil s => exact .nil s
  | cons allowed taken rest ih =>
    cases h' with
    | cons allowed' taken' rest' =>
      cases taken.symm.trans taken'
      exact .cons ⟨allowed, allowed'⟩ taken (ih rest')

end Run

end Xv6.Framework
