import Mathlib.Data.List.Basic

/-!
# Postconditions of fallible computations

`Meets bad x Q` says of a computation both what its result is like and which
errors it does not end in. The rules follow the shape of the program: one for
each way to end, one for sequencing, one for a loop over a list.
-/

namespace Xv6.Framework

universe u

variable {ε : Type*} {bad : ε → Prop}

/-- Whatever `x` returns satisfies `Q`, and it fails with no error in
`bad`. -/
structure Meets (bad : ε → Prop) {α : Type*} (x : Except ε α)
    (Q : α → Prop) : Prop where
  returns : ∀ a, x = .ok a → Q a
  fails : ∀ e, x = .error e → ¬ bad e

namespace Meets

variable {α β σ : Type u} {x : Except ε α} {Q R : α → Prop}

theorem ok {a : α} (h : Q a) : Meets bad (.ok a) Q where
  returns := by
    rintro _ ⟨⟩
    exact h
  fails := by
    rintro _ ⟨⟩

theorem error {e : ε} (h : ¬ bad e) :
    Meets bad (.error e : Except ε α) Q where
  returns := by
    rintro _ ⟨⟩
  fails := by
    rintro _ ⟨⟩
    exact h

/-- A postcondition alone. -/
theorem of_returns (h : ∀ a, x = .ok a → Q a) :
    Meets (fun _ => False) x Q :=
  ⟨h, fun _ _ he => he⟩

theorem ne_error {e : ε} (h : Meets bad x Q) (he : bad e) :
    x ≠ .error e :=
  fun hx => h.fails e hx he

/-- A result is known exactly, the errors from elsewhere. -/
theorem imp (h : Meets bad x Q) (himp : ∀ a, x = .ok a → Q a → R a) :
    Meets bad x R where
  returns := fun a ha => himp a ha (h.returns a ha)
  fails := h.fails

theorem mono (h : Meets bad x Q) (himp : ∀ a, Q a → R a) : Meets bad x R :=
  h.imp fun a _ => himp a

/-- Fewer errors are ruled out. -/
theorem weaken {bad' : ε → Prop} (h : Meets bad x Q)
    (himp : ∀ e, bad' e → bad e) : Meets bad' x Q :=
  ⟨h.returns, fun e he hbad => h.fails e he (himp e hbad)⟩

theorem bind {f : α → Except ε β} {P : β → Prop} (h : Meets bad x Q)
    (hf : ∀ a, Q a → Meets bad (f a) P) : Meets bad (x >>= f) P := by
  cases x with
  | ok a => exact hf a (h.returns a rfl)
  | error e => exact .error (h.fails e rfl)

/-- A loop: `I` may speak of the rounds that are still to come. -/
theorem foldlM {f : σ → α → Except ε σ} {I : List α → σ → Prop}
    (hround : ∀ a as s, I (a :: as) s → Meets bad (f s a) (I as))
    (as : List α) : ∀ s, I as s → Meets bad (as.foldlM f s) (I []) := by
  induction as with
  | nil => exact fun s hs => .ok hs
  | cons a as ih =>
    intro s hs
    rw [List.foldlM_cons]
    exact (hround a as s hs).bind ih

/-- A loop whose rounds all keep the same thing. -/
theorem foldlM_inv {f : σ → α → Except ε σ} {I : σ → Prop} {as : List α}
    {s : σ} (hround : ∀ s a, I s → Meets bad (f s a) I) (hs : I s) :
    Meets bad (as.foldlM f s) I :=
  foldlM (I := fun _ => I) (fun a _ s h => hround s a h) as s hs

end Meets

end Xv6.Framework
