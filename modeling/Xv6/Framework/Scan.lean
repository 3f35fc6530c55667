import Mathlib.Data.List.Basic

/-!
# Reading up to a terminator

Values are read one after the other, at most a given number of them, until one
is the terminator. A read may fail, which ends the scan. What a scan returns
is determined by the first terminator, and a scan can be done in pieces.
-/

namespace Xv6.Framework

variable {α : Type*} [DecidableEq α] {stop : α}

/-- The values read, and whether the last of them is the terminator. -/
def scan (stop : α) : ℕ → (ℕ → Option α) → List α × Bool
  | 0, _ => ([], false)
  | m + 1, read =>
      match read 0 with
      | none => ([], false)
      | some b =>
          if b = stop then ([stop], true)
          else
            let r := scan stop m fun i => read (i + 1)
            (b :: r.1, r.2)

variable {read : ℕ → Option α}

theorem scan_stop (m : ℕ) (h : read 0 = some stop) :
    scan stop (m + 1) read = ([stop], true) := by
  rw [scan, h]
  exact if_pos rfl

theorem scan_cons {b : α} (m : ℕ) (h : read 0 = some b) (hb : b ≠ stop) :
    scan stop (m + 1) read =
      (b :: (scan stop m fun i => read (i + 1)).1,
        (scan stop m fun i => read (i + 1)).2) := by
  rw [scan, h]
  exact if_neg hb

/-- The first terminator comes after the values `bs`. -/
structure Terminated (stop : α) (read : ℕ → Option α) (bs : List α) :
    Prop where
  before : ∀ i < bs.length, read i = bs[i]?
  ne_stop : ∀ b ∈ bs, b ≠ stop
  last : read bs.length = some stop

omit [DecidableEq α] in
theorem Terminated.cons {read : ℕ → Option α} {b : α} {bs : List α}
    (hread : read 0 = some b) (hb : b ≠ stop)
    (h : Terminated stop (fun i => read (i + 1)) bs) :
    Terminated stop read (b :: bs) where
  before := by
    intro i hi
    cases i with
    | zero => exact hread
    | succ i =>
      rw [List.getElem?_cons_succ]
      exact h.before i (Nat.lt_of_succ_lt_succ hi)
  ne_stop := by
    intro c hc
    rcases List.mem_cons.mp hc with rfl | hc
    · exact hb
    · exact h.ne_stop c hc
  last := h.last

omit [DecidableEq α] in
theorem Terminated.tail {b : α} {bs : List α}
    (h : Terminated stop read (b :: bs)) :
    read 0 = some b ∧ b ≠ stop ∧
      Terminated stop (fun i => read (i + 1)) bs := by
  refine ⟨h.before 0 (Nat.succ_pos _), h.ne_stop b List.mem_cons_self, ?_, ?_,
    h.last⟩
  · intro i hi
    have := h.before (i + 1) (Nat.succ_lt_succ hi)
    rwa [List.getElem?_cons_succ] at this
  · intro c hc
    exact h.ne_stop c (List.mem_cons_of_mem _ hc)

/-- A scan that finds the terminator returns everything up to it. -/
theorem scan_of_terminated {bs : List α} :
    ∀ {m : ℕ}, bs.length < m → Terminated stop read bs →
      scan stop m read = (bs ++ [stop], true) := by
  induction bs generalizing read with
  | nil =>
    intro m hm h
    obtain ⟨m, rfl⟩ := Nat.exists_eq_succ_of_ne_zero (Nat.ne_zero_of_lt hm)
    exact scan_stop m h.last
  | cons b bs ih =>
    intro m hm h
    obtain ⟨m, rfl⟩ := Nat.exists_eq_succ_of_ne_zero (Nat.ne_zero_of_lt hm)
    obtain ⟨hread, hb, htail⟩ := h.tail
    rw [scan_cons m hread hb, ih (Nat.lt_of_succ_lt_succ hm) htail]
    rfl

/-- There is no other way to find it. -/
theorem exists_terminated_of_scan : ∀ {m : ℕ} {read : ℕ → Option α},
    (scan stop m read).2 = true →
      ∃ bs, bs.length < m ∧ Terminated stop read bs := by
  intro m
  induction m with
  | zero =>
    intro read h
    cases h
  | succ m ih =>
    intro read h
    rw [scan] at h
    split at h
    · cases h
    · rename_i b hread
      split at h
      · rename_i hb
        subst hb
        exact ⟨[], Nat.succ_pos m, nofun, nofun, hread⟩
      · rename_i hb
        obtain ⟨bs, hlen, hbs⟩ := ih h
        exact ⟨b :: bs, Nat.succ_lt_succ hlen, hbs.cons hread hb⟩

theorem length_scan_le : ∀ (m : ℕ) (read : ℕ → Option α),
    (scan stop m read).1.length ≤ m := by
  intro m
  induction m with
  | zero => exact fun _ => Nat.le_refl 0
  | succ m ih =>
    intro read
    rw [scan]
    split
    · exact Nat.zero_le _
    · split
      · exact Nat.succ_le_succ (Nat.zero_le m)
      · exact Nat.succ_le_succ (ih _)

/-- A scan whose first `n` reads go through, in two pieces. -/
theorem scan_add {m : ℕ} : ∀ {n : ℕ} {read : ℕ → Option α},
    (∀ i < n, read i ≠ none) → scan stop (n + m) read =
      if (scan stop n read).2 then scan stop n read
      else ((scan stop n read).1 ++ (scan stop m fun i => read (n + i)).1,
        (scan stop m fun i => read (n + i)).2) := by
  intro n
  induction n with
  | zero =>
    intro read _
    simp [scan]
  | succ n ih =>
    intro read hread
    obtain ⟨b, hb⟩ := Option.ne_none_iff_exists'.mp
      (hread 0 (Nat.succ_pos n))
    have hrest := @ih (fun i => read (i + 1))
      fun i hi => hread (i + 1) (Nat.succ_lt_succ hi)
    have hshift : (fun i => read (n + 1 + i)) =
        fun i => read (n + i + 1) := by
      funext i
      rw [Nat.add_right_comm]
    rw [Nat.add_right_comm, hshift]
    by_cases hstop : b = stop
    · subst hstop
      rw [scan_stop _ hb, scan_stop _ hb, if_pos rfl]
    · rw [scan_cons _ hb hstop, scan_cons _ hb hstop, hrest]
      dsimp only
      split <;> rfl

theorem scan_congr : ∀ {m : ℕ} {read read' : ℕ → Option α},
    (∀ i < m, read i = read' i) → scan stop m read = scan stop m read' := by
  intro m
  induction m with
  | zero => exact fun _ => rfl
  | succ m ih =>
    intro read read' h
    have hrest := @ih (fun i => read (i + 1)) (fun i => read' (i + 1))
      fun i hi => h (i + 1) (Nat.succ_lt_succ hi)
    rw [scan, scan, h 0 (Nat.succ_pos m), hrest]

end Xv6.Framework
