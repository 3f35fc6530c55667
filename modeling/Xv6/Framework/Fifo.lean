import Mathlib

/-!
# Ring buffers

The elements of a ring of `m` cells, read from a running position. The
position only counts modulo `m`, so a counter may wrap at any multiple of `m`.
-/

namespace Xv6.Framework.Fifo

variable {α : Type*} {m : ℕ} [NeZero m]

/-- The `n` elements from position `pos` on. -/
def contents (cells : Fin m → α) (pos n : ℕ) : List α :=
  (List.range n).map fun k => cells (Fin.ofNat m (pos + k))

theorem contents_zero (cells : Fin m → α) (pos : ℕ) :
    contents cells pos 0 = [] := rfl

theorem length_contents (cells : Fin m → α) (pos n : ℕ) :
    (contents cells pos n).length = n := by
  rw [contents, List.length_map, List.length_range]

/-- Only the position modulo the size of the ring counts. -/
theorem contents_congr (cells : Fin m → α) {pos pos' : ℕ} (n : ℕ)
    (h : pos % m = pos' % m) : contents cells pos n = contents cells pos' n := by
  apply List.map_congr_left
  intro k _
  congr 1
  apply Fin.ext
  rw [Fin.val_ofNat, Fin.val_ofNat, Nat.add_mod, h, ← Nat.add_mod]

/-- Taking the first element. -/
theorem contents_succ (cells : Fin m → α) (pos n : ℕ) :
    contents cells pos (n + 1) =
      cells (Fin.ofNat m pos) :: contents cells (pos + 1) n := by
  rw [contents, List.range_succ_eq_map, List.map_cons, List.map_map]
  congr 1
  apply List.map_congr_left
  intro k _
  show cells (Fin.ofNat m (pos + (k + 1))) = cells (Fin.ofNat m (pos + 1 + k))
  rw [Nat.add_right_comm, Nat.add_assoc]

/-- Two cells less than a ring apart are different cells. -/
theorem ofNat_ne {pos j k : ℕ} (hjk : j < k) (hk : k < j + m) :
    Fin.ofNat m (pos + j) ≠ Fin.ofNat m (pos + k) := by
  intro heq
  have hval := congrArg Fin.val heq
  rw [Fin.val_ofNat, Fin.val_ofNat] at hval
  have hdvd : m ∣ (pos + k) - (pos + j) :=
    (Nat.modEq_iff_dvd' (by omega)).mp hval
  have hlt : (pos + k) - (pos + j) < m := by omega
  have := Nat.eq_zero_of_dvd_of_lt hdvd hlt
  omega

/-- Storing an element behind the others. -/
theorem contents_update (cells : Fin m → α) (pos : ℕ) {n : ℕ} (a : α)
    (h : n < m) :
    contents (Function.update cells (Fin.ofNat m (pos + n)) a) pos (n + 1) =
      contents cells pos n ++ [a] := by
  rw [contents, List.range_succ, List.map_append, List.map_singleton,
    Function.update_self]
  congr 1
  apply List.map_congr_left
  intro k hk
  have hkn : k < n := List.mem_range.mp hk
  exact Function.update_of_ne (ofNat_ne hkn (by omega)) ..

/-! ## Wrapping counters

A queue in the ring is often given by two counters modulo `M`, of which the
ring uses the remainder modulo `m`. -/

section Counters

variable {M lo hi : ℕ}

/-- How far the counter `hi` is ahead of `lo`. -/
def span (M lo hi : ℕ) : ℕ := (M - lo + hi) % M

/-- The elements between the two counters. -/
def window (M : ℕ) (cells : Fin m → α) (lo hi : ℕ) : List α :=
  contents cells lo (span M lo hi)

theorem length_window (cells : Fin m → α) :
    (window M cells lo hi).length = span M lo hi :=
  length_contents ..

/-- Between equal counters there is nothing. -/
theorem window_self (h : lo ≤ M) (cells : Fin m → α) :
    window M cells lo lo = [] := by
  rw [window, span, Nat.sub_add_cancel h, Nat.mod_self]
  rfl

theorem span_succ_right (h : span M lo hi + 1 < M) :
    span M lo ((hi + 1) % M) = span M lo hi + 1 := by
  unfold span at *
  rw [Nat.add_mod, Nat.mod_mod, ← Nat.add_mod, ← Nat.add_assoc, Nat.add_mod,
    Nat.mod_eq_of_lt (by omega : 1 < M), Nat.mod_eq_of_lt h]

theorem span_succ_left (hlo : lo < M) (hhi : hi < M) (hne : lo ≠ hi) :
    span M lo hi = span M ((lo + 1) % M) hi + 1 := by
  unfold span
  by_cases hlast : lo + 1 = M
  · rw [hlast, Nat.mod_self, Nat.sub_zero, Nat.add_mod_left,
      Nat.mod_eq_of_lt hhi, Nat.mod_eq_of_lt (by omega)]
    omega
  · rw [Nat.mod_eq_of_lt (by omega : lo + 1 < M)]
    by_cases hle : lo < hi
    · rw [show M - lo + hi = hi - lo + M by omega,
        show M - (lo + 1) + hi = hi - (lo + 1) + M by omega,
        Nat.add_mod_right, Nat.add_mod_right, Nat.mod_eq_of_lt (by omega),
        Nat.mod_eq_of_lt (by omega)]
      omega
    · rw [Nat.mod_eq_of_lt (by omega), Nat.mod_eq_of_lt (by omega)]
      omega

/-- The cell behind the queue is the one the counter `hi` points to. -/
theorem cell_right (hdvd : m ∣ M) (hlo : lo < M) :
    (Fin.ofNat m (lo + span M lo hi) : Fin m) = Fin.ofNat m hi := by
  apply Fin.ext
  rw [Fin.val_ofNat, Fin.val_ofNat, span, Nat.add_mod,
    Nat.mod_mod_of_dvd _ hdvd, ← Nat.add_mod,
    show lo + (M - lo + hi) = hi + M by omega, Nat.add_mod,
    Nat.mod_eq_zero_of_dvd hdvd, Nat.add_zero, Nat.mod_mod]

/-- What is stored behind the queue is not part of it yet. -/
theorem window_update (hdvd : m ∣ M) (hlo : lo < M) (hroom : span M lo hi < m)
    (cells : Fin m → α) (a : α) :
    window M (Function.update cells (Fin.ofNat m hi) a) lo hi =
      window M cells lo hi := by
  apply List.map_congr_left
  intro k hk
  have hlt : k < span M lo hi := List.mem_range.mp hk
  rw [← cell_right hdvd hlo]
  exact Function.update_of_ne (ofNat_ne hlt (by omega)) ..

/-- Moving the counter `hi` takes in the cell behind the queue. -/
theorem window_succ_right (hdvd : m ∣ M) (hlo : lo < M)
    (h : span M lo hi + 1 < M) (cells : Fin m → α) :
    window M cells lo ((hi + 1) % M) =
      window M cells lo hi ++ [cells (Fin.ofNat m hi)] := by
  rw [window, span_succ_right h, contents, List.range_succ,
    List.map_append, List.map_singleton, cell_right hdvd hlo]
  rfl

/-- Moving the counter `lo` takes the first element out. -/
theorem window_succ_left (hdvd : m ∣ M) (hlo : lo < M) (hhi : hi < M)
    (hne : lo ≠ hi) (cells : Fin m → α) :
    window M cells lo hi =
      cells (Fin.ofNat m lo) :: window M cells ((lo + 1) % M) hi := by
  rw [window, span_succ_left hlo hhi hne, contents_succ]
  refine congrArg (cells (Fin.ofNat m lo) :: ·) (contents_congr _ _ ?_)
  exact (Nat.mod_mod_of_dvd _ hdvd).symm

theorem span_lt (h : 0 < M) : span M lo hi < M := Nat.mod_lt _ h

variable {mid : ℕ}

/-- Two spans, one after the other. -/
theorem span_add (hmid : mid < M) (h : span M lo mid + span M mid hi < M) :
    span M lo hi = span M lo mid + span M mid hi := by
  rw [← Nat.mod_eq_of_lt h]
  unfold span
  rw [← Nat.add_mod, show M - lo + mid + (M - mid + hi) = M - lo + hi + M by
    omega, Nat.add_mod_right]

theorem window_append (hdvd : m ∣ M) (hlo : lo < M) (hmid : mid < M)
    (h : span M lo mid + span M mid hi < M) (cells : Fin m → α) :
    window M cells lo hi = window M cells lo mid ++ window M cells mid hi := by
  rw [window, span_add hmid h, contents, List.range_add, List.map_append,
    List.map_map]
  congr 1
  rw [window, ← contents_congr cells _ (?_ : (lo + span M lo mid) % m = _)]
  · apply List.map_congr_left
    intro k _
    rw [Function.comp_apply, Nat.add_assoc]
  · have hcell : ((Fin.ofNat m (lo + span M lo mid) : Fin m) : ℕ) =
        (Fin.ofNat m mid : Fin m) := congrArg Fin.val (cell_right hdvd hlo)
    rwa [Fin.val_ofNat, Fin.val_ofNat] at hcell

/-- What is stored behind the queue is not part of its beginning either. -/
theorem window_update_left (hdvd : m ∣ M) (hlo : lo < M)
    (hle : span M lo mid ≤ span M lo hi) (hroom : span M lo hi < m)
    (cells : Fin m → α) (a : α) :
    window M (Function.update cells (Fin.ofNat m hi) a) lo mid =
      window M cells lo mid := by
  apply List.map_congr_left
  intro k hk
  have hlt : k < span M lo mid := List.mem_range.mp hk
  rw [← cell_right hdvd hlo]
  exact Function.update_of_ne (ofNat_ne (by omega) (by omega)) ..

theorem span_pred_right (hlo : lo < M) (hhi : hi < M) (hne : lo ≠ hi) :
    span M lo hi = span M lo ((M - 1 + hi) % M) + 1 := by
  unfold span
  by_cases hzero : hi = 0
  · rw [hzero, Nat.mod_eq_of_lt (by omega : M - lo + 0 < M),
      Nat.mod_eq_of_lt (by omega : M - 1 + 0 < M),
      show M - lo + (M - 1 + 0) = M - lo - 1 + M by omega, Nat.add_mod_right,
      Nat.mod_eq_of_lt (by omega)]
    omega
  · rw [show M - 1 + hi = hi - 1 + M by omega, Nat.add_mod_right,
      Nat.mod_eq_of_lt (by omega : hi - 1 < M)]
    by_cases hle : lo < hi
    · rw [show M - lo + hi = hi - lo + M by omega,
        show M - lo + (hi - 1) = hi - 1 - lo + M by omega,
        Nat.add_mod_right, Nat.add_mod_right, Nat.mod_eq_of_lt (by omega),
        Nat.mod_eq_of_lt (by omega)]
      omega
    · rw [Nat.mod_eq_of_lt (by omega), Nat.mod_eq_of_lt (by omega)]
      omega

/-- Moving the counter `hi` back drops the last element. -/
theorem window_pred_right (hdvd : m ∣ M) (hlo : lo < M) (hhi : hi < M)
    (hne : lo ≠ hi) (cells : Fin m → α) :
    window M cells lo hi = window M cells lo ((M - 1 + hi) % M) ++
      [cells (Fin.ofNat m ((M - 1 + hi) % M))] := by
  have hback : ((M - 1 + hi) % M + 1) % M = hi := by
    rw [Nat.mod_add_mod, show M - 1 + hi + 1 = hi + M by omega,
      Nat.add_mod_right, Nat.mod_eq_of_lt hhi]
  have hspan := span_pred_right hlo hhi hne
  have hlt : span M lo hi < M := span_lt (by omega)
  have hroom : span M lo ((M - 1 + hi) % M) + 1 < M := by omega
  have hsucc := window_succ_right hdvd hlo hroom cells
  rwa [hback] at hsucc

end Counters

end Xv6.Framework.Fifo
