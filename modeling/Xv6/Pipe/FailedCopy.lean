import Xv6.Pipe.Fifo

/-!
# `piperead` when `copyout` fails (`kernel/pipe.c`)

The loop takes a byte out of the pipe before it hands it to the caller. If
`copyout` fails, the byte is gone and not counted.
-/

namespace Xv6.Pipe

open Framework Framework.Fifo

variable {P : Type} [DecidableEq P]

namespace PipeState

/-- The rest of a `piperead` from the copying loop on: the steps of `p` until
it returns. Byte `i` is delivered if `copies i`. The lock keeps everybody else
away from the ring. -/
def finishRead (p : P) (copies : ℕ → Bool) :
    ℕ → PipeState P → Except Blocked (PipeState P)
  | 0, s => .ok s
  | k + 1, s =>
      match s.phase p with
      | .returned _ => .ok s
      | .readCopy i _ => do
          let s ← s.run p none (copies i)
          finishRead p copies k s
      | _ => do
          let s ← s.run p none true
          finishRead p copies k s

/-- `piperead` came back from `s` to `s'` with `r` bytes, these are what was
removed, and the others are in the pipe in order. -/
structure NothingLost (s s' : PipeState P) (r : ℕ) : Prop where
  removed : s.count = s'.count + r
  rest : s'.buffered = s.buffered.drop r

/-- What the loop left: `r` bytes are returned and `gone` were removed. -/
structure Drained (p : P) (s s' : PipeState P) (r gone : ℕ) : Prop where
  phase : s'.phase p = .returned r
  count : s.count = s'.count + gone
  buffered : s'.buffered = s.buffered.drop gone

variable {s s' : PipeState P} {p : P} {copies : ℕ → Bool} {i r gone : ℕ}
  {n : ℤ}

theorem setPhase_phase (s : PipeState P) (p : P) (ph : Phase) :
    (s.setPhase p ph).phase p = ph :=
  Function.update_self ..

/-- The last two steps wake the writers and release the lock. -/
theorem finishRead_wake (copies : ℕ → Bool) (k : ℕ)
    (hph : s.phase p = .readWake r) :
    ∃ s', finishRead p copies (k + 3) s = .ok s' ∧ Drained p s s' r 0 := by
  have hsecond : ((s.wakeup .nwrite).setPhase p (.readRelease r)).phase p =
      .readRelease r := setPhase_phase ..
  refine ⟨((s.wakeup .nwrite).setPhase p (.readRelease r)).release p
    (.returned r), ?_, ?_, rfl, rfl⟩
  · rw [finishRead, hph]
    dsimp only
    rw [run, hph]
    dsimp only [bind, Except.bind]
    rw [finishRead, hsecond]
    dsimp only
    rw [run, hsecond]
    dsimp only [bind, Except.bind]
    rw [finishRead, show (((s.wakeup .nwrite).setPhase p (.readRelease r)).release
      p (.returned r)).phase p = .returned r from setPhase_phase ..]
  · exact setPhase_phase ..

/-- The copying loop from byte `i` on: it delivers bytes up to the first that
cannot be copied, and removes that one too. -/
theorem finishRead_copy (copies : ℕ → Bool) (n : ℤ) :
    ∀ {k : ℕ} {s : PipeState P} {i : ℕ}, s.count + 4 ≤ k →
      s.phase p = .readCopy i n →
      ∃ s' r gone, finishRead p copies k s = .ok s' ∧
        Drained p s s' (i + r) gone ∧
        (∀ j, i ≤ j → j < i + r → copies j = true) ∧
        (gone = r ∧ (n ≤ i + r ∨ s.count = r) ∨
          gone = r + 1 ∧ copies (i + r) = false ∧ (i + r : ℤ) < n ∧
            r < s.count) := by
  intro k
  induction k with
  | zero => intro s i hk; omega
  | succ k ih =>
    intro s i hk hph
    rw [finishRead, hph]
    dsimp only
    rw [run, hph]
    dsimp only
    by_cases hmore : (i : ℤ) < n ∧ s.nread ≠ s.nwrite
    · have hcount := count_remove hmore.2
      have hbuf := buffered_remove hmore.2
      rw [if_pos hmore]
      cases hcopy : copies i with
      | true =>
        rw [if_pos rfl]
        dsimp only [bind, Except.bind]
        obtain ⟨s', r, gone, hrun, hdrained, hcopied, hend⟩ := @ih
          (s.remove.setPhase p (.readCopy (i + 1) n)) (i + 1)
          (by show s.remove.count + 4 ≤ k; omega) (setPhase_phase ..)
        have hsame : (s.remove.setPhase p (.readCopy (i + 1) n)).count =
          s.remove.count := rfl
        have hbytes : (s.remove.setPhase p
          (.readCopy (i + 1) n)).buffered = s.remove.buffered := rfl
        refine ⟨s', r + 1, gone + 1, hrun, ⟨?_, ?_, ?_⟩, ?_, ?_⟩
        · rw [hdrained.phase]
          congr 2
          omega
        · have := hdrained.count
          omega
        · rw [hdrained.buffered, hbytes, hbuf, List.drop_succ_cons]
        · intro j hij hj
          by_cases hji : j = i
          · rw [hji, hcopy]
          · exact hcopied j (by omega) (by omega)
        · rw [hsame] at hend
          rcases hend with ⟨rfl, hstop⟩ | ⟨rfl, hfail, hlt, hin⟩
          · exact Or.inl ⟨rfl, by push_cast at hstop ⊢; omega⟩
          · refine Or.inr ⟨rfl, ?_, by push_cast at hlt ⊢; omega, by omega⟩
            rw [show i + (r + 1) = i + 1 + r by omega]
            exact hfail
      | false =>
        rw [if_neg Bool.false_ne_true]
        dsimp only [bind, Except.bind]
        obtain ⟨k, rfl⟩ : ∃ l, k = l + 3 := ⟨k - 3, by omega⟩
        obtain ⟨s', hrun, hdrained⟩ := @finishRead_wake P _
          (s.remove.setPhase p (.readWake i)) p i copies k
          (setPhase_phase ..)
        refine ⟨s', 0, 1, hrun, ⟨hdrained.phase, ?_, ?_⟩,
          fun j h h' => absurd h' (by omega),
          Or.inr ⟨rfl, hcopy, by push_cast; omega, by omega⟩⟩
        · have := hdrained.count
          exact hcount.trans (by rw [← Nat.add_zero s'.count, ← this]; rfl)
        · rw [hdrained.buffered, hbuf]
          rfl
    · rw [if_neg hmore]
      dsimp only [bind, Except.bind]
      obtain ⟨k, rfl⟩ : ∃ l, k = l + 3 := ⟨k - 3, by omega⟩
      obtain ⟨s', hrun, hdrained⟩ := @finishRead_wake P _
        (s.setPhase p (.readWake i)) p i copies k (setPhase_phase ..)
      refine ⟨s', 0, 0, hrun, ⟨hdrained.phase, hdrained.count,
        hdrained.buffered⟩, fun j h h' => absurd h' (by omega),
        Or.inl ⟨rfl, ?_⟩⟩
      by_cases hlt : (i : ℤ) < n
      · right
        have heq : s.nread = s.nwrite := by
          by_contra hne
          exact hmore ⟨hlt, hne⟩
        show (s.nwrite - s.nread).toNat = 0
        rw [heq, UInt32.sub_self]
        rfl
      · left
        push_cast
        omega

end PipeState

open PipeState

/-- **`piperead` loses nothing just when every byte it takes out of the pipe
can be copied to the caller.** -/
theorem piperead_lossless_iff {s : PipeState P} {p : P} {n : ℤ}
    (copies : ℕ → Bool) (hph : s.phase p = .readCopy 0 n) :
    ∃ s' r, finishRead p copies (s.count + 4) s = .ok s' ∧
      s'.phase p = .returned (r : ℕ) ∧
      (NothingLost s s' r ↔
        ∀ i : ℕ, (i : ℤ) < n → i < s.count → copies i = true) := by
  obtain ⟨s', r, gone, hrun, hdrained, hcopied, hend⟩ :=
    finishRead_copy copies n (Nat.le_refl _) hph
  rw [Nat.zero_add] at hdrained
  refine ⟨s', r, hrun, hdrained.phase, ?_⟩
  have hcount := hdrained.count
  rcases hend with ⟨rfl, hstop⟩ | ⟨rfl, hfail, hlt, hin⟩
  · refine iff_of_true ⟨hcount, hdrained.buffered⟩ fun i hi hlt => ?_
    exact hcopied i (Nat.zero_le i) (by push_cast at hstop; omega)
  · refine iff_of_false ?_ ?_
    · rintro ⟨hremoved, -⟩
      omega
    · intro hall
      rw [Nat.zero_add] at hfail
      rw [hall r (by push_cast at hlt; omega) hin] at hfail
      cases hfail

/-- A reader of one byte in front of a pipe with one byte. -/
def oneByte : PipeState Unit :=
  ((PipeState.pipealloc : PipeState Unit).store 7).setPhase () (.readCopy 0 1)

theorem piperead_lossless_oneByte :
    ∃ s' r, finishRead () (fun _ => true) (oneByte.count + 4) oneByte = .ok s' ∧
      s'.phase () = .returned (r : ℕ) ∧ NothingLost oneByte s' r := by
  obtain ⟨s', r, hrun, hph, hiff⟩ := piperead_lossless_iff
    (s := oneByte) (p := ()) (n := 1) (fun _ => true) rfl
  exact ⟨s', r, hrun, hph, hiff.mpr fun _ _ _ => rfl⟩

/-- The byte is removed, `piperead` returns 0, and the pipe is empty. -/
theorem piperead_loses_byte :
    ∃ s', finishRead () (fun _ => false) (oneByte.count + 4) oneByte = .ok s' ∧
      s'.phase () = .returned 0 ∧ oneByte.buffered = [7] ∧
      s'.buffered = [] := by
  obtain ⟨s', hrun, hcheck⟩ := exists_ok_of_any (show ((finishRead ()
    (fun _ => false) (oneByte.count + 4) oneByte).toOption.any fun s' =>
      decide (s'.phase () = .returned 0) && decide (s'.buffered = [])) = true
    by decide +kernel)
  rw [Bool.and_eq_true, decide_eq_true_eq, decide_eq_true_eq] at hcheck
  exact ⟨s', hrun, hcheck.1, by decide +kernel, hcheck.2⟩

end Xv6.Pipe
