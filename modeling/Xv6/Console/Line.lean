import Xv6.Framework.Fifo
import Xv6.Framework.Locks
import Xv6.Console.Console

/-!
# The line discipline

What the console does to its input: characters are added to a line and erased
from it, and a line is committed when it ends, at an end of file, or when there
is no more room. The three counters of the buffer cut it into the committed
characters and the line; they may wrap any number of times, as the size of the
buffer divides `2 ^ 32`.
-/

namespace Xv6.Console

open Framework Framework.Fifo

/-! ## What the console is for -/

/-- Console input as its users see it. -/
structure Tty where
  /-- Everything committed so far. -/
  log : List UInt8 := []
  /-- The line that is being typed. -/
  line : List UInt8 := []
  /-- What calls of `read` have used up of `log`. -/
  taken : List UInt8 := []

namespace Tty

/-- How many characters are kept. -/
def size (t : Tty) : ℕ := t.log.length - t.taken.length + t.line.length

/-- A character goes to the end of the line. -/
def put (t : Tty) (c : UInt8) : Tty :=
  if c = NL ∨ c = EOF ∨ t.size + 1 = INPUT_BUF_SIZE then
    { t with log := t.log ++ (t.line ++ [c]), line := [] }
  else { t with line := t.line ++ [c] }

def type (t : Tty) (c : UInt8) : Tty :=
  if c = PROCDUMP then t
  else if c = KILL then { t with line := [] }
  else if c = BACKSPACE ∨ c = DELETE then { t with line := t.line.dropLast }
  else if c ≠ 0 ∧ t.size < INPUT_BUF_SIZE then
    t.put (if c = CR then NL else c)
  else t

/-- Typing uses nothing up. -/
theorem taken_type (t : Tty) (c : UInt8) : (t.type c).taken = t.taken := by
  unfold type put
  split_ifs <;> rfl

end Tty

namespace Cons

variable {P : Type}

/-! ## The buffer -/

/-- The characters between two counters. -/
def chars (s : Cons P) (i j : UInt32) : List UInt8 :=
  window (2 ^ 32) s.buf i.toNat j.toNat

theorem toNat_sub (i j : UInt32) :
    (j - i).toNat = span (2 ^ 32) i.toNat j.toNat :=
  UInt32.toNat_sub ..

theorem length_chars (s : Cons P) (i j : UInt32) :
    (s.chars i j).length = (j - i).toNat := by
  rw [chars, length_window, toNat_sub]

theorem size_dvd : INPUT_BUF_SIZE ∣ 2 ^ 32 := by decide

/-- The committed characters of the buffer are the part of the log from `b`
on that nobody has used up, and the others are the line. -/
structure Holds (s : Cons P) (b : UInt32) (t : Tty) : Prop where
  log : t.log = t.taken ++ s.chars b s.w
  line : t.line = s.chars s.w s.e
  room : (s.w - b).toNat + (s.e - s.w).toNat ≤ INPUT_BUF_SIZE
  open_ : NL ∉ t.line

variable {s s' : Cons P} {b : UInt32} {t : Tty}

theorem Holds.congr (h : s.Holds b t) (hbuf : s'.buf = s.buf)
    (hw : s'.w = s.w) (he : s'.e = s.e) : s'.Holds b t := by
  have hchars : ∀ i j, s'.chars i j = s.chars i j := by
    intro i j
    rw [chars, chars, hbuf]
  constructor
  · rw [hchars, hw]
    exact h.log
  · rw [hchars, hw, he]
    exact h.line
  · rw [hw, he]
    exact h.room
  · exact h.open_

/-- The whole buffer is not more than the two parts. -/
theorem Holds.span_eq (h : s.Holds b t) :
    (s.e - b).toNat = (s.w - b).toNat + (s.e - s.w).toNat := by
  have hroom := h.room
  unfold INPUT_BUF_SIZE at hroom
  rw [toNat_sub, toNat_sub, toNat_sub] at *
  exact span_add s.w.toNat_lt (by omega)

theorem Holds.size_eq (h : s.Holds b t) : t.size = (s.e - b).toNat := by
  rw [Tty.size, h.log, h.line, List.length_append, length_chars, length_chars,
    Nat.add_sub_cancel_left, h.span_eq]

theorem chars_self (s : Cons P) (i : UInt32) : s.chars i i = [] :=
  window_self (Nat.le_of_lt i.toNat_lt) _

/-- The last character before `j`. -/
theorem chars_pred (s : Cons P) {i j : UInt32} (hne : j ≠ i) :
    s.chars i j = s.chars i (j - 1) ++ [s.char (j - 1)] := by
  have hsub : (j - 1).toNat = (2 ^ 32 - 1 + j.toNat) % 2 ^ 32 :=
    UInt32.toNat_sub ..
  have hne' : i.toNat ≠ j.toNat := fun heq =>
    hne (UInt32.toNat_inj.mp heq).symm
  rw [chars, chars, char, hsub]
  exact window_pred_right size_dvd i.toNat_lt j.toNat_lt hne' s.buf

theorem chars_succ (s : Cons P) {i j : UInt32} (hne : i ≠ j) :
    s.chars i j = s.char i :: s.chars (i + 1) j := by
  have hadd : (i + 1).toNat = (i.toNat + 1) % 2 ^ 32 := UInt32.toNat_add ..
  have hne' : i.toNat ≠ j.toNat := fun heq => hne (UInt32.toNat_inj.mp heq)
  rw [chars, chars, char, hadd]
  exact window_succ_left size_dvd i.toNat_lt j.toNat_lt hne' s.buf

/-! ## Editing -/

theorem Holds.erase (h : s.Holds b t) (hne : s.e ≠ s.w) :
    { s with e := s.e - 1 }.Holds b { t with line := t.line.dropLast } := by
  have hline := h.line
  have hpred := s.chars_pred hne
  have hlen := congrArg List.length hpred
  rw [List.length_append, length_chars, length_chars, List.length_singleton]
    at hlen
  have hroom := h.room
  constructor
  · exact h.log
  · show t.line.dropLast = s.chars s.w (s.e - 1)
    rw [hline, hpred, List.dropLast_concat]
  · show (s.w - b).toNat + (s.e - 1 - s.w).toNat ≤ INPUT_BUF_SIZE
    omega
  · exact fun hmem => h.open_ (List.mem_of_mem_dropLast hmem)

/-- The loop of control-U goes back to `cons.w`. -/
theorem killLine_eq (s : Cons P) : ∀ (k : ℕ) (e : UInt32),
    (e - s.w).toNat ≤ k → NL ∉ s.chars s.w e → s.killLine k e = s.w
  | 0, e, hk, _ => by
    have hw := s.w.toNat_lt
    have he := e.toNat_lt
    rw [toNat_sub, span] at hk
    apply UInt32.toNat_inj.mp
    show e.toNat = s.w.toNat
    omega
  | k + 1, e, hk, hnl => by
    rw [killLine]
    by_cases he : e = s.w
    · rw [if_neg fun h => h.1 he, he]
    · have hpred := s.chars_pred he
      have hlen := congrArg List.length hpred
      rw [List.length_append, length_chars, length_chars,
        List.length_singleton] at hlen
      rw [hpred, List.mem_append, not_or] at hnl
      rw [if_pos ⟨he, fun hc => hnl.2 (List.mem_singleton.mpr hc.symm)⟩]
      exact killLine_eq s k (e - 1) (by omega) hnl.1

theorem Holds.kill (h : s.Holds b t) :
    { s with e := s.killLine (s.e - s.w).toNat s.e }.Holds b
      { t with line := [] } := by
  have hnl : NL ∉ s.chars s.w s.e := h.line ▸ h.open_
  rw [s.killLine_eq _ s.e le_rfl hnl]
  constructor
  · exact h.log
  · exact (s.chars_self s.w).symm
  · show (s.w - b).toNat + (s.w - s.w).toNat ≤ INPUT_BUF_SIZE
    rw [UInt32.sub_self]
    exact Nat.le_trans (Nat.le_add_right _ _) h.room
  · exact List.not_mem_nil

/-- A character is stored behind the line. -/
theorem Holds.chars_store (h : s.Holds b t) (hroom : (s.e - b).toNat < INPUT_BUF_SIZE)
    (c : UInt8) : (s.store c).chars b s.w = s.chars b s.w ∧
      (s.store c).chars s.w (s.e + 1) = s.chars s.w s.e ++ [c] := by
  have hspan := h.span_eq
  rw [toNat_sub] at hroom hspan
  rw [toNat_sub, toNat_sub] at hspan
  have hadd : (s.e + 1).toNat = (s.e.toNat + 1) % 2 ^ 32 := UInt32.toNat_add ..
  have hlt : span (2 ^ 32) s.w.toNat s.e.toNat + 1 < 2 ^ 32 := by
    unfold INPUT_BUF_SIZE at hroom
    omega
  constructor
  · exact window_update_left size_dvd b.toNat_lt (by omega) hroom s.buf c
  · rw [chars, hadd]
    rw [window_succ_right size_dvd s.w.toNat_lt hlt]
    show window _ (Function.update s.buf _ c) _ _ ++
      [Function.update s.buf _ c _] = _
    rw [Function.update_self, window_update size_dvd s.w.toNat_lt (by omega)]
    rfl

/-- `cons.buf[cons.e++ % INPUT_BUF_SIZE] = c`, and the test whether the line
is complete. -/
theorem Holds.put (h : s.Holds b t) (hroom : (s.e - b).toNat < INPUT_BUF_SIZE)
    (hb : b = s.r) (c : UInt8) :
    (if c = NL ∨ c = EOF ∨ (s.store c).e - (s.store c).r =
        UInt32.ofNat INPUT_BUF_SIZE then (s.store c).commit
      else s.store c).Holds b (t.put c) := by
  obtain ⟨hlog, hline⟩ := h.chars_store hroom c
  have hspan := h.span_eq
  have hsize := h.size_eq
  have hlen := congrArg List.length hline
  rw [List.length_append, length_chars, length_chars, List.length_singleton]
    at hlen
  have hfull : (s.store c).e - (s.store c).r = UInt32.ofNat INPUT_BUF_SIZE ↔
      t.size + 1 = INPUT_BUF_SIZE := by
    have hnext : (s.e + 1 - b).toNat = (s.e - b).toNat + 1 := by
      rw [toNat_sub, toNat_sub, UInt32.toNat_add]
      rw [toNat_sub] at hroom
      unfold INPUT_BUF_SIZE at hroom
      exact span_succ_right (by omega)
    show s.e + 1 - s.r = _ ↔ _
    rw [← hb, ← UInt32.toNat_inj, hnext, hsize]
    exact Iff.rfl
  rw [Tty.put]
  by_cases hend : c = NL ∨ c = EOF ∨ t.size + 1 = INPUT_BUF_SIZE
  · rw [if_pos hend, if_pos]
    · have happend : (s.store c).chars b (s.e + 1) =
          s.chars b s.w ++ (s.chars s.w s.e ++ [c]) := by
        rw [← hlog, ← hline]
        have hlt : span (2 ^ 32) b.toNat s.w.toNat +
            span (2 ^ 32) s.w.toNat (s.e + 1).toNat < 2 ^ 32 := by
          rw [← toNat_sub, ← toNat_sub]
          unfold INPUT_BUF_SIZE at hroom
          omega
        exact window_append size_dvd b.toNat_lt s.w.toNat_lt hlt _
      constructor
      · show t.log ++ (t.line ++ [c]) =
          t.taken ++ (s.store c).chars b (s.e + 1)
        rw [happend, h.log, h.line, List.append_assoc]
      · exact ((s.store c).chars_self (s.e + 1)).symm
      · show (s.e + 1 - b).toNat + (s.e + 1 - (s.e + 1)).toNat ≤ _
        have hlen := congrArg List.length happend
        simp only [List.length_append, length_chars, List.length_singleton]
          at hlen
        rw [UInt32.sub_self]
        show _ + 0 ≤ _
        omega
      · exact List.not_mem_nil
    · rw [hfull]
      exact hend
  · rw [if_neg hend, if_neg]
    · constructor
      · exact h.log.trans (by rw [← hlog]; rfl)
      · show t.line ++ [c] = (s.store c).chars s.w (s.e + 1)
        rw [hline, h.line]
      · show (s.w - b).toNat + (s.e + 1 - s.w).toNat ≤ INPUT_BUF_SIZE
        omega
      · intro hmem
        rcases List.mem_append.mp hmem with hmem | hmem
        · exact h.open_ hmem
        · exact hend (Or.inl (List.mem_singleton.mp hmem).symm)
    · rw [hfull]
      exact hend

/-- **`consoleintr` implements the line discipline.** -/
theorem Holds.consoleintr (h : s.Holds s.r t) (c : UInt8) :
    (s.consoleintr c).Holds s.r (t.type c) := by
  unfold Cons.consoleintr Tty.type
  by_cases hp : c = PROCDUMP
  · rw [if_pos hp, if_pos hp]
    exact h
  rw [if_neg hp, if_neg hp]
  by_cases hu : c = KILL
  · rw [if_pos hu, if_pos hu]
    exact h.kill
  rw [if_neg hu, if_neg hu]
  by_cases hh : c = BACKSPACE ∨ c = DELETE
  · rw [if_pos hh, if_pos hh]
    by_cases he : s.e ≠ s.w
    · rw [if_pos he]
      exact h.erase he
    · rw [if_neg he]
      -- there is nothing to erase
      have hnil : t.line = [] := by
        rw [h.line, not_not.mp he, chars_self]
      rw [hnil]
      exact ⟨h.log, hnil.symm.trans h.line, h.room, List.not_mem_nil⟩
  rw [if_neg hh, if_neg hh]
  have hiff : c ≠ 0 ∧ s.e - s.r < UInt32.ofNat INPUT_BUF_SIZE ↔
      c ≠ 0 ∧ t.size < INPUT_BUF_SIZE := by
    rw [h.size_eq, UInt32.lt_iff_toNat_lt]
    exact Iff.rfl
  by_cases hroom : c ≠ 0 ∧ s.e - s.r < UInt32.ofNat INPUT_BUF_SIZE
  · rw [if_pos hroom, if_pos (hiff.mp hroom)]
    refine h.put ?_ rfl _
    exact UInt32.lt_iff_toNat_lt.mp hroom.2
  · rw [if_neg hroom, if_neg (mt hiff.mpr hroom)]
    exact h

end Cons

end Xv6.Console
