import Xv6.User.Match

/-!
# `grep` (`user/grep.c`)

`grep` collects its input in a buffer of 1024 bytes, writes the matching lines
that are complete and moves the rest to the front. `read` may return any part
of what it is asked for. A line that does not fit in the buffer ends the loop:
the next `read` is asked for no byte at all.
-/

namespace Xv6.User

/-! ## The model -/

/-- `'\n'`. -/
def newline : UInt8 := 10

/-- `sizeof(buf)`. -/
def grepBuf : ℕ := 1024

/-- `strchr(p, '\n')`: the text before the newline and the text behind it. -/
def strchrNewline : List UInt8 → Option (List UInt8 × List UInt8)
  | [] => none
  | c :: p =>
      if c = 0 then none
      else if c = newline then some ([], p)
      else (strchrNewline p).map fun r => (c :: r.1, r.2)

/-- The inner loop over the lines in the buffer: what is written, and what is
left. Every round takes a newline, so the length of the text is enough. -/
def grepLines (pattern : List UInt8) : ℕ → List UInt8 → List UInt8 × List UInt8
  | 0, p => ([], p)
  | k + 1, p =>
      match strchrNewline p with
      | none => ([], p)
      | some (text, q) =>
          let r := grepLines pattern k q
          ((if match_ pattern text then text ++ [newline] else []) ++ r.1, r.2)

/-- The outer loop, with `buf` the bytes in the buffer. The `i`-th `read`
returns at most `pick i + 1` bytes. -/
def grepLoop (pattern : List UInt8) (pick : ℕ → ℕ) :
    ℕ → ℕ → List UInt8 → List UInt8 → List UInt8
  | 0, _, _, _ => []
  | k + 1, i, input, buf =>
      let n := min (min (grepBuf - buf.length - 1) (pick i + 1)) input.length
      if n = 0 then []
      else
        let buf := buf ++ input.take n
        let r := grepLines pattern buf.length buf
        r.1 ++ grepLoop pattern pick k (i + 1) (input.drop n) r.2

/-- What `grep(pattern, fd)` writes. Every round reads a byte, so there are at
most as many as there are bytes, and one more. -/
def grep (pattern : List UInt8) (pick : ℕ → ℕ) (input : List UInt8) :
    List UInt8 :=
  grepLoop pattern pick (input.length + 1) 0 input []

/-! ## Lines -/

/-- The texts of the lines of a stream that end in a newline, the first of
which starts with `l`. -/
def linesFrom (l : List UInt8) : List UInt8 → List (List UInt8)
  | [] => []
  | c :: s => if c = newline then l :: linesFrom [] s else linesFrom (l ++ [c]) s

def lines (s : List UInt8) : List (List UInt8) := linesFrom [] s

/-- The matching lines, with their newlines. -/
def matching (pattern : List UInt8) (ls : List (List UInt8)) : List UInt8 :=
  (ls.filter (match_ pattern)).flatMap (· ++ [newline])

/-- The line fits in the buffer with its newline and the NUL. -/
def short (l : List UInt8) : Bool := l.length + 1 < grepBuf

variable {pattern l s text buf input : List UInt8}

theorem linesFrom_of_notMem (h : newline ∉ s) : linesFrom l s = [] := by
  induction s generalizing l with
  | nil => rfl
  | cons c s ih =>
    rw [List.mem_cons, not_or] at h
    rw [linesFrom, if_neg fun hc => h.1 hc.symm, ih h.2]

theorem linesFrom_append (h : newline ∉ text) :
    linesFrom l (text ++ newline :: s) = (l ++ text) :: lines s := by
  induction text generalizing l with
  | nil =>
    rw [List.nil_append, linesFrom, if_pos rfl, List.append_nil]
    rfl
  | cons c text ih =>
    rw [List.mem_cons, not_or] at h
    rw [List.cons_append, linesFrom, if_neg fun hc => h.1 hc.symm, ih h.2,
      List.append_assoc, List.singleton_append]

/-- The first line of a stream. -/
theorem lines_append (h : newline ∉ text) :
    lines (text ++ newline :: s) = text :: lines s :=
  linesFrom_append h

/-- What `strchr` finds in a text without NUL. -/
theorem strchrNewline_eq (hnul : 0 ∉ s) :
    (strchrNewline s = none ∧ newline ∉ s) ∨ ∃ text q,
      strchrNewline s = some (text, q) ∧ s = text ++ newline :: q ∧
        newline ∉ text := by
  induction s with
  | nil => exact Or.inl ⟨rfl, List.not_mem_nil⟩
  | cons c s ih =>
    rw [List.mem_cons, not_or] at hnul
    rw [strchrNewline, if_neg fun hc => hnul.1 hc.symm]
    by_cases hc : c = newline
    · subst hc
      exact Or.inr ⟨[], s, if_pos rfl, rfl, List.not_mem_nil⟩
    · rw [if_neg hc]
      rcases ih hnul.2 with ⟨hnone, hmem⟩ | ⟨text, q, hsome, rfl, hmem⟩
      · rw [hnone]
        refine Or.inl ⟨rfl, fun h => ?_⟩
        rcases List.mem_cons.mp h with h | h
        · exact hc h.symm
        · exact hmem h
      · rw [hsome]
        refine Or.inr ⟨c :: text, q, rfl, rfl, fun h => ?_⟩
        rcases List.mem_cons.mp h with h | h
        · exact hc h.symm
        · exact hmem h

/-- **The inner loop** writes the matching lines and leaves the part behind
the last newline. Whatever follows, the lines go on from there. -/
theorem grepLines_eq : ∀ {k : ℕ} {p : List UInt8}, p.length ≤ k → 0 ∉ p →
    ∃ rest, grepLines pattern k p = (matching pattern (lines p), rest) ∧
      newline ∉ rest ∧ 0 ∉ rest ∧ rest.length ≤ p.length ∧
      ∀ s, lines (p ++ s) = lines p ++ lines (rest ++ s) := by
  intro k
  induction k with
  | zero =>
    intro p hlen _
    obtain rfl := List.eq_nil_of_length_eq_zero (Nat.le_zero.mp hlen)
    exact ⟨[], rfl, List.not_mem_nil, List.not_mem_nil, Nat.le_refl _,
      fun _ => rfl⟩
  | succ k ih =>
    intro p hlen hnul
    rw [grepLines]
    rcases strchrNewline_eq hnul with
      ⟨hnone, hmem⟩ | ⟨text, q, hsome, rfl, hmem⟩
    · have hlines : lines p = [] := linesFrom_of_notMem hmem
      rw [hnone, hlines]
      exact ⟨p, rfl, hmem, hnul, Nat.le_refl _, fun _ => rfl⟩
    · rw [List.length_append, List.length_cons] at hlen ⊢
      have hq : 0 ∉ q := fun h => hnul
        (List.mem_append_right text (List.mem_cons_of_mem newline h))
      obtain ⟨rest, heq, hrest, hzero, hle, hgo⟩ := ih
        (show q.length ≤ k by omega) hq
      rw [hsome, lines_append hmem]
      dsimp only
      rw [heq]
      refine ⟨rest, ?_, hrest, hzero, by omega, fun s => ?_⟩
      · unfold matching
        rw [List.filter_cons]
        split
        · rfl
        · rfl
      · rw [List.append_assoc, List.cons_append, lines_append hmem, hgo s,
          List.cons_append]

theorem short_of_mem_lines : ∀ {n : ℕ} {s : List UInt8}, s.length ≤ n →
    ∀ l ∈ lines s, l.length + 1 ≤ s.length := by
  intro n
  induction n with
  | zero =>
    intro s hlen l hl
    obtain rfl := List.eq_nil_of_length_eq_zero (Nat.le_zero.mp hlen)
    exact absurd hl List.not_mem_nil
  | succ n ih =>
    intro s hlen l hl
    by_cases hmem : newline ∈ s
    · obtain ⟨text, q, rfl, htext⟩ := List.eq_append_cons_of_mem hmem
      rw [lines_append htext] at hl
      rw [List.length_append, List.length_cons] at hlen ⊢
      rcases List.mem_cons.mp hl with rfl | hl
      · omega
      · have := ih (show q.length ≤ n by omega) l hl
        omega
    · rw [lines, linesFrom_of_notMem hmem] at hl
      exact absurd hl List.not_mem_nil

/-! ## What `grep` writes -/

/-- A first line that has filled the buffer is too long. -/
theorem takeWhile_lines_of_full (hbuf : newline ∉ buf)
    (hfull : grepBuf ≤ buf.length + 1) :
    (lines (buf ++ s)).takeWhile short = [] := by
  by_cases hmem : newline ∈ s
  · obtain ⟨text, q, rfl, htext⟩ := List.eq_append_cons_of_mem hmem
    have hnot : newline ∉ buf ++ text := fun h =>
      (List.mem_append.mp h).elim hbuf htext
    rw [← List.append_assoc, lines_append hnot, List.takeWhile_cons_of_neg]
    unfold short
    rw [decide_eq_true_eq, List.length_append]
    omega
  · have hnot : newline ∉ buf ++ s := fun h =>
      (List.mem_append.mp h).elim hbuf hmem
    rw [lines, linesFrom_of_notMem hnot, List.takeWhile_nil]

theorem matching_append (pattern : List UInt8) (a b : List (List UInt8)) :
    matching pattern (a ++ b) = matching pattern a ++ matching pattern b := by
  unfold matching
  rw [List.filter_append, List.flatMap_append]

/-- **The outer loop** writes the matching lines up to the first that does not
fit, however the input is split. -/
theorem grepLoop_eq (pattern : List UInt8) (pick : ℕ → ℕ) :
    ∀ {k i : ℕ} {input buf : List UInt8}, input.length < k → 0 ∉ input →
      0 ∉ buf → newline ∉ buf → buf.length < grepBuf →
      grepLoop pattern pick k i input buf =
        matching pattern ((lines (buf ++ input)).takeWhile short) := by
  intro k
  induction k with
  | zero =>
    intro i input buf hk
    exact absurd hk (Nat.not_lt_zero _)
  | succ k ih =>
    intro i input buf hk hin hzero hbuf hlen
    rw [grepLoop]
    dsimp only
    split
    · -- the end of the input, or a full buffer
      rename_i hn
      have hcases : input = [] ∨ grepBuf ≤ buf.length + 1 := by
        rcases Nat.eq_zero_or_pos input.length with hnil | hpos
        · exact Or.inl (List.eq_nil_of_length_eq_zero hnil)
        · exact Or.inr (by omega)
      rcases hcases with rfl | hfull
      · rw [List.append_nil, lines, linesFrom_of_notMem hbuf]
        rfl
      · rw [takeWhile_lines_of_full hbuf hfull]
        rfl
    · rename_i hn
      generalize hm : min (min (grepBuf - buf.length - 1) (pick i + 1))
        input.length = n at hn ⊢
      have htake : (input.take n).length = n :=
        List.length_take_of_le (by omega)
      have hnul : 0 ∉ buf ++ input.take n := fun h =>
        (List.mem_append.mp h).elim hzero fun h => hin (List.mem_of_mem_take h)
      obtain ⟨rest, heq, hrest, hrest0, hle, hgo⟩ :=
        grepLines_eq (Nat.le_refl (buf ++ input.take n).length) hnul
      rw [heq]
      rw [List.length_append, htake] at hle
      have hshort : ∀ l ∈ lines (buf ++ input.take n), short l = true := by
        intro l hl
        have := short_of_mem_lines (Nat.le_refl _) l hl
        rw [List.length_append, htake] at this
        unfold short
        rw [decide_eq_true_eq]
        omega
      rw [ih (by rw [List.length_drop]; omega)
        (fun h => hin (List.mem_of_mem_drop h)) hrest0 hrest (by omega),
        ← matching_append, ← List.takeWhile_append_of_pos hshort, ← hgo,
        List.append_assoc, List.take_append_drop]

theorem grep_eq (pattern : List UInt8) (pick : ℕ → ℕ) (hnul : 0 ∉ input) :
    grep pattern pick input =
      matching pattern ((lines input).takeWhile short) :=
  grepLoop_eq pattern pick (Nat.lt_succ_self _) hnul List.not_mem_nil
    List.not_mem_nil (by decide)

theorem matching_eq_nil_iff (ls : List (List UInt8)) :
    matching pattern ls = [] ↔ ∀ l ∈ ls, match_ pattern l = false := by
  unfold matching
  rw [List.flatMap_eq_nil_iff]
  constructor
  · intro h l hl
    by_contra hmatch
    have hmem := List.mem_filter.mpr ⟨hl, Bool.not_eq_false _ ▸ hmatch⟩
    have hnil := h l hmem
    simp at hnil
  · intro h l hl
    obtain ⟨hl, hmatch⟩ := List.mem_filter.mp hl
    rw [h l hl] at hmatch
    cases hmatch

/-- **`grep` prints exactly the matching lines just when none of them comes
behind a line that does not fit in its buffer, or is one.** -/
theorem grep_iff (pattern : List UInt8) (pick : ℕ → ℕ) (hnul : 0 ∉ input) :
    grep pattern pick input = matching pattern (lines input) ↔
      ∀ l ∈ (lines input).dropWhile short, match_ pattern l = false := by
  have hsplit := congrArg (matching pattern)
    (List.takeWhile_append_dropWhile (p := short) (l := lines input))
  rw [matching_append] at hsplit
  rw [grep_eq pattern pick hnul, ← hsplit, ← matching_eq_nil_iff]
  constructor
  · intro h
    exact (List.append_right_eq_self.mp h.symm)
  · intro h
    rw [h, List.append_nil]

/-- Three bytes at a time. -/
theorem grep_iff_two : grep [97] (fun _ => 2) [98, 97, 10, 98, 10] =
    matching [97] (lines [98, 97, 10, 98, 10]) :=
  (grep_iff [97] (fun _ => 2) (by decide)).mpr (by decide)

/-- A line of 1023 characters. -/
def overlong : List UInt8 := List.replicate 1023 97 ++ [newline]

/-- The line matches the pattern `a`, and `grep` does not print it. -/
theorem grep_loses_overlong : 0 ∉ overlong ∧
    grep [97] (fun _ => 1023) overlong = [] ∧
    matching [97] (lines overlong) = overlong := by
  refine ⟨by decide +kernel, by decide +kernel, ?_⟩
  have htext : newline ∉ List.replicate 1023 97 := fun h =>
    absurd (List.eq_of_mem_replicate h) (by decide)
  have hmatch : match_ [97] (List.replicate 1023 97) = true := by
    decide +kernel
  rw [overlong, lines_append htext, matching, List.filter_cons_of_pos hmatch,
    List.flatMap_cons, show lines [] = [] from rfl, List.filter_nil,
    List.flatMap_nil, List.append_nil]

end Xv6.User
