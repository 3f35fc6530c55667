import Mathlib

/-!
# The matcher of `grep` (`user/grep.c`)

`match`, `matchhere` and `matchstar`. A C string is the list of its bytes
without the NUL at the end, and a pointer into it is what is left of it.
-/

namespace Xv6.User

/-! ## The model -/

/-- `'^'`. -/
def caret : UInt8 := 94

/-- `'.'`. -/
def dot : UInt8 := 46

/-- `'*'`. -/
def star : UInt8 := 42

/-- `'$'`. -/
def dollar : UInt8 := 36

/-- `matchstar(c, re, text)`: search for `c*re` at the beginning of the text.
`here` is `matchhere(re, ·)`. -/
def matchstar (c : UInt8) (here : List UInt8 → Bool) : List UInt8 → Bool
  | [] => here []
  | t :: text =>
      here (t :: text) || (t == c || c == dot) && matchstar c here text

/-- The last test of `matchhere`: one character, then the rest. -/
def matchone (c : UInt8) (here : List UInt8 → Bool) : List UInt8 → Bool
  | [] => false
  | t :: text => (c == dot || c == t) && here text

/-- Search for `re` at the beginning of the text. -/
def matchhere : List UInt8 → List UInt8 → Bool
  | [], _ => true
  | [c], text =>
      if c = dollar then text.isEmpty else matchone c (matchhere []) text
  | c :: d :: re, text =>
      if d = star then matchstar c (matchhere re) text
      else matchone c (matchhere (d :: re)) text

/-- The loop of `match`, which must look at the empty string. -/
def matchLoop (re : List UInt8) : List UInt8 → Bool
  | [] => matchhere re []
  | t :: text => matchhere re (t :: text) || matchLoop re text

/-- `match(re, text)`. -/
def match_ (re text : List UInt8) : Bool :=
  if re.head? = some caret then matchhere re.tail text else matchLoop re text

/-! ## What a pattern means -/

inductive Item
  /-- Any number of copies of a character. -/
  | star (c : UInt8)
  | any
  | lit (c : UInt8)
  /-- The end of the text. -/
  | eot
deriving DecidableEq

def Item.ofChar (c : UInt8) : Item := if c = dot then .any else .lit c

/-- The items of a pattern, from left to right. -/
def items : List UInt8 → List Item
  | [] => []
  | [c] => if c = dollar then [.eot] else [.ofChar c]
  | c :: d :: re =>
      if d = star then .star c :: items re else .ofChar c :: items (d :: re)

/-- The items match a stretch of the text, `rest` being the text after it. -/
inductive Matches : List Item → List UInt8 → List UInt8 → Prop
  | nil (rest : List UInt8) : Matches [] [] rest
  | any (c : UInt8) {is : List Item} {w rest : List UInt8} :
      Matches is w rest → Matches (.any :: is) (c :: w) rest
  | lit (c : UInt8) {is : List Item} {w rest : List UInt8} :
      Matches is w rest → Matches (.lit c :: is) (c :: w) rest
  | star (c : UInt8) {is : List Item} {u w rest : List UInt8} :
      (∀ x ∈ u, x = c ∨ c = dot) → Matches is w rest →
      Matches (.star c :: is) (u ++ w) rest
  | eot {is : List Item} : Matches is [] [] → Matches (.eot :: is) [] []

/-- The items match at the beginning of the text. -/
def MatchesAt (is : List Item) (text : List UInt8) : Prop :=
  ∃ w rest, text = w ++ rest ∧ Matches is w rest

variable {c t : UInt8} {is : List Item} {re text : List UInt8}
  {here : List UInt8 → Bool}

theorem matchesAt_nil (text : List UInt8) : MatchesAt [] text :=
  ⟨[], text, rfl, .nil text⟩

theorem matchesAt_eot : MatchesAt [.eot] text ↔ text = [] := by
  constructor
  · rintro ⟨w, rest, rfl, h⟩
    cases h
    rfl
  · rintro rfl
    exact ⟨[], [], rfl, .eot (.nil [])⟩

theorem matchesAt_ofChar_nil : ¬ MatchesAt (.ofChar c :: is) [] := by
  rintro ⟨w, rest, heq, h⟩
  obtain ⟨rfl, rfl⟩ := List.append_eq_nil_iff.mp heq.symm
  unfold Item.ofChar at h
  split at h
  · cases h
  · cases h

theorem matchesAt_ofChar_cons :
    MatchesAt (.ofChar c :: is) (t :: text) ↔
      (c = dot ∨ c = t) ∧ MatchesAt is text := by
  constructor
  · rintro ⟨w, rest, heq, h⟩
    unfold Item.ofChar at h
    split at h
    · rename_i hdot
      cases h with
      | any _ h =>
        obtain ⟨rfl, rfl⟩ := List.cons.inj heq
        exact ⟨Or.inl hdot, _, rest, rfl, h⟩
    · cases h with
      | lit _ h =>
        obtain ⟨rfl, rfl⟩ := List.cons.inj heq
        exact ⟨Or.inr rfl, _, rest, rfl, h⟩
  · rintro ⟨hc, w, rest, rfl, h⟩
    refine ⟨t :: w, rest, rfl, ?_⟩
    unfold Item.ofChar
    split
    · exact .any t h
    · rename_i hdot
      obtain rfl := hc.resolve_left hdot
      exact .lit c h

theorem matchesAt_star :
    MatchesAt (.star c :: is) text ↔ ∃ u v, text = u ++ v ∧
      (∀ x ∈ u, x = c ∨ c = dot) ∧ MatchesAt is v := by
  constructor
  · rintro ⟨w, rest, rfl, h⟩
    cases h with
    | @star _ _ u w _ hu h =>
      exact ⟨u, w ++ rest, List.append_assoc u w rest, hu, w, rest, rfl, h⟩
  · rintro ⟨u, v, rfl, hu, w, rest, rfl, h⟩
    exact ⟨u ++ w, rest, (List.append_assoc u w rest).symm, .star c hu h⟩

/-! ## The matcher is right -/

theorem matchone_iff (hhere : ∀ text, here text = true ↔ MatchesAt is text)
    (text : List UInt8) :
    matchone c here text = true ↔ MatchesAt (.ofChar c :: is) text := by
  cases text with
  | nil => exact iff_of_false Bool.false_ne_true matchesAt_ofChar_nil
  | cons t text =>
    rw [matchone, Bool.and_eq_true, Bool.or_eq_true, beq_iff_eq, beq_iff_eq,
      hhere, matchesAt_ofChar_cons]

/-- **The loop of `matchstar` tries every number of copies.** -/
theorem matchstar_iff (text : List UInt8) :
    matchstar c here text = true ↔ ∃ u v, text = u ++ v ∧
      (∀ x ∈ u, x = c ∨ c = dot) ∧ here v = true := by
  induction text with
  | nil =>
    rw [matchstar]
    constructor
    · intro h
      exact ⟨[], [], rfl, fun x hx => absurd hx List.not_mem_nil, h⟩
    · rintro ⟨u, v, heq, -, h⟩
      obtain ⟨rfl, rfl⟩ := List.append_eq_nil_iff.mp heq.symm
      exact h
  | cons t text ih =>
    rw [matchstar, Bool.or_eq_true, Bool.and_eq_true, Bool.or_eq_true,
      beq_iff_eq, beq_iff_eq, ih]
    constructor
    · rintro (h | ⟨hc, u, v, rfl, hu, h⟩)
      · exact ⟨[], t :: text, rfl, fun x hx => absurd hx List.not_mem_nil, h⟩
      · exact ⟨t :: u, v, rfl, List.forall_mem_cons.mpr ⟨hc, hu⟩, h⟩
    · rintro ⟨u, v, heq, hu, h⟩
      cases u with
      | nil =>
        obtain rfl : t :: text = v := heq
        exact Or.inl h
      | cons x u =>
        obtain ⟨rfl, rfl⟩ := List.cons.inj heq
        obtain ⟨hc, hu⟩ := List.forall_mem_cons.mp hu
        exact Or.inr ⟨hc, u, v, rfl, hu, h⟩

/-- **`matchhere` finds the items at the beginning of the text.** -/
theorem matchhere_iff (re text : List UInt8) :
    matchhere re text = true ↔ MatchesAt (items re) text := by
  -- the two functions read the pattern in the same pieces
  induction re using items.induct generalizing text with
  | case1 => exact iff_of_true rfl (matchesAt_nil text)
  | case2 =>
    rw [items, if_pos rfl, matchesAt_eot, matchhere, if_pos rfl,
      List.isEmpty_iff]
  | case3 c hc =>
    rw [items, if_neg hc, matchhere, if_neg hc]
    exact matchone_iff (fun text => iff_of_true rfl (matchesAt_nil text)) text
  | case4 c re ih =>
    rw [items, if_pos rfl, matchesAt_star, matchhere, if_pos rfl,
      matchstar_iff]
    simp only [ih]
  | case5 c d re hd ih =>
    rw [items, if_neg hd, matchhere, if_neg hd]
    exact matchone_iff ih text

theorem matchLoop_iff (re text : List UInt8) :
    matchLoop re text = true ↔
      ∃ u v, text = u ++ v ∧ MatchesAt (items re) v := by
  induction text with
  | nil =>
    rw [matchLoop, matchhere_iff]
    constructor
    · intro h
      exact ⟨[], [], rfl, h⟩
    · rintro ⟨u, v, heq, h⟩
      obtain ⟨rfl, rfl⟩ := List.append_eq_nil_iff.mp heq.symm
      exact h
  | cons t text ih =>
    rw [matchLoop, Bool.or_eq_true, matchhere_iff, ih]
    constructor
    · rintro (h | ⟨u, v, rfl, h⟩)
      · exact ⟨[], t :: text, rfl, h⟩
      · exact ⟨t :: u, v, rfl, h⟩
    · rintro ⟨u, v, heq, h⟩
      cases u with
      | nil =>
        obtain rfl : t :: text = v := heq
        exact Or.inl h
      | cons x u =>
        obtain ⟨rfl, rfl⟩ := List.cons.inj heq
        exact Or.inr ⟨u, v, rfl, h⟩

/-- **`match` is sound and complete**: it returns 1 exactly when the pattern
matches a stretch `w` of the text, which starts anywhere or, behind a `^`, at
the beginning. -/
theorem match_iff (re text : List UInt8) :
    match_ re text = true ↔ ∃ u w v, text = u ++ w ++ v ∧
      if re.head? = some caret then u = [] ∧ Matches (items re.tail) w v
      else Matches (items re) w v := by
  unfold match_
  split
  · rw [matchhere_iff]
    constructor
    · rintro ⟨w, v, rfl, h⟩
      exact ⟨[], w, v, rfl, rfl, h⟩
    · rintro ⟨u, w, v, rfl, rfl, h⟩
      exact ⟨w, v, rfl, h⟩
  · rw [matchLoop_iff]
    constructor
    · rintro ⟨u, _, rfl, w, v, rfl, h⟩
      exact ⟨u, w, v, (List.append_assoc u w v).symm, h⟩
    · rintro ⟨u, w, v, rfl, h⟩
      exact ⟨u, w ++ v, List.append_assoc u w v, w, v, rfl, h⟩

-- `^a*.$` matches "aab" and not "aabb"
example : match_ [94, 97, 42, 46, 36] [97, 97, 98] = true ∧
    match_ [94, 97, 42, 46, 36] [97, 97, 98, 98] = false := by decide

end Xv6.User
