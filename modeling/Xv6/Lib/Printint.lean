import Mathlib

/-!
# Printing integers (`kernel/printf.c`, `user/printf.c`)

`printint` of the kernel and of the user library. Both put the digits of the
absolute value in a buffer of 20 bytes, the low one first, then the sign, and
write the buffer backwards.
-/

namespace Xv6.Lib

/-! ## The model -/

/-- `char buf[20]`. -/
def bufSize : ℕ := 20

/-- The `do` loop: what it leaves in the buffer, from the first byte on, or
`none` if it writes behind the end. `room` is what is left of the buffer. -/
def putDigits (digits : ℕ → Char) (base : ℕ) : ℕ → ℕ → Option (List Char)
  | 0, _ => none
  | room + 1, x =>
      if x / base = 0 then some [digits (x % base)]
      else (putDigits digits base room (x / base)).map (digits (x % base) :: ·)

/-- `if(neg) buf[i++] = '-';` -/
def putSign (neg : Bool) (buf : List Char) : Option (List Char) :=
  if neg then
    if buf.length < bufSize then some (buf ++ ['-']) else none
  else some buf

/-- `x = -xx` and `x = xx`, for a `long long` and an `unsigned long long`. -/
def magnitude (neg : Bool) (xx : Int64) : ℕ :=
  if neg then (-xx).toUInt64.toNat else xx.toUInt64.toNat

namespace Kernel

def digits (d : ℕ) : Char := "0123456789abcdef".toList.getD d '\x00'

/-- The characters that `printint(xx, base, sign)` passes to `consputc`. -/
def printint (xx : Int64) (base : ℕ) (sign : Int32) : Option (List Char) := do
  -- sign && (sign = (xx < 0))
  let sign : Bool := if sign = 0 then false else decide (xx < 0)
  let buf ← putDigits digits base bufSize (magnitude sign xx)
  let buf ← putSign sign buf
  some buf.reverse

end Kernel

namespace User

def digits (d : ℕ) : Char := "0123456789ABCDEF".toList.getD d '\x00'

/-- The characters that `printint(fd, xx, base, sgn)` passes to `putc`. -/
def printint (xx : Int64) (base : ℕ) (sgn : Int32) : Option (List Char) := do
  let neg := sgn != 0 && decide (xx < 0)
  let buf ← putDigits digits base bufSize (magnitude neg xx)
  let buf ← putSign neg buf
  some buf.reverse

end User

/-! ## Numerals -/

/-- The number that is printed: the flag says whether it is signed. -/
def printed (xx : Int64) (sign : Int32) : ℤ :=
  if sign = 0 then xx.toUInt64.toNat else xx.toInt

/-- The text is the canonical numeral of `v`: a minus sign if it is negative,
and the digits of its absolute value without a leading zero. -/
structure Numeral (base : ℕ) (digits : ℕ → Char) (v : ℤ) (text : List Char)
    (ds : List ℕ) : Prop where
  text : text = (if v < 0 then ['-'] else []) ++ ds.map digits
  lt : ∀ d ∈ ds, d < base
  value : Nat.ofDigits base ds.reverse = v.natAbs
  head : ds.head? ≠ some 0 ∨ ds = [0]
  nonempty : ds ≠ []

/-- The digits of a number, the low one first; zero has one. -/
def lowDigits (base x : ℕ) : List ℕ := if x = 0 then [0] else Nat.digits base x

variable {base x room : ℕ}

theorem lowDigits_of_lt (hb : 2 ≤ base) (h : x / base = 0) :
    lowDigits base x = [x % base] := by
  have hx : x < base := (Nat.div_eq_zero_iff_lt (by omega)).mp h
  rw [Nat.mod_eq_of_lt hx]
  unfold lowDigits
  split
  · rename_i hzero
    rw [hzero]
  · rename_i hne
    exact Nat.digits_of_lt base x hne hx

theorem lowDigits_step (hb : 2 ≤ base) (h : x / base ≠ 0) :
    lowDigits base x = x % base :: lowDigits base (x / base) := by
  have hx : x ≠ 0 := by
    rintro rfl
    exact h (Nat.zero_div base)
  rw [lowDigits, lowDigits, if_neg hx, if_neg h,
    Nat.digits_def' hb (Nat.pos_of_ne_zero hx)]

/-- **The loop stays in the buffer if the number fits**, and it leaves the
digits there. -/
theorem putDigits_eq (digits : ℕ → Char) (hb : 2 ≤ base) :
    ∀ {room x : ℕ}, 0 < room → x < base ^ room →
      putDigits digits base room x = some ((lowDigits base x).map digits) := by
  intro room
  induction room with
  | zero => intro x hpos; exact absurd hpos (Nat.lt_irrefl 0)
  | succ room ih =>
    intro x _ hlt
    rw [putDigits]
    split
    · rename_i hlast
      rw [lowDigits_of_lt hb hlast, List.map_singleton]
    · rename_i hmore
      have hdiv : x / base < base ^ room := by
        rw [Nat.div_lt_iff_lt_mul (by omega), ← Nat.pow_succ]
        exact hlt
      have hroom : 0 < room := by
        rcases Nat.eq_zero_or_pos room with rfl | hpos
        · rw [Nat.pow_zero] at hdiv
          exact absurd (Nat.lt_one_iff.mp hdiv) hmore
        · exact hpos
      rw [ih hroom hdiv, lowDigits_step hb hmore, Option.map_some,
        List.map_cons]

theorem length_lowDigits_le (hb : 2 ≤ base) (hroom : 0 < room)
    (h : x < base ^ room) : (lowDigits base x).length ≤ room := by
  unfold lowDigits
  split
  · exact hroom
  · exact (Nat.digits_length_le_iff hb x).mpr h

/-- The digits read backwards are a canonical numeral. -/
theorem numeral_lowDigits (digits : ℕ → Char) (hb : 2 ≤ base) {v : ℤ}
    (hx : v.natAbs = x) :
    Numeral base digits v
      ((if v < 0 then ['-'] else []) ++ ((lowDigits base x).map digits).reverse)
      (lowDigits base x).reverse where
  text := by rw [List.map_reverse]
  lt := by
    intro d hd
    rw [List.mem_reverse, lowDigits] at hd
    split at hd
    · rw [List.mem_singleton.mp hd]
      omega
    · exact Nat.digits_lt_base hb hd
  value := by
    rw [List.reverse_reverse, hx, lowDigits]
    split
    · rename_i hzero
      rw [hzero, Nat.ofDigits_singleton]
    · exact Nat.ofDigits_digits base x
  head := by
    rw [List.head?_reverse, lowDigits]
    split
    · exact Or.inr rfl
    · rename_i hne
      refine Or.inl fun hlast => ?_
      have hnil : Nat.digits base x ≠ [] :=
        Nat.digits_ne_nil_iff_ne_zero.mpr hne
      rw [List.getLast?_eq_some_getLast hnil, Option.some.injEq] at hlast
      exact Nat.getLast_digit_ne_zero base hne hlast
  nonempty := by
    rw [ne_eq, List.reverse_eq_nil_iff, lowDigits]
    split
    · exact List.cons_ne_nil 0 []
    · rename_i hne
      exact Nat.digits_ne_nil_iff_ne_zero.mpr hne

/-! ## The two functions -/

theorem magnitude_lt (neg : Bool) (xx : Int64) : magnitude neg xx < 2 ^ 64 := by
  unfold magnitude
  split
  · exact (-xx).toUInt64.toNat_lt
  · exact xx.toUInt64.toNat_lt

/-- The absolute value of a negative number, the most negative one
included. -/
theorem magnitude_of_neg {xx : Int64} (h : xx < 0) :
    magnitude true xx = xx.toInt.natAbs ∧ magnitude true xx ≤ 2 ^ 63 := by
  have hneg : xx.toBitVec.toInt < 0 := Int64.lt_iff_toInt_lt.mp h
  have hmag : magnitude true xx = (2 ^ 64 - xx.toBitVec.toNat) % 2 ^ 64 :=
    BitVec.toNat_neg xx.toBitVec
  have hbits := xx.toBitVec.isLt
  have hint : xx.toInt = xx.toBitVec.toInt := rfl
  rw [BitVec.toInt_eq_toNat_cond] at hneg hint
  rw [hmag, hint]
  split at hneg
  · omega
  · split
    · omega
    · omega

/-- What both functions do, whatever their digits look like: they stay in the
buffer and write the numeral. -/
theorem emit_eq (digits : ℕ → Char) (hbase : base = 10 ∨ base = 16)
    {neg : Bool} {xx : Int64} (hneg : neg = true → xx < 0) :
    (putDigits digits base bufSize (magnitude neg xx) >>= fun buf =>
      putSign neg buf >>= fun buf => some buf.reverse) =
      some ((if neg then ['-'] else []) ++
        ((lowDigits base (magnitude neg xx)).map digits).reverse) := by
  have hb : 2 ≤ base := by omega
  have hpow : 2 ^ 64 < base ^ bufSize ∧ 2 ^ 63 < base ^ 19 := by
    rcases hbase with rfl | rfl <;> decide
  have hlt := magnitude_lt neg xx
  rw [putDigits_eq digits hb (by decide) (Nat.lt_trans hlt hpow.1)]
  cases neg with
  | false => rfl
  | true =>
    -- a negative number has at most 19 digits
    have hlen := length_lowDigits_le hb (by decide)
      (Nat.lt_of_le_of_lt (magnitude_of_neg (hneg rfl)).2 hpow.2)
    have hroom : ((lowDigits base (magnitude true xx)).map digits).length <
        bufSize := by
      rw [List.length_map]
      exact Nat.lt_succ_of_le hlen
    have hsign : putSign true ((lowDigits base (magnitude true xx)).map
        digits) = some ((lowDigits base (magnitude true xx)).map digits ++
          ['-']) := by
      rw [putSign, if_pos rfl, if_pos hroom]
    rw [Option.bind_eq_bind, Option.bind_some, hsign,
      Option.bind_some, List.reverse_append]
    rfl

/-- The sign that is printed is that of the number. -/
theorem printed_neg (xx : Int64) (sign : Int32) :
    (printed xx sign < 0 ↔ sign ≠ 0 ∧ xx < 0) ∧
    (printed xx sign).natAbs =
      magnitude (decide (sign ≠ 0 ∧ xx < 0)) xx := by
  unfold printed
  split
  · rename_i hsign
    have hnot : ¬ (sign ≠ 0 ∧ xx < 0) := fun h => h.1 hsign
    refine ⟨iff_of_false (Int.not_lt.mpr (Int.natCast_nonneg _)) hnot, ?_⟩
    rw [decide_eq_false hnot]
    rfl
  · rename_i hsign
    have hiff : xx.toInt < 0 ↔ xx < 0 :=
      (@Int64.lt_iff_toInt_lt xx 0).symm
    refine ⟨hiff.trans ⟨fun h => ⟨hsign, h⟩, And.right⟩, ?_⟩
    by_cases hneg : xx < 0
    · rw [decide_eq_true ⟨hsign, hneg⟩, (magnitude_of_neg hneg).1]
    · rw [decide_eq_false fun h => hneg h.2]
      have hpos : ¬ xx.toBitVec.toInt < 0 := fun h => hneg (hiff.mp h)
      have hbits := xx.toBitVec.isLt
      show xx.toBitVec.toInt.natAbs = xx.toBitVec.toNat
      rw [BitVec.toInt_eq_toNat_cond] at hpos ⊢
      split at hpos
      · rename_i hlow
        rw [if_pos hlow, Int.natAbs_natCast]
      · omega

theorem Kernel.printint_eq (xx : Int64) (sign : Int32)
    (hbase : base = 10 ∨ base = 16) :
    Kernel.printint xx base sign =
      some ((if printed xx sign < 0 then ['-'] else []) ++
        ((lowDigits base (printed xx sign).natAbs).map digits).reverse) := by
  have hsign : (if sign = 0 then false else decide (xx < 0)) =
      decide (sign ≠ 0 ∧ xx < 0) := by
    by_cases h : sign = 0 <;> simp [h]
  have hprinted := printed_neg xx sign
  unfold Kernel.printint
  dsimp only
  rw [hsign, hprinted.2]
  refine (emit_eq digits hbase fun h => (of_decide_eq_true h).2).trans ?_
  simp only [decide_eq_true_eq, hprinted.1]

theorem User.printint_eq (xx : Int64) (sgn : Int32)
    (hbase : base = 10 ∨ base = 16) :
    User.printint xx base sgn =
      some ((if printed xx sgn < 0 then ['-'] else []) ++
        ((lowDigits base (printed xx sgn).natAbs).map digits).reverse) := by
  have hsign : (sgn != 0 && decide (xx < 0)) =
      decide (sgn ≠ 0 ∧ xx < 0) := by
    by_cases h : sgn = 0 <;> simp [h]
  have hprinted := printed_neg xx sgn
  unfold User.printint
  dsimp only
  rw [hsign, hprinted.2]
  refine (emit_eq digits hbase fun h => (of_decide_eq_true h).2).trans ?_
  simp only [decide_eq_true_eq, hprinted.1]

theorem toLower_digits : ∀ d < 16,
    (User.digits d).toLower = Kernel.digits d := by decide

/-- **Both functions print the canonical numeral within their buffer**, and
their texts differ in the case of letters only. -/
theorem printint_canonical (xx : Int64) (sign : Int32)
    (hbase : base = 10 ∨ base = 16) :
    ∃ kernel user ds, Kernel.printint xx base sign = some kernel ∧
      User.printint xx base sign = some user ∧
      Numeral base Kernel.digits (printed xx sign) kernel ds ∧
      Numeral base User.digits (printed xx sign) user ds ∧
      user.map Char.toLower = kernel := by
  have hb : 2 ≤ base := by omega
  refine ⟨_, _, _, Kernel.printint_eq xx sign hbase,
    User.printint_eq xx sign hbase, numeral_lowDigits Kernel.digits hb rfl,
    numeral_lowDigits User.digits hb rfl, ?_⟩
  have hdigits : ∀ d ∈ lowDigits base (printed xx sign).natAbs, d < 16 := by
    intro d hd
    have hlt := (numeral_lowDigits Kernel.digits hb
      (rfl : (printed xx sign).natAbs = _)).lt d (List.mem_reverse.mpr hd)
    omega
  rw [List.map_append, List.map_reverse, List.map_map]
  congr 1
  · split <;> rfl
  · congr 1
    exact List.map_congr_left fun d hd => toLower_digits d (hdigits d hd)

/-- The most negative number in base 10. -/
theorem printint_canonical_min :
    ∃ kernel user ds,
      Kernel.printint Int64.minValue 10 1 = some kernel ∧
      User.printint Int64.minValue 10 1 = some user ∧
      Numeral 10 Kernel.digits (printed Int64.minValue 1) kernel ds ∧
      Numeral 10 User.digits (printed Int64.minValue 1) user ds ∧
      user.map Char.toLower = kernel :=
  printint_canonical Int64.minValue 1 (Or.inl rfl)

example : Kernel.printint Int64.minValue 10 1 =
    some "-9223372036854775808".toList := by decide

end Xv6.Lib
