import Mathlib

/-!
# `memmove` (`kernel/string.c`, `user/ulib.c`)

The kernel and the user library each have a `memmove`. Both copy upwards or
downwards, byte by byte, and differ in when they do which: the kernel goes
down only if the destination starts inside the source, the library whenever
the source does not lie above the destination. Memory is a function of the
address, and pointers are 64-bit.
-/

namespace Xv6.Lib

variable {m : ℕ → UInt8} {dst src : ℕ}

/-! ## The two loops -/

/-- `++p`. -/
def after (p : ℕ) : ℕ := (p + 1) % 2 ^ 64

/-- `--p`. -/
def before (p : ℕ) : ℕ := if p = 0 then 2 ^ 64 - 1 else p - 1

/-- `while(n-- > 0) *d++ = *s++;` -/
def copyUp : ℕ → (ℕ → UInt8) → ℕ → ℕ → ℕ → UInt8
  | 0, m, _, _ => m
  | n + 1, m, d, s =>
      copyUp n (Function.update m d (m s)) (after d) (after s)

/-- `while(n-- > 0) *--d = *--s;` -/
def copyDown : ℕ → (ℕ → UInt8) → ℕ → ℕ → ℕ → UInt8
  | 0, m, _, _ => m
  | n + 1, m, d, s =>
      copyDown n (Function.update m (before d) (m (before s))) (before d)
        (before s)

namespace Kernel

/-- `memmove(dst, src, n)` of the kernel. -/
def memmove (m : ℕ → UInt8) (dst src : ℕ) (n : UInt32) : ℕ → UInt8 :=
  if n = 0 then m
  else if src < dst ∧ dst < (src + n.toNat) % 2 ^ 64 then
    copyDown n.toNat m ((dst + n.toNat) % 2 ^ 64) ((src + n.toNat) % 2 ^ 64)
  else copyUp n.toNat m dst src

end Kernel

namespace User

/-- `p + n` for a pointer and an `int`. -/
def advance (p : ℕ) (n : Int32) : ℕ := ((p + n.toInt) % 2 ^ 64).toNat

/-- `memmove(vdst, vsrc, n)` of the user library. A negative `n` goes through
the loop no time. -/
def memmove (m : ℕ → UInt8) (dst src : ℕ) (n : Int32) : ℕ → UInt8 :=
  if dst < src then copyUp n.toInt.toNat m dst src
  else copyDown n.toInt.toNat m (advance dst n) (advance src n)

end User

/-! ## What a copy is -/

/-- The memory after `n` bytes have been copied as if at once. -/
def moved (m : ℕ → UInt8) (dst src n : ℕ) : ℕ → UInt8 := fun a =>
  if dst ≤ a ∧ a < dst + n then m (src + (a - dst)) else m a

variable {n : ℕ}

/-- The first byte is copied first, and the rest lies where it was. -/
theorem moved_update_first (hup : dst ≤ src ∨ src + (n + 1) ≤ dst) :
    moved (Function.update m dst (m src)) (dst + 1) (src + 1) n =
      moved m dst src (n + 1) := by
  funext a
  unfold moved
  by_cases hin : dst + 1 ≤ a ∧ a < dst + 1 + n
  · rw [if_pos hin, if_pos (by omega), Function.update_of_ne (by omega)]
    congr 1
    omega
  · rw [if_neg hin]
    by_cases ha : a = dst
    · rw [ha, Function.update_self, if_pos (by omega), Nat.sub_self,
        Nat.add_zero]
    · rw [Function.update_of_ne ha, if_neg (by omega)]

/-- The last byte is copied first. -/
theorem moved_update_last (hdown : src ≤ dst ∨ dst + (n + 1) ≤ src) :
    moved (Function.update m (dst + n) (m (src + n))) dst src n =
      moved m dst src (n + 1) := by
  funext a
  unfold moved
  by_cases hin : dst ≤ a ∧ a < dst + n
  · rw [if_pos hin, if_pos (by omega), Function.update_of_ne (by omega)]
  · rw [if_neg hin]
    by_cases ha : a = dst + n
    · rw [ha, Function.update_self, if_pos (by omega),
        Nat.add_sub_cancel_left]
    · rw [Function.update_of_ne ha, if_neg (by omega)]

theorem moved_zero (m : ℕ → UInt8) (dst src : ℕ) : moved m dst src 0 = m := by
  funext a
  exact if_neg (by omega)

theorem after_eq {p : ℕ} (h : p + 1 < 2 ^ 64) : after p = p + 1 :=
  Nat.mod_eq_of_lt h

theorem before_eq {p : ℕ} (h : p + (n + 1) ≤ 2 ^ 64) :
    before ((p + (n + 1)) % 2 ^ 64) = p + n := by
  unfold before
  split
  · omega
  · omega

/-- The loop that goes up is right unless the destination starts inside the
source. -/
theorem copyUp_eq (hdst : dst + n ≤ 2 ^ 64) (hsrc : src + n ≤ 2 ^ 64)
    (hup : dst ≤ src ∨ src + n ≤ dst) :
    copyUp n m dst src = moved m dst src n := by
  induction n generalizing m dst src with
  | zero => exact (moved_zero m dst src).symm
  | succ n ih =>
    rw [copyUp, ← moved_update_first hup]
    rcases Nat.eq_zero_or_pos n with rfl | hpos
    · -- the pointers may have wrapped, but they are not used any more
      rw [copyUp, moved_zero]
    · rw [after_eq (by omega), after_eq (by omega)]
      exact ih (by omega) (by omega) (by omega)

/-- The loop that goes down is right unless the source starts inside the
destination. -/
theorem copyDown_eq (hdst : dst + n ≤ 2 ^ 64) (hsrc : src + n ≤ 2 ^ 64)
    (hdown : src ≤ dst ∨ dst + n ≤ src) :
    copyDown n m ((dst + n) % 2 ^ 64) ((src + n) % 2 ^ 64) =
      moved m dst src n := by
  induction n generalizing m with
  | zero => exact (moved_zero m dst src).symm
  | succ n ih =>
    have hlow : ∀ p, p + (n + 1) ≤ 2 ^ 64 → p + n = (p + n) % 2 ^ 64 :=
      fun p hp => (Nat.mod_eq_of_lt (by omega)).symm
    rw [copyDown, before_eq hdst, before_eq hsrc]
    refine Eq.trans ?_ (moved_update_last hdown)
    rw [← ih (by omega) (by omega) (by omega), ← hlow dst hdst,
      ← hlow src hsrc]

/-! ## The two functions -/

theorem Kernel.memmove_eq {n : UInt32} (hdst : dst + n.toNat ≤ 2 ^ 64)
    (hsrc : src + n.toNat ≤ 2 ^ 64) :
    Kernel.memmove m dst src n = moved m dst src n.toNat := by
  unfold Kernel.memmove
  split
  · rename_i hzero
    rw [hzero]
    exact (moved_zero m dst src).symm
  split
  · rename_i hin
    exact copyDown_eq hdst hsrc (Or.inl (Nat.le_of_lt hin.1))
  · rename_i hne hout
    refine copyUp_eq hdst hsrc ?_
    by_contra hover
    -- a source below the destination that reaches into it does not wrap
    refine hout ⟨by omega, ?_⟩
    rw [Nat.mod_eq_of_lt (by omega)]
    omega

theorem User.memmove_eq {n : Int32} (hn : 0 ≤ n.toInt)
    (hdst : dst + n.toInt.toNat ≤ 2 ^ 64)
    (hsrc : src + n.toInt.toNat ≤ 2 ^ 64) :
    User.memmove m dst src n = moved m dst src n.toInt.toNat := by
  have hadvance : ∀ p, User.advance p n = (p + n.toInt.toNat) % 2 ^ 64 := by
    intro p
    unfold User.advance
    omega
  unfold User.memmove
  split
  · rename_i hlt
    exact copyUp_eq hdst hsrc (Or.inl (Nat.le_of_lt hlt))
  · rename_i hge
    rw [hadvance, hadvance]
    exact copyDown_eq hdst hsrc (Or.inl (Nat.not_lt.mp hge))

/-- **Both copy as if at once**, whatever the overlap, and so they agree. -/
theorem memmoves_agree {n : ℕ} (hn : n < 2 ^ 31) (hdst : dst + n ≤ 2 ^ 64)
    (hsrc : src + n ≤ 2 ^ 64) (m : ℕ → UInt8) :
    (∀ i < n, Kernel.memmove m dst src (UInt32.ofNat n) (dst + i) =
      m (src + i)) ∧
    (∀ a, (a < dst ∨ dst + n ≤ a) →
      Kernel.memmove m dst src (UInt32.ofNat n) a = m a) ∧
    User.memmove m dst src (Int32.ofNat n) =
      Kernel.memmove m dst src (UInt32.ofNat n) := by
  have huint : (UInt32.ofNat n).toNat = n :=
    UInt32.toNat_ofNat_of_lt' (show n < 2 ^ 32 by omega)
  have hint : (Int32.ofNat n).toInt.toNat = n := by
    rw [Int32.toInt_ofNat_of_lt hn]
    rfl
  have hkernel := @Kernel.memmove_eq m dst src (UInt32.ofNat n)
    (by rwa [huint]) (by rwa [huint])
  have huser := @User.memmove_eq m dst src (Int32.ofNat n)
    (by rw [Int32.toInt_ofNat_of_lt hn]; exact Int.natCast_nonneg n)
    (by rwa [hint]) (by rwa [hint])
  rw [huint] at hkernel
  rw [hint] at huser
  refine ⟨fun i hi => ?_, fun a ha => ?_, ?_⟩
  · rw [hkernel, moved, if_pos ⟨Nat.le_add_right dst i, by omega⟩,
      Nat.add_sub_cancel_left]
  · rw [hkernel, moved, if_neg (by omega)]
  · rw [hkernel, huser]

/-- Four bytes are moved up by two. -/
theorem memmoves_agree_overlap :
    (∀ i < 4, Kernel.memmove UInt8.ofNat 102 100 (UInt32.ofNat 4) (102 + i) =
      UInt8.ofNat (100 + i)) ∧
    (∀ a, (a < 102 ∨ 102 + 4 ≤ a) →
      Kernel.memmove UInt8.ofNat 102 100 (UInt32.ofNat 4) a =
        UInt8.ofNat a) ∧
    User.memmove UInt8.ofNat 102 100 (Int32.ofNat 4) =
      Kernel.memmove UInt8.ofNat 102 100 (UInt32.ofNat 4) :=
  memmoves_agree (by decide) (by decide) (by decide) UInt8.ofNat

end Xv6.Lib
