import Mathlib

/-!
# Words, addresses and frames (`kernel/riscv.h`, `kernel/memlayout.h`)

A `uint64` is a natural number and arithmetic on it is taken modulo `2 ^ 64`
where the C code could wrap; an `int` is an integer, brought back into range
by `toInt32`. Physical RAM is the 128 MB from `KERNBASE` to `PHYSTOP`, so a
frame is a number below 32768.
-/

namespace Xv6.Vm

/-! ## Constants -/

def PGSIZE : ℕ := 4096

def MAXVA : ℕ := 2 ^ 38

def TRAMPOLINE : ℕ := MAXVA - PGSIZE

def TRAPFRAME : ℕ := TRAMPOLINE - PGSIZE

def KERNBASE : ℕ := 0x80000000

def PHYSTOP : ℕ := KERNBASE + 128 * 1024 * 1024

/-- The linker's `end`, as `kernel.sym` records it: RAM below it is kernel
text and data and never on the free list. -/
def kernelEnd : ℕ := 0x8002cdf8

/-! ## Machine integers -/

/-- What a `uint64` variable holds after the assignment of `x`. -/
def toUint64 (x : ℤ) : ℕ := (x % 2 ^ 64).toNat

/-- What a `uint` variable holds after the assignment of `x`. -/
def toUint32 (x : ℤ) : ℕ := (x % 2 ^ 32).toNat

/-- What an `int` variable holds after the assignment of `x`. -/
def toInt32 (x : ℤ) : ℤ :=
  if x % 2 ^ 32 < 2 ^ 31 then x % 2 ^ 32 else x % 2 ^ 32 - 2 ^ 32

/-- `-1` as a `uint64`. -/
def negOne : ℕ := 2 ^ 64 - 1

/-! ## Pages -/

/-- `PGROUNDUP` of a `uint64`. -/
def pgroundup (x : ℕ) : ℕ := (x + PGSIZE - 1) % 2 ^ 64 / PGSIZE * PGSIZE

/-- `PGROUNDDOWN` of a `uint64`. -/
def pgrounddown (x : ℕ) : ℕ := x / PGSIZE * PGSIZE

/-- `PGROUNDUP` of an `int`: the sum is a 32-bit `addw`, and clearing the low
bits of a negative number rounds towards minus infinity. -/
def pgroundupInt (x : ℤ) : ℤ := toInt32 (x + PGSIZE - 1) / PGSIZE * PGSIZE

theorem pgrounddown_le (x : ℕ) : pgrounddown x ≤ x := Nat.div_mul_le_self ..

theorem pgrounddown_mod (x : ℕ) : pgrounddown x % PGSIZE = 0 :=
  Nat.mul_mod_left ..

theorem lt_pgrounddown_add (x : ℕ) : x < pgrounddown x + PGSIZE := by
  unfold pgrounddown PGSIZE
  omega

variable {x : ℕ}

theorem pgrounddown_of_mod (h : x % PGSIZE = 0) :
    pgrounddown x = x := Nat.div_mul_cancel (Nat.dvd_of_mod_eq_zero h)

variable {b : ℕ}

/-- A page lies on one side of an aligned address. -/
theorem pgrounddown_lt_iff (hb : b % PGSIZE = 0) :
    pgrounddown x < b ↔ x < b := by
  unfold pgrounddown PGSIZE at *
  omega

theorem le_pgrounddown_iff (hb : b % PGSIZE = 0) :
    b ≤ pgrounddown x ↔ b ≤ x := by
  unfold pgrounddown PGSIZE at *
  omega

theorem pgroundup_mod (x : ℕ) : pgroundup x % PGSIZE = 0 :=
  Nat.mul_mod_left ..

theorem le_pgroundup (h : x < 2 ^ 63) : x ≤ pgroundup x := by
  unfold pgroundup PGSIZE
  omega

theorem pgroundup_lt (h : x < 2 ^ 63) : pgroundup x < x + PGSIZE := by
  unfold pgroundup PGSIZE
  omega

theorem pgroundup_of_mod (h : x < 2 ^ 63) (hx : x % PGSIZE = 0) :
    pgroundup x = x := by
  unfold pgroundup PGSIZE at *
  omega

theorem pgroundup_le_iff (hx : x < 2 ^ 63) (hb : b % PGSIZE = 0) :
    pgroundup x ≤ b ↔ x ≤ b := by
  unfold pgroundup PGSIZE at *
  omega

/-- An address lies below the rounded size when its page starts below the
size. -/
theorem lt_pgroundup_iff {sz : ℕ} (h : sz < 2 ^ 63) :
    x < pgroundup sz ↔ pgrounddown x < sz := by
  unfold pgroundup pgrounddown PGSIZE
  omega

theorem toUint64_toInt32 {n : ℕ} (h : n < 2 ^ 31) :
    toUint64 (toInt32 n) = n := by
  unfold toUint64 toInt32
  rw [if_pos (by omega)]
  omega

theorem TRAPFRAME_mod : TRAPFRAME % PGSIZE = 0 := by decide

theorem TRAPFRAME_lt_MAXVA : TRAPFRAME < MAXVA := by decide

/-! ## Frames -/

/-- A page of RAM. -/
abbrev Frame : Type := Fin 32768

instance Frame.neZero : NeZero 32768 := ⟨by decide⟩

namespace Frame

def pa (f : Frame) : ℕ := KERNBASE + f.val * PGSIZE

/-- The free list may hold it: it lies past the kernel image. -/
def Usable (f : Frame) : Prop := kernelEnd ≤ f.pa

instance (f : Frame) : Decidable f.Usable :=
  inferInstanceAs (Decidable (kernelEnd ≤ f.pa))

/-- The page of RAM at a physical address. -/
def ofPa (p : ℕ) : Frame := Fin.ofNat 32768 ((p - KERNBASE) / PGSIZE)

theorem pa_ofPa {p : ℕ} (hp : p % PGSIZE = 0) (hlo : KERNBASE ≤ p)
    (hhi : p < PHYSTOP) : (ofPa p).pa = p := by
  rw [pa, ofPa, Fin.val_ofNat]
  unfold PHYSTOP KERNBASE PGSIZE at *
  omega

theorem pa_ne_zero (f : Frame) : f.pa ≠ 0 := by
  unfold pa KERNBASE
  omega

theorem KERNBASE_le_pa (f : Frame) : KERNBASE ≤ f.pa := Nat.le_add_right ..

theorem pa_add_le (f : Frame) : f.pa + PGSIZE ≤ PHYSTOP := by
  have := f.isLt
  unfold pa PHYSTOP PGSIZE KERNBASE
  omega

end Frame

/-- `PX(level, va)`. -/
def px (level va : ℕ) : Fin 512 :=
  ⟨va / 2 ^ (12 + 9 * level) % 512, Nat.mod_lt _ (by decide)⟩

variable {va : ℕ}

/-- The three indices of an address below `MAXVA` determine its page. -/
theorem px_inj {vb : ℕ} (ha : va < MAXVA) (hb : vb < MAXVA)
    (h : (px 2 va, px 1 va, px 0 va) = (px 2 vb, px 1 vb, px 0 vb)) :
    pgrounddown va = pgrounddown vb := by
  simp only [Prod.mk.injEq, px, Fin.mk.injEq] at h
  unfold MAXVA at ha hb
  unfold pgrounddown PGSIZE
  omega

theorem px_congr {vb : ℕ} (h : pgrounddown va = pgrounddown vb) (level : ℕ) :
    px level va = px level vb := by
  have hpage : va / 4096 = vb / 4096 := by
    unfold pgrounddown PGSIZE at h
    omega
  have hsplit : ∀ v : ℕ, v / 2 ^ (12 + 9 * level) =
      v / 4096 / 2 ^ (9 * level) := by
    intro v
    rw [Nat.div_div_eq_div_mul, Nat.pow_add]
  simp only [px, hsplit, hpage]

/-- Below `MAXVA` the root index stays in the lower half. -/
theorem px_two_lt (h : va < MAXVA) : (px 2 va).val < 256 := by
  unfold MAXVA at h
  simp only [px]
  omega

/-- Every index triple in the lower half belongs to an address. -/
theorem exists_px {i : Fin 512} (hi : i.val < 256) (j k : Fin 512) :
    ∃ va < MAXVA, px 2 va = i ∧ px 1 va = j ∧ px 0 va = k := by
  refine ⟨i.val * 2 ^ 30 + j.val * 2 ^ 21 + k.val * 2 ^ 12, ?_, ?_, ?_, ?_⟩
  · unfold MAXVA
    omega
  · ext
    simp only [px]
    omega
  · ext
    simp only [px]
    omega
  · ext
    simp only [px]
    omega

end Xv6.Vm
