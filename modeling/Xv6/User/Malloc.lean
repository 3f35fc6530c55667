import Xv6.Framework.Run
import Xv6.Framework.SortedRing
import Mathlib

/-!
# The heap allocator of user programs (`user/umalloc.c`)

The free list is a circular list of blocks, each with a header in front that
holds the link and the size in units of a header. `malloc` takes the first
block that is large enough, `free` puts a block back at its place between two
others and joins it with its neighbours, and `morecore` asks `sbrk` for memory
when a search has come round without success.

Addresses are those of the process; the loops have a bound on their rounds.
-/

namespace Xv6.Malloc

/-- `sizeof(Header)`. -/
def headerSize : ℕ := 16

structure State where
  /-- `p->s.ptr` of the header at `p`. -/
  ptr : ℕ → ℕ
  /-- `p->s.size`. -/
  size : ℕ → ℕ
  /-- The null pointer is 0. -/
  freep : ℕ
  /-- `p->sz` of the process. -/
  sz : ℕ
  /-- The regions that `sbrk` has granted to `morecore`, with their lengths. -/
  regions : List (ℕ × ℕ)
  /-- The byte counts of `morecore`, with what `sbrk` got. -/
  calls : List (ℕ × ℤ)

namespace State

/-- The byte is memory of the process that `sbrk` granted. -/
def Granted (s : State) (x : ℕ) : Prop :=
  x < s.sz ∧ ∃ r ∈ s.regions, r.1 ≤ x ∧ x < r.1 + r.2

theorem granted_congr {s t : State} (hsz : t.sz = s.sz)
    (hregions : t.regions = s.regions) : t.Granted = s.Granted := by
  funext x
  rw [Granted, hsz, hregions, Granted]

/-- The addresses of a block, its header included. -/
def block (s : State) (p : ℕ) : Set ℕ :=
  Set.Ico p (p + headerSize * s.size p)

def setPtr (s : State) (p q : ℕ) : State :=
  { s with ptr := Function.update s.ptr p q }

/-- `size` is a `uint`. -/
def setSize (s : State) (p n : ℕ) : State :=
  { s with size := Function.update s.size p (n % 2 ^ 32) }

theorem ptr_setPtr_self (s : State) (p q : ℕ) : (s.setPtr p q).ptr p = q :=
  Function.update_self ..

theorem ptr_setPtr_of_ne (s : State) {p r : ℕ} (q : ℕ) (h : r ≠ p) :
    (s.setPtr p q).ptr r = s.ptr r :=
  Function.update_of_ne h ..

theorem size_setSize_self (s : State) (p n : ℕ) :
    (s.setSize p n).size p = n % 2 ^ 32 :=
  Function.update_self ..

theorem size_setSize_of_ne (s : State) {p r : ℕ} (n : ℕ) (h : r ≠ p) :
    (s.setSize p n).size r = s.size r :=
  Function.update_of_ne h ..

/-! ## Giving a block back -/

/-- The loop of `free`. -/
def freeLoop (s : State) (bp : ℕ) : ℕ → ℕ → Option ℕ
  | 0, _ => none
  | fuel + 1, p =>
      if p < bp ∧ bp < s.ptr p then some p
      else if s.ptr p ≤ p ∧ (p < bp ∨ bp < s.ptr p) then some p
      else freeLoop s bp fuel (s.ptr p)

/-- Join to upper neighbour. -/
def joinUpper (s : State) (bp p : ℕ) : State :=
  if bp + headerSize * s.size bp = s.ptr p then
    (s.setSize bp (s.size bp + s.size (s.ptr p))).setPtr bp (s.ptr (s.ptr p))
  else s.setPtr bp (s.ptr p)

/-- Join to lower neighbour. -/
def joinLower (s : State) (bp p : ℕ) : State :=
  if p + headerSize * s.size p = bp then
    (s.setSize p (s.size p + s.size bp)).setPtr p (s.ptr bp)
  else s.setPtr p bp

def free (fuel : ℕ) (s : State) (ap : ℕ) : Option State :=
  let bp := ap - headerSize
  (s.freeLoop bp fuel s.freep).map fun p =>
    { (s.joinUpper bp p).joinLower bp p with freep := p }

/-! ## Memory from the kernel -/

/-- What an `int` keeps of a number. -/
def toInt (n : ℕ) : ℤ := (n : ℤ).bmod (2 ^ 32)

/-- `sys_sbrk(n, SBRK_EAGER)`, that is `growproc(n)`; `room` says whether
`uvmalloc` finds the pages. The sum is taken in 64 bits. -/
def sbrk (mmapBase : ℕ) (room : Bool) (s : State) (n : ℤ) :
    State × Option ℕ :=
  if (mmapBase : ℤ) ≤ (s.sz + n) % 2 ^ 64 then (s, none)
  else if 0 < n then
    if room then
      ({ s with sz := s.sz + n.toNat, regions := (s.sz, n.toNat) :: s.regions },
        some s.sz)
    else (s, none)
  else ({ s with sz := (s.sz + n).toNat }, some s.sz)

/-- `if(nu < 4096) nu = 4096;` -/
def moreUnits (nu : ℕ) : ℕ := if nu < 4096 then 4096 else nu

/-- The new region becomes a block and is freed. -/
def addRegion (fuel nu : ℕ) : State × Option ℕ → Option (State × ℕ)
  | (s, none) => some (s, 0)
  | (s, some hp) =>
      ((s.setSize hp nu).free fuel (hp + headerSize)).map fun s => (s, s.freep)

def noteCall (s : State) (nu : ℕ) : State :=
  { s with calls := (nu * headerSize, toInt (nu * headerSize)) :: s.calls }

variable (base mmapBase : ℕ) (room : Bool)

/-- `morecore`; the address is 0 when there is no memory. -/
def morecore (fuel : ℕ) (s : State) (nu : ℕ) : Option (State × ℕ) :=
  let nu := moreUnits nu
  addRegion fuel nu
    ((s.noteCall nu).sbrk mmapBase room (toInt (nu * headerSize)))

/-! ## Taking a block -/

/-- `nunits`: computed in 64 bits and kept in a `uint`. -/
def nunits (nbytes : ℕ) : ℕ :=
  ((nbytes + headerSize - 1) / headerSize + 1) % 2 ^ 32

/-- A block is large enough: it is taken as a whole, or its upper end is. -/
def take (s : State) (prevp p n : ℕ) : State × ℕ :=
  if s.size p = n then
    ({ s.setPtr prevp (s.ptr p) with freep := prevp }, p + headerSize)
  else
    let rest := s.size p - n
    let q := p + headerSize * rest
    ({ (s.setSize p rest).setSize q n with freep := prevp }, q + headerSize)

/-- The loop of `malloc`. -/
def mallocLoop (n : ℕ) : ℕ → State → ℕ → ℕ → Option (State × ℕ)
  | 0, _, _, _ => none
  | fuel + 1, s, prevp, p =>
      if n ≤ s.size p then some (s.take prevp p n)
      else if p = s.freep then
        (s.morecore mmapBase room fuel n).bind fun r =>
          if r.2 = 0 then some (r.1, 0)
          else mallocLoop n fuel r.1 r.2 (r.1.ptr r.2)
      else mallocLoop n fuel s p (s.ptr p)

/-- The first call makes a list of `base` alone. -/
def start (s : State) : State :=
  if s.freep = 0 then
    { (s.setPtr base base).setSize base 0 with freep := base }
  else s

def malloc (fuel : ℕ) (s : State) (nbytes : ℕ) : Option (State × ℕ) :=
  let s := s.start base
  s.mallocLoop mmapBase room (nunits nbytes) fuel s.freep (s.ptr s.freep)

end State

end Xv6.Malloc
