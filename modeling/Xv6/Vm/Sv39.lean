import Xv6.Framework.MemTree
import Xv6.Vm.Riscv

/-!
# Page tables as words in memory (`kernel/vm.c`, `kernel/riscv.h`)

The functions on page tables once more, now on the 64-bit words of physical
memory that the MMU reads: an interior PTE is a word from which the address of
the next page is computed, and nothing but the words says what a tree is.
-/

namespace Xv6.Vm.Sv39

open Framework

/-! ## PTEs -/

def PTE_V : UInt64 := 1
def PTE_R : UInt64 := 2
def PTE_W : UInt64 := 4
def PTE_X : UInt64 := 8
def PTE_U : UInt64 := 16

/-- `PA2PTE(pa)`. -/
def pa2pte (pa : UInt64) : UInt64 := (pa >>> 12) <<< 10

/-- `PTE2PA(pte)`. -/
def pte2pa (pte : UInt64) : UInt64 := (pte >>> 10) <<< 12

/-- `PA2PTE(pa) | perm | PTE_V`; `perm` is an `int`. -/
def mkPte (pa : UInt64) (perm : Int32) : UInt64 :=
  pa2pte pa ||| perm.toInt64.toUInt64 ||| PTE_V

/-- Where an interior PTE points. -/
def next (pte : UInt64) : Option UInt64 :=
  if pte &&& PTE_V = 0 then none else some (pte2pa pte)

/-! ## Physical memory -/

inductive Stop
  /-- `panic("walk")`. -/
  | walk
  /-- `panic("mappages: va not aligned")`. -/
  | vaNotAligned
  /-- `panic("mappages: size not aligned")`. -/
  | sizeNotAligned
  /-- `panic("mappages: size")`. -/
  | size
  /-- `panic("mappages: remap")`. -/
  | remap
  /-- `panic("uvmunmap: not aligned")`. -/
  | notAligned
  /-- `panic("kfree")`. -/
  | kfree
deriving DecidableEq, Repr

/-- The words of each page, by the page's address, and `kmem.freelist`. -/
structure Phys where
  page : UInt64 → Fin 512 → UInt64
  freelist : List UInt64

namespace Phys

/-- `memset(p, c, PGSIZE)`. -/
def memset (m : Phys) (p : UInt64) (c : UInt8) : Phys :=
  { m with
    page := Function.update m.page p fun _ =>
      c.toUInt64 * 0x0101010101010101 }

/-- `p[i] = w`. -/
def store (m : Phys) (p : UInt64) (i : Fin 512) (w : UInt64) : Phys :=
  { m with page := MemTree.put m.page p i w }

end Phys

def kalloc (m : Phys) : Option (UInt64 × Phys) :=
  match m.freelist with
  | [] => none
  | r :: rest => some (r, { m with freelist := rest }.memset r 5)

/-- `kfree`; the first word of a free page links to the next one. -/
def kfree (m : Phys) (pa : UInt64) : Except Stop Phys :=
  if pa.toNat % PGSIZE ≠ 0 ∨ pa.toNat < kernelEnd ∨ PHYSTOP ≤ pa.toNat then
    .error .kfree
  else
    .ok { (m.memset pa 1).store pa 0 (m.freelist.headD 0) with
      freelist := pa :: m.freelist }

/-! ## `walk` -/

/-- The loop of `walk`, from a level down. -/
def walkFrom (alloc : Bool) (va : UInt64) :
    ℕ → Phys → UInt64 → Phys × Option (UInt64 × Fin 512)
  | 0, m, pagetable => (m, some (pagetable, px 0 va.toNat))
  | level + 1, m, pagetable =>
      let i := px (level + 1) va.toNat
      match next (m.page pagetable i) with
      | some p => walkFrom alloc va level m p
      | none =>
          if alloc then
            match kalloc m with
            | none => (m, none)
            | some (p, m) =>
                walkFrom alloc va level
                  ((m.memset p 0).store pagetable i (pa2pte p ||| PTE_V)) p
          else (m, none)

/-- `walk`: the page and the index of the PTE. -/
def walk (alloc : Bool) (m : Phys) (pagetable va : UInt64) :
    Except Stop (Phys × Option (UInt64 × Fin 512)) :=
  if MAXVA ≤ va.toNat then .error .walk
  else .ok (walkFrom alloc va 2 m pagetable)

def walkaddr (m : Phys) (pagetable va : UInt64) : Except Stop UInt64 :=
  if MAXVA ≤ va.toNat then .ok 0
  else
    match walk false m pagetable va with
    | .error e => .error e
    | .ok (_, none) => .ok 0
    | .ok (m, some (p, i)) =>
        let pte := m.page p i
        if pte &&& PTE_V = 0 then .ok 0
        else if pte &&& PTE_U = 0 then .ok 0
        else .ok (pte2pa pte)

/-! ## `mappages` and `uvmunmap` -/

/-- The loop of `mappages`, with the number of rounds to go. -/
def mapLoop (pagetable : UInt64) (perm : Int32) :
    ℕ → Phys → (a pa : UInt64) → Except Stop (Phys × Int32)
  | 0, m, _, _ => .ok (m, 0)
  | n + 1, m, a, pa =>
      match walk true m pagetable a with
      | .error e => .error e
      | .ok (m, none) => .ok (m, -1)
      | .ok (m, some (p, i)) =>
          if m.page p i &&& PTE_V ≠ 0 then .error .remap
          else mapLoop pagetable perm n (m.store p i (mkPte pa perm))
            (a + 4096) (pa + 4096)

/-- `mappages`; `a` is `last` in round `size / PGSIZE`. -/
def mappages (m : Phys) (pagetable va size pa : UInt64) (perm : Int32) :
    Except Stop (Phys × Int32) :=
  if va.toNat % PGSIZE ≠ 0 then .error .vaNotAligned
  else if size.toNat % PGSIZE ≠ 0 then .error .sizeNotAligned
  else if size = 0 then .error .size
  else mapLoop pagetable perm (size.toNat / PGSIZE) m va pa

/-- The loop of `uvmunmap`, with the number of rounds to go. -/
def unmapLoop (pagetable : UInt64) (doFree : Bool) :
    ℕ → Phys → (a : UInt64) → Except Stop Phys
  | 0, m, _ => .ok m
  | n + 1, m, a =>
      match walk false m pagetable a with
      | .error e => .error e
      | .ok (m, none) => unmapLoop pagetable doFree n m (a + 4096)
      | .ok (m, some (p, i)) =>
          let pte := m.page p i
          if pte &&& PTE_V = 0 then unmapLoop pagetable doFree n m (a + 4096)
          else
            match if doFree then kfree m (pte2pa pte) else .ok m with
            | .error e => .error e
            | .ok m => unmapLoop pagetable doFree n (m.store p i 0) (a + 4096)

/-- `uvmunmap`; the loop ends when `a` is no longer below
`va + npages*PGSIZE`, and `walk` panics before `a` could overflow. -/
def uvmunmap (m : Phys) (pagetable va npages : UInt64) (doFree : Bool) :
    Except Stop Phys :=
  if va.toNat % PGSIZE ≠ 0 then .error .notAligned
  else unmapLoop pagetable doFree
    (((va + npages * 4096).toNat - va.toNat) / PGSIZE) m va

/-! ## Translation -/

/-- The PTE at which the MMU stops, from a level down; 0 where it finds an
entry that is not valid. -/
def translate (m : Phys) (va : ℕ) : ℕ → UInt64 → UInt64
  | 0, p => m.page p (px 0 va)
  | level + 1, p =>
      let pte := m.page p (px (level + 1) va)
      if pte &&& PTE_V = 0 then 0
      else if pte &&& (PTE_R ||| PTE_W ||| PTE_X) ≠ 0 then pte
      else translate m va level (pte2pa pte)

def lookup (m : Phys) (pagetable : UInt64) (va : ℕ) : UInt64 :=
  translate m va 2 pagetable

/-- The interior entries of a tree of the given height are pointers, to pages
that are all different and not free. -/
structure Tree (m : Phys) (level : ℕ) (p : UInt64) : Prop where
  nodup : (MemTree.pages next m.page level p ++ m.freelist).Nodup
  pointers : MemTree.Pointers next
    (· &&& (PTE_R ||| PTE_W ||| PTE_X) = 0) m.page level p
  aligned : ∀ q ∈ m.freelist, q.toNat % PGSIZE = 0

end Xv6.Vm.Sv39
