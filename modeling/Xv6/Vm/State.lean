import Mathlib.Logic.Function.Basic
import Xv6.Vm.PageTable

/-!
# Kernel state (`kernel/proc.h`, `kernel/file.h`, `kernel/pipe.c`)

The part of the kernel that the memory of one process depends on: the
allocator and RAM, the open-file table, the inode table, the pipes, the number
of free disk blocks and the process itself. Pointers into the tables are
indices. An inode entry stands for the file it caches: its bytes and its size
are those on disk, since a cached inode is written through by `iupdate`.
-/

namespace Xv6.Vm

/-! ## Constants (`kernel/param.h`, `kernel/fs.h`, `kernel/fcntl.h`) -/

def NOFILE : ℕ := 16

def NFILE : ℕ := 100

def NINODE : ℕ := 50

def NVMA : ℕ := 16

instance : NeZero NOFILE := ⟨by decide⟩

instance : NeZero NFILE := ⟨by decide⟩

instance : NeZero NINODE := ⟨by decide⟩

instance : NeZero NVMA := ⟨by decide⟩

def MAXOPBLOCKS : ℕ := 10

def BSIZE : ℕ := 1024

def NDIRECT : ℕ := 12

def NINDIRECT : ℕ := 256

def MAXFILE : ℕ := NDIRECT + NINDIRECT

def PROT_READ : Int32 := 0x1

def PROT_WRITE : Int32 := 0x2

def PROT_EXEC : Int32 := 0x4

def MAP_SHARED : Int32 := 0x01

/-! ## Files -/

abbrev FileId : Type := Fin NFILE

abbrev InodeId : Type := Fin NINODE

inductive FileType
  | none
  | pipe
  | inode
  | device
deriving DecidableEq, Repr

/-- `struct file`; `pipe` and `ip` keep what an earlier use of the entry left
in them. -/
structure File where
  type : FileType := .none
  ref : ℕ := 0
  readable : Bool := false
  writable : Bool := false
  pipe : Frame := 0
  ip : Option InodeId := none

theorem fd_lt {fd : Int32} (h : 0 ≤ fd.toInt ∧ fd.toInt < NOFILE) :
    fd.toInt.toNat < NOFILE := by
  omega

/-- The two flags of `struct pipe`, which lives in a frame of its own. -/
structure Pipe where
  readopen : Bool := false
  writeopen : Bool := false

/-- A file without blocks holds nothing. -/
theorem Inode.empty_size_le : 0 ≤ 0 * BSIZE := Nat.zero_le _

theorem Inode.empty_blocks_le : 0 ≤ MAXFILE := Nat.zero_le _

/-- `struct inode` with the file behind it. The allocated data blocks are the
first `blocks` ones, `indirect` says whether the indirect block exists, and
no byte of the file lies past the allocated blocks. -/
structure Inode where
  type : ℕ := 0
  nlink : ℕ := 0
  ref : ℕ := 0
  size : ℕ := 0
  byte : ℕ → UInt8 := fun _ => 0
  blocks : ℕ := 0
  indirect : Bool := false
  size_le : size ≤ blocks * BSIZE := by
    first | exact Inode.empty_size_le | decide
  blocks_le : blocks ≤ MAXFILE := by
    first | exact Inode.empty_blocks_le | decide

theorem Inode.size_lt (ip : Inode) : ip.size < 2 ^ 31 := by
  have h₁ := ip.size_le
  have h₂ := Nat.mul_le_mul_right BSIZE ip.blocks_le
  unfold MAXFILE NDIRECT NINDIRECT BSIZE at *
  omega

/-! ## The process -/

/-- `struct VMA`; the fields of a slot that is not valid are never read. -/
structure VMA where
  valid : Bool := false
  start : ℕ := 0
  end_ : ℕ := 0
  prot : Int32 := 0
  flags : Int32 := 0
  f : FileId := 0
  offset : Int32 := 0
deriving DecidableEq

namespace VMA

/-- `prot & PROT_READ`, `prot & PROT_WRITE`, `prot & PROT_EXEC`. -/
def allows (v : VMA) (bit : Int32) : Bool := decide (v.prot &&& bit ≠ 0)

/-- `flags & MAP_SHARED`. -/
def shared (v : VMA) : Bool := decide (v.flags &&& MAP_SHARED ≠ 0)

/-- The permission bits that `vmfault` gives a page of the mapping. -/
def perm (v : VMA) : Perm where
  r := v.allows PROT_READ
  w := v.allows PROT_WRITE
  x := v.allows PROT_EXEC
  u := true

/-- The address belongs to the mapping. -/
def Mem (v : VMA) (va : ℕ) : Prop := v.valid = true ∧ v.start ≤ va ∧ va < v.end_

instance (v : VMA) (va : ℕ) : Decidable (v.Mem va) :=
  inferInstanceAs (Decidable (_ ∧ _))

/-- The test of the loop of `sys_munmap`. -/
def Hit (v : VMA) (addr stop : ℕ) : Prop :=
  v.valid = true ∧ addr < v.end_ ∧ v.start < stop

instance (v : VMA) (addr stop : ℕ) : Decidable (v.Hit addr stop) :=
  inferInstanceAs (Decidable (_ ∧ _))

end VMA

abbrev VMAs : Type := Fin NVMA → VMA

inductive ProcState
  | running
  | zombie
deriving DecidableEq, Repr

/-- `struct proc`, the fields that memory management and exit use. -/
structure Proc where
  state : ProcState := .running
  killed : Bool := false
  sz : ℕ
  pagetable : PageTable
  trapframe : Frame
  mmapBase : ℕ
  vma : VMAs
  ofile : Fin NOFILE → Option FileId
  cwd : Option InodeId

/-- The kernel around one process. -/
structure State where
  kmem : Kmem
  file : FileId → File
  inode : InodeId → Inode
  pipe : Frame → Pipe
  freeBlocks : ℕ
  p : Proc

namespace State

def setFile (s : State) (k : FileId) (f : File) : State :=
  { s with file := Function.update s.file k f }

def setInode (s : State) (i : InodeId) (ip : Inode) : State :=
  { s with inode := Function.update s.inode i ip }

def setVma (s : State) (i : Fin NVMA) (v : VMA) : State :=
  { s with p := { s.p with vma := Function.update s.p.vma i v } }

def setMemory (s : State) (km : Kmem) (pt : PageTable) : State :=
  { s with kmem := km, p := { s.p with pagetable := pt } }

end State

/-- The first slot that passes a test, as the `for` loops over `p->vma` look
for it. -/
def findVma (vma : VMAs) (test : VMA → Bool) : Option (Fin NVMA) :=
  (List.finRange NVMA).find? fun i => test (vma i)

theorem findVma_some {vma : VMAs} {test : VMA → Bool} {i : Fin NVMA}
    (h : findVma vma test = some i) : test (vma i) = true :=
  List.find?_some (p := fun i => test (vma i)) h

theorem findVma_none {vma : VMAs} {test : VMA → Bool}
    (h : findVma vma test = none) (i : Fin NVMA) : test (vma i) = false := by
  have := List.find?_eq_none.mp h i (List.mem_finRange i)
  simpa using this

theorem findVma_isSome {vma : VMAs} {test : VMA → Bool} {i : Fin NVMA}
    (h : test (vma i) = true) : ∃ j, findVma vma test = some j := by
  cases hfind : findVma vma test with
  | none =>
    rw [findVma_none hfind i] at h
    cases h
  | some j => exact ⟨j, rfl⟩

end Xv6.Vm
