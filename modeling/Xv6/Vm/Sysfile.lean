import Xv6.Vm.Process

/-!
# Descriptors (`kernel/sysfile.c`, `kernel/pipe.c`) and `copyout`

`open`, `dup`, `close`, `pipe` and `chdir` of one process. A path lookup
yields an entry of the inode table with a new reference; the entry may have
been recycled for the inode, whose contents are then an argument.
-/

namespace Xv6.Vm

open Framework

/-! ## `copyout` -/

/-- The kernel writes bytes at a physical address through its direct map. -/
def kwrite (km : Kmem) (a : ℕ) (bs : List UInt8) : Except Panic Kmem :=
  if KERNBASE ≤ a ∧ a + bs.length ≤ PHYSTOP then
    .ok (km.memmove a (fun k => bs.getD k 0) bs.length)
  else .error .kerneltrap

/-- `pa0` in `copyout`, unless it gives up with -1 on this page. The PTE is
read through what `walk` returns, without a test for a null pointer. -/
def copyoutPage (s : State) (va0 : ℕ) : Except Panic (State × Option ℕ) :=
  if MAXVA ≤ va0 then .ok (s, none)
  else do
    let (s, pa0) ← copyinPage s va0
    if pa0 = 0 then .ok (s, none)
    else
      match s.p.pagetable.pte va0 with
      | none => .error .kerneltrap
      | some none => .ok (s, none)
      | some (some l) => .ok (s, if l.perm.w then some pa0 else none)

/-- `copyout(p->pagetable, dstva, src, len)`; the flag says whether it
returned 0. -/
def copyout (s : State) (dstva : ℕ) (src : List UInt8) :
    Except Panic (State × Bool) :=
  if src = [] then .ok (s, true)
  else
    let va0 := pgrounddown dstva
    match copyoutPage s va0 with
    | .error e => .error e
    | .ok (s, none) => .ok (s, false)
    | .ok (s, some pa0) =>
        let n := min (PGSIZE - (dstva - va0)) src.length
        match kwrite s.kmem ((pa0 + (dstva - va0)) % 2 ^ 64) (src.take n) with
        | .error e => .error e
        | .ok km =>
            copyout { s with kmem := km } ((va0 + PGSIZE) % 2 ^ 64)
              (src.drop n)
termination_by src.length
decreasing_by
  rename_i hsrc
  have := pgrounddown_le dstva
  have := lt_pgrounddown_add dstva
  have : 0 < src.length := List.length_pos_iff.mpr hsrc
  rw [List.length_drop]
  omega

/-- The four bytes of an `int`. -/
def intBytes (n : Int32) : List UInt8 :=
  (List.range 4).map fun k => (n.toUInt32 >>> UInt32.ofNat (8 * k)).toUInt8

/-! ## Allocating files and descriptors -/

/-- `filealloc`. -/
def filealloc (s : State) : Option (State × FileId) :=
  match (List.finRange NFILE).find? fun k => decide ((s.file k).ref = 0) with
  | none => none
  | some k => some (s.setFile k { s.file k with ref := 1 }, k)

def State.setFd (s : State) (fd : Fin NOFILE) (o : Option FileId) : State :=
  { s with p := { s.p with ofile := Function.update s.p.ofile fd o } }

/-- `fdalloc`. -/
def fdalloc (s : State) (k : FileId) : Option (State × Fin NOFILE) :=
  match (List.finRange NOFILE).find? fun fd =>
      decide (s.p.ofile fd = none) with
  | none => none
  | some fd => some (s.setFd fd (some k), fd)

/-- `argfd`. -/
def argfd (s : State) (fd : Int32) : Option (Fin NOFILE × FileId) :=
  if h : 0 ≤ fd.toInt ∧ fd.toInt < NOFILE then
    (s.p.ofile ⟨fd.toInt.toNat, fd_lt h⟩).map fun k =>
      (⟨fd.toInt.toNat, fd_lt h⟩, k)
  else none

/-! ## System calls -/

/-- `sys_dup`; a result of `none` is -1. -/
def sysDup (s : State) (fd : Int32) :
    Except Panic (State × Option (Fin NOFILE)) :=
  match argfd s fd with
  | none => .ok (s, none)
  | some (_, k) =>
      match fdalloc s k with
      | none => .ok (s, none)
      | some (s, fd) => do
          let s ← filedup s k
          .ok (s, some fd)

/-- `sys_close`; the flag says whether it returned 0. -/
def sysClose (s : State) (fd : Int32) : Except Panic (State × Bool) :=
  match argfd s fd with
  | none => .ok (s, false)
  | some (fd, k) => do
      let s ← fileclose (s.setFd fd none) k
      .ok (s, true)

/-- What a path lookup does to the inode table: another reference to the
entry, or an entry that nobody used gets the inode `ip`. -/
def lookupInode (s : State) (j : InodeId) (ip : Inode) : State :=
  if (s.inode j).ref = 0 then s.setInode j { ip with ref := 1 }
  else s.setInode j { s.inode j with ref := (s.inode j).ref + 1 }

/-- `itrunc`. -/
def itrunc (s : State) (j : InodeId) : State :=
  let ip := s.inode j
  { s.setInode j { ip with
      size := 0, blocks := 0, indirect := false
      size_le := Inode.empty_size_le, blocks_le := Nat.zero_le _ } with
    freeBlocks := s.freeBlocks + ip.blocks + ip.indirect.toNat }

def T_DIR : ℕ := 1

def T_FILE : ℕ := 2

def T_DEVICE : ℕ := 3

def O_RDONLY : Int32 := 0x000

def O_WRONLY : Int32 := 0x001

def O_RDWR : Int32 := 0x002

def O_CREATE : Int32 := 0x200

def O_TRUNC : Int32 := 0x400

def NDEV : ℤ := 10

/-- The tests of `sys_open` on the inode it has found; `major` is the
inode's. -/
def openRefused (ip : Inode) (major : ℤ) (omode : Int32) : Bool :=
  (decide (omode &&& O_CREATE = 0) && decide (ip.type = T_DIR) &&
    decide (omode ≠ O_RDONLY)) ||
  (decide (ip.type = T_DEVICE) && (decide (major < 0) || decide (NDEV ≤ major)))

/-- What `sys_open` makes of an entry of the file table. -/
def openedFile (f : File) (j : InodeId) (type : ℕ) (omode : Int32) : File :=
  { f with
    type := if type = T_DEVICE then .device else .inode
    ip := some j
    readable := decide (omode &&& O_WRONLY = 0)
    writable := decide (omode &&& O_WRONLY ≠ 0) ||
      decide (omode &&& O_RDWR ≠ 0) }

/-- `sys_open`, once the lookup has found entry `j` of the inode table. -/
def sysOpen (s : State) (j : InodeId) (ip : Inode) (major : ℤ)
    (omode : Int32) : Except Panic (State × Option (Fin NOFILE)) :=
  let s := lookupInode s j ip
  if openRefused (s.inode j) major omode then .ok (iput s j, none)
  else
    match filealloc s with
    | none => .ok (iput s j, none)
    | some (s, k) =>
        match fdalloc s k with
        | none => do
            let s ← fileclose s k
            .ok (iput s j, none)
        | some (s, fd) =>
            let s := s.setFile k
              (openedFile (s.file k) j (s.inode j).type omode)
            .ok (if omode &&& O_TRUNC ≠ 0 ∧ (s.inode j).type = T_FILE then
              itrunc s j else s, some fd)

/-- `sys_chdir`, once the lookup has found entry `j`. -/
def sysChdir (s : State) (j : InodeId) (ip : Inode) :
    Except Panic (State × Bool) :=
  let s := lookupInode s j ip
  if (s.inode j).type ≠ T_DIR then .ok (iput s j, false)
  else
    match s.p.cwd with
    | none => .error .kerneltrap
    | some cwd =>
        let s := iput s cwd
        .ok ({ s with p := { s.p with cwd := some j } }, true)

/-- The files that `pipealloc` makes of two allocated entries. -/
def setPipe (s : State) (pi : Frame) (k₀ k₁ : FileId) : State :=
  let s := { s with
    pipe := Function.update s.pipe pi ⟨true, true⟩ }
  let s := s.setFile k₀ { s.file k₀ with
    type := .pipe, readable := true, writable := false, pipe := pi }
  s.setFile k₁ { s.file k₁ with
    type := .pipe, readable := false, writable := true, pipe := pi }

/-- `pipealloc`. -/
def pipealloc (s : State) : Except Panic (State × Option (FileId × FileId)) :=
  match filealloc s with
  | none => .ok (s, none)
  | some (s, k₀) =>
      match filealloc s with
      | none => do
          let s ← fileclose s k₀
          .ok (s, none)
      | some (s, k₁) =>
          match kalloc s.kmem with
          | none => do
              let s ← fileclose s k₀
              let s ← fileclose s k₁
              .ok (s, none)
          | some (pi, km) =>
              .ok (setPipe { s with kmem := km } pi k₀ k₁, some (k₀, k₁))

/-- The error paths of `sys_pipe`. -/
def closeBoth (s : State) (k₀ k₁ : FileId) : Except Panic (State × Bool) := do
  let s ← fileclose s k₀
  let s ← fileclose s k₁
  .ok (s, false)

/-- The two descriptors go to user space. -/
def copyoutFds (s : State) (fdarray : UInt64) (fd₀ fd₁ : Fin NOFILE) :
    Except Panic (State × Bool) := do
  let (s, done) ← copyout s fdarray.toNat (intBytes fd₀.val.toInt32)
  if done then
    copyout s ((fdarray.toNat + 4) % 2 ^ 64) (intBytes fd₁.val.toInt32)
  else .ok (s, false)

/-- `sys_pipe` after `pipealloc`; the flag says whether it returned 0. -/
def pipeFds (s : State) (fdarray : UInt64) (k₀ k₁ : FileId) :
    Except Panic (State × Bool) :=
  match fdalloc s k₀ with
  | none => closeBoth s k₀ k₁
  | some (s, fd₀) =>
      match fdalloc s k₁ with
      | none => closeBoth (s.setFd fd₀ none) k₀ k₁
      | some (s, fd₁) => do
          let (s, done) ← copyoutFds s fdarray fd₀ fd₁
          if done then .ok (s, true)
          else closeBoth ((s.setFd fd₀ none).setFd fd₁ none) k₀ k₁

/-- `sys_pipe`. -/
def sysPipe (s : State) (fdarray : UInt64) : Except Panic (State × Bool) := do
  let (s, ks) ← pipealloc s
  match ks with
  | none => .ok (s, false)
  | some (k₀, k₁) => pipeFds s fdarray k₀ k₁

end Xv6.Vm
