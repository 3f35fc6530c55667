import Xv6.Proc.ExitWait
import Xv6.Vm.Sysfile

/-!
# The process table (`kernel/proc.c`)

All processes with the files, the inodes, the pipes and the memory they
share. A system call of a running process is one step. An entry of the table
that is freed keeps its arrays of mappings and descriptors, and `allocproc`
resets only some of the other fields.
-/

namespace Xv6.Kernel

open Framework Vm

def NPROC : ℕ := 64

instance NPROC.neZero : NeZero NPROC := ⟨by decide⟩

abbrev ProcId : Type := Fin NPROC

abbrev PState : Type := Xv6.Proc.ProcState

/-- `struct proc`. The page table and the trapframe come and go together. -/
structure Entry where
  state : PState := .unused
  chan : Option (Xv6.Proc.Chan ProcId) := none
  killed : Bool := false
  xstate : Int32 := 0
  pid : Int32 := 0
  parent : Option ProcId := none
  sz : ℕ := 0
  memory : Option (PageTable × Frame) := none
  mmapBase : ℕ := 0
  vma : VMAs := fun _ => {}
  ofile : Fin NOFILE → Option FileId := fun _ => none
  cwd : Option InodeId := none

structure Sys where
  kmem : Kmem
  file : FileId → File
  inode : InodeId → Inode
  pipe : Frame → Pipe
  freeBlocks : ℕ
  proc : ProcId → Entry
  nextpid : Int32
  initproc : ProcId

inductive Halt
  | panic (p : Panic)
  /-- `panic("init exiting")`. -/
  | initExiting
  /-- The process is not running. -/
  | idle
deriving DecidableEq, Repr

/-! ## One process among the others -/

/-- What memory management sees of a process. -/
def Entry.view (e : Entry) (pagetable : PageTable) (trapframe : Frame) :
    Proc where
  state := .running
  killed := e.killed
  sz := e.sz
  pagetable := pagetable
  trapframe := trapframe
  mmapBase := e.mmapBase
  vma := e.vma
  ofile := e.ofile
  cwd := e.cwd

/-- The fields of an entry that memory management works on. -/
def Entry.set (e : Entry) (p : Proc) : Entry :=
  { e with
    killed := p.killed, sz := p.sz, memory := some (p.pagetable, p.trapframe)
    mmapBase := p.mmapBase, vma := p.vma, ofile := p.ofile, cwd := p.cwd }

/-- `freeproc` on an entry, after its memory has gone. -/
def Entry.free (e : Entry) : Entry :=
  { e with
    memory := none, sz := 0, pid := 0, parent := none, chan := none
    killed := false, xstate := 0, state := .unused }

/-- The entry after `kfork` by `i`: freed again, or a child. Its `killed` and
`chan` stay what they are. -/
def Entry.forked (e : Entry) (np : Option Proc) (pid : Int32) (i : ProcId) :
    Entry :=
  match np with
  | none => e.free
  | some np =>
      { e.set np with
        killed := e.killed, pid := pid, parent := some i, state := .runnable }

namespace Sys

def setEntry (s : Sys) (i : ProcId) (e : Entry) : Sys :=
  { s with proc := Function.update s.proc i e }

/-- The kernel as process `i` sees it. -/
def view (s : Sys) (i : ProcId) : Option State :=
  (s.proc i).memory.map fun m =>
    { kmem := s.kmem, file := s.file, inode := s.inode, pipe := s.pipe
      freeBlocks := s.freeBlocks, p := (s.proc i).view m.1 m.2 }

/-- What process `i` has made of it. -/
def put (s : Sys) (i : ProcId) (st : State) : Sys :=
  { s with
    kmem := st.kmem, file := st.file, inode := st.inode, pipe := st.pipe
    freeBlocks := st.freeBlocks
    proc := Function.update s.proc i ((s.proc i).set st.p) }

/-- The view of process `i` if it is running. -/
def current (s : Sys) (i : ProcId) : Except Halt State :=
  match (s.proc i).state, s.view i with
  | .running, some st => .ok st
  | _, _ => .error .idle

/-- A panic of the kernel. -/
def lift {α : Type} : Except Panic α → Except Halt α
  | .ok a => .ok a
  | .error e => .error (.panic e)

/-- A call of process `i` that concerns nobody else. -/
def call {α : Type} (s : Sys) (i : ProcId)
    (f : State → Except Panic (State × α)) : Except Halt Sys := do
  let st ← s.current i
  let (st, _) ← lift (f st)
  .ok (s.put i st)

/-! ## `kfork` -/

/-- The entry that `allocproc` takes. -/
def findUnused (s : Sys) : Option ProcId :=
  (List.finRange NPROC).find? fun j => decide ((s.proc j).state = .unused)

/-- `kfork`. -/
def kfork (s : Sys) (i : ProcId) : Except Halt Sys := do
  let st ← s.current i
  match s.findUnused with
  | none => .ok s
  | some j => do
      let e := s.proc j
      let (st, np) ← lift (Vm.kfork st ⟨e.vma, e.ofile, e.cwd⟩)
      .ok ({ s.put i st with nextpid := s.nextpid + 1 }.setEntry j
        (e.forked np s.nextpid i))

/-! ## `kexit` and `kwait` -/

/-- `wakeup(c)` by process `i`. -/
def wakeup (s : Sys) (i c : ProcId) : Sys :=
  { s with
    proc := fun j =>
      if j ≠ i ∧ (s.proc j).state = .sleeping ∧
          (s.proc j).chan = some (.proc c) then
        { s.proc j with state := .runnable }
      else s.proc j }

/-- `pp->parent = initproc` for the children of `i`. -/
def adopt (s : Sys) (i : ProcId) : Sys :=
  { s with
    proc := fun j =>
      if (s.proc j).parent = some i then
        { s.proc j with parent := some s.initproc }
      else s.proc j }

/-- `reparent(p)`. -/
def reparent (s : Sys) (i : ProcId) : Sys :=
  if ∃ j, (s.proc j).parent = some i then (s.adopt i).wakeup i s.initproc
  else s.adopt i

/-- `wakeup(p->parent)`. -/
def wakeParent (s : Sys) (i : ProcId) : Sys :=
  match (s.proc i).parent with
  | none => s
  | some c => s.wakeup i c

def kexit (s : Sys) (i : ProcId) (status : Int32) : Except Halt Sys :=
  if i = s.initproc then .error .initExiting
  else do
    let st ← s.current i
    let st ← lift (Vm.kexit st)
    let s := ((s.put i st).reparent i).wakeParent i
    .ok (s.setEntry i { s.proc i with xstate := status, state := .zombie })

/-- The first child of `i` that has exited. -/
def findZombie (s : Sys) (i : ProcId) : Option ProcId :=
  (List.finRange NPROC).find? fun j =>
    decide ((s.proc j).parent = some i ∧ (s.proc j).state = .zombie)

/-- `freeproc`. -/
def freeproc (s : Sys) (j : ProcId) : Except Panic Sys :=
  let e := s.proc j
  match e.memory with
  | none => .ok (s.setEntry j e.free)
  | some (pagetable, trapframe) => do
      let (km, _) ← Vm.freeproc s.kmem (e.view pagetable trapframe)
      .ok ({ s with kmem := km }.setEntry j e.free)

/-- One round of the loop of `kwait`: a child is freed, the call fails, or the
process goes to sleep. -/
def kwait (s : Sys) (i : ProcId) (addr : UInt64) : Except Halt Sys := do
  let st ← s.current i
  match s.findZombie i with
  | some j => do
      let (st, done) ← lift (if addr = 0 then .ok (st, true)
        else copyout st addr.toNat (intBytes (s.proc j).xstate))
      if done then lift ((s.put i st).freeproc j) else .ok (s.put i st)
  | none =>
      if (∀ j, (s.proc j).parent ≠ some i) ∨ (s.proc i).killed then .ok s
      else
        .ok (s.setEntry i
          { s.proc i with state := .sleeping, chan := some (.proc i) })

/-! ## `kkill` -/

/-- The entry that `kkill` stops at. -/
def findPid (s : Sys) (pid : Int32) : Option ProcId :=
  (List.finRange NPROC).find? fun j => decide ((s.proc j).pid = pid)

/-- `kkill` and what it returns: nothing looks at the state of the entry. -/
def kkill (s : Sys) (pid : Int32) : Sys × Int32 :=
  match s.findPid pid with
  | none => (s, -1)
  | some j =>
      let e := s.proc j
      (s.setEntry j { e with
        killed := true
        state := if e.state = .sleeping then .runnable else e.state }, 0)

/-! ## The whole system -/

/-- What can happen next. The arguments of a path lookup are the entry of the
inode table it finds and the inode. `exec` has loaded its image into memory. -/
inductive Op
  | fork (i : ProcId)
  | exit (i : ProcId) (status : Int32)
  | wait (i : ProcId) (addr : UInt64)
  | exec (i : ProcId) (km : Kmem) (pagetable : PageTable) (sz : ℕ)
  | kill (i : ProcId) (pid : Int32)
  | mmap (i : ProcId) (addr : UInt64) (len prot flags fd offset : Int32)
  | munmap (i : ProcId) (addr : UInt64) (len : Int32)
  | sbrk (i : ProcId) (n t : Int32)
  | load (i : ProcId) (va : UInt64)
  | store (i : ProcId) (va : UInt64) (b : UInt8)
  | «open» (i : ProcId) (j : InodeId) (ip : Inode) (major : ℤ) (omode : Int32)
  | dup (i : ProcId) (fd : Int32)
  | close (i : ProcId) (fd : Int32)
  | pipe (i : ProcId) (fdarray : UInt64)
  | chdir (i : ProcId) (j : InodeId) (ip : Inode)
  /-- A file is written to, truncated, linked or unlinked. -/
  | write (j : InodeId) (ip : Inode)
  | sleep (i : ProcId) (addr : ℕ)
  | wake (i : ProcId)
  | yield (i : ProcId)
  | schedule (i : ProcId)

/-- A load or a store that the MMU does not let through traps. -/
def userLoad (st : State) (va : ℕ) : Except Panic (State × Unit) :=
  match translateLoad st.p.pagetable va with
  | some _ => .ok (st, ())
  | none => (usertrapFault st va true).map fun st => (st, ())

def userStore (st : State) (va : ℕ) (b : UInt8) :
    Except Panic (State × Unit) :=
  match translateStore st.p.pagetable va with
  | some l => .ok (storeThrough st va l b, ())
  | none => (usertrapFault st va false).map fun st => (st, ())

/-- The commit of `kexec`. -/
def execCommit (km : Kmem) (pagetable : PageTable) (sz : ℕ) (st : State) :
    Except Panic (State × Unit) :=
  (kexecCommit { st with kmem := km } pagetable sz).map fun st => (st, ())

/-- The state of a process changes. -/
def setState (s : Sys) (i : ProcId) (src : PState)
    (f : Entry → Entry) : Except Halt Sys :=
  if (s.proc i).state = src then .ok (s.setEntry i (f (s.proc i)))
  else .error .idle

def step (s : Sys) : Op → Except Halt Sys
  | .fork i => s.kfork i
  | .exit i status => s.kexit i status
  | .wait i addr => s.kwait i addr
  | .exec i km pagetable sz => s.call i (execCommit km pagetable sz)
  | .kill i pid => do
      let _ ← s.current i
      .ok (s.kkill pid).1
  | .mmap i addr len prot flags fd offset =>
      s.call i (sysMmap · addr len prot flags fd offset)
  | .munmap i addr len => s.call i (sysMunmap · addr len)
  | .sbrk i n t => s.call i (sysSbrk · n t)
  | .load i va => s.call i (userLoad · va.toNat)
  | .store i va b => s.call i (userStore · va.toNat b)
  | .open i j ip major omode => s.call i (sysOpen · j ip major omode)
  | .dup i fd => s.call i (sysDup · fd)
  | .close i fd => s.call i (sysClose · fd)
  | .pipe i fdarray => s.call i (sysPipe · fdarray)
  | .chdir i j ip => s.call i (sysChdir · j ip)
  | .write j ip => .ok { s with
      inode := Function.update s.inode j { ip with ref := (s.inode j).ref } }
  | .sleep i addr => s.setState i .running fun e =>
      { e with state := .sleeping, chan := some (.other addr) }
  | .wake i => s.setState i .sleeping fun e =>
      match e.chan with
      | some (.other _) => { e with state := .runnable }
      | _ => e
  | .yield i => s.setState i .running fun e => { e with state := .runnable }
  | .schedule i => s.setState i .runnable fun e =>
      { e with state := .running, chan := none }

/-- After `userinit`: the first process, with the root directory. -/
def boot (km : Kmem) (pagetable : PageTable) (trapframe : Frame)
    (root : InodeId) (ip : Inode) (freeBlocks : ℕ) : Sys where
  kmem := km
  file := fun _ => {}
  inode := Function.update (fun _ => {}) root { ip with ref := 1 }
  pipe := fun _ => {}
  freeBlocks := freeBlocks
  proc := Function.update (fun _ => {}) 0
    { state := .runnable, pid := 1, memory := some (pagetable, trapframe)
      mmapBase := TRAPFRAME, cwd := some root }
  nextpid := 2
  initproc := 0

end Sys

end Xv6.Kernel
