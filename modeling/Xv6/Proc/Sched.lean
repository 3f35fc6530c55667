import Xv6.Framework.Run
import Mathlib

/-!
# The scheduler (`kernel/proc.c`)

Any number of CPUs run `scheduler()` over a table of processes. `p->lock` is
taken by one thread of control and given up by another: the scheduler acquires
it and the process releases it after `swtch`, and the other way round. The
code is cut at every `acquire`, every `release` and both halves of `swtch`, so
that other CPUs can act in between. A CPU in its scheduler loop has interrupts
on, and their handlers call `wakeup`.

`wait_lock` and the locks that `sleep` gives up play no part here: any process
may wait for any other, and sleep at any time.
-/

namespace Xv6.Proc

/-- `enum procstate`. -/
inductive ProcState
  | unused
  | used
  | sleeping
  | runnable
  | running
  | zombie
deriving DecidableEq, Repr

/-- Why a process gives up its CPU: `yield`, `sleep(chan, lk)` or the end of
`kexit`. -/
inductive Leave
  | yield
  | sleep (chan : ℕ)
  | kexit
deriving DecidableEq, Repr

/-- `p->state` when the process calls `sched`. -/
def Leave.left : Leave → ProcState
  | .yield => .runnable
  | .sleep _ => .sleeping
  | .kexit => .zombie

/-- What a process does to an entry of the table under the lock of that
entry. -/
inductive Visit
  /-- One round of the loop of `wakeup`. -/
  | wakeup (chan : ℕ)
  /-- One round of the loop of `kkill`. -/
  | kkill (pid : Int32)
  /-- One round of the loop of `kwait`. -/
  | kwait
  /-- One round of the loop of `allocproc`. -/
  | allocproc
  /-- The rest of `allocproc`, and `kfork` up to its first `release`. -/
  | kfork
  /-- The last critical section of `kfork`. -/
  | ready
deriving DecidableEq, Repr

/-- Where the kernel thread of a process is. -/
inductive Point (P : Type)
  /-- It holds the lock of no entry. -/
  | free
  /-- It has acquired its own lock in order to leave. -/
  | own (w : Leave)
  /-- In `sched`, with the state changed. -/
  | sched (w : Leave)
  /-- In `swtch`, with its registers stored in `p->context`, still on its own
  stack. -/
  | saved (w : Leave)
  /-- On no CPU: `p->context` leads back into `sched`, or into `forkret`. -/
  | off (w : Option Leave)
  /-- Back from `swtch`, or in `forkret`, with its own lock held. -/
  | resumed (w : Option Leave)
  /-- It has acquired the lock of entry `q`. -/
  | visiting (v : Visit) (q : P)
deriving DecidableEq, Repr

/-- What a CPU executes. -/
inductive CpuPoint (P : Type)
  /-- `scheduler`, with no lock held. -/
  | scan
  /-- `scheduler`, with `p->lock` held, before the test of `p->state`. -/
  | locked (p : P)
  /-- In `swtch`, with the scheduler's registers stored in `c->context`, about
  to load `p->context`. -/
  | switching (p : P)
  /-- The thread of `p`, on its kernel stack. -/
  | on (p : P)
  /-- `scheduler`, back from `swtch`. -/
  | back (p : P)
  /-- A handler that interrupted `scheduler`, in `wakeup`, with the lock of `q`
  held. -/
  | interrupted (chan : ℕ) (q : P)
deriving DecidableEq, Repr

structure System (P C : Type) where
  state : P → ProcState
  pid : P → Int32
  chan : P → ℕ
  killed : P → Bool
  nextpid : Int32
  /-- The CPU that holds `p->lock`. -/
  lock : P → Option C
  point : P → Point P
  /-- The entry that a call of `kfork` has filled and not made `RUNNABLE`
  yet. -/
  np : P → Option P
  /-- `c->proc`. -/
  proc : C → Option P
  cpu : C → CpuPoint P

/-- Why a step cannot be taken, or stops the kernel. -/
inductive Stop
  | lockHeld
  | elsewhere
  /-- `panic("sched p->lock")`. -/
  | schedLock
  /-- `panic("sched RUNNING")`. -/
  | schedRunning
  /-- `panic("zombie exit")`. -/
  | zombieExit
deriving DecidableEq, Repr

inductive SchedOp (P C : Type)
  /-- The scheduler of `c` acquires `p->lock`. -/
  | look (c : C) (p : P)
  /-- A handler on `c` acquires the lock of `q`. -/
  | interrupt (c : C) (chan : ℕ) (q : P)
  /-- The process on `c` acquires its own lock. -/
  | leave (c : C) (w : Leave)
  /-- The process on `c` acquires the lock of `q`. -/
  | visit (c : C) (v : Visit) (q : P)
  /-- The next step of `c`; `ok` says whether `kfork` gets the memory it asks
  for. -/
  | go (c : C) (ok : Bool)

namespace System

variable {P C : Type} [DecidableEq P] [DecidableEq C]

def setState (s : System P C) (p : P) (st : ProcState) : System P C :=
  { s with state := Function.update s.state p st }

def setPoint (s : System P C) (p : P) (pt : Point P) : System P C :=
  { s with point := Function.update s.point p pt }

def setCpu (s : System P C) (c : C) (x : CpuPoint P) : System P C :=
  { s with cpu := Function.update s.cpu c x }

def setProc (s : System P C) (c : C) (p : Option P) : System P C :=
  { s with proc := Function.update s.proc c p }

def setNp (s : System P C) (p : P) (q : Option P) : System P C :=
  { s with np := Function.update s.np p q }

/-- `acquire(&p->lock)` on `c`. -/
def acquire (s : System P C) (c : C) (p : P) : Except Stop (System P C) :=
  if s.lock p = none then
    .ok { s with lock := Function.update s.lock p (some c) }
  else .error .lockHeld

/-- `release(&p->lock)`. -/
def release (s : System P C) (p : P) : System P C :=
  { s with lock := Function.update s.lock p none }

/-! ## What is done to an entry -/

/-- One round of `wakeup(chan)`. -/
def wakeup (s : System P C) (chan : ℕ) (q : P) : System P C :=
  if s.state q = .sleeping ∧ s.chan q = chan then s.setState q .runnable
  else s

/-- One round of `kkill(pid)`. -/
def kkill (s : System P C) (pid : Int32) (q : P) : System P C :=
  if s.pid q = pid then
    let s := { s with killed := Function.update s.killed q true }
    if s.state q = .sleeping then s.setState q .runnable else s
  else s

/-- `freeproc`. -/
def freeproc (s : System P C) (q : P) : System P C :=
  { s.setState q .unused with
    pid := Function.update s.pid q 0
    chan := Function.update s.chan q 0
    killed := Function.update s.killed q false }

/-- `allocproc`, once it has found the entry. -/
def allocproc (s : System P C) (q : P) : System P C :=
  { (s.setState q .used).setPoint q (.off none) with
    pid := Function.update s.pid q s.nextpid
    nextpid := s.nextpid + 1 }

/-- The critical section of a visit of `p` to `q`. -/
def visit (s : System P C) (p q : P) (ok : Bool) : Visit → System P C
  | .wakeup chan => ((s.wakeup chan q).release q).setPoint p .free
  | .kkill pid => ((s.kkill pid q).release q).setPoint p .free
  | .kwait =>
      if s.state q = .zombie then
        ((s.freeproc q).release q).setPoint p .free
      else (s.release q).setPoint p .free
  | .allocproc =>
      if s.state q = .unused then
        (s.allocproc q).setPoint p (.visiting .kfork q)
      else (s.release q).setPoint p .free
  | .kfork =>
      if ok then ((s.setNp p (some q)).release q).setPoint p .free
      else ((s.freeproc q).release q).setPoint p .free
  | .ready =>
      (((s.setState q .runnable).setNp p none).release q).setPoint p .free

/-! ## Steps -/

/-- The next step of the thread of `p`, which `c` executes. -/
def thread (s : System P C) (c : C) (p : P) (ok : Bool) :
    Except Stop (System P C) :=
  match s.point p with
  | .free => .error .elsewhere
  | .own w =>
      let s := s.setState p w.left
      let s := match w with
        | .sleep chan => { s with chan := Function.update s.chan p chan }
        | _ => s
      .ok (s.setPoint p (.sched w))
  -- sched
  | .sched w =>
      if s.lock p ≠ some c then .error .schedLock
      else if s.state p = .running then .error .schedRunning
      else .ok (s.setPoint p (.saved w))
  | .saved w => .ok ((s.setPoint p (.off (some w))).setCpu c (.back p))
  | .off _ => .error .elsewhere
  | .resumed w =>
      match w with
      | some .kexit => .error .zombieExit
      | some (.sleep _) =>
          .ok (({ s with chan := Function.update s.chan p 0 }.release
            p).setPoint p .free)
      | _ => .ok ((s.release p).setPoint p .free)
  | .visiting v q => .ok (s.visit p q ok v)

/-- Loading `p->context`. If it is not the context of a thread that is off
its CPU, the stack is used twice. -/
def load : Point P → Point P
  | .off w => .resumed w
  | pt => pt

/-- The next step of `c`. -/
def go (s : System P C) (c : C) (ok : Bool) : Except Stop (System P C) :=
  match s.cpu c with
  | .scan => .error .elsewhere
  | .locked p =>
      if s.state p = .runnable then
        .ok (((s.setState p .running).setProc c (some p)).setCpu c
          (.switching p))
      else .ok ((s.release p).setCpu c .scan)
  | .switching p => .ok ((s.setPoint p (load (s.point p))).setCpu c (.on p))
  | .on p => s.thread c p ok
  | .back p => .ok (((s.setProc c none).release p).setCpu c .scan)
  | .interrupted chan q =>
      .ok (((s.wakeup chan q).release q).setCpu c .scan)

/-- The process on `c`, if it holds the lock of no entry. -/
def idleOn (s : System P C) (c : C) : Option P :=
  match s.cpu c with
  | .on p => if s.point p = .free then some p else none
  | _ => none

/-- A process may begin the visit: `wakeup` passes over its caller, and
`kfork` goes through its critical sections in order. -/
def mayVisit (s : System P C) (p : P) (v : Visit) (q : P) : Bool :=
  match v with
  | .wakeup _ => decide (q ≠ p)
  | .allocproc => (s.np p).isNone
  | .kfork => false
  | .ready => decide (s.np p = some q)
  | _ => true

def step (s : System P C) : SchedOp P C → Except Stop (System P C)
  | .look c p =>
      if s.cpu c = .scan then do
        let s ← s.acquire c p
        .ok (s.setCpu c (.locked p))
      else .error .elsewhere
  | .interrupt c chan q =>
      if s.cpu c = .scan then do
        let s ← s.acquire c q
        .ok (s.setCpu c (.interrupted chan q))
      else .error .elsewhere
  | .leave c w =>
      match s.idleOn c with
      | none => .error .elsewhere
      | some p =>
          if w = .kexit ∧ (s.np p).isSome then .error .elsewhere
          else do
            let s ← s.acquire c p
            .ok (s.setPoint p (.own w))
  | .visit c v q =>
      match s.idleOn c with
      | none => .error .elsewhere
      | some p =>
          if s.mayVisit p v q then do
            let s ← s.acquire c q
            .ok (s.setPoint p (.visiting v q))
          else .error .elsewhere
  | .go c ok => s.go c ok

/-- After `procinit` and `userinit`, when every CPU enters `scheduler`. -/
def boot (initproc : P) : System P C where
  state := Function.update (fun _ => .unused) initproc .runnable
  pid := Function.update (fun _ => 0) initproc 1
  chan := fun _ => 0
  killed := fun _ => false
  nextpid := 2
  lock := fun _ => none
  point := fun _ => .off none
  np := fun _ => none
  proc := fun _ => none
  cpu := fun _ => .scan

end System

end Xv6.Proc
