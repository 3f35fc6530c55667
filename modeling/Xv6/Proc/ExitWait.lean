import Xv6.Framework.Run
import Xv6.Proc.Sched

/-!
# Fork, exit and wait (`kernel/proc.c`)

Any number of processes call `kfork`, `kexit`, `kwait` and `kkill`. The calls
are cut at every `acquire` and `release` of `wait_lock` and of the `lock` of a
table entry. The loops over the table carry the entries still to be visited.
A process that gives up its CPU keeps its own lock until `swtch` is done and
gets it back from the scheduler that picks it; on which CPU it runs plays no
part here.

`exits` and `reaps` record what has happened so far.
-/

namespace Xv6.Proc

/-- What `p->chan` points to. -/
inductive Chan (P : Type)
  | proc (p : P)
  | other (addr : ℕ)
deriving DecidableEq, Repr

/-- What `kexit` does after a `wakeup`. -/
inductive After (P : Type)
  /-- On with the loop of `reparent`. -/
  | reparent (status : Int32) (rest : List P)
  /-- On to `acquire(&p->lock)`. -/
  | exit (status : Int32)
deriving DecidableEq, Repr

/-- Where a process is in its call. -/
inductive WaitPoint (P : Type)
  /-- Not in a call; the last one returned `r`. -/
  | returned (r : Int32)
  /-- The loop of `allocproc`. -/
  | forkScan (rest : List P)
  /-- With the lock of `q` held, before the test of its state. -/
  | forkLook (q : P) (rest : List P)
  /-- With the lock of `q` held: memory, mappings and files are copied. -/
  | forkCopy (q : P)
  /-- Before `acquire(&wait_lock)`. -/
  | forkLink (q : P)
  /-- With `wait_lock` held. -/
  | forkParent (q : P)
  /-- Before the second `acquire(&np->lock)`. -/
  | forkReady (q : P)
  | forkRunnable (q : P)
  /-- `kexit`, before `acquire(&wait_lock)`. -/
  | exitEnter (status : Int32)
  /-- The loop of `reparent`. -/
  | reparent (status : Int32) (rest : List P)
  /-- The loop of `wakeup`. -/
  | wake (chan : Option P) (rest : List P) (k : After P)
  /-- With the lock of `q` held, before the test of its state. -/
  | wakeLook (chan : Option P) (q : P) (rest : List P) (k : After P)
  /-- Before `acquire(&p->lock)`. -/
  | exitLock (status : Int32)
  | exitZombie (status : Int32)
  /-- In `sched`, never to return. -/
  | gone
  /-- `kwait`, before `acquire(&wait_lock)`. -/
  | waitEnter (addr : UInt64)
  /-- The loop over the table. -/
  | waitScan (addr : UInt64) (rest : List P) (havekids : Bool)
  /-- With the lock of the child `q` held, before the test of its state. -/
  | waitLook (addr : UInt64) (q : P) (rest : List P)
  /-- `killed(p)`, before and after its `acquire`. -/
  | waitKilled (addr : UInt64)
  | waitTest (addr : UInt64)
  /-- Before `release(&wait_lock)` and `return -1`. -/
  | waitFail
  /-- `sleep(p, &wait_lock)`, before `acquire(&p->lock)`. -/
  | waitSleep (addr : UInt64)
  | waitOwn (addr : UInt64)
  /-- `wait_lock` is released, the state still to be changed. -/
  | waitFall (addr : UInt64)
  /-- In `sched`, or back from it and before `acquire(lk)`. -/
  | waitAgain (addr : UInt64)
  /-- The loop of `kkill`. -/
  | killScan (pid : Int32) (rest : List P)
  | killLook (pid : Int32) (q : P) (rest : List P)
deriving DecidableEq, Repr

/-- How a process stands to the CPUs. -/
inductive Turn
  | on
  /-- In `sched`, with its own lock held. -/
  | left
  | off
  /-- Picked by a scheduler, with its own lock held. -/
  | back
deriving DecidableEq, Repr

/-- A process exited. -/
structure Exit (P : Type) where
  child : P
  pid : Int32
  status : Int32
deriving DecidableEq, Repr

/-- A call of `kwait` freed a child: who called it, what it returned and
what it copied out, if it was asked to. -/
structure Reap (P : Type) where
  parent : P
  exit : Exit P
  copied : Bool
deriving DecidableEq, Repr

structure WaitSystem (P : Type) where
  state : P → ProcState
  pid : P → Int32
  chan : P → Option (Chan P)
  killed : P → Bool
  xstate : P → Int32
  parent : P → Option P
  nextpid : Int32
  initproc : P
  /-- The process that holds `p->lock`. -/
  lock : P → Option P
  waitLock : Option P
  point : P → WaitPoint P
  turn : P → Turn
  exits : List (Exit P)
  reaps : List (Reap P)

inductive WaitStop
  | lockHeld
  | elsewhere
  /-- `panic("init exiting")`. -/
  | initExiting
  /-- `panic("zombie exit")`. -/
  | zombieExit
deriving DecidableEq, Repr

inductive WaitOp (P : Type)
  | kfork (p : P)
  | kexit (p : P) (status : Int32)
  | kwait (p : P) (addr : UInt64)
  | kkill (p : P) (pid : Int32)
  /-- The next step of `p` in its call; `ok` says whether `kfork` gets the
  memory it asks for, and whether `copyout` succeeds. -/
  | run (p : P) (ok : Bool)
  /-- A timer interrupt. -/
  | yield (p : P)
  /-- `p` sleeps on something else than a child. -/
  | sleep (p : P) (addr : ℕ)
  /-- `swtch` from `p` to the scheduler is done, which releases `p->lock`. -/
  | swtch (p : P)
  /-- A scheduler picks `p`. -/
  | schedule (p : P)
  /-- `p` releases its own lock, in `yield`, `sleep` or `forkret`. -/
  | resume (p : P)

namespace WaitSystem

variable {P : Type} [DecidableEq P]

def setState (s : WaitSystem P) (p : P) (st : ProcState) : WaitSystem P :=
  { s with state := Function.update s.state p st }

def setPoint (s : WaitSystem P) (p : P) (pt : WaitPoint P) : WaitSystem P :=
  { s with point := Function.update s.point p pt }

def setTurn (s : WaitSystem P) (p : P) (t : Turn) : WaitSystem P :=
  { s with turn := Function.update s.turn p t }

def setParent (s : WaitSystem P) (q : P) (p : Option P) : WaitSystem P :=
  { s with parent := Function.update s.parent q p }

/-- `acquire(&q->lock)` by `p`, which then is at `pt`. -/
def acquire (s : WaitSystem P) (p q : P) (pt : WaitPoint P) :
    Except WaitStop (WaitSystem P) :=
  if s.lock q = none then
    .ok ({ s with lock := Function.update s.lock q (some p) }.setPoint p pt)
  else .error .lockHeld

/-- `release(&q->lock)` by `p`. -/
def release (s : WaitSystem P) (p q : P) (pt : WaitPoint P) : WaitSystem P :=
  { s with lock := Function.update s.lock q none }.setPoint p pt

/-- `acquire(&wait_lock)`. -/
def acquireWait (s : WaitSystem P) (p : P) (pt : WaitPoint P) :
    Except WaitStop (WaitSystem P) :=
  if s.waitLock = none then
    .ok ({ s with waitLock := some p }.setPoint p pt)
  else .error .lockHeld

/-- `release(&wait_lock)`. -/
def releaseWait (s : WaitSystem P) (p : P) (pt : WaitPoint P) :
    WaitSystem P :=
  { s with waitLock := none }.setPoint p pt

/-- `allocproc`, once it has found the entry: the new thread starts in
`forkret`. -/
def allocproc (s : WaitSystem P) (q : P) : WaitSystem P :=
  { (s.setState q .used).setPoint q (.returned 0) with
    pid := Function.update s.pid q s.nextpid
    nextpid := s.nextpid + 1 }

/-- `freeproc`. -/
def freeproc (s : WaitSystem P) (q : P) : WaitSystem P :=
  { (s.setState q .unused).setParent q none with
    pid := Function.update s.pid q 0
    chan := Function.update s.chan q none
    killed := Function.update s.killed q false
    xstate := Function.update s.xstate q 0 }

/-- The body of the loop of `wakeup(chan)`. -/
def wakeup (s : WaitSystem P) (chan : Option P) (q : P) : WaitSystem P :=
  if s.state q = .sleeping ∧ s.chan q = chan.map .proc then
    s.setState q .runnable
  else s

/-- What `kkill` does to the process it has found. -/
def kill (s : WaitSystem P) (q : P) : WaitSystem P :=
  let s := { s with killed := Function.update s.killed q true }
  if s.state q = .sleeping then s.setState q .runnable else s

/-- `p->xstate = status; p->state = ZOMBIE; release(&wait_lock); sched();` -/
def die (s : WaitSystem P) (p : P) (status : Int32) : WaitSystem P :=
  { ((s.setState p .zombie).releaseWait p .gone).setTurn p .left with
    xstate := Function.update s.xstate p status
    exits := ⟨p, s.pid p, status⟩ :: s.exits }

/-- `kwait` frees the child `q` and returns its pid. -/
def reap (s : WaitSystem P) (p q : P) (addr : UInt64) : WaitSystem P :=
  let s' := ((s.freeproc q).release p q (.returned (s.pid q))).releaseWait p
    (.returned (s.pid q))
  { s' with
    reaps := ⟨p, ⟨q, s.pid q, s.xstate q⟩, decide (addr ≠ 0)⟩ :: s.reaps }

/-- The next step of `p` in its call. -/
def run (table : List P) (s : WaitSystem P) (p : P) (ok : Bool) :
    Except WaitStop (WaitSystem P) :=
  match s.point p with
  | .returned _ => .error .elsewhere
  -- kfork
  | .forkScan [] => .ok (s.setPoint p (.returned (-1)))
  | .forkScan (q :: rest) => s.acquire p q (.forkLook q rest)
  | .forkLook q rest =>
      if s.state q = .unused then
        .ok ((s.allocproc q).setPoint p (.forkCopy q))
      else .ok (s.release p q (.forkScan rest))
  | .forkCopy q =>
      if ok then .ok (s.release p q (.forkLink q))
      else .ok ((s.freeproc q).release p q (.returned (-1)))
  | .forkLink q => s.acquireWait p (.forkParent q)
  | .forkParent q =>
      .ok ((s.setParent q (some p)).releaseWait p (.forkReady q))
  | .forkReady q => s.acquire p q (.forkRunnable q)
  | .forkRunnable q =>
      .ok ((s.setState q .runnable).release p q (.returned (s.pid q)))
  -- kexit
  | .exitEnter status => s.acquireWait p (.reparent status table)
  | .reparent status [] =>
      .ok (s.setPoint p (.wake (s.parent p) table (.exit status)))
  | .reparent status (q :: rest) =>
      if s.parent q = some p then
        .ok ((s.setParent q (some s.initproc)).setPoint p
          (.wake (some s.initproc) table (.reparent status rest)))
      else .ok (s.setPoint p (.reparent status rest))
  | .wake _ [] (.reparent status rest) =>
      .ok (s.setPoint p (.reparent status rest))
  | .wake _ [] (.exit status) => .ok (s.setPoint p (.exitLock status))
  | .wake chan (q :: rest) k =>
      if q = p then .ok (s.setPoint p (.wake chan rest k))
      else s.acquire p q (.wakeLook chan q rest k)
  | .wakeLook chan q rest k =>
      .ok ((s.wakeup chan q).release p q (.wake chan rest k))
  | .exitLock status => s.acquire p p (.exitZombie status)
  | .exitZombie status => .ok (s.die p status)
  | .gone => .error .zombieExit
  -- kwait
  | .waitEnter addr => s.acquireWait p (.waitScan addr table false)
  | .waitScan addr [] havekids =>
      if havekids then .ok (s.setPoint p (.waitKilled addr))
      else .ok (s.setPoint p .waitFail)
  | .waitScan addr (q :: rest) havekids =>
      if s.parent q = some p then s.acquire p q (.waitLook addr q rest)
      else .ok (s.setPoint p (.waitScan addr rest havekids))
  | .waitLook addr q rest =>
      if s.state q = .zombie then
        if addr ≠ 0 ∧ ok = false then .ok (s.release p q .waitFail)
        else .ok (s.reap p q addr)
      else .ok (s.release p q (.waitScan addr rest true))
  | .waitKilled addr => s.acquire p p (.waitTest addr)
  | .waitTest addr =>
      if s.killed p then .ok (s.release p p .waitFail)
      else .ok (s.release p p (.waitSleep addr))
  | .waitFail => .ok (s.releaseWait p (.returned (-1)))
  | .waitSleep addr => s.acquire p p (.waitOwn addr)
  | .waitOwn addr => .ok (s.releaseWait p (.waitFall addr))
  | .waitFall addr =>
      let s := { s with chan := Function.update s.chan p (some (.proc p)) }
      .ok (((s.setState p .sleeping).setPoint p (.waitAgain addr)).setTurn p
        .left)
  | .waitAgain addr => s.acquireWait p (.waitScan addr table false)
  -- kkill
  | .killScan _ [] => .ok (s.setPoint p (.returned (-1)))
  | .killScan pid (q :: rest) => s.acquire p q (.killLook pid q rest)
  | .killLook pid q rest =>
      if s.pid q = pid then .ok ((s.kill q).release p q (.returned 0))
      else .ok (s.release p q (.killScan pid rest))

end WaitSystem

/-- The entry whose lock a process at that point holds. -/
def WaitPoint.held {P : Type} (p : P) : WaitPoint P → Option P
  | .forkLook q _ | .forkCopy q | .forkRunnable q | .wakeLook _ q _ _
  | .waitLook _ q _ | .killLook _ q _ => some q
  | .exitZombie _ | .waitTest _ | .waitOwn _ | .waitFall _ => some p
  | _ => none

/-- A process at that point holds `wait_lock`. -/
def WaitPoint.holdsWait {P : Type} : WaitPoint P → Bool
  | .forkParent _ | .reparent _ _ | .wake _ _ _ | .wakeLook _ _ _ _
  | .exitLock _ | .exitZombie _ | .waitScan _ _ _ | .waitLook _ _ _
  | .waitKilled _ | .waitTest _ | .waitFail | .waitSleep _
  | .waitOwn _ => true
  | _ => false

/-- A process at that point may sleep on other things. -/
def WaitPoint.sleeps {P : Type} : WaitPoint P → Bool
  | .returned _ | .exitEnter _ => true
  | _ => false

namespace WaitSystem

variable {P : Type} [DecidableEq P]

/-- `p` begins a call. -/
def call (s : WaitSystem P) (p : P) (pt : WaitPoint P) :
    Except WaitStop (WaitSystem P) :=
  match s.turn p, s.point p with
  | .on, .returned _ => .ok (s.setPoint p pt)
  | _, _ => .error .elsewhere

/-- `p` acquires its own lock and gives up its CPU in state `st`. -/
def leave (s : WaitSystem P) (p : P) (st : ProcState)
    (chan : Option (Chan P)) : Except WaitStop (WaitSystem P) :=
  if s.lock p = none then
    .ok { (s.setState p st).setTurn p .left with
      lock := Function.update s.lock p (some p)
      chan := Function.update s.chan p chan }
  else .error .lockHeld

def step (table : List P) (s : WaitSystem P) :
    WaitOp P → Except WaitStop (WaitSystem P)
  | .kfork p => s.call p (.forkScan table)
  | .kexit p status =>
      if p = s.initproc then .error .initExiting
      else s.call p (.exitEnter status)
  | .kwait p addr => s.call p (.waitEnter addr)
  | .kkill p pid => s.call p (.killScan pid table)
  | .run p ok =>
      if s.turn p = .on then s.run table p ok else .error .elsewhere
  | .yield p =>
      if s.turn p = .on ∧ (s.point p).held p = none ∧
          (s.point p).holdsWait = false then
        s.leave p .runnable (s.chan p)
      else .error .elsewhere
  | .sleep p addr =>
      if s.turn p = .on ∧ (s.point p).sleeps = true then
        s.leave p .sleeping (some (.other addr))
      else .error .elsewhere
  | .swtch p =>
      if s.turn p = .left then
        .ok { s.setTurn p .off with lock := Function.update s.lock p none }
      else .error .elsewhere
  | .schedule p =>
      if s.state p = .runnable then
        if s.lock p = none then
          .ok { (s.setState p .running).setTurn p .back with
            lock := Function.update s.lock p (some p) }
        else .error .lockHeld
      else .error .elsewhere
  | .resume p =>
      if s.turn p = .back then
        .ok { s.setTurn p .on with
          lock := Function.update s.lock p none
          chan := Function.update s.chan p none }
      else .error .elsewhere

/-- After `procinit` and `userinit`. -/
def boot (initproc : P) : WaitSystem P where
  state := Function.update (fun _ => .unused) initproc .runnable
  pid := Function.update (fun _ => 0) initproc 1
  chan := fun _ => none
  killed := fun _ => false
  xstate := fun _ => 0
  parent := fun _ => none
  nextpid := 2
  initproc := initproc
  lock := fun _ => none
  waitLock := none
  point := fun _ => .returned 0
  turn := fun _ => .off
  exits := []
  reaps := []

end WaitSystem

end Xv6.Proc
