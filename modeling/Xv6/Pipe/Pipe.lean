import Xv6.Framework.Run
import Mathlib

/-!
# Pipes (`kernel/pipe.c`)

One pipe and any number of processes that write to it, read from it, close its
ends and kill each other. `pipewrite`, `piperead` and `pipeclose` are cut at
the points where another process can act: a process gives up `pi->lock` when
it returns and when it sleeps, and it can be killed at any time, also while it
holds the lock. `wakeup` is one step: who sleeps on a channel of the pipe went
to sleep holding `pi->lock`, which the caller of `wakeup` has.
-/

namespace Xv6.Pipe

def PIPESIZE : ℕ := 512

instance PIPESIZE.neZero : NeZero PIPESIZE := ⟨by decide⟩

/-- The two channels processes sleep on. -/
inductive Chan
  | nread
  | nwrite
deriving DecidableEq, Repr

/-- Where a process is in its call. The count `i` and the length `n` are the
local variables of the C functions. -/
inductive Phase
  /-- Not in a call; the last one returned `r`. -/
  | returned (r : ℤ)
  /-- `pipewrite`, about to acquire `pi->lock`. -/
  | writeEnter (n : ℤ)
  /-- At the head of the loop. -/
  | writeLoop (i : ℕ) (n : ℤ)
  /-- Past the test for a closed read end and for `killed`. -/
  | writeBody (i : ℕ) (n : ℤ)
  /-- The pipe is full and the readers have been woken. -/
  | writeSleep (i : ℕ) (n : ℤ)
  /-- `SLEEPING` on `&pi->nwrite`. -/
  | writeAsleep (i : ℕ) (n : ℤ)
  /-- Woken, about to reacquire `pi->lock`. -/
  | writeWoken (i : ℕ) (n : ℤ)
  /-- Out of the loop, about to wake the readers. -/
  | writeWake (i : ℕ)
  | writeRelease (i : ℕ)
  | readEnter (n : ℤ)
  /-- At the head of the waiting loop. -/
  | readWait (n : ℤ)
  | readSleep (n : ℤ)
  /-- `SLEEPING` on `&pi->nread`. -/
  | readAsleep (n : ℤ)
  | readWoken (n : ℤ)
  /-- At the head of the copying loop. -/
  | readCopy (i : ℕ) (n : ℤ)
  | readWake (i : ℕ)
  | readRelease (i : ℕ)
  | closeEnter (writable : Bool)
  | closeSet (writable : Bool)
  | closeWake (writable : Bool)
  | closeTest
deriving DecidableEq, Repr

namespace Phase

/-- The channel a process sleeps on. -/
def asleep : Phase → Option Chan
  | .writeAsleep _ _ => some .nwrite
  | .readAsleep _ => some .nread
  | _ => none

/-- `p->state = RUNNABLE` for a sleeping process. -/
def wake : Phase → Phase
  | .writeAsleep i n => .writeWoken i n
  | .readAsleep n => .readWoken n
  | ph => ph

/-- The process has `pi->lock`. -/
def holding : Phase → Bool
  | .writeLoop _ _ | .writeBody _ _ | .writeSleep _ _ | .writeWake _
  | .writeRelease _ | .readWait _ | .readSleep _ | .readCopy _ _
  | .readWake _ | .readRelease _ | .closeSet _ | .closeWake _
  | .closeTest => true
  | _ => false

def inWrite : Phase → Bool
  | .writeEnter _ | .writeLoop _ _ | .writeBody _ _ | .writeSleep _ _
  | .writeAsleep _ _ | .writeWoken _ _ | .writeWake _
  | .writeRelease _ => true
  | _ => false

def inRead : Phase → Bool
  | .readEnter _ | .readWait _ | .readSleep _ | .readAsleep _
  | .readWoken _ | .readCopy _ _ | .readWake _ | .readRelease _ => true
  | _ => false

/-- The process is in `pipeclose` of that end and has not marked it closed
yet. -/
def closes (writable : Bool) : Phase → Bool
  | .closeEnter w | .closeSet w => w == writable
  | _ => false

end Phase

structure PipeState (P : Type) where
  data : Fin PIPESIZE → UInt8
  nread : UInt32
  nwrite : UInt32
  readopen : Bool
  writeopen : Bool
  lock : Option P
  /-- `kfree(pi)` has been called. -/
  freed : Bool
  phase : P → Phase
  killed : P → Bool

/-- Why a step cannot be taken now. -/
inductive Blocked
  | lockHeld
  | asleep
  | inCall
  | notInCall
deriving DecidableEq, Repr

inductive PipeOp (P : Type)
  | write (p : P) (n : ℤ)
  | read (p : P) (n : ℤ)
  | close (p : P) (writable : Bool)
  /-- The next step of `p` in its call: `ch` is what `copyin` fetches, if the
  step calls it and it succeeds, and `copied` whether `copyout` succeeds. -/
  | run (p : P) (ch : Option UInt8) (copied : Bool)
  | kkill (p : P)

namespace PipeState

variable {P : Type} [DecidableEq P]

/-- `pipealloc`. -/
def pipealloc : PipeState P where
  data := fun _ => 5
  nread := 0
  nwrite := 0
  readopen := true
  writeopen := true
  lock := none
  freed := false
  phase := fun _ => .returned 0
  killed := fun _ => false

def setPhase (s : PipeState P) (p : P) (ph : Phase) : PipeState P :=
  { s with phase := Function.update s.phase p ph }

/-- `wakeup(chan)`. -/
def wakeup (s : PipeState P) (chan : Chan) : PipeState P :=
  { s with phase := fun q =>
      if (s.phase q).asleep = some chan then (s.phase q).wake
      else s.phase q }

def acquire (s : PipeState P) (p : P) (ph : Phase) :
    Except Blocked (PipeState P) :=
  if s.lock = none then .ok { s.setPhase p ph with lock := some p }
  else .error .lockHeld

def release (s : PipeState P) (p : P) (ph : Phase) : PipeState P :=
  { s.setPhase p ph with lock := none }

/-- `pi->nwrite == pi->nread + PIPESIZE`. -/
def full (s : PipeState P) : Prop := s.nwrite = s.nread + UInt32.ofNat PIPESIZE

instance full.decidable (s : PipeState P) : Decidable s.full :=
  inferInstanceAs (Decidable (_ = _))

/-- `pi->data[pi->nwrite++ % PIPESIZE] = ch`. -/
def store (s : PipeState P) (ch : UInt8) : PipeState P :=
  { s with
    data := Function.update s.data (Fin.ofNat PIPESIZE s.nwrite.toNat) ch
    nwrite := s.nwrite + 1 }

/-- `pi->data[pi->nread % PIPESIZE]`. -/
def front (s : PipeState P) : UInt8 :=
  s.data (Fin.ofNat PIPESIZE s.nread.toNat)

/-- `pi->nread++`. -/
def remove (s : PipeState P) : PipeState P :=
  { s with nread := s.nread + 1 }

def setClosed (s : PipeState P) (writable : Bool) : PipeState P :=
  if writable then { s with writeopen := false }
  else { s with readopen := false }

/-- The next step of `p`. -/
def run (s : PipeState P) (p : P) (ch : Option UInt8) (copied : Bool) :
    Except Blocked (PipeState P) :=
  match s.phase p with
  | .returned _ => .error .notInCall
  -- pipewrite
  | .writeEnter n => s.acquire p (.writeLoop 0 n)
  | .writeLoop i n =>
      if (i : ℤ) < n then
        if s.readopen = false ∨ s.killed p = true then
          .ok (s.release p (.returned (-1)))
        else .ok (s.setPhase p (.writeBody i n))
      else .ok (s.setPhase p (.writeWake i))
  | .writeBody i n =>
      if s.full then .ok ((s.wakeup .nread).setPhase p (.writeSleep i n))
      else
        match ch with
        | none => .ok (s.setPhase p (.writeWake i))
        | some ch => .ok ((s.store ch).setPhase p (.writeLoop (i + 1) n))
  | .writeSleep i n => .ok (s.release p (.writeAsleep i n))
  | .writeAsleep _ _ => .error .asleep
  | .writeWoken i n => s.acquire p (.writeLoop i n)
  | .writeWake i => .ok ((s.wakeup .nread).setPhase p (.writeRelease i))
  | .writeRelease i => .ok (s.release p (.returned i))
  -- piperead
  | .readEnter n => s.acquire p (.readWait n)
  | .readWait n =>
      if s.nread = s.nwrite ∧ s.writeopen = true then
        if s.killed p = true then .ok (s.release p (.returned (-1)))
        else .ok (s.setPhase p (.readSleep n))
      else .ok (s.setPhase p (.readCopy 0 n))
  | .readSleep n => .ok (s.release p (.readAsleep n))
  | .readAsleep _ => .error .asleep
  | .readWoken n => s.acquire p (.readWait n)
  | .readCopy i n =>
      if (i : ℤ) < n ∧ s.nread ≠ s.nwrite then
        if copied then .ok (s.remove.setPhase p (.readCopy (i + 1) n))
        else .ok (s.remove.setPhase p (.readWake i))
      else .ok (s.setPhase p (.readWake i))
  | .readWake i => .ok ((s.wakeup .nwrite).setPhase p (.readRelease i))
  | .readRelease i => .ok (s.release p (.returned i))
  -- pipeclose
  | .closeEnter w => s.acquire p (.closeSet w)
  | .closeSet w => .ok ((s.setClosed w).setPhase p (.closeWake w))
  | .closeWake w =>
      .ok ((s.wakeup (if w then .nread else .nwrite)).setPhase p .closeTest)
  | .closeTest =>
      if s.readopen = false ∧ s.writeopen = false then
        .ok { s.release p (.returned 0) with freed := true }
      else .ok (s.release p (.returned 0))

/-- `p` enters a call. -/
def call (s : PipeState P) (p : P) (ph : Phase) :
    Except Blocked (PipeState P) :=
  match s.phase p with
  | .returned _ => .ok (s.setPhase p ph)
  | _ => .error .inCall

/-- `kkill` of a process: its flag is set and a sleeper is woken. -/
def kkill (s : PipeState P) (p : P) : PipeState P :=
  { s.setPhase p (s.phase p).wake with
    killed := Function.update s.killed p true }

def step (s : PipeState P) : PipeOp P → Except Blocked (PipeState P)
  | .write p n => s.call p (.writeEnter n)
  | .read p n => s.call p (.readEnter n)
  | .close p w => s.call p (.closeEnter w)
  | .run p ch copied => s.run p ch copied
  | .kkill p => .ok (s.kkill p)

/-- What the reference counts of the two `struct file`s see to: a call is made
through an end that is open and that nobody is closing, and an end is closed
once, when nobody is in a call on it. -/
def Client (s : PipeState P) : PipeOp P → Prop
  | .write _ _ => s.writeopen = true ∧ ∀ q, (s.phase q).closes true = false
  | .read _ _ => s.readopen = true ∧ ∀ q, (s.phase q).closes false = false
  | .close _ true => s.writeopen = true ∧ ∀ q,
      (s.phase q).closes true = false ∧ (s.phase q).inWrite = false
  | .close _ false => s.readopen = true ∧ ∀ q,
      (s.phase q).closes false = false ∧ (s.phase q).inRead = false
  | .run _ _ _ => True
  | .kkill _ => True

instance Client.decidable [Fintype P] (s : PipeState P) (op : PipeOp P) :
    Decidable (s.Client op) :=
  match op with
  | .write _ _ => inferInstanceAs (Decidable (_ ∧ _))
  | .read _ _ => inferInstanceAs (Decidable (_ ∧ _))
  | .close _ true => inferInstanceAs (Decidable (_ ∧ _))
  | .close _ false => inferInstanceAs (Decidable (_ ∧ _))
  | .run _ _ _ => inferInstanceAs (Decidable True)
  | .kkill _ => inferInstanceAs (Decidable True)

end PipeState

end Xv6.Pipe
