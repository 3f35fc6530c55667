import Xv6.Framework.Run
import Mathlib

/-!
# Console input (`kernel/console.c`)

`consoleintr` handles one character under `cons.lock` and never sleeps, so it
is one step. Any number of processes are in `consoleread`, which is cut at
every round of its loops: it gives up the lock when it returns and when it
sleeps. Echoing and the list of processes that control-P prints are left out.
-/

namespace Xv6.Console

def INPUT_BUF_SIZE : ℕ := 128

instance INPUT_BUF_SIZE.neZero : NeZero INPUT_BUF_SIZE := ⟨by decide⟩

/-- The macro `C`: control-x. -/
def C (x : UInt8) : UInt8 := x - 64

/-- `C('D')`: end of file. -/
def EOF : UInt8 := C 68

/-- `C('P')`. -/
def PROCDUMP : UInt8 := C 80

/-- `C('U')`. -/
def KILL : UInt8 := C 85

/-- `C('H')`. -/
def BACKSPACE : UInt8 := C 72

/-- `'\x7f'`. -/
def DELETE : UInt8 := 0x7f

/-- `'\n'`. -/
def NL : UInt8 := 10

/-- `'\r'`. -/
def CR : UInt8 := 13

/-- Where a process is in `consoleread`; `n` counts down from `target`. -/
inductive Phase
  /-- Not in a call; the last one returned `ret`. -/
  | returned (ret : ℤ)
  | enter (n : ℤ)
  /-- At the head of the loop. -/
  | loop (target n : ℤ)
  /-- At the head of the waiting loop. -/
  | wait (target n : ℤ)
  /-- In `sleep(&cons.r, &cons.lock)`. -/
  | sleep (target n : ℤ)
  | fetch (target n : ℤ)
  /-- With the character `c` out of the buffer. -/
  | got (target n : ℤ) (c : UInt8)
  /-- Out of the loop, about to release the lock. -/
  | leave (target n : ℤ)
deriving DecidableEq, Repr

/-- The process has `cons.lock`. -/
def Phase.holding : Phase → Bool
  | .returned _ | .enter _ | .sleep _ _ => false
  | _ => true

structure Cons (P : Type) where
  buf : Fin INPUT_BUF_SIZE → UInt8 := fun _ => 0
  r : UInt32 := 0
  w : UInt32 := 0
  e : UInt32 := 0
  lock : Option P := none
  phase : P → Phase := fun _ => .returned 0
  /-- `p->state == SLEEPING`. -/
  asleep : P → Bool := fun _ => false
  killed : P → Bool := fun _ => false

/-- Why a step cannot be taken now. -/
inductive Blocked
  | lockHeld
  | asleep
  | inCall
  | notInCall
deriving DecidableEq, Repr

inductive Op (P : Type)
  /-- A character arrives. -/
  | intr (c : UInt8)
  /-- `p` calls `consoleread` for `n` bytes. -/
  | read (p : P) (n : ℤ)
  /-- The next step of `p`; `copied` says whether `either_copyout` succeeds,
  if the step calls it. -/
  | run (p : P) (copied : Bool)
  | kkill (p : P)

namespace Cons

variable {P : Type}

/-- `cons.buf[i % INPUT_BUF_SIZE]`. -/
def char (s : Cons P) (i : UInt32) : UInt8 :=
  s.buf (Fin.ofNat INPUT_BUF_SIZE i.toNat)

/-- The loop of control-U: what `cons.e` is after at most `k` rounds. -/
def killLine (s : Cons P) : ℕ → UInt32 → UInt32
  | 0, e => e
  | k + 1, e =>
      if e ≠ s.w ∧ s.char (e - 1) ≠ NL then s.killLine k (e - 1) else e

/-- `cons.buf[cons.e++ % INPUT_BUF_SIZE] = c`. -/
def store (s : Cons P) (c : UInt8) : Cons P :=
  { s with
    buf := Function.update s.buf (Fin.ofNat INPUT_BUF_SIZE s.e.toNat) c
    e := s.e + 1 }

/-- `cons.w = cons.e; wakeup(&cons.r)`. -/
def commit (s : Cons P) : Cons P :=
  { s with w := s.e, asleep := fun _ => false }

/-- `consoleintr`; between `cons.e` and `cons.w` there are
`cons.e - cons.w` characters for control-U to go through. -/
def consoleintr (s : Cons P) (c : UInt8) : Cons P :=
  if c = PROCDUMP then s
  else if c = KILL then { s with e := s.killLine (s.e - s.w).toNat s.e }
  else if c = BACKSPACE ∨ c = DELETE then
    if s.e ≠ s.w then { s with e := s.e - 1 } else s
  else if c ≠ 0 ∧ s.e - s.r < UInt32.ofNat INPUT_BUF_SIZE then
    let c := if c = CR then NL else c
    let s := s.store c
    if c = NL ∨ c = EOF ∨ s.e - s.r = UInt32.ofNat INPUT_BUF_SIZE then s.commit
    else s
  else s

variable [DecidableEq P]

def setPhase (s : Cons P) (p : P) (ph : Phase) : Cons P :=
  { s with phase := Function.update s.phase p ph }

def acquire (s : Cons P) (p : P) (ph : Phase) : Except Blocked (Cons P) :=
  if s.lock = none then .ok { s.setPhase p ph with lock := some p }
  else .error .lockHeld

def release (s : Cons P) (p : P) (ph : Phase) : Cons P :=
  { s.setPhase p ph with lock := none }

/-- The next step of `p` in `consoleread`. -/
def run (s : Cons P) (p : P) (copied : Bool) : Except Blocked (Cons P) :=
  match s.phase p with
  | .returned _ => .error .notInCall
  | .enter n => s.acquire p (.loop n n)
  | .loop target n =>
      if 0 < n then .ok (s.setPhase p (.wait target n))
      else .ok (s.setPhase p (.leave target n))
  | .wait target n =>
      if s.r = s.w then
        if s.killed p then .ok (s.release p (.returned (-1)))
        else .ok { s.release p (.sleep target n) with
          asleep := Function.update s.asleep p true }
      else .ok (s.setPhase p (.fetch target n))
  | .sleep target n =>
      if s.asleep p then .error .asleep else s.acquire p (.wait target n)
  | .fetch target n =>
      .ok ({ s with r := s.r + 1 }.setPhase p (.got target n (s.char s.r)))
  | .got target n c =>
      if c = EOF then
        -- save control-D for the next call, unless nothing has been read yet
        if n < target then
          .ok ({ s with r := s.r - 1 }.setPhase p (.leave target n))
        else .ok (s.setPhase p (.leave target n))
      else if copied then
        if c = NL then .ok (s.setPhase p (.leave target (n - 1)))
        else .ok (s.setPhase p (.loop target (n - 1)))
      else .ok (s.setPhase p (.leave target n))
  | .leave target n => .ok (s.release p (.returned (target - n)))

/-- `p` calls `consoleread`. -/
def read (s : Cons P) (p : P) (n : ℤ) : Except Blocked (Cons P) :=
  match s.phase p with
  | .returned _ => .ok (s.setPhase p (.enter n))
  | _ => .error .inCall

def step (s : Cons P) : Op P → Except Blocked (Cons P)
  | .intr c => if s.lock = none then .ok (s.consoleintr c) else .error .lockHeld
  | .read p n => s.read p n
  | .run p copied => s.run p copied
  | .kkill p =>
      .ok { s with
        killed := Function.update s.killed p true
        asleep := Function.update s.asleep p false }

end Cons

end Xv6.Console
