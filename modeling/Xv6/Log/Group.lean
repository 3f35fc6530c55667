import Xv6.Framework.Run
import Xv6.Framework.Tally
import Xv6.Log.Model

/-!
# Group commit (`begin_op`, `log_write`, `end_op`, `commit`)

Any number of processes run file-system operations at once. A step is what
one process does between two points where others may run: a critical section
under `log.lock`, or, since `commit` runs without the lock, one block moved by
`commit`. A process that `begin_op` puts to sleep stays where it is and tries
again.

The history beside the state is for the statements only: which operation
passed which block to `log_write`, and what each commit had in the log.
-/

namespace Xv6.Log

open Framework

/-- The ways the log stops the kernel. -/
inductive LogPanic
  | tooBig
  | outsideTrans
  | logCommitting
deriving DecidableEq

/-- Where a process is in `commit`, called from `end_op`. -/
inductive Pc
  | start
  | writeLog (tail : ℕ)
  | writeHead
  | installTrans (tail : ℕ)
  | clear
  | erase
  | done
deriving DecidableEq

/-- Where a process is with respect to the log. -/
inductive Phase
  | idle
  | inOp
  | commit (pc : Pc)
deriving DecidableEq

/-- `struct log`, the buffers that `log_write` pins, and the disk. -/
structure LogState (P : Type*) where
  outstanding : ℤ := 0
  committing : Bool := false
  lh : List BlockNo := []
  phase : P → Phase
  cache : BlockNo → Block
  pins : BlockNo → ℕ
  copies : ℕ → Block
  header : List BlockNo := []
  home : Disk

/-- A step of one process. `logWrite` is the modification of a buffer and the
call of `log_write` on it, between which the buffer stays locked. -/
inductive LogOp (P : Type*)
  | beginOp (p : P)
  | logWrite (p : P) (b : BlockNo) (data : Block)
  | endOp (p : P)
  | commit (p : P)

section Model

variable {P : Type*} [DecidableEq P]

namespace LogState

def setPhase (s : LogState P) (p : P) (ph : Phase) : LogState P :=
  { s with phase := Function.update s.phase p ph }

/-- One round of the loop of `begin_op`. -/
def beginOp (s : LogState P) (p : P) : LogState P :=
  if s.committing then s
  else if s.lh.length + (s.outstanding + 1) * MAXOPBLOCKS > LOGBLOCKS then s
  else { s.setPhase p .inOp with outstanding := s.outstanding + 1 }

/-- `log_write` of a buffer that has just been given `data`. -/
def logWrite (s : LogState P) (b : BlockNo) (data : Block) :
    Except LogPanic (LogState P) :=
  if s.lh.length ≥ LOGBLOCKS then .error .tooBig
  else if s.outstanding < 1 then .error .outsideTrans
  else
    let s := { s with cache := Function.update s.cache b data }
    if b ∈ s.lh then .ok s
    else .ok { s with
      lh := s.lh ++ [b]
      pins := Function.update s.pins b (s.pins b + 1) }

/-- The first critical section of `end_op`. -/
def endOp (s : LogState P) (p : P) : Except LogPanic (LogState P) :=
  let s := { s with outstanding := s.outstanding - 1 }
  if s.committing then .error .logCommitting
  else if s.outstanding = 0 then
    .ok { s.setPhase p (.commit .start) with committing := true }
  else .ok (s.setPhase p .idle)

/-- The next step of `commit`, and of `end_op` after it. -/
def commitStep (s : LogState P) (p : P) : Pc → LogState P
  | .start =>
      s.setPhase p (.commit (if s.lh.length > 0 then .writeLog 0 else .done))
  | .writeLog tail =>
      match s.lh[tail]? with
      | some b =>
          { s.setPhase p (.commit (.writeLog (tail + 1))) with
            copies := Function.update s.copies tail (s.cache b) }
      | none => s.setPhase p (.commit .writeHead)
  | .writeHead =>
      { s.setPhase p (.commit (.installTrans 0)) with header := s.lh }
  | .installTrans tail =>
      match s.lh[tail]? with
      | some b =>
          { s.setPhase p (.commit (.installTrans (tail + 1))) with
            cache := Function.update s.cache b (s.copies tail)
            home := Function.update s.home b (s.copies tail)
            pins := Function.update s.pins b (s.pins b - 1) }
      | none => s.setPhase p (.commit .clear)
  | .clear => { s.setPhase p (.commit .erase) with lh := [] }
  | .erase => { s.setPhase p (.commit .done) with header := [] }
  | .done => { s.setPhase p .idle with committing := false }

def step (s : LogState P) : LogOp P → Except LogPanic (LogState P)
  | .beginOp p => .ok (s.beginOp p)
  | .logWrite _ b data => s.logWrite b data
  | .endOp p => s.endOp p
  | .commit p =>
      match s.phase p with
      | .commit pc => .ok (s.commitStep p pc)
      | _ => .ok s

end LogState

/-! ## The history -/

/-- A call of `log_write`: the process, the number of its operation, the block
and what it held. -/
structure Write (P : Type*) where
  p : P
  op : ℕ
  b : BlockNo
  data : Block

/-- The calls of `log_write` that belong to one commit, and the blocks that
the log held for it. -/
structure Commit (P : Type*) where
  group : List (Write P)
  list : List (BlockNo × Block)

structure History (P : Type*) where
  ended : P → ℕ := fun _ => 0
  current : List (Write P) := []
  commits : List (Commit P) := []

/-- The state with its history. -/
structure Logged (P : Type*) where
  s : LogState P
  h : History P

namespace Logged

/-- The history after a step taken in state `l.s`. -/
def record (l : Logged P) : LogOp P → History P
  | .beginOp _ => l.h
  | .logWrite p b data =>
      { l.h with current := l.h.current ++ [⟨p, l.h.ended p, b, data⟩] }
  | .endOp p =>
      { l.h with ended := Function.update l.h.ended p (l.h.ended p + 1) }
  | .commit p =>
      if l.s.phase p = .commit .clear then
        { l.h with
          current := []
          commits := l.h.commits ++ [⟨l.h.current, l.s.header.zip
            ((List.range l.s.header.length).map l.s.copies)⟩] }
      else l.h

def step (l : Logged P) (a : LogOp P) : Except LogPanic (Logged P) := do
  let s ← l.s.step a
  .ok ⟨s, l.record a⟩

end Logged

/-- Every operation is `begin_op`, calls of `log_write`, `end_op`. -/
def Client (l : Logged P) : LogOp P → Prop
  | .beginOp p => l.s.phase p = .idle
  | .logWrite p _ _ => l.s.phase p = .inOp
  | .endOp p => l.s.phase p = .inOp
  | .commit p => ∃ pc, l.s.phase p = .commit pc

/-- The log after `initlog`. -/
structure Boot (l : Logged P) : Prop where
  outstanding : l.s.outstanding = 0
  committing : l.s.committing = false
  lh : l.s.lh = []
  idle : ∀ p, l.s.phase p = .idle
  pins : ∀ b, l.s.pins b = 0
  history : l.h = {}

end Model

end Xv6.Log
