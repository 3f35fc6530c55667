import Xv6.Framework.Ring
import Xv6.Framework.Run
import Xv6.Framework.Tally
import Xv6.Log.Model

/-!
# The buffer cache (`kernel/bio.c`)

Any number of processes use the cache at once. A step is what one process does
between two points where others may run: a critical section under
`bcache.lock`, one try of `acquiresleep`, or what a process does to a buffer
whose sleep lock it holds. `bread` is three steps (`bget`, `acquiresleep`, the
disk read) and `brelse` is two.

The history beside the state is for the statements only: how often each buffer
is pinned, and what was last stored in the buffer of each block.
-/

namespace Xv6.Bio

open Framework Log

def NBUF : ℕ := MAXOPBLOCKS * 3

instance NBUF.neZero : NeZero NBUF := ⟨by decide⟩

/-- The device number of the disk. -/
def ROOTDEV : UInt32 := 1

abbrev BufId : Type := Fin NBUF

/-- The ways a call does not return: a panic of the cache or of `log_write`,
or a sleep that nobody ends. -/
inductive Stop
  | noBuffers
  | bwrite
  | brelse
  | asleep
  | tooBig
deriving DecidableEq

/-- `struct buf`, less the list pointers. -/
structure Buf (P : Type*) where
  valid : Bool := false
  dev : UInt32 := 0
  blockno : BlockNo := 0
  lock : Option P := none
  refcnt : UInt32 := 0
  data : Block := fun _ => 0

/-- Where a process is in a call: in `bread` before and after it has the sleep
lock, with the block it asked for, or in `brelse` after giving the lock up. -/
inductive Task
  | idle
  | waiting (i : BufId) (b : BlockNo)
  | filling (i : BufId) (b : BlockNo)
  | releasing (i : BufId)
deriving DecidableEq

/-- `bcache`, the disk, and the processes. -/
structure BioState (P : Type*) where
  buf : BufId → Buf P
  links : Links BufId
  disk : Disk
  task : P → Task

/-- A step of one process. -/
inductive BioOp (P : Type*)
  | bget (p : P) (dev : UInt32) (b : BlockNo)
  | acquiresleep (p : P)
  | fill (p : P)
  | modify (p : P) (i : BufId) (data : Block)
  | bwrite (p : P) (i : BufId)
  | brelse (p : P) (i : BufId)
  | release (p : P)
  | bpin (i : BufId)
  | bunpin (i : BufId)

namespace BioState

variable {P : Type*}

/-- The first loop of `bget`. -/
def lookup (s : BioState P) (dev : UInt32) (b : BlockNo) : Option BufId :=
  Links.scan s.links.next
    (fun i => (s.buf i).dev = dev && (s.buf i).blockno = b)
    NBUF (s.links.next none)

/-- The second loop of `bget`. -/
def victim (s : BioState P) : Option BufId :=
  Links.scan s.links.prev (fun i => (s.buf i).refcnt = 0)
    NBUF (s.links.prev none)

def setBuf (s : BioState P) (i : BufId) (b : Buf P) : BioState P :=
  { s with buf := Function.update s.buf i b }

section Fields

variable (s : BioState P) (i : BufId) (b : Buf P)

@[simp] theorem setBuf_buf : (s.setBuf i b).buf = Function.update s.buf i b :=
  rfl

@[simp] theorem setBuf_disk : (s.setBuf i b).disk = s.disk := rfl

@[simp] theorem setBuf_task : (s.setBuf i b).task = s.task := rfl

end Fields

@[simp]
def addRef (s : BioState P) (i : BufId) : BioState P :=
  s.setBuf i { s.buf i with refcnt := (s.buf i).refcnt + 1 }

@[simp]
def dropRef (s : BioState P) (i : BufId) : BioState P :=
  s.setBuf i { s.buf i with refcnt := (s.buf i).refcnt - 1 }

@[simp]
def recycle (s : BioState P) (i : BufId) (dev : UInt32) (b : BlockNo) :
    BioState P :=
  s.setBuf i { s.buf i with
    dev := dev, blockno := b, valid := false, refcnt := 1 }

variable [DecidableEq P]

def setTask (s : BioState P) (p : P) (τ : Task) : BioState P :=
  { s with task := Function.update s.task p τ }

section TaskFields

variable (s : BioState P) (p : P) (τ : Task)

@[simp] theorem setTask_buf : (s.setTask p τ).buf = s.buf := rfl

@[simp] theorem setTask_disk : (s.setTask p τ).disk = s.disk := rfl

@[simp] theorem setTask_self : (s.setTask p τ).task p = τ := by
  simp [setTask]

theorem setTask_of_ne {q : P} (h : q ≠ p) :
    (s.setTask p τ).task q = s.task q := by
  simp [setTask, h]

end TaskFields

/-- `bget` up to its call of `acquiresleep`. -/
def bget (s : BioState P) (p : P) (dev : UInt32) (b : BlockNo) :
    Except Stop (BioState P) :=
  match s.lookup dev b with
  | some i => .ok ((s.addRef i).setTask p (.waiting i b))
  | none =>
      match s.victim with
      | some i => .ok ((s.recycle i dev b).setTask p (.waiting i b))
      | none => .error .noBuffers

/-- One round of the loop of `acquiresleep`. -/
def acquiresleep (s : BioState P) (p : P) : BioState P :=
  match s.task p with
  | .waiting i b =>
      if (s.buf i).lock.isSome then s
      else (s.setBuf i { s.buf i with lock := some p }).setTask p
        (.filling i b)
  | _ => s

/-- `bread` after `bget` has returned. -/
def fill (s : BioState P) (p : P) : BioState P :=
  match s.task p with
  | .filling i _ =>
      if (s.buf i).valid then s.setTask p .idle
      else (s.setBuf i { s.buf i with
        data := s.disk (s.buf i).blockno, valid := true }).setTask p .idle
  | _ => s

@[simp]
def modify (s : BioState P) (i : BufId) (data : Block) : BioState P :=
  s.setBuf i { s.buf i with data := data }

def bwrite (s : BioState P) (p : P) (i : BufId) :
    Except Stop (BioState P) :=
  if (s.buf i).lock = some p then
    .ok { s with
      disk := Function.update s.disk (s.buf i).blockno (s.buf i).data }
  else .error .bwrite

/-- `brelse` up to its critical section. -/
def brelse (s : BioState P) (p : P) (i : BufId) :
    Except Stop (BioState P) :=
  if (s.buf i).lock = some p then
    .ok ((s.setBuf i { s.buf i with lock := none }).setTask p (.releasing i))
  else .error .brelse

/-- The critical section of `brelse`. -/
def release (s : BioState P) (p : P) : BioState P :=
  match s.task p with
  | .releasing i =>
      let s := (s.dropRef i).setTask p .idle
      if (s.buf i).refcnt = 0 then
        { s with links := (s.links.unlink i).pushFront i }
      else s
  | _ => s

def step (s : BioState P) : BioOp P → Except Stop (BioState P)
  | .bget p dev b => s.bget p dev b
  | .acquiresleep p => .ok (s.acquiresleep p)
  | .fill p => .ok (s.fill p)
  | .modify _ i data => .ok (s.modify i data)
  | .bwrite p i => s.bwrite p i
  | .brelse p i => s.brelse p i
  | .release p => .ok (s.release p)
  | .bpin i => .ok (s.addRef i)
  | .bunpin i => .ok (s.dropRef i)

/-- `binit`: the buffers are linked in one after the other. -/
def binit (disk : Disk) : BioState P where
  buf := fun _ => {}
  links := (List.finRange NBUF).foldl Links.pushFront
    ⟨fun _ => none, fun _ => none⟩
  disk := disk
  task := fun _ => .idle

end BioState

/-! ## The history -/

/-- The state with its history: the pins of each buffer, and for each block of
the disk what was last stored in its buffer since it got that buffer. -/
structure Traced (P : Type*) where
  s : BioState P
  pins : BufId → ℕ
  left : BlockNo → Option Block

namespace Traced

variable {P : Type*}

/-- The buffer is that of block `b` of the disk. -/
def Carries (t : Traced P) (i : BufId) (b : BlockNo) : Prop :=
  (t.s.buf i).dev = ROOTDEV ∧ (t.s.buf i).blockno = b

/-- What the steps of a run pin, and what they leave in the buffers. -/
def record (t : Traced P) : BioOp P → Traced P
  | .bget _ dev b =>
      match t.s.lookup dev b, t.s.victim with
      | none, some i =>
          if (t.s.buf i).dev = ROOTDEV then
            { t with left := Function.update t.left (t.s.buf i).blockno none }
          else t
      | _, _ => t
  | .modify _ i data =>
      { t with
        left := Function.update t.left (t.s.buf i).blockno (some data) }
  | .bpin i => { t with pins := Function.update t.pins i (t.pins i + 1) }
  | .bunpin i => { t with pins := Function.update t.pins i (t.pins i - 1) }
  | _ => t

variable [DecidableEq P]

def step (t : Traced P) (a : BioOp P) : Except Stop (Traced P) := do
  let s ← t.s.step a
  .ok { t.record a with s := s }

/-- After `binit`, with nothing pinned. -/
def boot (disk : Disk) : Traced P := ⟨.binit disk, fun _ => 0, fun _ => none⟩

end Traced

/-! ## The interface -/

section Interface

variable {P : Type*}

/-- The process is between its `bread` and its `brelse` of the buffer. -/
def Holds (t : Traced P) (p : P) (i : BufId) : Prop :=
  t.s.task p = .idle ∧ (t.s.buf i).lock = some p

/-- The order of the calls: one call at a time, a buffer is touched only
between `bread` and `brelse`, each `bunpin` matches a `bpin`. -/
def Client (t : Traced P) : BioOp P → Prop
  | .bget p dev _ => t.s.task p = .idle ∧ dev = ROOTDEV
  | .acquiresleep p => ∃ i b, t.s.task p = .waiting i b
  | .fill p => ∃ i b, t.s.task p = .filling i b
  | .modify p i _ => Holds t p i
  | .bwrite p i => Holds t p i
  | .brelse p i => Holds t p i
  | .release p => ∃ i, t.s.task p = .releasing i
  | .bpin _ => True
  | .bunpin i => 0 < t.pins i

instance Traced.decidableCarries (t : Traced P) (i : BufId) (b : BlockNo) :
    Decidable (t.Carries i b) := inferInstanceAs (Decidable (_ ∧ _))

variable [DecidableEq P]

instance Holds.decidable (t : Traced P) (p : P) (i : BufId) :
    Decidable (Holds t p i) :=
  inferInstanceAs (Decidable (_ ∧ _))

/-- The guard can be evaluated: the task says which call it is. -/
instance Client.decidable (t : Traced P) : (a : BioOp P) →
    Decidable (Client t a)
  | .bget _ _ _ => inferInstanceAs (Decidable (_ ∧ _))
  | .acquiresleep p =>
      match h : t.s.task p with
      | .waiting i b => isTrue ⟨i, b, h⟩
      | .idle | .filling _ _ | .releasing _ => isFalse (by simp [Client, h])
  | .fill p =>
      match h : t.s.task p with
      | .filling i b => isTrue ⟨i, b, h⟩
      | .idle | .waiting _ _ | .releasing _ => isFalse (by simp [Client, h])
  | .modify p i _ => inferInstanceAs (Decidable (Holds t p i))
  | .bwrite p i => inferInstanceAs (Decidable (Holds t p i))
  | .brelse p i => inferInstanceAs (Decidable (Holds t p i))
  | .release p =>
      match h : t.s.task p with
      | .releasing i => isTrue ⟨i, h⟩
      | .idle | .waiting _ _ | .filling _ _ => isFalse (by simp [Client, h])
  | .bpin _ => isTrue trivial
  | .bunpin i => inferInstanceAs (Decidable (0 < t.pins i))

end Interface

end Xv6.Bio
