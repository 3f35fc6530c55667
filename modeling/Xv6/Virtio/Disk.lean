import Xv6.Framework.Run
import Mathlib

/-!
# The disk driver (`kernel/virtio_disk.c`)

Any number of calls of `virtio_disk_rw` and `virtio_disk_intr`, and the device.
The driver runs under `vdisk_lock` and gives it up when it returns and when it
sleeps, but the device acts at any time. So the driver is cut at every access
to memory that the device also reads or writes, and at every round of its
loops. The device takes the heads of chains out of the avail ring, performs
the requests in any order, and puts each head into the used ring when it has
performed the request.
-/

namespace Xv6.Virtio

def NUM : ℕ := 8

instance NUM.neZero : NeZero NUM := ⟨by decide⟩

def BSIZE : UInt32 := 1024

def VRING_DESC_F_NEXT : UInt16 := 1

def VRING_DESC_F_WRITE : UInt16 := 2

def VIRTIO_BLK_T_IN : UInt32 := 0

def VIRTIO_BLK_T_OUT : UInt32 := 1

/-- The addresses that the driver tells the device. -/
inductive Addr (B : Type)
  | null
  /-- `&disk.ops[i]`. -/
  | ops (i : ℕ)
  /-- `b->data`. -/
  | data (b : B)
  /-- `&disk.info[i].status`. -/
  | status (i : ℕ)
deriving DecidableEq, Repr

/-- `struct virtq_desc`. -/
structure Desc (B : Type) where
  addr : Addr B := .null
  len : UInt32 := 0
  flags : UInt16 := 0
  next : UInt16 := 0
deriving DecidableEq, Repr

/-- `struct virtio_blk_req`. -/
structure BlkReq where
  type : UInt32 := 0
  reserved : UInt32 := 0
  sector : UInt64 := 0
deriving DecidableEq, Repr

/-- `struct virtq_avail`. -/
structure Avail where
  idx : UInt16 := 0
  ring : Fin NUM → UInt16 := fun _ => 0

/-- `struct virtq_used`; of an entry only the id matters. -/
structure Used where
  idx : UInt16 := 0
  ring : Fin NUM → UInt32 := fun _ => 0

/-- `disk.info[i]`. -/
structure Info (B : Type) where
  b : Option B := none
  status : UInt8 := 0

/-- The arguments of `virtio_disk_rw`, and `b->blockno`. -/
structure Call (B : Type) where
  b : B
  write : Bool
  blockno : UInt32
deriving DecidableEq, Repr

/-- `idx[0]`, `idx[1]` and `idx[2]`. -/
structure Chain where
  head : ℕ
  data : ℕ
  status : ℕ
deriving DecidableEq, Repr

/-- Where `virtio_disk_rw` is while it has its three descriptors. -/
inductive Stage
  /-- About to fill in `disk.ops[idx[0]]`. -/
  | header
  /-- About to fill in the three descriptors. -/
  | head
  | data
  | status
  /-- About to set `b->disk` and `disk.info[idx[0]].b`. -/
  | record
  /-- About to store into the avail ring. -/
  | ring
  /-- About to increment `disk.avail->idx`. -/
  | publish
  | notify
  /-- At the test of `b->disk`. -/
  | wait
  /-- In `sleep(b, &disk.vdisk_lock)`. -/
  | sleep
  /-- About to clear `disk.info[idx[0]].b`. -/
  | clear
deriving DecidableEq, Repr

inductive Panic
  | freeDesc1
  | freeDesc2
  | intrStatus
  /-- `virtio_disk_intr` follows a null pointer. -/
  | nullBuf
deriving DecidableEq, Repr

/-- Where a thread is. -/
inductive Point (B : Type)
  | idle
  /-- `virtio_disk_rw`, about to acquire the lock. -/
  | enter (c : Call B)
  /-- In the loop of `alloc3_desc`. -/
  | alloc (c : Call B) (idx : List ℕ)
  /-- `alloc3_desc` gives back what it has. -/
  | undo (c : Call B) (idx : List ℕ)
  /-- In `sleep(&disk.free[0], &disk.vdisk_lock)`. -/
  | starved (c : Call B)
  | busy (c : Call B) (x : Chain) (st : Stage)
  /-- In the loop of `free_chain`. -/
  | freeing (c : Call B) (x : Chain) (i : ℕ)
  | leave (c : Call B)
  /-- `virtio_disk_intr`, about to acquire the lock. -/
  | intrEnter
  /-- At the head of its loop. -/
  | intrTest
  | intrRead
  /-- About to test the status of request `id`. -/
  | intrStatus (id : ℕ)
  | intrDone (id : ℕ)
  | intrLeave
  | panicked (p : Panic)
deriving DecidableEq, Repr

/-- The channels that threads sleep on. -/
inductive Chan (B : Type)
  | free
  | buf (b : B)
deriving DecidableEq, Repr

namespace Point

variable {B : Type}

def chan : Point B → Option (Chan B)
  | .starved _ => some .free
  | .busy c _ .sleep => some (.buf c.b)
  | _ => none

/-- The thread has `vdisk_lock`. -/
def holding : Point B → Bool
  | .idle | .enter _ | .starved _ | .busy _ _ .sleep | .intrEnter => false
  | _ => true

/-- The buffer of the call that the thread is in. -/
def buf : Point B → Option B
  | .enter c | .alloc c _ | .undo c _ | .starved c | .busy c _ _
  | .freeing c _ _ | .leave c => some c.b
  | _ => none

/-- `idx[i]` for the next `i`. -/
def allocNext (c : Call B) (i : ℕ) : List ℕ → Point B
  | [i₀, i₁] => .busy c ⟨i₀, i₁, i⟩ .header
  | idx => .alloc c (idx ++ [i])

end Point

/-- What the device knows: how far it has read the avail ring, the heads it
has read and the ones whose requests it has performed. -/
structure Device where
  seen : UInt16 := 0
  todo : List ℕ := []
  done : List ℕ := []
  /-- The head that it has stored into the used ring, before it increments
  `disk.used->idx`. -/
  posted : Option ℕ := none

structure State (T B : Type) where
  desc : ℕ → Desc B := fun _ => {}
  avail : Avail := {}
  used : Used := {}
  free : ℕ → Bool := fun _ => true
  usedIdx : UInt16 := 0
  info : ℕ → Info B := fun _ => {}
  ops : ℕ → BlkReq := fun _ => {}
  lock : Option T := none
  /-- `b->disk`. -/
  disk : B → Bool := fun _ => false
  point : T → Point B := fun _ => .idle
  /-- `p->state == SLEEPING`. -/
  asleep : T → Bool := fun _ => false
  dev : Device := {}

/-- Why a step cannot be taken now. -/
inductive Blocked
  | lockHeld
  | asleep
  | inCall
  | notInCall
  | nothing
  | malformed
deriving DecidableEq, Repr

inductive Op (T B : Type)
  | rw (t : T) (c : Call B)
  | intr (t : T)
  /-- The next step of `t`. -/
  | run (t : T)
  | kkill (t : T)
  /-- The device reads the next entry of the avail ring. -/
  | fetch
  /-- It performs the request with this head. -/
  | perform (h : ℕ)
  /-- It stores the head into the used ring. -/
  | post (h : ℕ)
  /-- It increments `disk.used->idx`. -/
  | advance

/-! ## What the driver writes -/

variable {T B : Type}

namespace Call

/-- `b->blockno * (BSIZE / 512)`. -/
def sector (c : Call B) : UInt64 := (c.blockno * (BSIZE / 512)).toUInt64

def header (c : Call B) : BlkReq where
  type := if c.write then VIRTIO_BLK_T_OUT else VIRTIO_BLK_T_IN
  reserved := 0
  sector := c.sector

def dataDesc (c : Call B) (x : Chain) : Desc B where
  addr := .data c.b
  len := BSIZE
  flags := (if c.write then 0 else VRING_DESC_F_WRITE) ||| VRING_DESC_F_NEXT
  next := x.status.toUInt16

end Call

namespace Chain

def headDesc (x : Chain) : Desc B where
  addr := .ops x.head
  len := 16
  flags := VRING_DESC_F_NEXT
  next := x.data.toUInt16

def statusDesc (x : Chain) : Desc B where
  addr := .status x.head
  len := 1
  flags := VRING_DESC_F_WRITE
  next := 0

end Chain

/-- A transfer, as the device finds it in a chain of descriptors. -/
structure Transfer (B : Type) where
  b : B
  type : UInt32
  sector : UInt64
  len : UInt32
  /-- The device may write the data. -/
  toMemory : Bool
deriving DecidableEq, Repr

/-- The transfer that a call asks for. -/
def Call.transfer (c : Call B) : Transfer B where
  b := c.b
  type := if c.write then VIRTIO_BLK_T_OUT else VIRTIO_BLK_T_IN
  sector := c.sector
  len := BSIZE
  toMemory := !c.write

namespace State

/-- The chain that starts at `h`, read by the device: the transfer, and which
status byte the device is to write. -/
def request (s : State T B) (h : ℕ) : Option (Transfer B × ℕ) :=
  let d₀ := s.desc h
  let d₁ := s.desc d₀.next.toNat
  let d₂ := s.desc d₁.next.toNat
  if d₀.flags &&& VRING_DESC_F_NEXT = 0 ∨ d₁.flags &&& VRING_DESC_F_NEXT = 0 ∨
      d₂.flags &&& VRING_DESC_F_WRITE = 0 then none
  else
    match d₀.addr, d₁.addr, d₂.addr with
    | .ops i, .data b, .status j =>
        some ({ b := b, type := (s.ops i).type, sector := (s.ops i).sector
                len := d₁.len
                toMemory := decide (d₁.flags &&& VRING_DESC_F_WRITE ≠ 0) }, j)
    | _, _, _ => none

variable [DecidableEq T] [DecidableEq B]

def setPoint (s : State T B) (t : T) (p : Point B) : State T B :=
  { s with point := Function.update s.point t p }

def setDesc (s : State T B) (i : ℕ) (d : Desc B) : State T B :=
  { s with desc := Function.update s.desc i d }

def setInfo (s : State T B) (i : ℕ) (f : Info B) : State T B :=
  { s with info := Function.update s.info i f }

def acquire (s : State T B) (t : T) (p : Point B) :
    Except Blocked (State T B) :=
  if s.lock = none then .ok { s.setPoint t p with lock := some t }
  else .error .lockHeld

def release (s : State T B) (t : T) (p : Point B) : State T B :=
  { s.setPoint t p with lock := none }

/-- `sleep` gives up the lock; `p` is the point inside it. -/
def sleep (s : State T B) (t : T) (p : Point B) : State T B :=
  { s.release t p with asleep := Function.update s.asleep t true }

/-- The rest of `sleep`, once the thread has been woken. -/
def wake (s : State T B) (t : T) (p : Point B) : Except Blocked (State T B) :=
  if s.asleep t then .error .asleep else s.acquire t p

def wakeup (s : State T B) (chan : Chan B) : State T B :=
  { s with asleep := fun u =>
      s.asleep u && !decide ((s.point u).chan = some chan) }

/-- `alloc_desc`. -/
def allocDesc (s : State T B) : Option (State T B × ℕ) :=
  ((List.range NUM).find? s.free).map fun i =>
    ({ s with free := Function.update s.free i false }, i)

/-- `free_desc`. -/
def freeDesc (s : State T B) (i : ℕ) : Except Panic (State T B) :=
  if NUM ≤ i then .error .freeDesc1
  else if s.free i then .error .freeDesc2
  else .ok ({ s.setDesc i {} with
    free := Function.update s.free i true }.wakeup .free)

/-- The steps of `virtio_disk_rw` with the three descriptors. -/
def work (s : State T B) (t : T) (c : Call B) (x : Chain) :
    Stage → Except Blocked (State T B)
  | .header =>
      .ok ({ s with ops := Function.update s.ops x.head c.header }.setPoint t
        (.busy c x .head))
  | .head =>
      .ok ((s.setDesc x.head x.headDesc).setPoint t (.busy c x .data))
  | .data =>
      .ok ((s.setDesc x.data (c.dataDesc x)).setPoint t (.busy c x .status))
  | .status =>
      .ok (((s.setInfo x.head { s.info x.head with status := 0xff }).setDesc
        x.status x.statusDesc).setPoint t (.busy c x .record))
  | .record =>
      .ok ({ s.setInfo x.head { s.info x.head with b := some c.b } with
        disk := Function.update s.disk c.b true }.setPoint t
          (.busy c x .ring))
  | .ring =>
      .ok ({ s with avail := { s.avail with
        ring := Function.update s.avail.ring
          (Fin.ofNat NUM s.avail.idx.toNat) x.head.toUInt16 } }.setPoint t
          (.busy c x .publish))
  | .publish =>
      .ok ({ s with avail := { s.avail with
        idx := s.avail.idx + 1 } }.setPoint t (.busy c x .notify))
  | .notify => .ok (s.setPoint t (.busy c x .wait))
  | .wait =>
      if s.disk c.b then .ok (s.sleep t (.busy c x .sleep))
      else .ok (s.setPoint t (.busy c x .clear))
  | .sleep => s.wake t (.busy c x .wait)
  | .clear =>
      .ok ((s.setInfo x.head { s.info x.head with b := none }).setPoint t
        (.freeing c x x.head))

/-- The next step of `t`. -/
def run (s : State T B) (t : T) : Except Blocked (State T B) :=
  match s.point t with
  | .idle => .error .notInCall
  | .panicked _ => .error .notInCall
  | .enter c => s.acquire t (.alloc c [])
  | .alloc c idx =>
      match s.allocDesc with
      | none => .ok (s.setPoint t (.undo c idx))
      | some (s', i) => .ok (s'.setPoint t (.allocNext c i idx))
  | .undo c [] => .ok (s.sleep t (.starved c))
  | .undo c (i :: idx) =>
      match s.freeDesc i with
      | .error p => .ok (s.setPoint t (.panicked p))
      | .ok s' => .ok (s'.setPoint t (.undo c idx))
  | .starved c => s.wake t (.alloc c [])
  | .busy c x st => s.work t c x st
  | .freeing c x i =>
      match s.freeDesc i with
      | .error p => .ok (s.setPoint t (.panicked p))
      | .ok s' =>
          if (s.desc i).flags &&& VRING_DESC_F_NEXT ≠ 0 then
            .ok (s'.setPoint t (.freeing c x (s.desc i).next.toNat))
          else .ok (s'.setPoint t (.leave c))
  | .leave _ => .ok (s.release t .idle)
  | .intrEnter => s.acquire t .intrTest
  | .intrTest =>
      if s.usedIdx ≠ s.used.idx then .ok (s.setPoint t .intrRead)
      else .ok (s.setPoint t .intrLeave)
  | .intrRead =>
      .ok (s.setPoint t (.intrStatus
        (s.used.ring (Fin.ofNat NUM s.usedIdx.toNat)).toNat))
  | .intrStatus id =>
      if (s.info id).status ≠ 0 then .ok (s.setPoint t (.panicked .intrStatus))
      else .ok (s.setPoint t (.intrDone id))
  | .intrDone id =>
      match (s.info id).b with
      | none => .ok (s.setPoint t (.panicked .nullBuf))
      | some b =>
          .ok (({ s with
            disk := Function.update s.disk b false
            usedIdx := s.usedIdx + 1 }.wakeup (.buf b)).setPoint t .intrTest)
  | .intrLeave => .ok (s.release t .idle)

/-! ## The device -/

def fetch (s : State T B) : Except Blocked (State T B) :=
  if s.dev.seen = s.avail.idx then .error .nothing
  else
    .ok { s with dev := { s.dev with
      seen := s.dev.seen + 1
      todo := (s.avail.ring (Fin.ofNat NUM s.dev.seen.toNat)).toNat ::
        s.dev.todo } }

def perform (s : State T B) (h : ℕ) : Except Blocked (State T B) :=
  if h ∈ s.dev.todo then
    match s.request h with
    | none => .error .malformed
    | some (_, j) =>
        .ok { s.setInfo j { s.info j with status := 0 } with
          dev := { s.dev with
            todo := s.dev.todo.erase h
            done := h :: s.dev.done } }
  else .error .nothing

def post (s : State T B) (h : ℕ) : Except Blocked (State T B) :=
  if h ∈ s.dev.done ∧ s.dev.posted = none then
    .ok { s with
      used := { s.used with
        ring := Function.update s.used.ring
          (Fin.ofNat NUM s.used.idx.toNat) h.toUInt32 }
      dev := { s.dev with posted := some h } }
  else .error .nothing

def advance (s : State T B) : Except Blocked (State T B) :=
  match s.dev.posted with
  | none => .error .nothing
  | some h =>
      .ok { s with
        used := { s.used with idx := s.used.idx + 1 }
        dev := { s.dev with done := s.dev.done.erase h, posted := none } }

/-! ## The system -/

/-- A thread enters a call. -/
def call (s : State T B) (t : T) (p : Point B) : Except Blocked (State T B) :=
  match s.point t with
  | .idle => .ok (s.setPoint t p)
  | _ => .error .inCall

def step (s : State T B) : Op T B → Except Blocked (State T B)
  | .rw t c => s.call t (.enter c)
  | .intr t => s.call t .intrEnter
  | .run t => s.run t
  | .kkill t => .ok { s with asleep := Function.update s.asleep t false }
  | .fetch => s.fetch
  | .perform h => s.perform h
  | .post h => s.post h
  | .advance => s.advance

omit [DecidableEq T] [DecidableEq B] in
/-- What `bread` and `bwrite` see to with the sleep lock of the buffer: no two
calls at a time are about the same one. -/
def Callers (s : State T B) : Op T B → Prop
  | .rw _ c => ∀ u, (s.point u).buf ≠ some c.b
  | _ => True

instance Callers.decidable [Fintype T] (s : State T B) (op : Op T B) :
    Decidable (s.Callers op) :=
  match op with
  | .rw _ _ => inferInstanceAs (Decidable (∀ _, _))
  | .intr _ | .run _ | .kkill _ | .fetch | .perform _ | .post _
  | .advance => inferInstanceAs (Decidable True)

end State

end Xv6.Virtio
