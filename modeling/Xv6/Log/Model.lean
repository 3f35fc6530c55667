import Xv6.Framework.WriteSeq

/-!
# The redo log (`kernel/log.c`), as the block writes it makes

A block is its 256 32-bit words, which is the granularity at which
`struct logheader` overlays it: word 0 is `n` and word `i + 1` is `block[i]`.
Block numbers are the C `uint`s themselves, so `log.start + tail + 1` is
32-bit arithmetic. Every function returns the `bwrite`s it makes, in program
order, each computed from the disk as the earlier ones left it; a crash keeps
a prefix of that list and loses the buffer cache.
-/

namespace Xv6.Log

open Framework

abbrev BlockNo : Type := UInt32

/-- One disk block of `BSIZE` = 1024 bytes. -/
abbrev Block : Type := Fin 256 → UInt32

abbrev Disk : Type := BlockNo → Block

def MAXOPBLOCKS : ℕ := 10

def LOGBLOCKS : ℕ := MAXOPBLOCKS * 3

/-- Block `log.start + tail + 1`, the log's copy of entry `tail`. -/
def logBlock (start : BlockNo) (tail : ℕ) : BlockNo :=
  start + UInt32.ofNat tail + 1

/-- Outside the header and the `LOGBLOCKS` copies that follow it. -/
def OutsideLog (start b : BlockNo) : Prop :=
  ∀ i ≤ LOGBLOCKS, b ≠ start + UInt32.ofNat i

/-- What `commit` finds in `log.lh` and in the pinned buffers: the blocks the
transaction logged, none twice (absorption), each with its new contents. -/
structure Txn (start : BlockNo) where
  writes : List (BlockNo × Block)
  nodup : (writes.map Prod.fst).Nodup
  fits : writes.length ≤ LOGBLOCKS
  outside : ∀ w ∈ writes, OutsideLog start w.1

namespace Txn

variable {start : BlockNo}

/-- `log.lh.block[0 .. n)`. -/
def blocks (t : Txn start) : List BlockNo := t.writes.map Prod.fst

end Txn

/-- A pinned buffer holds the modified block, any other is as on disk. -/
def bread (pinned : List (BlockNo × Block)) (d : Disk) (b : BlockNo) : Block :=
  (pinned.lookup b).getD (d b)

/-! ## The header block -/

/-- Word `i` of a block; `log.c` stays below 256 for every `n ≤ LOGBLOCKS`. -/
def word (b : Block) (i : ℕ) : UInt32 :=
  if h : i < 256 then b ⟨i, h⟩ else 0

/-- The `int n` of the header, as the bound of a loop over `i < n`. -/
def headN (b : Block) : ℕ := (word b 0).toInt32.toInt.toNat

/-- `read_head`: the in-memory list of logged block numbers. -/
def readHead (start : BlockNo) (d : Disk) : List BlockNo :=
  (List.range (headN (d start))).map fun i => word (d start) (i + 1)

/-- The header buffer with `n` and `block[0 .. n)` overwritten. -/
def setHead (old : Block) (lh : List BlockNo) : Block := fun w =>
  if w.val = 0 then UInt32.ofNat lh.length
  else if h : w.val - 1 < lh.length then lh.get ⟨w.val - 1, h⟩
  else old w

/-- `write_head`. -/
def writeHead (start : BlockNo) (lh : List BlockNo) (d : Disk) :
    BlockNo × Block :=
  (start, setHead (d start) lh)

/-! ## The four phases -/

/-- `write_log` from entry `tail` on: cache blocks to their log copies. -/
def writeLog (start : BlockNo) (pinned : List (BlockNo × Block)) :
    ℕ → List BlockNo → Disk → List (BlockNo × Block)
  | _, [], _ => []
  | tail, b :: lh, d =>
      let v := bread pinned d b
      (logBlock start tail, v) ::
        writeLog start pinned (tail + 1) lh
          (Function.update d (logBlock start tail) v)

/-- `install_trans` from entry `tail` on: log copies to their home blocks. -/
def installTrans (start : BlockNo) :
    ℕ → List BlockNo → Disk → List (BlockNo × Block)
  | _, [], _ => []
  | tail, b :: lh, d =>
      let v := d (logBlock start tail)
      (b, v) :: installTrans start (tail + 1) lh (Function.update d b v)

/-- `commit`: log, header, install, erase; nothing at all when `n = 0`. -/
def commit (start : BlockNo) (t : Txn start) (d : Disk) :
    List (BlockNo × Block) :=
  if 0 < t.blocks.length then
    let logged := writeLog start t.writes 0 t.blocks d
    let d₁ := applyWrites d logged
    let head := writeHead start t.blocks d₁
    let d₂ := applyWrites d₁ [head]
    let installed := installTrans start 0 t.blocks d₂
    let d₃ := applyWrites d₂ installed
    logged ++ ([head] ++ (installed ++ [writeHead start [] d₃]))
  else []

/-- `recover_from_log`: install what the header lists, then erase it. -/
def recoverFromLog (start : BlockNo) (d : Disk) : List (BlockNo × Block) :=
  let installed := installTrans start 0 (readHead start d) d
  installed ++ [writeHead start [] (applyWrites d installed)]

/-! ## Runs with crashes -/

/-- The disk once `commit` has returned. -/
def committed {start : BlockNo} (d : Disk) (t : Txn start) : Disk :=
  applyWrites d (commit start t d)

/-- The disk once `recover_from_log` has completed. -/
def recovered (start : BlockNo) (d : Disk) : Disk :=
  applyWrites d (recoverFromLog start d)

/-- From one boot to the next completed recovery: the kernel works through
`txns`, `returned` of the commits return, the next one (if there is one) gets
`reached` of its block writes to the disk before the crash, and each entry of
`interrupted` is a recovery that crashes after that many block writes. -/
structure Epoch (start : BlockNo) where
  txns : List (Txn start)
  returned : ℕ
  reached : ℕ
  interrupted : List ℕ
  returned_le : returned ≤ txns.length

namespace Epoch

variable {start : BlockNo}

/-- The disk the crash leaves. -/
def crashed (e : Epoch start) (d : Disk) : Disk :=
  let d := (e.txns.take e.returned).foldl committed d
  match e.txns[e.returned]? with
  | none => d
  | some t => applyWrites d ((commit start t d).take e.reached)

/-- The interrupted recoveries, each starting over on what the last left. -/
def retried (e : Epoch start) (d : Disk) : Disk :=
  e.interrupted.foldl
    (fun d k => applyWrites d ((recoverFromLog start d).take k)) d

/-- The disk once recovery completes. -/
def run (d : Disk) (e : Epoch start) : Disk :=
  recovered start (e.retried (e.crashed d))

end Epoch

/-! ## What the log is for -/

/-- A transaction applied entirely. -/
def Txn.apply {start : BlockNo} (d : Disk) (t : Txn start) : Disk :=
  applyWrites d t.writes

/-- The outcomes an epoch may have: a prefix of its transactions that contains
every one whose commit returned, and at most one more. -/
def Epoch.Outcome {start : BlockNo} (e : Epoch start)
    (ts : List (Txn start)) : Prop :=
  ∃ k, e.returned ≤ k ∧ k ≤ e.returned + 1 ∧ ts = e.txns.take k

end Xv6.Log
