import Xv6.Framework.Fifo
import Xv6.Pipe.Pipe

/-!
# Pipes are lossless first-in first-out queues

Beside the pipe we keep what writers have put in and what readers have got out
so far. The counters of the pipe may wrap any number of times: the size of the
ring divides `2 ^ 32`.
-/

namespace Xv6.Pipe

open Framework Framework.Fifo

variable {P : Type}

variable {s s' : PipeState P}

namespace PipeState

/-- The bytes in the pipe, oldest first. -/
def buffered (s : PipeState P) : List UInt8 :=
  contents s.data s.nread.toNat (s.nwrite - s.nread).toNat

/-- The byte a step puts in. -/
def accepts (s : PipeState P) : PipeOp P → List UInt8
  | .run p ch _ =>
      match s.phase p with
      | .writeBody _ _ => if s.full then [] else ch.toList
      | _ => []
  | _ => []

/-- The byte a step hands to the reader. -/
def delivers (s : PipeState P) : PipeOp P → List UInt8
  | .run p _ copied =>
      match s.phase p with
      | .readCopy i n =>
          if (i : ℤ) < n ∧ s.nread ≠ s.nwrite ∧ copied = true then [s.front]
          else []
      | _ => []
  | _ => []

/-- Cells and counters are those of `s`. -/
structure SameRing (s s' : PipeState P) : Prop where
  data : s'.data = s.data
  nread : s'.nread = s.nread
  nwrite : s'.nwrite = s.nwrite

/-! ## The counters -/

/-- The number of buffered bytes. -/
def count (s : PipeState P) : ℕ := (s.nwrite - s.nread).toNat

theorem count_eq (s : PipeState P) :
    s.count = (2 ^ 32 - s.nread.toNat + s.nwrite.toNat) % 2 ^ 32 :=
  UInt32.toNat_sub ..

theorem count_store (ch : UInt8) (h : s.count < PIPESIZE) :
    (s.store ch).count = s.count + 1 := by
  have hadd : (s.nwrite + 1).toNat = (s.nwrite.toNat + 1) % 2 ^ 32 :=
    UInt32.toNat_add ..
  have hr := s.nread.toNat_lt
  rw [count_eq] at h ⊢
  rw [count_eq, store]
  simp only [hadd]
  unfold PIPESIZE at h
  omega

theorem count_remove (h : s.nread ≠ s.nwrite) :
    s.count = s.remove.count + 1 := by
  have hadd : (s.nread + 1).toNat = (s.nread.toNat + 1) % 2 ^ 32 :=
    UInt32.toNat_add ..
  have hr := s.nread.toNat_lt
  have hw := s.nwrite.toNat_lt
  have hne : s.nread.toNat ≠ s.nwrite.toNat := fun heq =>
    h (UInt32.toNat_inj.mp heq)
  rw [count_eq, count_eq, remove]
  simp only [hadd]
  omega

theorem full_iff (s : PipeState P) : s.full ↔ s.count = PIPESIZE := by
  have hadd : (s.nread + UInt32.ofNat PIPESIZE).toNat =
      (s.nread.toNat + 512) % 2 ^ 32 := UInt32.toNat_add ..
  have hr := s.nread.toNat_lt
  have hw := s.nwrite.toNat_lt
  rw [full, ← UInt32.toNat_inj, hadd, count_eq]
  unfold PIPESIZE
  omega

/-- The cell `pipewrite` stores into is the one behind the buffered bytes. -/
theorem cell_store (s : PipeState P) :
    (Fin.ofNat PIPESIZE s.nwrite.toNat : Fin PIPESIZE) =
      Fin.ofNat PIPESIZE (s.nread.toNat + s.count) := by
  have hr := s.nread.toNat_lt
  apply Fin.ext
  rw [Fin.val_ofNat, Fin.val_ofNat, count_eq]
  unfold PIPESIZE
  omega

/-- Bytes are taken out of `l` and put behind it. -/
structure Holds (s : PipeState P) (l : List UInt8) : Prop where
  bound : s.count ≤ PIPESIZE
  buffered : s.buffered = l

variable {l : List UInt8}

theorem Holds.congr (h : s.Holds l) (same : SameRing s s') : s'.Holds l := by
  obtain ⟨hbound, hbuf⟩ := h
  refine ⟨?_, ?_⟩
  · rw [count, same.nwrite, same.nread]
    exact hbound
  · rw [PipeState.buffered, same.data, same.nwrite, same.nread]
    exact hbuf

theorem Holds.store (h : s.Holds l) (ch : UInt8) (room : ¬ s.full) :
    (s.store ch).Holds (l ++ [ch]) := by
  have hlt : s.count < PIPESIZE :=
    Nat.lt_of_le_of_ne h.bound fun heq => room (s.full_iff.mpr heq)
  have hcount := count_store ch hlt
  refine ⟨?_, ?_⟩
  · rw [hcount]
    exact hlt
  · rw [← h.buffered]
    show contents (Function.update s.data _ ch) s.nread.toNat
      (s.store ch).count = _
    rw [hcount, cell_store, contents_update _ _ _ hlt]
    rfl

/-- The oldest byte is the front one. -/
theorem buffered_remove (some : s.nread ≠ s.nwrite) :
    s.buffered = s.front :: s.remove.buffered := by
  have hcells : s.buffered = contents s.data s.nread.toNat
      (s.remove.count + 1) := by
    rw [← count_remove some]
    rfl
  rw [hcells, contents_succ]
  refine congrArg (s.front :: ·) (contents_congr _ _ ?_)
  have hadd : (s.nread + 1).toNat = (s.nread.toNat + 1) % 2 ^ 32 :=
    UInt32.toNat_add ..
  show _ = (s.nread + 1).toNat % PIPESIZE
  rw [hadd]
  unfold PIPESIZE
  omega

theorem Holds.remove (h : s.Holds l) (some : s.nread ≠ s.nwrite) :
    ∃ l', l = s.front :: l' ∧ s.remove.Holds l' := by
  have hcount := count_remove some
  have hbound := h.bound
  refine ⟨s.remove.buffered, ?_, by omega, rfl⟩
  rw [← h.buffered, buffered_remove some]

/-! ## What a step does to the ring -/

variable [DecidableEq P]

theorem SameRing.acquire {p : P} {ph : Phase} (h : s.acquire p ph = .ok s') :
    SameRing s s' := by
  unfold PipeState.acquire at h
  split at h
  · cases h
    exact ⟨rfl, rfl, rfl⟩
  · cases h

theorem SameRing.call {s s' : PipeState P} {p : P} {ph : Phase}
    (h : s.call p ph = .ok s') : SameRing s s' := by
  unfold PipeState.call at h
  split at h
  · cases h
    exact ⟨rfl, rfl, rfl⟩
  · cases h

/-- What a step does to the ring. -/
inductive Effect (s s' : PipeState P) (op : PipeOp P) : Prop
  | none (same : SameRing s s') (accepts : s.accepts op = [])
      (delivers : s.delivers op = [])
  | store (ch : UInt8) (room : ¬ s.full) (same : SameRing (s.store ch) s')
      (accepts : s.accepts op = [ch]) (delivers : s.delivers op = [])
  | remove (some : s.nread ≠ s.nwrite) (same : SameRing s.remove s')
      (accepts : s.accepts op = []) (delivers : s.delivers op = [s.front])

theorem run_effect {p : P} {ch : Option UInt8} (h : s.run p ch true = .ok s') :
    Effect s s' (.run p ch true) := by
  cases hph : s.phase p with
  | returned r =>
    simp only [PipeState.run, hph] at h
    cases h
  | writeAsleep i n =>
    simp only [PipeState.run, hph] at h
    cases h
  | readAsleep n =>
    simp only [PipeState.run, hph] at h
    cases h
  | writeBody i n =>
    simp only [PipeState.run, hph] at h
    split at h
    · rename_i hfull
      cases h
      refine .none ⟨rfl, rfl, rfl⟩ ?_ ?_ <;>
        simp [accepts, delivers, hph, hfull]
    · rename_i hroom
      cases ch with
      | none =>
        cases h
        refine .none ⟨rfl, rfl, rfl⟩ ?_ ?_ <;>
          simp [accepts, delivers, hph]
      | some ch =>
        cases h
        refine .store ch hroom ⟨rfl, rfl, rfl⟩ ?_ ?_ <;>
          simp [accepts, delivers, hph, hroom]
  | readCopy i n =>
    simp only [PipeState.run, hph] at h
    split at h
    · rename_i hmore
      rw [if_pos trivial] at h
      cases h
      refine .remove hmore.2 ⟨rfl, rfl, rfl⟩ ?_ ?_ <;>
        simp [accepts, delivers, hph, hmore]
    · rename_i hdone
      cases h
      refine .none ⟨rfl, rfl, rfl⟩ ?_ ?_
      · simp [accepts, hph]
      · simp only [delivers, hph]
        rw [if_neg]
        rintro ⟨hlt, hne, -⟩
        exact hdone ⟨hlt, hne⟩
  | writeEnter n | writeWoken i n | readEnter n | readWoken n | closeEnter w =>
    simp only [PipeState.run, hph] at h
    refine .none (SameRing.acquire h) ?_ ?_ <;>
      simp [accepts, delivers, hph]
  | writeLoop i n | readWait n =>
    simp only [PipeState.run, hph] at h
    refine .none ?_ ?_ ?_
    · split at h
      · split at h <;> cases h <;> exact ⟨rfl, rfl, rfl⟩
      · cases h
        exact ⟨rfl, rfl, rfl⟩
    · simp [accepts, hph]
    · simp [delivers, hph]
  | closeTest =>
    simp only [PipeState.run, hph] at h
    refine .none ?_ ?_ ?_
    · split at h <;> cases h <;> exact ⟨rfl, rfl, rfl⟩
    · simp [accepts, hph]
    · simp [delivers, hph]
  | closeSet w =>
    simp only [PipeState.run, hph] at h
    cases h
    refine .none ?_ ?_ ?_
    · cases w <;> exact ⟨rfl, rfl, rfl⟩
    · simp [accepts, hph]
    · simp [delivers, hph]
  | writeSleep i n | writeWake i | writeRelease i | readSleep n | readWake i
  | readRelease i | closeWake w =>
    simp only [PipeState.run, hph] at h
    cases h
    refine .none ⟨rfl, rfl, rfl⟩ ?_ ?_ <;> simp [accepts, delivers, hph]

end PipeState

variable [DecidableEq P]

/-- Every `copyout` of the step succeeds. -/
def PipeOp.Copies : PipeOp P → Prop
  | .run _ _ copied => copied = true
  | _ => True

namespace PipeState

theorem step_effect {op : PipeOp P} (hcopy : op.Copies) (h : s.step op = .ok s') :
    Effect s s' op := by
  cases op with
  | write p n => exact .none (SameRing.call h) rfl rfl
  | read p n => exact .none (SameRing.call h) rfl rfl
  | close p w => exact .none (SameRing.call h) rfl rfl
  | run p ch copied =>
    obtain rfl : copied = true := hcopy
    exact run_effect h
  | kkill p =>
    cases h
    exact .none ⟨rfl, rfl, rfl⟩ rfl rfl

end PipeState

/-! ## The theorem -/

/-- A pipe with everything put in and got out so far. -/
structure Traced (P : Type) where
  s : PipeState P
  accepted : List UInt8
  delivered : List UInt8

namespace Traced

def step (t : Traced P) (op : PipeOp P) : Except Blocked (Traced P) := do
  let s ← t.s.step op
  .ok ⟨s, t.accepted ++ t.s.accepts op, t.delivered ++ t.s.delivers op⟩

def start : Traced P := ⟨.pipealloc, [], []⟩

/-- What is missing at the readers is in the pipe. -/
def Fifo (t : Traced P) : Prop :=
  ∃ l, t.s.Holds l ∧ t.accepted = t.delivered ++ l

theorem Fifo.step {t t' : Traced P} {op : PipeOp P} (h : t.Fifo)
    (hcopy : op.Copies) (hstep : t.step op = .ok t') : t'.Fifo := by
  obtain ⟨l, hl, hacc⟩ := h
  obtain ⟨s', hs, hstep⟩ := bind_ok_iff.mp hstep
  cases hstep
  cases PipeState.step_effect hcopy hs with
  | none same haccepts hdelivers =>
    refine ⟨l, hl.congr same, ?_⟩
    rw [haccepts, hdelivers, List.append_nil, List.append_nil, hacc]
  | store ch room same haccepts hdelivers =>
    refine ⟨l ++ [ch], (hl.store ch room).congr same, ?_⟩
    rw [haccepts, hdelivers, List.append_nil, hacc, List.append_assoc]
  | remove some same haccepts hdelivers =>
    obtain ⟨l', rfl, hl'⟩ := hl.remove some
    refine ⟨l', hl'.congr same, ?_⟩
    rw [haccepts, hdelivers, List.append_nil, hacc, List.append_assoc]
    rfl

end Traced

/-- **A pipe is a lossless first-in first-out queue of at most `PIPESIZE`
bytes**, for any interleaving of any number of readers and writers and however
often its counters wrap: what readers got is a prefix of what writers put in,
and the rest is in the pipe. -/
theorem pipe_fifo {ops : List (PipeOp P)} {t : Traced P}
    (h : Run Traced.step (fun t op => t.s.Client op ∧ op.Copies)
      Traced.start ops t) :
    (t.s.nwrite - t.s.nread).toNat ≤ PIPESIZE ∧
      t.accepted = t.delivered ++ t.s.buffered := by
  have hempty : (PipeState.pipealloc : PipeState P).Holds [] := by
    have hcount : (PipeState.pipealloc : PipeState P).count = 0 := by
      show ((0 : UInt32) - 0).toNat = 0
      decide
    refine ⟨?_, ?_⟩
    · rw [hcount]
      exact Nat.zero_le PIPESIZE
    · show contents _ _ (PipeState.pipealloc : PipeState P).count = []
      rw [hcount, contents_zero]
  have hstart : (Traced.start : Traced P).Fifo := ⟨[], hempty, rfl⟩
  obtain ⟨l, hl, hacc⟩ := h.invariant (I := Traced.Fifo)
    (fun t op t' ht hguard hstep => ht.step hguard.2 hstep) hstart
  rw [hl.buffered]
  exact ⟨hl.bound, hacc⟩

instance PipeOp.Copies.decidable (op : PipeOp P) : Decidable op.Copies :=
  match op with
  | .run _ _ _ => inferInstanceAs (Decidable (_ = _))
  | .write _ _ => inferInstanceAs (Decidable True)
  | .read _ _ => inferInstanceAs (Decidable True)
  | .close _ _ => inferInstanceAs (Decidable True)
  | .kkill _ => inferInstanceAs (Decidable True)

/-- One process waits for a byte, the other one writes two. -/
def twoBytes : List (PipeOp Bool) :=
  let reader := PipeOp.run false none true
  let writer := PipeOp.run true (some 7) true
  [.read false 1, reader, reader, reader, .write true 2, writer, writer,
    writer, writer, writer, writer, writer, writer, reader, reader, reader,
    reader, reader, reader]

theorem pipe_fifo_twoBytes :
    ∃ t : Traced Bool, Run Traced.step
        (fun t op => t.s.Client op ∧ op.Copies) Traced.start twoBytes t ∧
      t.delivered = [7] ∧ t.s.buffered = [7] ∧
      t.accepted = t.delivered ++ t.s.buffered := by
  obtain ⟨t, ht, htest⟩ := exists_some_of_any
    (o := Run.checked Traced.step (fun t op => t.s.Client op ∧ op.Copies)
      Traced.start twoBytes)
    (p := fun t => decide (t.delivered = [7] ∧ t.s.buffered = [7]))
    (by decide +kernel)
  have hrun := Run.of_checked ht
  obtain ⟨hdelivered, hbuffered⟩ := of_decide_eq_true htest
  exact ⟨t, hrun, hdelivered, hbuffered, (pipe_fifo hrun).2⟩

end Xv6.Pipe
