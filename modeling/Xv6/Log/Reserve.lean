import Xv6.Log.GroupCommit

/-!
# The log's reservation (`begin_op`, `log_write`)

`begin_op` lets an operation in only if the list and `MAXOPBLOCKS` blocks for
every operation that is in fit into the log. What an operation has not used
of its `MAXOPBLOCKS` stays reserved until `end_op`, so a new block always
finds room. The test of `log_write` is made before the search for the block,
so it also refuses a block that needs no room.
-/

namespace Xv6.Log

open Framework

section Reserve

variable {P : Type*} [DecidableEq P]

/-- The blocks that the operation of `p` has passed to `log_write`. -/
def Logged.blocksOf (l : Logged P) (p : P) : Finset BlockNo :=
  ((l.h.current.filter fun w =>
    decide (w.p = p ∧ w.op = l.h.ended p)).map Write.b).toFinset

/-- As `Client`, with at most `MAXOPBLOCKS` different blocks an operation. -/
def Limited (l : Logged P) (a : LogOp P) : Prop :=
  Client l a ∧ ∀ p b data, a = .logWrite p b data →
    (insert b (l.blocksOf p)).card ≤ MAXOPBLOCKS

/-- What the guard asks of one step. -/
def limits (l : Logged P) : LogOp P → Bool
  | .beginOp p => l.s.phase p == .idle
  | .logWrite p b _ => l.s.phase p == .inOp &&
      decide ((insert b (l.blocksOf p)).card ≤ MAXOPBLOCKS)
  | .endOp p => l.s.phase p == .inOp
  | .commit p =>
      match l.s.phase p with
      | .commit _ => true
      | _ => false

theorem limits_iff (l : Logged P) (a : LogOp P) :
    limits l a = true ↔ Limited l a := by
  cases a with
  | beginOp p => simp [limits, Limited, Client]
  | logWrite p b data =>
    simp only [limits, Limited, Client, Bool.and_eq_true, beq_iff_eq,
      decide_eq_true_eq]
    refine and_congr_right fun _ => ⟨?_, fun h => h p b data rfl⟩
    rintro h p' b' data' heq
    cases heq
    exact h
  | endOp p => simp [limits, Limited, Client]
  | commit p =>
    simp only [limits, Limited, Client]
    cases hp : l.s.phase p <;> simp

instance (l : Logged P) (a : LogOp P) : Decidable (Limited l a) :=
  decidable_of_iff _ (limits_iff l a)

/-- What the operation of `p` has not used yet. -/
def Logged.unused (l : Logged P) (p : P) : ℕ :=
  if l.s.phase p = .inOp then MAXOPBLOCKS - (l.blocksOf p).card else 0

/-- The list, and what the operations may still add to it. -/
def Logged.reserved [Fintype P] (l : Logged P) : ℕ :=
  l.s.lh.length + ∑ p, l.unused p

variable {l : Logged P} {s' : LogState P} {p : P}

variable {b : BlockNo}

theorem mem_blocksOf : b ∈ l.blocksOf p ↔
    ∃ w ∈ l.h.current, w.p = p ∧ w.op = l.h.ended p ∧ w.b = b := by
  simp [Logged.blocksOf, and_assoc]

theorem blocksOf_logWrite (l : Logged P) (p q : P) (b : BlockNo)
    (data : Block) :
    Logged.blocksOf ⟨s', l.record (.logWrite p b data)⟩ q =
      if q = p then insert b (l.blocksOf q) else l.blocksOf q := by
  ext b'
  by_cases hq : q = p
  · subst hq
    rw [if_pos rfl, Finset.mem_insert, mem_blocksOf, mem_blocksOf]
    simp only [Logged.record, List.mem_append, List.mem_singleton]
    constructor
    · rintro ⟨w, hw | rfl, hp, hop, rfl⟩
      · exact Or.inr ⟨w, hw, hp, hop, rfl⟩
      · exact Or.inl rfl
    · rintro (rfl | ⟨w, hw, hp, hop, rfl⟩)
      · exact ⟨_, Or.inr rfl, rfl, rfl, rfl⟩
      · exact ⟨w, Or.inl hw, hp, hop, rfl⟩
  · rw [if_neg hq, mem_blocksOf, mem_blocksOf]
    simp only [Logged.record, List.mem_append, List.mem_singleton]
    constructor
    · rintro ⟨w, hw | rfl, hp, hop, rfl⟩
      · exact ⟨w, hw, hp, hop, rfl⟩
      · exact absurd hp.symm hq
    · rintro ⟨w, hw, hp, hop, rfl⟩
      exact ⟨w, Or.inl hw, hp, hop, rfl⟩

theorem unused_le (l : Logged P) (p : P) :
    l.unused p ≤ MAXOPBLOCKS * (l.s.phase p == .inOp).toNat := by
  unfold Logged.unused
  split
  · rename_i hp
    rw [hp]
    exact Nat.sub_le ..
  · exact Nat.zero_le _

theorem unused_logWrite (p : P) (b : BlockNo) (data : Block)
    (hphase : s'.phase = l.s.phase) (q : P) :
    Logged.unused ⟨s', l.record (.logWrite p b data)⟩ q ≤ l.unused q := by
  unfold Logged.unused
  simp only [hphase]
  split
  · rw [blocksOf_logWrite]
    split
    · exact Nat.sub_le_sub_left
        (Finset.card_le_card (Finset.subset_insert ..)) _
    · exact Nat.le_refl _
  · exact Nat.le_refl _

theorem commitStep_frame (s : LogState P) (p : P) (pc : Pc) :
    (s.commitStep p pc).outstanding = s.outstanding ∧
      (s.commitStep p pc).lh.length ≤ s.lh.length := by
  cases pc with
  | writeLog tail =>
    rw [LogState.commitStep]
    split <;> exact ⟨rfl, Nat.le_refl _⟩
  | installTrans tail =>
    rw [LogState.commitStep]
    split <;> exact ⟨rfl, Nat.le_refl _⟩
  | clear => exact ⟨rfl, Nat.zero_le _⟩
  | _ => exact ⟨rfl, Nat.le_refl _⟩

/-- `log_write` tests for room before it looks for the block. -/
theorem logWrite_tooBig_iff {data : Block} :
    l.step (.logWrite p b data) = .error .tooBig ↔
      LOGBLOCKS ≤ l.s.lh.length := by
  by_cases hfull : LOGBLOCKS ≤ l.s.lh.length
  · have hw : l.s.logWrite b data = .error .tooBig := by
      rw [LogState.logWrite, if_pos hfull]
    simp [Logged.step, LogState.step, hw, hfull, bind, Except.bind]
  · refine iff_of_false ?_ hfull
    have hw : l.s.logWrite b data ≠ .error .tooBig := by
      rw [LogState.logWrite, if_neg hfull]
      split
      · simp
      · dsimp only
        split <;> simp
    intro hstep
    cases hs : l.s.logWrite b data with
    | error e =>
      simp only [Logged.step, LogState.step, hs] at hstep
      cases hstep
      exact hw hs
    | ok s' =>
      simp only [Logged.step, LogState.step, hs] at hstep
      cases hstep

variable [Fintype P]

/-- What an operation has passed to `log_write` is in the list. -/
theorem Inv.blocksOf_subset (h : Inv l) (hb : b ∈ l.blocksOf p) :
    b ∈ l.s.lh := by
  obtain ⟨w, hw, -, -, rfl⟩ := mem_blocksOf.mp hb
  have hsome := lastWrite_isSome_iff.mpr ⟨w, hw, rfl⟩
  by_contra hnot
  rw [h.inList.last, if_neg hnot] at hsome
  cases hsome

theorem reserved_le (l : Logged P) : l.reserved ≤
    l.s.lh.length + MAXOPBLOCKS * tally l.s.phase (· == .inOp) := by
  unfold Logged.reserved tally
  rw [Finset.mul_sum]
  exact Nat.add_le_add_left (Finset.sum_le_sum fun p _ => unused_le l p) _

/-- Nobody's reservation grows, so the sum does not. -/
theorem reserved_mono {l' : Logged P} (hlh : l'.s.lh.length ≤ l.s.lh.length)
    (h : ∀ q, l'.unused q ≤ l.unused q) : l'.reserved ≤ l.reserved :=
  Nat.add_le_add hlh (Finset.sum_le_sum fun q _ => h q)

/-! ## One step -/

theorem reserved_beginOp (h : Inv l) (hp : l.s.phase p = .idle)
    (hres : l.reserved ≤ LOGBLOCKS) :
    Logged.reserved ⟨l.s.beginOp p, l.h⟩ ≤ LOGBLOCKS := by
  unfold LogState.beginOp
  split
  · exact hres
  · split
    · exact hres
    · rename_i hroom
      refine Nat.le_trans (reserved_le _) ?_
      have htally := tally_enter (p := p) (s := l.s) (by rw [hp]; decide)
      rw [h.count] at hroom
      show l.s.lh.length + MAXOPBLOCKS *
        tally (l.s.setPhase p .inOp).phase _ ≤ LOGBLOCKS
      unfold MAXOPBLOCKS LOGBLOCKS at *
      unfold MAXOPBLOCKS at *
      omega

/-- A new block takes the place that its operation had reserved for it. -/
theorem unused_logWrite_lt (h : Inv l) (data : Block) (hp : l.s.phase p = .inOp)
    (hb : b ∉ l.s.lh) (hlimit : (insert b (l.blocksOf p)).card ≤ MAXOPBLOCKS)
    (hphase : s'.phase = l.s.phase) :
    Logged.unused ⟨s', l.record (.logWrite p b data)⟩ p < l.unused p := by
  have hnot : b ∉ l.blocksOf p := fun hmem => hb (h.blocksOf_subset hmem)
  unfold Logged.unused
  simp only [hphase, hp, if_true, blocksOf_logWrite]
  rw [Finset.card_insert_of_notMem hnot] at hlimit ⊢
  omega

theorem reserved_logWrite (h : Inv l) {data : Block} (hp : l.s.phase p = .inOp)
    (hlimit : (insert b (l.blocksOf p)).card ≤ MAXOPBLOCKS)
    (hw : l.s.logWrite b data = .ok s') :
    Logged.reserved ⟨s', l.record (.logWrite p b data)⟩ ≤ l.reserved := by
  obtain ⟨-, -, -, hphase, -, hlist⟩ := LogState.logWrite_ok hw
  rcases hlist with ⟨-, hlh, -⟩ | ⟨hb, hlh, -⟩
  · exact reserved_mono (by rw [hlh]) (unused_logWrite p b data hphase)
  · have hsum := Finset.sum_lt_sum (s := Finset.univ)
      (fun q _ => unused_logWrite p b data hphase q)
      ⟨p, Finset.mem_univ p, unused_logWrite_lt h data hp hb hlimit hphase⟩
    unfold Logged.reserved
    simp only [hlh, List.length_append, List.length_singleton]
    omega

theorem reserved_endOp (he : l.s.endOp p = .ok s') :
    Logged.reserved ⟨s', l.record (.endOp p)⟩ ≤ l.reserved := by
  obtain ⟨ph, hph, hlh, hphase⟩ : ∃ ph, ph ≠ Phase.inOp ∧
      s'.lh = l.s.lh ∧ s'.phase = (l.s.setPhase p ph).phase := by
    dsimp only [LogState.endOp] at he
    split at he
    · cases he
    · split at he
      · cases he
        exact ⟨.commit .start, by simp, rfl, rfl⟩
      · cases he
        exact ⟨.idle, by simp, rfl, rfl⟩
  refine reserved_mono (by rw [hlh]) fun q => ?_
  unfold Logged.unused
  simp only [hphase]
  by_cases hq : q = p
  · subst hq
    rw [if_neg]
    · exact Nat.zero_le _
    · rwa [show (l.s.setPhase q ph).phase q = ph from Function.update_self ..]
  · rw [LogState.phase_of_ne _ _ hq]
    split
    · refine Nat.le_of_eq (congrArg (MAXOPBLOCKS - ·) (congrArg _ ?_))
      ext b
      simp only [mem_blocksOf, Logged.record, Function.update_of_ne hq]
    · exact Nat.le_refl _

theorem reserved_step {l' : Logged P} {a : LogOp P} (h : Inv l)
    (hres : l.reserved ≤ LOGBLOCKS) (hok : Limited l a)
    (hstep : l.step a = .ok l') : l'.reserved ≤ LOGBLOCKS := by
  have h' := h.step hok.1 hstep
  obtain ⟨s', hs, hl⟩ := bind_ok_iff.mp hstep
  cases hl
  cases a with
  | beginOp p =>
    cases hs
    exact reserved_beginOp h hok.1 hres
  | logWrite p b data =>
    exact Nat.le_trans (reserved_logWrite h hok.1 (hok.2 p b data rfl) hs) hres
  | endOp p => exact Nat.le_trans (reserved_endOp hs) hres
  | commit p =>
    obtain ⟨pc, hp⟩ := hok.1
    simp only [LogState.step, hp] at hs
    cases hs
    -- no operation is in, so only the list counts
    obtain ⟨hn, hlh⟩ := commitStep_frame l.s p pc
    have hcount : (l.s.commitStep p pc).outstanding =
      tally (l.s.commitStep p pc).phase (· == .inOp) := h'.count
    rw [hn, (h.groupCommit.alone p pc hp).1] at hcount
    calc Logged.reserved ⟨l.s.commitStep p pc, _⟩
        ≤ (l.s.commitStep p pc).lh.length + MAXOPBLOCKS *
            tally (l.s.commitStep p pc).phase (· == .inOp) := reserved_le _
      _ = (l.s.commitStep p pc).lh.length := by
          rw [show tally (l.s.commitStep p pc).phase (· == .inOp) = 0 by
            exact_mod_cast hcount.symm, Nat.mul_zero, Nat.add_zero]
      _ ≤ l.s.lh.length := hlh
      _ ≤ l.reserved := Nat.le_add_right ..
      _ ≤ LOGBLOCKS := hres

/-- **The reservation suffices for every new block**, for any number of
processes and any interleaving: `log_write` finds the log full only when it is
given a block that is in the list already. -/
theorem log_reserved {l' : Logged P} {as : List (LogOp P)} (hboot : Boot l)
    (run : Run Logged.step Limited l as l') :
    l'.s.lh.length ≤ LOGBLOCKS ∧
    ∀ p b data, Limited l' (.logWrite p b data) →
      (l'.step (.logWrite p b data) = .error .tooBig ↔
        b ∈ l'.s.lh ∧ l'.s.lh.length = LOGBLOCKS) := by
  have hinv : Inv l' ∧ l'.reserved ≤ LOGBLOCKS := by
    refine run.invariant (I := fun l => Inv l ∧ l.reserved ≤ LOGBLOCKS)
      (fun l a l' h hok hstep => ⟨h.1.step hok.1 hstep,
        reserved_step h.1 h.2 hok hstep⟩) ⟨hboot.inv, ?_⟩
    refine Nat.le_trans (reserved_le l) ?_
    rw [hboot.lh, tally_eq_zero fun p => by rw [hboot.idle p]; rfl]
    exact Nat.zero_le _
  obtain ⟨h, hres⟩ := hinv
  have hlen : l'.s.lh.length ≤ LOGBLOCKS :=
    Nat.le_trans (Nat.le_add_right ..) hres
  refine ⟨hlen, fun p b data hok => ?_⟩
  rw [logWrite_tooBig_iff]
  constructor
  · intro hge
    refine ⟨?_, Nat.le_antisymm hlen hge⟩
    by_contra hb
    have hroom := unused_logWrite_lt h data hok.1 hb (hok.2 p b data rfl)
      (show l'.s.phase = l'.s.phase from rfl)
    have hsum := Finset.single_le_sum (f := l'.unused)
      (fun q _ => Nat.zero_le _) (Finset.mem_univ p)
    unfold Logged.reserved at hres
    omega
  · exact fun ⟨_, heq⟩ => Nat.le_of_eq heq.symm

end Reserve

/-! ### Three operations that fill the log -/

/-- Three processes, an empty log, a blank disk. -/
def threeLog : Logged (Fin 3) where
  s :=
    { phase := fun _ => .idle, cache := fun _ _ => 0, pins := fun _ => 0
      copies := fun _ _ => 0, home := fun _ _ => 0 }
  h := {}

theorem threeLog_boot : Boot threeLog :=
  ⟨rfl, rfl, rfl, fun _ => rfl, fun _ => rfl, rfl⟩

/-- Process `p` passes ten blocks of its own to `log_write`. -/
def tenBlocks (p : Fin 3) : List (LogOp (Fin 3)) :=
  (List.range 10).map fun i =>
    .logWrite p (UInt32.ofNat (100 + 10 * p.val + i)) fun _ => 0

/-- Three operations start, and each uses all it has reserved. -/
def fillLog : List (LogOp (Fin 3)) :=
  [.beginOp 0, .beginOp 1, .beginOp 2] ++ tenBlocks 0 ++ tenBlocks 1 ++
    tenBlocks 2

theorem log_reserved_two : ∃ l', Run Logged.step Limited threeLog
    [.beginOp 0, .logWrite 0 100 fun _ => 0] l' ∧
    l'.s.lh.length ≤ LOGBLOCKS ∧
    l'.step (.logWrite 0 101 fun _ => 0) ≠ .error .tooBig := by
  obtain ⟨l', hrun, hl⟩ := exists_some_of_any
    (show ((Run.checked Logged.step Limited threeLog
      [.beginOp 0, .logWrite 0 100 fun _ => 0]).any fun l =>
        decide (Limited l (.logWrite 0 101 fun _ => 0)) &&
          decide (101 ∉ l.s.lh)) = true by decide +kernel)
  rw [Bool.and_eq_true, decide_eq_true_eq, decide_eq_true_eq] at hl
  have run := Run.of_checked hrun
  obtain ⟨hlen, hpanic⟩ := log_reserved threeLog_boot run
  refine ⟨l', run, hlen, fun htoo => hl.2 ?_⟩
  exact ((hpanic 0 101 (fun _ => 0) hl.1).mp htoo).1

theorem log_full : ∃ l', Run Logged.step Limited threeLog fillLog l' ∧
    Limited l' (.logWrite 0 100 fun _ => 0) ∧
    l'.step (.logWrite 0 100 fun _ => 0) = .error .tooBig := by
  obtain ⟨l', hrun, hl⟩ := exists_some_of_any
    (show ((Run.checked Logged.step Limited threeLog fillLog).any fun l =>
      decide (Limited l (.logWrite 0 100 fun _ => 0)) &&
        endsIn (l.step (.logWrite 0 100 fun _ => 0)) .tooBig) = true
      by decide +kernel)
  rw [Bool.and_eq_true, decide_eq_true_eq] at hl
  exact ⟨l', Run.of_checked hrun, hl.1, eq_error_of_endsIn hl.2⟩

end Xv6.Log
