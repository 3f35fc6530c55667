import Xv6.Log.Group

/-!
# Group commit never splits or mixes operations

The invariant has two modes: the log collects writes, or exactly one process
is in `commit`, and then it says how far `commit` has come (`CommitInv`).
Every step keeps it (`Inv.step`), so it holds along every run.
-/

namespace Xv6.Log

open Framework

/-! ## The last write to a block -/

variable {b : BlockNo}

section LastWrite

variable {P : Type*}

/-- What the last of the calls left in block `b`. -/
def lastWrite (ws : List (Write P)) (b : BlockNo) : Option Block :=
  ((ws.filter fun w => decide (w.b = b)).getLast?).map Write.data

@[simp] theorem lastWrite_nil (b : BlockNo) :
    lastWrite ([] : List (Write P)) b = none := rfl

theorem lastWrite_concat (ws : List (Write P)) (w : Write P) (b : BlockNo) :
    lastWrite (ws ++ [w]) b =
      if b = w.b then some w.data else lastWrite ws b := by
  unfold lastWrite
  rw [List.filter_append]
  by_cases hb : b = w.b
  · subst hb
    simp
  · rw [if_neg hb, List.filter_cons_of_neg (by simpa using Ne.symm hb),
      List.filter_nil, List.append_nil]

theorem lastWrite_isSome_iff {ws : List (Write P)} :
    (lastWrite ws b).isSome = true ↔ ∃ w ∈ ws, w.b = b := by
  unfold lastWrite
  rw [Option.isSome_map, List.getLast?_isSome, ne_eq, List.filter_eq_nil_iff]
  push Not
  simp

end LastWrite

/-! ## The invariant -/

section Invariant

variable {P : Type*}

/-- The list is the group: what the calls of `log_write` since the last commit
left, each block once. -/
structure InList (l : Logged P) : Prop where
  nodup : l.s.lh.Nodup
  last : ∀ b, lastWrite l.h.current b =
    if b ∈ l.s.lh then some (l.s.cache b) else none

/-- One pin for each of the blocks, none for others. -/
def Pinned (s : LogState P) (bs : List BlockNo) : Prop :=
  ∀ b, s.pins b = if b ∈ bs then 1 else 0

/-- The first `n` entries of the list are in the log. -/
def Copied (s : LogState P) (n : ℕ) : Prop :=
  ∀ i < n, ∀ b, s.lh[i]? = some b → s.copies i = s.cache b

/-- The first `n` entries of the list are at their home locations. -/
def Installed (s : LogState P) (n : ℕ) : Prop :=
  ∀ i < n, ∀ b, s.lh[i]? = some b → s.home b = s.cache b

/-- What holds at each point of `commit`. -/
def CommitInv (l : Logged P) : Pc → Prop
  | .start => InList l ∧ Pinned l.s l.s.lh
  | .writeLog tail => InList l ∧ Pinned l.s l.s.lh ∧ Copied l.s tail
  | .writeHead => InList l ∧ Pinned l.s l.s.lh ∧ Copied l.s l.s.lh.length
  | .installTrans tail => InList l ∧ Pinned l.s (l.s.lh.drop tail) ∧
      Copied l.s l.s.lh.length ∧ l.s.header = l.s.lh ∧ Installed l.s tail
  | .clear => InList l ∧ Pinned l.s [] ∧ Copied l.s l.s.lh.length ∧
      l.s.header = l.s.lh ∧ Installed l.s l.s.lh.length
  | .erase => l.s.lh = [] ∧ l.h.current = [] ∧ Pinned l.s []
  | .done => l.s.lh = [] ∧ l.h.current = [] ∧ Pinned l.s []

/-- The log is collecting writes, or exactly one process commits them. -/
inductive Mode (l : Logged P) : Prop
  | collecting (committing : l.s.committing = false)
      (outside : ∀ p, l.s.phase p = .idle ∨ l.s.phase p = .inOp)
      (inList : InList l) (pinned : Pinned l.s l.s.lh)
      (quiet : (∀ p, l.s.phase p ≠ .inOp) → l.h.current = [])
  | committing (p : P) (pc : Pc) (committing : l.s.committing = true)
      (at_ : l.s.phase p = .commit pc) (others : ∀ q, q ≠ p → l.s.phase q = .idle)
      (inv : CommitInv l pc)

/-- The operations of `c` are over before those of `ws` start. -/
def Before (ws ws' : List (Write P)) : Prop :=
  ∀ w ∈ ws, ∀ w' ∈ ws', w.p = w'.p → w.op < w'.op

/-- The log of a commit holds what the calls of its group left. -/
structure Commit.Exact (c : Commit P) : Prop where
  nodup : (c.list.map Prod.fst).Nodup
  lookup : ∀ b, c.list.lookup b = lastWrite c.group b

structure HistoryInv (l : Logged P) : Prop where
  started : ∀ w ∈ l.h.current, w.op < l.h.ended w.p ∨
    w.op = l.h.ended w.p ∧ l.s.phase w.p = .inOp
  ended : ∀ c ∈ l.h.commits, ∀ w ∈ c.group, w.op < l.h.ended w.p
  before : ∀ c ∈ l.h.commits, Before c.group l.h.current
  pairwise : l.h.commits.Pairwise fun c c' => Before c.group c'.group
  exact_ : ∀ c ∈ l.h.commits, c.Exact

structure Inv [Fintype P] (l : Logged P) : Prop where
  count : l.s.outstanding = tally l.s.phase (· == .inOp)
  mode : Mode l
  history : HistoryInv l

variable {l : Logged P} {s' : LogState P} {p : P}

theorem Boot.inv [Fintype P] (h : Boot l) : Inv l where
  count := by
    rw [h.outstanding, tally_eq_zero]
    · rfl
    · intro p
      rw [h.idle p]
      rfl
  mode := by
    refine .collecting h.committing (fun p => Or.inl (h.idle p)) ⟨?_, ?_⟩ ?_
      fun _ => by rw [h.history]
    · rw [h.lh]
      exact List.nodup_nil
    · intro b
      rw [h.history, h.lh]
      rfl
    · intro b
      rw [h.pins, h.lh]
      rfl
  history := by
    constructor <;> rw [h.history] <;> intros <;> simp_all

variable {pc : Pc}

namespace Mode

theorem of_inOp (h : Mode l) (hp : l.s.phase p = .inOp) :
    l.s.committing = false ∧
      (∀ q, l.s.phase q = .idle ∨ l.s.phase q = .inOp) ∧ InList l ∧
      Pinned l.s l.s.lh := by
  cases h with
  | collecting hc hout hin hpin _ => exact ⟨hc, hout, hin, hpin⟩
  | committing q pc hc hat hothers _ =>
    by_cases hpq : p = q
    · rw [hpq, hat] at hp
      cases hp
    · rw [hothers p hpq] at hp
      cases hp

theorem of_commit (h : Mode l) (hp : l.s.phase p = .commit pc) :
    l.s.committing = true ∧ (∀ q, q ≠ p → l.s.phase q = .idle) ∧
      CommitInv l pc := by
  cases h with
  | collecting _ hout =>
    rcases hout p with hi | hi <;> rw [hi] at hp <;> cases hp
  | committing q pc' hc hat hothers hinv =>
    by_cases hpq : p = q
    · subst hpq
      cases hat.symm.trans hp
      exact ⟨hc, hothers, hinv⟩
    · rw [hothers p hpq] at hp
      cases hp

end Mode

variable {s : LogState P} {data : Block}

namespace LogState

/-- What `log_write` does when it returns. -/
theorem logWrite_ok (h : s.logWrite b data = .ok s') :
    s.lh.length < LOGBLOCKS ∧
      s'.outstanding = s.outstanding ∧ s'.committing = s.committing ∧
      s'.phase = s.phase ∧ s'.cache = Function.update s.cache b data ∧
      (b ∈ s.lh ∧ s'.lh = s.lh ∧ s'.pins = s.pins ∨
        b ∉ s.lh ∧ s'.lh = s.lh ++ [b] ∧
          s'.pins = Function.update s.pins b (s.pins b + 1)) := by
  unfold logWrite at h
  split at h
  · cases h
  · rename_i hlen
    split at h
    · cases h
    · dsimp only at h
      split at h
      · rename_i hb
        cases h
        exact ⟨Nat.not_le.mp hlen, rfl, rfl, rfl, rfl,
          Or.inl ⟨hb, rfl, rfl⟩⟩
      · rename_i hb
        cases h
        exact ⟨Nat.not_le.mp hlen, rfl, rfl, rfl, rfl,
          Or.inr ⟨hb, rfl, rfl⟩⟩

end LogState

/-- A step that leaves the history alone and takes no process out of its
operation. -/
theorem HistoryInv.of_phase (h : HistoryInv l)
    (hphase : ∀ q, l.s.phase q = .inOp → s'.phase q = .inOp) :
    HistoryInv ⟨s', l.h⟩ where
  started := fun w hw => (h.started w hw).imp_right fun ⟨hop, hq⟩ =>
    ⟨hop, hphase w.p hq⟩
  ended := h.ended
  before := h.before
  pairwise := h.pairwise
  exact_ := h.exact_

/-- The group becomes a commit. -/
theorem HistoryInv.clear (h : HistoryInv l) {c : Commit P}
    (hout : ∀ q, l.s.phase q ≠ .inOp) (hgroup : c.group = l.h.current)
    (hexact : c.Exact) :
    HistoryInv ⟨s', { l.h with
      current := [], commits := l.h.commits ++ [c] }⟩ := by
  have hended : ∀ w ∈ l.h.current, w.op < l.h.ended w.p := by
    intro w hw
    rcases h.started w hw with hlt | ⟨-, hin⟩
    · exact hlt
    · exact absurd hin (hout w.p)
  refine ⟨fun w hw => (List.not_mem_nil hw).elim, ?_,
    fun c' _ w _ w' hw' => (List.not_mem_nil hw').elim, ?_, ?_⟩
  · intro c' hc' w hw
    rcases List.mem_append.mp hc' with hc' | hc'
    · exact h.ended c' hc' w hw
    · rw [List.mem_singleton.mp hc', hgroup] at hw
      exact hended w hw
  · refine List.pairwise_append.mpr ⟨h.pairwise, List.pairwise_singleton _ _, ?_⟩
    intro c' hc' c'' hc''
    rw [List.mem_singleton.mp hc'', hgroup]
    exact h.before c' hc'
  · intro c' hc'
    rcases List.mem_append.mp hc' with hc' | hc'
    · exact h.exact_ c' hc'
    · rw [List.mem_singleton.mp hc']
      exact hexact

theorem Pinned.logWrite (h : Pinned s s.lh) (hw : s.logWrite b data = .ok s') :
    Pinned s' s'.lh := by
  obtain ⟨-, -, -, -, -, hlist⟩ := LogState.logWrite_ok hw
  intro b'
  rcases hlist with ⟨hb, hlh, hpins⟩ | ⟨hb, hlh, hpins⟩
  · rw [hpins, hlh]
    exact h b'
  · rw [hpins, hlh]
    by_cases hb' : b' = b
    · subst hb'
      simp [h b', hb]
    · rw [Function.update_of_ne hb', h b']
      simp [hb']

/-- Nobody is in an operation when none is outstanding. -/
theorem not_inOp_of_tally [Fintype P] {phase : P → Phase}
    (h : tally phase (· == .inOp) = 0) (q : P) : phase q ≠ .inOp := by
  intro hq
  have := tally_pos (f := phase) (p := (· == .inOp)) (i := q) (by rw [hq]; rfl)
  omega

theorem tally_of_not_inOp [Fintype P] {phase : P → Phase}
    (h : ∀ q, phase q ≠ .inOp) : tally phase (· == .inOp) = 0 :=
  tally_eq_zero fun q => beq_eq_false_iff_ne.mpr (h q)

variable [DecidableEq P]

theorem LogState.phase_of_ne (s : LogState P) (ph : Phase) {q : P}
    (h : q ≠ p) : (s.setPhase p ph).phase q = s.phase q :=
  Function.update_of_ne h ..

theorem outside_setPhase {ph : Phase}
    (h : ∀ q, q ≠ p → s.phase q = .idle ∨ s.phase q = .inOp)
    (hph : ph = .idle ∨ ph = .inOp) (q : P) :
    (s.setPhase p ph).phase q = .idle ∨ (s.setPhase p ph).phase q = .inOp := by
  by_cases hq : q = p
  · subst hq
    rw [show (s.setPhase q ph).phase q = ph from Function.update_self ..]
    exact hph
  · rw [s.phase_of_ne ph hq]
    exact h q hq

theorem InList.logWrite (h : InList l) (hw : l.s.logWrite b data = .ok s') :
    InList ⟨s', l.record (.logWrite p b data)⟩ := by
  obtain ⟨-, -, -, -, hcache, hlist⟩ := LogState.logWrite_ok hw
  have hmem : ∀ b', b' ∈ s'.lh ↔ b' ∈ l.s.lh ∨ b' = b := by
    intro b'
    rcases hlist with ⟨hb, hlh, -⟩ | ⟨hb, hlh, -⟩
    · rw [hlh]
      constructor
      · exact Or.inl
      · rintro (hb' | rfl)
        · exact hb'
        · exact hb
    · rw [hlh, List.mem_append, List.mem_singleton]
  refine ⟨?_, ?_⟩
  · rcases hlist with ⟨hb, hlh, -⟩ | ⟨hb, hlh, -⟩
    · exact hlh ▸ h.nodup
    · show s'.lh.Nodup
      rw [hlh]
      exact h.nodup.append (List.nodup_singleton b)
        (List.disjoint_singleton.mpr hb)
  · intro b'
    show lastWrite (l.h.current ++ [_]) b' =
      if b' ∈ s'.lh then some (s'.cache b') else none
    rw [lastWrite_concat, hcache]
    by_cases hb' : b' = b
    · subst hb'
      simp [hmem]
    · simp only [hmem, hb', or_false, if_false, Function.update_of_ne hb']
      exact h.last b'

/-! ### The history along a step -/

theorem HistoryInv.logWrite (h : HistoryInv l) (hp : l.s.phase p = .inOp)
    (hphase : s'.phase = l.s.phase) :
    HistoryInv ⟨s', l.record (.logWrite p b data)⟩ where
  started := by
    intro w hw
    show w.op < l.h.ended w.p ∨ w.op = l.h.ended w.p ∧ s'.phase w.p = .inOp
    rw [hphase]
    rcases List.mem_append.mp hw with hw | hw
    · exact h.started w hw
    · rw [List.mem_singleton.mp hw]
      exact Or.inr ⟨rfl, hp⟩
  ended := h.ended
  before := by
    intro c hc w hw w' hw' heq
    rcases List.mem_append.mp hw' with hw' | hw'
    · exact h.before c hc w hw w' hw' heq
    · rw [List.mem_singleton.mp hw'] at heq ⊢
      show w.op < l.h.ended p
      rw [← show w.p = p from heq]
      exact h.ended c hc w hw
  pairwise := h.pairwise
  exact_ := h.exact_

theorem HistoryInv.endOp (h : HistoryInv l)
    (hphase : ∀ q, q ≠ p → s'.phase q = l.s.phase q) :
    HistoryInv ⟨s', l.record (.endOp p)⟩ := by
  have hle : ∀ q, l.h.ended q ≤
      Function.update l.h.ended p (l.h.ended p + 1) q := by
    intro q
    by_cases hq : q = p
    · subst hq
      simp
    · rw [Function.update_of_ne hq]
  refine ⟨?_, ?_, h.before, h.pairwise, h.exact_⟩
  · intro w hw
    show w.op < Function.update l.h.ended p (l.h.ended p + 1) w.p ∨
      w.op = Function.update l.h.ended p (l.h.ended p + 1) w.p ∧ _
    rcases h.started w hw with hlt | ⟨heq, hin⟩
    · exact Or.inl (Nat.lt_of_lt_of_le hlt (hle w.p))
    · by_cases hq : w.p = p
      · left
        rw [heq, hq, Function.update_self]
        exact Nat.lt_succ_self _
      · right
        rw [Function.update_of_ne hq]
        exact ⟨heq, (hphase w.p hq).trans hin⟩
  · intro c hc w hw
    exact Nat.lt_of_lt_of_le (h.ended c hc w hw) (hle w.p)

/-! ### One step -/

variable [Fintype P]

theorem tally_enter (hp : s.phase p ≠ .inOp) :
    (tally (s.setPhase p .inOp).phase (· == .inOp) : ℤ) =
      tally s.phase (· == .inOp) + 1 := by
  have h := tally_update s.phase (· == .inOp) p .inOp
  rw [beq_eq_false_iff_ne.mpr hp] at h
  exact_mod_cast h

theorem tally_leave (ph : Phase) (hp : s.phase p = .inOp) (hph : ph ≠ .inOp) :
    (tally (s.setPhase p ph).phase (· == .inOp) : ℤ) =
      tally s.phase (· == .inOp) - 1 := by
  have h := tally_update s.phase (· == .inOp) p ph
  rw [hp, beq_eq_false_iff_ne.mpr hph] at h
  exact eq_sub_of_add_eq (by exact_mod_cast h)

namespace Inv

theorem beginOp (h : Inv l) (hp : l.s.phase p = .idle) :
    Inv ⟨l.s.beginOp p, l.h⟩ := by
  unfold LogState.beginOp
  split
  · exact h
  · rename_i hc
    split
    · exact h
    · cases h.mode with
      | committing _ _ hc' => exact absurd hc' hc
      | collecting _ hout hin hpin =>
        refine ⟨?_, .collecting (Bool.not_eq_true _ ▸ hc)
          (outside_setPhase (fun q _ => hout q) (Or.inr rfl)) ⟨hin.nodup, hin.last⟩ hpin
          (fun hnone => absurd (Function.update_self ..) (hnone p)),
          h.history.of_phase ?_⟩
        · show l.s.outstanding + 1 = _
          rw [h.count]
          exact (tally_enter (by rw [hp]; decide)).symm
        · intro q hq
          by_cases hqp : q = p
          · subst hqp
            exact Function.update_self ..
          · exact (LogState.phase_of_ne l.s _ hqp).trans hq

theorem logWrite (h : Inv l) (hp : l.s.phase p = .inOp)
    (hw : l.s.logWrite b data = .ok s') :
    Inv ⟨s', l.record (.logWrite p b data)⟩ := by
  obtain ⟨hc, hout, hin, hpin⟩ := h.mode.of_inOp hp
  obtain ⟨-, hn, hcom, hphase, -⟩ := LogState.logWrite_ok hw
  refine ⟨?_, .collecting ?_ ?_ (hin.logWrite hw) (hpin.logWrite hw) ?_,
    h.history.logWrite hp hphase⟩
  · show s'.outstanding = tally s'.phase _
    rw [hn, hphase]
    exact h.count
  · exact hcom.trans hc
  · intro q
    show s'.phase q = _ ∨ s'.phase q = _
    rw [hphase]
    exact hout q
  · exact fun hnone => absurd ((congrFun hphase p).trans hp) (hnone p)

/-- `end_op` does not find the log committing. -/
theorem endOp_ne_logCommitting (h : Inv l) (hp : l.s.phase p = .inOp) :
    l.s.endOp p ≠ .error .logCommitting := by
  obtain ⟨hc, -⟩ := h.mode.of_inOp hp
  dsimp only [LogState.endOp]
  rw [hc, if_neg Bool.false_ne_true]
  split <;> simp

theorem endOp (h : Inv l) (hp : l.s.phase p = .inOp)
    (he : l.s.endOp p = .ok s') : Inv ⟨s', l.record (.endOp p)⟩ := by
  obtain ⟨hc, hout, hin, hpin⟩ := h.mode.of_inOp hp
  dsimp only [LogState.endOp] at he
  rw [hc, if_neg Bool.false_ne_true] at he
  split at he
  · rename_i hzero
    cases he
    have htally := tally_leave (.commit .start) hp (by decide)
    rw [← h.count, hzero] at htally
    have hnone := not_inOp_of_tally (by exact_mod_cast htally)
    refine ⟨hzero.trans htally.symm, .committing p .start rfl
      (Function.update_self ..) ?_ ⟨⟨hin.nodup, hin.last⟩, hpin⟩,
      h.history.endOp fun q => LogState.phase_of_ne l.s _⟩
    intro q hq
    have hsame := LogState.phase_of_ne l.s (.commit .start) hq
    rcases hout q with hidle | hinOp
    · exact hsame.trans hidle
    · exact absurd (hsame.trans hinOp) (hnone q)
  · rename_i hmore
    cases he
    have htally := tally_leave .idle hp (by decide)
    rw [← h.count] at htally
    refine ⟨htally.symm, .collecting rfl
      (outside_setPhase (fun q _ => hout q) (Or.inl rfl))
      ⟨hin.nodup, hin.last⟩ hpin ?_,
      h.history.endOp fun q => LogState.phase_of_ne l.s _⟩
    -- somebody else is still in an operation
    intro hnone
    have hzero : tally (l.s.setPhase p .idle).phase (· == .inOp) = 0 :=
      tally_of_not_inOp hnone
    rw [hzero] at htally
    exact absurd htally.symm hmore

end Inv

/-! ### The steps of `commit` -/

theorem tally_keep {ph : Phase} (hp : s.phase p ≠ .inOp) (hph : ph ≠ .inOp) :
    tally (s.setPhase p ph).phase (· == .inOp) =
      tally s.phase (· == .inOp) := by
  have h := tally_update s.phase (· == .inOp) p ph
  rw [beq_eq_false_iff_ne.mpr hp, beq_eq_false_iff_ne.mpr hph] at h
  exact h

/-- A step inside `commit` whose next point is `pc'`. -/
theorem Inv.commit_to (h : Inv l) {pc' : Pc} {h' : History P}
    (hp : l.s.phase p = .commit pc) (hn : s'.outstanding = l.s.outstanding)
    (hc : s'.committing = l.s.committing)
    (hphase : s'.phase = (l.s.setPhase p (.commit pc')).phase)
    (hinv : CommitInv ⟨s', h'⟩ pc') (hhist : HistoryInv ⟨s', h'⟩) :
    Inv ⟨s', h'⟩ := by
  obtain ⟨hcom, hothers, -⟩ := h.mode.of_commit hp
  refine ⟨?_, .committing p pc' (hc.trans hcom) ?_ ?_ hinv, hhist⟩
  · show s'.outstanding = tally s'.phase _
    rw [hn, hphase, tally_keep (by rw [hp]; simp) (by simp), h.count]
  · show s'.phase p = _
    rw [hphase]
    exact Function.update_self ..
  · intro q hq
    show s'.phase q = _
    rw [hphase, LogState.phase_of_ne _ _ hq]
    exact hothers q hq

theorem Inv.not_inOp (h : Inv l) (hp : l.s.phase p = .commit pc) (q : P) :
    l.s.phase q ≠ .inOp := by
  obtain ⟨-, hothers, -⟩ := h.mode.of_commit hp
  by_cases hq : q = p
  · rw [hq, hp]
    simp
  · rw [hothers q hq]
    simp

/-- The same, where the history stays. -/
theorem Inv.commit_keep (h : Inv l) {pc' : Pc} (hp : l.s.phase p = .commit pc)
    (hn : s'.outstanding = l.s.outstanding)
    (hc : s'.committing = l.s.committing)
    (hphase : s'.phase = (l.s.setPhase p (.commit pc')).phase)
    (hinv : CommitInv ⟨s', l.h⟩ pc') : Inv ⟨s', l.h⟩ :=
  h.commit_to hp hn hc hphase hinv
    (h.history.of_phase fun q hq => absurd hq (h.not_inOp hp q))

omit [DecidableEq P] [Fintype P]

theorem InList.of_nil (hlh : l.s.lh = []) (hcur : l.h.current = []) :
    InList l := by
  refine ⟨?_, ?_⟩
  · rw [hlh]
    exact List.nodup_nil
  · intro b
    rw [hlh, hcur]
    rfl

theorem InList.current_nil (h : InList l) (hlh : l.s.lh = []) :
    l.h.current = [] := by
  rw [List.eq_nil_iff_forall_not_mem]
  intro w hw
  have hsome := lastWrite_isSome_iff.mpr ⟨w, hw, rfl⟩
  rw [h.last, hlh] at hsome
  cases hsome

variable {tail : ℕ}

theorem Copied.succ (h : Copied s tail) (hb : s.lh[tail]? = some b)
    (hlh : s'.lh = s.lh) (hcache : s'.cache = s.cache)
    (hcopies : s'.copies = Function.update s.copies tail (s.cache b)) :
    Copied s' (tail + 1) := by
  intro i hi b' hb'
  rw [hlh] at hb'
  rw [hcopies, hcache]
  by_cases hit : i = tail
  · subst hit
    cases hb.symm.trans hb'
    exact Function.update_self ..
  · rw [Function.update_of_ne hit]
    exact h i (by omega) b' hb'

theorem Copied.all (h : Copied s tail) (hb : s.lh[tail]? = none) :
    Copied s s.lh.length := by
  have hlen := List.getElem?_eq_none_iff.mp hb
  exact fun i hi => h i (by omega)

/-- `bwrite` of the entry to its home location. -/
theorem Installed.succ (h : Installed s tail) (hb : s.lh[tail]? = some b)
    (hlh : s'.lh = s.lh) (hcache : s'.cache = s.cache)
    (hhome : s'.home = Function.update s.home b (s.cache b)) :
    Installed s' (tail + 1) := by
  intro i hi b' hb'
  rw [hlh] at hb'
  rw [hhome, hcache]
  by_cases hbb : b' = b
  · rw [hbb]
    exact Function.update_self ..
  · rw [Function.update_of_ne hbb]
    refine h i (Nat.lt_of_le_of_ne (Nat.lt_succ_iff.mp hi) ?_) b' hb'
    rintro rfl
    exact hbb (Option.some.inj (hb'.symm.trans hb))

/-- `bunpin` of the entry that has just been installed. -/
theorem Pinned.unpin (h : Pinned s (s.lh.drop tail)) (hnd : s.lh.Nodup)
    (hb : s.lh[tail]? = some b)
    (hpins : s'.pins = Function.update s.pins b (s.pins b - 1)) :
    Pinned s' (s.lh.drop (tail + 1)) := by
  have hdrop : s.lh.drop tail = b :: s.lh.drop (tail + 1) := by
    obtain ⟨hlt, rfl⟩ := List.getElem?_eq_some_iff.mp hb
    exact List.drop_eq_getElem_cons hlt
  have hnot : b ∉ s.lh.drop (tail + 1) := by
    have hcons : (b :: s.lh.drop (tail + 1)).Nodup :=
      hdrop ▸ hnd.sublist (List.drop_sublist ..)
    exact (List.nodup_cons.mp hcons).1
  intro b'
  rw [hpins]
  by_cases hb' : b' = b
  · subst hb'
    rw [Function.update_self, h b', hdrop, if_pos (List.mem_cons_self ..),
      if_neg hnot]
  · rw [Function.update_of_ne hb', h b', hdrop]
    simp [hb']

theorem lookup_map_pair (f : BlockNo → Block) (bs : List BlockNo)
    (b : BlockNo) : (bs.map fun b => (b, f b)).lookup b =
      if b ∈ bs then some (f b) else none := by
  induction bs with
  | nil => rfl
  | cons b' bs ih =>
    rw [List.map_cons, List.lookup_cons, ih]
    by_cases hb : b = b'
    · subst hb
      simp
    · rw [beq_eq_false_iff_ne.mpr hb]
      simp [hb]

/-- The log holds exactly the group when it is cleared. -/
theorem InList.exact_ (h : InList l) (hcopied : Copied l.s l.s.lh.length)
    (hhead : l.s.header = l.s.lh) :
    Commit.Exact ⟨l.h.current, l.s.header.zip
      ((List.range l.s.header.length).map l.s.copies)⟩ := by
  have hlist : l.s.header.zip ((List.range l.s.header.length).map l.s.copies) =
      l.s.lh.map fun b => (b, l.s.cache b) := by
    rw [hhead]
    apply List.ext_getElem
    · simp
    · intro i hi hi'
      rw [List.length_map] at hi'
      simp only [List.getElem_zip, List.getElem_map, List.getElem_range]
      rw [hcopied i hi' _ (List.getElem?_eq_getElem hi')]
  refine ⟨?_, ?_⟩
  · simp only [hlist, List.map_map, Function.comp_def, List.map_id']
    exact h.nodup
  · intro b
    simp only [hlist]
    rw [lookup_map_pair, h.last]

variable [DecidableEq P]

theorem record_commit (hp : l.s.phase p = .commit pc) (hpc : pc ≠ .clear) :
    l.record (.commit p) = l.h := by
  rw [Logged.record, if_neg]
  rw [hp]
  simpa using hpc

theorem record_clear (hp : l.s.phase p = .commit .clear) :
    l.record (.commit p) = { l.h with
      current := []
      commits := l.h.commits ++ [⟨l.h.current, l.s.header.zip
        ((List.range l.s.header.length).map l.s.copies)⟩] } := by
  rw [Logged.record, if_pos hp]

variable [Fintype P]

theorem Inv.commit (h : Inv l) (hp : l.s.phase p = .commit pc) :
    Inv ⟨l.s.commitStep p pc, l.record (.commit p)⟩ := by
  obtain ⟨hcom, hothers, hinv⟩ := h.mode.of_commit hp
  cases pc with
  | start =>
    obtain ⟨hin, hpin⟩ := hinv
    rw [record_commit hp (by simp), LogState.commitStep]
    by_cases hlen : l.s.lh.length > 0
    · rw [if_pos hlen]
      refine h.commit_keep hp rfl rfl rfl ⟨⟨hin.nodup, hin.last⟩, hpin, ?_⟩
      exact fun i hi => absurd hi (Nat.not_lt_zero i)
    · rw [if_neg hlen]
      have hlh : l.s.lh = [] := List.length_eq_zero_iff.mp (by omega)
      refine h.commit_keep hp rfl rfl rfl ⟨hlh, hin.current_nil hlh, ?_⟩
      exact fun b => by rw [← hlh]; exact hpin b
  | writeLog tail =>
    obtain ⟨hin, hpin, hcopied⟩ := hinv
    rw [record_commit hp (by simp), LogState.commitStep]
    cases hb : l.s.lh[tail]? with
    | some b =>
      exact h.commit_keep hp rfl rfl rfl ⟨⟨hin.nodup, hin.last⟩, hpin,
        hcopied.succ hb rfl rfl rfl⟩
    | none =>
      exact h.commit_keep hp rfl rfl rfl ⟨⟨hin.nodup, hin.last⟩, hpin,
        hcopied.all hb⟩
  | writeHead =>
    obtain ⟨hin, hpin, hcopied⟩ := hinv
    rw [record_commit hp (by simp)]
    exact h.commit_keep hp rfl rfl rfl ⟨⟨hin.nodup, hin.last⟩, hpin,
      hcopied, rfl, fun i hi => absurd hi (Nat.not_lt_zero i)⟩
  | installTrans tail =>
    obtain ⟨hin, hpin, hcopied, hhead, hinst⟩ := hinv
    rw [record_commit hp (by simp), LogState.commitStep]
    cases hb : l.s.lh[tail]? with
    | some b =>
      -- the copy is what the buffer already holds
      have hlt := (List.getElem?_eq_some_iff.mp hb).1
      have hcopy : l.s.copies tail = l.s.cache b := hcopied tail hlt b hb
      have hcache : Function.update l.s.cache b (l.s.copies tail) =
          l.s.cache := by
        rw [hcopy, Function.update_eq_self]
      refine h.commit_keep hp rfl rfl rfl ⟨⟨hin.nodup, ?_⟩,
        hpin.unpin hin.nodup hb rfl, ?_, hhead,
        hinst.succ hb rfl hcache (by rw [hcopy])⟩
      · simp only [hcache]
        exact hin.last
      · simp only [hcache]
        exact hcopied
    | none =>
      have hlen := List.getElem?_eq_none_iff.mp hb
      rw [List.drop_eq_nil_of_le hlen] at hpin
      exact h.commit_keep hp rfl rfl rfl ⟨⟨hin.nodup, hin.last⟩, hpin,
        hcopied, hhead, fun i hi => hinst i (Nat.lt_of_lt_of_le hi hlen)⟩
  | clear =>
    obtain ⟨hin, hpin, hcopied, hhead, -⟩ := hinv
    rw [record_clear hp]
    exact h.commit_to hp rfl rfl rfl ⟨rfl, rfl, hpin⟩
      (h.history.clear (h.not_inOp hp) rfl (hin.exact_ hcopied hhead))
  | erase =>
    rw [record_commit hp (by simp)]
    exact h.commit_keep hp rfl rfl rfl hinv
  | done =>
    obtain ⟨hlh, hcur, hpin⟩ := hinv
    rw [record_commit hp (by simp)]
    refine ⟨?_, .collecting rfl ?_ (.of_nil hlh hcur) ?_ (fun _ => hcur),
      h.history.of_phase fun q hq => absurd hq (h.not_inOp hp q)⟩
    · show l.s.outstanding = tally (l.s.setPhase p .idle).phase _
      rw [tally_keep (by rw [hp]; simp) (by simp), h.count]
    · exact outside_setPhase (fun q hq => Or.inl (hothers q hq)) (Or.inl rfl)
    · show Pinned _ l.s.lh
      rw [hlh]
      exact hpin

theorem Inv.step {l' : Logged P} {a : LogOp P} (h : Inv l)
    (hok : Client l a) (hstep : l.step a = .ok l') : Inv l' := by
  obtain ⟨s', hs, hl⟩ := bind_ok_iff.mp hstep
  cases hl
  cases a with
  | beginOp p =>
    cases hs
    exact h.beginOp hok
  | logWrite p b data => exact h.logWrite hok hs
  | endOp p => exact h.endOp hok hs
  | commit p =>
    obtain ⟨pc, hp⟩ := hok
    simp only [LogState.step, hp] at hs
    cases hs
    exact h.commit hp

end Invariant

/-! ## `commit` runs to its end -/

section Completion

variable {P : Type*} [DecidableEq P] {l : Logged P} {p : P}

/-- How many steps `commit` takes at most from here, with `n` blocks in the
list. -/
def Pc.left (n : ℕ) : Pc → ℕ
  | .start => 2 * n + 6
  | .writeLog tail => n - tail + n + 5
  | .writeHead => n + 4
  | .installTrans tail => n - tail + 3
  | .clear => 2
  | .erase => 1
  | .done => 0

theorem commitStep_left (s : LogState P) (p : P) (pc : Pc) :
    pc = .done ∨ ∃ pc', (s.commitStep p pc).phase p = .commit pc' ∧
      pc'.left (s.commitStep p pc).lh.length < pc.left s.lh.length := by
  have hself : ∀ ph, Function.update s.phase p ph p = ph :=
    fun ph => Function.update_self ..
  cases pc with
  | done => exact Or.inl rfl
  | start =>
    refine Or.inr ⟨_, hself _, ?_⟩
    show Pc.left s.lh.length _ < _
    split <;> simp [Pc.left]
    omega
  | writeLog tail | installTrans tail =>
    rw [LogState.commitStep]
    cases hb : s.lh[tail]? with
    | some b =>
      refine Or.inr ⟨_, hself _, ?_⟩
      have hlt := (List.getElem?_eq_some_iff.mp hb).1
      show Pc.left s.lh.length _ < _
      simp only [Pc.left]
      omega
    | none =>
      refine Or.inr ⟨_, hself _, ?_⟩
      show Pc.left s.lh.length _ < _
      simp only [Pc.left]
      omega
  | writeHead | clear | erase =>
    refine Or.inr ⟨_, hself _, ?_⟩
    simp [LogState.commitStep, LogState.setPhase, Pc.left]

variable [Fintype P]

/-- Left to itself, `commit` ends, with nothing of the group left over. -/
theorem Inv.completes {pc : Pc} (h : Inv l) (hp : l.s.phase p = .commit pc) :
    ∃ n l', Run Logged.step Client l (List.replicate n (.commit p)) l' ∧
      (∀ q, l'.s.phase q = .idle) ∧ l'.s.committing = false ∧
      l'.h.current = [] := by
  generalize hn : pc.left l.s.lh.length = n
  induction n using Nat.strong_induction_on generalizing l pc with
  | _ n ih =>
    have hstep : l.step (.commit p) =
        .ok ⟨l.s.commitStep p pc, l.record (.commit p)⟩ := by
      simp only [Logged.step, LogState.step, hp]
      rfl
    rcases commitStep_left l.s p pc with rfl | ⟨pc', hp', hlt⟩
    · obtain ⟨-, hothers, -, hcur, -⟩ := h.mode.of_commit hp
      refine ⟨1, _, .cons ⟨_, hp⟩ hstep (.nil _), ?_, rfl, ?_⟩
      · intro q
        by_cases hq : q = p
        · rw [hq]
          exact Function.update_self ..
        · exact (LogState.phase_of_ne _ _ hq).trans (hothers q hq)
      · rw [record_commit hp (by simp)]
        exact hcur
    · obtain ⟨k, l', run, hend⟩ := ih _ (hn ▸ hlt) (h.commit hp) hp' rfl
      exact ⟨k + 1, l', .cons ⟨_, hp⟩ hstep run, hend⟩

end Completion

/-! ## Group commit -/

/-- Operations are committed whole, and each exactly once. -/
structure GroupCommit {P : Type*} [DecidableEq P] (l : Logged P) : Prop where
  /-- While one process commits, no operation is outstanding. -/
  alone : ∀ p pc, l.s.phase p = .commit pc → l.s.outstanding = 0 ∧
    (∀ q, l.s.phase q ≠ .inOp) ∧ ∀ q, l.s.beginOp q = l.s
  noPanic : ∀ p, l.s.phase p = .inOp → l.s.endOp p ≠ .error .logCommitting
  nodup : l.s.lh.Nodup
  /-- Until `install_trans` unpins them, one after the other. -/
  pinned : (∀ p tail, l.s.phase p ≠ .commit (.installTrans tail)) →
    (∀ p, l.s.phase p ≠ .commit .clear) → Pinned l.s l.s.lh
  unpinned : ∀ p tail, l.s.phase p = .commit (.installTrans tail) →
    Pinned l.s (l.s.lh.drop tail)
  /-- The list is the group that the next commit takes. -/
  inList : ∀ b, lastWrite l.h.current b =
    if b ∈ l.s.lh then some (l.s.cache b) else none
  /-- Every commit has exactly the blocks of its group, as last written. -/
  commits : ∀ c ∈ l.h.commits, c.Exact
  /-- No operation is spread over two commits. -/
  whole : l.h.commits.Pairwise fun c c' => Before c.group c'.group
  wholeCurrent : ∀ c ∈ l.h.commits, Before c.group l.h.current
  /-- Before the list is cleared, all of it has been installed. -/
  installed : ∀ p, l.s.phase p = .commit .clear →
    ∀ b ∈ l.s.lh, l.s.home b = l.s.cache b
  /-- A commit takes the whole group: nothing is left once the list has been
  cleared, nor whenever nobody is in an operation or commits. -/
  cleared : ∀ p, l.s.phase p = .commit .erase ∨ l.s.phase p = .commit .done →
    l.h.current = []
  quiet : (∀ p, l.s.phase p = .idle) → l.h.current = []
  /-- The commit that has begun comes to its end. -/
  completes : ∀ p pc, l.s.phase p = .commit pc →
    ∃ n l', Run Logged.step Client l (List.replicate n (.commit p)) l' ∧
      (∀ q, l'.s.phase q = .idle) ∧ l'.s.committing = false ∧
      l'.h.current = []

section Theorem

variable {P : Type*} [Fintype P] {l l' : Logged P}

theorem Inv.pinned (h : Inv l)
    (hinst : ∀ p tail, l.s.phase p ≠ .commit (.installTrans tail))
    (hclear : ∀ p, l.s.phase p ≠ .commit .clear) : Pinned l.s l.s.lh := by
  cases h.mode with
  | collecting _ _ _ hpin _ => exact hpin
  | committing p pc _ hat _ hinv =>
    cases pc with
    | start => exact hinv.2
    | writeLog tail => exact hinv.2.1
    | writeHead => exact hinv.2.1
    | installTrans tail => exact absurd hat (hinst p tail)
    | clear => exact absurd hat (hclear p)
    | erase => exact hinv.1 ▸ hinv.2.2
    | done => exact hinv.1 ▸ hinv.2.2

theorem Inv.inList (h : Inv l) : InList l := by
  cases h.mode with
  | collecting _ _ hin => exact hin
  | committing p pc _ _ _ hinv =>
    cases pc with
    | start => exact hinv.1
    | writeLog tail => exact hinv.1
    | writeHead => exact hinv.1
    | installTrans tail => exact hinv.1
    | clear => exact hinv.1
    | erase => exact .of_nil hinv.1 hinv.2.1
    | done => exact .of_nil hinv.1 hinv.2.1

variable [DecidableEq P]

theorem Inv.groupCommit (h : Inv l) : GroupCommit l where
  alone := by
    intro p pc hp
    obtain ⟨hcom, -, -⟩ := h.mode.of_commit hp
    refine ⟨?_, h.not_inOp hp, fun q => by rw [LogState.beginOp, if_pos hcom]⟩
    rw [h.count, tally_of_not_inOp (h.not_inOp hp)]
    rfl
  noPanic := fun p hp => h.endOp_ne_logCommitting hp
  nodup := h.inList.nodup
  pinned := h.pinned
  unpinned := fun p tail hp => (h.mode.of_commit hp).2.2.2.1
  inList := h.inList.last
  commits := h.history.exact_
  whole := h.history.pairwise
  wholeCurrent := h.history.before
  installed := by
    intro p hp b hb
    obtain ⟨i, hi, rfl⟩ := List.getElem_of_mem hb
    exact (h.mode.of_commit hp).2.2.2.2.2.2 i hi _ (List.getElem?_eq_getElem hi)
  cleared := by
    rintro p (hp | hp) <;> exact (h.mode.of_commit hp).2.2.2.1
  quiet := by
    intro hidle
    cases h.mode with
    | collecting _ _ _ _ hquiet =>
      exact hquiet fun p => by rw [hidle p]; simp
    | committing p _ _ hat => simp [hidle p] at hat
  completes := fun p pc hp => h.completes hp

/-- The call of `log_write` that a step makes. -/
def LogOp.call : LogOp P → Option (P × BlockNo × Block)
  | .logWrite p b data => some (p, b, data)
  | _ => none

/-- All calls of `log_write` so far, commit by commit. -/
def History.calls (h : History P) : List (P × BlockNo × Block) :=
  (h.commits.flatMap Commit.group ++ h.current).map fun w => (w.p, w.b, w.data)

omit [Fintype P] in
theorem calls_step {a : LogOp P} (hstep : l.step a = .ok l') :
    l'.h.calls = l.h.calls ++ a.call.toList := by
  obtain ⟨s', -, hl⟩ := bind_ok_iff.mp hstep
  cases hl
  cases a with
  | beginOp p => simp [Logged.record, LogOp.call]
  | logWrite p b data =>
    simp [Logged.record, LogOp.call, History.calls]
  | endOp p => simp [Logged.record, LogOp.call, History.calls]
  | commit p =>
    by_cases hp : l.s.phase p = .commit .clear
    · rw [record_clear hp]
      simp [LogOp.call, History.calls]
    · rw [Logged.record, if_neg hp]
      simp [LogOp.call]

omit [Fintype P] in
theorem calls_run {ok : Logged P → LogOp P → Prop} {as : List (LogOp P)}
    (run : Run Logged.step ok l as l') :
    l'.h.calls = l.h.calls ++ as.filterMap LogOp.call := by
  induction run with
  | nil l => simp
  | @cons l l₁ l₂ a as _ hstep _ ih =>
    rw [ih, calls_step hstep, List.append_assoc]
    cases ha : a.call with
    | none => simp [ha]
    | some w => simp [ha]

/-- **Group commit never splits or mixes operations**, for any number of
processes and any interleaving of their steps; every call of `log_write` of
the run is in one commit or in the group of the next. -/
theorem group_commit {as : List (LogOp P)} (hboot : Boot l)
    (run : Run Logged.step Client l as l') :
    GroupCommit l' ∧ l'.h.calls = as.filterMap LogOp.call := by
  have hinv : Inv l' :=
    run.invariant (fun l a l' h hok hstep => h.step hok hstep) hboot.inv
  refine ⟨hinv.groupCommit, ?_⟩
  rw [calls_run run, hboot.history]
  rfl

end Theorem

/-- Two processes, an empty log, a blank disk. -/
def blankLog : Logged Bool where
  s :=
    { phase := fun _ => .idle, cache := fun _ _ => 0, pins := fun _ => 0
      copies := fun _ _ => 0, home := fun _ _ => 0 }
  h := {}

theorem blankLog_boot : Boot blankLog :=
  ⟨rfl, rfl, rfl, fun _ => rfl, fun _ => rfl, rfl⟩

/-- Both processes write the block, the second one commits. -/
def twoOps : List (LogOp Bool) :=
  [.beginOp false, .beginOp true, .logWrite false 60 (fun _ => 7),
    .logWrite true 60 (fun _ => 8), .endOp false, .endOp true] ++
    List.replicate 9 (.commit true)

theorem group_commit_two : ∃ l', Run Logged.step Client blankLog twoOps l' ∧
    (∀ p, l'.s.phase p = .idle) ∧ l'.h.commits.map Commit.list =
      [[(60, fun _ => 8)]] ∧ GroupCommit l' ∧
    l'.h.calls = [(false, 60, fun _ => 7), (true, 60, fun _ => 8)] := by
  obtain ⟨l', run, hidle, hlist⟩ : ∃ l',
      Run Logged.step Client blankLog twoOps l' ∧
        (∀ p, l'.s.phase p = .idle) ∧
        l'.h.commits.map Commit.list = [[(60, fun _ => 8)]] := by
    refine ⟨_, .cons rfl rfl <| .cons rfl rfl <| .cons rfl rfl <| .cons rfl rfl <|
      .cons rfl rfl <| .cons rfl rfl <| .cons ⟨_, rfl⟩ rfl <| .cons ⟨_, rfl⟩ rfl <|
      .cons ⟨_, rfl⟩ rfl <| .cons ⟨_, rfl⟩ rfl <| .cons ⟨_, rfl⟩ rfl <|
      .cons ⟨_, rfl⟩ rfl <| .cons ⟨_, rfl⟩ rfl <| .cons ⟨_, rfl⟩ rfl <|
      .cons ⟨_, rfl⟩ rfl <| .nil _, ?_, rfl⟩
    decide
  obtain ⟨hgroup, hcalls⟩ := group_commit blankLog_boot run
  exact ⟨l', run, hidle, hlist, hgroup, hcalls⟩

end Xv6.Log
