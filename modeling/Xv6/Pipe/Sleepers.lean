import Xv6.Pipe.Pipe

/-!
# Sleepers on a pipe

Whoever sleeps on a pipe should have a reason to whenever `pi->lock` is free:
a reader an empty pipe with an open write end, a writer a full pipe with an
open read end. `pipewrite` breaks this. It looks at `killed` once more after
each byte it has put in, and returns without waking the readers if the flag is
set by then. The other ways out wake whom they have to: if nobody is killed at
that point, no sleeper is stranded.
-/

namespace Xv6.Pipe

open Framework

attribute [grind] Phase.asleep Phase.holding Phase.inRead Phase.inWrite Phase.closes

/-- In a call on that end. -/
@[grind] def Phase.inside (w : Bool) (ph : Phase) : Bool :=
  if w then ph.inWrite else ph.inRead

namespace PipeState

variable {P : Type}

/-- Nobody sleeps on the channel. -/
@[grind] def NoAsleep (s : PipeState P) (chan : Chan) : Prop :=
  ∀ q, (s.phase q).asleep ≠ some chan

/-- Readers sleep only on an empty pipe that may still be written. -/
@[grind] def ReadersOk (s : PipeState P) : Prop :=
  ∀ q, (s.phase q).asleep = some .nread →
    s.nread = s.nwrite ∧ s.writeopen = true

/-- Writers sleep only on a full pipe that may still be read. -/
@[grind] def WritersOk (s : PipeState P) : Prop :=
  ∀ q, (s.phase q).asleep = some .nwrite → s.full ∧ s.readopen = true

/-- No sleeper is stranded. -/
@[grind] def NoneStranded (s : PipeState P) : Prop :=
  s.lock = none → s.ReadersOk ∧ s.WritersOk

/-- In the loop of `pipewrite`: a byte is in the pipe or about to be, and the
`killed` flag will be looked at before the readers are woken. -/
@[grind] def Risky (s : PipeState P) : Phase → Prop
  | .writeLoop i n => (i : ℤ) < n ∧ s.nread ≠ s.nwrite
  | .writeBody i n => (i : ℤ) + 1 < n ∧ ¬ s.full
  | _ => False

/-- Killing `p` now would leave a sleeping reader behind. -/
@[grind] def Exposed (s : PipeState P) (p : P) : Prop :=
  (∃ q, (s.phase q).asleep = some .nread) ∧ s.Risky (s.phase p)

/-- What holds at each point of a call while its process has the lock. -/
@[grind] def Known (s : PipeState P) : Phase → Prop
  | .writeLoop _ _ => s.WritersOk
  | .writeBody _ _ => s.WritersOk ∧ s.readopen = true
  | .writeSleep _ _ =>
      s.NoAsleep .nread ∧ s.WritersOk ∧ s.full ∧ s.readopen = true
  | .writeWake _ => s.WritersOk
  | .readSleep _ => s.ReadersOk ∧ s.WritersOk ∧ s.nread = s.nwrite ∧
      s.writeopen = true
  | .readCopy _ _ => s.NoAsleep .nread
  | .readWake _ => s.NoAsleep .nread
  | .closeWake true => s.WritersOk
  | .closeWake false => s.ReadersOk
  | _ => s.ReadersOk ∧ s.WritersOk

/-- Whether an end is open; `true` is the write end, as in `pipeclose`. -/
@[grind] def isOpen (s : PipeState P) (w : Bool) : Bool :=
  if w then s.writeopen else s.readopen

structure Inv (s : PipeState P) : Prop where
  lock : ∀ p, (s.phase p).holding = true ↔ s.lock = some p
  ends : ∀ w, (s.isOpen w = false ∨ ∃ q, (s.phase q).closes w = true) →
    ∀ p, (s.phase p).inside w = false
  free : s.NoneStranded
  held : ∀ p, s.lock = some p → s.Known (s.phase p)
  exposed : ∀ p, s.Exposed p → s.killed p = false

end PipeState

/-! ## One process moves -/

variable {ph ph' : Phase}

/-- A phase of another process: as it was, or woken. -/
def Woken (ph ph' : Phase) : Prop := ph' = ph ∨ ph' = ph.wake

/-- Being woken is all that happens to a process. -/
theorem Woken.same (h : Woken ph ph') :
    ph'.holding = ph.holding ∧ (∀ w, ph'.inside w = ph.inside w) ∧
      (∀ w, ph'.closes w = ph.closes w) ∧
      (∀ chan, ph'.asleep = some chan → ph.asleep = some chan) ∧
      (ph.holding = true → ph' = ph) := by
  rcases h with rfl | rfl
  · simp
  · cases ph <;> simp [Phase.wake, Phase.holding, Phase.inside, Phase.inRead,
      Phase.inWrite, Phase.closes, Phase.asleep]

/-- The call goes on, or ends. -/
@[grind] def Follows (ph ph' : Phase) : Prop :=
  ∀ w, (ph'.inside w = true → ph.inside w = true) ∧
    (ph'.closes w = true → ph.closes w = true)

namespace PipeState

variable {P : Type} {s t : PipeState P} {p : P}

/-- `p` is now in phase `ph`; the others may have been woken. -/
structure Turn (s t : PipeState P) (p : P) (ph : Phase) : Prop where
  self : t.phase p = ph
  others : ∀ q, q ≠ p → Woken (s.phase q) (t.phase q)
  killed : ∀ q, t.killed q = s.killed q
  lock : t.lock = if ph.holding = true then some p else none

/-- The ring and the ends are as before. -/
@[grind cases] structure Calm (s t : PipeState P) : Prop where
  nread : t.nread = s.nread
  nwrite : t.nwrite = s.nwrite
  readopen : t.readopen = s.readopen
  writeopen : t.writeopen = s.writeopen

theorem holding_of_exposed (h : s.Exposed p) :
    (s.phase p).holding = true := by
  cases hph : s.phase p <;> grind

/-- A step of `p`, which has the lock or takes it. -/
theorem Inv.turn (h : Inv s) (ht : Turn s t p ph)
    (hhad : s.lock = none ∨ s.lock = some p) (hfollows : Follows (s.phase p) ph)
    (hopen : ∀ w, t.isOpen w = false →
      s.isOpen w = false ∨ (s.phase p).closes w = true)
    (hat : ph.holding = true → t.Known ph)
    (hfree : ph.holding = false → t.ReadersOk ∧ t.WritersOk)
    (hexp : (∃ q, (t.phase q).asleep = some .nread) → t.Risky ph →
      s.killed p = false) : Inv t := by
  obtain ⟨hself, hothers, hkilled, hlock⟩ := ht
  obtain ⟨lock, ends, -, held, exposed⟩ := h
  have hsame := fun q hq => (hothers q hq).same
  have hhold : ∀ q, t.Exposed q → (t.phase q).holding = true :=
    fun q => holding_of_exposed
  refine ⟨by grind, ?_, by grind, by grind, ?_⟩
  · intro w hclosed q
    have hwas : s.isOpen w = false ∨ ∃ r, (s.phase r).closes w = true := by
      rcases hclosed with hclosed | ⟨r, hr⟩
      · exact (hopen w hclosed).imp_right fun hc => ⟨p, hc⟩
      · refine Or.inr ⟨r, ?_⟩
        by_cases hrp : r = p <;> grind
    have hout := ends w hwas q
    by_cases hqp : q = p <;> grind
  · intro q hq
    by_cases hqp : q = p
    · rw [hkilled, hqp]
      obtain ⟨hasleep, hrisky⟩ := hq
      exact hexp hasleep (hself ▸ hqp ▸ hrisky)
    · -- only who has the lock is in the loop
      have hlocked := (lock q).mp ((hsame q hqp).1 ▸ hhold q hq)
      grind

/-! ## The steps of the calls

The state after a step is known through `Turn` and `Calm` only: who sleeps in
it slept before, or is the process that moved. -/

attribute [grind] full

@[grind →] theorem Turn.asleep {q : P} {chan : Chan} (h : Turn s t p ph)
    (hq : (t.phase q).asleep = some chan) :
    q ≠ p ∧ (s.phase q).asleep = some chan ∨ q = p ∧ ph.asleep = some chan := by
  by_cases hqp : q = p
  · exact Or.inr ⟨hqp, h.self ▸ hqp ▸ hq⟩
  · exact Or.inl ⟨hqp, (h.others q hqp).same.2.2.2.1 chan hq⟩

theorem Inv.known (h : Inv s) (hph : s.phase p = ph) (hhold : ph.holding = true) :
    s.lock = some p ∧ s.Known ph := by
  subst hph
  have hlock := (h.lock p).mp hhold
  exact ⟨hlock, h.held p hlock⟩

section Steps

variable [DecidableEq P]

theorem turn_setPhase (hlock : s.lock = some p) (hhold : ph.holding = true)
    (h : Except.ok (s.setPhase p ph) = (.ok t : Except Blocked _)) :
    Turn s t p ph ∧ Calm s t := by
  cases h
  exact ⟨⟨Function.update_self .., fun _ hq => Or.inl (Function.update_of_ne hq ..),
    fun _ => rfl, by rw [if_pos hhold]; exact hlock⟩, rfl, rfl, rfl, rfl⟩

theorem turn_release (hhold : ph.holding = false)
    (h : Except.ok (s.release p ph) = (.ok t : Except Blocked _)) :
    Turn s t p ph ∧ Calm s t := by
  cases h
  exact ⟨⟨Function.update_self .., fun _ hq => Or.inl (Function.update_of_ne hq ..),
    fun _ => rfl, by rw [hhold]; rfl⟩, rfl, rfl, rfl, rfl⟩

theorem turn_acquire (hhold : ph.holding = true) (h : s.acquire p ph = .ok t) :
    s.lock = none ∧ Turn s t p ph ∧ Calm s t := by
  unfold acquire at h
  split at h
  · rename_i hlock
    cases h
    exact ⟨hlock, ⟨Function.update_self ..,
      fun _ hq => Or.inl (Function.update_of_ne hq ..), fun _ => rfl,
      by rw [if_pos hhold]⟩, rfl, rfl, rfl, rfl⟩
  · cases h

theorem turn_wakeup {chan : Chan} (hlock : s.lock = some p)
    (hhold : ph.holding = true)
    (h : Except.ok ((s.wakeup chan).setPhase p ph) =
      (.ok t : Except Blocked _)) :
    Turn s t p ph ∧ Calm s t ∧ t.NoAsleep chan := by
  cases h
  have hwoken : ∀ q, Woken (s.phase q) ((s.wakeup chan).phase q) ∧
      ((s.wakeup chan).phase q).asleep ≠ some chan := by
    intro q
    unfold Woken wakeup
    cases hph : s.phase q <;> grind [Phase.wake]
  have hphase : ∀ q, ((s.wakeup chan).setPhase p ph).phase q =
      if q = p then ph else (s.wakeup chan).phase q := Function.update_apply _ _ _
  have hawake : ph.asleep = none := by cases ph <;> grind
  refine ⟨⟨Function.update_self .., by grind, fun _ => rfl,
    by rw [if_pos hhold]; exact hlock⟩, ⟨rfl, rfl, rfl, rfl⟩, by grind⟩

variable {ch : Option UInt8} {copied : Bool}

/-- Leaving the loop without a wakeup strands no reader: one that sleeps on a
pipe with bytes would have exposed this process, which is killed. -/
theorem Inv.writeLoop {i : ℕ} {n : ℤ} (h : Inv s)
    (hph : s.phase p = .writeLoop i n) (hstep : s.run p ch copied = .ok t) :
    Inv t := by
  obtain ⟨hlock, hwriters⟩ := h.known hph rfl
  simp only [run, hph] at hstep
  split at hstep
  · split at hstep
    · -- the read end is closed, or this process has been killed
      have hreaders : s.ReadersOk := by
        intro q hq
        have hwrite := h.ends true
        have hread := h.ends false
        have hexp := h.exposed p
        have hinside : (s.phase q).inside false = true := by
          cases hq' : s.phase q <;> grind
        grind
      obtain ⟨hturn, hcalm⟩ := turn_release rfl hstep
      refine h.turn hturn (Or.inr hlock) ?_ ?_ ?_ ?_ ?_ <;> grind
    · obtain ⟨hturn, hcalm⟩ := turn_setPhase hlock rfl hstep
      refine h.turn hturn (Or.inr hlock) ?_ ?_ ?_ ?_ ?_ <;> grind
  · obtain ⟨hturn, hcalm⟩ := turn_setPhase hlock rfl hstep
    refine h.turn hturn (Or.inr hlock) ?_ ?_ ?_ ?_ ?_ <;> grind

/-- Putting a byte in keeps the writers in order, for none sleeps on a pipe
with room; it may expose the process, which was exposed before then. -/
theorem Inv.writeBody {i : ℕ} {n : ℤ} (h : Inv s)
    (hph : s.phase p = .writeBody i n) (hstep : s.run p ch copied = .ok t) :
    Inv t := by
  obtain ⟨hlock, hwriters, hread⟩ := h.known hph rfl
  simp only [run, hph] at hstep
  split at hstep
  · obtain ⟨hturn, hcalm, hnone⟩ := turn_wakeup hlock rfl hstep
    refine h.turn hturn (Or.inr hlock) ?_ ?_ ?_ ?_ ?_ <;> grind
  · cases ch with
    | none =>
      obtain ⟨hturn, hcalm⟩ := turn_setPhase hlock rfl hstep
      refine h.turn hturn (Or.inr hlock) ?_ ?_ ?_ ?_ ?_ <;> grind
    | some ch =>
      have hexp := h.exposed p
      obtain ⟨hturn, hcalm⟩ := turn_setPhase (s := s.store ch) hlock rfl hstep
      replace hturn : Turn s t p (.writeLoop (i + 1) n) :=
        ⟨hturn.self, hturn.others, hturn.killed, hturn.lock⟩
      have hread : t.readopen = s.readopen := hcalm.readopen
      have hwrite : t.writeopen = s.writeopen := hcalm.writeopen
      refine h.turn hturn (Or.inr hlock) ?_ ?_ ?_ ?_ ?_ <;> grind

theorem Inv.readWait {n : ℤ} (h : Inv s) (hph : s.phase p = .readWait n)
    (hstep : s.run p ch copied = .ok t) : Inv t := by
  obtain ⟨hlock, hreaders, hwriters⟩ := h.known hph rfl
  simp only [run, hph] at hstep
  split at hstep
  · split at hstep
    · obtain ⟨hturn, hcalm⟩ := turn_release rfl hstep
      refine h.turn hturn (Or.inr hlock) ?_ ?_ ?_ ?_ ?_ <;> grind
    · obtain ⟨hturn, hcalm⟩ := turn_setPhase hlock rfl hstep
      refine h.turn hturn (Or.inr hlock) ?_ ?_ ?_ ?_ ?_ <;> grind
  · obtain ⟨hturn, hcalm⟩ := turn_setPhase hlock rfl hstep
    refine h.turn hturn (Or.inr hlock) ?_ ?_ ?_ ?_ ?_ <;> grind

theorem Inv.readCopy {i : ℕ} {n : ℤ} (h : Inv s) (hph : s.phase p = .readCopy i n)
    (hstep : s.run p ch copied = .ok t) : Inv t := by
  obtain ⟨hlock, hnone⟩ := h.known hph rfl
  have hremove : ∀ {ph}, ph.holding = true →
      Except.ok (s.remove.setPhase p ph) = (.ok t : Except Blocked _) →
      Turn s t p ph ∧ t.readopen = s.readopen ∧ t.writeopen = s.writeopen := by
    intro ph hhold hstep
    obtain ⟨hturn, hcalm⟩ := turn_setPhase (s := s.remove) hlock hhold hstep
    exact ⟨⟨hturn.self, hturn.others, hturn.killed, hturn.lock⟩,
      hcalm.readopen, hcalm.writeopen⟩
  simp only [run, hph] at hstep
  split at hstep
  · split at hstep
    · obtain ⟨hturn, hread, hwrite⟩ := hremove rfl hstep
      refine h.turn hturn (Or.inr hlock) ?_ ?_ ?_ ?_ ?_ <;> grind
    · obtain ⟨hturn, hread, hwrite⟩ := hremove rfl hstep
      refine h.turn hturn (Or.inr hlock) ?_ ?_ ?_ ?_ ?_ <;> grind
  · obtain ⟨hturn, hcalm⟩ := turn_setPhase hlock rfl hstep
    refine h.turn hturn (Or.inr hlock) ?_ ?_ ?_ ?_ ?_ <;> grind

theorem Inv.run (h : Inv s) (hstep : s.run p ch copied = .ok t) : Inv t := by
  have hstep' := hstep
  cases hph : s.phase p <;> simp only [PipeState.run, hph] at hstep
  case writeLoop => exact h.writeLoop hph hstep'
  case writeBody => exact h.writeBody hph hstep'
  case readWait => exact h.readWait hph hstep'
  case readCopy => exact h.readCopy hph hstep'
  case writeEnter | writeWoken | readEnter | readWoken | closeEnter =>
    obtain ⟨hlock, hturn, hcalm⟩ := turn_acquire rfl hstep
    have hfree := h.free hlock
    refine h.turn hturn (Or.inl hlock) ?_ ?_ ?_ ?_ ?_ <;> grind
  case writeSleep | writeRelease | readSleep | readRelease =>
    obtain ⟨hlock, hknown⟩ := h.known hph rfl
    obtain ⟨hturn, hcalm⟩ := turn_release rfl hstep
    refine h.turn hturn (Or.inr hlock) ?_ ?_ ?_ ?_ ?_ <;> grind
  case writeWake | readWake =>
    obtain ⟨hlock, hknown⟩ := h.known hph rfl
    obtain ⟨hturn, hcalm, hnone⟩ := turn_wakeup hlock rfl hstep
    refine h.turn hturn (Or.inr hlock) ?_ ?_ ?_ ?_ ?_ <;> grind
  case closeSet w =>
    obtain ⟨hlock, hreaders, hwriters⟩ := h.known hph rfl
    have hring : t.nread = s.nread ∧ t.nwrite = s.nwrite ∧
        t.readopen = (s.readopen && w) ∧ t.writeopen = (s.writeopen && !w) := by
      cases hstep
      cases w <;> simp [setClosed, setPhase]
    obtain ⟨hturn, -⟩ := turn_setPhase (s := s.setClosed w)
      (by cases w <;> exact hlock) rfl hstep
    replace hturn : Turn s t p (.closeWake w) := by
      cases w <;> exact ⟨hturn.self, hturn.others, hturn.killed, hturn.lock⟩
    cases w <;> refine h.turn hturn (Or.inr hlock) ?_ ?_ ?_ ?_ ?_ <;> grind
  case closeWake w =>
    obtain ⟨hlock, hknown⟩ := h.known hph rfl
    obtain ⟨hturn, hcalm, hnone⟩ := turn_wakeup hlock rfl hstep
    cases w <;> refine h.turn hturn (Or.inr hlock) ?_ ?_ ?_ ?_ ?_ <;> grind
  case closeTest =>
    obtain ⟨hlock, hreaders, hwriters⟩ := h.known hph rfl
    have hdone : Inv (s.release p (.returned 0)) := by
      generalize hrel : s.release p (.returned 0) = t
      obtain ⟨hturn, hcalm⟩ := turn_release rfl (congrArg Except.ok hrel)
      refine h.turn hturn (Or.inr hlock) ?_ ?_ ?_ ?_ ?_ <;> grind
    split at hstep
    · cases hstep
      exact ⟨hdone.lock, hdone.ends, hdone.free, hdone.held, hdone.exposed⟩
    · cases hstep
      exact hdone
  case returned | writeAsleep | readAsleep => cases hstep

/-! ## Calls and kills -/

omit [DecidableEq P] in
/-- A step that leaves the lock alone: who has it stays where it is. -/
theorem Inv.aside (h : Inv s) (hcalm : Calm s t) (hlock : t.lock = s.lock)
    (hstay : ∀ q, (s.phase q).holding = true → t.phase q = s.phase q)
    (hhold : ∀ q, (t.phase q).holding = (s.phase q).holding)
    (hasleep : ∀ q chan, (t.phase q).asleep = some chan →
      (s.phase q).asleep = some chan)
    (hends : ∀ w, (t.isOpen w = false ∨ ∃ q, (t.phase q).closes w = true) →
      ∀ q, (t.phase q).inside w = false)
    (hkilled : ∀ q, s.Exposed q → t.killed q = false) : Inv t := by
  obtain ⟨lock, -, free, held, -⟩ := h
  have hreaders : s.ReadersOk → t.ReadersOk := by grind
  have hwriters : s.WritersOk → t.WritersOk := by grind
  have hnone : ∀ chan, s.NoAsleep chan → t.NoAsleep chan := by grind
  have hfull : t.full ↔ s.full := by grind
  obtain ⟨hnread, hnwrite, hread, hwrite⟩ := hcalm
  refine ⟨by grind, hends, ?_, ?_, ?_⟩
  · intro hnone
    obtain ⟨hr, hw⟩ := free (hlock ▸ hnone)
    exact ⟨hreaders hr, hwriters hw⟩
  · intro q hq
    have hknown := held q (hlock ▸ hq)
    rw [hstay q ((lock q).mpr (hlock ▸ hq))]
    unfold Known at *
    split at hknown <;> simp_all
  · intro q hq
    have hyes := hhold q ▸ holding_of_exposed hq
    obtain ⟨⟨r, hr⟩, hrisky⟩ := hq
    rw [hstay q hyes] at hrisky
    refine hkilled q ⟨⟨r, hasleep r _ hr⟩, ?_⟩
    unfold Risky at *
    split at hrisky <;> simp_all

/-- A process enters a call: through an end that is open and not being closed,
and to close it when nobody is in a call on it. -/
theorem Inv.enter (h : Inv s) (hstep : s.call p ph = .ok t)
    (hhold : ph.holding = false) (hasleep : ph.asleep = none)
    (hclient : ∀ w, ph.inside w = true ∨ ph.closes w = true →
      s.isOpen w = true ∧ ∀ q, (s.phase q).closes w = false ∧
        (ph.closes w = true → (s.phase q).inside w = false)) : Inv t := by
  unfold call at hstep
  split at hstep
  · rename_i hret
    cases hstep
    have hphase : ∀ q, (s.setPhase p ph).phase q =
        if q = p then ph else s.phase q := Function.update_apply _ _ _
    have hopen : ∀ w, (s.setPhase p ph).isOpen w = s.isOpen w := fun _ => rfl
    refine h.aside ⟨rfl, rfl, rfl, rfl⟩ rfl ?_ ?_ ?_ ?_ h.exposed
    · grind
    · grind
    · grind
    · intro w hclosed q
      have hnot : ph.closes w = true → ph.inside w = false := by
        cases ph <;> grind
      by_cases hp : ph.inside w = true ∨ ph.closes w = true
      · have := hclient w hp
        grind
      · have hwas : s.isOpen w = false ∨ ∃ r, (s.phase r).closes w = true :=
          hclosed.imp_right fun hr => hr.imp fun r hr => by grind
        have := h.ends w hwas q
        grind
  · cases hstep

theorem Inv.kkill (h : Inv s) (hspared : ¬ s.Exposed p) :
    Inv (s.kkill p) := by
  have hphase : ∀ q, (s.kkill p).phase q =
      if q = p then (s.phase p).wake else s.phase q := Function.update_apply _ _ _
  have hkilled : ∀ q, (s.kkill p).killed q =
      if q = p then true else s.killed q := Function.update_apply _ _ _
  have hsame : ∀ q, Woken (s.phase q) ((s.kkill p).phase q) := by
    unfold Woken
    grind
  replace hsame := fun q => (hsame q).same
  have hexp := h.exposed
  refine h.aside ⟨rfl, rfl, rfl, rfl⟩ rfl ?_ ?_ ?_ ?_ ?_
  · grind
  · grind
  · grind
  · intro w hclosed q
    have hwas : s.isOpen w = false ∨ ∃ r, (s.phase r).closes w = true :=
      hclosed.imp_right fun hr => hr.imp fun r hr => (hsame r).2.2.1 w ▸ hr
    exact (hsame q).2.1 w ▸ h.ends w hwas q
  · grind

/-- Nobody is killed at the point where a sleeping reader would be left
behind. -/
def Spared (s : PipeState P) : PipeOp P → Prop
  | .kkill p => ¬ s.Exposed p
  | _ => True

theorem Inv.step (h : Inv s) {op : PipeOp P} (hclient : s.Client op)
    (hspared : s.Spared op) (hstep : s.step op = .ok t) : Inv t := by
  cases op with
  | write p n | read p n =>
    refine h.enter hstep rfl rfl ?_
    grind [Client]
  | close p w =>
    refine h.enter hstep rfl rfl ?_
    cases w <;> grind [Client]
  | run p ch copied => exact h.run hstep
  | kkill p =>
    cases hstep
    exact h.kkill hspared

omit [DecidableEq P] in
theorem Inv.pipealloc : Inv (pipealloc : PipeState P) := by
  have hphase : ∀ q, (PipeState.pipealloc : PipeState P).phase q = .returned 0 :=
    fun _ => rfl
  have hlock : (PipeState.pipealloc : PipeState P).lock = none := rfl
  constructor <;> grind

end Steps

end PipeState

/-! ## The theorem -/

open PipeState

variable {P : Type} [DecidableEq P]

/-- **No sleeper is stranded in a run in which nobody is killed in the window
of `pipewrite`** between putting a byte in, with a reader asleep, and the next
look at `killed`. -/
theorem no_sleeper_stranded {ops : List (PipeOp P)} {s : PipeState P}
    (h : Run PipeState.step (fun s op => s.Client op ∧ s.Spared op)
      PipeState.pipealloc ops s) : s.NoneStranded := by
  have hinv : s.Inv := h.invariant (I := PipeState.Inv)
    (fun s op s' hs hguard hstep => hs.step hguard.1 hguard.2 hstep)
    PipeState.Inv.pipealloc
  exact hinv.free

instance PipeState.Risky.decidable (s : PipeState P) (ph : Phase) :
    Decidable (s.Risky ph) :=
  match ph with
  | .writeLoop _ _ => inferInstanceAs (Decidable (_ ∧ _))
  | .writeBody _ _ => inferInstanceAs (Decidable (_ ∧ _))
  | .returned _ | .writeEnter _ | .writeSleep _ _ | .writeAsleep _ _
  | .writeWoken _ _ | .writeWake _ | .writeRelease _ | .readEnter _
  | .readWait _ | .readSleep _ | .readAsleep _ | .readWoken _
  | .readCopy _ _ | .readWake _ | .readRelease _ | .closeEnter _
  | .closeSet _ | .closeWake _ | .closeTest =>
      inferInstanceAs (Decidable False)

instance PipeState.Exposed.decidable [Fintype P] (s : PipeState P) (p : P) :
    Decidable (s.Exposed p) :=
  inferInstanceAs (Decidable (_ ∧ _))

instance PipeState.Spared.decidable [Fintype P] (s : PipeState P)
    (op : PipeOp P) : Decidable (s.Spared op) :=
  match op with
  | .kkill _ => inferInstanceAs (Decidable (¬ _))
  | .run _ _ _ => inferInstanceAs (Decidable True)
  | .write _ _ => inferInstanceAs (Decidable True)
  | .read _ _ => inferInstanceAs (Decidable True)
  | .close _ _ => inferInstanceAs (Decidable True)

/-- A reader waits, a writer puts a byte in and is killed once it has woken
the reader. -/
def killedLater : List (PipeOp Bool) :=
  let reader := PipeOp.run false none true
  let writer := PipeOp.run true (some 7) true
  [.read false 1, reader, reader, reader, .write true 1, writer, writer,
    writer, writer, writer, .kkill true, writer]

theorem no_sleeper_stranded_killedLater :
    ∃ s : PipeState Bool, Run PipeState.step
        (fun s op => s.Client op ∧ s.Spared op) PipeState.pipealloc
        killedLater s ∧ s.lock = none ∧ s.nread ≠ s.nwrite ∧
      s.NoneStranded := by
  obtain ⟨s, hs, htest⟩ := exists_some_of_any
    (o := Run.checked PipeState.step (fun s op => s.Client op ∧ s.Spared op)
      PipeState.pipealloc killedLater)
    (p := fun s => decide (s.lock = none ∧ s.nread ≠ s.nwrite))
    (by decide +kernel)
  have hrun := Run.of_checked hs
  obtain ⟨hlock, hne⟩ := of_decide_eq_true htest
  exact ⟨s, hrun, hlock, hne, no_sleeper_stranded hrun⟩

/-- A reader waits; a writer has put in one of two bytes when it is killed. -/
def killedWriter : List (PipeOp Bool) :=
  let reader := PipeOp.run false none true
  let writer := PipeOp.run true (some 7) true
  [.read false 1, reader, reader, reader, .write true 2, writer, writer,
    writer, .kkill true, writer]

/-- **A reader sleeps on a pipe with a byte in it.** -/
theorem reader_stranded :
    ∃ s : PipeState Bool, Run PipeState.step PipeState.Client
        PipeState.pipealloc killedWriter s ∧ s.lock = none ∧
      (s.phase false).asleep = some .nread ∧ s.nread ≠ s.nwrite ∧
      ¬ s.NoneStranded := by
  obtain ⟨s, hs, htest⟩ := exists_some_of_any
    (o := Run.checked PipeState.step PipeState.Client PipeState.pipealloc
      killedWriter)
    (p := fun s => decide (s.lock = none ∧
      (s.phase false).asleep = some .nread ∧ s.nread ≠ s.nwrite))
    (by decide +kernel)
  obtain ⟨hlock, hasleep, hne⟩ := of_decide_eq_true htest
  refine ⟨s, Run.of_checked hs, hlock, hasleep, hne, ?_⟩
  intro hok
  exact hne ((hok hlock).1 false hasleep).1

end Xv6.Pipe
