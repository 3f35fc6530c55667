import Xv6.Framework.Locks
import Xv6.Framework.Run
import Mathlib

/-!
# Sleep-locks (`kernel/sleeplock.c`, `kernel/proc.c`)

One sleep-lock and any number of processes that acquire and release it, ask
whether they hold it and kill each other. The functions are cut at the points
where another process can act: around the critical sections of `lk->lk` and of
`p->lock`. `sleep` takes `p->lock` before it gives up `lk->lk`, and `wakeup`
looks at one process after the other.
-/

namespace Xv6.Sleeplock

open Framework

/-- Where a process is. -/
inductive Phase (P : Type)
  /-- Not in a call. -/
  | idle
  /-- `acquire(&lk->lk)`, on entry or after a sleep. -/
  | acquire
  /-- `while (lk->locked)`. -/
  | test
  /-- In `sleep`: `acquire(&p->lock)`. -/
  | sleepLock
  /-- `release(lk)`. -/
  | sleepRelease
  /-- `p->chan = chan; p->state = SLEEPING;` -/
  | sleepMark
  /-- `SLEEPING`, and the scheduler has not released `p->lock` yet. -/
  | sched
  | asleep
  /-- `RUNNABLE` again. -/
  | woken
  /-- Scheduled, with `p->lock`. -/
  | resumed
  /-- The sleep-lock is taken: `release(&lk->lk)`. -/
  | take
  /-- `releasesleep`: `acquire(&lk->lk)`. -/
  | releaseEnter
  /-- `lk->locked = 0; lk->pid = 0;` -/
  | clear
  /-- In `wakeup`, with the processes that it has not looked at yet. -/
  | wake (rest : List P)
  | releaseExit
  /-- `holdingsleep`: `acquire(&lk->lk)`. -/
  | holdEnter
  | holdTest
  /-- About to return the answer. -/
  | holdExit (r : Bool)
deriving DecidableEq

namespace Phase

variable {P : Type}

/-- The process has `lk->lk`. -/
@[grind] def holding : Phase P → Bool
  | .test | .sleepLock | .sleepRelease | .take | .clear | .wake _
  | .releaseExit | .holdTest | .holdExit _ => true
  | _ => false

/-- `p->lock` is held for the process itself. -/
@[grind] def plocked : Phase P → Bool
  | .sleepRelease | .sleepMark | .sched | .resumed => true
  | _ => false

/-- The process is `SLEEPING` on the sleep-lock. -/
@[grind] def sleeping : Phase P → Bool
  | .sched | .asleep => true
  | _ => false

/-- The process has left `lk->lk` to go to sleep and nobody woke it. -/
@[grind] def sleepy : Phase P → Bool
  | .sleepMark | .sched | .asleep => true
  | _ => false

/-- The process has seen `lk->locked` set and still has `lk->lk`. -/
@[grind] def tested : Phase P → Bool
  | .sleepLock | .sleepRelease => true
  | _ => false

/-- Inside a call, `lk->locked` is set for the process. -/
@[grind] def owning : Phase P → Bool
  | .take | .releaseEnter | .clear => true
  | _ => false

/-- A step to `ph` that concerns neither the holder nor the answer nor
`wakeup`. -/
@[grind] def quiet (old ph : Phase P) : Bool :=
  (ph.owning == old.owning) && (!ph.tested || old.tested) &&
    (!ph.sleepy || old.sleepy || old.tested) &&
    (match ph with | .holdExit _ => false | _ => true) &&
    (match old with | .wake _ => false | _ => true)

/-- `if(p->state == SLEEPING) p->state = RUNNABLE;` -/
@[grind] def wakeUp : Phase P → Phase P
  | .asleep => .woken
  | ph => ph

end Phase

structure State (P : Type) where
  /-- Who has `lk->lk`. -/
  lk : Option P
  locked : Bool
  pid : ℕ
  phase : P → Phase P
  /-- The process is between a completed `acquiresleep` and its
  `releasesleep`. -/
  has : P → Bool

inductive Blocked
  | lockHeld
  | asleep
  | inCall
  | notInCall
deriving DecidableEq

inductive Op (P : Type)
  | acquiresleep (p : P)
  | releasesleep (p : P)
  | holdingsleep (p : P)
  /-- The next step of `p` in its call. -/
  | run (p : P)
  | kkill (p : P)

namespace State

variable {P : Type} [DecidableEq P] (pid : P → ℕ) (procs : List P)

/-- `initsleeplock`. -/
def initsleeplock : State P where
  lk := none
  locked := false
  pid := 0
  phase := fun _ => .idle
  has := fun _ => false

def setPhase (s : State P) (p : P) (ph : Phase P) : State P :=
  { s with phase := Function.update s.phase p ph }

def acquire (s : State P) (p : P) (ph : Phase P) : Except Blocked (State P) :=
  if s.lk = none then .ok { s.setPhase p ph with lk := some p }
  else .error .lockHeld

def release (s : State P) (p : P) (ph : Phase P) : State P :=
  { s.setPhase p ph with lk := none }

/-- The next step of `p`. -/
def run (s : State P) (p : P) : Except Blocked (State P) :=
  match s.phase p with
  | .idle => .error .notInCall
  -- acquiresleep
  | .acquire => s.acquire p .test
  | .test =>
      if s.locked then .ok (s.setPhase p .sleepLock)
      else .ok { s.setPhase p .take with locked := true, pid := pid p }
  | .sleepLock => .ok (s.setPhase p .sleepRelease)
  | .sleepRelease => .ok (s.release p .sleepMark)
  | .sleepMark => .ok (s.setPhase p .sched)
  | .sched => .ok (s.setPhase p .asleep)
  | .asleep => .error .asleep
  | .woken => .ok (s.setPhase p .resumed)
  | .resumed => .ok (s.setPhase p .acquire)
  | .take =>
      .ok { s.release p .idle with has := Function.update s.has p true }
  -- releasesleep
  | .releaseEnter => s.acquire p .clear
  | .clear => .ok { s.setPhase p (.wake procs) with locked := false, pid := 0 }
  | .wake [] => .ok (s.setPhase p .releaseExit)
  | .wake (q :: rest) =>
      if q = p then .ok (s.setPhase p (.wake rest))
      else if (s.phase q).plocked then .error .lockHeld
      else .ok ((s.setPhase q (s.phase q).wakeUp).setPhase p (.wake rest))
  | .releaseExit => .ok (s.release p .idle)
  -- holdingsleep
  | .holdEnter => s.acquire p .holdTest
  | .holdTest => .ok (s.setPhase p (.holdExit (s.locked && s.pid == pid p)))
  | .holdExit _ => .ok (s.release p .idle)

/-- `p` enters a call. -/
def call (s : State P) (p : P) (ph : Phase P) : Except Blocked (State P) :=
  if s.phase p = .idle then .ok (s.setPhase p ph) else .error .inCall

/-- `kkill` of a process. -/
def kkill (s : State P) (p : P) : Except Blocked (State P) :=
  if (s.phase p).plocked then .error .lockHeld
  else .ok (s.setPhase p (s.phase p).wakeUp)

def step (s : State P) : Op P → Except Blocked (State P)
  | .acquiresleep p => s.call p .acquire
  | .releasesleep p => do
      let s ← s.call p .releaseEnter
      .ok { s with has := Function.update s.has p false }
  | .holdingsleep p => s.call p .holdEnter
  | .run p => s.run pid procs p
  | .kkill p => s.kkill p

/-- Only its holder releases the lock. -/
def Client (s : State P) : Op P → Prop
  | .releasesleep p => s.has p = true
  | _ => True

instance Client.decidable (s : State P) (op : Op P) : Decidable (s.Client op) :=
  match op with
  | .releasesleep _ => inferInstanceAs (Decidable (_ = _))
  | .acquiresleep _ => inferInstanceAs (Decidable True)
  | .holdingsleep _ => inferInstanceAs (Decidable True)
  | .run _ => inferInstanceAs (Decidable True)
  | .kkill _ => inferInstanceAs (Decidable True)

end State

/-! ## The invariant -/

namespace State

variable {P : Type}

/-- `lk->locked` is set for `p`. -/
@[grind] def Owner (s : State P) (p : P) : Prop :=
  s.has p = true ∨ (s.phase p).owning = true

/-- A process that is going to look at `p` in its `wakeup`. -/
@[grind] def Waker (s : State P) (p : P) : Prop :=
  ∃ q rest, s.phase q = .wake rest ∧ p ∈ rest

structure Inv (pid : P → ℕ) (s : State P) : Prop where
  lk : ∀ p, s.lk = some p ↔ (s.phase p).holding = true
  one : ∀ p q, s.Owner p → s.Owner q → p = q
  locked : s.locked = true ↔ ∃ p, s.Owner p
  pid : ∀ p, s.Owner p → s.pid = pid p
  has : ∀ p, s.has p = true → (s.phase p).owning = false
  tested : ∀ p, (s.phase p).tested = true → s.locked = true
  sleepy : ∀ p, (s.phase p).sleepy = true → s.locked = true ∨ s.Waker p
  answer : ∀ p r, s.phase p = .holdExit r → r = s.has p

variable {pid : P → ℕ} {s s' : State P} {p q : P} {ph : Phase P}

theorem inv_initsleeplock : Inv pid (initsleeplock : State P) := by
  constructor <;> simp [initsleeplock, Owner, Phase.holding, Phase.owning,
    Phase.tested, Phase.sleepy]

/-- Nobody sleeps while the lock is free: a sleeper has a process that is going
to wake it, and that process has `lk->lk`. -/
theorem Inv.not_sleeping (h : Inv pid s) (hlk : s.lk = none)
    (hlocked : s.locked = false) (p : P) : (s.phase p).sleeping = false := by
  have hfree := h.lk
  have hsleepy := h.sleepy p
  cases hph : s.phase p <;> grind

/-- `holdingsleep` finds out whether its caller is the holder. -/
theorem Inv.answer_eq (hinj : Function.Injective pid) (h : Inv pid s)
    (hph : s.phase p = .holdTest) :
    (s.locked && s.pid == pid p) = s.has p := by
  obtain ⟨-, -, locked, hpid, -⟩ := h
  have hsame : ∀ q, pid q = pid p → q = p := fun q hq => hinj hq
  grind

variable [DecidableEq P] {t : State P}

/-- `t` is `s` but for where `p` is, whether it is a holder, and the locks. -/
structure Change (s t : State P) (p : P) (ph : Phase P) : Prop where
  phase : ∀ q, t.phase q = if q = p then ph else s.phase q
  has : ∀ q, q ≠ p → t.has q = s.has q

theorem change_setPhase (s : State P) (p : P) (ph : Phase P) :
    Change s (s.setPhase p ph) p ph :=
  ⟨fun _ => Function.update_apply .., fun _ _ => rfl⟩

/-- **A process goes on, and the invariant is kept**: nobody becomes a holder
or stops being one, and who has to be woken still is going to be. -/
theorem Inv.move (h : Inv pid s) (hc : Change s t p ph)
    (hlocked : t.locked = s.locked) (hpid : t.pid = s.pid)
    (howner : t.Owner p ↔ s.Owner p)
    (hexcl : t.has p = true → ph.owning = false)
    (htested : ph.tested = true → s.locked = true)
    (hsleepy : ph.sleepy = true → s.locked = true ∨ (s.phase p).sleepy = true)
    (hanswer : ∀ r, ph = .holdExit r → r = t.has p)
    (hwake : ∀ rest q, s.phase p = .wake rest → q ∈ rest →
      (s.phase q).sleepy = true → ∃ rest', ph = .wake rest' ∧ q ∈ rest')
    (hlk : ∀ q, t.lk = some q ↔ (t.phase q).holding = true) : Inv pid t := by
  obtain ⟨-, one, locked, hpids, has, tested, sleepy, answer⟩ := h
  obtain ⟨hphase, hhas⟩ := hc
  have howner' : ∀ q, t.Owner q ↔ s.Owner q := by grind
  have hwaker : ∀ q, (s.phase q).sleepy = true → s.Waker q → t.Waker q := by grind
  exact ⟨hlk, by grind, by grind, by grind, by grind, by grind, by grind, by grind⟩

/-- A step that concerns neither the holder nor the answer nor `wakeup`. -/
theorem Inv.quiet (h : Inv pid s) (hquiet : (s.phase p).quiet ph = true)
    (hc : Change s t p ph) (hlocked : t.locked = s.locked)
    (hpid : t.pid = s.pid) (hhas : ∀ q, t.has q = s.has q)
    (hlk : ∀ q, t.lk = some q ↔ (t.phase q).holding = true) : Inv pid t := by
  simp only [Phase.quiet, Bool.and_eq_true, Bool.or_eq_true, beq_iff_eq,
    Bool.not_eq_true'] at hquiet
  obtain ⟨⟨⟨⟨howning, htested⟩, hsleepy⟩, hanswer⟩, hwake⟩ := hquiet
  have hself := hc.phase p
  have hexcl := h.has p
  have hseen := h.tested p
  exact h.move hc hlocked hpid (by grind) (by grind) (by grind) (by grind)
    (by grind) (by grind) hlk

theorem Inv.setPhase (h : Inv pid s) (hquiet : (s.phase p).quiet ph = true)
    (hold : ph.holding = (s.phase p).holding) : Inv pid (s.setPhase p ph) :=
  h.quiet hquiet (change_setPhase s p ph) rfl rfl (fun _ => rfl) (held_update h.lk hold)

theorem Inv.acquire (h : Inv pid s) (hquiet : (s.phase p).quiet ph = true)
    (hold : ph.holding = true) (hs : s.acquire p ph = .ok s') :
    Inv pid s' := by
  unfold State.acquire at hs
  split at hs
  · rename_i hfree
    cases hs
    have hc := change_setPhase s p ph
    exact h.quiet hquiet ⟨hc.phase, hc.has⟩ rfl rfl (fun _ => rfl)
      (held_acquire h.lk hfree hold)
  · cases hs

theorem Inv.release (h : Inv pid s) (hquiet : (s.phase p).quiet ph = true)
    (hold : (s.phase p).holding = true) (hfree : ph.holding = false) :
    Inv pid (s.release p ph) :=
  have hc := change_setPhase s p ph
  h.quiet hquiet ⟨hc.phase, hc.has⟩ rfl rfl (fun _ => rfl)
    (held_release h.lk hold hfree)

/-! ## Every step keeps it -/

/-- The sleep-lock is taken. -/
theorem Inv.takeLock (h : Inv pid s) (hfree : s.locked = false)
    (hc : Change s t p .take) (hlocked : t.locked = true)
    (hpid : t.pid = pid p) (hhas : ∀ q, t.has q = s.has q)
    (hlk : ∀ q, t.lk = some q ↔ (t.phase q).holding = true) : Inv pid t := by
  obtain ⟨-, -, locked, -, -, -, -, answer⟩ := h
  have hphase := hc.phase
  have hnone : ∀ q, s.has q = false ∧ (s.phase q).owning = false := by
    intro q
    have hq : ¬ s.Owner q := by grind
    grind
  have howner : ∀ q, t.Owner q ↔ q = p := by grind
  exact ⟨hlk, by grind, iff_of_true hlocked ⟨p, (howner p).mpr rfl⟩, by grind,
    by grind, by grind, by grind, by grind⟩

/-- The sleep-lock is given up, and everybody is going to be looked at. -/
theorem Inv.clearLock {procs : List P} (h : Inv pid s)
    (hall : ∀ q, q ∈ procs) (hph : s.phase p = .clear)
    (hc : Change s t p (.wake procs)) (hlocked : t.locked = false)
    (hhas : ∀ q, t.has q = s.has q)
    (hlk : ∀ q, t.lk = some q ↔ (t.phase q).holding = true) : Inv pid t := by
  obtain ⟨lk, one, -, -, has, -, -, answer⟩ := h
  have hphase := hc.phase
  -- whoever has seen the lock taken has `lk->lk`
  have htested : ∀ q, (s.phase q).tested = true → q = p := by
    intro q hq
    cases hphq : s.phase q <;> grind
  have howner : ∀ q, ¬ t.Owner q := by
    intro q
    have hq := one q p
    grind
  exact ⟨hlk, by grind, by grind, by grind, by grind, by grind, by grind, by grind⟩

/-- A process that is not about to sleep is woken, if it sleeps. -/
theorem Inv.wakeUp (h : Inv pid s) (q : P)
    (hfree : (s.phase q).plocked = false) :
    Inv pid (s.setPhase q (s.phase q).wakeUp) ∧
      ((s.setPhase q (s.phase q).wakeUp).phase q).sleepy = false := by
  rw [show (s.setPhase q (s.phase q).wakeUp).phase q = (s.phase q).wakeUp from
    Function.update_self ..]
  by_cases hph : s.phase q = .asleep
  · rw [hph]
    exact ⟨h.setPhase (by rw [hph]; rfl) (by rw [hph]; rfl), rfl⟩
  · have hsame : (s.phase q).wakeUp = s.phase q := by grind
    rw [hsame, State.setPhase, Function.update_eq_self]
    exact ⟨h, by cases hq : s.phase q <;> grind⟩

/-- `wakeup` goes on to the next process. -/
theorem Inv.wakeNext {rest : List P} (h : Inv pid s)
    (hph : s.phase p = .wake (q :: rest))
    (hq : (s.phase q).sleepy = false) : Inv pid (s.setPhase p (.wake rest)) := by
  have hc := change_setPhase s p (.wake rest)
  have hself := hc.phase p
  have hhas : (s.setPhase p (.wake rest)).has p = s.has p := rfl
  exact h.move hc rfl rfl (by grind) (by grind) (by grind) (by grind)
    (by grind) (by grind) (held_update h.lk (by rw [hph]; rfl))

/-- A process with `lk->lk` reads the sleep-lock, or leaves `wakeup`. -/
theorem Inv.goOn (h : Inv pid s) (howning : (s.phase p).owning = false)
    (hold : (s.phase p).holding = true)
    (hwake : ∀ rest, s.phase p = .wake rest → rest = [])
    (hph : ph = .sleepLock ∧ s.locked = true ∨ ph = .holdExit (s.has p) ∨
      ph = .releaseExit) : Inv pid (s.setPhase p ph) := by
  have hc := change_setPhase s p ph
  have hself := hc.phase p
  have hhas : (s.setPhase p ph).has p = s.has p := rfl
  exact h.move hc rfl rfl (by grind) (by grind) (by grind) (by grind)
    (by grind) (by grind) (held_update h.lk (by grind))

/-- The last step of `acquiresleep`: from here on `p` is the holder. -/
theorem Inv.acquired (h : Inv pid s) (hph : s.phase p = .take)
    (hc : Change s t p .idle) (hlocked : t.locked = s.locked)
    (hpid : t.pid = s.pid) (hhas : t.has p = true)
    (hlk : ∀ q, t.lk = some q ↔ (t.phase q).holding = true) : Inv pid t := by
  have hself := hc.phase p
  exact h.move hc hlocked hpid (by grind) (by grind) (by grind) (by grind)
    (by grind) (by grind) hlk

/-- The holder enters `releasesleep`. -/
theorem Inv.releasing (h : Inv pid s) (hph : s.phase p = .idle)
    (hbefore : s.has p = true) (hc : Change s t p .releaseEnter)
    (hlocked : t.locked = s.locked) (hpid : t.pid = s.pid)
    (hhas : t.has p = false)
    (hlk : ∀ q, t.lk = some q ↔ (t.phase q).holding = true) : Inv pid t := by
  have hself := hc.phase p
  exact h.move hc hlocked hpid (by grind) (by grind) (by grind) (by grind)
    (by grind) (by grind) hlk

variable {procs : List P}

/-- **The next step of a process keeps the invariant.** -/
theorem Inv.run (hinj : Function.Injective pid) (hall : ∀ q, q ∈ procs)
    (h : Inv pid s) (hs : s.run pid procs p = .ok s') : Inv pid s' := by
  cases hph : s.phase p with rw [State.run, hph] at hs
  | idle | asleep => cases hs
  | acquire | releaseEnter | holdEnter =>
    exact h.acquire (by rw [hph]; rfl) rfl hs
  | test =>
    dsimp only at hs
    split at hs
    · rename_i hlocked
      cases hs
      exact h.goOn (by rw [hph]; rfl) (by rw [hph]; rfl) (by simp [hph])
        (Or.inl ⟨rfl, hlocked⟩)
    · rename_i hfree
      cases hs
      have hc := change_setPhase s p .take
      exact h.takeLock (Bool.not_eq_true _ ▸ hfree) ⟨hc.phase, hc.has⟩ rfl
        rfl (fun _ => rfl) (held_update h.lk (by rw [hph]; rfl))
  | sleepLock | sleepMark | sched | woken | resumed =>
    cases hs
    exact h.setPhase (by rw [hph]; rfl) (by rw [hph]; rfl)
  | sleepRelease | releaseExit | holdExit =>
    cases hs
    exact h.release (by rw [hph]; rfl) (by rw [hph]; rfl) rfl
  | take =>
    cases hs
    have hc := change_setPhase s p .idle
    exact h.acquired hph ⟨hc.phase, fun _ hq => Function.update_of_ne hq ..⟩ rfl
      rfl (Function.update_self ..) (held_release h.lk (by rw [hph]; rfl) rfl)
  | clear =>
    cases hs
    have hc := change_setPhase s p (.wake procs)
    exact h.clearLock hall hph ⟨hc.phase, hc.has⟩ rfl (fun _ => rfl)
      (held_update h.lk (by rw [hph]; rfl))
  | holdTest =>
    cases hs
    rw [h.answer_eq hinj hph]
    exact h.goOn (by rw [hph]; rfl) (by rw [hph]; rfl) (by simp [hph]) (by simp)
  | wake rest =>
    cases rest with
    | nil =>
      cases hs
      exact h.goOn (by rw [hph]; rfl) (by rw [hph]; rfl) (by simp [hph]) (by simp)
    | cons q rest =>
      dsimp only at hs
      split at hs
      · rename_i hqp
        cases hs
        exact h.wakeNext hph (by rw [hqp, hph]; rfl)
      · rename_i hqp
        split at hs
        · cases hs
        · rename_i hfree
          cases hs
          obtain ⟨hwoken, hq⟩ := h.wakeUp q (Bool.not_eq_true _ ▸ hfree)
          refine hwoken.wakeNext ?_ hq
          exact (Function.update_of_ne (Ne.symm hqp) ..).trans hph

theorem Inv.call (h : Inv pid s) (hfree : ph.holding = false)
    (hquiet : Phase.idle.quiet ph = true) (hs : s.call p ph = .ok s') :
    Inv pid s' := by
  unfold State.call at hs
  split at hs
  · rename_i hph
    cases hs
    exact h.setPhase (by rwa [hph]) (by rw [hph, hfree]; rfl)
  · cases hs

/-- **Every step keeps the invariant.** -/
theorem Inv.step (hinj : Function.Injective pid) (hall : ∀ q, q ∈ procs)
    (h : Inv pid s) (op : Op P) (hclient : s.Client op)
    (hs : s.step pid procs op = .ok s') : Inv pid s' := by
  cases op with
  | acquiresleep p => exact h.call rfl rfl hs
  | holdingsleep p => exact h.call rfl rfl hs
  | run p => exact h.run hinj hall hs
  | releasesleep p =>
    obtain ⟨t, hcall, ht⟩ := bind_ok_iff.mp hs
    unfold State.call at hcall
    split at hcall
    · rename_i hph
      cases hcall
      cases ht
      have hc := change_setPhase s p .releaseEnter
      exact h.releasing hph hclient
        ⟨hc.phase, fun _ hq => Function.update_of_ne hq ..⟩ rfl rfl
        (Function.update_self ..) (held_update h.lk (by rw [hph]; rfl))
    · cases hcall
  | kkill p =>
    change s.kkill p = .ok s' at hs
    unfold State.kkill at hs
    split at hs
    · cases hs
    · rename_i hfree
      cases hs
      exact (h.wakeUp p (Bool.not_eq_true _ ▸ hfree)).1

/-- **Sleep-locks exclude and never strand a waiter.** Whatever the processes
do on a sleep-lock that only its holder releases: there is at most one holder,
`lk->pid` is its pid, `holdingsleep` answers whether its caller is the holder,
and when `lk->lk` is free and the lock is not taken nobody sleeps on it. -/
theorem sleeplock_sound (hinj : Function.Injective pid)
    (hall : ∀ q, q ∈ procs) {ops : List (Op P)}
    (run : Run (step pid procs) Client initsleeplock ops s) :
    (∀ p q, s.has p = true → s.has q = true → p = q) ∧
    (∀ p, s.has p = true → s.locked = true ∧ s.pid = pid p) ∧
    (∀ p r, s.phase p = .holdExit r → r = s.has p) ∧
    (s.lk = none → s.locked = false → ∀ p, (s.phase p).sleeping = false) := by
  have h : Inv pid s := run.invariant
    (fun _ op _ h hclient hstep => h.step hinj hall op hclient hstep)
    inv_initsleeplock
  refine ⟨?_, ?_, h.answer, h.not_sleeping⟩
  · intro p q hp hq
    exact h.one p q (Or.inl hp) (Or.inl hq)
  · intro p hp
    exact ⟨h.locked.mpr ⟨p, Or.inl hp⟩, h.pid p (Or.inl hp)⟩

/-- The second process goes to sleep on the lock of the first and gets it when
it is released. -/
def handover : List (Op Bool) :=
  [.acquiresleep false] ++ List.replicate 3 (.run false) ++
  [.acquiresleep true] ++ List.replicate 6 (.run true) ++
  [.releasesleep false] ++ List.replicate 6 (.run false) ++
  List.replicate 5 (.run true)

theorem sleeplock_sound_handover :
    ∃ s, Run (step (fun p : Bool => p.toNat + 1) [false, true]) Client
        initsleeplock handover s ∧
      s.has true = true ∧ s.has false = false ∧ s.locked = true ∧
      s.pid = 2 := by
  obtain ⟨s, hs, hhas⟩ := exists_some_of_any (o := Run.checked
      (step (fun p : Bool => p.toNat + 1) [false, true]) Client initsleeplock
      handover)
    (p := fun s => s.has true) (by decide +kernel)
  have run := Run.of_checked hs
  have hinj : Function.Injective fun p : Bool => p.toNat + 1 := by decide
  obtain ⟨hone, hpid, -, -⟩ := sleeplock_sound hinj (by decide) run
  refine ⟨s, run, hhas, ?_, (hpid true hhas).1, (hpid true hhas).2⟩
  rw [← Bool.not_eq_true]
  intro hfirst
  exact absurd (hone false true hfirst hhas) (by decide)

end State

end Xv6.Sleeplock
