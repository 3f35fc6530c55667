import Xv6.Proc.WaitSteps

/-!
# Exit and wait never lose or duplicate a child

Every step of every process keeps the invariant, whatever the interleaving.
So a parent that is about to sleep in `kwait` cannot miss the exit of a child:
the child dies under `wait_lock`, after a `wakeup` that has passed the parent,
and the parent had looked at all its children under the same lock.
-/

namespace Xv6.Proc

/-- The calls. -/
inductive Call
  | kfork
  | kexit
  | kwait
  | kkill

/-- The call that a process is in. -/
def WaitPoint.call {P : Type} : WaitPoint P → Option Call
  | .returned _ | .gone => none
  | .forkScan _ | .forkLook _ _ | .forkCopy _ | .forkLink _ | .forkParent _
  | .forkReady _ | .forkRunnable _ => some .kfork
  | .exitEnter _ | .reparent _ _ | .wake _ _ _ | .wakeLook _ _ _ _
  | .exitLock _ | .exitZombie _ => some .kexit
  | .waitEnter _ | .waitScan _ _ _ | .waitLook _ _ _ | .waitKilled _
  | .waitTest _ | .waitFail | .waitSleep _ | .waitOwn _ | .waitFall _
  | .waitAgain _ => some .kwait
  | .killScan _ _ | .killLook _ _ _ => some .kkill

namespace WaitSystem

open Framework

variable {P : Type} [DecidableEq P] {s s' : WaitSystem P} {p q : P}

/-! ## Moves that change no entry -/

/-- `p` may go from `old` to `pt` as far as the table is concerned. -/
structure Onward (s : WaitSystem P) (p : P) (old pt : WaitPoint P) :
    Prop where
  knows : s.Knows p old → s.Knows p pt
  forks : ∀ q, pt.forks = some q → old.forks = some q
  unlinked : ∀ q, old.unlinked = some q → pt.unlinked = some q
  fall : ∀ addr, pt ≠ .waitFall addr
  wake : ∀ r, old.WillWake r → pt.WillWake r ∨ ¬ s.Sleeper r

namespace Inv

variable {old pt : WaitPoint P}

theorem onward (h : Inv s) (hon : s.turn p = .on) (hpt : s.point p = old)
    (ho : Onward s p old pt) (hsame : Same s s')
    (hpoint : s'.point = Function.update s.point p pt)
    (hlock : Matched s'.lock (Function.update s.held p (pt.held p)))
    (hwait : ∀ r, s'.waitLock = some r ↔ (s'.point r).holdsWait = true) :
    Inv s' := by
  subst hpt
  refine h.move hon hsame hpoint hlock hwait (ho.knows (h.knows p)) ho.forks
    ho.unlinked (fun addr hfall => absurd hfall (ho.fall addr)) ?_
  intro r hr
  refine (ho.wake r hr).imp id ?_
  rintro hno ⟨addr, hr⟩
  rw [hpoint, hsame.state, Function.update_apply] at hr
  split at hr
  · rename_i hrp
    rcases hr with hr | ⟨-, hr⟩
    · exact ho.fall addr hr
    · rw [hrp, h.state_on hon] at hr
      cases hr
  · exact hno ⟨addr, hr⟩

theorem goto (h : Inv s) (hon : s.turn p = .on) (hpt : s.point p = old)
    (ho : Onward s p old pt) (hheld : pt.held p = old.held p)
    (hwait : pt.holdsWait = old.holdsWait) : Inv (s.setPoint p pt) := by
  refine h.onward hon hpt ho ⟨rfl, rfl, rfl, rfl, rfl, rfl, rfl, rfl, rfl⟩ rfl
    ?_ ?_
  · exact h.lock_keep hon (by rw [hpt, hheld])
  · exact h.wait_same rfl rfl (by rw [hpt, hwait])

theorem acquire (h : Inv s) (hrun : s.acquire p q pt = .ok s')
    (hon : s.turn p = .on) (hpt : s.point p = old) (ho : Onward s p old pt)
    (hnone : old.held p = none) (hheld : pt.held p = some q)
    (hwait : pt.holdsWait = old.holdsWait) : Inv s' := by
  rw [WaitSystem.acquire] at hrun
  split at hrun
  case isFalse => cases hrun
  case isTrue hfree =>
    cases hrun
    refine h.onward hon hpt ho ⟨rfl, rfl, rfl, rfl, rfl, rfl, rfl, rfl, rfl⟩
      rfl ?_ ?_
    · exact h.lock_acquire hon hfree (by rw [hpt, hnone]) hheld
    · exact h.wait_same rfl rfl (by rw [hpt, hwait])

theorem release (h : Inv s) (hon : s.turn p = .on) (hpt : s.point p = old)
    (ho : Onward s p old pt) (hheld : old.held p = some q)
    (hnone : pt.held p = none) (hwait : pt.holdsWait = old.holdsWait) :
    Inv (s.release p q pt) := by
  refine h.onward hon hpt ho ⟨rfl, rfl, rfl, rfl, rfl, rfl, rfl, rfl, rfl⟩ rfl
    ?_ ?_
  · exact h.lock_release hon (by rw [hpt, hheld]) hnone
  · exact h.wait_same rfl rfl (by rw [hpt, hwait])

theorem acquireWait (h : Inv s) (hrun : s.acquireWait p pt = .ok s')
    (hon : s.turn p = .on) (hpt : s.point p = old) (ho : Onward s p old pt)
    (hheld : pt.held p = old.held p) (hwait : pt.holdsWait = true) :
    Inv s' := by
  rw [WaitSystem.acquireWait] at hrun
  split at hrun
  case isFalse => cases hrun
  case isTrue hfree =>
    cases hrun
    refine h.onward hon hpt ho ⟨rfl, rfl, rfl, rfl, rfl, rfl, rfl, rfl, rfl⟩
      rfl ?_ ?_
    · exact h.lock_keep hon (by rw [hpt, hheld])
    · exact h.wait_acquire hfree rfl rfl hwait

/-- `release(&wait_lock)` and `return -1`. -/
theorem waitFail (h : Inv s) (hon : s.turn p = .on)
    (hpt : s.point p = .waitFail) :
    Inv (s.releaseWait p (.returned (-1))) := by
  have ho : Onward s p .waitFail (.returned (-1)) :=
    ⟨fun _ => trivial, nofun, nofun, nofun, nofun⟩
  refine h.onward hon hpt ho ⟨rfl, rfl, rfl, rfl, rfl, rfl, rfl, rfl, rfl⟩ rfl
    ?_ ?_
  · exact h.lock_keep hon (by rw [hpt]; rfl)
  · exact h.wait_release (by rw [hpt]; rfl) rfl rfl rfl

/-- `sleep` releases `wait_lock`, with the process's own lock held. -/
theorem waitOwn {addr : UInt64} (h : Inv s) (hon : s.turn p = .on)
    (hpt : s.point p = .waitOwn addr) :
    Inv (s.releaseWait p (.waitFall addr)) := by
  have hk := h.knows p
  rw [hpt] at hk
  refine h.move hon ⟨rfl, rfl, rfl, rfl, rfl, rfl, rfl, rfl, rfl⟩ rfl ?_ ?_
    trivial nofun ?_ ?_ ?_
  · exact h.lock_keep hon (by rw [hpt]; rfl)
  · exact h.wait_release (by rw [hpt]; rfl) rfl rfl rfl
  · rw [hpt]
    exact nofun
  · rw [hpt]
    exact fun _ _ => ⟨rfl, hk⟩
  · rw [hpt]
    exact nofun

/-! ## Visits that may wake a sleeper -/

@[simp] theorem point_wakeup (s : WaitSystem P) (chan : Option P) (q : P) :
    (s.wakeup chan q).point = s.point := by
  rw [WaitSystem.wakeup]
  split <;> rfl

@[simp] theorem turn_wakeup (s : WaitSystem P) (chan : Option P) (q : P) :
    (s.wakeup chan q).turn = s.turn := by
  rw [WaitSystem.wakeup]
  split <;> rfl

@[simp] theorem point_kill (s : WaitSystem P) (q : P) :
    (s.kill q).point = s.point := by
  rw [WaitSystem.kill]
  split <;> rfl

@[simp] theorem turn_kill (s : WaitSystem P) (q : P) :
    (s.kill q).turn = s.turn := by
  rw [WaitSystem.kill]
  split <;> rfl

/-- The invariant does not look at `p->killed`. -/
theorem killed (h : Inv s) (f : P → Bool) : Inv { s with killed := f } :=
  ⟨h.locks, h.wait, h.running, h.busy, h.inert, fun r => by
    refine (h.knows r).frame rfl (fun _ => ⟨rfl, fun _ => id, fun _ => id⟩)
      fun _ _ => ⟨rfl, rfl⟩, h.forkers, h.live, h.linked, h.unused, h.irrefl,
    h.chans, h.sleepers, h.init, h.ledger⟩

theorem wakeup (h : Inv s) (chan : Option P) (q : P) :
    Inv (s.wakeup chan q) := by
  rw [WaitSystem.wakeup]
  split
  case isTrue hq => exact h.wake hq.1
  case isFalse => exact h

theorem kill (h : Inv s) (q : P) : Inv (s.kill q) := by
  rw [WaitSystem.kill]
  split
  case isTrue hq => exact (h.killed _).wake hq
  case isFalse => exact h.killed _

/-- After its visit, the parent does not sleep. -/
theorem not_sleeper_wakeup (h : Inv s) (hlock : s.lock q = some p)
    (hne : q ≠ p) : ¬ (s.wakeup (some q) q).Sleeper q := by
  rintro ⟨addr, hpt⟩
  rw [point_wakeup] at hpt
  rcases hpt with hpt | ⟨hpt, hs⟩
  · -- about to sleep it would hold its own lock
    have hon := h.busy q (Or.inl (by rw [hpt]; exact nofun))
    have hheld : s.held q = some q := by
      rw [held_on hon, hpt]
      rfl
    rw [← h.locks, hlock] at hheld
    exact hne (Option.some.inj hheld).symm
  · -- asleep it would have been woken
    rw [WaitSystem.wakeup] at hs
    split at hs
    · exact absurd hs (by simp [setState])
    · rename_i hno
      exact hno ⟨hs, h.chans q addr hpt hs⟩

/-- The body of the loop of `wakeup`, with the release of the lock. -/
theorem visit {chan : Option P} {rest : List P} {k : After P} (h : Inv s)
    (hon : s.turn p = .on) (hpt : s.point p = .wakeLook chan q rest k) :
    Inv ((s.wakeup chan q).release p q (.wake chan rest k)) := by
  have hlock : s.lock q = some p := by
    rw [h.locks, held_on hon, hpt]
    rfl
  have hawake : chan = some q → ¬ (s.wakeup chan q).Sleeper q := by
    rintro rfl
    by_cases hne : q = p
    · rintro ⟨addr, hs⟩
      rw [point_wakeup, hne, hpt] at hs
      rcases hs with hs | ⟨hs, -⟩ <;> cases hs
    · exact h.not_sleeper_wakeup hlock hne
  have hrest : ∀ r, chan = some r → r = q ∨ r ∈ rest →
      r ∈ rest ∨ ¬ (s.wakeup chan q).Sleeper r := by
    rintro r hchan (rfl | hr)
    · exact Or.inr (hawake hchan)
    · exact Or.inl hr
  have hpt' : (s.wakeup chan q).point p = .wakeLook chan q rest k := by
    rw [point_wakeup, hpt]
  refine (h.wakeup chan q).release (by rw [turn_wakeup, hon]) hpt'
    ⟨?_, nofun, nofun, nofun, ?_⟩ rfl rfl rfl
  · cases k with
    | reparent => exact id
    | exit =>
      rintro ⟨hne, hless, hchan, hsleep⟩
      refine ⟨hne, hless, hchan, fun r hr hs => ?_⟩
      exact (hrest r hr (hsleep r hr hs)).resolve_right fun hno => hno hs
  · exact fun r hr => (hrest r hr.1 hr.2).imp (fun hm => ⟨hr.1, hm⟩) id

/-! ## Every step of a call -/

section Run

variable {table : List P} {ok : Bool}

/-- A step of `kfork`. -/
theorem run_fork (h : Inv s) (hon : s.turn p = .on)
    (hcall : (s.point p).call = some .kfork)
    (hrun : s.run table p ok = .ok s') : Inv s' := by
  rw [WaitSystem.run] at hrun
  generalize hpoint : s.point p = pt at hrun hcall
  cases pt with
  | forkScan rest =>
    cases rest with
    | nil =>
      cases hrun
      exact h.goto hon hpoint ⟨fun _ => trivial, nofun, nofun, nofun,
        nofun⟩ rfl rfl
    | cons q rest =>
      exact h.acquire hrun hon hpoint ⟨fun _ => trivial, nofun, nofun,
        nofun, nofun⟩ rfl rfl rfl
  | forkLook q rest =>
    dsimp only at hrun
    split at hrun
    · rename_i hq
      cases hrun
      exact h.allocproc hon hpoint hq
    · cases hrun
      exact h.release hon hpoint ⟨fun _ => trivial, nofun, nofun, nofun,
        nofun⟩ rfl rfl rfl
  | forkCopy q =>
    dsimp only at hrun
    split at hrun
    · cases hrun
      exact h.release hon hpoint ⟨id, fun _ => id, fun _ => id, nofun,
        nofun⟩ rfl rfl rfl
    · cases hrun
      exact h.unfork hon hpoint
  | forkLink q =>
    exact h.acquireWait hrun hon hpoint ⟨id, fun _ => id, fun _ => id,
      nofun, nofun⟩ rfl rfl
  | forkParent q =>
    cases hrun
    exact h.link hon hpoint
  | forkReady q =>
    exact h.acquire hrun hon hpoint ⟨id, fun _ => id, nofun, nofun, nofun⟩
      rfl rfl rfl
  | forkRunnable q =>
    cases hrun
    exact h.ready hon hpoint _
  | _ => cases hcall

/-- A step of `kexit`. -/
theorem run_exit (h : Inv s) (htable : ∀ p, p ∈ table)
    (hon : s.turn p = .on) (hcall : (s.point p).call = some .kexit)
    (hrun : s.run table p ok = .ok s') : Inv s' := by
  rw [WaitSystem.run] at hrun
  generalize hpoint : s.point p = pt at hrun hcall
  cases pt with
  | exitEnter status =>
    exact h.acquireWait hrun hon hpoint ⟨fun hk => ⟨hk, fun q _ => htable q⟩,
      nofun, nofun, nofun, nofun⟩ rfl rfl
  | reparent status rest =>
    cases rest with
    | nil =>
      cases hrun
      refine h.goto hon hpoint ⟨?_, nofun, nofun, nofun, nofun⟩ rfl rfl
      rintro ⟨hne, hkids⟩
      exact ⟨hne, fun q hq => List.not_mem_nil (hkids q hq), rfl,
        fun r _ _ => htable r⟩
    | cons q rest =>
      dsimp only at hrun
      split at hrun
      · rename_i hq
        cases hrun
        exact h.adopt (htable _) hon hpoint hq
      · rename_i hq
        cases hrun
        refine h.goto hon hpoint ⟨?_, nofun, nofun, nofun, nofun⟩ rfl rfl
        rintro ⟨hne, hkids⟩
        refine ⟨hne, fun x hx => ?_⟩
        refine (List.mem_cons.mp (hkids x hx)).resolve_left ?_
        rintro rfl
        exact hq hx
  | wake chan rest k =>
    cases rest with
    | nil =>
      have hwake : ∀ pt : WaitPoint P, ∀ r,
          (WaitPoint.wake chan [] k).WillWake r →
            pt.WillWake r ∨ ¬ s.Sleeper r :=
        fun _ r hr => absurd hr.2 List.not_mem_nil
      cases k with
      | reparent status rest =>
        cases hrun
        exact h.goto hon hpoint ⟨id, nofun, nofun, nofun, hwake _⟩ rfl
          rfl
      | exit status =>
        cases hrun
        refine h.goto hon hpoint ⟨?_, nofun, nofun, nofun, hwake _⟩ rfl
          rfl
        rintro ⟨hne, hless, rfl, hsleep⟩
        exact ⟨hne, hless,
          fun r hr hs => List.not_mem_nil (hsleep r hr hs)⟩
    | cons q rest =>
      dsimp only at hrun
      split at hrun
      · -- the exiting process skips itself, and it does not sleep
        rename_i hq
        cases hrun
        have hawake : ¬ s.Sleeper q := by
          rintro ⟨addr, hs⟩
          rw [hq, hpoint] at hs
          rcases hs with hs | ⟨hs, -⟩ <;> cases hs
        have hrest : ∀ r, r ∈ q :: rest → r ∈ rest ∨ ¬ s.Sleeper r := by
          intro r hr
          rcases List.mem_cons.mp hr with rfl | hr
          · exact Or.inr hawake
          · exact Or.inl hr
        refine h.goto hon hpoint ⟨?_, nofun, nofun, nofun, ?_⟩ rfl rfl
        · cases k with
          | reparent => exact id
          | exit =>
            rintro ⟨hne, hless, hchan, hsleep⟩
            refine ⟨hne, hless, hchan, fun r hr hs => ?_⟩
            exact (hrest r (hsleep r hr hs)).resolve_right
              fun hno => hno hs
        · exact fun r hr => (hrest r hr.2).imp (fun hm => ⟨hr.1, hm⟩) id
      · refine h.acquire hrun hon hpoint ⟨?_, nofun, nofun, nofun, ?_⟩ rfl
          rfl rfl
        · cases k with
          | reparent => exact id
          | exit =>
            rintro ⟨hne, hless, hchan, hsleep⟩
            exact ⟨hne, hless, hchan,
              fun r hr hs => List.mem_cons.mp (hsleep r hr hs)⟩
        · exact fun r hr => Or.inl ⟨hr.1, List.mem_cons.mp hr.2⟩
  | wakeLook chan q rest k =>
    cases hrun
    exact h.visit hon hpoint
  | exitLock status =>
    exact h.acquire hrun hon hpoint ⟨id, nofun, nofun, nofun, nofun⟩ rfl rfl
      rfl
  | exitZombie status =>
    cases hrun
    exact h.die hon hpoint
  | _ => cases hcall

/-- A step of `kwait`. -/
theorem run_wait (h : Inv s) (htable : ∀ p, p ∈ table)
    (hon : s.turn p = .on) (hcall : (s.point p).call = some .kwait)
    (hrun : s.run table p ok = .ok s') : Inv s' := by
  rw [WaitSystem.run] at hrun
  generalize hpoint : s.point p = pt at hrun hcall
  cases pt with
  | waitEnter addr | waitAgain addr =>
    exact h.acquireWait hrun hon hpoint ⟨fun _ q _ _ => htable q, nofun,
      nofun, nofun, nofun⟩ rfl rfl
  | waitScan addr rest havekids =>
    cases rest with
    | nil =>
      dsimp only at hrun
      split at hrun
      · cases hrun
        refine h.goto hon hpoint ⟨?_, nofun, nofun, nofun, nofun⟩ rfl rfl
        exact fun hk q hq hz => List.not_mem_nil (hk q hq hz)
      · cases hrun
        exact h.goto hon hpoint ⟨fun _ => trivial, nofun, nofun, nofun,
          nofun⟩ rfl rfl
    | cons q rest =>
      dsimp only at hrun
      split at hrun
      · rename_i hq
        refine h.acquire hrun hon hpoint ⟨?_, nofun, nofun, nofun, nofun⟩
          rfl rfl rfl
        exact fun hk => ⟨hq, fun x hx hz => List.mem_cons.mp (hk x hx hz)⟩
      · rename_i hq
        cases hrun
        refine h.goto hon hpoint ⟨?_, nofun, nofun, nofun, nofun⟩ rfl rfl
        intro hk x hx hz
        refine (List.mem_cons.mp (hk x hx hz)).resolve_left ?_
        rintro rfl
        exact hq hx
  | waitLook addr q rest =>
    dsimp only at hrun
    split at hrun
    · rename_i hq
      split at hrun
      · cases hrun
        exact h.release hon hpoint ⟨fun _ => trivial, nofun, nofun, nofun,
          nofun⟩ rfl rfl rfl
      · cases hrun
        exact h.reap hon hpoint hq
    · rename_i hq
      cases hrun
      refine h.release hon hpoint ⟨?_, nofun, nofun, nofun, nofun⟩ rfl rfl
        rfl
      rintro ⟨-, hk⟩ x hx hz
      refine (hk x hx hz).resolve_left ?_
      rintro rfl
      exact hq hz
  | waitKilled addr | waitSleep addr =>
    exact h.acquire hrun hon hpoint ⟨id, nofun, nofun, nofun, nofun⟩ rfl rfl
      rfl
  | waitTest addr =>
    dsimp only at hrun
    split at hrun
    · cases hrun
      exact h.release hon hpoint ⟨fun _ => trivial, nofun, nofun, nofun,
        nofun⟩ rfl rfl rfl
    · cases hrun
      exact h.release hon hpoint ⟨id, nofun, nofun, nofun, nofun⟩ rfl rfl
        rfl
  | waitFail =>
    cases hrun
    exact h.waitFail hon hpoint
  | waitOwn addr =>
    cases hrun
    exact h.waitOwn hon hpoint
  | waitFall addr =>
    cases hrun
    exact h.fall hon hpoint
  | _ => cases hcall

/-- A step of `kkill`. -/
theorem run_kill (h : Inv s) (hon : s.turn p = .on)
    (hcall : (s.point p).call = some .kkill)
    (hrun : s.run table p ok = .ok s') : Inv s' := by
  rw [WaitSystem.run] at hrun
  generalize hpoint : s.point p = pt at hrun hcall
  cases pt with
  | killScan pid rest =>
    cases rest with
    | nil =>
      cases hrun
      exact h.goto hon hpoint ⟨fun _ => trivial, nofun, nofun, nofun,
        nofun⟩ rfl rfl
    | cons q rest =>
      exact h.acquire hrun hon hpoint ⟨fun _ => trivial, nofun, nofun,
        nofun, nofun⟩ rfl rfl rfl
  | killLook pid q rest =>
    dsimp only at hrun
    split at hrun
    · cases hrun
      have hpt : (s.kill q).point p = .killLook pid q rest := by
        rw [point_kill, hpoint]
      exact (h.kill q).release (by rw [turn_kill, hon]) hpt
        ⟨fun _ => trivial, nofun, nofun, nofun, nofun⟩ rfl rfl rfl
    · cases hrun
      exact h.release hon hpoint ⟨fun _ => trivial, nofun, nofun, nofun,
        nofun⟩ rfl rfl rfl
  | _ => cases hcall

theorem run (h : Inv s) (htable : ∀ p, p ∈ table) (hon : s.turn p = .on)
    (hrun : s.run table p ok = .ok s') : Inv s' := by
  cases hcall : (s.point p).call with
  | none =>
    rw [WaitSystem.run] at hrun
    cases hpt : s.point p <;> rw [hpt] at hrun hcall <;>
      first | (cases hcall; done) | cases hrun
  | some call =>
    cases call with
    | kfork => exact h.run_fork hon hcall hrun
    | kexit => exact h.run_exit htable hon hcall hrun
    | kwait => exact h.run_wait htable hon hcall hrun
    | kkill => exact h.run_kill hon hcall hrun

/-- `p` begins a call. -/
theorem call {pt : WaitPoint P} (h : Inv s)
    (hrun : s.call p pt = .ok s') (hknows : s.Knows p pt)
    (hforks : pt.forks = none) (hfall : ∀ addr, pt ≠ .waitFall addr)
    (hheld : pt.held p = none) (hwait : pt.holdsWait = false) : Inv s' := by
  rw [WaitSystem.call] at hrun
  split at hrun
  case h_1 r hon hpt =>
    cases hrun
    refine h.goto hon hpt ⟨fun _ => hknows, ?_, nofun, hfall, nofun⟩ hheld
      hwait
    rw [hforks]
    exact nofun
  case h_2 => cases hrun

theorem step {op : WaitOp P} (h : Inv s) (htable : ∀ p, p ∈ table)
    (hstep : s.step table op = .ok s') : Inv s' := by
  cases op with
  | kfork p => exact h.call hstep trivial rfl nofun rfl rfl
  | kexit p status =>
    rw [WaitSystem.step] at hstep
    split at hstep
    case isTrue => cases hstep
    case isFalse hne => exact h.call hstep hne rfl nofun rfl rfl
  | kwait p addr => exact h.call hstep trivial rfl nofun rfl rfl
  | kkill p pid => exact h.call hstep trivial rfl nofun rfl rfl
  | run p ok =>
    rw [WaitSystem.step] at hstep
    split at hstep
    case isTrue hon => exact h.run htable hon hstep
    case isFalse => cases hstep
  | yield p =>
    rw [WaitSystem.step] at hstep
    split at hstep
    case isTrue hp => exact h.leave hp.1 hp.2.1 hp.2.2 (Or.inl rfl) hstep
    case isFalse => cases hstep
  | sleep p addr =>
    rw [WaitSystem.step] at hstep
    split at hstep
    case isTrue hp =>
      have hfree : (s.point p).held p = none ∧
          (s.point p).holdsWait = false := by
        cases hpt : s.point p <;> rw [hpt] at hp <;> first
          | exact ⟨rfl, rfl⟩
          | exact absurd hp.2 Bool.false_ne_true
      exact h.leave hp.1 hfree.1 hfree.2 (Or.inr ⟨rfl, hp.2⟩) hstep
    case isFalse => cases hstep
  | swtch p =>
    rw [WaitSystem.step] at hstep
    split at hstep
    case isTrue hp =>
      cases hstep
      exact h.swtch hp
    case isFalse => cases hstep
  | schedule p =>
    rw [WaitSystem.step] at hstep
    split at hstep
    case isTrue hp =>
      split at hstep
      case isTrue hfree =>
        cases hstep
        exact h.schedule hp hfree
      case isFalse => cases hstep
    case isFalse => cases hstep
  | resume p =>
    rw [WaitSystem.step] at hstep
    split at hstep
    case isTrue hp =>
      cases hstep
      exact h.resume hp
    case isFalse => cases hstep

end Run

end Inv

theorem boot_inv (initproc : P) : Inv (boot initproc) := by
  have hinit : (boot initproc).state initproc = .runnable := by
    simp [boot]
  have hother : ∀ q, q ≠ initproc → (boot initproc).state q = .unused := by
    intro q hq
    simp [boot, hq]
  have hnot : ∀ q st, st ≠ .runnable → st ≠ .unused →
      (boot initproc).state q ≠ st := by
    rintro q st h₁ h₂ rfl
    by_cases hq : q = initproc
    · exact h₁ (hq ▸ hinit)
    · exact h₂ (hother q hq)
  constructor
  · exact fun _ _ => iff_of_false nofun nofun
  · exact fun _ => iff_of_false nofun nofun
  · exact fun p => iff_of_false (by rintro (h | h) <;> cases h)
      (hnot p _ nofun nofun)
  · rintro p (h | h)
    · exact absurd rfl h
    · cases h
  · exact fun _ _ => rfl
  · exact fun _ => trivial
  · exact fun _ _ _ => nofun
  · exact fun _ _ => nofun
  · exact fun q hq hne => absurd (hother q hne) hq
  · exact fun _ _ => rfl
  · exact fun _ => nofun
  · exact fun _ _ => nofun
  · exact fun _ _ _ => nofun
  · exact ⟨by show ((boot initproc).state initproc).live = true; rw [hinit]; rfl,
      rfl⟩
  · intro e
    have hz : ¬ (boot initproc).IsZombie e :=
      fun hz => hnot e.child .zombie nofun nofun hz.1
    rw [if_neg hz]
    rfl

/-! ## What a step does to the exited children -/

/-- The exited child `q` is still there. -/
def Stays (s s' : WaitSystem P) (q : P) : Prop :=
  s'.state q = .zombie ∧ s'.pid q = s.pid q ∧ s'.xstate q = s.xstate q

/-- `kwait` of `p` frees its exited child `q` and returns its pid. -/
structure Frees (s s' : WaitSystem P) (p q : P) (addr : UInt64) : Prop where
  zombie : s.state q = .zombie
  parent : s.parent q = some p
  looks : ∃ rest, s.point p = .waitLook addr q rest
  unused : s'.state q = .unused
  returns : s'.point p = .returned (s.pid q)
  reaps : s'.reaps =
    ⟨p, ⟨q, s.pid q, s.xstate q⟩, decide (addr ≠ 0)⟩ :: s.reaps

/-- No exited child is freed. -/
def Spares (s s' : WaitSystem P) : Prop :=
  s'.reaps = s.reaps ∧ ∀ q, s.state q = .zombie → Stays s s' q

namespace Spares

omit [DecidableEq P] in
theorem of_eq (hstate : s'.state = s.state) (hpid : s'.pid = s.pid)
    (hxstate : s'.xstate = s.xstate) (hreaps : s'.reaps = s.reaps) :
    Spares s s' := by
  refine ⟨hreaps, fun q hq => ?_⟩
  rw [Stays, hstate, hpid, hxstate]
  exact ⟨hq, rfl, rfl⟩

omit [DecidableEq P] in
theorem of_other (hq : s.state q ≠ .zombie)
    (hother : ∀ r, r ≠ q → s'.state r = s.state r ∧ s'.pid r = s.pid r ∧
      s'.xstate r = s.xstate r) (hreaps : s'.reaps = s.reaps) :
    Spares s s' := by
  refine ⟨hreaps, fun r hr => ?_⟩
  obtain ⟨h₁, h₂, h₃⟩ := hother r (by rintro rfl; exact hq hr)
  exact ⟨h₁.trans hr, h₂, h₃⟩

theorem acquire {pt : WaitPoint P} (hrun : s.acquire p q pt = .ok s') :
    Spares s s' := by
  rw [WaitSystem.acquire] at hrun
  split at hrun <;> cases hrun
  exact .of_eq rfl rfl rfl rfl

theorem acquireWait {pt : WaitPoint P}
    (hrun : s.acquireWait p pt = .ok s') : Spares s s' := by
  rw [WaitSystem.acquireWait] at hrun
  split at hrun <;> cases hrun
  exact .of_eq rfl rfl rfl rfl

theorem leave {st : ProcState} {chan : Option (Chan P)}
    (hp : s.state p ≠ .zombie) (hrun : s.leave p st chan = .ok s') :
    Spares s s' := by
  rw [WaitSystem.leave] at hrun
  split at hrun <;> cases hrun
  exact .of_other hp (fun r hr => ⟨Function.update_of_ne hr .., rfl, rfl⟩) rfl

omit [DecidableEq P] in
theorem trans {s₁ s₂ : WaitSystem P} (h₁ : Spares s s₁)
    (h₂ : Spares s₁ s₂) : Spares s s₂ := by
  refine ⟨h₂.1.trans h₁.1, fun q hq => ?_⟩
  obtain ⟨hz, hpid, hx⟩ := h₁.2 q hq
  obtain ⟨hz', hpid', hx'⟩ := h₂.2 q hz
  exact ⟨hz', hpid'.trans hpid, hx'.trans hx⟩

theorem setState {st : ProcState} (hq : s.state q ≠ .zombie) :
    Spares s (s.setState q st) :=
  .of_other hq (fun _ hr => ⟨Function.update_of_ne hr .., rfl, rfl⟩) rfl

theorem wakeup (s : WaitSystem P) (chan : Option P) (q : P) :
    Spares s (s.wakeup chan q) := by
  rw [WaitSystem.wakeup]
  split
  case isTrue hq => exact .setState (by rw [hq.1]; nofun)
  case isFalse => exact .of_eq rfl rfl rfl rfl

theorem kill (s : WaitSystem P) (q : P) : Spares s (s.kill q) := by
  rw [WaitSystem.kill]
  split
  case isTrue hq =>
    have hq : s.state q = .sleeping := hq
    exact .of_other (q := q) (by rw [hq]; nofun)
      (fun _ hr => ⟨Function.update_of_ne hr .., rfl, rfl⟩) rfl
  case isFalse => exact .of_eq rfl rfl rfl rfl

theorem freeproc (hq : s.state q ≠ .zombie) : Spares s (s.freeproc q) :=
  .of_other hq (fun _ hr => ⟨Function.update_of_ne hr ..,
    Function.update_of_ne hr .., Function.update_of_ne hr ..⟩) rfl

theorem allocproc (hq : s.state q ≠ .zombie) : Spares s (s.allocproc q) :=
  .of_other hq (fun _ hr => ⟨Function.update_of_ne hr ..,
    Function.update_of_ne hr .., rfl⟩) rfl

theorem die (hp : s.state p ≠ .zombie) (status : Int32) :
    Spares s (s.die p status) :=
  .of_other hp (fun _ hr => ⟨Function.update_of_ne hr .., rfl,
    Function.update_of_ne hr ..⟩) rfl

theorem call {pt : WaitPoint P} (hrun : s.call p pt = .ok s') :
    Spares s s' := by
  rw [WaitSystem.call] at hrun
  split at hrun <;> cases hrun
  exact .of_eq rfl rfl rfl rfl

end Spares

theorem Frees.of_reap {addr : UInt64} {rest : List P} (h : Inv s)
    (hpt : s.point p = .waitLook addr q rest) (hq : s.state q = .zombie) :
    Frees s (s.reap p q addr) p q addr ∧
      ∀ r, r ≠ q → s.state r = .zombie → Stays s (s.reap p q addr) r := by
  have hk := h.knows p
  rw [hpt] at hk
  refine ⟨⟨hq, hk.1, ⟨rest, hpt⟩, Function.update_self ..,
    Function.update_self .., rfl⟩, fun r hr hz => ?_⟩
  exact ⟨(Function.update_of_ne hr ..).trans hz, Function.update_of_ne hr ..,
    Function.update_of_ne hr ..⟩

/-- **A step of a call frees no exited child, or it is the one step of
`kwait` that does.** -/
theorem run_zombies {table : List P} {ok : Bool} (h : Inv s)
    (hon : s.turn p = .on) (hrun : s.run table p ok = .ok s') :
    Spares s s' ∨ ∃ q addr, Frees s s' p q addr ∧
      ∀ r, r ≠ q → s.state r = .zombie → Stays s s' r := by
  have hk := h.knows p
  have hp : s.state p ≠ .zombie := by
    rw [h.state_on hon]
    exact nofun
  rw [WaitSystem.run] at hrun
  generalize hpoint : s.point p = pt at hrun hk
  cases pt with
  | returned r => cases hrun
  | forkScan rest | killScan pid rest =>
    left
    cases rest with
    | nil =>
      cases hrun
      exact .of_eq rfl rfl rfl rfl
    | cons q rest => exact .acquire hrun
  | forkLook q rest =>
    left
    dsimp only at hrun
    split at hrun
    · rename_i hq
      cases hrun
      exact (Spares.allocproc (by rw [hq]; nofun)).trans
        (.of_eq rfl rfl rfl rfl)
    · cases hrun
      exact .of_eq rfl rfl rfl rfl
  | forkCopy q =>
    left
    dsimp only at hrun
    split at hrun
    · cases hrun
      exact .of_eq rfl rfl rfl rfl
    · cases hrun
      exact (Spares.freeproc (by rw [hk.1]; nofun)).trans
        (.of_eq rfl rfl rfl rfl)
  | forkLink q | exitEnter status | waitEnter addr | waitAgain addr =>
    exact Or.inl (.acquireWait hrun)
  | forkReady q | exitLock status | waitKilled addr | waitSleep addr =>
    exact Or.inl (.acquire hrun)
  | forkParent q | waitFail | waitOwn addr =>
    cases hrun
    exact Or.inl (.of_eq rfl rfl rfl rfl)
  | forkRunnable q =>
    cases hrun
    exact Or.inl ((Spares.setState (by rw [hk.1]; nofun)).trans
      (.of_eq rfl rfl rfl rfl))
  | reparent status rest =>
    left
    cases rest with
    | nil =>
      cases hrun
      exact .of_eq rfl rfl rfl rfl
    | cons q rest =>
      dsimp only at hrun
      split at hrun <;> cases hrun <;> exact .of_eq rfl rfl rfl rfl
  | wake chan rest k =>
    left
    cases rest with
    | nil => cases k <;> cases hrun <;> exact .of_eq rfl rfl rfl rfl
    | cons q rest =>
      dsimp only at hrun
      split at hrun
      · cases hrun
        exact .of_eq rfl rfl rfl rfl
      · exact .acquire hrun
  | wakeLook chan q rest k =>
    cases hrun
    exact Or.inl ((Spares.wakeup s chan q).trans (.of_eq rfl rfl rfl rfl))
  | exitZombie status =>
    cases hrun
    exact Or.inl (.die hp status)
  | gone => cases hrun
  | waitScan addr rest havekids =>
    left
    cases rest with
    | nil =>
      dsimp only at hrun
      split at hrun <;> cases hrun <;> exact .of_eq rfl rfl rfl rfl
    | cons q rest =>
      dsimp only at hrun
      split at hrun
      · exact .acquire hrun
      · cases hrun
        exact .of_eq rfl rfl rfl rfl
  | waitLook addr q rest =>
    dsimp only at hrun
    split at hrun
    · rename_i hq
      split at hrun
      · cases hrun
        exact Or.inl (.of_eq rfl rfl rfl rfl)
      · cases hrun
        exact Or.inr ⟨q, addr, Frees.of_reap h hpoint hq⟩
    · cases hrun
      exact Or.inl (.of_eq rfl rfl rfl rfl)
  | waitTest addr =>
    dsimp only at hrun
    split at hrun <;> cases hrun <;> exact Or.inl (.of_eq rfl rfl rfl rfl)
  | waitFall addr =>
    cases hrun
    exact Or.inl (.of_other hp
      (fun r hr => ⟨Function.update_of_ne hr .., rfl, rfl⟩) rfl)
  | killLook pid q rest =>
    dsimp only at hrun
    split at hrun
    · cases hrun
      exact Or.inl ((Spares.kill s q).trans (.of_eq rfl rfl rfl rfl))
    · cases hrun
      exact Or.inl (.of_eq rfl rfl rfl rfl)

theorem step_zombies {table : List P} {op : WaitOp P} (h : Inv s)
    (hstep : s.step table op = .ok s') :
    Spares s s' ∨ ∃ p q addr, Frees s s' p q addr ∧
      ∀ r, r ≠ q → s.state r = .zombie → Stays s s' r := by
  cases op with
  | kfork p | kwait p addr | kkill p pid => exact Or.inl (.call hstep)
  | kexit p status =>
    rw [WaitSystem.step] at hstep
    split at hstep
    · cases hstep
    · exact Or.inl (.call hstep)
  | run p ok =>
    rw [WaitSystem.step] at hstep
    split at hstep
    case isTrue hon =>
      exact (run_zombies h hon hstep).imp id fun hf => ⟨p, hf⟩
    case isFalse => cases hstep
  | yield p | sleep p addr =>
    rw [WaitSystem.step] at hstep
    split at hstep
    case isTrue hp =>
      refine Or.inl (.leave ?_ hstep)
      rw [h.state_on hp.1]
      exact nofun
    case isFalse => cases hstep
  | swtch p | resume p =>
    rw [WaitSystem.step] at hstep
    split at hstep <;> cases hstep
    exact Or.inl (.of_eq rfl rfl rfl rfl)
  | schedule p =>
    rw [WaitSystem.step] at hstep
    split at hstep
    case isTrue hp =>
      split at hstep <;> cases hstep
      exact Or.inl (.of_other (q := p) (by rw [hp]; nofun)
        (fun r hr => ⟨Function.update_of_ne hr .., rfl, rfl⟩) rfl)
    case isFalse => cases hstep

/-! ## Every run -/

/-- **Exit and wait never lose or duplicate a child.** In every state of every
run of any number of processes:

* while `wait_lock` is free, every process that `kfork` has given a parent has
  one that lives, and nobody sleeps in `kwait`, or is about to, with an exited
  child;
* while it is not, the holder of `wait_lock` will wake such a sleeper;
* every exit has been reaped once, unless the child is still there;
* a step frees no exited child, or it is a step of `kwait` of its parent,
  which returns its pid;
* a parent that looks at an exited child frees it, unless the copy of the exit
  status fails: then the child stays as it is;
* an exited child is still ahead of its parent's scan. -/
theorem every_child_reaped_once {initproc : P} {table : List P}
    (htable : ∀ p, p ∈ table) {ops : List (WaitOp P)} {s : WaitSystem P}
    (run : Run (step table) (fun _ _ => True) (boot initproc) ops s) :
    (s.waitLock = none →
      (∀ q, s.state q ≠ .unused → q ≠ s.initproc →
        (∀ p, (s.point p).unlinked ≠ some q) →
        ∃ r, s.parent q = some r ∧ s.state r ≠ .unused ∧
          s.state r ≠ .zombie) ∧
      ∀ p q, s.Sleeper p → s.parent q = some p → s.state q ≠ .zombie) ∧
    (∀ p q, s.Sleeper p → s.parent q = some p → s.state q = .zombie →
      ∃ r, s.waitLock = some r ∧ (s.point r).WillWake p) ∧
    (∀ e, s.exits.count e =
      (s.reaps.map Reap.exit).count e + if s.IsZombie e then 1 else 0) ∧
    (∀ op s', s.step table op = .ok s' →
      Spares s s' ∨ ∃ p q addr, Frees s s' p q addr ∧
        ∀ r, r ≠ q → s.state r = .zombie → Stays s s' r) ∧
    (∀ p q addr rest, s.turn p = .on → s.point p = .waitLook addr q rest →
      s.state q = .zombie →
      (∃ s', s.step table (.run p true) = .ok s' ∧ Frees s s' p q addr) ∧
      (addr ≠ 0 → ∃ s', s.step table (.run p false) = .ok s' ∧
        s'.point p = .waitFail ∧ s'.parent q = some p ∧ Spares s s')) ∧
    ∀ p q addr rest kids, s.point p = .waitScan addr rest kids →
      s.parent q = some p → s.state q = .zombie → q ∈ rest := by
  have h : Inv s := run.invariant (I := Inv)
    (fun _ _ _ h _ hstep => h.step htable hstep) (boot_inv initproc)
  have hwoken : ∀ p q, s.Sleeper p → s.parent q = some p →
      s.state q = .zombie → ∃ r, s.waitLock = some r ∧
        (s.point r).WillWake p := by
    intro p q hs hq hz
    obtain ⟨r, hr⟩ := h.sleepers p q hs hq hz
    exact ⟨r, (h.wait r).mpr hr.holdsWait, hr⟩
  refine ⟨fun hfree => ⟨?_, ?_⟩, hwoken, h.ledger,
    fun op s' hstep => step_zombies h hstep, ?_, ?_⟩
  · intro q hq hne hpub
    cases hp : s.parent q with
    | none =>
      obtain ⟨r, hr⟩ := h.linked q hq hne hp
      exact absurd hr (hpub r)
    | some r =>
      refine ⟨r, rfl, ?_, ?_⟩ <;>
      · intro hr
        have hlive := h.live q r hp
        rw [hr] at hlive
        cases hlive
  · intro p q hs hq hz
    obtain ⟨r, hr, -⟩ := hwoken p q hs hq hz
    rw [hfree] at hr
    cases hr
  · intro p q addr rest hon hpt hq
    have hk := h.knows p
    rw [hpt] at hk
    refine ⟨⟨s.reap p q addr, ?_, (Frees.of_reap h hpt hq).1⟩, fun haddr => ?_⟩
    · rw [step, if_pos hon, WaitSystem.run, hpt]
      simp [hq]
    · refine ⟨s.release p q .waitFail, ?_, Function.update_self .., hk.1,
        .of_eq rfl rfl rfl rfl⟩
      rw [step, if_pos hon, WaitSystem.run, hpt]
      simp [hq, haddr]
  · intro p q addr rest kids hpt hq hz
    have hk := h.knows p
    rw [hpt] at hk
    exact hk q hq hz

/-- `initproc` forks, the child exits with status 7, and `initproc` waits. -/
def forkExitWait : List (WaitOp Bool) :=
  [.schedule false, .resume false, .kfork false] ++
  List.replicate 9 (.run false true) ++
  [.schedule true, .resume true, .kexit true 7] ++
  List.replicate 10 (.run true true) ++
  [.swtch true, .kwait false 4096] ++ List.replicate 3 (.run false true)

theorem every_child_reaped_once_forkExitWait :
    ∃ s : WaitSystem Bool,
      Run (step [false, true]) (fun _ _ => True) (boot false) forkExitWait s ∧
      s.exits = [⟨true, 2, 7⟩] ∧
      (∃ s', s.step [false, true] (.run false true) = .ok s' ∧
        Frees s s' false true 4096) ∧
      ∃ s', s.step [false, true] (.run false false) = .ok s' ∧
        s'.point false = .waitFail ∧ s'.parent true = some false ∧
        Spares s s' := by
  obtain ⟨s, hs, htest⟩ := exists_some_of_any
    (o := Run.checked (step [false, true]) (fun _ _ => True) (boot false)
      forkExitWait)
    (p := fun s => decide (s.turn false = .on ∧
      s.point false = .waitLook 4096 true [] ∧ s.state true = .zombie ∧
      s.exits = [⟨true, 2, 7⟩])) (by decide +kernel)
  obtain ⟨hon, hpt, hz, hexits⟩ := of_decide_eq_true htest
  have hrun := Run.of_checked hs
  obtain ⟨-, -, -, -, hlook, -⟩ := every_child_reaped_once
    (by rintro (_ | _) <;> simp) hrun
  obtain ⟨hfree, hfail⟩ := hlook false true 4096 [] hon hpt hz
  exact ⟨s, hrun, hexits, hfree, hfail (by decide)⟩

end WaitSystem

end Xv6.Proc
