import Xv6.Framework.Locks
import Xv6.Proc.ExitWait

/-!
# What `wait_lock` and `p->lock` protect

What a process knows at each point of its call: a parent that scans the table
in `kwait` knows that the children it has passed are alive, an exiting process
knows that the entries it has passed are not its children, and after its
`wakeup` that its parent does not sleep. Others cannot take this knowledge
away, since parents change and processes die only under `wait_lock`, and a
process falls asleep in `kwait` only after having held it.
-/

namespace Xv6.Proc

open Framework

variable {P : Type}

/-- The process exists and has not exited. -/
def ProcState.live : ProcState → Bool
  | .sleeping | .runnable | .running => true
  | .unused | .used | .zombie => false

variable {p q : P} {pt : WaitPoint P}

namespace WaitPoint

/-- The entry that `kfork` has taken and not made `RUNNABLE` yet. -/
def forks : WaitPoint P → Option P
  | .forkCopy q | .forkLink q | .forkParent q | .forkReady q
  | .forkRunnable q => some q
  | _ => none

/-- The entry that `kfork` has taken and not given its parent yet. -/
def unlinked : WaitPoint P → Option P
  | .forkCopy q | .forkLink q | .forkParent q => some q
  | _ => none

/-- Not in a call, or past the end of `kexit`. -/
def inert : WaitPoint P → Bool
  | .returned _ | .gone => true
  | _ => false

/-- The process is in `wakeup(p)` and has not passed `p` yet. -/
def WillWake (p : P) : WaitPoint P → Prop
  | .wake chan rest _ => chan = some p ∧ p ∈ rest
  | .wakeLook chan q rest _ => chan = some p ∧ (p = q ∨ p ∈ rest)
  | _ => False

theorem WillWake.holdsWait (h : pt.WillWake p) : pt.holdsWait = true := by
  cases pt <;> first | rfl | cases h

theorem forks_of_unlinked (h : pt.unlinked = some q) : pt.forks = some q := by
  cases pt <;> first | exact h | cases h

theorem inert_spec (h : pt.inert = true) :
    (∀ p, pt.held p = none) ∧ pt.holdsWait = false ∧ pt.forks = none ∧
      (∀ p, ¬ pt.WillWake p) ∧ (∀ addr, pt ≠ .waitFall addr) ∧
      ∀ addr, pt ≠ .waitAgain addr := by
  cases pt <;> first
    | (cases h; done)
    | exact ⟨fun _ => rfl, rfl, rfl, fun _ h => h, nofun, nofun⟩

end WaitPoint

namespace WaitSystem

/-- The entry whose lock `p` holds. -/
def held (s : WaitSystem P) (p : P) : Option P :=
  match s.turn p with
  | .on => (s.point p).held p
  | .left | .back => some p
  | .off => none

/-- `p` is about to sleep in `kwait`, or does. -/
def Sleeper (s : WaitSystem P) (p : P) : Prop :=
  ∃ addr, s.point p = .waitFall addr ∨
    s.point p = .waitAgain addr ∧ s.state p = .sleeping

def Childless (s : WaitSystem P) (p : P) : Prop := ∀ q, s.parent q ≠ some p

/-- What `p` knows at a point of its call. -/
def Knows (s : WaitSystem P) (p : P) : WaitPoint P → Prop
  | .forkCopy q | .forkLink q | .forkParent q =>
      s.state q = .used ∧ s.parent q = none
  | .forkReady q | .forkRunnable q =>
      s.state q = .used ∧ s.parent q = some p
  | .exitEnter _ => p ≠ s.initproc
  | .reparent _ rest | .wake _ _ (.reparent _ rest)
  | .wakeLook _ _ _ (.reparent _ rest) =>
      p ≠ s.initproc ∧ ∀ q, s.parent q = some p → q ∈ rest
  | .wake chan rest (.exit _) =>
      p ≠ s.initproc ∧ s.Childless p ∧ chan = s.parent p ∧
        ∀ r, chan = some r → s.Sleeper r → r ∈ rest
  | .wakeLook chan q rest (.exit _) =>
      p ≠ s.initproc ∧ s.Childless p ∧ chan = s.parent p ∧
        ∀ r, chan = some r → s.Sleeper r → r = q ∨ r ∈ rest
  | .exitLock _ | .exitZombie _ =>
      p ≠ s.initproc ∧ s.Childless p ∧
        ∀ r, s.parent p = some r → ¬ s.Sleeper r
  | .waitScan _ rest _ =>
      ∀ q, s.parent q = some p → s.state q = .zombie → q ∈ rest
  | .waitLook _ q rest =>
      s.parent q = some p ∧ ∀ q', s.parent q' = some p →
        s.state q' = .zombie → q' = q ∨ q' ∈ rest
  | .waitKilled _ | .waitTest _ | .waitSleep _ | .waitOwn _ =>
      ∀ q, s.parent q = some p → s.state q ≠ .zombie
  | _ => True

/-- The exited child is still in the table. -/
def IsZombie (s : WaitSystem P) (e : Exit P) : Prop :=
  s.state e.child = .zombie ∧ s.pid e.child = e.pid ∧
    s.xstate e.child = e.status

instance IsZombie.decidable (s : WaitSystem P) (e : Exit P) :
    Decidable (s.IsZombie e) :=
  inferInstanceAs (Decidable (_ ∧ _))

/-- What holds between any two steps. -/
structure Inv [DecidableEq P] (s : WaitSystem P) : Prop where
  locks : Matched s.lock s.held
  wait : ∀ p, s.waitLock = some p ↔ (s.point p).holdsWait = true
  running : ∀ p, s.turn p = .on ∨ s.turn p = .back ↔ s.state p = .running
  busy : ∀ p, (s.point p).held p ≠ none ∨ (s.point p).holdsWait = true →
    s.turn p = .on
  inert : ∀ p, (s.state p).live = false → (s.point p).inert = true
  knows : ∀ p, s.Knows p (s.point p)
  forkers : ∀ p p' q, (s.point p).forks = some q →
    (s.point p').forks = some q → p = p'
  live : ∀ q r, s.parent q = some r → (s.state r).live = true
  linked : ∀ q, s.state q ≠ .unused → q ≠ s.initproc → s.parent q = none →
    ∃ p, (s.point p).unlinked = some q
  unused : ∀ q, s.state q = .unused → s.parent q = none
  irrefl : ∀ q, s.parent q ≠ some q
  chans : ∀ p addr, s.point p = .waitAgain addr → s.state p = .sleeping →
    s.chan p = some (.proc p)
  sleepers : ∀ p q, s.Sleeper p → s.parent q = some p →
    s.state q = .zombie → ∃ r, (s.point r).WillWake p
  init : (s.state s.initproc).live = true ∧ s.parent s.initproc = none
  ledger : ∀ e, s.exits.count e =
    (s.reaps.map Reap.exit).count e + if s.IsZombie e then 1 else 0

/-! ## What others leave alone -/

/-- Without `wait_lock` nobody gets a new parent, dies or goes to sleep in
`kwait`. -/
structure Calm (s s' : WaitSystem P) : Prop where
  parent : s'.parent = s.parent
  zombie : ∀ q, s'.state q = .zombie → s.state q = .zombie
  sleeper : ∀ p, s'.Sleeper p → s.Sleeper p

variable {s : WaitSystem P}

theorem Knows.frame {s' : WaitSystem P} (h : s.Knows p pt)
    (hinit : s'.initproc = s.initproc) (hcalm : pt.holdsWait = true → Calm s s')
    (hfork : ∀ q, pt.forks = some q →
      s'.state q = s.state q ∧ s'.parent q = s.parent q) : s'.Knows p pt := by
  have hused : ∀ q m, pt.forks = some q →
      s.state q = .used ∧ s.parent q = m →
        s'.state q = .used ∧ s'.parent q = m := by
    rintro q m hq ⟨hstate, hparent⟩
    obtain ⟨h₁, h₂⟩ := hfork q hq
    exact ⟨h₁.trans hstate, h₂.trans hparent⟩
  cases pt with
  | forkCopy q | forkLink q | forkParent q => exact hused q none rfl h
  | forkReady q | forkRunnable q => exact hused q (some p) rfl h
  | exitEnter =>
    show p ≠ s'.initproc
    rw [hinit]
    exact h
  | reparent st rest =>
    have hc := hcalm rfl
    refine ⟨hinit ▸ h.1, fun q hq => h.2 q ?_⟩
    rwa [hc.parent] at hq
  | wake chan rest k =>
    have hc := hcalm rfl
    cases k with
    | reparent st rest' =>
      refine ⟨hinit ▸ h.1, fun q hq => h.2 q ?_⟩
      rwa [hc.parent] at hq
    | exit st =>
      obtain ⟨hne, hless, hchan, hsleep⟩ := h
      refine ⟨hinit ▸ hne, ?_, hc.parent ▸ hchan, ?_⟩
      · intro q
        rw [hc.parent]
        exact hless q
      · exact fun r hr hs => hsleep r hr (hc.sleeper r hs)
  | wakeLook chan q rest k =>
    have hc := hcalm rfl
    cases k with
    | reparent st rest' =>
      refine ⟨hinit ▸ h.1, fun q hq => h.2 q ?_⟩
      rwa [hc.parent] at hq
    | exit st =>
      obtain ⟨hne, hless, hchan, hsleep⟩ := h
      refine ⟨hinit ▸ hne, ?_, hc.parent ▸ hchan, ?_⟩
      · intro q
        rw [hc.parent]
        exact hless q
      · exact fun r hr hs => hsleep r hr (hc.sleeper r hs)
  | exitLock | exitZombie =>
    have hc := hcalm rfl
    obtain ⟨hne, hless, hsleep⟩ := h
    refine ⟨hinit ▸ hne, ?_, ?_⟩
    · intro q
      rw [hc.parent]
      exact hless q
    · intro r hr hs
      rw [hc.parent] at hr
      exact hsleep r hr (hc.sleeper r hs)
  | waitScan =>
    have hc := hcalm rfl
    intro q hq hz
    rw [hc.parent] at hq
    exact h q hq (hc.zombie q hz)
  | waitLook =>
    have hc := hcalm rfl
    refine ⟨?_, ?_⟩
    · rw [hc.parent]
      exact h.1
    · intro q hq hz
      rw [hc.parent] at hq
      exact h.2 q hq (hc.zombie q hz)
  | waitKilled | waitTest | waitSleep | waitOwn =>
    have hc := hcalm rfl
    intro q hq hz
    rw [hc.parent] at hq
    exact h q hq (hc.zombie q hz)
  | _ => trivial

theorem Knows.of_inert (h : pt.inert = true) : s.Knows p pt := by
  cases pt <;> trivial

/-- An entry that is being forked is `USED` and has its forking process for a
parent, or none. -/
theorem Knows.forks (h : s.Knows p pt) (hq : pt.forks = some q) :
    s.state q = .used ∧ ∀ r, s.parent q = some r → r = p := by
  cases pt <;> first
    | (cases hq; done)
    | (cases hq
       refine ⟨h.1, fun r hr => ?_⟩
       rw [h.2] at hr
       cases hr <;> rfl)

variable [DecidableEq P]

/-- A step of `p` as the others see it. -/
structure Moved (s s' : WaitSystem P) (p : P) : Prop where
  init : s'.initproc = s.initproc
  point : ∀ r, r ≠ p → s'.point r = s.point r ∨
    (s.point r).inert = true ∧ (s'.point r).inert = true
  calm : (s.point p).holdsWait = false → Calm s s'
  used : ∀ q, s.state q = .used → (s.point p).forks ≠ some q →
    s'.state q = .used ∧ (s'.parent q = s.parent q ∨ s.parent q = some p)
  forks : ∀ q, (s'.point p).forks = some q → (s.point p).forks = some q ∨
    s.state q ≠ .used

namespace Moved

variable {s s' : WaitSystem P} {p : P}

omit [DecidableEq P] in
theorem forks_iff (hm : Moved s s' p) {r : P} (hr : r ≠ p) :
    (s'.point r).forks = some q → (s.point r).forks = some q := by
  rcases hm.point r hr with heq | ⟨-, hinert⟩
  · rw [heq]
    exact id
  · rw [(WaitPoint.inert_spec hinert).2.2.1]
    exact nofun

theorem forkers (hm : Moved s s' p) (h : Inv s) (r r' q : P)
    (hr : (s'.point r).forks = some q) (hr' : (s'.point r').forks = some q) :
    r = r' := by
  have hother : ∀ x, x ≠ p → (s'.point x).forks = some q →
      (s'.point p).forks ≠ some q := by
    intro x hx hxq hpq
    have hxq := hm.forks_iff hx hxq
    rcases hm.forks q hpq with hp | hp
    · exact hx (h.forkers x p q hxq hp)
    · exact hp ((h.knows x).forks hxq).1
  by_cases hrp : r = p
  · by_cases hrp' : r' = p
    · rw [hrp, hrp']
    · subst hrp
      exact absurd hr (hother r' hrp' hr')
  · by_cases hrp' : r' = p
    · subst hrp'
      exact absurd hr' (hother r hrp hr)
    · exact h.forkers r r' q (hm.forks_iff hrp hr) (hm.forks_iff hrp' hr')

/-- The others still know what they knew. -/
theorem knows (hm : Moved s s' p) (h : Inv s)
    (hp : s'.Knows p (s'.point p)) (r : P) : s'.Knows r (s'.point r) := by
  by_cases hr : r = p
  · rw [hr]
    exact hp
  rcases hm.point r hr with heq | ⟨-, hinert⟩
  · rw [heq]
    refine (h.knows r).frame hm.init ?_ ?_
    · intro hwait
      refine hm.calm ?_
      by_contra hp
      rw [Bool.not_eq_false, ← h.wait] at hp
      rw [← h.wait, hp] at hwait
      exact hr (Option.some.inj hwait).symm
    · intro q hq
      obtain ⟨hused, hparent⟩ := (h.knows r).forks hq
      obtain ⟨hstate, hp⟩ := hm.used q hused fun hpq =>
        hr (h.forkers r p q hq hpq)
      refine ⟨hstate.trans hused.symm, hp.resolve_right ?_⟩
      exact fun hpq => hr (hparent p hpq).symm
  · exact .of_inert hinert

end Moved

/-! ## Steps that only move one process on -/

/-- The table is the same. -/
structure Same (s s' : WaitSystem P) : Prop where
  state : s'.state = s.state
  pid : s'.pid = s.pid
  chan : s'.chan = s.chan
  xstate : s'.xstate = s.xstate
  parent : s'.parent = s.parent
  init : s'.initproc = s.initproc
  turn : s'.turn = s.turn
  exits : s'.exits = s.exits
  reaps : s'.reaps = s.reaps

/-- A step of `p` that changes no entry but that of `q`. -/
structure Touched (s s' : WaitSystem P) (p q : P) : Prop where
  init : s'.initproc = s.initproc
  turn : s'.turn = s.turn
  point : ∀ r, r ≠ p → s'.point r = s.point r ∨
    (s.point r).inert = true ∧ (s'.point r).inert = true
  state : ∀ r, r ≠ q → s'.state r = s.state r
  parent : ∀ r, r ≠ q → s'.parent r = s.parent r
  chan : ∀ r, r ≠ q → s'.chan r = s.chan r

namespace Inv

variable {s s' : WaitSystem P} {p q : P}

theorem wait_same (h : Inv s) (hw : s'.waitLock = s.waitLock)
    (hpoint : s'.point = Function.update s.point p pt)
    (hpt : pt.holdsWait = (s.point p).holdsWait) (r : P) :
    s'.waitLock = some r ↔ (s'.point r).holdsWait = true := by
  rw [hw, h.wait, hpoint, Function.update_apply]
  split
  · rename_i hr
    rw [hr, hpt]
  · rfl

theorem wait_acquire (h : Inv s) (hfree : s.waitLock = none)
    (hw : s'.waitLock = some p)
    (hpoint : s'.point = Function.update s.point p pt)
    (hpt : pt.holdsWait = true) (r : P) :
    s'.waitLock = some r ↔ (s'.point r).holdsWait = true := by
  rw [hw, hpoint, Function.update_apply]
  split
  · rename_i hr
    simp [hr, hpt]
  · rename_i hr
    rw [← h.wait, hfree]
    simp [Ne.symm hr]

theorem wait_release (h : Inv s) (hheld : (s.point p).holdsWait = true)
    (hw : s'.waitLock = none) (hpoint : s'.point = Function.update s.point p pt)
    (hpt : pt.holdsWait = false) (r : P) :
    s'.waitLock = some r ↔ (s'.point r).holdsWait = true := by
  rw [hw, hpoint, Function.update_apply]
  split
  · simp [hpt]
  · rename_i hr
    rw [← h.wait] at hheld
    rw [← h.wait, hheld]
    simp [Ne.symm hr]

theorem state_on (h : Inv s) (hon : s.turn p = .on) : s.state p = .running :=
  (h.running p).mp (Or.inl hon)

/-- Nobody exited or was freed. -/
theorem ledger_same (h : Inv s) (hexits : s'.exits = s.exits)
    (hreaps : s'.reaps = s.reaps)
    (hother : ∀ r, r ≠ q → s'.state r = s.state r ∧ s'.pid r = s.pid r ∧
      s'.xstate r = s.xstate r)
    (hold : s.state q ≠ .zombie) (hnew : s'.state q ≠ .zombie)
    (e : Exit P) : s'.exits.count e =
      (s'.reaps.map Reap.exit).count e + if s'.IsZombie e then 1 else 0 := by
  have hiff : s'.IsZombie e ↔ s.IsZombie e := by
    unfold IsZombie
    by_cases hq : e.child = q
    · rw [hq]
      exact iff_of_false (fun hz => hnew hz.1) fun hz => hold hz.1
    · obtain ⟨h₁, h₂, h₃⟩ := hother e.child hq
      rw [h₁, h₂, h₃]
  rw [hexits, hreaps, h.ledger e, if_congr hiff rfl rfl]

/-- The state of an entry changes to or from nothing that runs. -/
theorem running_same (h : Inv s) {b : ProcState} (hturn : s'.turn = s.turn)
    (hstate : s'.state = Function.update s.state q b)
    (hold : s.state q ≠ .running) (hnew : b ≠ .running) (r : P) :
    s'.turn r = .on ∨ s'.turn r = .back ↔ s'.state r = .running := by
  rw [hturn, hstate, Function.update_apply, h.running]
  split
  · rename_i hr
    rw [hr]
    exact iff_of_false hold hnew
  · rfl

/-- A process goes to another point, perhaps with a lock more or less. -/
theorem move (h : Inv s) (hon : s.turn p = .on) (hsame : Same s s')
    (hpoint : s'.point = Function.update s.point p pt)
    (hlock : Matched s'.lock (Function.update s.held p (pt.held p)))
    (hwait : ∀ r, s'.waitLock = some r ↔ (s'.point r).holdsWait = true)
    (hknows : s.Knows p pt)
    (hforks : ∀ q, pt.forks = some q → (s.point p).forks = some q)
    (hlinked : ∀ q, (s.point p).unlinked = some q → pt.unlinked = some q)
    (hfall : ∀ addr, pt = .waitFall addr → (s.point p).holdsWait = true ∧
      ∀ q, s.parent q = some p → s.state q ≠ .zombie)
    (hwake : ∀ r, (s.point p).WillWake r → pt.WillWake r ∨ ¬ s'.Sleeper r) :
    Inv s' := by
  have hrun := h.state_on hon
  have hother : ∀ r, r ≠ p → s'.point r = s.point r := by
    intro r hr
    rw [hpoint, Function.update_of_ne hr]
  have hself : s'.point p = pt := by rw [hpoint, Function.update_self]
  have hsleeper : ∀ r, s'.Sleeper r →
      s.Sleeper r ∨ r = p ∧ ∃ addr, pt = .waitFall addr := by
    rintro r ⟨addr, hr⟩
    by_cases hrp : r = p
    · subst hrp
      rw [hself, hsame.state, hrun] at hr
      rcases hr with hr | ⟨-, hr⟩
      · exact Or.inr ⟨rfl, addr, hr⟩
      · cases hr
    · rw [hother r hrp, hsame.state] at hr
      exact Or.inl ⟨addr, hr⟩
  have hcalm : (∀ addr, pt ≠ .waitFall addr) → Calm s s' := by
    intro hpt
    refine ⟨hsame.parent, fun q hq => hsame.state ▸ hq, fun r hr => ?_⟩
    rcases hsleeper r hr with hr | ⟨-, addr, hr⟩
    · exact hr
    · exact absurd hr (hpt addr)
  have hmoved : Moved s s' p := by
    refine ⟨hsame.init, fun r hr => Or.inl (hother r hr), ?_, ?_, ?_⟩
    · intro hnot
      refine hcalm ?_
      intro addr hpt
      rw [(hfall addr hpt).1] at hnot
      cases hnot
    · intro q hq _
      rw [hsame.state, hsame.parent]
      exact ⟨hq, Or.inl rfl⟩
    · intro q hq
      rw [hself] at hq
      exact Or.inl (hforks q hq)
  refine ⟨?_, hwait, ?_, ?_, ?_, ?_, hmoved.forkers h, ?_, ?_, ?_, ?_, ?_, ?_,
    ?_, ?_⟩
  · convert hlock using 1
    funext r
    rw [Function.update_apply]
    split
    · rename_i hr
      rw [hr, held, hsame.turn, hon, hself]
    · rename_i hr
      rw [held, held, hsame.turn, hother r hr]
  · rw [hsame.turn, hsame.state]
    exact h.running
  · intro r hr
    rw [hsame.turn]
    by_cases hrp : r = p
    · rw [hrp]
      exact hon
    · rw [hother r hrp] at hr
      exact h.busy r hr
  · intro r hr
    rw [hsame.state] at hr
    by_cases hrp : r = p
    · rw [hrp, hrun] at hr
      cases hr
    · rw [hother r hrp]
      exact h.inert r hr
  · refine hmoved.knows h ?_
    rw [hself]
    refine hknows.frame hsame.init ?_ ?_
    · intro hw
      refine hcalm ?_
      rintro addr rfl
      cases hw
    · intro q _
      rw [hsame.state, hsame.parent]
      exact ⟨rfl, rfl⟩
  · rw [hsame.parent, hsame.state]
    exact h.live
  · intro q hq hne hnone
    rw [hsame.state] at hq
    rw [hsame.init] at hne
    rw [hsame.parent] at hnone
    obtain ⟨r, hr⟩ := h.linked q hq hne hnone
    refine ⟨r, ?_⟩
    by_cases hrp : r = p
    · subst hrp
      rw [hself]
      exact hlinked q hr
    · rw [hother r hrp]
      exact hr
  · rw [hsame.state, hsame.parent]
    exact h.unused
  · rw [hsame.parent]
    exact h.irrefl
  · intro r addr hr hs
    rw [hsame.state] at hs
    rw [hsame.chan]
    by_cases hrp : r = p
    · rw [hrp, hrun] at hs
      cases hs
    · rw [hother r hrp] at hr
      exact h.chans r addr hr hs
  · intro r q hr hq hz
    rw [hsame.parent] at hq
    rw [hsame.state] at hz
    rcases hsleeper r hr with hold | ⟨rfl, addr, hpt⟩
    · obtain ⟨x, hx⟩ := h.sleepers r q hold hq hz
      by_cases hxp : x = p
      · subst hxp
        refine ⟨x, ?_⟩
        rw [hself]
        exact (hwake r hx).resolve_right fun hno => hno hr
      · refine ⟨x, ?_⟩
        rw [hother x hxp]
        exact hx
    · exact absurd hz ((hfall addr hpt).2 q hq)
  · rw [hsame.init, hsame.state, hsame.parent]
    exact h.init
  · refine h.ledger_same (q := p) hsame.exits hsame.reaps (fun r _ => ?_) ?_ ?_
    · rw [hsame.state, hsame.pid, hsame.xstate]
      exact ⟨rfl, rfl, rfl⟩
    · rw [hrun]
      exact ProcState.noConfusion
    · rw [hsame.state, hrun]
      exact ProcState.noConfusion

/-! ## Steps that change an entry -/

/-- A sleeper is woken. -/
theorem wake (h : Inv s) (hq : s.state q = .sleeping) :
    Inv (s.setState q .runnable) := by
  have hother : ∀ r, r ≠ q → (s.setState q .runnable).state r = s.state r :=
    fun r hr => Function.update_of_ne hr ..
  have hself : (s.setState q .runnable).state q = .runnable :=
    Function.update_self ..
  have hback : ∀ r, (s.setState q .runnable).state r ≠ .runnable →
      r ≠ q ∧ (s.setState q .runnable).state r = s.state r := by
    intro r hr
    have hrq : r ≠ q := by
      rintro rfl
      exact hr hself
    exact ⟨hrq, hother r hrq⟩
  have hsleeper : ∀ r, (s.setState q .runnable).Sleeper r → s.Sleeper r := by
    rintro r ⟨addr, hr | ⟨hr, hs⟩⟩
    · exact ⟨addr, Or.inl hr⟩
    · refine ⟨addr, Or.inr ⟨hr, ?_⟩⟩
      rw [← (hback r (by rw [hs]; nofun)).2]
      exact hs
  have hcalm : Calm s (s.setState q .runnable) := by
    refine ⟨rfl, fun r hr => ?_, hsleeper⟩
    rw [← (hback r (by rw [hr]; nofun)).2]
    exact hr
  refine ⟨h.locks, h.wait, ?_, h.busy, ?_, ?_, h.forkers, ?_, ?_, ?_, h.irrefl,
    ?_, ?_, ?_, ?_⟩
  · exact h.running_same rfl rfl (by rw [hq]; nofun) nofun
  · intro r hr
    refine h.inert r ?_
    rw [← (hback r ?_).2]
    · exact hr
    · rintro hrun
      rw [hrun] at hr
      cases hr
  · intro r
    refine (h.knows r).frame rfl (fun _ => hcalm) fun x hx => ⟨?_, rfl⟩
    refine hother x ?_
    rintro rfl
    rw [((h.knows r).forks hx).1] at hq
    cases hq
  · intro x r hx
    by_cases hr : r = q
    · rw [hr, hself]
      rfl
    · rw [hother r hr]
      exact h.live x r hx
  · intro x hx hne hnone
    by_cases hxq : x = q
    · refine h.linked x ?_ hne hnone
      rw [hxq, hq]
      exact ProcState.noConfusion
    · rw [hother x hxq] at hx
      exact h.linked x hx hne hnone
  · intro x hx
    rw [(hback x (by rw [hx]; nofun)).2] at hx
    exact h.unused x hx
  · intro r addr hr hs
    rw [(hback r (by rw [hs]; nofun)).2] at hs
    exact h.chans r addr hr hs
  · intro r x hr hx hz
    rw [(hback x (by rw [hz]; nofun)).2] at hz
    exact h.sleepers r x (hsleeper r hr) hx hz
  · refine ⟨?_, h.init.2⟩
    by_cases hi : s.initproc = q
    · show ((s.setState q .runnable).state s.initproc).live = true
      rw [hi, hself]
      rfl
    · show ((s.setState q .runnable).state s.initproc).live = true
      rw [hother _ hi]
      exact h.init.1
  · refine h.ledger_same (q := q) rfl rfl (fun r hr => ⟨hother r hr, rfl, rfl⟩)
      ?_ ?_
    · rw [hq]
      exact ProcState.noConfusion
    · rw [hself]
      exact ProcState.noConfusion

/-- An entry that holds no process and is nobody's parent. -/
theorem childless (h : Inv s) (hq : (s.state q).live = false) :
    s.Childless q := by
  intro x hx
  rw [h.live x q hx] at hq
  cases hq

/-- What is to be seen to when `p` changes the entry of `q`. -/
structure Accounted (s s' : WaitSystem P) (p q : P) : Prop where
  /-- Without `wait_lock` it gets no new parent and does not die. -/
  calm : (s.point p).holdsWait = false → s'.parent q = s.parent q ∧
    (s'.state q = .zombie → s.state q = .zombie)
  running : s'.state q = .running ↔ s.state q = .running
  used : s.state q = .used → (s.point p).forks = some q ∨
    s'.state q = .used ∧ (s'.parent q = s.parent q ∨ s.parent q = some p)
  forks : ∀ x, (s'.point p).forks = some x → (s.point p).forks = some x ∨
    s.state x ≠ .used
  live : ∀ r, s'.parent q = some r → (s'.state r).live = true
  parent : (s'.state q).live = true ∨ s.Childless q
  linked : s'.state q ≠ .unused → q ≠ s.initproc → s'.parent q = none →
    ∃ r, (s'.point r).unlinked = some q
  link : ∀ x, x ≠ q → (s.point p).unlinked = some x →
    (s'.point p).unlinked = some x
  unused : s'.state q = .unused → s'.parent q = none
  irrefl : s'.parent q ≠ some q
  inert : (s'.state q).live = false → (s'.point q).inert = true
  sleeping : s'.state q = .sleeping → s.state q = .sleeping ∧
    s'.chan q = s.chan q
  fall : ∀ addr, s'.point p ≠ .waitFall addr
  zombie : s'.state q = .zombie → s.state q = .zombie ∧
    ∀ r, s'.parent q = some r → s.parent q = some r ∨
      (s'.point p).WillWake r
  wake : ∀ r, ¬ (s.point p).WillWake r
  init : q ≠ s.initproc

theorem touch (h : Inv s) (hon : s.turn p = .on) (hne : q ≠ p)
    (ht : Touched s s' p q) (ha : Accounted s s' p q)
    (hlock : Matched s'.lock (Function.update s.held p ((s'.point p).held p)))
    (hwait : ∀ r, s'.waitLock = some r ↔ (s'.point r).holdsWait = true)
    (hknows : s'.Knows p (s'.point p))
    (hledger : ∀ e, s'.exits.count e = (s'.reaps.map Reap.exit).count e +
      if s'.IsZombie e then 1 else 0) : Inv s' := by
  have hrun : s'.state p = .running :=
    (ht.state p hne.symm).trans (h.state_on hon)
  have hsleeper : ∀ r, s'.Sleeper r → s.Sleeper r := by
    rintro r ⟨addr, hr⟩
    by_cases hrp : r = p
    · subst hrp
      rcases hr with hr | ⟨-, hr⟩
      · exact absurd hr (ha.fall addr)
      · rw [hrun] at hr
        cases hr
    · rcases ht.point r hrp with heq | ⟨-, hinert⟩
      · rw [heq] at hr
        refine ⟨addr, hr.imp id fun hr => ⟨hr.1, ?_⟩⟩
        by_cases hrq : r = q
        · subst hrq
          exact (ha.sleeping hr.2).1
        · rw [← ht.state r hrq]
          exact hr.2
      · have hspec := WaitPoint.inert_spec hinert
        rcases hr with hr | ⟨hr, -⟩
        · exact absurd hr (hspec.2.2.2.2.1 addr)
        · exact absurd hr (hspec.2.2.2.2.2 addr)
  have hmoved : Moved s s' p := by
    refine ⟨ht.init, ht.point, ?_, ?_, ha.forks⟩
    · intro hw
      obtain ⟨hparent, hzombie⟩ := ha.calm hw
      refine ⟨?_, ?_, hsleeper⟩
      · funext r
        by_cases hr : r = q
        · rw [hr, hparent]
        · exact ht.parent r hr
      · intro r hr
        by_cases hrq : r = q
        · subst hrq
          exact hzombie hr
        · rwa [ht.state r hrq] at hr
    · intro x hx hxp
      by_cases hxq : x = q
      · subst hxq
        exact (ha.used hx).resolve_left hxp
      · rw [ht.state x hxq, ht.parent x hxq]
        exact ⟨hx, Or.inl rfl⟩
  have hholds : ∀ r, r ≠ p → (s'.point r).held r = (s.point r).held r ∧
      (s'.point r).holdsWait = (s.point r).holdsWait := by
    intro r hr
    rcases ht.point r hr with heq | ⟨hi, hi'⟩
    · rw [heq]
      exact ⟨rfl, rfl⟩
    · have h₁ := WaitPoint.inert_spec hi
      have h₂ := WaitPoint.inert_spec hi'
      rw [h₁.1, h₂.1, h₁.2.1, h₂.2.1]
      exact ⟨rfl, rfl⟩
  refine ⟨?_, hwait, ?_, ?_, ?_, hmoved.knows h hknows, hmoved.forkers h, ?_,
    ?_, ?_, ?_, ?_, ?_, ?_, hledger⟩
  · convert hlock using 1
    funext r
    rw [Function.update_apply]
    split
    · rename_i hr
      rw [hr, held, ht.turn, hon]
    · rename_i hr
      rw [held, held, ht.turn, (hholds r hr).1]
  · intro r
    rw [ht.turn, h.running]
    by_cases hrq : r = q
    · rw [hrq, ha.running]
    · rw [ht.state r hrq]
  · intro r hr
    rw [ht.turn]
    by_cases hrp : r = p
    · rw [hrp]
      exact hon
    · rw [(hholds r hrp).1, (hholds r hrp).2] at hr
      exact h.busy r hr
  · intro r hr
    by_cases hrq : r = q
    · subst hrq
      exact ha.inert hr
    · have hrp : r ≠ p := by
        rintro rfl
        rw [hrun] at hr
        cases hr
      rw [ht.state r hrq] at hr
      rcases ht.point r hrp with heq | ⟨-, hi⟩
      · rw [heq]
        exact h.inert r hr
      · exact hi
  · intro x r hx
    by_cases hxq : x = q
    · subst hxq
      exact ha.live r hx
    · rw [ht.parent x hxq] at hx
      by_cases hrq : r = q
      · subst hrq
        exact ha.parent.resolve_right fun hno => hno x hx
      · rw [ht.state r hrq]
        exact h.live x r hx
  · intro x hx hne' hnone
    rw [ht.init] at hne'
    by_cases hxq : x = q
    · subst hxq
      exact ha.linked hx hne' hnone
    · rw [ht.state x hxq] at hx
      rw [ht.parent x hxq] at hnone
      obtain ⟨r, hr⟩ := h.linked x hx hne' hnone
      refine ⟨r, ?_⟩
      by_cases hrp : r = p
      · subst hrp
        exact ha.link x hxq hr
      · rcases ht.point r hrp with heq | ⟨hi, -⟩
        · rw [heq]
          exact hr
        · have := (WaitPoint.inert_spec hi).2.2.1
          rw [WaitPoint.forks_of_unlinked hr] at this
          cases this
  · intro x hx
    by_cases hxq : x = q
    · subst hxq
      exact ha.unused hx
    · rw [ht.state x hxq] at hx
      rw [ht.parent x hxq]
      exact h.unused x hx
  · intro x
    by_cases hxq : x = q
    · rw [hxq]
      exact ha.irrefl
    · rw [ht.parent x hxq]
      exact h.irrefl x
  · intro r addr hr hs
    have hrp : r ≠ p := by
      rintro rfl
      rw [hrun] at hs
      cases hs
    rcases ht.point r hrp with heq | ⟨-, hi⟩
    · rw [heq] at hr
      by_cases hrq : r = q
      · subst hrq
        obtain ⟨hs, hc⟩ := ha.sleeping hs
        rw [hc]
        exact h.chans r addr hr hs
      · rw [ht.state r hrq] at hs
        rw [ht.chan r hrq]
        exact h.chans r addr hr hs
    · exact absurd hr ((WaitPoint.inert_spec hi).2.2.2.2.2 addr)
  · intro r x hr hx hz
    have hold : s.parent x = some r ∧ s.state x = .zombie ∨
        (s'.point p).WillWake r := by
      by_cases hxq : x = q
      · subst hxq
        obtain ⟨hz, hparent⟩ := ha.zombie hz
        rcases hparent r hx with hp | hp
        · exact Or.inl ⟨hp, hz⟩
        · exact Or.inr hp
      · rw [ht.parent x hxq] at hx
        rw [ht.state x hxq] at hz
        exact Or.inl ⟨hx, hz⟩
    rcases hold with ⟨hx, hz⟩ | hw
    · obtain ⟨y, hy⟩ := h.sleepers r x (hsleeper r hr) hx hz
      have hyp : y ≠ p := by
        rintro rfl
        exact ha.wake r hy
      refine ⟨y, ?_⟩
      rcases ht.point y hyp with heq | ⟨hi, -⟩
      · rw [heq]
        exact hy
      · exact absurd hy ((WaitPoint.inert_spec hi).2.2.2.1 r)
    · exact ⟨p, hw⟩
  · rw [ht.init, ht.state _ ha.init.symm, ht.parent _ ha.init.symm]
    exact h.init

/-! ## Steps that hand over a CPU -/

/-- `p` gives up its CPU, or gets one: only its turn, its state, its channel
and its lock change. -/
theorem handOver (h : Inv s) (hinit : s'.initproc = s.initproc)
    (hpoint : s'.point = s.point) (hparent : s'.parent = s.parent)
    (hwaitLock : s'.waitLock = s.waitLock) (hexits : s'.exits = s.exits)
    (hreaps : s'.reaps = s.reaps) (hpid : s'.pid = s.pid)
    (hxstate : s'.xstate = s.xstate)
    (hturn : ∀ r, r ≠ p → s'.turn r = s.turn r)
    (hstate : ∀ r, r ≠ p → s'.state r = s.state r)
    (hchan : ∀ r, r ≠ p → s'.chan r = s.chan r)
    (hlock : Matched s'.lock s'.held)
    (hp : s'.state p = s.state p ∨
      (s.state p).live = true ∧ (s'.state p).live = true)
    (hrunning : s'.turn p = .on ∨ s'.turn p = .back ↔ s'.state p = .running)
    (hbusy : (s.point p).held p ≠ none ∨ (s.point p).holdsWait = true →
      s'.turn p = .on)
    (hsleep : ∀ addr, s.point p = .waitAgain addr → s'.state p = .sleeping →
      s.state p = .sleeping ∧ s'.chan p = s.chan p) : Inv s' := by
  have hlive : ∀ r, (s'.state r).live = (s.state r).live := by
    intro r
    by_cases hr : r = p
    · subst hr
      rcases hp with heq | ⟨h₁, h₂⟩
      · rw [heq]
      · rw [h₁, h₂]
    · rw [hstate r hr]
  -- states outside a process's life do not change
  have hdead : ∀ r, (s.state r).live = false ∨ (s'.state r).live = false →
      s'.state r = s.state r := by
    intro r hr
    rw [hlive, or_self] at hr
    by_cases hrp : r = p
    · subst hrp
      refine hp.resolve_right ?_
      rintro ⟨h₁, -⟩
      rw [hr] at h₁
      cases h₁
    · exact hstate r hrp
  have hsleeper : ∀ r, s'.Sleeper r → s.Sleeper r := by
    rintro r ⟨addr, hr⟩
    rw [hpoint] at hr
    refine ⟨addr, hr.imp id fun hr => ⟨hr.1, ?_⟩⟩
    by_cases hrp : r = p
    · subst hrp
      exact (hsleep addr hr.1 hr.2).1
    · rw [← hstate r hrp]
      exact hr.2
  have hcalm : Calm s s' := by
    refine ⟨hparent, fun r hr => ?_, hsleeper⟩
    rw [← hdead r (Or.inr (by rw [hr]; rfl))]
    exact hr
  refine ⟨hlock, ?_, ?_, ?_, ?_, ?_, ?_, ?_, ?_, ?_, ?_, ?_, ?_, ?_, ?_⟩
  · rw [hwaitLock, hpoint]
    exact h.wait
  · intro r
    by_cases hr : r = p
    · rw [hr]
      exact hrunning
    · rw [hturn r hr, hstate r hr]
      exact h.running r
  · intro r hr
    rw [hpoint] at hr
    by_cases hrp : r = p
    · subst hrp
      exact hbusy hr
    · rw [hturn r hrp]
      exact h.busy r hr
  · intro r hr
    rw [hlive] at hr
    rw [hpoint]
    exact h.inert r hr
  · intro r
    rw [hpoint]
    refine (h.knows r).frame hinit (fun _ => hcalm) fun q hq => ⟨?_, ?_⟩
    · exact hdead q (Or.inl (by rw [((h.knows r).forks hq).1]; rfl))
    · rw [hparent]
  · rw [hpoint]
    exact h.forkers
  · intro x r hx
    rw [hparent] at hx
    rw [hlive]
    exact h.live x r hx
  · intro x hx hne hnone
    rw [hinit] at hne
    rw [hparent] at hnone
    rw [hpoint]
    refine h.linked x ?_ hne hnone
    intro hun
    rw [hdead x (Or.inl (by rw [hun]; rfl))] at hx
    exact hx hun
  · intro x hx
    rw [hdead x (Or.inr (by rw [hx]; rfl))] at hx
    rw [hparent]
    exact h.unused x hx
  · rw [hparent]
    exact h.irrefl
  · intro r addr hr hs
    rw [hpoint] at hr
    by_cases hrp : r = p
    · subst hrp
      obtain ⟨hs, hc⟩ := hsleep addr hr hs
      rw [hc]
      exact h.chans r addr hr hs
    · rw [hstate r hrp] at hs
      rw [hchan r hrp]
      exact h.chans r addr hr hs
  · intro r x hr hx hz
    rw [hparent] at hx
    rw [hdead x (Or.inr (by rw [hz]; rfl))] at hz
    rw [hpoint]
    exact h.sleepers r x (hsleeper r hr) hx hz
  · rw [hinit, hlive, hparent]
    exact h.init
  · intro e
    have hiff : s'.IsZombie e ↔ s.IsZombie e := by
      unfold IsZombie
      rw [hpid, hxstate]
      refine and_congr_left fun _ => ⟨fun hz => ?_, fun hz => ?_⟩
      · rw [← hdead _ (Or.inr (by rw [hz]; rfl))]
        exact hz
      · rw [hdead _ (Or.inl (by rw [hz]; rfl))]
        exact hz
    rw [hexits, hreaps, h.ledger e, if_congr hiff rfl rfl]

end Inv

end WaitSystem

end Xv6.Proc
