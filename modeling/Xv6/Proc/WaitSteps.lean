import Xv6.Proc.WaitInv

/-!
# The steps of fork, exit and wait

Each step that changes the table keeps the invariant: `allocproc` and the
failure path of `kfork`, the two critical sections that publish a child,
`reparent`, the death of a process, the reaping of a child, and the steps in
which a process gives up its CPU or gets one.
-/

namespace Xv6.Proc.WaitSystem.Inv

open Framework

variable {P : Type} [DecidableEq P] {s s' : WaitSystem P} {p q : P}

theorem ne_of_dead (h : Inv s) (hon : s.turn p = .on)
    (hq : (s.state q).live = false) : q ≠ p := by
  rintro rfl
  rw [h.state_on hon] at hq
  cases hq

theorem ne_init (h : Inv s) (hq : (s.state q).live = false) :
    q ≠ s.initproc := by
  rintro rfl
  rw [h.init.1] at hq
  cases hq

omit [DecidableEq P] in
theorem held_on (hon : s.turn p = .on) : s.held p = (s.point p).held p := by
  rw [held, hon]

variable {pt : WaitPoint P}

/-- The lock that `p` holds stays the same. -/
theorem lock_keep (h : Inv s) (hon : s.turn p = .on)
    (hpt : pt.held p = (s.point p).held p) :
    Matched s.lock (Function.update s.held p (pt.held p)) := by
  rw [hpt, ← held_on hon, Function.update_eq_self]
  exact h.locks

theorem lock_acquire (h : Inv s) (hon : s.turn p = .on)
    (hfree : s.lock q = none) (hnone : (s.point p).held p = none)
    (hpt : pt.held p = some q) :
    Matched (Function.update s.lock q (some p))
      (Function.update s.held p (pt.held p)) := by
  rw [hpt]
  exact h.locks.acquire hfree (by rw [held_on hon, hnone])

theorem lock_release (h : Inv s) (hon : s.turn p = .on)
    (hheld : (s.point p).held p = some q) (hpt : pt.held p = none) :
    Matched (Function.update s.lock q none)
      (Function.update s.held p (pt.held p)) := by
  rw [hpt]
  exact h.locks.release (by rw [held_on hon, hheld])

/-! ## `kfork` -/

/-- What a step of `kfork` on the entry it works on has to see to. -/
theorem accounted_fork (h : Inv s) (hon : s.turn p = .on)
    (hdead : (s.state q).live = false) (ht : Touched s s' p q)
    (hnew : s'.state q = .used ∨ s'.state q = .unused ∨
      s'.state q = .runnable)
    (hcalm : (s.point p).holdsWait = true ∨ s'.parent q = s.parent q)
    (hused : s.state q = .used → (s.point p).forks = some q)
    (hforks : ∀ x, (s'.point p).forks = some x →
      (s.point p).forks = some x ∨ s.state x ≠ .used)
    (hparent : s'.parent q = some p ∨ s'.parent q = none ∧
      (s'.state q = .unused ∨ (s'.point p).unlinked = some q))
    (hunused : s'.state q = .unused → s'.parent q = none)
    (hlink : ∀ x, x ≠ q → (s.point p).unlinked ≠ some x)
    (hinert : (s'.point q).inert = true)
    (hfall : ∀ addr, s'.point p ≠ .waitFall addr)
    (hwake : ∀ r, ¬ (s.point p).WillWake r) : Accounted s s' p q := by
  have hne := h.ne_of_dead hon hdead
  have hrun : s'.state p = .running :=
    (ht.state p hne.symm).trans (h.state_on hon)
  have hnot : ∀ st, st ≠ .used → st ≠ .unused → st ≠ .runnable →
      s'.state q ≠ st := by
    rintro st h₁ h₂ h₃ rfl
    rcases hnew with h | h | h
    · exact h₁ h
    · exact h₂ h
    · exact h₃ h
  constructor
  · intro hw
    refine ⟨hcalm.resolve_left (by rw [hw]; nofun), fun hz => ?_⟩
    exact absurd hz (hnot _ nofun nofun nofun)
  · refine iff_of_false (hnot _ nofun nofun nofun) fun hr => ?_
    rw [hr] at hdead
    cases hdead
  · exact fun hu => Or.inl (hused hu)
  · exact hforks
  · intro r hr
    rcases hparent with hp | ⟨hp, -⟩
    · rw [hp] at hr
      cases hr
      rw [hrun]
      rfl
    · rw [hp] at hr
      cases hr
  · exact Or.inr (h.childless hdead)
  · intro hun _ hnone
    rcases hparent with hp | ⟨-, hp⟩
    · rw [hp] at hnone
      cases hnone
    · exact ⟨p, hp.resolve_left hun⟩
  · exact fun x hx hxp => absurd hxp (hlink x hx)
  · exact hunused
  · intro hq
    rcases hparent with hp | ⟨hp, -⟩
    · rw [hp] at hq
      exact hne (Option.some.inj hq).symm
    · rw [hp] at hq
      cases hq
  · exact fun _ => hinert
  · exact fun hs => absurd hs (hnot _ nofun nofun nofun)
  · exact hfall
  · exact fun hz => absurd hz (hnot _ nofun nofun nofun)
  · exact hwake
  · exact h.ne_init hdead

variable {rest : List P}

/-- `allocproc` takes an entry. -/
theorem allocproc (h : Inv s) (hon : s.turn p = .on)
    (hpt : s.point p = .forkLook q rest) (hq : s.state q = .unused) :
    Inv ((s.allocproc q).setPoint p (.forkCopy q)) := by
  have hdead : (s.state q).live = false := by rw [hq]; rfl
  have hne := h.ne_of_dead hon hdead
  generalize hs' : (s.allocproc q).setPoint p (.forkCopy q) = s'
  have hself : s'.point p = .forkCopy q := by
    rw [← hs']
    exact Function.update_self ..
  have hpoint : ∀ r, r ≠ p → s'.point r =
      Function.update s.point q (.returned 0) r := by
    intro r hr
    rw [← hs']
    exact Function.update_of_ne hr ..
  have hat : s'.point q = .returned 0 := by
    rw [hpoint q hne, Function.update_self]
  have hused : s'.state q = .used := by
    rw [← hs']
    exact Function.update_self ..
  have hparent : s'.parent = s.parent := by rw [← hs']; rfl
  have hnone : s'.parent q = none := by rw [hparent, h.unused q hq]
  have ht : Touched s s' p q := by
    refine ⟨by rw [← hs']; rfl, by rw [← hs']; rfl, ?_, ?_, ?_, ?_⟩
    · intro r hr
      by_cases hrq : r = q
      · subst hrq
        rw [hat]
        exact Or.inr ⟨h.inert r hdead, rfl⟩
      · exact Or.inl (by rw [hpoint r hr, Function.update_of_ne hrq])
    · intro r hr
      rw [← hs']
      exact Function.update_of_ne hr ..
    · exact fun r _ => by rw [hparent]
    · exact fun r _ => by rw [← hs']; rfl
  refine h.touch hon hne ht ?_ ?_ ?_ ?_ ?_
  · refine h.accounted_fork hon hdead ht (Or.inl hused)
      (Or.inr (by rw [hparent])) ?_ ?_ (Or.inr ⟨hnone, Or.inr ?_⟩)
      (fun _ => hnone) ?_ ?_ ?_ ?_
    · intro hu
      rw [hq] at hu
      cases hu
    · intro x hx
      rw [hself] at hx
      cases hx
      exact Or.inr (by rw [hq]; nofun)
    · rw [hself]
      rfl
    · rw [hpt]
      exact nofun
    · rw [hat]
      rfl
    · rw [hself]
      exact nofun
    · rw [hpt]
      exact fun _ => id
  · rw [hself, show s'.lock = s.lock by rw [← hs']; rfl]
    exact h.lock_keep hon (by rw [hpt]; rfl)
  · intro r
    rw [show s'.waitLock = s.waitLock by rw [← hs']; rfl, h.wait]
    by_cases hrp : r = p
    · rw [hrp, hself, hpt]
      rfl
    · by_cases hrq : r = q
      · rw [hrq, hat, (WaitPoint.inert_spec (h.inert q hdead)).2.1]
        rfl
      · rw [hpoint r hrp, Function.update_of_ne hrq]
  · rw [hself]
    exact ⟨hused, hnone⟩
  · refine h.ledger_same (q := q) (by rw [← hs']; rfl) (by rw [← hs']; rfl) ?_
      (by rw [hq]; nofun) (by rw [hused]; nofun)
    intro r hr
    refine ⟨ht.state r hr, ?_, by rw [← hs']; rfl⟩
    rw [← hs']
    exact Function.update_of_ne hr ..

/-- `kfork` runs out of memory and gives the entry back. -/
theorem unfork (h : Inv s) (hon : s.turn p = .on)
    (hpt : s.point p = .forkCopy q) :
    Inv ((s.freeproc q).release p q (.returned (-1))) := by
  have hk := h.knows p
  rw [hpt] at hk
  obtain ⟨hq, hnone⟩ := hk
  have hdead : (s.state q).live = false := by rw [hq]; rfl
  have hne := h.ne_of_dead hon hdead
  generalize hs' : (s.freeproc q).release p q (.returned (-1)) = s'
  have hpoint : s'.point = Function.update s.point p (.returned (-1)) := by
    rw [← hs']
    rfl
  have hself : s'.point p = .returned (-1) := by
    rw [hpoint, Function.update_self]
  have hother : ∀ r, r ≠ p → s'.point r = s.point r := by
    intro r hr
    rw [hpoint, Function.update_of_ne hr]
  have hun : s'.state q = .unused := by
    rw [← hs']
    exact Function.update_self ..
  have hnone' : s'.parent q = none := by
    rw [← hs']
    exact Function.update_self ..
  have ht : Touched s s' p q := by
    refine ⟨by rw [← hs']; rfl, by rw [← hs']; rfl,
      fun r hr => Or.inl (hother r hr), ?_, ?_, ?_⟩ <;>
    · intro r hr
      rw [← hs']
      exact Function.update_of_ne hr ..
  refine h.touch hon hne ht ?_ ?_ ?_ ?_ ?_
  · refine h.accounted_fork hon hdead ht (Or.inr (Or.inl hun))
      (Or.inr (by rw [hnone, hnone'])) ?_ ?_ (Or.inr ⟨hnone', Or.inl hun⟩)
      (fun _ => hnone') ?_ ?_ ?_ ?_
    · exact fun _ => by rw [hpt]; rfl
    · rw [hself]
      exact nofun
    · rw [hpt]
      exact fun x hx hxp => hx (Option.some.inj hxp).symm
    · rw [hother q hne]
      exact h.inert q hdead
    · rw [hself]
      exact nofun
    · rw [hpt]
      exact fun _ => id
  · rw [hself, show s'.lock = Function.update s.lock q none by rw [← hs']; rfl]
    exact h.lock_release hon (by rw [hpt]; rfl) rfl
  · exact h.wait_same (by rw [← hs']; rfl) hpoint (by rw [hpt]; rfl)
  · rw [hself]
    trivial
  · refine h.ledger_same (q := q) (by rw [← hs']; rfl) (by rw [← hs']; rfl) ?_
      (by rw [hq]; nofun) (by rw [hun]; nofun)
    intro r hr
    rw [← hs']
    exact ⟨Function.update_of_ne hr .., Function.update_of_ne hr ..,
      Function.update_of_ne hr ..⟩

/-- `np->parent = p`, under `wait_lock`. -/
theorem link (h : Inv s) (hon : s.turn p = .on)
    (hpt : s.point p = .forkParent q) :
    Inv ((s.setParent q (some p)).releaseWait p (.forkReady q)) := by
  have hk := h.knows p
  rw [hpt] at hk
  obtain ⟨hq, -⟩ := hk
  have hdead : (s.state q).live = false := by rw [hq]; rfl
  have hne := h.ne_of_dead hon hdead
  generalize hs' : (s.setParent q (some p)).releaseWait p (.forkReady q) = s'
  have hpoint : s'.point = Function.update s.point p (.forkReady q) := by
    rw [← hs']
    rfl
  have hself : s'.point p = .forkReady q := by
    rw [hpoint, Function.update_self]
  have hother : ∀ r, r ≠ p → s'.point r = s.point r := by
    intro r hr
    rw [hpoint, Function.update_of_ne hr]
  have hstate : s'.state = s.state := by rw [← hs']; rfl
  have hparent : s'.parent q = some p := by
    rw [← hs']
    exact Function.update_self ..
  have ht : Touched s s' p q := by
    refine ⟨by rw [← hs']; rfl, by rw [← hs']; rfl,
      fun r hr => Or.inl (hother r hr), fun r _ => by rw [hstate], ?_,
      fun r _ => by rw [← hs']; rfl⟩
    intro r hr
    rw [← hs']
    exact Function.update_of_ne hr ..
  refine h.touch hon hne ht ?_ ?_ ?_ ?_ ?_
  · refine h.accounted_fork hon hdead ht (Or.inl (by rw [hstate, hq]))
      (Or.inl (by rw [hpt]; rfl)) ?_ ?_ (Or.inl hparent) ?_ ?_ ?_ ?_ ?_
    · exact fun _ => by rw [hpt]; rfl
    · rw [hself, hpt]
      exact fun x hx => Or.inl hx
    · intro hun
      rw [hstate, hq] at hun
      cases hun
    · rw [hpt]
      exact fun x hx hxp => hx (Option.some.inj hxp).symm
    · rw [hother q hne]
      exact h.inert q hdead
    · rw [hself]
      exact nofun
    · rw [hpt]
      exact fun _ => id
  · rw [hself, show s'.lock = s.lock by rw [← hs']; rfl]
    exact h.lock_keep hon (by rw [hpt]; rfl)
  · exact h.wait_release (by rw [hpt]; rfl) (by rw [← hs']; rfl) hpoint rfl
  · rw [hself]
    exact ⟨by rw [hstate, hq], hparent⟩
  · refine h.ledger_same (q := q) (by rw [← hs']; rfl) (by rw [← hs']; rfl) ?_
      (by rw [hq]; nofun) (by rw [hstate, hq]; nofun)
    intro r _
    rw [← hs']
    exact ⟨rfl, rfl, rfl⟩

/-- `np->state = RUNNABLE`. -/
theorem ready (h : Inv s) (hon : s.turn p = .on)
    (hpt : s.point p = .forkRunnable q) (r : Int32) :
    Inv ((s.setState q .runnable).release p q (.returned r)) := by
  have hk := h.knows p
  rw [hpt] at hk
  obtain ⟨hq, hparent⟩ := hk
  have hdead : (s.state q).live = false := by rw [hq]; rfl
  have hne := h.ne_of_dead hon hdead
  generalize hs' : (s.setState q .runnable).release p q (.returned r) = s'
  have hpoint : s'.point = Function.update s.point p (.returned r) := by
    rw [← hs']
    rfl
  have hself : s'.point p = .returned r := by
    rw [hpoint, Function.update_self]
  have hstate : s'.state q = .runnable := by
    rw [← hs']
    exact Function.update_self ..
  have hparent' : s'.parent = s.parent := by rw [← hs']; rfl
  have ht : Touched s s' p q := by
    refine ⟨by rw [← hs']; rfl, by rw [← hs']; rfl, ?_, ?_,
      fun r _ => by rw [hparent'], fun r _ => by rw [← hs']; rfl⟩
    · intro r hr
      exact Or.inl (by rw [hpoint, Function.update_of_ne hr])
    · intro r hr
      rw [← hs']
      exact Function.update_of_ne hr ..
  refine h.touch hon hne ht ?_ ?_ ?_ ?_ ?_
  · refine h.accounted_fork hon hdead ht (Or.inr (Or.inr hstate))
      (Or.inr (by rw [hparent'])) ?_ ?_ (Or.inl (by rw [hparent', hparent]))
      ?_ ?_ ?_ ?_ ?_
    · exact fun _ => by rw [hpt]; rfl
    · rw [hself]
      exact nofun
    · intro hun
      rw [hstate] at hun
      cases hun
    · rw [hpt]
      exact nofun
    · rw [hpoint, Function.update_of_ne hne]
      exact h.inert q hdead
    · rw [hself]
      exact nofun
    · rw [hpt]
      exact fun _ => id
  · rw [hself, show s'.lock = Function.update s.lock q none by rw [← hs']; rfl]
    exact h.lock_release hon (by rw [hpt]; rfl) rfl
  · exact h.wait_same (by rw [← hs']; rfl) hpoint (by rw [hpt]; rfl)
  · rw [hself]
    trivial
  · refine h.ledger_same (q := q) (by rw [← hs']; rfl) (by rw [← hs']; rfl) ?_
      (by rw [hq]; nofun) (by rw [hstate]; nofun)
    intro x hx
    exact ⟨ht.state x hx, by rw [← hs']; rfl, by rw [← hs']; rfl⟩

/-! ## `kexit` -/

/-- `reparent` gives a child of `p` to `initproc`, which it is about to
wake. -/
theorem adopt {table : List P} {status : Int32} (h : Inv s)
    (htable : s.initproc ∈ table) (hon : s.turn p = .on)
    (hpt : s.point p = .reparent status (q :: rest))
    (hchild : s.parent q = some p) :
    Inv ((s.setParent q (some s.initproc)).setPoint p
      (.wake (some s.initproc) table (.reparent status rest))) := by
  have hk := h.knows p
  rw [hpt] at hk
  obtain ⟨hpi, hkids⟩ := hk
  have hne : q ≠ p := by
    rintro rfl
    exact h.irrefl q hchild
  have hqi : q ≠ s.initproc := by
    rintro rfl
    rw [h.init.2] at hchild
    cases hchild
  generalize hs' : (s.setParent q (some s.initproc)).setPoint p
    (.wake (some s.initproc) table (.reparent status rest)) = s'
  have hpoint : s'.point = Function.update s.point p
      (.wake (some s.initproc) table (.reparent status rest)) := by
    rw [← hs']
    rfl
  have hself : s'.point p =
      .wake (some s.initproc) table (.reparent status rest) := by
    rw [hpoint, Function.update_self]
  have hother : ∀ r, r ≠ p → s'.point r = s.point r := by
    intro r hr
    rw [hpoint, Function.update_of_ne hr]
  have hstate : s'.state = s.state := by rw [← hs']; rfl
  have hparent : s'.parent q = some s.initproc := by
    rw [← hs']
    exact Function.update_self ..
  have ht : Touched s s' p q := by
    refine ⟨by rw [← hs']; rfl, by rw [← hs']; rfl,
      fun r hr => Or.inl (hother r hr), fun r _ => by rw [hstate], ?_,
      fun r _ => by rw [← hs']; rfl⟩
    intro r hr
    rw [← hs']
    exact Function.update_of_ne hr ..
  refine h.touch hon hne ht ?_ ?_ ?_ ?_ ?_
  · constructor
    · rw [hpt]
      exact nofun
    · rw [hstate]
    · exact fun hu => Or.inr ⟨by rw [hstate, hu], Or.inr hchild⟩
    · rw [hself]
      exact nofun
    · intro r hr
      rw [hparent] at hr
      cases hr
      rw [hstate]
      exact h.init.1
    · cases hlive : (s.state q).live with
      | true => exact Or.inl (by rw [hstate, hlive])
      | false => exact Or.inr (h.childless hlive)
    · intro _ _ hnone
      rw [hparent] at hnone
      cases hnone
    · rw [hpt]
      exact nofun
    · intro hun
      rw [hstate] at hun
      rw [h.unused q hun] at hchild
      cases hchild
    · rw [hparent]
      exact fun heq => hqi (Option.some.inj heq).symm
    · rw [hstate, hother q hne]
      exact h.inert q
    · rw [hstate]
      exact fun hs => ⟨hs, by rw [← hs']; rfl⟩
    · rw [hself]
      exact nofun
    · rw [hstate]
      refine fun hz => ⟨hz, fun r hr => Or.inr ?_⟩
      rw [hparent] at hr
      cases hr
      rw [hself]
      exact ⟨rfl, htable⟩
    · rw [hpt]
      exact fun _ => id
    · exact hqi
  · rw [hself, show s'.lock = s.lock by rw [← hs']; rfl]
    exact h.lock_keep hon (by rw [hpt]; rfl)
  · exact h.wait_same (by rw [← hs']; rfl) hpoint (by rw [hpt]; rfl)
  · rw [hself]
    refine ⟨by rw [ht.init]; exact hpi, fun x hx => ?_⟩
    by_cases hxq : x = q
    · subst hxq
      rw [hparent] at hx
      exact absurd (Option.some.inj hx).symm hpi
    · rw [ht.parent x hxq] at hx
      exact (List.mem_cons.mp (hkids x hx)).resolve_left hxq
  · intro e
    have hiff : s'.IsZombie e ↔ s.IsZombie e := by
      rw [← hs']
      exact Iff.rfl
    rw [show s'.exits = s.exits by rw [← hs']; rfl,
      show s'.reaps = s.reaps by rw [← hs']; rfl, h.ledger e,
      if_congr hiff rfl rfl]

/-- A step in which `p` leaves its CPU with its own lock held, to be woken
later or never. -/
structure Leaving (s s' : WaitSystem P) (p : P) (pt : WaitPoint P) : Prop where
  init : s'.initproc = s.initproc
  lock : s'.lock = s.lock
  point : s'.point = Function.update s.point p pt
  turn : s'.turn = Function.update s.turn p .left
  parent : s'.parent = s.parent
  state : ∀ r, r ≠ p → s'.state r = s.state r
  chan : ∀ r, r ≠ p → s'.chan r = s.chan r
  held : (s.point p).held p = some p
  unlinked : (s.point p).unlinked = none
  wake : ∀ r, ¬ (s.point p).WillWake r
  rest : pt.held p = none ∧ pt.holdsWait = false ∧ pt.forks = none
  off : s'.state p ≠ .running ∧ s'.state p ≠ .unused
  gone : (s'.state p).live = true ∨
    pt.inert = true ∧ s.Childless p ∧ p ≠ s.initproc
  sleeper : ∀ r, s'.Sleeper r → s.Sleeper r
  calm : (s.point p).holdsWait = false → s'.state p ≠ .zombie
  zombie : s'.state p = .zombie → ∀ r, s.parent p = some r → ¬ s.Sleeper r
  chans : ∀ addr, pt = .waitAgain addr → s'.state p = .sleeping →
    s'.chan p = some (.proc p)

theorem leaving (h : Inv s) (hon : s.turn p = .on) (hl : Leaving s s' p pt)
    (hwait : ∀ r, s'.waitLock = some r ↔ (s'.point r).holdsWait = true)
    (hknows : s'.Knows p pt)
    (hledger : ∀ e, s'.exits.count e = (s'.reaps.map Reap.exit).count e +
      if s'.IsZombie e then 1 else 0) : Inv s' := by
  have hrun := h.state_on hon
  have hself : s'.point p = pt := by rw [hl.point, Function.update_self]
  have hother : ∀ r, r ≠ p → s'.point r = s.point r := by
    intro r hr
    rw [hl.point, Function.update_of_ne hr]
  have hturn : ∀ r, r ≠ p → s'.turn r = s.turn r := by
    intro r hr
    rw [hl.turn, Function.update_of_ne hr]
  have hleft : s'.turn p = .left := by rw [hl.turn, Function.update_self]
  have hmoved : Moved s s' p := by
    refine ⟨hl.init, fun r hr => Or.inl (hother r hr), ?_, ?_, ?_⟩
    · intro hno
      refine ⟨hl.parent, fun r hr => ?_, hl.sleeper⟩
      rw [← hl.state r]
      · exact hr
      · rintro rfl
        exact hl.calm hno hr
    · intro x hx _
      have hxp : x ≠ p := by
        rintro rfl
        rw [hrun] at hx
        cases hx
      rw [hl.state x hxp, hl.parent]
      exact ⟨hx, Or.inl rfl⟩
    · rw [hself, hl.rest.2.2]
      rintro q ⟨⟩
  refine ⟨?_, hwait, ?_, ?_, ?_, ?_, hmoved.forkers h, ?_, ?_, ?_, ?_, ?_, ?_,
    ?_, hledger⟩
  · rw [hl.lock, show s'.held = s.held from ?_]
    · exact h.locks
    · funext r
      by_cases hr : r = p
      · rw [hr, held_on hon, hl.held, held, hleft]
      · rw [held, held, hturn r hr, hother r hr]
  · intro r
    by_cases hr : r = p
    · rw [hr, hleft]
      exact iff_of_false (by simp) hl.off.1
    · rw [hturn r hr, hl.state r hr]
      exact h.running r
  · intro r hr
    by_cases hrp : r = p
    · rw [hrp, hself, hl.rest.1, hl.rest.2.1] at hr
      simp at hr
    · rw [hturn r hrp]
      rw [hother r hrp] at hr
      exact h.busy r hr
  · intro r hr
    by_cases hrp : r = p
    · rw [hrp] at hr ⊢
      rw [hself]
      rcases hl.gone with hlive | ⟨hinert, -⟩
      · rw [hlive] at hr
        cases hr
      · exact hinert
    · rw [hother r hrp]
      rw [hl.state r hrp] at hr
      exact h.inert r hr
  · exact hmoved.knows h (by rw [hself]; exact hknows)
  · intro x r hx
    rw [hl.parent] at hx
    by_cases hr : r = p
    · rw [hr] at hx ⊢
      exact hl.gone.resolve_right fun hgone => hgone.2.1 x hx
    · rw [hl.state r hr]
      exact h.live x r hx
  · intro x hx hne hnone
    rw [hl.init] at hne
    rw [hl.parent] at hnone
    have hx' : s.state x ≠ .unused := by
      by_cases hxp : x = p
      · rw [hxp, hrun]
        simp
      · rwa [hl.state x hxp] at hx
    obtain ⟨r, hr⟩ := h.linked x hx' hne hnone
    refine ⟨r, ?_⟩
    rw [hother r]
    · exact hr
    · rintro rfl
      rw [hl.unlinked] at hr
      cases hr
  · intro x hx
    have hxp : x ≠ p := by
      rintro rfl
      exact hl.off.2 hx
    rw [hl.state x hxp] at hx
    rw [hl.parent]
    exact h.unused x hx
  · rw [hl.parent]
    exact h.irrefl
  · intro r addr hr hs
    by_cases hrp : r = p
    · rw [hrp] at hr hs ⊢
      exact hl.chans addr (hself ▸ hr) hs
    · rw [hother r hrp] at hr
      rw [hl.state r hrp] at hs
      rw [hl.chan r hrp]
      exact h.chans r addr hr hs
  · intro r x hr hx hz
    rw [hl.parent] at hx
    have hxp : x ≠ p := by
      rintro rfl
      exact hl.zombie hz r hx (hl.sleeper r hr)
    rw [hl.state x hxp] at hz
    obtain ⟨y, hy⟩ := h.sleepers r x (hl.sleeper r hr) hx hz
    refine ⟨y, ?_⟩
    rw [hother y]
    · exact hy
    · rintro rfl
      exact hl.wake r hy
  · rw [hl.init, hl.parent]
    refine ⟨?_, h.init.2⟩
    by_cases hi : s.initproc = p
    · rw [hi]
      exact hl.gone.resolve_right fun hgone => hgone.2.2 hi.symm
    · rw [hl.state _ hi]
      exact h.init.1

/-- `p` becomes a `ZOMBIE`; its parent does not sleep. -/
theorem die {status : Int32} (h : Inv s) (hon : s.turn p = .on)
    (hpt : s.point p = .exitZombie status) : Inv (s.die p status) := by
  have hk := h.knows p
  rw [hpt] at hk
  obtain ⟨hpi, hless, hawake⟩ := hk
  have hrun := h.state_on hon
  generalize hs' : s.die p status = s'
  have hpoint : s'.point = Function.update s.point p .gone := by
    rw [← hs']
    rfl
  have hzombie : s'.state p = .zombie := by
    rw [← hs']
    exact Function.update_self ..
  have hstate : ∀ r, r ≠ p → s'.state r = s.state r := by
    intro r hr
    rw [← hs']
    exact Function.update_of_ne hr ..
  have hsleeper : ∀ r, s'.Sleeper r → s.Sleeper r := by
    rintro r ⟨addr, hr⟩
    have hrp : r ≠ p := by
      rintro rfl
      rw [hpoint, Function.update_self] at hr
      rcases hr with hr | ⟨hr, -⟩ <;> cases hr
    rw [hpoint, Function.update_of_ne hrp, hstate r hrp] at hr
    exact ⟨addr, hr⟩
  refine h.leaving hon ⟨by rw [← hs']; rfl, by rw [← hs']; rfl, hpoint,
    by rw [← hs']; rfl, by rw [← hs']; rfl, hstate, ?_, by rw [hpt]; rfl,
    by rw [hpt]; rfl, ?_, ⟨rfl, rfl, rfl⟩, ?_, Or.inr ⟨rfl, hless, hpi⟩,
    hsleeper, ?_, fun _ => hawake, ?_⟩
    (h.wait_release (by rw [hpt]; rfl) (by rw [← hs']; rfl) hpoint rfl) trivial
    ?_
  · intro r _
    rw [← hs']
    rfl
  · rw [hpt]
    exact fun _ => id
  · rw [hzombie]
    exact ⟨nofun, nofun⟩
  · rw [hpt]
    rintro ⟨⟩
  · rintro addr ⟨⟩
  · intro e
    rw [show s'.exits = ⟨p, s.pid p, status⟩ :: s.exits by rw [← hs']; rfl,
      show s'.reaps = s.reaps by rw [← hs']; rfl, List.count_cons, h.ledger e]
    have hpid : s'.pid = s.pid := by rw [← hs']; rfl
    have hx : s'.xstate p = status := by
      rw [← hs']
      exact Function.update_self ..
    by_cases hep : e.child = p
    · have hold : ¬ s.IsZombie e := by
        rintro ⟨hz, -⟩
        rw [hep, hrun] at hz
        cases hz
      rw [if_neg hold]
      by_cases heq : (⟨p, s.pid p, status⟩ : Exit P) = e
      · have hnew : s'.IsZombie e := by
          rw [← heq]
          exact ⟨hzombie, by rw [hpid], hx⟩
        rw [if_pos hnew, if_pos (by rw [heq]; exact beq_self_eq_true e)]
      · have hnew : ¬ s'.IsZombie e := by
          rintro ⟨-, h₂, h₃⟩
          rw [hep, hpid] at h₂
          rw [hep, hx] at h₃
          exact heq (by rw [h₂, h₃, ← hep])
        rw [if_neg hnew, if_neg (by rwa [beq_iff_eq])]
    · have hiff : s'.IsZombie e ↔ s.IsZombie e := by
        unfold IsZombie
        rw [hstate _ hep, hpid, show s'.xstate e.child = s.xstate e.child by
          rw [← hs']; exact Function.update_of_ne hep ..]
      have hother : ¬ ((⟨p, s.pid p, status⟩ : Exit P) == e) = true := by
        rw [beq_iff_eq]
        rintro rfl
        exact hep rfl
      rw [if_congr hiff rfl rfl, if_neg hother, Nat.add_zero]

/-! ## `kwait` -/

/-- `kwait` frees an exited child. -/
theorem reap {addr : UInt64} (h : Inv s) (hon : s.turn p = .on)
    (hpt : s.point p = .waitLook addr q rest) (hq : s.state q = .zombie) :
    Inv (s.reap p q addr) := by
  have hdead : (s.state q).live = false := by rw [hq]; rfl
  have hne := h.ne_of_dead hon hdead
  generalize hs' : s.reap p q addr = s'
  have hpoint : s'.point = Function.update s.point p
      (.returned (s.pid q)) := by
    rw [← hs']
    exact Function.update_idem ..
  have hself : s'.point p = .returned (s.pid q) := by
    rw [hpoint, Function.update_self]
  have hother : ∀ r, r ≠ p → s'.point r = s.point r := by
    intro r hr
    rw [hpoint, Function.update_of_ne hr]
  have hun : s'.state q = .unused := by
    rw [← hs']
    exact Function.update_self ..
  have hnone : s'.parent q = none := by
    rw [← hs']
    exact Function.update_self ..
  have ht : Touched s s' p q := by
    refine ⟨by rw [← hs']; rfl, by rw [← hs']; rfl,
      fun r hr => Or.inl (hother r hr), ?_, ?_, ?_⟩ <;>
    · intro r hr
      rw [← hs']
      exact Function.update_of_ne hr ..
  refine h.touch hon hne ht ?_ ?_ ?_ ?_ ?_
  · constructor
    · rw [hpt]
      exact nofun
    · rw [hun, hq]
      exact iff_of_false nofun nofun
    · intro hu
      rw [hq] at hu
      cases hu
    · rw [hself]
      exact nofun
    · rw [hnone]
      exact nofun
    · exact Or.inr (h.childless hdead)
    · exact fun hne' => absurd hun hne'
    · rw [hpt]
      exact nofun
    · exact fun _ => hnone
    · rw [hnone]
      exact nofun
    · intro _
      rw [hother q hne]
      exact h.inert q hdead
    · rw [hun]
      exact nofun
    · rw [hself]
      exact nofun
    · rw [hun]
      exact nofun
    · rw [hpt]
      exact fun _ => id
    · exact h.ne_init hdead
  · rw [hself, show s'.lock = Function.update s.lock q none by rw [← hs']; rfl]
    exact h.lock_release hon (by rw [hpt]; rfl) rfl
  · exact h.wait_release (by rw [hpt]; rfl) (by rw [← hs']; rfl) hpoint rfl
  · rw [hself]
    trivial
  · intro e
    rw [show s'.exits = s.exits by rw [← hs']; rfl, show s'.reaps =
      ⟨p, ⟨q, s.pid q, s.xstate q⟩, decide (addr ≠ 0)⟩ :: s.reaps by
        rw [← hs']; rfl, List.map_cons, List.count_cons, h.ledger e]
    by_cases heq : e.child = q
    · have hnew : ¬ s'.IsZombie e := by
        rintro ⟨hz, -⟩
        rw [heq, hun] at hz
        cases hz
      rw [if_neg hnew]
      by_cases he : (⟨q, s.pid q, s.xstate q⟩ : Exit P) = e
      · have hold : s.IsZombie e := by
          rw [← he]
          exact ⟨hq, rfl, rfl⟩
        rw [if_pos hold, if_pos (by rw [he]; exact beq_self_eq_true e)]
      · have hold : ¬ s.IsZombie e := by
          rintro ⟨-, h₂, h₃⟩
          rw [heq] at h₂ h₃
          exact he (by rw [h₂, h₃, ← heq])
        rw [if_neg hold, if_neg (by rwa [beq_iff_eq])]
    · have hiff : s'.IsZombie e ↔ s.IsZombie e := by
        unfold IsZombie
        rw [← hs']
        show Function.update _ q _ e.child = _ ∧
          Function.update _ q _ e.child = _ ∧
          Function.update _ q _ e.child = _ ↔ _
        rw [Function.update_of_ne heq, Function.update_of_ne heq,
          Function.update_of_ne heq]
      have hother : ¬ ((⟨q, s.pid q, s.xstate q⟩ : Exit P) == e) = true := by
        rw [beq_iff_eq]
        rintro rfl
        exact heq rfl
      rw [if_congr hiff rfl rfl, if_neg hother, Nat.add_zero]

/-- `sleep(p, &wait_lock)`: `p` is asleep. -/
theorem fall {addr : UInt64} (h : Inv s) (hon : s.turn p = .on)
    (hpt : s.point p = .waitFall addr) :
    Inv ((({ s with chan := Function.update s.chan p (some (.proc p)) }.setState
      p .sleeping).setPoint p (.waitAgain addr)).setTurn p .left) := by
  generalize hs' :
    (({ s with chan := Function.update s.chan p (some (.proc p)) }.setState p
      .sleeping).setPoint p (.waitAgain addr)).setTurn p .left = s'
  have hpoint : s'.point = Function.update s.point p (.waitAgain addr) := by
    rw [← hs']
    rfl
  have hasleep : s'.state p = .sleeping := by
    rw [← hs']
    exact Function.update_self ..
  have hstate : ∀ r, r ≠ p → s'.state r = s.state r := by
    intro r hr
    rw [← hs']
    exact Function.update_of_ne hr ..
  -- `p` was counted as a sleeper already, since it released `wait_lock`
  have hsleeper : ∀ r, s'.Sleeper r → s.Sleeper r := by
    rintro r ⟨a, hr⟩
    by_cases hrp : r = p
    · rw [hrp]
      exact ⟨addr, Or.inl hpt⟩
    · rw [hpoint, Function.update_of_ne hrp, hstate r hrp] at hr
      exact ⟨a, hr⟩
  have hnot : s'.state p ≠ .zombie := by
    rw [hasleep]
    exact nofun
  refine h.leaving hon ⟨by rw [← hs']; rfl, by rw [← hs']; rfl, hpoint,
    by rw [← hs']; rfl, by rw [← hs']; rfl, hstate, ?_, by rw [hpt]; rfl,
    by rw [hpt]; rfl, ?_, ⟨rfl, rfl, rfl⟩, ?_, Or.inl (by rw [hasleep]; rfl),
    hsleeper, fun _ => hnot, fun hz => absurd hz hnot, ?_⟩
    (h.wait_same (by rw [← hs']; rfl) hpoint (by rw [hpt]; rfl)) trivial ?_
  · intro r hr
    rw [← hs']
    exact Function.update_of_ne hr ..
  · rw [hpt]
    exact fun _ => id
  · rw [hasleep]
    exact ⟨nofun, nofun⟩
  · intro _ _ _
    rw [← hs']
    exact Function.update_self ..
  · refine h.ledger_same (q := p) (by rw [← hs']; rfl) (by rw [← hs']; rfl)
      (fun r hr => ⟨hstate r hr, by rw [← hs']; rfl, by rw [← hs']; rfl⟩) ?_
      hnot
    rw [h.state_on hon]
    exact nofun

/-! ## CPUs -/

/-- `yield`, and `sleep` on something else than a child. -/
theorem leave {st : ProcState} {chan : Option (Chan P)} (h : Inv s)
    (hon : s.turn p = .on) (hheld : (s.point p).held p = none)
    (hwait : (s.point p).holdsWait = false)
    (hst : st = .runnable ∨ st = .sleeping ∧ (s.point p).sleeps = true)
    (hleave : s.leave p st chan = .ok s') : Inv s' := by
  rw [WaitSystem.leave] at hleave
  split at hleave
  case isFalse => cases hleave
  case isTrue hfree =>
    injection hleave with hs'
    have hstate : s'.state p = st := by
      rw [← hs']
      exact Function.update_self ..
    have hturn : s'.turn = Function.update s.turn p .left := by
      rw [← hs']
      rfl
    refine h.handOver (p := p) (by rw [← hs']; rfl) (by rw [← hs']; rfl)
      (by rw [← hs']; rfl) (by rw [← hs']; rfl) (by rw [← hs']; rfl)
      (by rw [← hs']; rfl) (by rw [← hs']; rfl) (by rw [← hs']; rfl)
      ?_ ?_ ?_ ?_ ?_ ?_ ?_ ?_
    · intro r hr
      rw [hturn, Function.update_of_ne hr]
    · intro r hr
      rw [← hs']
      exact Function.update_of_ne hr ..
    · intro r hr
      rw [← hs']
      exact Function.update_of_ne hr ..
    · rw [show s'.lock = Function.update s.lock p (some p) by rw [← hs'],
        show s'.held = Function.update s.held p (some p) from ?_]
      · exact h.locks.acquire hfree (by rw [held_on hon, hheld])
      · funext r
        rw [held, hturn, show s'.point = s.point by rw [← hs']; rfl]
        by_cases hr : r = p
        · rw [hr, Function.update_self, Function.update_self]
        · rw [Function.update_of_ne hr, Function.update_of_ne hr, held]
    · rw [hstate, h.state_on hon]
      refine Or.inr ⟨rfl, ?_⟩
      rcases hst with rfl | ⟨rfl, -⟩ <;> rfl
    · rw [hstate, hturn, Function.update_self]
      rcases hst with rfl | ⟨rfl, -⟩ <;> simp
    · rintro (hno | hno)
      · exact absurd hheld hno
      · rw [hwait] at hno
        cases hno
    · intro addr hpt hs
      rw [hstate] at hs
      rcases hst with rfl | ⟨-, hsleeps⟩
      · cases hs
      · rw [hpt] at hsleeps
        cases hsleeps

/-- The scheduler releases the lock of the process that has left. -/
theorem swtch (h : Inv s) (hleft : s.turn p = .left) :
    Inv { s.setTurn p .off with lock := Function.update s.lock p none } := by
  have hnot : s.state p ≠ .running := by
    rw [Ne, ← h.running, hleft]
    simp
  refine h.handOver (p := p) rfl rfl rfl rfl rfl rfl rfl rfl
    (fun r hr => Function.update_of_ne hr ..) (fun _ _ => rfl)
    (fun _ _ => rfl) ?_ (Or.inl rfl) ?_ ?_ (fun _ _ hs => ⟨hs, rfl⟩)
  · convert h.locks.release (k := p) (by rw [held, hleft]) using 1
    funext r
    by_cases hr : r = p
    · rw [hr, Function.update_self, held]
      simp [setTurn]
    · rw [Function.update_of_ne hr, held, held]
      simp [setTurn, hr]
  · simp [setTurn, hnot]
  · intro hbusy
    rw [h.busy p hbusy] at hleft
    cases hleft

/-- A scheduler picks `p`. -/
theorem schedule (h : Inv s) (hstate : s.state p = .runnable)
    (hfree : s.lock p = none) :
    Inv { (s.setState p .running).setTurn p .back with
      lock := Function.update s.lock p (some p) } := by
  have hnot : ¬ (s.turn p = .on ∨ s.turn p = .back) := by
    rw [h.running, hstate]
    exact nofun
  have hheld : s.held p ≠ some p := by
    rw [Ne, ← h.locks p p, hfree]
    exact nofun
  -- the lock is free, so `p` is not on its way out either
  have hoff : s.turn p = .off := by
    cases hturn : s.turn p with
    | on => exact absurd (Or.inl hturn) hnot
    | back => exact absurd (Or.inr hturn) hnot
    | off => rfl
    | left =>
      rw [held, hturn] at hheld
      exact absurd rfl hheld
  refine h.handOver (p := p) rfl rfl rfl rfl rfl rfl rfl rfl
    (fun r hr => Function.update_of_ne hr ..)
    (fun r hr => Function.update_of_ne hr ..) (fun _ _ => rfl) ?_ ?_ ?_ ?_ ?_
  · convert h.locks.acquire (k := p) hfree (by rw [held, hoff]) using 1
    funext r
    by_cases hr : r = p
    · rw [hr, Function.update_self, held]
      simp [setTurn]
    · rw [Function.update_of_ne hr, held, held]
      simp [setTurn, setState, hr]
  · rw [hstate]
    refine Or.inr ⟨rfl, ?_⟩
    simp [setTurn, setState, ProcState.live]
  · simp [setTurn, setState]
  · intro hbusy
    rw [h.busy p hbusy] at hoff
    cases hoff
  · intro addr _ hs
    simp [setTurn, setState] at hs

/-- `p` is back and releases its own lock. -/
theorem resume (h : Inv s) (hback : s.turn p = .back) :
    Inv { s.setTurn p .on with
      lock := Function.update s.lock p none
      chan := Function.update s.chan p none } := by
  have hrun : s.state p = .running := (h.running p).mp (Or.inr hback)
  have hnone : (s.point p).held p = none := by
    by_contra hbusy
    rw [h.busy p (Or.inl hbusy)] at hback
    cases hback
  refine h.handOver (p := p) rfl rfl rfl rfl rfl rfl rfl rfl
    (fun r hr => Function.update_of_ne hr ..) (fun _ _ => rfl)
    (fun r hr => Function.update_of_ne hr ..) ?_ (Or.inl rfl) ?_ ?_ ?_
  · convert h.locks.release (k := p) (by rw [held, hback]) using 1
    funext r
    by_cases hr : r = p
    · rw [hr, Function.update_self, held]
      simp [setTurn, hnone]
    · rw [Function.update_of_ne hr, held, held]
      simp [setTurn, hr]
  · simp [setTurn, hrun]
  · exact fun _ => Function.update_self ..
  · intro addr _ hs
    have hs : s.state p = .sleeping := hs
    rw [hrun] at hs
    cases hs

end Xv6.Proc.WaitSystem.Inv
