import Xv6.Proc.Placement

/-!
# One CPU per process

A process whose thread is not off its CPU is on exactly one, a process in the
middle of a switch is protected by its lock, and `RUNNING` processes are those
between a switch to them and their call of `sched`. Every step keeps this, so
the table entry a scheduler picks or `freeproc` clears belongs to a process
that no CPU executes.
-/

namespace Xv6.Proc.System

open Framework

variable {P C : Type} [DecidableEq P] [DecidableEq C]

/-! ## What holds between any two steps -/

/-- The state of a process fits the point its thread is at. -/
def Fits (s : System P C) (p : P) : Prop :=
  match s.point p with
  | .free | .own _ | .resumed _ | .visiting _ _ => s.state p = .running
  | .sched w | .saved w => s.state p = w.left
  | .off w => (s.state p = .running ↔ ∃ c, s.cpu c = .switching p) ∧
      (w = some .kexit → s.state p = .zombie ∨ s.state p = .unused)

structure Inv (s : System P C) : Prop where
  placed : Placed s
  fits : ∀ p, s.Fits p
  np_used : ∀ p q, s.np p = some q → s.state q = .used
  np_inj : ∀ p p' q, s.np p = some q → s.np p' = some q → p = p'
  kfork : ∀ p q, s.point p = .visiting .kfork q →
    s.state q = .used ∧ ∀ p', s.np p' ≠ some q
  ready : ∀ p q, s.point p = .visiting .ready q → s.np p = some q

variable {s s' : System P C} {p : P}

omit [DecidableEq P] [DecidableEq C] in
theorem Fits.congr (h : s.Fits p) (hpoint : s'.point p = s.point p)
    (hstate : s'.state p = s.state p)
    (hcpu : ∀ c, s'.cpu c = .switching p ↔ s.cpu c = .switching p) :
    s'.Fits p := by
  unfold Fits at *
  rw [hpoint]
  simp only [hstate, hcpu]
  exact h

omit [DecidableEq C] in
theorem boot_inv (initproc : P) : Inv (boot initproc : System P C) where
  placed := by
    refine ⟨?_, ?_, ?_, ?_, ?_, fun _ => rfl⟩
    · intro p c
      constructor <;> intro h <;> cases h
    · intro p hp
      cases hp
    · intro c p hc
      cases hc
    · intro c c' p hc
      cases hc
    · intro c p hc
      cases hc
  fits := by
    intro p
    refine ⟨⟨?_, ?_⟩, fun hw => by cases hw⟩
    · intro hrun
      simp only [boot, Function.update_apply] at hrun
      split at hrun <;> cases hrun
    · rintro ⟨c, hc⟩
      cases hc
  np_used := fun p q h => by cases h
  np_inj := fun p p' q h => by cases h
  kfork := fun p q h => by cases h
  ready := fun p q h => by cases h

variable {v : Visit}

namespace Inv

variable {s s' : System P C} {c : C} {p q : P}

omit [DecidableEq P] [DecidableEq C] in
/-- A thread that holds somebody's lock, or none, is `RUNNING`. -/
theorem running (h : Inv s)
    (hpt : s.point p = .free ∨ ∃ v q, s.point p = .visiting v q) :
    s.state p = .running := by
  have hfits := h.fits p
  unfold Fits at hfits
  rcases hpt with hpt | ⟨v, q, hpt⟩ <;> rw [hpt] at hfits <;> exact hfits

omit [DecidableEq P] [DecidableEq C] in
/-- An entry whose lock a CPU holds that does not execute its thread, and
that is not `RUNNING`, belongs to a thread that is on no CPU. -/
theorem off (h : Inv s) (hheld : (s.cpu c).held s.point = some q)
    (hthread : (s.cpu c).thread ≠ some q) (hstate : s.state q ≠ .running) :
    ∃ w, s.point q = .off w := by
  have hfits := h.fits q
  have hlocked : (s.point q).away = false → (s.point q).held q ≠ some q := by
    intro haway hq
    obtain ⟨c', hc'⟩ := h.placed.here q haway
    have hon := CpuPoint.eq_on hc'
    have : c' = c := h.placed.lock.unique (i := q) (by rw [hon]; exact hq) hheld
    exact hthread (this ▸ hc')
  unfold Fits at hfits
  cases hpt : s.point q with
  | off w => exact ⟨w, rfl⟩
  | free | own | resumed | visiting =>
    rw [hpt] at hfits
    exact absurd hfits hstate
  | sched | saved =>
    rw [hpt] at hlocked
    exact absurd rfl (hlocked rfl)

omit [DecidableEq P] [DecidableEq C] in
/-- Nobody executes such a thread. -/
theorem not_on (h : Inv s) (hheld : (s.cpu c).held s.point = some q)
    (hthread : (s.cpu c).thread ≠ some q) (hstate : s.state q ≠ .running)
    (c' : C) : s.cpu c' ≠ .on q := by
  intro hc'
  obtain ⟨w, hw⟩ := h.off hheld hthread hstate
  have := h.placed.on c' q (by rw [hc']; rfl)
  rw [hw] at this
  cases this

omit [DecidableEq P] [DecidableEq C] in
/-- A step that changes no state of a process. -/
theorem same (h : Inv s) (hp : Placed s') (hstate : s'.state = s.state)
    (hnp : s'.np = s.np)
    (hcpu : ∀ c r, s'.cpu c = .switching r ↔ s.cpu c = .switching r)
    (hpoint : ∀ r, s'.point r = s.point r ∨ s'.Fits r ∧
      (∀ q, s'.point r ≠ .visiting .kfork q) ∧
      ∀ q, s'.point r = .visiting .ready q → s.np r = some q) : Inv s' where
  placed := hp
  fits := by
    intro r
    rcases hpoint r with heq | hfits
    · exact (h.fits r).congr heq (by rw [hstate]) fun c => hcpu c r
    · exact hfits.1
  np_used := by
    rw [hnp, hstate]
    exact h.np_used
  np_inj := by
    rw [hnp]
    exact h.np_inj
  kfork := by
    intro r q hr
    rcases hpoint r with heq | ⟨-, hne, -⟩
    · rw [hnp, hstate]
      exact h.kfork r q (heq ▸ hr)
    · exact absurd hr (hne q)
  ready := by
    intro r q hr
    rw [hnp]
    rcases hpoint r with heq | ⟨-, -, hready⟩
    · exact h.ready r q (heq ▸ hr)
    · exact hready q hr

/-! ## The steps of a scheduler -/

/-- The scheduler, or a handler that interrupted it, acquires a lock. -/
theorem look {x : CpuPoint P} (h : Inv s) (hc : s.cpu c = .scan)
    (hfree : s.lock q = none)
    (hx : x = .locked q ∨ ∃ chan, x = .interrupted chan q) :
    Inv ({ s with lock := Function.update s.lock q (some c) }.setCpu c x) := by
  have hheld : x.held s.point = some q := by
    rcases hx with rfl | ⟨chan, rfl⟩ <;> rfl
  have hnone : x.thread = none ∧ x.passing = none ∧ x.proc = none := by
    rcases hx with rfl | ⟨chan, rfl⟩ <;> exact ⟨rfl, rfl, rfl⟩
  refine h.same (h.placed.scheduler (c := c) x ?_ hnone.1 ?_ ?_ rfl rfl
    ?_) rfl rfl ?_ fun _ => Or.inl rfl
  · rw [hc]
    rfl
  · intro p hp
    rw [hnone.2.1] at hp
    cases hp
  · rw [hheld]
    exact h.placed.lock.acquire hfree (by rw [hc]; rfl)
  · rw [hnone.2.2]
    refine (Function.update_eq_self_iff.mpr ?_).symm
    show none = s.proc c
    rw [h.placed.proc, hc]
    rfl
  · intro c' r
    simp only [setCpu, Function.update_apply]
    split
    · rename_i heq
      rw [heq, hc]
      rcases hx with rfl | ⟨chan, rfl⟩ <;> simp
    · rfl

/-- The scheduler gives up a lock and goes on with its scan. -/
theorem scan (h : Inv s) (hheld : (s.cpu c).held s.point = some q)
    (hthread : (s.cpu c).thread = none)
    (hpass : ∀ r, s.cpu c ≠ .switching r) :
    Inv (((s.setProc c none).release q).setCpu c .scan) := by
  refine h.same (h.placed.scheduler (c := c) .scan hthread rfl ?_ ?_ rfl
    rfl rfl) rfl rfl ?_ fun _ => Or.inl rfl
  · intro p hp
    cases hp
  · exact h.placed.lock.release hheld
  · intro c' r
    simp only [setCpu, release, setProc, Function.update_apply]
    split
    · rename_i heq
      rw [heq]
      constructor
      · intro hr
        cases hr
      · intro hr
        exact absurd hr (hpass r)
    · rfl

omit [DecidableEq P] in
theorem setProc_none (h : Inv s) (hproc : (s.cpu c).proc = none) :
    s.setProc c none = s := by
  have : Function.update s.proc c none = s.proc :=
    Function.update_eq_self_iff.mpr ((h.placed.proc c).trans hproc).symm
  rw [setProc, this]

/-- The scheduler picks a process. -/
theorem pick (h : Inv s) (hc : s.cpu c = .locked p)
    (hstate : s.state p = .runnable) :
    Inv (((s.setState p .running).setProc c (some p)).setCpu c
      (.switching p)) := by
  have hheld : (s.cpu c).held s.point = some p := by rw [hc]; rfl
  obtain ⟨w, hw⟩ := h.off hheld (by rw [hc]; exact nofun)
    (by rw [hstate]; exact ProcState.noConfusion)
  have hfits := h.fits p
  rw [Fits, hw, hstate] at hfits
  have hused : ∀ q, s.state q = .used → q ≠ p := by
    rintro q hq rfl
    rw [hstate] at hq
    cases hq
  constructor
  · refine h.placed.scheduler (c := c) (.switching p) (by rw [hc]; rfl) rfl
      ?_ ?_ rfl rfl rfl
    · intro r hr
      cases hr
      rw [hw]
      rfl
    · rw [show CpuPoint.held s.point (.switching p) = some p from rfl,
        Function.update_eq_self_iff.mpr hheld.symm]
      exact h.placed.lock
  · intro r
    by_cases hr : r = p
    · subst hr
      rw [Fits, show (((s.setState r .running).setProc c (some r)).setCpu c
        (.switching r)).point r = .off w from hw]
      show (Function.update s.state r .running r = .running ↔
        ∃ c', Function.update s.cpu c (.switching r) c' = .switching r) ∧ _
      refine ⟨iff_of_true (Function.update_self ..)
        ⟨c, Function.update_self ..⟩, ?_⟩
      intro hexit
      rcases hfits.2 hexit with hz | hz <;> cases hz
    · refine (h.fits r).congr rfl (Function.update_of_ne hr ..) ?_
      intro c'
      simp only [setCpu, setProc, setState, Function.update_apply]
      split
      · rename_i heq
        rw [heq, hc]
        simp [Ne.symm hr]
      · rfl
  · intro r q hr
    have := h.np_used r q hr
    rw [← this]
    exact Function.update_of_ne (hused q this) ..
  · exact h.np_inj
  · intro r q hr
    obtain ⟨hq, hnp⟩ := h.kfork r q hr
    refine ⟨?_, hnp⟩
    rw [← hq]
    exact Function.update_of_ne (hused q hq) ..
  · exact h.ready

/-- The CPU switches to the process. -/
theorem switchIn (h : Inv s) (hc : s.cpu c = .switching p) :
    Inv ((s.setPoint p (load (s.point p))).setCpu c (.on p)) := by
  have hoff := h.placed.quiet c p (by rw [hc]; rfl)
  obtain ⟨w, hw⟩ : ∃ w, s.point p = .off w := by
    cases hpt : s.point p <;> rw [hpt] at hoff <;> cases hoff
    exact ⟨_, rfl⟩
  have hfits := h.fits p
  rw [Fits, hw] at hfits
  rw [hw, show load (Point.off w : Point P) = .resumed w from rfl]
  have hplaced := h.placed.switchIn (.resumed w) hc rfl rfl
  constructor
  · exact hplaced
  · intro r
    by_cases hr : r = p
    · subst hr
      simp only [Fits, setCpu, setPoint, Function.update_self]
      exact hfits.1.mpr ⟨c, hc⟩
    · refine (h.fits r).congr (Function.update_of_ne hr ..) rfl ?_
      intro c'
      simp only [setCpu, setPoint, Function.update_apply]
      split
      · rename_i heq
        rw [heq, hc]
        simp [Ne.symm hr]
      · rfl
  · exact h.np_used
  · exact h.np_inj
  · intro r q hr
    by_cases hrp : r = p
    · subst hrp
      simp only [setCpu, setPoint, Function.update_self] at hr
      cases hr
    · exact h.kfork r q (by
        simpa only [setCpu, setPoint, Function.update_of_ne hrp] using hr)
  · intro r q hr
    by_cases hrp : r = p
    · subst hrp
      simp only [setCpu, setPoint, Function.update_self] at hr
      cases hr
    · exact h.ready r q (by
        simpa only [setCpu, setPoint, Function.update_of_ne hrp] using hr)

omit [DecidableEq C] in
/-- A sleeper is made `RUNNABLE` under its lock. -/
theorem wake (h : Inv s) (hheld : (s.cpu c).held s.point = some q)
    (hthread : s.state q = .sleeping → (s.cpu c).thread ≠ some q)
    (hsleep : s.state q = .sleeping) : Inv (s.setState q .runnable) := by
  obtain ⟨w, hw⟩ := h.off hheld (hthread hsleep)
    (by rw [hsleep]; exact ProcState.noConfusion)
  have hfits := h.fits q
  rw [Fits, hw, hsleep] at hfits
  have hsame : ∀ r, r ≠ q → (s.setState q .runnable).state r = s.state r :=
    fun r hr => Function.update_of_ne hr ..
  have hused : ∀ r, s.state r = .used →
      (s.setState q .runnable).state r = .used := by
    intro r hr
    rw [hsame r, hr]
    rintro rfl
    rw [hsleep] at hr
    cases hr
  constructor
  · exact h.placed.congr rfl rfl rfl rfl
  · intro r
    by_cases hr : r = q
    · subst hr
      rw [Fits, show (s.setState r .runnable).point r = .off w from hw]
      show (Function.update s.state r .runnable r = .running ↔ _) ∧
        (_ → Function.update s.state r .runnable r = .zombie ∨ _)
      rw [Function.update_self]
      refine ⟨iff_of_false ProcState.noConfusion ?_, ?_⟩
      · exact fun hc => ProcState.noConfusion (hfits.1.mpr hc)
      · intro hexit
        rcases hfits.2 hexit with hz | hz <;> cases hz
    · exact (h.fits r).congr rfl (hsame r hr) fun _ => Iff.rfl
  · exact fun r t hr => hused t (h.np_used r t hr)
  · exact h.np_inj
  · exact fun r t hr => ⟨hused t (h.kfork r t hr).1, (h.kfork r t hr).2⟩
  · exact h.ready

/-! ## The steps of a process -/

/-- The thread on `c` goes to a point that fits its state; the lock it holds
there has been acquired or was held before. -/
theorem thread (pt : Point P) (h : Inv s) (hc : s.cpu c = .on p)
    (hpt : pt.away = false) {lock : P → Option C}
    (hlock : Matched lock
      (Function.update (fun c => (s.cpu c).held s.point) c (pt.held p)))
    (hfits : ({ s with lock := lock }.setPoint p pt).Fits p)
    (hkfork : ∀ q, pt ≠ .visiting .kfork q)
    (hready : ∀ q, pt = .visiting .ready q → s.np p = some q) :
    Inv ({ s with lock := lock }.setPoint p pt) := by
  refine h.same (h.placed.thread pt hc hpt hlock rfl rfl rfl) rfl rfl
    (fun _ _ => Iff.rfl) fun r => ?_
  by_cases hr : r = p
  · subst hr
    refine Or.inr ⟨hfits, ?_, ?_⟩
    · intro q
      simpa only [setPoint, Function.update_self] using hkfork q
    · intro q hq
      exact hready q (by simpa only [setPoint, Function.update_self] using hq)
  · exact Or.inl (Function.update_of_ne hr ..)

/-- `sched`, from the change of the state to `swtch`. -/
theorem leave {w : Leave} {chan : P → ℕ} (h : Inv s) (hc : s.cpu c = .on p)
    (hpt : s.point p = .own w) :
    Inv ({ s.setState p w.left with chan := chan }.setPoint p (.sched w)) := by
  have hrun : s.state p = .running := by
    have := h.fits p
    rwa [Fits, hpt] at this
  have hused : ∀ q, s.state q = .used → q ≠ p := by
    rintro q hq rfl
    rw [hrun] at hq
    cases hq
  have hpoint : ∀ {r : P} {pt : Point P}, pt ≠ .sched w →
      Function.update s.point p (.sched w) r = pt → s.point r = pt := by
    intro r pt hne hr
    rw [Function.update_apply] at hr
    split at hr
    · exact absurd hr.symm hne
    · exact hr
  constructor
  · refine h.placed.thread (.sched w) hc rfl ?_ rfl rfl rfl
    rw [show (Point.sched w).held p = (s.cpu c).held s.point by
      rw [hc, CpuPoint.held, hpt]; rfl, Function.update_eq_self]
    exact h.placed.lock
  · intro r
    by_cases hr : r = p
    · subst hr
      simp only [Fits, setPoint, setState, Function.update_self]
    · exact (h.fits r).congr (Function.update_of_ne hr ..)
        (Function.update_of_ne hr ..) fun _ => Iff.rfl
  · intro r q hr
    have := h.np_used r q hr
    rw [← this]
    exact Function.update_of_ne (hused q this) ..
  · exact h.np_inj
  · intro r q hr
    obtain ⟨hq, hnp⟩ := h.kfork r q (hpoint (by simp) hr)
    refine ⟨?_, hnp⟩
    rw [← hq]
    exact Function.update_of_ne (hused q hq) ..
  · intro r q hr
    exact h.ready r q (hpoint (by simp) hr)

/-- The CPU switches to its scheduler. -/
theorem switchOut {w : Leave} (h : Inv s) (hc : s.cpu c = .on p)
    (hpt : s.point p = .saved w) :
    Inv ((s.setPoint p (.off (some w))).setCpu c (.back p)) := by
  have hfits := h.fits p
  rw [Fits, hpt] at hfits
  refine h.same (h.placed.switchOut hc (by rw [hpt]; rfl)) rfl rfl ?_ ?_
  · intro c' r
    simp only [setCpu, setPoint, Function.update_apply]
    split
    · rename_i heq
      rw [heq, hc]
      simp
    · rfl
  · intro r
    by_cases hr : r = p
    · subst hr
      refine Or.inr ⟨?_, ?_, ?_⟩
      · simp only [Fits, setCpu, setPoint, Function.update_self, hfits]
        refine ⟨⟨?_, ?_⟩, ?_⟩
        · intro hrun
          cases w <;> cases hrun
        · rintro ⟨c', hc'⟩
          rw [Function.update_apply] at hc'
          split at hc'
          · cases hc'
          · have := h.placed.quiet c' r (by rw [hc']; rfl)
            rw [hpt] at this
            cases this
        · rintro hw
          cases hw
          exact Or.inl rfl
      · intro q
        simp [setCpu, setPoint]
      · intro q
        simp [setCpu, setPoint]
    · exact Or.inl (Function.update_of_ne hr ..)

/-! ## Visits -/

omit [DecidableEq P] [DecidableEq C] in
/-- Nobody else is at an entry that the thread of `p` visits. -/
theorem visitor {v' : Visit} {r : P} (h : Inv s) (hc : s.cpu c = .on p)
    (hpt : s.point p = .visiting v q) (hr : s.point r = .visiting v' q) :
    r = p := by
  obtain ⟨c', hc'⟩ := h.placed.here r (by rw [hr]; rfl)
  have hon := CpuPoint.eq_on hc'
  have : c' = c := h.placed.lock.unique (i := q)
    (by rw [hon, CpuPoint.held, hr]; rfl) (by rw [hc, CpuPoint.held, hpt]; rfl)
  rw [this, hc] at hon
  cases hon
  rfl

/-- The end of a visit: the entry has its new state, its lock is free and
the entry that `kfork` of `p` works on is noted. -/
theorem endVisit (st : ProcState) (m : Option P) (h : Inv s)
    (hc : s.cpu c = .on p) (hpt : s.point p = .visiting v q)
    (hst : st = s.state q ∨ s.state q ≠ .running ∧ st ≠ .running ∧
      (s.state q = .zombie ∨ s.state q = .unused →
        st = .zombie ∨ st = .unused)) (hm : ∀ t, m = some t → s.np p = some t ∨
      t = q ∧ ∀ r, s.np r ≠ some q)
    (hused : ∀ r, Function.update s.np p m r = some q → st = .used)
    (hlock : s'.lock = Function.update s.lock q none)
    (hpoint : s'.point = Function.update s.point p .free)
    (hcpu : s'.cpu = s.cpu) (hproc : s'.proc = s.proc)
    (hstate : s'.state = Function.update s.state q st)
    (hnp : s'.np = Function.update s.np p m) : Inv s' := by
  have hheld : (s.cpu c).held s.point = some q := by
    rw [hc, CpuPoint.held, hpt]
    rfl
  have hrun := h.running (p := p) (Or.inr ⟨v, q, hpt⟩)
  have hother : ∀ {r : P} {v' : Visit} {t : P}, s'.point r = .visiting v' t →
      r ≠ p ∧ t ≠ q ∧ s.point r = .visiting v' t := by
    intro r v' t hr
    rw [hpoint, Function.update_apply] at hr
    split at hr
    · cases hr
    · rename_i hne
      refine ⟨hne, ?_, hr⟩
      rintro rfl
      exact hne (h.visitor hc hpt hr)
  have hsame : ∀ t, t ≠ q → s'.state t = s.state t := by
    intro t ht
    rw [hstate, Function.update_of_ne ht]
  constructor
  · refine h.placed.thread .free hc rfl ?_ hpoint hcpu hproc
    rw [hlock]
    exact h.placed.lock.release hheld
  · intro r
    have hswitch : ∀ c', s'.cpu c' = .switching r ↔ s.cpu c' = .switching r :=
      fun c' => by rw [hcpu]
    by_cases hrp : r = p
    · subst hrp
      rw [Fits, hpoint, Function.update_self]
      show s'.state r = .running
      rw [hstate, Function.update_apply]
      split
      · rename_i hrq
        rcases hst with rfl | ⟨hne, -⟩
        · rw [← hrq]
          exact hrun
        · exact absurd (hrq ▸ hrun) hne
      · exact hrun
    · have hpr : s'.point r = s.point r := by
        rw [hpoint, Function.update_of_ne hrp]
      by_cases hrq : r = q
      · subst hrq
        rcases hst with rfl | ⟨hne, hne', hgone⟩
        · exact (h.fits r).congr hpr
            (by rw [hstate, Function.update_self]) hswitch
        · obtain ⟨w, hw⟩ := h.off hheld
            (by rw [hc]; exact fun heq => hrp (Option.some.inj heq).symm) hne
          have hfits := h.fits r
          rw [Fits, hw] at hfits
          rw [Fits, hpr, hw]
          simp only [hstate, Function.update_self, hswitch]
          refine ⟨iff_of_false hne' ?_, fun hexit => hgone (hfits.2 hexit)⟩
          rw [← hfits.1]
          exact hne
      · exact (h.fits r).congr hpr (hsame r hrq) hswitch
  · intro r t hr
    rw [hnp] at hr
    by_cases ht : t = q
    · subst ht
      rw [hstate, Function.update_self]
      exact hused r hr
    · rw [hsame t ht]
      rw [Function.update_apply] at hr
      split at hr
      · rcases hm t hr with hold | ⟨htq, -⟩
        · exact h.np_used p t hold
        · exact absurd htq ht
      · exact h.np_used r t hr
  · intro r r' t hr hr'
    rw [hnp, Function.update_apply] at hr hr'
    split at hr <;> split at hr'
    · rename_i h₁ h₂
      rw [h₁, h₂]
    · rename_i hrp _
      rcases hm t hr with hold | ⟨rfl, hno⟩
      · exact hrp.trans (h.np_inj p r' t hold hr')
      · exact absurd hr' (hno r')
    · rename_i _ hrp
      rcases hm t hr' with hold | ⟨rfl, hno⟩
      · exact (h.np_inj r p t hr hold).trans hrp.symm
      · exact absurd hr (hno r)
    · exact h.np_inj r r' t hr hr'
  · intro r t hr
    obtain ⟨-, htq, hr⟩ := hother hr
    obtain ⟨ht, hno⟩ := h.kfork r t hr
    refine ⟨(hsame t htq).trans ht, ?_⟩
    intro r' hr'
    rw [hnp, Function.update_apply] at hr'
    split at hr'
    · rcases hm t hr' with hold | ⟨h', -⟩
      · exact hno p hold
      · exact htq h'
    · exact hno r' hr'
  · intro r t hr
    obtain ⟨hrp, -, hr⟩ := hother hr
    rw [hnp, Function.update_of_ne hrp]
    exact h.ready r t hr

/-- `allocproc` takes the entry and keeps its lock. -/
theorem allocproc (h : Inv s) (hc : s.cpu c = .on p)
    (hpt : s.point p = .visiting .allocproc q)
    (hstate : s.state q = .unused) :
    Inv ((s.allocproc q).setPoint p (.visiting .kfork q)) := by
  have hheld : (s.cpu c).held s.point = some q := by
    rw [hc, CpuPoint.held, hpt]
    rfl
  have hrun := h.running (p := p) (Or.inr ⟨_, q, hpt⟩)
  have hne : q ≠ p := by
    rintro rfl
    rw [hrun] at hstate
    cases hstate
  obtain ⟨w, hw⟩ := h.off hheld
    (by rw [hc]; exact fun heq => hne (Option.some.inj heq).symm)
    (by rw [hstate]; exact ProcState.noConfusion)
  have hfits := h.fits q
  rw [Fits, hw, hstate] at hfits
  have hno : ∀ r, s.np r ≠ some q := by
    intro r hr
    have := h.np_used r q hr
    rw [hstate] at this
    cases this
  have hplaced : Placed (s.allocproc q) :=
    (h.placed.setContext (q := q) (w := none) (by rw [hw]; rfl)).congr rfl rfl
      rfl rfl
  have hpoint : ∀ {r : P} {v' : Visit} {t : P},
      ((s.allocproc q).setPoint p (.visiting .kfork q)).point r =
        .visiting v' t → r = p ∧ v' = .kfork ∧ t = q ∨
          r ≠ p ∧ t ≠ q ∧ s.point r = .visiting v' t := by
    intro r v' t hr
    simp only [setPoint, System.allocproc, setState] at hr
    rw [Function.update_apply] at hr
    split at hr
    · rename_i hrp
      cases hr
      exact Or.inl ⟨hrp, rfl, rfl⟩
    · rename_i hrp
      rw [Function.update_apply] at hr
      split at hr
      · cases hr
      · refine Or.inr ⟨hrp, ?_, hr⟩
        rintro rfl
        exact hrp (h.visitor hc hpt hr)
  constructor
  · refine hplaced.thread (.visiting .kfork q) hc rfl ?_ rfl rfl rfl
    have hsame : (fun c => ((s.allocproc q).cpu c).held
        (s.allocproc q).point) c = some q := by
      show (s.cpu c).held (Function.update s.point q (.off none)) = some q
      rw [hc, CpuPoint.held, Function.update_of_ne hne.symm, hpt]
      rfl
    rw [show (Point.visiting Visit.kfork q).held p = some q from rfl,
      Function.update_eq_self_iff.mpr hsame.symm]
    exact hplaced.lock
  · intro r
    by_cases hrp : r = p
    · subst hrp
      simp only [Fits, setPoint, System.allocproc, setState,
        Function.update_self, Function.update_of_ne hne.symm]
      exact hrun
    · by_cases hrq : r = q
      · subst hrq
        simp only [Fits, setPoint, System.allocproc, setState,
          Function.update_self, Function.update_of_ne hrp]
        refine ⟨iff_of_false ProcState.noConfusion ?_, (by simp)⟩
        rw [← hfits.1]
        exact ProcState.noConfusion
      · refine (h.fits r).congr ?_ (Function.update_of_ne hrq ..)
          fun _ => Iff.rfl
        simp only [setPoint, System.allocproc, setState,
          Function.update_of_ne hrp, Function.update_of_ne hrq]
  · intro r t hr
    have ht := h.np_used r t hr
    rw [← ht]
    refine Function.update_of_ne ?_ ..
    rintro rfl
    exact hno r hr
  · exact h.np_inj
  · intro r t hr
    rcases hpoint hr with ⟨-, -, rfl⟩ | ⟨-, htq, hr⟩
    · exact ⟨Function.update_self .., hno⟩
    · obtain ⟨ht, hnp⟩ := h.kfork r t hr
      exact ⟨(Function.update_of_ne htq ..).trans ht, hnp⟩
  · intro r t hr
    rcases hpoint hr with ⟨-, hv, -⟩ | ⟨-, -, hr⟩
    · cases hv
    · exact h.ready r t hr

/-- The end of a visit that does nothing to the entry. -/
theorem endIdle (h : Inv s) (hc : s.cpu c = .on p)
    (hpt : s.point p = .visiting v q) :
    Inv ((s.release q).setPoint p .free) := by
  refine h.endVisit (s.state q) (s.np p) hc hpt (Or.inl rfl)
    (fun t ht => Or.inl ht) ?_ rfl rfl rfl rfl
    (Function.update_eq_self ..).symm (Function.update_eq_self ..).symm
  intro r hr
  rw [Function.update_eq_self] at hr
  exact h.np_used r q hr

/-- The end of a visit that moves on an entry nobody forks. -/
theorem endChange (st : ProcState) (h : Inv s) (hc : s.cpu c = .on p)
    (hpt : s.point p = .visiting v q) (hne : s.state q ≠ .running)
    (hst : st ≠ .running) (hgone : s.state q = .zombie ∨ s.state q = .unused →
      st = .zombie ∨ st = .unused) (hno : ∀ r, s.np r ≠ some q)
    (hlock : s'.lock = s.lock) (hpoint : s'.point = s.point)
    (hcpu : s'.cpu = s.cpu) (hproc : s'.proc = s.proc)
    (hstate : s'.state = Function.update s.state q st) (hnp : s'.np = s.np) :
    Inv ((s'.release q).setPoint p .free) := by
  refine h.endVisit st (s.np p) hc hpt (Or.inr ⟨hne, hst, hgone⟩)
    (fun t ht => Or.inl ht) ?_ ?_ ?_ hcpu hproc hstate ?_
  · intro r hr
    rw [Function.update_eq_self] at hr
    exact absurd hr (hno r)
  · show Function.update s'.lock q none = _
    rw [hlock]
  · show Function.update s'.point p .free = _
    rw [hpoint]
  · rw [Function.update_eq_self]
    exact hnp

omit [DecidableEq P] [DecidableEq C] in
theorem not_np (h : Inv s) (hq : s.state q ≠ .used) (r : P) :
    s.np r ≠ some q := fun hr => hq (h.np_used r q hr)

theorem visit (h : Inv s) (hc : s.cpu c = .on p)
    (hpt : s.point p = .visiting v q) (ok : Bool) : Inv (s.visit p q ok v) := by
  have hheld : (s.cpu c).held s.point = some q := by
    rw [hc, CpuPoint.held, hpt]
    rfl
  have hthread : s.state q = .sleeping → (s.cpu c).thread ≠ some q := by
    intro hsleep hq
    rw [hc] at hq
    cases hq
    rw [h.running (Or.inr ⟨v, p, hpt⟩)] at hsleep
    cases hsleep
  cases v with
  | wakeup chan =>
    simp only [System.visit, System.wakeup]
    split
    · rename_i hsleep
      exact (h.wake hheld hthread hsleep.1).endIdle hc hpt
    · exact h.endIdle hc hpt
  | kkill pid =>
    have hkilled : Inv { s with
        killed := Function.update s.killed q true } :=
      h.same (h.placed.congr rfl rfl rfl rfl) rfl rfl (fun _ _ => Iff.rfl)
        fun _ => Or.inl rfl
    simp only [System.visit, System.kkill]
    split
    · split
      · rename_i hsleep
        exact (hkilled.wake hheld hthread hsleep).endIdle hc hpt
      · exact hkilled.endIdle hc hpt
    · exact h.endIdle hc hpt
  | kwait =>
    simp only [System.visit]
    split
    · rename_i hz
      exact h.endChange .unused hc hpt
        (by rw [hz]; simp) (by simp) (fun _ => Or.inr rfl)
        (h.not_np (by rw [hz]; simp)) rfl rfl rfl rfl rfl rfl
    · exact h.endIdle hc hpt
  | allocproc =>
    simp only [System.visit]
    split
    · exact h.allocproc hc hpt (by assumption)
    · exact h.endIdle hc hpt
  | kfork =>
    obtain ⟨hused, hno⟩ := h.kfork p q hpt
    simp only [System.visit]
    split
    · refine h.endVisit (s.state q) (some q) hc hpt (Or.inl rfl) ?_ ?_ rfl rfl rfl rfl
        (Function.update_eq_self ..).symm rfl
      · intro t ht
        exact Or.inr ⟨(Option.some.inj ht).symm, hno⟩
      · exact fun _ _ => hused
    · exact h.endChange .unused hc hpt
        (by rw [hused]; simp) (by simp) (fun _ => Or.inr rfl) hno rfl rfl rfl
        rfl rfl rfl
  | ready =>
    have hnp := h.ready p q hpt
    have hused := h.np_used p q hnp
    refine h.endVisit .runnable none hc hpt
      (Or.inr ⟨by rw [hused]; simp, (by simp), by rw [hused]; simp⟩) (by simp) ?_
      rfl rfl rfl rfl rfl rfl
    intro r hr
    rw [Function.update_apply] at hr
    split at hr
    · cases hr
    · rename_i hne
      exact absurd (h.np_inj r p q hr hnp) hne

/-! ## Every step -/

/-- The handler that interrupted the scheduler is done. -/
theorem handled {chan : ℕ} (h : Inv s) (hc : s.cpu c = .interrupted chan q) :
    Inv (((s.wakeup chan q).release q).setCpu c .scan) := by
  have hscan : ∀ {t : System P C}, Inv t → t.cpu = s.cpu →
      Inv ((t.release q).setCpu c .scan) := by
    intro t ht hcpu
    have := ht.scan (c := c) (q := q) (by rw [hcpu, hc]; rfl)
      (by rw [hcpu, hc]; rfl) (by rw [hcpu, hc]; nofun)
    rwa [ht.setProc_none (by rw [hcpu, hc]; rfl)] at this
  unfold System.wakeup
  split
  · rename_i hsleep
    exact hscan (h.wake (c := c) (by rw [hc]; rfl) (by rw [hc]; nofun)
      hsleep.1) rfl
  · exact hscan h rfl

theorem did (h : Inv s) (hd : Did s s') : Inv s' := by
  have hfits := h.fits
  cases hd with
  | look hc hfree hx => exact h.look hc hfree hx
  | pick hc hstate => exact h.pick hc hstate
  | @pass c p hc =>
    have := h.scan (c := c) (q := p) (by rw [hc]; rfl) (by rw [hc]; rfl)
      (by rw [hc]; simp)
    rwa [h.setProc_none (by rw [hc]; rfl)] at this
  | switchIn hc => exact h.switchIn hc
  | back hc =>
    exact h.scan (by rw [hc]; rfl) (by rw [hc]; rfl) (by rw [hc]; simp)
  | handled hc => exact h.handled hc
  | @own c p w hc hpt hfree =>
    refine h.thread (.own w) hc rfl
      (h.placed.lock.acquire hfree (by rw [hc, CpuPoint.held, hpt]; rfl)) ?_
      (by simp) (by simp)
    simp only [Fits, setPoint, Function.update_self]
    exact h.running (Or.inl hpt)
  | @call c p v q hc hpt hfree hkfork hready =>
    refine h.thread (.visiting v q) hc rfl
      (h.placed.lock.acquire hfree (by rw [hc, CpuPoint.held, hpt]; rfl))
      ?_ ?_ ?_
    · simp only [Fits, setPoint, Function.update_self]
      exact h.running (Or.inl hpt)
    · rintro t ht
      cases ht
      exact hkfork rfl
    · rintro t ht
      cases ht
      exact hready rfl
  | leave hc hpt => exact h.leave hc hpt
  | @save c p w hc hpt =>
    have hp := hfits p
    rw [Fits, hpt] at hp
    refine h.thread (.saved w) hc rfl ?_ ?_ (by simp) (by simp)
    · rw [show (Point.saved w).held p = (s.cpu c).held s.point by
        rw [hc, CpuPoint.held, hpt]; rfl, Function.update_eq_self]
      exact h.placed.lock
    · simp only [Fits, setPoint, Function.update_self]
      exact hp
  | switchOut hc hpt => exact h.switchOut hc hpt
  | @resume c p w chan hc hpt =>
    have hp := hfits p
    rw [Fits, hpt] at hp
    have hinv : Inv { s with chan := chan } :=
      h.same (h.placed.congr rfl rfl rfl rfl) rfl rfl (fun _ _ => Iff.rfl)
        fun _ => Or.inl rfl
    refine hinv.thread .free hc rfl ?_ ?_ (by simp) (by simp)
    · exact h.placed.lock.release (by rw [hc, CpuPoint.held, hpt]; rfl)
    · simp only [Fits, setPoint, Function.update_self]
      exact hp
  | visit hc hpt => exact h.visit hc hpt _

end Inv

/-! ## Who is picked and who is freed -/

/-- Everything a step can do to the state of a process, as far as `RUNNING`
and `UNUSED` are concerned. -/
inductive Change (s s' : System P C) (p : P) : Prop
  | kept (same : s'.state p = s.state p)
  | picked (c : C) (cpu : s.cpu c = .locked p) (state : s.state p = .runnable)
  | freed (c : C) (r : P) (v : Visit) (cpu : s.cpu c = .on r)
      (point : s.point r = .visiting v p) (state : s.state p ≠ .running)
  | other (running : s'.state p ≠ .running) (unused : s'.state p ≠ .unused)

omit [DecidableEq C] in
theorem change_setState {q : P} (st : ProcState)
    (hstate : s'.state = Function.update s.state q st) (hrun : st ≠ .running)
    (hun : st ≠ .unused) (p : P) : Change s s' p := by
  by_cases hp : p = q
  · subst hp
    refine .other ?_ ?_ <;> rw [hstate, Function.update_self] <;> assumption
  · exact .kept (by rw [hstate, Function.update_of_ne hp])

omit [DecidableEq C] in
theorem visit_change {c : C} {q : P} (h : Inv s) (hc : s.cpu c = .on p)
    (hpt : s.point p = .visiting v q) (ok : Bool) (r : P) :
    Change s (s.visit p q ok v) r := by
  have hfreed : s.state q ≠ .running →
      Change s (((s.freeproc q).release q).setPoint p .free) r := by
    intro hne
    by_cases hr : r = q
    · subst hr
      exact .freed c p v hc hpt hne
    · exact .kept (Function.update_of_ne hr ..)
  cases v with
  | wakeup chan =>
    simp only [System.visit, System.wakeup]
    split
    · exact change_setState .runnable rfl nofun nofun r
    · exact .kept rfl
  | kkill pid =>
    simp only [System.visit, System.kkill]
    split
    · split
      · exact change_setState .runnable rfl nofun nofun r
      · exact .kept rfl
    · exact .kept rfl
  | kwait =>
    simp only [System.visit]
    split
    · rename_i hz
      exact hfreed (by rw [hz]; nofun)
    · exact .kept rfl
  | allocproc =>
    simp only [System.visit]
    split
    · exact change_setState .used rfl nofun nofun r
    · exact .kept rfl
  | kfork =>
    simp only [System.visit]
    split
    · exact .kept rfl
    · exact hfreed (by rw [(h.kfork p q hpt).1]; nofun)
  | ready => exact change_setState .runnable rfl nofun nofun r

theorem Did.change (h : Inv s) (hd : Did s s') (r : P) : Change s s' r := by
  cases hd with
  | look | pass | switchIn | back | own | call | save | switchOut | resume =>
    exact .kept rfl
  | @pick c p hc hstate =>
    by_cases hr : r = p
    · subst hr
      exact .picked c hc hstate
    · exact .kept (Function.update_of_ne hr ..)
  | handled =>
    unfold System.wakeup
    split
    · exact change_setState .runnable rfl nofun nofun r
    · exact .kept rfl
  | @leave c p w =>
    exact change_setState w.left rfl (by cases w <;> nofun)
      (by cases w <;> nofun) r
  | visit hc hpt => exact visit_change h hc hpt _ r

omit [DecidableEq P] [DecidableEq C] in
/-- A process that becomes `RUNNING` or `UNUSED` is on no CPU. -/
theorem Change.not_on (h : Inv s) (hch : Change s s' p)
    (hmove : s.state p ≠ .running ∧ s'.state p = .running ∨
      s.state p ≠ .unused ∧ s'.state p = .unused) (c' : C) :
    s.cpu c' ≠ .on p := by
  cases hch with
  | kept same =>
    rw [same] at hmove
    rcases hmove with ⟨hne, heq⟩ | ⟨hne, heq⟩ <;> exact absurd heq hne
  | picked c hc hstate =>
    exact h.not_on (c := c) (by rw [hc]; rfl) (by rw [hc]; nofun)
      (by rw [hstate]; nofun) c'
  | freed c r v hc hpt hstate =>
    refine h.not_on (c := c) (by rw [hc, CpuPoint.held, hpt]; rfl) ?_
      hstate c'
    rw [hc]
    intro hr
    cases hr
    exact hstate (h.running (Or.inr ⟨v, p, hpt⟩))
  | other hrun hun =>
    rcases hmove with ⟨-, heq⟩ | ⟨-, heq⟩
    · exact absurd heq hrun
    · exact absurd heq hun

omit [DecidableEq P] [DecidableEq C] in
/-- A `RUNNING` process is in `c->proc` of exactly one CPU. -/
theorem Inv.proc_unique (h : Inv s) (hrun : s.state p = .running) :
    ∃! c, s.proc c = some p := by
  have hfits := h.fits p
  have hwhere : ∃ c, s.cpu c = .on p ∨ s.cpu c = .switching p := by
    have hhere : (s.point p).away = false →
        ∃ c, s.cpu c = .on p ∨ s.cpu c = .switching p := by
      intro haway
      obtain ⟨c, hc⟩ := h.placed.here p haway
      exact ⟨c, Or.inl (CpuPoint.eq_on hc)⟩
    cases hpt : s.point p with
    | off w =>
      rw [Fits, hpt] at hfits
      obtain ⟨c, hc⟩ := hfits.1.mp hrun
      exact ⟨c, Or.inr hc⟩
    | _ => exact hhere (by rw [hpt]; rfl)
  obtain ⟨c, hc⟩ := hwhere
  have hproc : s.proc c = some p := by
    rw [h.placed.proc]
    rcases hc with hc | hc <;> rw [hc] <;> rfl
  exact ⟨c, hproc, fun c' hc' => h.placed.proc_unique hc' hproc⟩

/-- **One CPU per process**: in every state that any interleaving of the CPUs
reaches, no process is executed by two of them, a `RUNNING` process is in
`c->proc` of exactly one, and the next step picks or frees no process that
some CPU still executes on its kernel stack. -/
theorem one_cpu_per_process {initproc : P} {s : System P C}
    {ops : List (SchedOp P C)}
    (run : Run System.step (fun _ _ => True) (boot initproc) ops s) :
    (∀ c c' p, s.cpu c = .on p → s.cpu c' = .on p → c = c') ∧
    (∀ p, s.state p = .running → ∃! c, s.proc c = some p) ∧
    ∀ op s', s.step op = .ok s' → ∀ p,
      s.state p ≠ .running ∧ s'.state p = .running ∨
        s.state p ≠ .unused ∧ s'.state p = .unused →
      ∀ c, s.cpu c ≠ .on p := by
  have h : Inv s := run.invariant (I := Inv)
    (fun _ _ _ h _ hstep => h.did (step_did hstep)) (boot_inv initproc)
  refine ⟨?_, fun p hrun => h.proc_unique hrun, ?_⟩
  · intro c c' p hc hc'
    exact h.placed.one c c' p (by rw [hc]; rfl) (by rw [hc']; rfl)
  · intro op s' hstep p hmove
    exact ((step_did hstep).change h p).not_on h hmove

/-- Two CPUs and two processes: the first process is scheduled and forks the
second, which the other CPU picks. The first goes to sleep, and the second is
in the middle of `yield`. -/
def twoCpus : List (SchedOp Bool Bool) :=
  [.look false false, .go false true, .go false true, .go false true,
    .visit false .allocproc true, .go false true, .go false true,
    .visit false .ready true, .go false true,
    .look true true, .go true true, .go true true, .go true true,
    .leave false (.sleep 7), .go false true, .go false true, .go false true,
    .leave true .yield, .go true true,
    .go false true, .look false false, .go false true]

theorem one_cpu_per_process_twoCpus : ∃ s : System Bool Bool,
    Run System.step (fun _ _ => True) (boot false) twoCpus s ∧
    s.cpu true = .on true ∧ s.state true = .runnable ∧
    s.lock true = some true ∧
    ∀ op s', s.step op = .ok s' → s'.state true ≠ .running := by
  obtain ⟨s, hs, htest⟩ := exists_some_of_any
    (o := Run.checked System.step (fun _ _ => True) (boot false) twoCpus)
    (p := fun s => decide (s.cpu true = .on true) &&
      decide (s.state true = .runnable) && decide (s.lock true = some true))
    (by decide +kernel)
  simp only [Bool.and_eq_true, decide_eq_true_eq] at htest
  have hrun := Run.of_checked hs
  obtain ⟨-, -, hnext⟩ := one_cpu_per_process hrun
  refine ⟨s, hrun, htest.1.1, htest.1.2, htest.2, ?_⟩
  intro op s' hstep hpicked
  refine hnext op s' hstep true (Or.inl ⟨?_, hpicked⟩) true htest.1.1
  rw [htest.1.2]
  exact ProcState.noConfusion

end Xv6.Proc.System
