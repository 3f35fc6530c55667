import Xv6.Framework.Locks
import Xv6.Proc.Sched

/-!
# Where CPUs, threads and locks are

Which lock a CPU holds can be read off from where it is: `p->lock` stays with
the CPU while `swtch` changes the thread it executes. Locks, CPUs and threads
agree on this in every state, and each kind of step keeps the agreement.
-/

namespace Xv6.Proc

open Framework

variable {P C : Type}

/-! ## Where everything is -/

/-- The entry whose lock the thread of `p` holds. -/
def Point.held (p : P) : Point P → Option P
  | .own _ | .sched _ | .saved _ | .resumed _ => some p
  | .visiting _ q => some q
  | .free | .off _ => none

/-- The thread is on no CPU. -/
def Point.away : Point P → Bool
  | .off _ => true
  | _ => false

variable {p : P}

namespace CpuPoint

/-- What the CPU has in `c->proc`. -/
def proc : CpuPoint P → Option P
  | .switching p | .on p | .back p => some p
  | .scan | .locked _ | .interrupted _ _ => none

/-- The entry whose lock the CPU holds, `point` telling where the threads
are. -/
def held (point : P → Point P) : CpuPoint P → Option P
  | .scan => none
  | .locked p | .switching p | .back p | .interrupted _ p => some p
  | .on p => (point p).held p

/-- The thread that the CPU executes. -/
def thread : CpuPoint P → Option P
  | .on p => some p
  | _ => none

/-- The process that the CPU is switching to or from. -/
def passing : CpuPoint P → Option P
  | .switching p | .back p => some p
  | _ => none

variable {x : CpuPoint P}

/-- A CPU that has a process in `c->proc` executes it, or holds its lock while
it switches. -/
theorem proc_cases (h : x.proc = some p) :
    x.thread = some p ∨
      x.passing = some p ∧ ∀ point, x.held point = some p := by
  cases x <;> cases h
  · exact Or.inr ⟨rfl, fun _ => rfl⟩
  · exact Or.inl rfl
  · exact Or.inr ⟨rfl, fun _ => rfl⟩

theorem eq_on (h : x.thread = some p) : x = .on p := by
  cases x <;> cases h
  rfl

theorem held_congr {point point' : P → Point P}
    (h : ∀ p, x.thread = some p → point' p = point p) :
    x.held point' = x.held point := by
  cases x with
  | on p => rw [held, held, h p rfl]
  | _ => rfl

end CpuPoint

namespace System

/-- Locks, CPUs and threads agree on where every process is. -/
structure Placed (s : System P C) : Prop where
  lock : Matched s.lock fun c => (s.cpu c).held s.point
  here : ∀ p, (s.point p).away = false → ∃ c, (s.cpu c).thread = some p
  on : ∀ c p, (s.cpu c).thread = some p → (s.point p).away = false
  one : ∀ c c' p, (s.cpu c).thread = some p → (s.cpu c').thread = some p →
    c = c'
  quiet : ∀ c p, (s.cpu c).passing = some p → (s.point p).away = true
  proc : ∀ c, s.proc c = (s.cpu c).proc

/-- A state that differs in other respects. -/
theorem Placed.congr {s s' : System P C} (h : Placed s)
    (hlock : s'.lock = s.lock) (hpoint : s'.point = s.point)
    (hcpu : s'.cpu = s.cpu) (hproc : s'.proc = s.proc) : Placed s' := by
  constructor
  · rw [hlock, hcpu, hpoint]
    exact h.lock
  · rw [hpoint, hcpu]
    exact h.here
  · rw [hpoint, hcpu]
    exact h.on
  · rw [hcpu]
    exact h.one
  · rw [hpoint, hcpu]
    exact h.quiet
  · rw [hcpu, hproc]
    exact h.proc

theorem Placed.proc_unique {s : System P C} {c c' : C} (h : Placed s)
    (hc : s.proc c = some p) (hc' : s.proc c' = some p) : c = c' := by
  rw [h.proc] at hc hc'
  rcases CpuPoint.proc_cases hc with hon | ⟨hpass, hheld⟩
  · rcases CpuPoint.proc_cases hc' with hon' | ⟨hpass', -⟩
    · exact h.one c c' p hon hon'
    · have := h.quiet c' p hpass'
      rw [h.on c p hon] at this
      cases this
  · rcases CpuPoint.proc_cases hc' with hon' | ⟨-, hheld'⟩
    · have := h.quiet c p hpass
      rw [h.on c' p hon'] at this
      cases this
    · exact h.lock.unique (hheld _) (hheld' _)

variable [DecidableEq P] [DecidableEq C]

namespace Placed

variable {s s' : System P C} {c : C} {p q : P}

omit [DecidableEq P] in
/-- A CPU that executes no thread goes from one point of `scheduler` to
another. -/
theorem scheduler (y : CpuPoint P) (h : Placed s)
    (hx : (s.cpu c).thread = none) (hy : y.thread = none)
    (hpass : ∀ p, y.passing = some p → (s.point p).away = true)
    (hlock : Matched s'.lock
      (Function.update (fun c => (s.cpu c).held s.point) c (y.held s.point)))
    (hpoint : s'.point = s.point) (hcpu : s'.cpu = Function.update s.cpu c y)
    (hproc : s'.proc = Function.update s.proc c y.proc) : Placed s' := by
  have hthread : ∀ c' r, (s'.cpu c').thread = some r ↔
      (s.cpu c').thread = some r := by
    intro c' r
    rw [hcpu, Function.update_apply]
    split
    · rename_i hc
      rw [hc, hx, hy]
    · rfl
  constructor
  · convert hlock using 1
    funext c'
    rw [hcpu, hpoint, Function.update_apply, Function.update_apply]
    split <;> rfl
  · intro r hr
    rw [hpoint] at hr
    obtain ⟨c', hc'⟩ := h.here r hr
    exact ⟨c', (hthread c' r).mpr hc'⟩
  · intro c' r hr
    rw [hpoint]
    exact h.on c' r ((hthread c' r).mp hr)
  · intro c₁ c₂ r h₁ h₂
    exact h.one c₁ c₂ r ((hthread c₁ r).mp h₁) ((hthread c₂ r).mp h₂)
  · intro c' r hr
    rw [hpoint]
    rw [hcpu, Function.update_apply] at hr
    split at hr
    · exact hpass r hr
    · exact h.quiet c' r hr
  · intro c'
    rw [hcpu, hproc, Function.update_apply, Function.update_apply]
    split
    · rfl
    · exact h.proc c'

/-- The thread of `p` goes on. -/
theorem thread (pt : Point P) (h : Placed s) (hc : s.cpu c = .on p)
    (hpt : pt.away = false)
    (hlock : Matched s'.lock
      (Function.update (fun c => (s.cpu c).held s.point) c (pt.held p)))
    (hpoint : s'.point = Function.update s.point p pt)
    (hcpu : s'.cpu = s.cpu) (hproc : s'.proc = s.proc) : Placed s' := by
  have hthread : (s.cpu c).thread = some p := by rw [hc]; rfl
  have hon := h.on c p hthread
  have haway : ∀ r, (s'.point r).away = (s.point r).away := by
    intro r
    rw [hpoint, Function.update_apply]
    split
    · rename_i hr
      rw [hr, hpt, hon]
    · rfl
  constructor
  · convert hlock using 1
    funext c'
    rw [hcpu, Function.update_apply]
    split
    · rename_i heq
      rw [heq, hc, CpuPoint.held, hpoint, Function.update_self]
    · rename_i hne
      refine CpuPoint.held_congr fun r hr => ?_
      rw [hpoint, Function.update_of_ne]
      rintro rfl
      exact hne (h.one c' c r hr hthread)
  · intro r hr
    rw [haway] at hr
    rw [hcpu]
    exact h.here r hr
  · intro c' r hr
    rw [hcpu] at hr
    rw [haway]
    exact h.on c' r hr
  · rw [hcpu]
    exact h.one
  · intro c' r hr
    rw [hcpu] at hr
    rw [haway]
    exact h.quiet c' r hr
  · rw [hcpu, hproc]
    exact h.proc

/-- `swtch` from the scheduler to `p`. -/
theorem switchIn (pt : Point P) (h : Placed s) (hc : s.cpu c = .switching p)
    (hpt : pt.away = false) (hheld : pt.held p = some p) :
    Placed ((s.setPoint p pt).setCpu c (.on p)) := by
  have hoff : (s.point p).away = true := h.quiet c p (by rw [hc]; rfl)
  have hnot : ∀ c', (s.cpu c').thread ≠ some p := by
    intro c' hc'
    rw [h.on c' p hc'] at hoff
    cases hoff
  have hother : ∀ c', c' ≠ c → (s.cpu c').held (Function.update s.point p pt) =
      (s.cpu c').held s.point := by
    intro c' _
    refine CpuPoint.held_congr fun r hr => Function.update_of_ne ?_ _ _
    rintro rfl
    exact hnot c' hr
  constructor
  · refine Eq.mp ?_ h.lock
    congr 1
    funext c'
    simp only [setPoint, setCpu, Function.update_apply]
    split
    · rename_i heq
      rw [heq, hc]
      simp only [CpuPoint.held, Function.update_self, hheld]
    · rename_i hne
      exact (hother c' hne).symm
  · intro r hr
    by_cases hrp : r = p
    · subst hrp
      refine ⟨c, ?_⟩
      simp only [setPoint, setCpu, Function.update_self]
      rfl
    · simp only [setPoint, setCpu, Function.update_of_ne hrp] at hr
      obtain ⟨c', hc'⟩ := h.here r hr
      refine ⟨c', ?_⟩
      have hne : c' ≠ c := by
        rintro rfl
        rw [hc] at hc'
        cases hc'
      simp only [setPoint, setCpu, Function.update_of_ne hne]
      exact hc'
  · intro c' r hr
    simp only [setPoint, setCpu, Function.update_apply] at hr ⊢
    split at hr
    · cases hr
      rw [if_pos rfl, hpt]
    · rw [if_neg, h.on c' r hr]
      rintro rfl
      exact hnot c' hr
  · intro c₁ c₂ r h₁ h₂
    simp only [setPoint, setCpu, Function.update_apply] at h₁ h₂
    split at h₁ <;> split at h₂
    · rename_i h₁' h₂'
      rw [h₁', h₂']
    · cases h₁
      exact absurd h₂ (hnot c₂)
    · cases h₂
      exact absurd h₁ (hnot c₁)
    · exact h.one c₁ c₂ r h₁ h₂
  · intro c' r hr
    simp only [setPoint, setCpu, Function.update_apply] at hr ⊢
    split at hr
    · cases hr
    · rename_i hne
      rw [if_neg, h.quiet c' r hr]
      -- the lock keeps other CPUs from switching to or from `p`
      rintro rfl
      refine hne (h.proc_unique (p := r) ?_ ?_)
      · rw [h.proc]
        cases hx : s.cpu c' <;> rw [hx] at hr <;> cases hr <;> rfl
      · rw [h.proc, hc]
        rfl
  · intro c'
    simp only [setPoint, setCpu, Function.update_apply]
    split
    · rename_i heq
      rw [heq, h.proc c, hc]
      rfl
    · exact h.proc c'

/-- `swtch` from `p` to the scheduler. -/
theorem switchOut {w : Option Leave} (h : Placed s) (hc : s.cpu c = .on p)
    (hheld : (s.point p).held p = some p) :
    Placed ((s.setPoint p (.off w)).setCpu c (.back p)) := by
  have hthread : (s.cpu c).thread = some p := by rw [hc]; rfl
  constructor
  · refine Eq.mp ?_ h.lock
    congr 1
    funext c'
    simp only [setPoint, setCpu, Function.update_apply]
    split
    · rename_i heq
      rw [heq, hc]
      exact hheld
    · rename_i hne
      symm
      refine CpuPoint.held_congr fun r hr => Function.update_of_ne ?_ _ _
      rintro rfl
      exact hne (h.one c' c r hr hthread)
  · intro r hr
    by_cases hrp : r = p
    · subst hrp
      simp only [setPoint, setCpu, Function.update_self] at hr
      cases hr
    · simp only [setPoint, setCpu, Function.update_of_ne hrp] at hr
      obtain ⟨c', hc'⟩ := h.here r hr
      refine ⟨c', ?_⟩
      have hne : c' ≠ c := by
        rintro rfl
        rw [hc] at hc'
        cases hc'
        exact hrp rfl
      simp only [setPoint, setCpu, Function.update_of_ne hne]
      exact hc'
  · intro c' r hr
    simp only [setPoint, setCpu, Function.update_apply] at hr ⊢
    split at hr
    · cases hr
    · rename_i hne
      rw [if_neg, h.on c' r hr]
      rintro rfl
      exact hne (h.one c' c r hr hthread)
  · intro c₁ c₂ r h₁ h₂
    simp only [setPoint, setCpu, Function.update_apply] at h₁ h₂
    split at h₁
    · cases h₁
    · split at h₂
      · cases h₂
      · exact h.one c₁ c₂ r h₁ h₂
  · intro c' r hr
    simp only [setPoint, setCpu, Function.update_apply] at hr ⊢
    split
    · rfl
    · rename_i hrp
      split at hr
      · cases hr
        exact absurd rfl hrp
      · exact h.quiet c' r hr
  · intro c'
    simp only [setPoint, setCpu, Function.update_apply]
    split
    · rename_i heq
      rw [heq, h.proc c, hc]
      rfl
    · exact h.proc c'

omit [DecidableEq C] in
/-- The context of a thread that is off its CPU is replaced. -/
theorem setContext {w : Option Leave} (h : Placed s)
    (hoff : (s.point q).away = true) : Placed (s.setPoint q (.off w)) := by
  have haway : ∀ r, ((s.setPoint q (.off w)).point r).away =
      (s.point r).away := by
    intro r
    simp only [setPoint, Function.update_apply]
    split
    · rename_i hr
      rw [hr, hoff]
      rfl
    · rfl
  constructor
  · refine Eq.mp ?_ h.lock
    congr 1
    funext c'
    symm
    refine CpuPoint.held_congr fun r hr => Function.update_of_ne ?_ _ _
    rintro rfl
    rw [h.on c' r hr] at hoff
    cases hoff
  · intro r hr
    rw [haway] at hr
    exact h.here r hr
  · intro c' r hr
    rw [haway]
    exact h.on c' r hr
  · exact h.one
  · intro c' r hr
    rw [haway]
    exact h.quiet c' r hr
  · exact h.proc

end Placed

/-! ## What a step can do -/

/-- Everything a step can do. -/
inductive Did (s : System P C) : System P C → Prop
  | look {c : C} {q : P} {x : CpuPoint P} (cpu : s.cpu c = .scan)
      (free : s.lock q = none)
      (locks : x = .locked q ∨ ∃ chan, x = .interrupted chan q) :
      Did s ({ s with lock := Function.update s.lock q (some c) }.setCpu c x)
  | pick {c : C} {p : P} (cpu : s.cpu c = .locked p)
      (state : s.state p = .runnable) :
      Did s (((s.setState p .running).setProc c (some p)).setCpu c
        (.switching p))
  | pass {c : C} {p : P} (cpu : s.cpu c = .locked p) :
      Did s ((s.release p).setCpu c .scan)
  | switchIn {c : C} {p : P} (cpu : s.cpu c = .switching p) :
      Did s ((s.setPoint p (load (s.point p))).setCpu c (.on p))
  | back {c : C} {p : P} (cpu : s.cpu c = .back p) :
      Did s (((s.setProc c none).release p).setCpu c .scan)
  | handled {c : C} {chan : ℕ} {q : P} (cpu : s.cpu c = .interrupted chan q) :
      Did s (((s.wakeup chan q).release q).setCpu c .scan)
  | own {c : C} {p : P} {w : Leave} (cpu : s.cpu c = .on p)
      (point : s.point p = .free) (free : s.lock p = none) :
      Did s ({ s with lock := Function.update s.lock p (some c) }.setPoint p
        (.own w))
  | call {c : C} {p : P} {v : Visit} {q : P} (cpu : s.cpu c = .on p)
      (point : s.point p = .free) (free : s.lock q = none)
      (kfork : v ≠ .kfork) (ready : v = .ready → s.np p = some q) :
      Did s ({ s with lock := Function.update s.lock q (some c) }.setPoint p
        (.visiting v q))
  | leave {c : C} {p : P} {w : Leave} {chan : P → ℕ} (cpu : s.cpu c = .on p)
      (point : s.point p = .own w) :
      Did s ({ s.setState p w.left with chan := chan }.setPoint p (.sched w))
  | save {c : C} {p : P} {w : Leave} (cpu : s.cpu c = .on p)
      (point : s.point p = .sched w) :
      Did s ({ s with lock := s.lock }.setPoint p (.saved w))
  | switchOut {c : C} {p : P} {w : Leave} (cpu : s.cpu c = .on p)
      (point : s.point p = .saved w) :
      Did s ((s.setPoint p (.off (some w))).setCpu c (.back p))
  | resume {c : C} {p : P} {w : Option Leave} {chan : P → ℕ}
      (cpu : s.cpu c = .on p) (point : s.point p = .resumed w) :
      Did s (({ s with chan := chan }.release p).setPoint p .free)
  | visit {c : C} {p : P} {v : Visit} {q : P} {ok : Bool}
      (cpu : s.cpu c = .on p) (point : s.point p = .visiting v q) :
      Did s (s.visit p q ok v)

section Did

variable {s s' : System P C} {c : C} {p : P}

omit [DecidableEq C] in
theorem acquire_ok (h : s.acquire c p = .ok s') : s.lock p = none ∧
    s' = { s with lock := Function.update s.lock p (some c) } := by
  unfold acquire at h
  split at h
  · cases h
    exact ⟨by assumption, rfl⟩
  · cases h

omit [DecidableEq C] in
theorem idleOn_some (h : s.idleOn c = some p) :
    s.cpu c = .on p ∧ s.point p = .free := by
  unfold idleOn at h
  split at h
  · rename_i q hc
    split at h
    · cases h
      exact ⟨hc, by assumption⟩
    · cases h
  · cases h

theorem thread_did {ok : Bool} (hc : s.cpu c = .on p)
    (h : s.thread c p ok = .ok s') : Did s s' := by
  unfold System.thread at h
  cases hpt : s.point p with
  | free | off =>
    rw [hpt] at h
    cases h
  | own w =>
    rw [hpt] at h
    cases w <;> cases h <;> exact .leave hc hpt
  | sched w =>
    simp only [hpt] at h
    split at h
    · cases h
    · split at h
      · cases h
      · cases h
        exact .save hc hpt
  | saved w =>
    rw [hpt] at h
    cases h
    exact .switchOut hc hpt
  | resumed w =>
    rw [hpt] at h
    rcases w with _ | _ | chan | _
    · cases h
      exact .resume hc hpt
    · cases h
      exact .resume hc hpt
    · cases h
      exact .resume hc hpt
    · cases h
  | visiting v q =>
    rw [hpt] at h
    cases h
    exact .visit hc hpt

theorem step_did {op : SchedOp P C} (h : s.step op = .ok s') : Did s s' := by
  cases op with
  | look c p =>
    simp only [System.step] at h
    split at h
    · rename_i hc
      obtain ⟨s₁, hacq, h⟩ := bind_ok_iff.mp h
      obtain ⟨hfree, rfl⟩ := acquire_ok hacq
      cases h
      exact .look hc hfree (Or.inl rfl)
    · cases h
  | interrupt c chan q =>
    simp only [System.step] at h
    split at h
    · rename_i hc
      obtain ⟨s₁, hacq, h⟩ := bind_ok_iff.mp h
      obtain ⟨hfree, rfl⟩ := acquire_ok hacq
      cases h
      exact .look hc hfree (Or.inr ⟨chan, rfl⟩)
    · cases h
  | leave c w =>
    simp only [System.step] at h
    split at h
    · cases h
    · rename_i p hidle
      obtain ⟨hc, hpt⟩ := idleOn_some hidle
      split at h
      · cases h
      · obtain ⟨s₁, hacq, h⟩ := bind_ok_iff.mp h
        obtain ⟨hfree, rfl⟩ := acquire_ok hacq
        cases h
        exact .own hc hpt hfree
  | visit c v q =>
    simp only [System.step] at h
    split at h
    · cases h
    · rename_i p hidle
      obtain ⟨hc, hpt⟩ := idleOn_some hidle
      split at h
      · rename_i hmay
        obtain ⟨s₁, hacq, h⟩ := bind_ok_iff.mp h
        obtain ⟨hfree, rfl⟩ := acquire_ok hacq
        cases h
        refine .call hc hpt hfree ?_ ?_
        · rintro rfl
          cases hmay
        · rintro rfl
          exact of_decide_eq_true hmay
      · cases h
  | go c ok =>
    simp only [System.step, go] at h
    cases hc : s.cpu c with
    | scan =>
      rw [hc] at h
      cases h
    | locked p =>
      simp only [hc] at h
      split at h
      · cases h
        exact .pick hc (by assumption)
      · cases h
        exact .pass hc
    | switching p =>
      rw [hc] at h
      cases h
      exact .switchIn hc
    | on p =>
      rw [hc] at h
      exact thread_did hc h
    | back p =>
      rw [hc] at h
      cases h
      exact .back hc
    | interrupted chan q =>
      rw [hc] at h
      cases h
      exact .handled hc

end Did

end System

end Xv6.Proc
