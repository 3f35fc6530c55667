import Xv6.Framework.Run
import Mathlib.Data.Finset.Card

/-!
# Spin locks and interrupts (`kernel/spinlock.c`)

CPUs acquire and release locks in any order and nesting and are interrupted
wherever interrupts are on, also inside `push_off`. A handler may take locks.
-/

namespace Xv6.Spinlock

open Framework Function

inductive Panic
  | acquire | release | interruptible | popOff
deriving DecidableEq

/-- Where a CPU is in `spinlock.c`. -/
inductive Pc (L : Type)
  | out
  /-- `push_off`, at its beginning and before `intr_off`. -/
  | pushOff (lk : L)
  | intrOff (old : Bool) (lk : L)
  | test (lk : L)
  | spin (lk : L)
  /-- `lk->locked` is set, `lk->cpu` is not yet. -/
  | record (lk : L)
  /-- `lk->cpu` is cleared, `lk->locked` is not yet. -/
  | unlock (lk : L)
  | popOff
  | panicked (p : Panic)
deriving DecidableEq

structure Cpu (L : Type) where
  noff : ℕ := 0
  intena : Bool := false
  /-- Interrupts are on (`SSTATUS_SIE`). -/
  intr : Bool := false
  pc : Pc L := .out
  /-- Where the interrupt came that it handles. -/
  saved : Option (Pc L) := none
  /-- The locks whose word it has set. -/
  locks : Finset L := ∅
  /-- What the code outside has set `intr` to. -/
  want : Bool := false

structure System (C L : Type) where
  cpu : C → Cpu L := fun _ => {}
  locked : L → Bool := fun _ => false
  /-- `lk->cpu`. -/
  owner : L → Option C := fun _ => none

inductive Op (C L : Type)
  | acquire (c : C) (lk : L)
  | release (c : C) (lk : L)
  /-- `intr_on()` and `intr_off()`. -/
  | setIntr (c : C) (b : Bool)
  /-- An interrupt and its end. -/
  | trap (c : C)
  | sret (c : C)
  /-- The next step of `c`. -/
  | run (c : C)

variable {C L : Type} [DecidableEq C]

namespace System

@[grind] def holding (s : System C L) (c : C) (lk : L) : Bool :=
  s.locked lk && decide (s.owner lk = some c)

@[grind] def setCpu (s : System C L) (c : C) (k : Cpu L) : System C L :=
  { s with cpu := update s.cpu c k }

/-- The next step of `c`, whose record is `k`. -/
def run [DecidableEq L] (s : System C L) (c : C) (k : Cpu L) :
    Pc L → Except Unit (System C L)
  | .out | .panicked _ => .error ()
  | .pushOff lk => .ok (s.setCpu c { k with pc := .intrOff k.intr lk })
  | .intrOff old lk => .ok (s.setCpu c { k with
      pc := .test lk
      intr := false
      intena := if k.noff = 0 then old else k.intena
      noff := k.noff + 1 })
  | .test lk => .ok (s.setCpu c { k with
      pc := if s.holding c lk then .panicked .acquire else .spin lk })
  | .spin lk =>
      if s.locked lk then .ok s
      else .ok { s.setCpu c { k with
          pc := .record lk, locks := insert lk k.locks } with
        locked := update s.locked lk true }
  | .record lk => .ok { s.setCpu c { k with pc := .out } with
      owner := update s.owner lk (some c) }
  | .unlock lk => .ok { s.setCpu c { k with
        pc := .popOff, locks := k.locks.erase lk } with
      locked := update s.locked lk false }
  | .popOff => .ok (s.setCpu c
      (if k.intr then { k with pc := .panicked .interruptible }
      else if k.noff < 1 then { k with pc := .panicked .popOff }
      else { k with
        pc := .out
        noff := k.noff - 1
        intr := decide (k.noff - 1 = 0) && k.intena }))

def step [DecidableEq L] (s : System C L) : Op C L → Except Unit (System C L)
  | .acquire c lk => .ok (s.setCpu c { s.cpu c with pc := .pushOff lk })
  | .release c lk =>
      if s.holding c lk then
        .ok { s.setCpu c { s.cpu c with pc := .unlock lk } with
          owner := update s.owner lk none }
      else .ok (s.setCpu c { s.cpu c with pc := .panicked .release })
  | .setIntr c b => .ok (s.setCpu c { s.cpu c with intr := b, want := b })
  | .trap c => .ok (s.setCpu c { s.cpu c with
      pc := .out, saved := some (s.cpu c).pc, intr := false, want := false })
  | .sret c => match (s.cpu c).saved with
      | some pc => .ok (s.setCpu c { s.cpu c with
          pc := pc, saved := none, intr := true, want := true })
      | none => .error ()
  | .run c => s.run c (s.cpu c) (s.cpu c).pc

/-- No lock is taken twice or released unheld, interrupts are not switched
under a lock or in a handler, and a handler keeps no lock. -/
@[grind] def Client (s : System C L) : Op C L → Prop
  | .acquire c lk => (s.cpu c).pc = .out ∧ lk ∉ (s.cpu c).locks
  | .release c lk => (s.cpu c).pc = .out ∧ lk ∈ (s.cpu c).locks
  | .setIntr c _ => (s.cpu c).pc = .out ∧ (s.cpu c).locks = ∅ ∧
      (s.cpu c).saved = none
  | .sret c => (s.cpu c).pc = .out ∧ (s.cpu c).locks = ∅
  | .trap c => (s.cpu c).intr = true
  | .run _ => True

end System

/-! ## The invariant -/

/-- What `noff` counts besides the locks. -/
@[grind] def Pc.depth : Pc L → ℕ
  | .test _ | .spin _ | .popOff => 1
  | _ => 0

/-- The lock that `acquire` is about to take. -/
@[grind] def Pc.wanted : Pc L → Option L
  | .pushOff lk | .intrOff _ lk | .test lk | .spin lk => some lk
  | _ => none

/-- The lock whose word is set although nobody has it. -/
@[grind] def Pc.between : Pc L → Option L
  | .record lk | .unlock lk => some lk
  | _ => none

/-- An interrupt can have come there. -/
@[grind] def Pc.Open : Pc L → Prop
  | .out | .pushOff _ => True
  | .intrOff old _ => old = true
  | _ => False

structure Cpu.Sound (k : Cpu L) : Prop where
  noff : k.noff = k.locks.card + k.pc.depth
  intr : k.intr = (k.want && decide (k.noff = 0))
  intena : k.noff ≠ 0 → k.intena = k.want
  old : ∀ old lk, k.pc = .intrOff old lk → old = k.intr
  saved : ∀ pc, k.saved = some pc → k.want = false ∧ pc.Open
  calm : ∀ p, k.pc ≠ .panicked p
  wanted : ∀ lk, k.pc.wanted = some lk → lk ∉ k.locks
  between : ∀ lk, k.pc.between = some lk → lk ∈ k.locks

structure Inv (s : System C L) : Prop where
  cpu : ∀ c, (s.cpu c).Sound
  locked : ∀ c, ∀ lk ∈ (s.cpu c).locks, s.locked lk = true
  unique : ∀ lk c d, lk ∈ (s.cpu c).locks → lk ∈ (s.cpu d).locks → c = d
  owner : ∀ lk c, s.owner lk = some c ↔
    lk ∈ (s.cpu c).locks ∧ (s.cpu c).pc.between ≠ some lk

variable {s s' : System C L} {c : C} {k : Cpu L} {lk : L}

/-- A step of `c`: it takes only what was free. -/
theorem Inv.update (h : Inv s) {locked : L → Bool} {owner : L → Option C}
    (hk : k.Sound) (hstep : ∀ l,
      (l ∈ k.locks → l ∈ (s.cpu c).locks ∨ s.locked l = false) ∧
      (l ∈ k.locks ∨ l ∉ (s.cpu c).locks ∧ s.locked l = true →
        locked l = true) ∧
      (owner l = some c ↔ l ∈ k.locks ∧ k.pc.between ≠ some l) ∧
      ∀ d, d ≠ c → (owner l = some d ↔ s.owner l = some d)) :
    Inv ⟨Function.update s.cpu c k, locked, owner⟩ := by
  obtain ⟨sound, locked, unique, owner⟩ := h
  constructor <;> simp only [update_apply] <;> grind

/-- A step that touches no lock. -/
theorem Inv.setCpu (h : Inv s) (hlocks : k.locks = (s.cpu c).locks)
    (hpc : k.pc.between = (s.cpu c).pc.between) (hk : k.Sound) :
    Inv (s.setCpu c k) := by
  have hlocked := h.locked c
  have howner := fun l => h.owner l c
  exact h.update hk (by grind)

variable [DecidableEq L]

attribute [grind cases eager] Cpu.Sound

theorem Inv.run (h : Inv s)
    (hrun : s.run c (s.cpu c) (s.cpu c).pc = .ok s') : Inv s' := by
  have hc := h.cpu c
  have howner := fun l => h.owner l c
  have hlocked := h.locked c
  cases hpc : (s.cpu c).pc with rw [hpc, System.run] at hrun
  | out | panicked p => cases hrun
  | pushOff lk | intrOff b lk =>
    cases hrun
    exact h.setCpu rfl (by grind) (by constructor <;> grind)
  | test lk =>
    rw [if_neg (by grind)] at hrun
    cases hrun
    exact h.setCpu rfl (by grind) (by constructor <;> grind)
  | spin lk =>
    split at hrun
    · cases hrun
      exact h
    · cases hrun
      exact h.update (by constructor <;> grind) (by grind [update_apply])
  | record lk =>
    -- nobody else is the owner of a lock that `c` has set
    cases hrun
    exact h.update (by constructor <;> grind)
      (by grind [update_apply, h.owner, h.unique])
  | unlock lk =>
    cases hrun
    exact h.update (by constructor <;> grind) (by grind [update_apply])
  | popOff =>
    rw [if_neg (by grind), if_neg (by grind)] at hrun
    cases hrun
    exact h.setCpu rfl (by grind) (by constructor <;> grind)

theorem Inv.step (h : Inv s) {op : Op C L} (hok : s.Client op)
    (hstep : s.step op = .ok s') : Inv s' := by
  cases op with
  | run c => exact h.run hstep
  | acquire c _ | setIntr c _ | trap c =>
    have hc := h.cpu c
    cases hstep
    have hnone : (s.cpu c).pc.between = none :=
      Option.eq_none_iff_forall_ne_some.mpr (by grind)
    cases hpc : (s.cpu c).pc <;>
      exact h.setCpu rfl (by grind) (by constructor <;> grind)
  | release c lk =>
    have hc := h.cpu c
    have howner := fun l => h.owner l c
    have hlocked := h.locked c
    rw [System.step, if_pos (by grind)] at hstep
    cases hstep
    exact h.update (by constructor <;> grind) (by grind [update_apply])
  | sret c =>
    have hc := h.cpu c
    rw [System.step] at hstep
    split at hstep
    · rename_i pc hsaved
      cases hstep
      cases pc <;> exact h.setCpu rfl (by grind) (by constructor <;> grind)
    · cases hstep

omit [DecidableEq C] [DecidableEq L] in
theorem inv_boot : Inv ({} : System C L) := by
  constructor
  · intro c
    constructor <;> grind
  all_goals grind

/-- **A spin lock has at most one owner**, `holding` tells exactly the CPU that
has acquired the lock and not begun to release it, and no CPU panics. -/
theorem spinlocks_exclude {ops : List (Op C L)}
    (run : Run System.step System.Client {} ops s) :
    (∀ lk c, s.holding c lk = true ↔
      lk ∈ (s.cpu c).locks ∧ (s.cpu c).pc.between ≠ some lk) ∧
    (∀ lk c d, lk ∈ (s.cpu c).locks → lk ∈ (s.cpu d).locks → c = d) ∧
    ∀ c p, (s.cpu c).pc ≠ .panicked p := by
  have h : Inv s := run.invariant (fun _ _ _ h => h.step) inv_boot
  refine ⟨fun lk c => ?_, h.unique, fun c => (h.cpu c).calm⟩
  rw [System.holding, Bool.and_eq_true, decide_eq_true_eq, h.owner]
  exact and_iff_right_of_imp fun hlk => h.locked c lk hlk.1

/-- **Interrupts come back as they were**: outside `spinlock.c` they are on
exactly if the code around has them on and no lock is held, and they are on
nowhere while one is. -/
theorem interrupts_restored {ops : List (Op C L)}
    (run : Run System.step System.Client {} ops s) (c : C) :
    ((s.cpu c).pc = .out → (s.cpu c).intr =
      ((s.cpu c).want && decide ((s.cpu c).locks = ∅))) ∧
    ((s.cpu c).intr = true → (s.cpu c).locks = ∅) := by
  have h : Inv s := run.invariant (fun _ _ _ h => h.step) inv_boot
  obtain ⟨noff, intr, -⟩ := h.cpu c
  refine ⟨fun hpc => ?_, fun _ => by grind⟩
  rw [intr, noff, hpc]
  simp [Pc.depth]

instance System.Client.decidable (s : System C L) (op : Op C L) :
    Decidable (s.Client op) := by
  cases op <;> dsimp only [System.Client] <;> infer_instance

/-- The first CPU is interrupted in `push_off`; the second waits for its
lock. -/
def contended : List (Op Bool Unit) :=
  [.setIntr false true, .acquire false (), .acquire true (), .run false,
    .trap false, .sret false] ++
  [false, false, false, false, true, true, true, true].map .run ++
  [.release false ()] ++ [false, true, false, true].map .run

theorem run_contended : ∃ s, Run System.step System.Client {} contended s ∧
    s.holding true () = true ∧ (s.cpu false).intr = true := by
  obtain ⟨s, hs, hall⟩ := exists_some_of_any (show (Run.checked System.step
    System.Client {} contended).any (fun s =>
      s.holding true () && (s.cpu false).intr) = true by decide +kernel)
  exact ⟨s, Run.of_checked hs, Bool.and_eq_true_iff.mp hall⟩

theorem exclude_contended :
    ∃ s, Run System.step System.Client {} contended s ∧
      s.holding true () = true ∧ () ∉ (s.cpu false).locks := by
  obtain ⟨s, run, hheld, -⟩ := run_contended
  obtain ⟨hiff, hunique, -⟩ := spinlocks_exclude run
  refine ⟨s, run, hheld, fun hmem => ?_⟩
  cases hunique () false true hmem ((hiff () true).mp hheld).1

theorem restored_contended :
    ∃ s, Run System.step System.Client {} contended s ∧
      (s.cpu false).intr = true ∧ (s.cpu false).locks = ∅ := by
  obtain ⟨s, run, -, hintr⟩ := run_contended
  exact ⟨s, run, hintr, (interrupts_restored run false).2 hintr⟩

end Xv6.Spinlock
