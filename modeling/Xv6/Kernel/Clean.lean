import Xv6.Kernel.Entries

/-!
# Unused entries of the process table

`allocproc` resets only some fields of the entry it takes, so the next process
depends on what `kexit` and `freeproc` have left there. Two things can spoil
an unused entry: `kkill(0)`, which finds it by its cleared `pid`, and a
mapping that `kexit` could not give up.
-/

namespace Xv6.Kernel

open Framework Vm

/-! ## Entries -/

/-- What a new process is to find in its entry. -/
structure Entry.Blank (e : Entry) : Prop where
  killed : e.killed = false
  chan : e.chan = none
  sz : e.sz = 0
  parent : e.parent = none
  ofile : ∀ fd, e.ofile fd = none
  cwd : e.cwd = none
  vma : ∀ n, (e.vma n).valid = false

/-- The process has closed its files and given up its mappings. -/
structure Entry.Shut (e : Entry) : Prop where
  ofile : ∀ fd, e.ofile fd = none
  cwd : e.cwd = none
  vma : ∀ n, (e.vma n).valid = false

/-- What holds of every entry. -/
structure Entry.Tidy (e : Entry) : Prop where
  unused : e.state = .unused → e.Blank ∧ e.pid = 0
  zombie : e.state = .zombie → e.Shut
  framed : Framed e.vma

namespace Entry

variable {e e' : Entry}

theorem Blank.shut (h : e.Blank) : e.Shut := ⟨h.ofile, h.cwd, h.vma⟩

/-- A live process only has to keep the ends of its mappings. -/
theorem Tidy.of_live (hunused : e.state ≠ .unused)
    (hzombie : e.state ≠ .zombie) (hframed : Framed e.vma) : e.Tidy :=
  ⟨fun h => absurd h hunused, fun h => absurd h hzombie, hframed⟩

theorem Tidy.free (h : e.Shut) (hframed : Framed e.vma) : e.free.Tidy where
  unused := fun _ => ⟨⟨rfl, rfl, rfl, rfl, h.ofile, h.cwd, h.vma⟩, rfl⟩
  zombie := fun hz => by cases hz
  framed := hframed

theorem Nudged.tidy (h : Nudged e e') (he : e.Tidy) : e'.Tidy where
  unused := by
    intro hu
    obtain ⟨hb, hpid⟩ := he.unused (h.unused hu)
    have hparent := h.parent hb.parent
    rw [h.eq]
    exact ⟨⟨hb.killed, hb.chan, hb.sz, hparent, hb.ofile, hb.cwd, hb.vma⟩,
      hpid⟩
  zombie := by
    intro hz
    have hs := he.zombie (h.zombie hz)
    rw [h.eq]
    exact ⟨hs.ofile, hs.cwd, hs.vma⟩
  framed := by
    rw [h.eq]
    exact he.framed

theorem tidy_rule : Rule Tidy where
  live := fun _ hu hz hf => .of_live hu hz hf
  framed := fun _ h => h.framed
  free := by
    rintro e h (hu | hz)
    · exact .free (h.unused hu).1.shut h.framed
    · exact .free (h.zombie hz) h.framed
  nudged := fun _ _ hn h => hn.tidy h

end Entry

namespace Sys

variable {s s' : Sys} {i j : ProcId}

/-- Every entry is in order. -/
def Tidy (s : Sys) : Prop := s.Each Entry.Tidy

/-! ## `kexit` -/

/-- Every mapping of process `i` can be given up. -/
def CanExit (s : Sys) (i : ProcId) : Prop :=
  ∀ m, (s.proc i).memory = some m → ∀ n, ((s.proc i).vma n).valid = true →
    ((s.proc i).vma n).CanGo m.1

theorem Tidy.kexit {status : Int32} (h : s.Tidy) (hgo : s.CanExit i)
    (hstep : s.kexit i status = .ok s') : s'.Tidy := by
  refine Each.kexit Entry.tidy_rule h hstep ?_
  intro st st' hcur hexit
  have hframed := Each.view Entry.tidy_rule h hcur
  obtain ⟨-, m, hm, rfl⟩ := current_ok hcur
  obtain ⟨hofile, hcwd, hvma⟩ := kexit_shed hframed (hgo m hm) hexit
  have hframed' : Framed st'.p.vma := by
    intro n hn
    rw [hvma n] at hn
    cases hn
  refine ⟨hframed', fun e hz heo hec hev => ⟨fun hu => ?_, fun _ => ?_, ?_⟩⟩
  · rw [hz] at hu
    cases hu
  · refine ⟨?_, ?_, ?_⟩
    · rw [heo]
      exact hofile
    · rw [hec]
      exact hcwd
    · rw [hev]
      exact hvma
  · rw [hev]
    exact hframed'

/-! ## `kkill` -/

/-- `kkill(pid)` changes only a process that is not unused and has that pid,
and returns 0 just when there is one. -/
structure KillExact (s : Sys) (pid : Int32) : Prop where
  proc : ∀ j, (s.kkill pid).1.proc j ≠ s.proc j →
    (s.proc j).state ≠ .unused ∧ (s.proc j).pid = pid
  rest : (s.kkill pid).1 = { s with proc := (s.kkill pid).1.proc }
  result : (s.kkill pid).2 = 0 ↔
    ∃ j, (s.proc j).state ≠ .unused ∧ (s.proc j).pid = pid

/-- The first entry with that pid belongs to a process. -/
def KillOk (s : Sys) (pid : Int32) : Prop :=
  ∀ j, s.findPid pid = some j → (s.proc j).state ≠ .unused

instance (s : Sys) (pid : Int32) : Decidable (s.KillOk pid) :=
  inferInstanceAs (Decidable (∀ _, _))

theorem Tidy.kkill {pid : Int32} (h : s.Tidy) (hok : s.KillOk pid) :
    (s.kkill pid).1.Tidy := by
  cases hfind : s.findPid pid with
  | none =>
    rw [kkill_of_none hfind]
    exact h
  | some j =>
    rw [kkill_of_some hfind]
    have hlive := hok j hfind
    refine Each.setEntry h ⟨fun hu => ?_, fun hz => ?_, (h j).framed⟩
    · dsimp only at hu
      split at hu
      · cases hu
      · exact absurd hu hlive
    · dsimp only at hz
      split at hz
      · cases hz
      · have hs := (h j).zombie hz
        exact ⟨hs.ofile, hs.cwd, hs.vma⟩

/-- In a table in order, `kkill` is exact just when it does not stop at an
unused entry. -/
theorem Tidy.killExact_iff (h : s.Tidy) (pid : Int32) :
    s.KillExact pid ↔ s.KillOk pid := by
  constructor
  · intro hexact j hfind hunused
    refine (hexact.proc j ?_).1 hunused
    rw [kkill_of_some hfind, proc_setEntry_self]
    intro heq
    have hkilled := congrArg Entry.killed heq
    rw [((h j).unused hunused).1.killed] at hkilled
    cases hkilled
  · intro hok
    cases hfind : s.findPid pid with
    | none =>
      have hkill := kkill_of_none hfind
      refine ⟨?_, by rw [hkill], ?_⟩
      · intro j hne
        rw [hkill] at hne
        exact absurd rfl hne
      · rw [hkill]
        constructor
        · intro hret
          cases hret
        · rintro ⟨j, -, hpid⟩
          exact absurd hpid (findPid_none hfind j)
    | some j =>
      have hkill := kkill_of_some hfind
      refine ⟨?_, by rw [hkill]; rfl, ?_⟩
      · intro j' hne
        rw [hkill] at hne
        by_cases hj : j' = j
        · subst hj
          exact ⟨hok j' hfind, findPid_some hfind⟩
        · exact absurd (proc_setEntry_of_ne _ _ hj) hne
      · rw [hkill]
        exact ⟨fun _ => ⟨j, hok j hfind, findPid_some hfind⟩, fun _ => rfl⟩

/-! ## Every run -/

/-- No kill stops at an unused entry, and a process that exits can give up its
mappings. -/
def CleanOps (s : Sys) : Op → Prop
  | .kill _ pid => s.KillOk pid
  | .exit i _ => s.CanExit i
  | _ => True

/-- One step. -/
theorem Tidy.step {op : Op} (h : s.Tidy) (hok : s.CleanOps op)
    (hstep : s.step op = .ok s') : s'.Tidy := by
  refine Each.step Entry.tidy_rule h ?_ ?_ hstep
  · rintro i status rfl hexit
    exact Tidy.kexit h hok hexit
  · rintro i pid rfl
    exact Tidy.kkill h hok

theorem boot_tidy (km : Kmem) (pt : PageTable) (trapframe : Frame)
    (root : InodeId) (ip : Inode) (freeBlocks : ℕ) :
    (boot km pt trapframe root ip freeBlocks).Tidy := by
  have hblank : ({} : Entry).Tidy :=
    ⟨fun _ => ⟨⟨rfl, rfl, rfl, rfl, fun _ => rfl, rfl, fun _ => rfl⟩, rfl⟩,
      nofun, fun _ hv => by cases hv⟩
  intro j
  by_cases hj : j = 0
  · subst hj
    dsimp only [boot]
    rw [Function.update_self]
    exact .of_live nofun nofun fun _ hv => by cases hv
  · dsimp only [boot]
    rw [Function.update_of_ne hj]
    exact hblank

/-- What a child finds in its entry is not from an earlier process. -/
theorem Tidy.child (h : s.Tidy) (hstep : s.kfork i = .ok s')
    (hunused : (s.proc j).state = .unused)
    (hborn : (s'.proc j).state = .runnable) :
    (s'.proc j).killed = false ∧ ∀ n, ((s'.proc j).vma n).valid = true →
      (s'.proc j).vma n = (s.proc i).vma n := by
  rcases kfork_cases hstep with rfl | ⟨st, st', np, j', hcur, hj', hfork, rfl⟩
  · rw [hunused] at hborn
    cases hborn
  · obtain ⟨hrun, m, hm, rfl⟩ := current_ok hcur
    by_cases hj : j = j'
    · subst hj
      obtain ⟨hb, -⟩ := (h j).unused hunused
      rw [proc_setEntry_self] at hborn ⊢
      cases np with
      | none => cases hborn
      | some np =>
        refine ⟨hb.killed, fun n hn => ?_⟩
        have hvma := (kfork_child hfork).2 n
        change (np.vma n).valid = true at hn
        show np.vma n = _
        rw [hvma] at hn ⊢
        split
        · rfl
        · rename_i hinvalid
          rw [if_neg hinvalid] at hn
          rw [hb.vma n] at hn
          cases hn
    · rw [proc_setEntry_of_ne _ _ hj] at hborn
      by_cases hji : j = i
      · subst hji
        rw [hunused] at hrun
        cases hrun
      · change ((s.put i st').proc j).state = .runnable at hborn
        rw [proc_put_of_ne s st' hji, hunused] at hborn
        cases hborn

/-- **Every new process starts clean** in every run in which no kill stops at
an unused entry and every process that exits can give up its mappings: unused
entries are blank, a kill of any pid is exact just when it does not stop at
one of them, and a child has only the mappings of its parent. -/
theorem unused_entries_blank {km : Kmem} {pt : PageTable} {trapframe : Frame}
    {root : InodeId} {ip : Inode} {freeBlocks : ℕ} {ops : List Op} {s : Sys}
    (run : Run step CleanOps (boot km pt trapframe root ip freeBlocks) ops s) :
    (∀ j, (s.proc j).state = .unused → (s.proc j).Blank) ∧
      (∀ pid, s.KillExact pid ↔ s.KillOk pid) ∧
      ∀ i j s', s.kfork i = .ok s' → (s.proc j).state = .unused →
        (s'.proc j).state = .runnable → (s'.proc j).killed = false ∧
          ∀ n, ((s'.proc j).vma n).valid = true →
            (s'.proc j).vma n = (s.proc i).vma n := by
  have h : s.Tidy := run.invariant (I := Tidy)
    (fun s op s' hs hok hstep => hs.step hok hstep)
    (boot_tidy km pt trapframe root ip freeBlocks)
  exact ⟨fun j hj => ((h j).unused hj).1, h.killExact_iff,
    fun i j s' hfork hunused hborn => h.child hfork hunused hborn⟩

/-! ## A short run -/

/-- A computable part of the condition: no mapping of a process that exits is
shared. -/
def plainOps (s : Sys) : Op → Bool
  | .kill _ pid => decide (s.KillOk pid)
  | .exit i _ => decide (∀ n, ((s.proc i).vma n).valid = true →
      ((s.proc i).vma n).start < ((s.proc i).vma n).end_ ∧
        ((s.proc i).vma n).shared = false)
  | _ => true

theorem cleanOps_of_plain {op : Op} (h : s.plainOps op = true) :
    s.CleanOps op := by
  cases op with
  | exit i status =>
    intro m _ n hn
    obtain ⟨hlt, hshared⟩ := of_decide_eq_true h n hn
    refine ⟨hlt, fun hs => ?_⟩
    rw [hshared] at hs
    cases hs
  | kill i pid =>
    have hkill : s.KillOk pid := of_decide_eq_true h
    exact hkill
  | _ => trivial

/-- A small machine after `userinit`. -/
def start : Sys :=
  boot ⟨[110, 111, 112, 113, 114, 115, 116, 117, 118, 119], fun _ => 0⟩
    bootTable 103 0 { type := T_DIR, nlink := 1 } 100

/-- A child maps a file, is killed and exits; its parent waits for it. -/
def childOps : List Op :=
  [.schedule 0, .fork 0, .schedule 1,
    .open 1 1 { type := T_FILE, nlink := 1 } 0 O_RDWR,
    .mmap 1 0 4096 PROT_READ 2 0 0, .kill 0 2, .exit 1 0, .wait 0 0]

theorem unused_entries_blank_childOps : ∃ s,
    Run step CleanOps start childOps s ∧ (s.proc 1).state = .unused ∧
      (s.proc 1).Blank := by
  obtain ⟨s, hs, htest⟩ := exists_some_of_any
    (o := Run.checked step (fun s op => s.plainOps op = true) start childOps)
    (p := fun s => decide ((s.proc 1).state = .unused)) (by decide +kernel)
  have hrun := (Run.of_checked hs).mono fun _ _ => cleanOps_of_plain
  have hunused := of_decide_eq_true htest
  exact ⟨s, hrun, hunused, (unused_entries_blank hrun).1 1 hunused⟩

/-- `kkill(0)` right after the start: it returns 0 although nobody has that
pid, and the next child is born killed. -/
theorem unused_entry_killed : ∃ s s',
    Run step (fun _ _ => True) start [.schedule 0] s ∧
    Run step (fun _ _ => True) s [.kill 0 0, .fork 0] s' ∧
    (s.kkill 0).2 = 0 ∧ (∀ j, (s.proc j).state ≠ .unused →
      (s.proc j).pid ≠ 0) ∧
    ((s.kkill 0).1.proc 1).state = .unused ∧
    ((s.kkill 0).1.proc 1).killed = true ∧
    (s'.proc 1).state = .runnable ∧ (s'.proc 1).killed = true := by
  have hcheck : ((step start (.schedule 0)).toOption.any fun s =>
      decide ((s.kkill 0).2 = 0) &&
      decide (∀ j, (s.proc j).state ≠ .unused → (s.proc j).pid ≠ 0) &&
      decide (((s.kkill 0).1.proc 1).state = .unused ∧
        ((s.kkill 0).1.proc 1).killed = true) &&
      (([.kill 0 0, .fork 0] : List Op).foldlM step s).toOption.any fun s' =>
        decide ((s'.proc 1).state = .runnable) && (s'.proc 1).killed) =
      true := by
    decide +kernel
  obtain ⟨s, hs, hcheck⟩ := exists_ok_of_any hcheck
  simp only [Bool.and_eq_true, decide_eq_true_eq] at hcheck
  obtain ⟨⟨⟨hret, hnone⟩, hunused, hkilled⟩, hrest⟩ := hcheck
  obtain ⟨s', hs', hborn⟩ := exists_ok_of_any hrest
  simp only [Bool.and_eq_true, decide_eq_true_eq] at hborn
  exact ⟨s, s', .cons trivial hs (.nil s),
    .of_foldlM (fun _ _ _ => trivial) hs', hret, hnone, hunused, hkilled,
    hborn⟩

end Sys

end Xv6.Kernel
