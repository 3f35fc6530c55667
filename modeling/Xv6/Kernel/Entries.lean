import Xv6.Kernel.Table
import Xv6.Vm.Depart

/-!
# What the steps do to the entries of the process table

A call of a running process rewrites its entry, `fork` fills an unused one,
`wait` frees one, and the rest only wakes processes up or gives them a new
parent. A property of entries that these keep is an invariant of the table as
soon as `exit` and `kill` keep it.
-/

namespace Xv6.Kernel

open Framework Vm

namespace Entry

variable {e e' : Entry}

/-- A new parent, or an end to sleep. -/
structure Nudged (e e' : Entry) : Prop where
  eq : e' = { e with parent := e'.parent, state := e'.state }
  parent : e.parent = none → e'.parent = none
  state : e'.state = e.state ∨ e.state = .sleeping ∧ e'.state = .runnable

theorem Nudged.refl (e : Entry) : Nudged e e := ⟨rfl, id, Or.inl rfl⟩

theorem Nudged.trans {e₁ : Entry} (h : Nudged e e₁) (h' : Nudged e₁ e') :
    Nudged e e' where
  eq := by
    rw [h'.eq, h.eq]
  parent := fun hp => h'.parent (h.parent hp)
  state := by
    rcases h'.state with h₁ | ⟨h₁, h₂⟩
    · rw [h₁]
      exact h.state
    · rcases h.state with h₃ | ⟨h₃, -⟩
      · exact Or.inr ⟨h₃ ▸ h₁, h₂⟩
      · exact Or.inr ⟨h₃, h₂⟩

theorem Nudged.unused (h : Nudged e e') (hu : e'.state = .unused) :
    e.state = .unused := by
  rcases h.state with hs | ⟨-, hs⟩
  · rw [← hs, hu]
  · rw [hs] at hu
    cases hu

theorem Nudged.zombie (h : Nudged e e') (hz : e'.state = .zombie) :
    e.state = .zombie := by
  rcases h.state with hs | ⟨-, hs⟩
  · rw [← hs, hz]
  · rw [hs] at hz
    cases hz

/-- A property that only `exit` and `kill` can spoil. -/
structure Rule (P : Entry → Prop) : Prop where
  live : ∀ e, e.state ≠ .unused → e.state ≠ .zombie → Framed e.vma → P e
  framed : ∀ e, P e → Framed e.vma
  free : ∀ e, P e → e.state = .unused ∨ e.state = .zombie → P e.free
  nudged : ∀ e e', Nudged e e' → P e → P e'

end Entry

namespace Sys

variable {s s' : Sys} {i j : ProcId} {st : State}

/-! ## What a call sees and changes -/

theorem current_ok (h : s.current i = .ok st) :
    (s.proc i).state = .running ∧ ∃ m, (s.proc i).memory = some m ∧
      st = { kmem := s.kmem, file := s.file, inode := s.inode, pipe := s.pipe
             freeBlocks := s.freeBlocks, p := (s.proc i).view m.1 m.2 } := by
  unfold current at h
  split at h
  · rename_i hstate hview
    cases h
    obtain ⟨m, hm, rfl⟩ := Option.map_eq_some_iff.mp hview
    exact ⟨hstate, m, hm, rfl⟩
  · cases h

theorem lift_ok {α : Type} {x : Except Panic α} {a : α}
    (h : lift x = .ok a) : x = .ok a := by
  cases x with
  | error e => cases h
  | ok b =>
    cases h
    rfl

theorem call_ok {α : Type} {f : State → Except Panic (State × α)}
    (h : s.call i f = .ok s') : ∃ st st' a, s.current i = .ok st ∧
      f st = .ok (st', a) ∧ s' = s.put i st' := by
  obtain ⟨st, hcur, h⟩ := bind_ok_iff.mp h
  obtain ⟨⟨st', a⟩, hf, h⟩ := bind_ok_iff.mp h
  cases h
  exact ⟨st, st', a, hcur, lift_ok hf, rfl⟩

@[simp] theorem proc_put_self (s : Sys) (i : ProcId) (st : State) :
    (s.put i st).proc i = (s.proc i).set st.p := Function.update_self ..

theorem proc_put_of_ne (s : Sys) (st : State) (h : j ≠ i) :
    (s.put i st).proc j = s.proc j := Function.update_of_ne h ..

@[simp] theorem proc_setEntry_self (s : Sys) (i : ProcId) (e : Entry) :
    (s.setEntry i e).proc i = e := Function.update_self ..

theorem proc_setEntry_of_ne (s : Sys) (e : Entry) (h : j ≠ i) :
    (s.setEntry i e).proc j = s.proc j := Function.update_of_ne h ..

/-! ## Waking up and new parents -/

theorem wakeup_nudged (s : Sys) (i c j : ProcId) :
    (s.proc j).Nudged ((s.wakeup i c).proc j) := by
  dsimp only [wakeup]
  split
  · rename_i h
    exact ⟨rfl, id, Or.inr ⟨h.2.1, rfl⟩⟩
  · exact .refl _

theorem adopt_nudged (s : Sys) (i j : ProcId) :
    (s.proc j).Nudged ((s.adopt i).proc j) := by
  dsimp only [adopt]
  split
  · rename_i h
    refine ⟨rfl, fun hnone => ?_, Or.inl rfl⟩
    rw [hnone] at h
    cases h
  · exact .refl _

theorem reparent_nudged (s : Sys) (i j : ProcId) :
    (s.proc j).Nudged ((s.reparent i).proc j) := by
  unfold reparent
  split
  · exact (adopt_nudged s i j).trans (wakeup_nudged (s.adopt i) i s.initproc j)
  · exact adopt_nudged s i j

theorem wakeParent_nudged (s : Sys) (i j : ProcId) :
    (s.proc j).Nudged ((s.wakeParent i).proc j) := by
  unfold wakeParent
  split
  · exact .refl _
  · exact wakeup_nudged ..

/-- The children and the parent are told. -/
theorem orphan_nudged (s : Sys) (i j : ProcId) :
    (s.proc j).Nudged (((s.reparent i).wakeParent i).proc j) :=
  (reparent_nudged s i j).trans (wakeParent_nudged ..)

/-! ## Searching the table -/

theorem findZombie_some (h : s.findZombie i = some j) :
    (s.proc j).parent = some i ∧ (s.proc j).state = .zombie := by
  have := List.find?_some h
  exact of_decide_eq_true this

theorem findUnused_some (h : s.findUnused = some j) :
    (s.proc j).state = .unused := by
  have := List.find?_some h
  exact of_decide_eq_true this

/-- A fork finds no entry, or it does something to one. -/
theorem kfork_cases (h : s.kfork i = .ok s') : s' = s ∨
    ∃ st st' np j, s.current i = .ok st ∧ (s.proc j).state = .unused ∧
      Vm.kfork st ⟨(s.proc j).vma, (s.proc j).ofile, (s.proc j).cwd⟩ =
        .ok (st', np) ∧
      s' = { s.put i st' with nextpid := s.nextpid + 1 }.setEntry j
        ((s.proc j).forked np s.nextpid i) := by
  obtain ⟨st, hcur, h⟩ := bind_ok_iff.mp h
  split at h
  · cases h
    exact Or.inl rfl
  · rename_i j hfind
    obtain ⟨⟨st', np⟩, hfork, h⟩ := bind_ok_iff.mp h
    cases h
    exact Or.inr ⟨st, st', np, j, hcur, findUnused_some hfind, lift_ok hfork,
      rfl⟩

/-! ## A property of every entry -/

/-- Every entry has the property. -/
def Each (P : Entry → Prop) (s : Sys) : Prop := ∀ j, P (s.proc j)

variable {P : Entry → Prop}

theorem Each.setEntry (h : s.Each P) {e : Entry} (he : P e) :
    (s.setEntry i e).Each P := by
  intro j
  by_cases hj : j = i
  · subst hj
    rw [proc_setEntry_self]
    exact he
  · rw [proc_setEntry_of_ne s e hj]
    exact h j

section Rule

variable (hP : Entry.Rule P)

include hP

theorem Each.put (h : s.Each P) (hrun : (s.proc i).state = .running)
    (hf : Framed st.p.vma) : (s.put i st).Each P := by
  intro j
  by_cases hj : j = i
  · subst hj
    rw [proc_put_self]
    apply hP.live
    · show (s.proc j).state ≠ _
      rw [hrun]
      decide
    · show (s.proc j).state ≠ _
      rw [hrun]
      decide
    · exact hf
  · rw [proc_put_of_ne s st hj]
    exact h j

theorem Each.view (h : s.Each P) (hcur : s.current i = .ok st) :
    Framed st.p.vma := by
  obtain ⟨-, m, -, rfl⟩ := current_ok hcur
  exact hP.framed _ (h i)

/-- A call of a running process has to keep the ends of the mappings. -/
theorem Each.call {α : Type} {f : State → Except Panic (State × α)}
    (h : s.Each P)
    (hf : ∀ st st' a, Framed st.p.vma → f st = .ok (st', a) →
      Framed st'.p.vma) (hstep : s.call i f = .ok s') : s'.Each P := by
  obtain ⟨st, st', a, hcur, hcall, rfl⟩ := call_ok hstep
  exact h.put hP (current_ok hcur).1 (hf st st' a (h.view hP hcur) hcall)

theorem Each.call_still {α : Type} {f : State → Except Panic (State × α)}
    (h : s.Each P) (hf : ∀ st st' a, f st = .ok (st', a) →
      st'.p.vma = st.p.vma) (hstep : s.call i f = .ok s') : s'.Each P :=
  h.call hP (fun st st' a hst hcall => by rwa [hf st st' a hcall]) hstep

theorem Each.setState {src : PState} {f : Entry → Entry} (h : s.Each P)
    (hstep : s.setState i src f = .ok s')
    (hf : ∀ e, e.state = src → (f e).state ≠ .unused ∧
      (f e).state ≠ .zombie ∧ (f e).vma = e.vma) : s'.Each P := by
  unfold Sys.setState at hstep
  split at hstep
  · rename_i hstate
    cases hstep
    obtain ⟨hu, hz, hvma⟩ := hf _ hstate
    refine h.setEntry (hP.live _ hu hz ?_)
    rw [hvma]
    exact hP.framed _ (h i)
  · cases hstep

theorem Each.kfork (h : s.Each P) (hstep : s.kfork i = .ok s') :
    s'.Each P := by
  rcases kfork_cases hstep with rfl | ⟨st, st', np, j, hcur, hj, hfork, rfl⟩
  · exact h
  · have hframed := h.view hP hcur
    have hput : ({ s.put i st' with nextpid := s.nextpid + 1 } : Sys).Each P := by
      refine h.put hP (current_ok hcur).1 ?_
      rw [kfork_p hfork]
      exact hframed
    refine hput.setEntry ?_
    cases np with
    | none => exact hP.free _ (h j) (Or.inl hj)
    | some np =>
      exact hP.live _ nofun nofun
        (kfork_framed hframed (hP.framed _ (h j)) hfork)

theorem Each.freeproc (h : s.Each P) (hz : (s.proc j).state = .zombie)
    (hstep : s.freeproc j = .ok s') : s'.Each P := by
  have hfree := hP.free _ (h j) (Or.inr hz)
  dsimp only [Sys.freeproc] at hstep
  split at hstep
  · cases hstep
    exact h.setEntry hfree
  · obtain ⟨⟨km, slot⟩, -, hstep⟩ := bind_ok_iff.mp hstep
    cases hstep
    exact Each.setEntry (s := { s with kmem := km }) h hfree

theorem Each.kwait {addr : UInt64} (h : s.Each P)
    (hstep : s.kwait i addr = .ok s') : s'.Each P := by
  obtain ⟨st, hcur, hstep⟩ := bind_ok_iff.mp hstep
  have hrun := (current_ok hcur).1
  split at hstep
  · rename_i j hfind
    obtain ⟨⟨st', done⟩, hcopy, hstep⟩ := bind_ok_iff.mp hstep
    have hvma : st'.p.vma = st.p.vma := by
      have hcopy := lift_ok hcopy
      split at hcopy
      · cases hcopy
        rfl
      · exact ((copyout_still ..).returns _ hcopy).vma
    have hput : (s.put i st').Each P := by
      refine h.put hP hrun ?_
      rw [hvma]
      exact h.view hP hcur
    obtain ⟨-, hz⟩ := findZombie_some hfind
    have hji : j ≠ i := by
      rintro rfl
      rw [hrun] at hz
      cases hz
    dsimp only at hstep
    split at hstep
    · refine hput.freeproc hP ?_ (lift_ok hstep)
      rw [proc_put_of_ne s st' hji]
      exact hz
    · cases hstep
      exact hput
  · split at hstep
    · cases hstep
      exact h
    · cases hstep
      have hframed := hP.framed _ (h i)
      exact h.setEntry (hP.live _ nofun nofun hframed)

/-- `exit`, up to what becomes of the process itself. -/
theorem Each.kexit {status : Int32} (h : s.Each P)
    (hstep : s.kexit i status = .ok s')
    (hlast : ∀ st st', s.current i = .ok st → Vm.kexit st = .ok st' →
      Framed st'.p.vma ∧ ∀ e : Entry, e.state = .zombie →
        e.ofile = st'.p.ofile → e.cwd = st'.p.cwd → e.vma = st'.p.vma →
        P e) : s'.Each P := by
  unfold Sys.kexit at hstep
  split at hstep
  · cases hstep
  · obtain ⟨st, hcur, hstep⟩ := bind_ok_iff.mp hstep
    obtain ⟨st', hexit, hstep⟩ := bind_ok_iff.mp hstep
    cases hstep
    obtain ⟨hframed, hgone⟩ := hlast st st' hcur (lift_ok hexit)
    have hself := orphan_nudged (s.put i st') i i
    rw [proc_put_self] at hself
    have hput : ((s.put i st').reparent i).wakeParent i |>.Each P := by
      intro j
      exact hP.nudged _ _ (orphan_nudged (s.put i st') i j)
        (h.put hP (current_ok hcur).1 hframed j)
    refine hput.setEntry (hgone _ rfl ?_ ?_ ?_)
    · rw [hself.eq]
      rfl
    · rw [hself.eq]
      rfl
    · rw [hself.eq]
      rfl

end Rule

variable {st' : State} {u : Unit}

theorem userLoad_still {va : ℕ} (h : userLoad st va = .ok (st', u)) :
    Still st st' := by
  unfold userLoad at h
  split at h
  · cases h
    exact .refl _
  · obtain ⟨st₁, htrap, h⟩ := map_ok_iff.mp h
    cases h
    exact (usertrapFault_still ..).returns _ htrap

theorem userStore_still {va : ℕ} {b : UInt8}
    (h : userStore st va b = .ok (st', u)) : Still st st' := by
  unfold userStore at h
  split at h
  · cases h
    exact .of_same rfl rfl rfl rfl rfl rfl
  · obtain ⟨st₁, htrap, h⟩ := map_ok_iff.mp h
    cases h
    exact (usertrapFault_still ..).returns _ htrap

theorem execCommit_still {km : Kmem} {pt : PageTable} {sz : ℕ}
    (h : execCommit km pt sz st = .ok (st', u)) : Still st st' := by
  obtain ⟨st₁, hcommit, h⟩ := map_ok_iff.mp h
  cases h
  have hstill := (kexecCommit_still ..).returns _ hcommit
  exact ⟨hstill.file, hstill.pipe, hstill.ref, hstill.ofile, hstill.vma,
    hstill.cwd⟩

/-- **One step**: only `exit` and `kill` are left to look at. -/
theorem Each.step (hP : Entry.Rule P) {op : Op} (h : s.Each P)
    (hexit : ∀ i status, op = .exit i status →
      s.kexit i status = .ok s' → s'.Each P)
    (hkill : ∀ i pid, op = .kill i pid → (s.kkill pid).1.Each P)
    (hstep : s.step op = .ok s') : s'.Each P := by
  cases op with
  | fork i => exact h.kfork hP hstep
  | exit i status => exact hexit i status rfl hstep
  | wait i addr => exact h.kwait hP hstep
  | exec i km pt sz =>
    exact h.call_still hP (fun _ _ _ hc => (execCommit_still hc).vma) hstep
  | kill i pid =>
    obtain ⟨st, -, hstep⟩ := bind_ok_iff.mp hstep
    cases hstep
    exact hkill i pid rfl
  | mmap i addr len prot flags fd offset =>
    exact h.call hP (fun _ _ _ hst hc => sysMmap_framed hst hc) hstep
  | munmap i addr len =>
    exact h.call hP (fun _ _ _ hst hc => sysMunmap_framed hst hc) hstep
  | sbrk i n t =>
    exact h.call_still hP
      (fun _ _ _ hc => ((sysSbrk_still ..).returns _ hc).vma) hstep
  | load i va =>
    exact h.call_still hP (fun _ _ _ hc => (userLoad_still hc).vma) hstep
  | store i va b =>
    exact h.call_still hP (fun _ _ _ hc => (userStore_still hc).vma) hstep
  | «open» i j ip major omode =>
    exact h.call_still hP (fun _ _ _ hc => sysOpen_vma hc) hstep
  | dup i fd => exact h.call_still hP (fun _ _ _ hc => sysDup_vma hc) hstep
  | close i fd => exact h.call_still hP (fun _ _ _ hc => sysClose_vma hc) hstep
  | pipe i fdarray =>
    exact h.call_still hP (fun _ _ _ hc => sysPipe_vma hc) hstep
  | chdir i j ip =>
    exact h.call_still hP (fun _ _ _ hc => sysChdir_vma hc) hstep
  | write j ip =>
    cases hstep
    exact h
  | sleep i addr =>
    dsimp only [Sys.step] at hstep
    exact h.setState hP hstep fun e _ => ⟨nofun, nofun, rfl⟩
  | wake i =>
    dsimp only [Sys.step] at hstep
    refine h.setState hP hstep fun e he => ?_
    split
    · exact ⟨nofun, nofun, rfl⟩
    · rw [he]
      exact ⟨nofun, nofun, rfl⟩
  | yield i =>
    dsimp only [Sys.step] at hstep
    exact h.setState hP hstep fun e _ => ⟨nofun, nofun, rfl⟩
  | schedule i =>
    dsimp only [Sys.step] at hstep
    exact h.setState hP hstep fun e _ => ⟨nofun, nofun, rfl⟩

/-! ## `kkill` -/

variable {pid : Int32}

theorem findPid_some (h : s.findPid pid = some j) : (s.proc j).pid = pid := by
  have := List.find?_some h
  exact of_decide_eq_true this

theorem findPid_none (h : s.findPid pid = none) (j : ProcId) :
    (s.proc j).pid ≠ pid := by
  have := List.find?_eq_none.mp h j (List.mem_finRange j)
  simpa using this

theorem kkill_of_none (h : s.findPid pid = none) : s.kkill pid = (s, -1) := by
  simp only [kkill, h]

theorem kkill_of_some (h : s.findPid pid = some j) :
    s.kkill pid = (s.setEntry j { s.proc j with
      killed := true
      state := if (s.proc j).state = .sleeping then .runnable
        else (s.proc j).state }, 0) := by
  simp only [kkill, h]

end Sys

end Xv6.Kernel
