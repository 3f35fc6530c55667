import Xv6.Exec.Commit

/-!
# When `exec` fails (`kernel/exec.c`: `kexec`, `kernel/sysfile.c`: `sys_exec`)

An `exec` that fails leaves everything as it was, with two exceptions. A
process that has a page mapped above its size does not survive the commit:
`freewalk` panics. And `sys_exec` reads the user's array through `copyin`,
which brings in pages of the heap; they stay when the call fails.
-/

namespace Xv6.Exec

open Framework Vm

variable {pool rest used : Multiset Frame} {c c' : Caller}

/-! ## What is promised -/

/-- A call that returns -1 left everything as it was, and there was no panic
in `loadseg`, `uvmclear` or `freewalk`. -/
structure FailsClean (pool used : Multiset Frame) (c : Caller)
    (x : Except Stop (Caller × Option ℕ)) : Prop where
  loadseg : x ≠ .error .loadseg
  uvmclear : x ≠ .error .uvmclear
  freewalk : ∀ e, FreewalkStop e → x ≠ .error (.panic e)
  unchanged : ∀ c', x = .ok (c', none) → Unchanged pool used c c'

/-- The caller with any files in the inode table. -/
def Caller.withInodes (c : Caller) (inode : InodeId → Inode) : Caller :=
  { c with st := { c.st with inode := inode } }

/-- The frames of the calling process and of everybody else. -/
def Caller.frames (rest : Multiset Frame) (c : Caller) : Multiset Frame :=
  c.st.p.pagetable.owned + c.st.p.trapframe ::ₘ rest

/-- For every path, file and arguments. -/
def ExecFailsClean (pool rest : Multiset Frame) (c : Caller) : Prop :=
  ∀ inode, (∀ path exe argv, argv.Ok →
      FailsClean pool (c.frames rest) (c.withInodes inode)
        (kexec (c.withInodes inode) path exe argv)) ∧
    ∀ upath uargv namei,
      FailsClean pool (c.frames rest) (c.withInodes inode)
        (sysExec (c.withInodes inode) upath uargv namei)

/-- No page is mapped above the size, or there is too little memory for any
image; and no word that `sys_exec` may read brings in a page, unless there is
no path that it can read before. -/
structure ExecClean (s : State) : Prop where
  left : LeftMapped s.p.pagetable s.p.sz → s.kmem.freelist.length < 7
  word : (∃ upath : UInt64, (copyinstr s upath.toNat MAXPATH).2 = true) →
    ∀ addr : UInt64, ¬ WordFaults s addr.toNat

/-! ## The commit -/

/-- The words of the trapframe aside, this is `Vm.kexecCommit`. -/
theorem kexecFinish_eq (c : Caller) (path : List UInt8) (entry : ℕ)
    (pt : PageTable) (sz argc sp : ℕ) :
    ∃ km : Kmem, km.freelist = c.st.kmem.freelist ∧
      kexecFinish c path entry pt sz argc sp =
        (lift (kexecCommit { c.st with kmem := km } pt sz)).map fun s =>
          ({ c with name := execName path, st := s }, some argc) := by
  obtain ⟨km₁, hw₁, hl₁, -⟩ := kwrite_word c.st.kmem c.st.p.trapframe sp
    (show trapframeA1 + 8 ≤ PGSIZE by decide)
  obtain ⟨km₂, hw₂, hl₂, -⟩ := kwrite_word km₁ c.st.p.trapframe entry
    (show trapframeEpc + 8 ≤ PGSIZE by decide)
  obtain ⟨km₃, hw₃, hl₃, -⟩ := kwrite_word km₂ c.st.p.trapframe sp
    (show trapframeSp + 8 ≤ PGSIZE by decide)
  refine ⟨km₃, by rw [hl₃, hl₂, hl₁], ?_⟩
  unfold kexecFinish kexecCommit
  dsimp only
  rw [lift_eq_ok.mpr hw₁]
  dsimp only [bind, Except.bind]
  rw [lift_eq_ok.mpr hw₂]
  dsimp only
  rw [lift_eq_ok.mpr hw₃]
  dsimp only
  cases procFreepagetable km₃ c.st.p.pagetable c.st.p.sz <;> rfl

/-- **The commit stops just when a page is left.** -/
theorem kexecFinish_stops_iff {path : List UInt8} {entry sz argc sp : ℕ}
    {pt : PageTable}
    (hled : Ledger pool c.st.kmem (c.st.p.pagetable.owned + used)) :
    (∃ e, FreewalkStop e ∧
      kexecFinish c path entry pt sz argc sp = .error (.panic e)) ↔
      LeftMapped c.st.p.pagetable c.st.p.sz := by
  obtain ⟨km, hlist, heq⟩ := kexecFinish_eq c path entry pt sz argc sp
  rw [heq, ← procFreepagetable_stops_iff (hled.congr hlist)]
  apply exists_congr
  intro e
  refine and_congr_right fun _ => ?_
  unfold kexecCommit
  cases procFreepagetable km c.st.p.pagetable c.st.p.sz with
  | ok km' => exact ⟨nofun, nofun⟩
  | error e' =>
    constructor
    · rintro ⟨⟩
      rfl
    · rintro ⟨⟩
      rfl

theorem Ready.ledger {exe : Option (InodeId × Inode)} {argv : Argv}
    {c₁ : Caller} {entry sz argc sp : ℕ} {pt : PageTable}
    (h : Ready pool (c.frames rest) c exe argv c₁ entry pt sz argc sp) :
    Ledger pool c₁.st.kmem (c₁.st.p.pagetable.owned +
      (pt.owned + c₁.st.p.trapframe ::ₘ rest)) := by
  have hled := h.image.ledger
  rwa [Caller.frames, add_left_comm, ← h.p] at hled

/-- **A `kexec` that returns -1 left everything as it was.** -/
theorem kexec_unchanged {argv : Argv} {path : List UInt8}
    {exe : Option (InodeId × Inode)}
    (hled : Ledger pool c.st.kmem (c.frames rest)) (hargv : argv.Ok)
    (hcall : kexec c path exe argv = .ok (c', none)) :
    Unchanged pool (c.frames rest) c c' := by
  rcases kexec_cases hled path exe hargv with
    ⟨c₂, hnone, hsame⟩ | ⟨c₁, entry, pt, sz, argc, sp, hfinish, -⟩
  · cases hnone.symm.trans hcall
    exact hsame
  · obtain ⟨km, -, heq⟩ := kexecFinish_eq c₁ path entry pt sz argc sp
    rw [hfinish, heq] at hcall
    cases hcommit : kexecCommit { c₁.st with kmem := km } pt sz <;>
      rw [hcommit] at hcall <;> cases hcall

/-- `kexec` fails clean if the commit does not stop. -/
theorem kexec_failsClean {argv : Argv}
    (hled : Ledger pool c.st.kmem (c.frames rest))
    (hleft : LeftMapped c.st.p.pagetable c.st.p.sz →
      c.st.kmem.freelist.length < 7)
    (path : List UInt8) (exe : Option (InodeId × Inode)) (hargv : argv.Ok) :
    FailsClean pool (c.frames rest) c (kexec c path exe argv) := by
  have honly := kexec_onlyPanics hled path exe hargv
  refine ⟨honly.ne_error (by simp), honly.ne_error (by simp), ?_,
    fun c' => kexec_unchanged hled hargv⟩
  intro e hstop hcall
  rcases kexec_cases hled path exe hargv with
    ⟨c₂, hnone, -⟩ | ⟨c₁, entry, pt, sz, argc, sp, hfinish, hready⟩
  · cases hnone.symm.trans hcall
  · have hmapped := (kexecFinish_stops_iff hready.ledger).mp
      ⟨e, hstop, hfinish.symm.trans hcall⟩
    rw [hready.p] at hmapped
    have := hleft hmapped
    have := hready.seven_le hled
    omega

/-- With seven free frames some file gets to the commit, and there it
stops. -/
theorem exists_kexec_stops (hled : Ledger pool c.st.kmem (c.frames rest))
    (hmapped : LeftMapped c.st.p.pagetable c.st.p.sz)
    (hfree : 7 ≤ c.st.kmem.freelist.length)
    (hunused : (c.st.inode 0).ref = 0) :
    ∃ e, FreewalkStop e ∧
      kexec c [] (some (0, bareElf)) (fun _ => none) = .error (.panic e) := by
  have hargv : Argv.Ok fun _ => none := ⟨⟨⟨0, by decide⟩, rfl⟩, nofun⟩
  rcases kexec_cases hled [] (some (0, bareElf)) hargv with
    ⟨c₂, hnone, -⟩ | ⟨c₁, entry, pt, sz, argc, sp, hfinish, hready⟩
  · exact absurd hnone (kexec_of_seven hled hfree hunused [] c₂)
  · rw [hfinish]
    refine (kexecFinish_stops_iff hready.ledger).mpr ?_
    rw [hready.p]
    exact hmapped

/-! ## Fetching the arguments -/

/-- A panic in `freewalk`. -/
def FreewalkPanic (x : Stop) : Prop := ∃ e, FreewalkStop e ∧ x = .panic e

theorem lift_no_stop {α : Type} {x : Except Panic α}
    (h : ∀ e, x = .error e → ¬ FreewalkStop e) :
    Meets FreewalkPanic (lift x) fun a => x = .ok a := by
  cases x with
  | ok a => exact .ok rfl
  | error e =>
    refine .error ?_
    rintro ⟨e', hstop, heq⟩
    cases heq
    exact h e rfl hstop

theorem freeArgs_no_stop (km : Kmem) (args : List Arg) :
    Meets FreewalkPanic (freeArgs km args) fun _ => True := by
  refine Meets.foldlM_inv (I := fun _ => True) (fun km a _ => ?_) trivial
  refine (lift_no_stop fun e he => ?_).mono fun _ _ => trivial
  unfold kfree at he
  split at he
  · cases he
    decide
  · cases he

/-- The pages of the arguments go back. -/
theorem freeArgs_ledger : ∀ {args : List Arg} {km : Kmem},
    Ledger pool km (argPages args + used) →
    ∃ km', freeArgs km args = .ok km' ∧ Ledger pool km' used := by
  intro args
  induction args with
  | nil =>
    intro km hled
    exact ⟨km, rfl, by rwa [argPages, List.map_nil, Multiset.coe_nil,
      zero_add] at hled⟩
  | cons a args ih =>
    intro km hled
    have hpages : argPages (a :: args) = a.page ::ₘ argPages args := rfl
    rw [hpages, Multiset.cons_add] at hled
    obtain ⟨km₁, halways, hled₁⟩ := Ledger.free hled
    obtain ⟨km₂, hfree, hled₂⟩ := ih hled₁
    refine ⟨km₂, ?_, hled₂⟩
    unfold freeArgs
    rw [List.foldlM_cons]
    exact bind_ok_iff.mpr
      ⟨km₁, lift_eq_ok.mpr (halways kfree standsIn_kfree), hfree⟩

variable {s : State}

/-- With fewer free frames no more words fault. -/
theorem WordFaults.mono {s' : State} {addr : ℕ} (h : WordFaults s' addr)
    (hp : s'.p = s.p) (hfree : s'.kmem.freelist.length ≤ s.kmem.freelist.length) :
    WordFaults s addr := by
  obtain ⟨hlt, hend, k, hk, hbefore, hva, hleaf, hroom⟩ := h
  rw [hp] at hlt hend hbefore hleaf hroom
  refine ⟨hlt, hend, k, hk, hbefore, hva, hleaf, ?_⟩
  exact hroom.imp (Nat.le_trans · hfree)
    fun hone => ⟨Nat.le_trans hone.1 hfree, hone.2⟩

theorem ArgsHeld.length_le {s₀ : State} {args : List Arg}
    (h : ArgsHeld pool rest s₀ s args) :
    s.kmem.freelist.length ≤ s₀.kmem.freelist.length :=
  h.spares.free.length_le

/-- The loop of `sys_exec` from any state that it gets to: it does not run
into `freewalk`, it keeps account of the frames, and if none of its words
faults then it changes nothing of the process. -/
theorem fetchArgs_held {s₀ : State} (uargv : ℕ) : ∀ {n i : ℕ} {s : State}
    {args : List Arg}, ArgsHeld pool rest s₀ s args →
    Meets FreewalkPanic (fetchArgs uargv n i s args) fun r =>
      ArgsHeld pool rest s₀ r.1 r.2.1 ∧ (s.p = s₀.p →
        (∀ k, i ≤ k → k < i + n →
          ¬ WordFaults s₀ ((uargv + 8 * k) % 2 ^ 64)) → r.1.p = s₀.p) := by
  intro n
  induction n with
  | zero =>
    intro i s args hheld
    exact .ok ⟨hheld, fun hp _ => hp⟩
  | succ n ih =>
    intro i s args hheld
    have haddr : (uargv + 8 * i) % 2 ^ 64 < 2 ^ 64 :=
      Nat.mod_lt _ (by decide)
    refine Meets.bind (lift_no_stop fun e he => ?_) ?_
    · rcases hheld.accounted.fetchaddr_cases haddr with
        ⟨-, herr⟩ | ⟨_, _, hok, -⟩
      · cases herr.symm.trans he
        decide
      · cases hok.symm.trans he
    rintro ⟨s₁, o⟩ hfetch
    have hread := hheld.accounted.fetchaddr haddr hfetch
    have hheld₁ := hheld.fetched haddr hfetch
    have hp₁ : s.p = s₀.p → (∀ k, i ≤ k → k < i + (n + 1) →
        ¬ WordFaults s₀ ((uargv + 8 * k) % 2 ^ 64)) → s₁.p = s₀.p := by
      intro hp hno
      refine (hread.quiet fun hw => ?_).trans hp
      exact hno i le_rfl (by omega) (hw.mono hp hheld.length_le)
    dsimp only
    split
    · exact .ok ⟨hheld₁, hp₁⟩
    · exact .ok ⟨hheld₁, hp₁⟩
    · rename_i a
      split
      · exact .ok ⟨hheld₁, hp₁⟩
      · rename_i f km₁ halloc
        refine Meets.bind (lift_no_stop fun e he => ?_) ?_
        · unfold kwrite at he
          split at he
          · cases he
          · cases he
            decide
        intro km₂ hwrite
        have hlt := (hread.word _ rfl).lt
        have hheld₂ : ∀ str, ArgsHeld pool rest s₀ { s₁ with kmem := km₂ }
            (args ++ [⟨f, str⟩]) := fun _ =>
          hheld₁.concat halloc (length_copyinstr hlt) hwrite
        split
        · exact (ih (hheld₂ _)).mono fun r hr => ⟨hr.1, fun hp hno =>
            hr.2 (hp₁ hp hno) fun k hk hlt => hno k (by omega) (by omega)⟩
        · exact .ok ⟨hheld₂ _, hp₁⟩

/-! ## `sys_exec` -/

theorem Unchanged.refl (hled : Ledger pool c.st.kmem used) :
    Unchanged pool used c c :=
  ⟨rfl, rfl, rfl, rfl, fun _ => ⟨rfl, fun _ => rfl⟩, id, rfl, hled,
    fun _ _ _ _ => rfl⟩

/-- The frames while the arguments are held. -/
theorem argFrames (args : List Arg) (s : State) (rest : Multiset Frame) :
    s.p.pagetable.owned + s.p.trapframe ::ₘ (argPages args + rest) =
      argPages args + (s.p.pagetable.owned + s.p.trapframe ::ₘ rest) := by
  rw [← Multiset.singleton_add, ← Multiset.singleton_add]
  abel

/-- The arguments were fetched and given back around a call that changed
nothing. -/
theorem ArgsHeld.unchanged {args : List Arg} {c₁ : Caller}
    (hheld : ArgsHeld pool rest c.st s args) (hp : s.p = c.st.p)
    (hled : Ledger pool c.st.kmem (c.frames rest))
    (hcall : Unchanged pool (s.p.pagetable.owned +
      s.p.trapframe ::ₘ (argPages args + rest)) { c with st := s } c₁) :
    ∃ km, freeArgs c₁.st.kmem args = .ok km ∧
      Unchanged pool (c.frames rest) c (c₁.setKmem km) := by
  have hused := hcall.ledger
  rw [argFrames, hp] at hused
  obtain ⟨km, hfree, hled'⟩ := freeArgs_ledger hused
  refine ⟨km, hfree, hcall.p.trans hp, hcall.name,
    hcall.file.trans hheld.touched.file, hcall.pipe.trans hheld.touched.pipe,
    ?_, hcall.locked, hcall.ops, hled', ?_⟩
  · intro i
    have hinode := hcall.inode i
    dsimp only at hinode
    rwa [hheld.touched.inode] at hinode
  · intro f hf
    have hnodup := (Multiset.nodup_add.mp hused.used_nodup).2.2
    have hmem : f ∈ s.p.pagetable.owned +
        s.p.trapframe ::ₘ (argPages args + rest) := by
      rw [argFrames, hp]
      exact Multiset.mem_add.mpr (Or.inr hf)
    exact ((hheld.spares.same f (hled.not_free hf)).trans
      (hcall.same f hmem)).trans (freeArgs_same hfree fun harg =>
        Multiset.disjoint_left.mp hnodup harg hf)

/-- **A `sys_exec` that returns -1 left everything as it was** if no word of
its array faults; and it does not run into `freewalk` if the commit does not
stop. -/
theorem sysExec_meets (h : Accounted pool rest c.st) (upath uargv : UInt64)
    (namei : List UInt8 → Option (InodeId × Inode))
    (hno : (copyinstr c.st upath.toNat MAXPATH).2 = true → ∀ k < MAXARG,
      ¬ WordFaults c.st ((uargv.toNat + 8 * k) % 2 ^ 64)) :
    Meets (fun x => FreewalkPanic x ∧ (LeftMapped c.st.p.pagetable c.st.p.sz →
        c.st.kmem.freelist.length < 7)) (sysExec c upath uargv namei)
      fun r => r.2 = none → Unchanged pool (c.frames rest) c r.1 := by
  unfold sysExec
  dsimp only
  split
  · rename_i hgot
    have hfetched := (fetchArgs_held (n := MAXARG) (i := 0) uargv.toNat
      (.nil h)).imp fun r hr hq => And.intro hr hq
    refine (hfetched.weaken fun _ hbad => hbad.1).bind ?_
    rintro ⟨s, args, done⟩ ⟨hfetch, hheld, hquiet⟩
    have hp : s.p = c.st.p := hquiet rfl fun k _ hk =>
      hno hgot k (by rwa [Nat.zero_add] at hk)
    have hfrees : ∀ km, Meets (fun x => FreewalkPanic x ∧
        (LeftMapped c.st.p.pagetable c.st.p.sz →
          c.st.kmem.freelist.length < 7)) (freeArgs km args)
        fun km' => freeArgs km args = .ok km' := fun km =>
      ((freeArgs_no_stop km args).imp fun _ hkm _ => hkm).weaken
        fun _ hbad => hbad.1
    cases done with
    | false =>
      refine (hfrees _).bind fun km hkm => ?_
      obtain ⟨km', hfree, hsame⟩ := hheld.unchanged hp h.ledger
        (Unchanged.refl hheld.accounted.ledger)
      cases hkm.symm.trans hfree
      exact .ok fun _ => hsame
    | true =>
      obtain ⟨hlen, hread, -⟩ :=
        (fetchArgs_ok (.nil h) (.nil c.st uargv) hfetch).2 rfl
      rw [List.length_nil, Nat.zero_add] at hlen
      generalize (copyinstr c.st upath.toNat MAXPATH).1.dropLast = path
      have hargv := toArgv_ok hread hlen
      have hled := hheld.accounted.ledger
      refine Meets.bind (Q := fun r => r.2 = none →
        ∃ km, freeArgs r.1.st.kmem args = .ok km ∧
          Unchanged pool (c.frames rest) c (r.1.setKmem km)) ⟨?_, ?_⟩ ?_
      · rintro ⟨c₁, ret⟩ hcall rfl
        exact hheld.unchanged hp h.ledger
          (kexec_unchanged (c := { c with st := s }) hled hargv hcall)
      · rintro _ herr ⟨⟨e, hstop, rfl⟩, hleft⟩
        refine (kexec_failsClean (c := { c with st := s }) hled
          (fun hmapped => ?_) path (namei path) hargv).freewalk e hstop herr
        rw [hp] at hmapped
        exact Nat.lt_of_le_of_lt hheld.length_le (hleft hmapped)
      · rintro ⟨c₁, ret⟩ hcall
        refine (hfrees _).bind fun km hkm => .ok fun hret => ?_
        obtain ⟨km', hfree, hsame⟩ := hcall hret
        cases hkm.symm.trans hfree
        exact hsame
  · exact .ok fun _ => .refl h.ledger

theorem sysExec_failsClean (h : Accounted pool rest c.st)
    (hclean : ExecClean c.st) (upath uargv : UInt64)
    (namei : List UInt8 → Option (InodeId × Inode)) :
    FailsClean pool (c.frames rest) c (sysExec c upath uargv namei) := by
  have honly := sysExec_onlyPanics h upath uargv namei
  have hmeets := sysExec_meets h upath uargv namei fun hgot k _ => by
    have hword := hclean.word ⟨upath, hgot⟩
      (UInt64.ofNat (uargv.toNat + 8 * k))
    rwa [UInt64.toNat_ofNat'] at hword
  exact ⟨honly.ne_error (by simp), honly.ne_error (by simp),
    fun e he => hmeets.ne_error ⟨⟨e, he, rfl⟩, hclean.left⟩,
    fun c' hc => hmeets.returns _ hc rfl⟩

/-! ## A word that faults -/

theorem Accounted.card (h : Accounted pool rest s) :
    s.kmem.freelist.length + (s.p.pagetable.owned.card + (rest.card + 1)) =
      pool.card := by
  have hsum := congrArg Multiset.card h.ledger.sum
  rwa [Multiset.card_add, Multiset.coe_card, Multiset.card_add,
    Multiset.card_cons] at hsum

/-- What the kernel holds of a string fits in its page. -/
theorem kwrite_arg (km : Kmem) (f : Frame) {bs : List UInt8}
    (hlen : bs.length ≤ PGSIZE) : ∃ km', kwrite km f.pa bs = .ok km' := by
  have hlo := f.KERNBASE_le_pa
  have hhi := f.pa_add_le
  exact ⟨_, if_pos ⟨hlo, by omega⟩⟩

/-- The loop ends after one word: there is none, or it is the null pointer,
or `fetchaddr` rejects the next address. -/
theorem fetchArgs_one {s₁ : State} {uargv : ℕ} {o : Option ℕ}
    (haddr : uargv < 2 ^ 64) (h : Accounted pool rest s)
    (hfetch : fetchaddr s uargv = .ok (s₁, o))
    (hnext : ∀ a, o = some (a + 1) → s.p.sz ≤ (uargv + 8) % 2 ^ 64 ∨
      s.p.sz < ((uargv + 8) % 2 ^ 64 + 8) % 2 ^ 64) :
    ∃ s' args' done, fetchArgs uargv MAXARG 0 s [] = .ok (s', args', done) ∧
      s'.p = s₁.p ∧ (done = true → args' = []) := by
  have hread := h.fetchaddr haddr hfetch
  have hfirst : lift (fetchaddr s ((uargv + 8 * 0) % 2 ^ 64)) =
      .ok (s₁, o) := by
    rw [lift_eq_ok, Nat.mul_zero, Nat.add_zero, Nat.mod_eq_of_lt haddr, hfetch]
  rw [show MAXARG = 30 + 1 + 1 from rfl, fetchArgs, hfirst]
  dsimp only [bind, Except.bind]
  cases o with
  | none => exact ⟨s₁, [], false, rfl, rfl, nofun⟩
  | some a =>
    cases a with
    | zero => exact ⟨s₁, [], true, rfl, rfl, fun _ => rfl⟩
    | succ a =>
      cases halloc : kalloc s₁.kmem with
      | none => exact ⟨s₁, [], false, rfl, rfl, nofun⟩
      | some fk =>
        obtain ⟨f, km₁⟩ := fk
        obtain ⟨km₂, hwrite⟩ := kwrite_arg km₁ f
          (@length_copyinstr { s₁ with kmem := km₁ } _ PGSIZE
            (hread.word _ rfl).lt)
        show ∃ s' args' done, Except.bind (lift (kwrite km₁ f.pa
          (copyinstr { s₁ with kmem := km₁ } (a + 1) PGSIZE).1)) _ = _ ∧
          _ ∧ _
        rw [lift_eq_ok.mpr hwrite]
        dsimp only [Except.bind]
        split
        · have hstop : fetchaddr { s₁ with kmem := km₂ }
              ((uargv + 8 * (0 + 1)) % 2 ^ 64) =
              .ok ({ s₁ with kmem := km₂ }, none) := by
            unfold fetchaddr
            refine if_pos ?_
            show s₁.p.sz ≤ _ ∨ s₁.p.sz < _
            rw [hread.touched.sz]
            exact hnext a rfl
          rw [fetchArgs, lift_eq_ok.mpr hstop]
          exact ⟨_, _, false, rfl, rfl, nofun⟩
        · exact ⟨_, _, false, rfl, rfl, nofun⟩

/-- A call without a file fails, and the page table is what the first word
left. -/
theorem sysExec_one {s₁ : State} {upath uargv : UInt64} {o : Option ℕ}
    (h : Accounted pool rest c.st)
    (hpath : (copyinstr c.st upath.toNat MAXPATH).2 = true)
    (hfetch : fetchaddr c.st uargv.toNat = .ok (s₁, o))
    (hnext : ∀ a, o = some (a + 1) →
      c.st.p.sz ≤ (uargv.toNat + 8) % 2 ^ 64 ∨
      c.st.p.sz < ((uargv.toNat + 8) % 2 ^ 64 + 8) % 2 ^ 64) :
    ∃ c', sysExec c upath uargv (fun _ => none) = .ok (c', none) ∧
      c'.st.p = s₁.p := by
  obtain ⟨s', args', done, hloop, hp, hnil⟩ :=
    fetchArgs_one uargv.toNat_lt h hfetch hnext
  have hheld := (fetchArgs_ok (.nil h) (.nil c.st uargv) hloop).1
  have hled := hheld.accounted.ledger
  rw [argFrames] at hled
  obtain ⟨km, hfree, -⟩ := freeArgs_ledger hled
  unfold sysExec
  dsimp only
  rw [if_pos hpath, hloop]
  dsimp only [bind, Except.bind]
  cases done with
  | false =>
    rw [if_neg (by decide), hfree]
    exact ⟨_, rfl, hp⟩
  | true =>
    obtain rfl := hnil rfl
    exact ⟨_, rfl, hp⟩

/-- **A word that faults makes `sys_exec` fail with another page table.** -/
theorem exists_sysExec_changes (h : Accounted pool rest c.st)
    {upath addr : UInt64}
    (hpath : (copyinstr c.st upath.toNat MAXPATH).2 = true)
    (hword : WordFaults c.st addr.toNat) :
    ∃ (uargv : UInt64) (c' : Caller),
      sysExec c upath uargv (fun _ => none) = .ok (c', none) ∧
      c'.st.p ≠ c.st.p := by
  -- it is enough to have a word that faults and ends the loop
  suffices hend : ∃ uargv : UInt64, WordFaults c.st uargv.toNat ∧
      uargv.toNat + 8 ≤ MAXVA ∧ ∀ s₁ a,
        fetchaddr c.st uargv.toNat = .ok (s₁, some (a + 1)) →
        c.st.p.sz ≤ (uargv.toNat + 8) % 2 ^ 64 ∨
        c.st.p.sz < ((uargv.toNat + 8) % 2 ^ 64 + 8) % 2 ^ 64 by
    obtain ⟨uargv, hfaults, hmax, hnext⟩ := hend
    rcases h.fetchaddr_cases uargv.toNat_lt with
      ⟨hover, -⟩ | ⟨s₁, o, hfetch, hread⟩
    · omega
    obtain ⟨c', hcall, hp⟩ := sysExec_one h hpath hfetch (by
      rintro a rfl
      exact hnext s₁ a hfetch)
    refine ⟨uargv, c', hcall, fun hsame => ?_⟩
    have hless := hread.brought hfaults
    have hbefore := h.card
    have hafter := hread.accounted.card
    rw [← hp, hsame] at hafter
    omega
  obtain ⟨hlt, hle, k, hk, hbefore, hbrings⟩ := hword
  have hdown := pgrounddown_le (addr.toNat + k)
  have hup := lt_pgrounddown_add (addr.toNat + k)
  have hpage := pgrounddown_mod (addr.toNat + k)
  obtain ⟨va, hsame⟩ : ∃ va, pgrounddown (addr.toNat + k) = va := ⟨_, rfl⟩
  have hbrings' := hbrings
  rw [hsame] at hdown hup hpage hbrings'
  obtain ⟨hva, hleaf, hroom⟩ := hbrings'
  have hfit : va + PGSIZE ≤ MAXVA := by
    unfold PGSIZE MAXVA at *
    omega
  have hmaxva : MAXVA = 2 ^ 38 := rfl
  have hsize : PGSIZE = 4096 := rfl
  rcases Nat.lt_or_ge c.st.p.sz (va + 8) with hlast | hroomy
  · -- the size ends the array
    have hmod : (addr.toNat + 8) % 2 ^ 64 = addr.toNat + 8 :=
      Nat.mod_eq_of_lt (by omega)
    have hmod' : (addr.toNat + 8 + 8) % 2 ^ 64 = addr.toNat + 8 + 8 :=
      Nat.mod_eq_of_lt (by omega)
    refine ⟨addr, ⟨hlt, hle, k, hk, hbefore, hbrings⟩, ?_, ?_⟩
    · rw [hmod] at hle
      omega
    · intro _ _ _
      rw [hmod, hmod']
      omega
  · -- a page of zeroes starts with a null pointer
    have hnat : (UInt64.ofNat va).toNat = va :=
      UInt64.toNat_ofNat_of_lt' (show va < 2 ^ 64 by omega)
    have hself := pgrounddown_of_mod hpage
    refine ⟨UInt64.ofNat va, ?_, by omega, ?_⟩
    · rw [hnat]
      refine ⟨by omega, ?_, 0, by decide,
        fun j hj => absurd hj (Nat.not_lt_zero j), ?_⟩
      · rw [Nat.mod_eq_of_lt (by omega)]
        exact hroomy
      · rw [Nat.add_zero, hself]
        exact ⟨hva, hleaf, hroom⟩
    · intro s₁ a hfetch
      rw [hnat] at hfetch
      obtain ⟨b, hb, hx⟩ :=
        (h.fetchaddr (show va < 2 ^ 64 by omega) hfetch).word _ rfl
      have hzero : ∀ j < 8, b j = 0 := by
        intro j hj
        have hin : pgrounddown (va + j) = va := by
          have hdiv := Nat.div_add_mod va PGSIZE
          have hstart : PGSIZE * (va / PGSIZE) = va := by omega
          show (va + j) / PGSIZE * PGSIZE = va
          rw [← hstart, Nat.mul_add_div (by decide),
            Nat.div_eq_of_lt (show j < PGSIZE by omega), Nat.add_zero,
            Nat.mul_comm]
        have hbyte := hb j hj
        rw [userByte, if_pos (show va + j < MAXVA by omega),
          ← PageTable.leaf_pgrounddown, hin, hleaf] at hbyte
        dsimp only at hbyte
        rw [if_pos (show va < c.st.p.sz by omega)] at hbyte
        exact (Option.some.inj hbyte).symm
      have hnull : leNat b 0 8 = leNat (fun _ => 0) 0 8 :=
        leNat_congr fun j _ hj => hzero j (by omega)
      rw [hnull] at hx
      cases hx

/-! ## Both directions -/

/-- Strings are read through the page table and the memory alone. -/
theorem copyinstr_withInodes (c : Caller) (inode : InodeId → Inode)
    (upath : UInt64) :
    copyinstr (c.withInodes inode).st upath.toNat MAXPATH =
      copyinstr c.st upath.toNat MAXPATH := by
  rw [copyinstr_eq_scan _ _ _ upath.toNat_lt,
    copyinstr_eq_scan _ _ _ upath.toNat_lt]
  rfl

theorem Accounted.withInodes (h : Accounted pool rest c.st)
    (inode : InodeId → Inode) :
    Accounted pool rest (c.withInodes inode).st :=
  ⟨h.ledger, h.trap⟩

/-- **A failed `exec` changes nothing just when no page is mapped above the
size or memory is too short for any image, and no word of the heap that the
user may pass brings in a page.** Call by call: a `kexec` that returns -1
changes nothing, whatever the process, and no `sys_exec` does unless a word of
its own array brings in a page. -/
theorem exec_fails_clean_iff (h : Accounted pool rest c.st) :
    (ExecFailsClean pool rest c ↔ ExecClean c.st) ∧
    (∀ path exe argv c', argv.Ok → kexec c path exe argv = .ok (c', none) →
      Unchanged pool (c.frames rest) c c') ∧
    ∀ (upath uargv : UInt64) (namei : List UInt8 → Option (InodeId × Inode)) c',
      (∀ k < MAXARG, ¬ WordFaults c.st ((uargv.toNat + 8 * k) % 2 ^ 64)) →
      sysExec c upath uargv namei = .ok (c', none) →
      Unchanged pool (c.frames rest) c c' := by
  refine ⟨⟨?_, ?_⟩, ?_, ?_⟩
  · intro hclean
    refine ⟨fun hmapped => ?_, ?_⟩
    · by_contra hfree
      obtain ⟨e, hstop, hcall⟩ := exists_kexec_stops
        (c := c.withInodes fun _ => {}) h.ledger hmapped
        (Nat.not_lt.mp hfree) rfl
      have hargv : Argv.Ok fun _ => none := ⟨⟨⟨0, by decide⟩, rfl⟩, nofun⟩
      exact ((hclean fun _ => {}).1 [] _ _ hargv).freewalk e hstop hcall
    · rintro ⟨upath, hpath⟩ addr hword
      obtain ⟨uargv, c', hcall, hne⟩ := exists_sysExec_changes h hpath hword
      exact hne (((hclean c.st.inode).2 upath uargv _).unchanged c' hcall).p
  · intro hclean inode
    have hacc := h.withInodes inode
    refine ⟨fun path exe argv hargv => ?_, fun upath uargv namei => ?_⟩
    · exact kexec_failsClean hacc.ledger hclean.left path exe hargv
    · refine sysExec_failsClean hacc ⟨hclean.left, ?_⟩ upath uargv namei
      rintro ⟨upath', hpath⟩
      rw [copyinstr_withInodes] at hpath
      exact hclean.word ⟨upath', hpath⟩
  · exact fun path exe argv c' hargv => kexec_unchanged h.ledger hargv
  · intro upath uargv namei c' hno hcall
    exact (sysExec_meets h upath uargv namei fun _ => hno).returns _ hcall rfl

/-! ### A process of one page, with a path and arguments in it -/

theorem argCaller_leaf {va : ℕ} (hva : va < TRAPFRAME) (hpage : PGSIZE ≤ va) :
    argCaller.st.p.pagetable.leaf va = none := by
  show argFault.p.pagetable.leaf va = none
  unfold argFault
  split
  · rename_i hcall
    have hfault : Faulted _ 0 true _ _ :=
      vmfaultHeap_spec (show 0 < PGSIZE by decide) hcall
    cases hfault with
    | unserved leaf => exact (leaf va).trans (bootTable_leaf hva)
    | denied above => exact absurd above (by decide)
    | file above => exact absurd above (by decide)
    | heap below filled =>
      refine (filled.other va (Nat.lt_trans hva TRAPFRAME_lt_MAXVA) ?_).trans
        (bootTable_leaf hva)
      unfold pgrounddown PGSIZE at *
      omega
  · exact bootTable_leaf hva

/-- It calls `exec` with the path of a file that does not exist. -/
theorem exec_fails_clean_arg :
    ExecFailsClean ((argFree ++ (bootTable.frames ++ [103]) : List Frame) :
      Multiset Frame) 0 argCaller ∧
    ∃ c', sysExec argCaller 0 8 (fun _ => none) = .ok (c', none) ∧
      Unchanged ((argFree ++ (bootTable.frames ++ [103]) : List Frame) :
        Multiset Frame) (argCaller.frames 0) argCaller c' := by
  have hsz : argCaller.st.p.sz = PGSIZE := by decide +kernel
  have hclean := (exec_fails_clean_iff argCaller_accounted).1.mpr ⟨?_, ?_⟩
  · obtain ⟨⟨c', ret⟩, hcall, hret⟩ := exists_ok_of_any (show ((sysExec
      argCaller 0 8 (fun _ => none)).toOption.any
        fun r : Caller × Option ℕ => r.2.isNone) = true by decide +kernel)
    cases Option.isNone_iff_eq_none.mp hret
    exact ⟨hclean, c', hcall,
      ((hclean argCaller.st.inode).2 0 8 _).unchanged c' hcall⟩
  · rintro ⟨va, hva, hle, hleaf⟩
    rw [hsz] at hle
    exact absurd (argCaller_leaf hva hle) hleaf
  · rintro - addr ⟨hlt, hle, k, hk, -, -, hnone, -⟩
    have hzero : pgrounddown (addr.toNat + k) = 0 := by
      rw [hsz] at hlt hle
      unfold pgrounddown PGSIZE at *
      omega
    have hpage : (argCaller.st.p.pagetable.leaf 0).isSome = true := by
      decide +kernel
    rw [hzero] at hnone
    rw [hnone] at hpage
    cases hpage

/-! ### The two exceptions -/

/-- A process reads the first byte of a page of a file it mapped. -/
def mappedOps : List Op :=
  [.mmap 0 4096 1 2 0 0, .load 0x3fffffd000]

/-- A process with a mapped page calls `exec`, and the machine panics. A
process whose heap grew by a page it did not touch yet passes that page as the
array and names a file that does not exist: `exec` fails and the page is
there. -/
theorem exec_fails_unclean :
    (∃ s, mappedOps.foldlM step (bootState argFree rwFile (tinyFile 0)) =
        .ok s ∧
      kexec { argCaller with st := s } [] (some (0, tinyFile 0))
        (fun _ => none) = .error (.panic .freewalkLeaf)) ∧
    ∃ s c', step argCaller.st (.sbrk 4096 2) = .ok s ∧
      sysExec { argCaller with st := s } 0 4096 (fun _ => none) =
        .ok (c', none) ∧
      s.p.pagetable.leaf 4096 = none ∧
      c'.st.p.pagetable.leaf 4096 ≠ none := by
  constructor
  · obtain ⟨s, hrun, hpanic⟩ := exists_ok_of_any (show ((mappedOps.foldlM
      step (bootState argFree rwFile (tinyFile 0))).toOption.any fun s =>
        endsIn (kexec { argCaller with st := s } [] (some (0, tinyFile 0))
          fun _ => none) (.panic .freewalkLeaf)) = true by decide +kernel)
    exact ⟨s, hrun, eq_error_of_endsIn hpanic⟩
  · obtain ⟨s, hgrown, hcall⟩ := exists_ok_of_any (show ((step argCaller.st
      (.sbrk 4096 2)).toOption.any fun s =>
        (s.p.pagetable.leaf 4096).isNone && (sysExec { argCaller with st := s }
          0 4096 (fun _ => none)).toOption.any fun r : Caller × Option ℕ =>
            r.2.isNone && (r.1.st.p.pagetable.leaf 4096).isSome) = true by
        decide +kernel)
    rw [Bool.and_eq_true, Option.isNone_iff_eq_none] at hcall
    obtain ⟨⟨c', ret⟩, hfails, hstays⟩ := exists_ok_of_any hcall.2
    rw [Bool.and_eq_true, Option.isNone_iff_eq_none] at hstays
    obtain ⟨rfl, hleaf⟩ := hstays
    exact ⟨s, c', hgrown, hfails, hcall.1, Option.isSome_iff_ne_none.mp hleaf⟩

end Xv6.Exec
