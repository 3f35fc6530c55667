import Xv6.Exec.Stack

/-!
# How `kexec` ends (`kernel/exec.c`)

Either something was wrong, and then the image is given back and the process
is as it was, or a whole image is there and is committed to. The commit frees
the old page table, the only step that can still stop the kernel.
-/

namespace Xv6.Exec

open Framework Vm

variable {pool used rest : Multiset Frame} {km km' : Kmem}
  {pt pt' : PageTable} {c c' : Caller}

/-! ## Giving back a page table -/

variable {sz : ℕ}

/-- What is free after a page table was discarded was free before or belonged
to it. -/
theorem procFreepagetable_freed (hled : Ledger pool km (pt.owned + rest))
    (h : procFreepagetable km pt sz = .ok km') :
    ∀ f ∈ km'.freelist, f ∈ km.freelist ∨ f ∈ pt.owned := by
  obtain ⟨km₁, pt₁, heq, hlist, hframes, hlow, hhigh⟩ :=
    procFreepagetable_eq km pt sz
  rw [heq] at h
  have hwalk : ∀ {km₂ : Kmem} {pt₂ : PageTable}, pt₂.frames = pt.frames →
      freewalk km₂ pt₂ = .ok km' →
      km'.freelist = pt.frames.reverse ++ km₂.freelist := by
    intro km₂ pt₂ hfr hw
    obtain ⟨km₃, hw', hlist₃⟩ := @freewalk_ok km₂ pt₂
      (fun va _ => leaf_of_freewalk hw va) (by
        intro f hf
        rw [hfr] at hf
        apply hled.usable
        rw [← hled.sum, PageTable.owned]
        simp only [Multiset.mem_add, Multiset.mem_coe]
        exact Or.inr (Or.inl (Or.inl hf)))
    cases hw.symm.trans hw'
    rw [hlist₃, hfr]
  have howned : ∀ f ∈ pt.frames, f ∈ pt.owned := fun f hf =>
    Multiset.mem_add.mpr (Or.inl (Multiset.mem_coe.mpr hf))
  intro f hf
  unfold uvmfree at h
  split at h
  · obtain ⟨⟨km₂, pt₂⟩, hun, h⟩ := bind_ok_iff.mp h
    have hmod := pgroundup_mod sz
    have hspan : pgroundup sz / PGSIZE * PGSIZE = pgroundup sz :=
      Nat.div_mul_cancel (Nat.dvd_of_mod_eq_zero hmod)
    have hwide : 0 + pgroundup sz / PGSIZE * PGSIZE < 2 ^ 64 := by
      rw [hspan]
      unfold pgroundup PGSIZE
      omega
    unfold uvmunmap at hun
    rw [if_neg (by decide), uvmunmap_rounds hwide] at hun
    obtain ⟨hspec, hbound⟩ := uvmunmapLoop_spec (by decide) hun
    rw [hwalk (hspec.frames.trans hframes) h, hspec.freed, if_pos rfl,
      hlist] at hf
    simp only [List.mem_append, List.mem_reverse] at hf
    rcases hf with hf | hf | hf
    · exact Or.inr (howned f hf)
    · obtain ⟨k, hk, l, hl, rfl⟩ := mem_leafFrames.mp hf
      have hmax : 0 + k * PGSIZE < MAXVA := by
        have := Nat.mul_lt_mul_of_pos_right hk (show 0 < PGSIZE by decide)
        omega
      rcases Nat.lt_or_ge (0 + k * PGSIZE) TRAPFRAME with hbelow | habove
      · rw [hlow _ hbelow] at hl
        exact Or.inr (PageTable.mem_owned hbelow hl)
      · rw [hhigh _ hmax habove] at hl
        cases hl
    · exact Or.inl hf
  · rw [hwalk hframes h, hlist] at hf
    rcases List.mem_append.mp hf with hf | hf
    · exact Or.inr (howned f (List.mem_reverse.mp hf))
    · exact Or.inl hf

/-- An image is given back. -/
theorem Image.free (h : Image pool used km pt sz) :
    ∃ km', procFreepagetable km pt sz = .ok km' ∧ Ledger pool km' used ∧
      ∀ f ∈ used, km.SameIn km' f := by
  obtain ⟨km', halways, hled⟩ :=
    procFreepagetableWith_ledger h.sz_le_TRAPFRAME h.below h.ledger
  have hcall := halways kfree standsIn_kfree
  simp only [procFreepagetableWith_kfree] at hcall
  exact ⟨km', hcall, hled, fun f hf =>
    (procFreepagetable_frees hcall).same f (hled.not_free hf)⟩

/-! ## The commit -/

/-- The `uint64` at an offset of the trapframe. -/
def trapframeWord (s : State) (off : ℕ) : ℕ :=
  leNat (fun k => s.kmem.mem (s.p.trapframe.pa + off + k)) 0 8

/-- The process runs the new image. -/
structure Committed (c : Caller) (entry : ℕ) (pt : PageTable) (sz sp : ℕ)
    (c' : Caller) : Prop where
  p : c'.st.p = { c.st.p with pagetable := pt, sz := sz }
  same : ∀ g ≠ c.st.p.trapframe, g ∉ c.st.kmem.freelist →
    g ∉ c.st.p.pagetable.owned → c.st.kmem.SameIn c'.st.kmem g
  pointer : trapframeWord c'.st trapframeSp = sp
  a1 : trapframeWord c'.st trapframeA1 = sp
  epc : trapframeWord c'.st trapframeEpc = entry

theorem length_wordBytes (x : ℕ) : (wordBytes x).length = 8 := by
  simp [wordBytes]

theorem getD_wordBytes (x : ℕ) {k : ℕ} (hk : k < 8) :
    (wordBytes x).getD k 0 = UInt8.ofNat (x / 256 ^ k) := by
  simp [wordBytes, List.getD_eq_getElem?_getD, hk]

/-- A word in a frame. -/
theorem kwrite_word (km : Kmem) (f : Frame) {off : ℕ} (x : ℕ)
    (hoff : off + 8 ≤ PGSIZE) : ∃ km',
    kwrite km (f.pa + off) (wordBytes x) = .ok km' ∧
      km'.freelist = km.freelist ∧ (∀ g ≠ f, km.SameIn km' g) ∧
      (∀ k < 8, km'.mem (f.pa + off + k) = UInt8.ofNat (x / 256 ^ k)) ∧
      ∀ b, b < f.pa + off ∨ f.pa + off + 8 ≤ b → km'.mem b = km.mem b := by
  have hlo := f.KERNBASE_le_pa
  have hhi := f.pa_add_le
  have hlen := length_wordBytes x
  have hcall : kwrite km (f.pa + off) (wordBytes x) =
      .ok (km.memmove (f.pa + off) (fun k => (wordBytes x).getD k 0)
        (wordBytes x).length) := if_pos ⟨by omega, by omega⟩
  rw [hlen] at hcall
  refine ⟨_, hcall, rfl, ?_, ?_, ?_⟩
  · intro g hne i hi
    refine if_neg ?_
    rintro ⟨hl, hh⟩
    exact Frame.add_ne hne.symm hi (g.pa + i) ⟨by omega, by omega⟩ rfl
  · intro k hk
    rw [mem_memmove _ _ _ hk, getD_wordBytes x hk]
  · intro b hb
    exact if_neg (by omega)

/-- **The commit of `kexec`**, when the old page table could be freed. -/
theorem kexecFinish_ok {path : List UInt8} {entry argc sp : ℕ}
    {r : Caller × Option ℕ} (hentry : entry < 2 ^ 64) (hsp : sp < 2 ^ 64)
    (hled : Ledger pool c.st.kmem
      (c.st.p.pagetable.owned + c.st.p.trapframe ::ₘ rest))
    (h : kexecFinish c path entry pt sz argc sp = .ok r) :
    r.2 = some argc ∧ r.1.st.inode = c.st.inode ∧
      Committed c entry pt sz sp r.1 := by
  have hoff : trapframeA1 + 8 ≤ PGSIZE ∧ trapframeEpc + 8 ≤ PGSIZE ∧
      trapframeSp + 8 ≤ PGSIZE := by decide
  have hplace : trapframeA1 = 120 ∧ trapframeEpc = 24 ∧ trapframeSp = 48 :=
    ⟨rfl, rfl, rfl⟩
  obtain ⟨km₁, hw₁, hl₁, hs₁, hb₁, ho₁⟩ :=
    kwrite_word c.st.kmem c.st.p.trapframe sp hoff.1
  obtain ⟨km₂, hw₂, hl₂, hs₂, hb₂, ho₂⟩ :=
    kwrite_word km₁ c.st.p.trapframe entry hoff.2.1
  obtain ⟨km₃, hw₃, hl₃, hs₃, hb₃, ho₃⟩ :=
    kwrite_word km₂ c.st.p.trapframe sp hoff.2.2
  unfold kexecFinish at h
  dsimp only at h
  rw [lift_eq_ok.mpr hw₁] at h
  dsimp only [bind, Except.bind] at h
  rw [lift_eq_ok.mpr hw₂] at h
  dsimp only at h
  rw [lift_eq_ok.mpr hw₃] at h
  obtain ⟨km', hfree, hret⟩ := bind_ok_iff.mp h
  rw [lift_eq_ok] at hfree
  cases hret
  have hlist : km₃.freelist = c.st.kmem.freelist :=
    hl₃.trans (hl₂.trans hl₁)
  have hkept : ∀ g ∉ c.st.kmem.freelist, g ∉ c.st.p.pagetable.owned →
      km₃.SameIn km' g := by
    intro g hfreelist howned
    refine (procFreepagetable_frees hfree).same g fun hmem => ?_
    rcases procFreepagetable_freed (hled.congr hlist) hfree g hmem with hg | hg
    · rw [hlist] at hg
      exact hfreelist hg
    · exact howned hg
  have htf : km₃.SameIn km' c.st.p.trapframe := by
    apply hkept
    · exact hled.not_free (Multiset.mem_add.mpr
        (Or.inr (Multiset.mem_cons_self ..)))
    · have hnodup := hled.used_nodup
      rw [Multiset.nodup_add] at hnodup
      intro hmem
      exact Multiset.disjoint_left.mp hnodup.2.2 hmem
        (Multiset.mem_cons_self ..)
  have hword : ∀ {off x : ℕ}, off + 8 ≤ PGSIZE → x < 2 ^ 64 →
      (∀ k < 8, km₃.mem (c.st.p.trapframe.pa + off + k) =
        UInt8.ofNat (x / 256 ^ k)) →
      leNat (fun k => km'.mem (c.st.p.trapframe.pa + off + k)) 0 8 = x := by
    intro off x hoff hx hbytes
    refine Eq.trans (leNat_congr fun k _ hk => ?_) (leNat_word hx)
    rw [← hbytes k (by omega), Nat.add_assoc]
    exact htf (off + k) (by omega)
  refine ⟨rfl, rfl, rfl, ?_, ?_, ?_, ?_⟩
  · intro g hne hfreelist howned
    exact (((hs₁ g hne).trans (hs₂ g hne)).trans (hs₃ g hne)).trans
      (hkept g hfreelist howned)
  · exact hword hoff.2.2 hsp hb₃
  · refine hword hoff.1 hsp fun k hk => ?_
    rw [ho₃ _ (by omega), ho₂ _ (by omega), hb₁ k hk]
  · refine hword hoff.2.1 hentry fun k hk => ?_
    rw [ho₃ _ (by omega), hb₂ k hk]

/-! ## The two ways to end -/

/-- Everything is as it was: the process with its memory, and the inode table
up to the entry that is not used. -/
structure Unchanged (pool used : Multiset Frame) (c c' : Caller) : Prop where
  p : c'.st.p = c.st.p
  name : c'.name = c.name
  file : c'.st.file = c.st.file
  pipe : c'.st.pipe = c.st.pipe
  inode : ∀ i, (c'.st.inode i).ref = (c.st.inode i).ref ∧
    (0 < (c.st.inode i).ref → c'.st.inode i = c.st.inode i)
  locked : c.locked = none → c'.locked = none
  ops : c'.ops = c.ops
  ledger : Ledger pool c'.st.kmem used
  same : ∀ f ∈ used, c.st.kmem.SameIn c'.st.kmem f

/-- A path lookup and the `iput` that undoes it. -/
theorem lookup_iput_inode (s : State) (j : InodeId) (ip : Inode)
    (i : InodeId) :
    ((iput (lookupInode s j ip) j).inode i).ref = (s.inode i).ref ∧
      (0 < (s.inode i).ref →
        (iput (lookupInode s j ip) j).inode i = s.inode i) := by
  by_cases hi : i = j
  · subst hi
    by_cases hzero : (s.inode i).ref = 0
    · refine ⟨?_, fun hpos => by omega⟩
      rw [hzero]
      unfold lookupInode
      rw [if_pos hzero]
      dsimp only [iput]
      split
      · simp [State.setInode, Inode.free]
      · simp [State.setInode]
    · have hiput : (iput (lookupInode s i ip) i).inode i = s.inode i := by
        unfold lookupInode
        rw [if_neg hzero]
        dsimp only [iput]
        rw [if_neg (by
          simp only [State.setInode, Function.update_self]
          omega)]
        simp [State.setInode]
      rw [hiput]
      exact ⟨rfl, fun _ => rfl⟩
  · have hsame : (iput (lookupInode s j ip) j).inode i = s.inode i := by
      rw [iput_inode_of_ne _ hi]
      unfold lookupInode
      split <;> simp [State.setInode, hi]
    rw [hsame]
    exact ⟨rfl, fun _ => rfl⟩

@[simp] theorem lookupInode_p (s : State) (j : InodeId) (ip : Inode) :
    (lookupInode s j ip).p = s.p := by
  unfold lookupInode
  split <;> rfl

@[simp] theorem lookupInode_kmem (s : State) (j : InodeId) (ip : Inode) :
    (lookupInode s j ip).kmem = s.kmem := by
  unfold lookupInode
  split <;> rfl

@[simp] theorem lookupInode_file (s : State) (j : InodeId) (ip : Inode) :
    (lookupInode s j ip).file = s.file := by
  unfold lookupInode
  split <;> rfl

@[simp] theorem lookupInode_pipe (s : State) (j : InodeId) (ip : Inode) :
    (lookupInode s j ip).pipe = s.pipe := by
  unfold lookupInode
  split <;> rfl

@[simp] theorem iput_pipe (s : State) (i : InodeId) :
    (iput s i).pipe = s.pipe := by
  dsimp only [iput]
  split <;> rfl

/-- `iput` does not look at the memory. -/
theorem iput_setKmem (s : State) (km : Kmem) (j : InodeId) :
    iput { s with kmem := km } j = { iput s j with kmem := km } := by
  dsimp only [iput]
  split <;> rfl

theorem ilock_lookup (s : State) (j : InodeId) (ip : Inode) :
    ilock (lookupInode s j ip) (some j) = .ok j := by
  refine if_neg ?_
  unfold lookupInode
  split <;> simp [State.setInode]

/-- `kexec` gives up: the memory it took is back. -/
theorem Unchanged.of_iput (j : InodeId) (ip : Inode)
    (hled : Ledger pool km used) (hsame : ∀ f ∈ used, c.st.kmem.SameIn km f)
    (hp : c'.st.p = c.st.p) (hfile : c'.st.file = c.st.file)
    (hpipe : c'.st.pipe = c.st.pipe)
    (hinode : c'.st.inode = (iput (lookupInode c.st j ip) j).inode)
    (hkmem : c'.st.kmem = km) (hname : c'.name = c.name)
    (hlocked : c'.locked = none) (hops : c'.ops = c.ops) :
    Unchanged pool used c c' where
  p := hp
  name := hname
  file := hfile
  pipe := hpipe
  inode := by
    rw [hinode]
    exact lookup_iput_inode c.st j ip
  locked := fun _ => hlocked
  ops := hops
  ledger := by rwa [hkmem]
  same := by rwa [hkmem]

/-- Freeing what there is of an image. -/
theorem LoadOk.freeImage {r : Loaded} (h : LoadOk pool used km r) :
    ∃ km', freeImage r.km r.pagetable r.sz = .ok km' ∧
      Ledger pool km' used ∧ ∀ f ∈ used, km.SameIn km' f := by
  cases hpt : r.pagetable with
  | none => exact ⟨r.km, rfl, (h.nothing hpt).1, h.same⟩
  | some pt =>
    obtain ⟨km', hcall, hled, hsame⟩ := (h.image pt hpt).free
    exact ⟨km', lift_eq_ok.mpr hcall, hled,
      fun f hf => (h.same f hf).trans (hsame f hf)⟩

/-- An image was loaded and the stack with the arguments is on top of it: what
is left to do is the commit. -/
structure Ready (pool used : Multiset Frame) (c : Caller)
    (exe : Option (InodeId × Inode)) (argv : Argv) (c₁ : Caller)
    (entry : ℕ) (pt : PageTable) (sz argc sp : ℕ) : Prop where
  p : c₁.st.p = c.st.p
  name : c₁.name = c.name
  locked : c₁.locked = none
  ops : c₁.ops = c.ops
  image : Image pool used c₁.st.kmem pt sz
  same : ∀ f ∈ used, c.st.kmem.SameIn c₁.st.kmem f
  loaded : ∃ j ip r elf pt₀, exe = some (j, ip) ∧
    kexecLoad c.st.kmem c.st.p.trapframe ((lookupInode c.st j ip).inode j) =
      .ok r ∧
    r.elf = some elf ∧ r.pagetable = some pt₀ ∧ entry = elf.entry ∧
    StackDone r.km pt₀ r.sz argv c₁.st.kmem pt sz argc sp

/-- **`kexec` gives up and leaves everything as it was, or comes to the
commit.** -/
theorem kexec_cases {argv : Argv} (hled : Ledger pool c.st.kmem used)
    (path : List UInt8) (exe : Option (InodeId × Inode)) (hargv : argv.Ok) :
    (∃ c', kexec c path exe argv = .ok (c', none) ∧
      Unchanged pool used c c') ∨
    ∃ c₁ entry pt sz argc sp,
      kexec c path exe argv = kexecFinish c₁ path entry pt sz argc sp ∧
      Ready pool used c exe argv c₁ entry pt sz argc sp := by
  have hops : c.ops + 1 - 1 = c.ops := Nat.add_sub_cancel ..
  cases exe with
  | none =>
    refine Or.inl ⟨_, rfl, rfl, rfl, rfl, rfl, fun _ => ⟨rfl, fun _ => rfl⟩,
      id, hops, hled, fun _ _ _ _ => rfl⟩
  | some jip =>
    obtain ⟨j, ip⟩ := jip
    obtain ⟨r, hload, hok⟩ := kexecLoad_ok hled c.st.p.trapframe
      ((lookupInode c.st j ip).inode j)
    have hlock : lift (ilock (lookupInode c.st j ip) (some j)) = .ok j :=
      lift_eq_ok.mpr (ilock_lookup c.st j ip)
    have hload' : kexecLoad (lookupInode c.st j ip).kmem
        (lookupInode c.st j ip).p.trapframe
        ((lookupInode c.st j ip).inode j) = .ok r := by
      rw [lookupInode_kmem, lookupInode_p]
      exact hload
    obtain ⟨km', hfree, hled', hsame'⟩ := hok.freeImage
    dsimp only [kexec, Caller.beginOp]
    rw [hlock]
    dsimp only [bind, Except.bind]
    rw [hload']
    dsimp only
    -- what the error path does to the inode and the log
    have hbad : ∀ {km : Kmem}, Ledger pool km used →
        (∀ f ∈ used, c.st.kmem.SameIn km f) →
        Unchanged pool used c { c with
          st := { iput (lookupInode c.st j ip) j with kmem := km }
          locked := none } := by
      intro km hled hsame
      refine .of_iput j ip hled hsame ?_ ?_ ?_ rfl rfl rfl rfl rfl
      · simp
      · simp
      · simp
    cases hpt : r.pagetable with
    | none =>
      rw [hpt] at hfree
      rw [(hok.nothing hpt).2]
      dsimp only
      rw [hfree]
      refine Or.inl ⟨_, rfl, ?_⟩
      have := hbad hled' hsame'
      rwa [← iput_setKmem] at this
    | some pt =>
      cases helf : r.elf with
      | none =>
        rw [hpt] at hfree
        dsimp only
        rw [hfree]
        refine Or.inl ⟨_, rfl, ?_⟩
        have := hbad hled' hsame'
        rwa [← iput_setKmem] at this
      | some elf =>
        obtain ⟨km₂, pt₂, sz, pushed, hstack, himage, hsame₂, hdone⟩ :=
          kexecStack_ok (hok.image pt hpt) hargv
        have hsame₂' : ∀ f ∈ used, c.st.kmem.SameIn km₂ f :=
          fun f hf => (hok.same f hf).trans (hsame₂ f hf)
        dsimp only [Caller.setKmem, Caller.iunlockput, Caller.endOp]
        rw [iput_setKmem]
        dsimp only
        rw [hstack]
        dsimp only
        cases pushed with
        | none =>
          obtain ⟨km₃, hcall, hled₃, hsame₃⟩ := himage.free
          dsimp only [freeImage]
          rw [lift_eq_ok.mpr hcall]
          exact Or.inl ⟨_, rfl, hbad hled₃ fun f hf =>
            (hsame₂' f hf).trans (hsame₃ f hf)⟩
        | some as =>
          obtain ⟨argc, sp⟩ := as
          refine Or.inr ⟨_, _, _, _, _, _, rfl, ?_, rfl, rfl, hops,
            himage, hsame₂', j, ip, r, elf, pt, rfl, hload, helf, hpt,
            rfl, hdone argc sp rfl⟩
          simp

theorem elfOf_entry_lt (ip : Inode) : (elfOf ip).entry < 2 ^ 64 :=
  leNat_lt ip.byte 8 24

/-- **When `kexec` succeeds**, the process runs the image that was built. -/
theorem kexec_done {argv : Argv} {path : List UInt8}
    {exe : Option (InodeId × Inode)} {argc : ℕ}
    (hled : Ledger pool c.st.kmem
      (c.st.p.pagetable.owned + c.st.p.trapframe ::ₘ rest))
    (hargv : argv.Ok) (h : kexec c path exe argv = .ok (c', some argc)) :
    ∃ c₁ entry pt sz sp,
      Ready pool (c.st.p.pagetable.owned + c.st.p.trapframe ::ₘ rest) c exe
        argv c₁ entry pt sz argc sp ∧
      Committed c₁ entry pt sz sp c' ∧
      ∀ va < TRAPFRAME,
        imageByte c'.st.kmem pt va = imageByte c₁.st.kmem pt va := by
  rcases kexec_cases hled path exe hargv with
    ⟨c₂, hcall, -⟩ | ⟨c₁, entry, pt, sz, argc', sp, hcall, hready⟩
  · cases hcall.symm.trans h
  · rw [hcall] at h
    obtain ⟨j, ip, r, elf, pt₀, -, hload, helf, -, hentry, hstack⟩ :=
      hready.loaded
    have helf' := (kexecLoad_done hled hload helf).1
    obtain ⟨addr, hblock⟩ := hstack.block
    obtain ⟨top, -, -, -, hsp, hle⟩ := hblock.array
    have htop := hready.image.sz_le
    have hsize := hstack.size
    have hram : RAM = 2 ^ 27 := by decide
    have hused : Ledger pool c₁.st.kmem (c₁.st.p.pagetable.owned +
        c₁.st.p.trapframe ::ₘ (pt.owned + rest)) := by
      have hled₁ := hready.image.ledger
      rwa [add_left_comm, Multiset.add_cons, ← hready.p] at hled₁
    obtain ⟨hret, -, hcommit⟩ := kexecFinish_ok
      (by rw [hentry, helf']; exact elfOf_entry_lt _)
      (show sp < 2 ^ 64 by omega) hused h
    cases hret
    refine ⟨c₁, entry, pt, sz, sp, hready, hcommit, ?_⟩
    intro va hva
    refine imageByte_congr rfl fun l hl => ?_
    have hmem := PageTable.mem_owned hva hl
    have hnodup := hready.image.ledger.used_nodup
    rw [Multiset.nodup_add, ← hready.p] at hnodup
    have hout := Multiset.disjoint_left.mp hnodup.2.2 hmem
    apply hcommit.same
    · intro heq
      apply hout
      rw [heq]
      exact Multiset.mem_add.mpr (Or.inr (Multiset.mem_cons_self ..))
    · exact hready.image.ledger.not_free (Multiset.mem_add.mpr (Or.inl hmem))
    · intro hold
      exact hout (Multiset.mem_add.mpr (Or.inl hold))

end Xv6.Exec
