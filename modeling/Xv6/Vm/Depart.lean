import Xv6.Vm.Calm
import Xv6.Vm.Fork
import Xv6.Vm.WriteBack

/-!
# What a process leaves behind

`freeproc` clears neither the descriptors nor the mappings of an entry of the
process table: it relies on `kexit`, which closes the descriptors in any case
and gives up a mapping when `uvmunmap_vma` succeeds. Nothing is assumed here
about frames or reference counts; the calls are taken to return.
-/

namespace Xv6.Vm

open Framework

/-! ## The ends of mappings -/

/-- Both ends are page boundaries that fit a register. -/
structure VMA.Framed (v : VMA) : Prop where
  start_mod : v.start % PGSIZE = 0
  end_mod : v.end_ % PGSIZE = 0
  end_lt : v.end_ < 2 ^ 64

/-- Every valid mapping has such ends. -/
def Framed (vma : VMAs) : Prop := ∀ i, (vma i).valid = true → (vma i).Framed

variable {v : VMA}

theorem Framed.update {vma : VMAs} (h : Framed vma) (i : Fin NVMA)
    (hv : v.valid = true → v.Framed) : Framed (Function.update vma i v) := by
  intro j
  by_cases hj : j = i
  · subst hj
    rw [Function.update_self]
    exact hv
  · rw [Function.update_of_ne hj]
    exact h j

theorem toUint64_lt (x : ℤ) : toUint64 x < 2 ^ 64 := by
  unfold toUint64
  omega

theorem mmapSize_mod (len : Int32) : mmapSize len % PGSIZE = 0 := by
  unfold mmapSize pgroundupInt toUint64 PGSIZE
  omega

variable {s s' : State} {addr : UInt64} {len fd : Int32}

theorem sysMmap_framed {prot flags offset : Int32} {r : Option ℕ}
    (hs : Framed s.p.vma)
    (h : sysMmap s addr len prot flags fd offset = .ok (s', r)) :
    Framed s'.p.vma := by
  rcases sysMmap_spec h with rfl | ⟨i, k, -, hdone⟩
  · exact hs
  · rw [hdone.p]
    refine hs.update i fun _ => ⟨?_, ?_, ?_⟩
    · exact pgrounddown_mod _
    · have h₁ := pgrounddown_mod (toUint64 ((s.p.mmapBase : ℤ) - mmapSize len))
      have h₂ := mmapSize_mod len
      show toUint64 ((mmapStart s.p.mmapBase len : ℤ) + mmapSize len) %
        PGSIZE = 0
      unfold mmapStart
      generalize mmapSize len = n at *
      generalize pgrounddown _ = a at *
      unfold toUint64 PGSIZE at *
      omega
    · exact toUint64_lt ((mmapStart s.p.mmapBase len : ℤ) + mmapSize len)

/-! ## `uvmunmap_vma` -/

variable {i : Fin NVMA} {done : Bool}

/-- Either `uvmunmap_vma` gives up after some writing, or it goes through its
three parts. -/
theorem uvmunmapVma_parts {addr stop : ℕ}
    (hus : unmapStart (s.p.vma i) addr % PGSIZE = 0)
    (h : uvmunmapVma s i addr stop = .ok (s', done)) :
    (done = false ∧ OnlyFile s (s.file (s.p.vma i).f).ip s' ∧
      ((s.p.vma i).Hit addr stop →
        unmapStart (s.p.vma i) addr = (s.p.vma i).start →
        writeBack s (s.p.vma i) (unmapStart (s.p.vma i) addr)
          (unmapEnd (s.p.vma i) stop) = .ok (s', false))) ∨
    (done = true ∧ (s.p.vma i).valid = true ∧ ∃ s₁ km pt,
      OnlyFile s (s.file (s.p.vma i).f).ip s₁ ∧
      uvmunmap s₁.kmem s₁.p.pagetable (unmapStart (s.p.vma i) addr)
        (toUint64 ((unmapEnd (s.p.vma i) stop : ℤ) -
          unmapStart (s.p.vma i) addr) / PGSIZE) true = .ok (km, pt) ∧
      shrinkVma (s₁.setMemory km pt) i (unmapStart (s.p.vma i) addr)
        (unmapEnd (s.p.vma i) stop) = .ok s') := by
  dsimp only [uvmunmapVma] at h
  split at h
  · rename_i hmiss
    cases h
    refine Or.inl ⟨rfl, .refl _ _, fun hhit => ?_⟩
    unfold VMA.Hit at hhit
    simp only [hhit.1, Bool.true_eq_false, false_or] at hmiss
    omega
  · rename_i hhit
    simp only [not_or, Bool.not_eq_false] at hhit
    split at h
    · rename_i hhole
      cases h
      exact Or.inl ⟨rfl, .refl _ _, fun _ hus => absurd hus hhole.1⟩
    · obtain ⟨⟨s₁, done₁⟩, hwb, h⟩ := bind_ok_iff.mp h
      have honly := writeBack_only hus hwb
      cases done₁ with
      | false =>
        cases h
        exact Or.inl ⟨rfl, honly, fun _ _ => hwb⟩
      | true =>
        simp only [if_true] at h
        obtain ⟨⟨km, pt⟩, hunmap, h⟩ := bind_ok_iff.mp h
        obtain ⟨s₂, hshrink, h⟩ := bind_ok_iff.mp h
        cases h
        exact Or.inr ⟨rfl, hhit.1, s₁, km, pt, honly, hunmap, hshrink⟩

theorem VMA.Framed.shrunk (h : v.Framed) {us ue : ℕ} (hus : us % PGSIZE = 0)
    (hue : ue % PGSIZE = 0) (hlt : us < 2 ^ 64) : (v.shrunk us ue).Framed := by
  unfold VMA.shrunk
  split
  · exact ⟨h.start_mod, h.end_mod, h.end_lt⟩
  · split
    · exact ⟨hue, h.end_mod, h.end_lt⟩
    · exact ⟨h.start_mod, hus, hlt⟩

/-- What `sys_munmap` does to the process: pages go, `mmap_base` may move, and
a slot is as before or has lost the range that hits it. -/
theorem sysMunmap_parts (hs : Framed s.p.vma)
    (h : sysMunmap s addr len = .ok (s', done)) : ∃ pt base vma,
      s'.p = { s.p with pagetable := pt, mmapBase := base, vma := vma } ∧
      ∀ i, vma i = s.p.vma i ∨ (addr.toNat % PGSIZE = 0 ∧
        (s.p.vma i).Hit addr.toNat (munmapEnd addr len) ∧
        vma i = (s.p.vma i).shrunk (unmapStart (s.p.vma i) addr.toNat)
          (unmapEnd (s.p.vma i) (munmapEnd addr len))) := by
  unfold sysMunmap at h
  split at h
  · cases h
    exact ⟨_, _, _, rfl, fun _ => Or.inl rfl⟩
  · rename_i hargs
    simp only [not_or, not_not] at hargs
    obtain ⟨⟨s₁, goOn⟩, hhit, h⟩ := bind_ok_iff.mp h
    have hback : ∃ base, s'.p = { s₁.p with mmapBase := base } := by
      cases goOn <;> cases h
      · exact ⟨_, rfl⟩
      · unfold rebase
        split <;> exact ⟨_, rfl⟩
    obtain ⟨base, hback⟩ := hback
    rw [hback]
    unfold munmapHit at hhit
    split at hhit
    · cases hhit
      exact ⟨_, _, _, rfl, fun _ => Or.inl rfl⟩
    · rename_i j hfind
      have hj := of_decide_eq_true (findVma_some hfind)
      have hus : unmapStart (s.p.vma j) addr.toNat % PGSIZE = 0 := by
        unfold unmapStart
        split
        · exact hargs.2.2
        · exact (hs j hj.1).start_mod
      rcases uvmunmapVma_parts hus hhit with
        ⟨-, honly, -⟩ | ⟨-, -, s₂, km, pt, honly, -, hshrink⟩
      · rw [honly.p]
        exact ⟨_, _, _, rfl, fun _ => Or.inl rfl⟩
      · have hp : (s₂.setMemory km pt).p = { s.p with pagetable := pt } := by
          rw [State.setMemory, honly.p]
        rw [(shrinkVma_spec hshrink).1, hp]
        refine ⟨_, _, _, rfl, fun i => ?_⟩
        by_cases hij : i = j
        · subst hij
          exact Or.inr ⟨hargs.2.2, hj, Function.update_self ..⟩
        · exact Or.inl (Function.update_of_ne hij ..)

theorem sysMunmap_slot (hs : Framed s.p.vma)
    (h : sysMunmap s addr len = .ok (s', done)) (i : Fin NVMA) :
    s'.p.vma i = s.p.vma i ∨
      (addr.toNat % PGSIZE = 0 ∧
        (s.p.vma i).Hit addr.toNat (munmapEnd addr len) ∧
        s'.p.vma i = (s.p.vma i).shrunk (unmapStart (s.p.vma i) addr.toNat)
          (unmapEnd (s.p.vma i) (munmapEnd addr len))) := by
  obtain ⟨pt, base, vma, hp, hslot⟩ := sysMunmap_parts hs h
  rw [hp]
  exact hslot i

theorem sysMunmap_sz (hs : Framed s.p.vma)
    (h : sysMunmap s addr len = .ok (s', done)) : s'.p.sz = s.p.sz := by
  obtain ⟨pt, base, vma, hp, -⟩ := sysMunmap_parts hs h
  rw [hp]

theorem sysMunmap_framed (hs : Framed s.p.vma)
    (h : sysMunmap s addr len = .ok (s', done)) : Framed s'.p.vma := by
  intro i hvalid
  rcases sysMunmap_slot hs h i with hi | ⟨haddr, hhit, hi⟩
  · rw [hi] at hvalid ⊢
    exact hs i hvalid
  · have hv := hs i hhit.1
    rw [hi]
    refine hv.shrunk ?_ ?_ ?_
    · unfold unmapStart
      split
      · exact haddr
      · exact hv.start_mod
    · unfold unmapEnd
      split
      · exact pgroundup_mod _
      · exact hv.end_mod
    · have h₁ := addr.toNat_lt
      have h₂ : munmapEnd addr len ≤ 2 ^ 64 := by
        unfold munmapEnd pgroundup PGSIZE
        omega
      obtain ⟨-, -, hlo⟩ := hhit
      unfold unmapStart
      split <;> omega

/-! ## Write-back that goes through -/

variable {k : FileId}

theorem held_of_writeBackPage {i : InodeId} {addr offset offset' rem : ℕ}
    (hip : (s.file k).ip = some i) (hrem : rem ≠ 0)
    (h : writeBackPage s k addr offset rem = .ok (s', offset', done)) :
    0 < (s.inode i).ref := by
  rw [writeBackPage, if_neg hrem] at h
  cases hlock : ilock s (s.file k).ip with
  | error e =>
    simp only [hlock] at h
    cases h
  | ok j =>
    obtain ⟨hj, hpos⟩ := ilock_ok hlock
    rw [hip] at hj
    cases hj
    exact hpos

/-- A dirty page of the user is written as far as the file goes. -/
theorem writeBackPage_done {i : InodeId} {l : Leaf}
    {addr offset offset' rem : ℕ} (hip : (s.file k).ip = some i)
    (hva : addr < MAXVA) (hleaf : s.p.pagetable.leaf addr = some l)
    (hu : l.perm.u = true) (hfit : addr % PGSIZE + rem ≤ PGSIZE)
    (hsize : offset + rem ≤ (s.inode i).size)
    (h : writeBackPage s k addr offset rem = .ok (s', offset', done)) :
    done = true ∧ s'.p = s.p ∧ offset' < 2 ^ 31 := by
  have hlt := (s.inode i).size_lt
  by_cases hrem : rem = 0
  · rw [writeBackPage, if_pos hrem] at h
    cases h
    exact ⟨rfl, rfl, by omega⟩
  · rw [writeBackPage_user hu rem hip (held_of_writeBackPage hip hrem h) hva
      hleaf hfit hsize] at h
    cases h
    exact ⟨rfl, rfl, by omega⟩

/-- Write-back only fails on a page that is not the user's or at an offset
that is negative as an `int`. -/
theorem writeBackLoop_done {pages : ℕ} : ∀ {addr offset : ℕ}
    {s s' : State} {done : Bool}, addr % PGSIZE = 0 →
    (∀ va l, addr ≤ va → va < addr + pages * PGSIZE → va < MAXVA →
      s.p.pagetable.leaf va = some l → l.perm.d = true →
        l.perm.u = true ∧ offset < 2 ^ 31) →
    writeBackLoop k pages addr offset s = .ok (s', done) → done = true := by
  induction pages with
  | zero =>
    intro addr offset s s' done _ _ h
    cases h
    rfl
  | succ pages ih =>
    intro addr offset s s' done haddr hgood h
    have hnext : (addr + PGSIZE) % PGSIZE = 0 := by simpa using haddr
    have hspan : (pages + 1) * PGSIZE = pages * PGSIZE + PGSIZE :=
      Nat.succ_mul ..
    rw [writeBackLoop] at h
    obtain ⟨pte, hwalk, h⟩ := bind_ok_iff.mp h
    obtain ⟨hva, hleaf⟩ := walk_ok hwalk
    have htail : ∀ va l, addr + PGSIZE ≤ va →
        va < addr + PGSIZE + pages * PGSIZE → va < MAXVA →
        s.p.pagetable.leaf va = some l → l.perm.d = true →
          l.perm.u = true ∧ offset < 2 ^ 31 := by
      intro va l hlo hhi
      exact hgood va l (by omega) (by omega)
    split at h
    · exact ih hnext htail h
    · rename_i l hl
      rw [hl] at hleaf
      split at h
      · exact ih hnext htail h
      · rename_i hd
        obtain ⟨hu, hoff⟩ := hgood addr l (Nat.le_refl _)
          (by unfold PGSIZE at *; omega) hva hleaf (by simpa using hd)
        obtain ⟨fsize, hfsize, h⟩ := bind_ok_iff.mp h
        dsimp only at h
        split at h
        · cases h
          rfl
        · rename_i hsize
          obtain ⟨⟨s₁, offset₁, done₁⟩, hpage, h⟩ := bind_ok_iff.mp h
          unfold fileSize at hfsize
          split at hfsize
          · rename_i i hip
            cases hfsize
            -- the distance to the end of the file does not wrap
            have hdist : toInt32 ((s.inode i).size - offset) =
                (s.inode i).size - offset := by
              have := (s.inode i).size_lt
              unfold toInt32
              split <;> omega
            rw [hdist] at hpage hsize
            obtain ⟨rfl, hp, hoff₁⟩ := writeBackPage_done hip hva hleaf hu
              (by rw [haddr]; omega) (by omega) hpage
            refine ih hnext ?_ h
            intro va l' hlo hhi hva' hl' hd'
            rw [hp] at hl'
            exact ⟨(htail va l' hlo hhi hva' hl' hd').1, hoff₁⟩
          · cases hfsize

/-! ## `kexit` -/

/-- `kexit` can give up the mapping: it is not empty, and a page that has to
be written back is the user's and at an offset that is not negative. -/
def VMA.CanGo (v : VMA) (pt : PageTable) : Prop :=
  v.start < v.end_ ∧ (v.shared = true → ∀ va l, v.start ≤ va → va < v.end_ →
    va < MAXVA → pt.leaf va = some l → l.perm.d = true →
      l.perm.u = true ∧ 0 ≤ v.offset.toInt)

/-- No page is there that was not. -/
def Fewer (pt pt' : PageTable) : Prop :=
  ∀ va < MAXVA, ∀ l, pt'.leaf va = some l → pt.leaf va = some l

theorem Fewer.refl (pt : PageTable) : Fewer pt pt := fun _ _ _ h => h

variable {pt pt' : PageTable}

theorem Fewer.trans {pt₁ : PageTable} (h : Fewer pt pt₁) (h' : Fewer pt₁ pt') :
    Fewer pt pt' :=
  fun va hva l hl => h va hva l (h' va hva l hl)

theorem VMA.CanGo.fewer (h : v.CanGo pt) (hpt : Fewer pt pt') : v.CanGo pt' :=
  ⟨h.1, fun hs va l hlo hhi hva hl => h.2 hs va l hlo hhi hva (hpt va hva l hl)⟩

theorem uvmunmap_fewer {km km' : Kmem} {us ue : ℕ} (hle : us ≤ ue)
    (hlt : ue < 2 ^ 64)
    (h : uvmunmap km pt us (toUint64 ((ue : ℤ) - us) / PGSIZE) true =
      .ok (km', pt')) : Fewer pt pt' := by
  have hcount : toUint64 ((ue : ℤ) - us) = ue - us := by
    unfold toUint64
    omega
  rw [hcount] at h
  have hspec := uvmunmap_spec (by unfold PGSIZE; omega) h
  intro va hva l hl
  by_cases hin : us ≤ va ∧ va < us + (ue - us) / PGSIZE * PGSIZE
  · rw [hspec.inside va hva hin.1 hin.2] at hl
    cases hl
  · rwa [hspec.outside va hva hin] at hl

/-- What `kexit` does to the process besides the slots it is at. -/
structure Shed (s s' : State) : Prop where
  ofile : ∀ fd, s.p.ofile fd = none → s'.p.ofile fd = none
  vma : ∀ i, s'.p.vma i = s.p.vma i ∨ (s'.p.vma i).valid = false
  fewer : Fewer s.p.pagetable s'.p.pagetable

namespace Shed

variable {s s₁ s' : State}

theorem refl (s : State) : Shed s s :=
  ⟨fun _ h => h, fun _ => Or.inl rfl, .refl _⟩

theorem trans (h : Shed s s₁) (h' : Shed s₁ s') : Shed s s' where
  ofile := fun fd hfd => h'.ofile fd (h.ofile fd hfd)
  vma := by
    intro i
    rcases h'.vma i with hi | hi
    · rw [hi]
      exact h.vma i
    · exact Or.inr hi
  fewer := h.fewer.trans h'.fewer

end Shed

/-- What has to hold of every mapping before the loop. -/
def CanLeave (p : Proc) : Prop :=
  ∀ i, (p.vma i).valid = true → (p.vma i).CanGo p.pagetable

theorem Shed.framed (h : Shed s s') (hs : Framed s.p.vma) :
    Framed s'.p.vma := by
  intro i hvalid
  rcases h.vma i with hi | hi
  · rw [hi] at hvalid ⊢
    exact hs i hvalid
  · rw [hi] at hvalid
    cases hvalid

theorem Shed.canLeave (h : Shed s s') (hs : CanLeave s.p) : CanLeave s'.p := by
  intro i hvalid
  rcases h.vma i with hi | hi
  · rw [hi] at hvalid ⊢
    exact (hs i hvalid).fewer h.fewer
  · rw [hi] at hvalid
    cases hvalid

theorem exitFile_shed {fd : Fin NOFILE} (h : exitFile s fd = .ok s') :
    Shed s s' ∧ s'.p.ofile fd = none := by
  unfold exitFile at h
  split at h
  · obtain ⟨s₁, hclose, h⟩ := bind_ok_iff.mp h
    cases h
    have hp := (fileclose_spec hclose).p
    refine ⟨⟨?_, ?_, ?_⟩, Function.update_self ..⟩
    · intro fd' hfd'
      show Function.update s₁.p.ofile fd none fd' = none
      rw [Function.update_apply, hp, hfd', ite_self]
    · intro i
      left
      show s₁.p.vma i = _
      rw [hp]
    · show Fewer _ s₁.p.pagetable
      rw [hp]
      exact .refl _
  · rename_i hnone
    cases h
    exact ⟨.refl s, hnone⟩

theorem writeBack_done (hf : v.Framed) (hgo : v.CanGo s.p.pagetable)
    (h : writeBack s v v.start v.end_ = .ok (s', done)) : done = true := by
  unfold writeBack at h
  split at h
  · rename_i hshared
    have hspan : v.start + (v.end_ - v.start + PGSIZE - 1) / PGSIZE * PGSIZE =
        v.end_ := by
      have h₁ := hf.start_mod
      have h₂ := hf.end_mod
      have h₃ := hgo.1
      unfold PGSIZE at *
      omega
    refine writeBackLoop_done hf.start_mod ?_ h
    rw [hspan]
    intro va l hlo hhi hva hl hd
    obtain ⟨hu, hoff⟩ := hgo.2 hshared va l hlo hhi hva hl hd
    refine ⟨hu, ?_⟩
    have := v.offset.toInt_lt
    unfold toUint32
    omega
  · cases h
    rfl

/-- A mapping that can go is given up as a whole. -/
theorem uvmunmapVma_shed (hvalid : (s.p.vma i).valid = true)
    (hf : (s.p.vma i).Framed) (hgo : (s.p.vma i).CanGo s.p.pagetable)
    (h : uvmunmapVma s i (s.p.vma i).start (s.p.vma i).end_ = .ok (s', done)) :
    Shed s s' ∧ (s'.p.vma i).valid = false := by
  have hus : unmapStart (s.p.vma i) (s.p.vma i).start = (s.p.vma i).start :=
    ite_self _
  have hue : unmapEnd (s.p.vma i) (s.p.vma i).end_ = (s.p.vma i).end_ :=
    ite_self _
  have hparts := uvmunmapVma_parts (by rw [hus]; exact hf.start_mod) h
  rw [hus, hue] at hparts
  rcases hparts with ⟨-, -, hfail⟩ | ⟨-, -, s₁, km, pt, honly, hun, hshrink⟩
  · have := writeBack_done hf hgo (hfail ⟨hvalid, hgo.1, hgo.1⟩ rfl)
    cases this
  · obtain ⟨hp, -⟩ := shrinkVma_spec hshrink
    have hvma : (s₁.setMemory km pt).p.vma = s.p.vma := by
      show s₁.p.vma = _
      rw [honly.p]
    rw [hvma, VMA.shrunk, if_pos ⟨rfl, rfl⟩] at hp
    refine ⟨⟨?_, ?_, ?_⟩, ?_⟩
    · intro fd hfd
      rw [hp]
      show s₁.p.ofile fd = none
      rw [honly.p, hfd]
    · intro j
      rw [hp]
      by_cases hj : j = i
      · subst hj
        exact Or.inr (by simp)
      · exact Or.inl (Function.update_of_ne hj ..)
    · rw [hp]
      show Fewer _ pt
      have := uvmunmap_fewer (Nat.le_of_lt hgo.1) hf.end_lt hun
      rwa [honly.p] at this
    · rw [hp]
      simp

/-- A mapping that can go does go. -/
theorem exitVma_shed (hf : Framed s.p.vma) (hgo : CanLeave s.p)
    (h : exitVma s i = .ok s') : Shed s s' ∧ (s'.p.vma i).valid = false := by
  unfold exitVma at h
  split at h
  · rename_i hvalid
    obtain ⟨⟨s₁, done⟩, hun, h⟩ := bind_ok_iff.mp h
    have h₁ := uvmunmapVma_shed hvalid (hf i hvalid) (hgo i hvalid) hun
    dsimp only at h
    split at h
    · cases h
      exact ⟨⟨h₁.1.ofile, h₁.1.vma, h₁.1.fewer⟩, h₁.2⟩
    · cases h
      exact h₁
  · rename_i hvalid
    cases h
    exact ⟨.refl s, by simpa using hvalid⟩

theorem exitFiles_shed (h : (List.finRange NOFILE).foldlM exitFile s = .ok s') :
    Shed s s' ∧ ∀ fd, s'.p.ofile fd = none := by
  have hloop := Meets.foldlM (f := exitFile)
    (I := fun rest s₁ => Shed s s₁ ∧ ∀ fd, fd ∉ rest → s₁.p.ofile fd = none)
    (fun fd rest s₁ hI => .of_returns fun s₂ hround => by
      obtain ⟨hshed, hfd⟩ := exitFile_shed hround
      refine ⟨hI.1.trans hshed, fun fd' hfd' => ?_⟩
      by_cases hsame : fd' = fd
      · rw [hsame, hfd]
      · exact hshed.ofile fd' (hI.2 fd' (by simp [hsame, hfd'])))
    (List.finRange NOFILE) s
    ⟨.refl s, fun fd hfd => absurd (List.mem_finRange fd) hfd⟩
  obtain ⟨hshed, hall⟩ := hloop.returns s' h
  exact ⟨hshed, fun fd => hall fd List.not_mem_nil⟩

theorem exitVmas_shed (hf : Framed s.p.vma) (hgo : CanLeave s.p)
    (h : (List.finRange NVMA).foldlM exitVma s = .ok s') :
    Shed s s' ∧ ∀ i, (s'.p.vma i).valid = false := by
  have hloop := Meets.foldlM (f := exitVma)
    (I := fun rest s₁ => Shed s s₁ ∧
      ∀ i, i ∉ rest → (s₁.p.vma i).valid = false)
    (fun i rest s₁ hI => .of_returns fun s₂ hround => by
      obtain ⟨hshed, hi⟩ := exitVma_shed (hI.1.framed hf)
        (hI.1.canLeave hgo) hround
      refine ⟨hI.1.trans hshed, fun j hj => ?_⟩
      by_cases hsame : j = i
      · rw [hsame, hi]
      · rcases hshed.vma j with hkept | hgone
        · rw [hkept]
          exact hI.2 j (by simp [hsame, hj])
        · exact hgone)
    (List.finRange NVMA) s
    ⟨.refl s, fun i hi => absurd (List.mem_finRange i) hi⟩
  obtain ⟨hshed, hall⟩ := hloop.returns s' h
  exact ⟨hshed, fun i => hall i List.not_mem_nil⟩

/-- **What is left of a process after `kexit`**: no descriptor, no directory
and, if every mapping can go, no mapping. -/
theorem kexit_shed (hf : Framed s.p.vma) (hgo : CanLeave s.p)
    (h : kexit s = .ok s') : (∀ fd, s'.p.ofile fd = none) ∧
      s'.p.cwd = none ∧ ∀ i, (s'.p.vma i).valid = false := by
  obtain ⟨s₂, hloops, h⟩ := bind_ok_iff.mp h
  obtain ⟨s₁, hfiles, hvmas⟩ := bind_ok_iff.mp hloops
  obtain ⟨hshed₁, hclosed⟩ := exitFiles_shed hfiles
  obtain ⟨hshed₂, hgone⟩ := exitVmas_shed (hshed₁.framed hf)
    (hshed₁.canLeave hgo) hvmas
  split at h
  · cases h
  · rename_i cwd hcwd
    cases h
    refine ⟨fun fd => ?_, rfl, fun i => ?_⟩
    · show (iput s₂ cwd).p.ofile fd = none
      rw [iput_p]
      exact hshed₂.ofile fd (hclosed fd)
    · show ((iput s₂ cwd).p.vma i).valid = false
      rw [iput_p]
      exact hgone i

/-! ## `kfork` -/

theorem filedup_p (h : filedup s k = .ok s') : s'.p = s.p := by
  obtain ⟨-, rfl⟩ := filedup_ok h
  rfl

/-- The parent is the same afterwards. -/
theorem kfork_p {slot : Slot} {np : Option Proc}
    (h : kfork s slot = .ok (s', np)) : s'.p = s.p := by
  unfold kfork at h
  obtain ⟨⟨km, np₀⟩, -, h⟩ := bind_ok_iff.mp h
  cases np₀ with
  | none =>
    cases h
    rfl
  | some np₀ =>
    obtain ⟨⟨km₁, pt, done⟩, -, h⟩ := bind_ok_iff.mp h
    simp only at h
    split at h
    · obtain ⟨⟨s₁, vma⟩, hvmas, h⟩ := bind_ok_iff.mp h
      obtain ⟨⟨s₂, ofile⟩, hfiles, h⟩ := bind_ok_iff.mp h
      have h₁ : s₁.p = s.p := by
        refine foldlM_invariant (I := fun sv : State × VMAs => sv.1.p = s.p)
          ?_ rfl hvmas
        intro sv i sv' hsv hround
        unfold forkVma at hround
        split at hround
        · obtain ⟨s₃, hdup, hround⟩ := bind_ok_iff.mp hround
          cases hround
          exact (filedup_p hdup).trans hsv
        · cases hround
          exact hsv
      have h₂ : s₂.p = s₁.p := by
        refine foldlM_invariant
          (I := fun so : State × (Fin NOFILE → Option FileId) =>
            so.1.p = s₁.p) ?_ rfl hfiles
        intro so fd so' hso hround
        unfold forkFile at hround
        split at hround
        · obtain ⟨s₃, hdup, hround⟩ := bind_ok_iff.mp hround
          cases hround
          exact (filedup_p hdup).trans hso
        · cases hround
          exact hso
      simp only at h
      split at h
      · cases h
      · cases h
        exact h₂.trans h₁
    · obtain ⟨⟨km₂, slot'⟩, -, h⟩ := bind_ok_iff.mp h
      cases h
      rfl

theorem kfork_framed {slot : Slot} {np : Proc} (hs : Framed s.p.vma)
    (hslot : Framed slot.vma) (h : kfork s slot = .ok (s', some np)) :
    Framed np.vma := by
  intro i hvalid
  rw [(kfork_child h).2 i] at hvalid ⊢
  split at hvalid
  · rename_i hv
    rw [if_pos hv]
    exact hs i hv
  · rename_i hv
    rw [if_neg hv]
    exact hslot i hvalid

/-! ## Calls on descriptors keep the mappings -/

theorem lookupInode_p (s : State) (j : InodeId) (ip : Inode) :
    (lookupInode s j ip).p = s.p := by
  unfold lookupInode
  split <;> rfl

theorem filealloc_p (h : filealloc s = some (s', k)) : s'.p = s.p := by
  unfold filealloc at h
  split at h
  · cases h
  · cases h
    rfl

theorem fdalloc_vma {fd : Fin NOFILE} (h : fdalloc s k = some (s', fd)) :
    s'.p.vma = s.p.vma := by
  unfold fdalloc at h
  split at h
  · cases h
  · cases h
    rfl

theorem sysDup_vma {r : Option (Fin NOFILE)} (h : sysDup s fd = .ok (s', r)) :
    s'.p.vma = s.p.vma := by
  unfold sysDup at h
  split at h
  · cases h
    rfl
  · split at h
    · cases h
      rfl
    · rename_i hfd
      obtain ⟨s₂, hdup, h⟩ := bind_ok_iff.mp h
      cases h
      rw [filedup_p hdup, fdalloc_vma hfd]

variable {r : Bool}

theorem sysClose_vma (h : sysClose s fd = .ok (s', r)) :
    s'.p.vma = s.p.vma := by
  unfold sysClose at h
  split at h
  · cases h
    rfl
  · obtain ⟨s₁, hclose, h⟩ := bind_ok_iff.mp h
    cases h
    rw [(fileclose_spec hclose).p]
    rfl

theorem sysOpen_vma {j : InodeId} {ip : Inode} {major : ℤ} {omode : Int32}
    {r : Option (Fin NOFILE)} (h : sysOpen s j ip major omode = .ok (s', r)) :
    s'.p.vma = s.p.vma := by
  have hlook := lookupInode_p s j ip
  dsimp only [sysOpen] at h
  split at h
  · cases h
    rw [iput_p, hlook]
  · split at h
    · cases h
      rw [iput_p, hlook]
    · rename_i s₁ k hfile
      have h₁ : s₁.p.vma = s.p.vma := by rw [filealloc_p hfile, hlook]
      split at h
      · obtain ⟨s₂, hclose, h⟩ := bind_ok_iff.mp h
        cases h
        rw [iput_p, (fileclose_spec hclose).p, h₁]
      · rename_i s₂ fd hfd
        have h₂ : s₂.p.vma = s.p.vma := (fdalloc_vma hfd).trans h₁
        cases h
        split
        · exact h₂
        · exact h₂

theorem sysChdir_vma {j : InodeId} {ip : Inode}
    (h : sysChdir s j ip = .ok (s', r)) : s'.p.vma = s.p.vma := by
  have hlook := lookupInode_p s j ip
  dsimp only [sysChdir] at h
  split at h
  · cases h
    rw [iput_p, hlook]
  · split at h
    · cases h
    · cases h
      show (iput _ _).p.vma = _
      rw [iput_p, hlook]

theorem closeBoth_vma {k₀ k₁ : FileId} (h : closeBoth s k₀ k₁ = .ok (s', r)) :
    s'.p.vma = s.p.vma := by
  obtain ⟨s₁, hclose₀, h⟩ := bind_ok_iff.mp h
  obtain ⟨s₂, hclose₁, h⟩ := bind_ok_iff.mp h
  cases h
  rw [(fileclose_spec hclose₁).p, (fileclose_spec hclose₀).p]

theorem pipealloc_p {r : Option (FileId × FileId)}
    (h : pipealloc s = .ok (s', r)) : s'.p = s.p := by
  unfold pipealloc at h
  split at h
  · cases h
    rfl
  · rename_i s₁ k₀ hfile₀
    have h₁ := filealloc_p hfile₀
    split at h
    · obtain ⟨s₂, hclose, h⟩ := bind_ok_iff.mp h
      cases h
      rw [(fileclose_spec hclose).p, h₁]
    · rename_i s₂ k₁ hfile₁
      have h₂ := (filealloc_p hfile₁).trans h₁
      split at h
      · obtain ⟨s₃, hclose₀, h⟩ := bind_ok_iff.mp h
        obtain ⟨s₄, hclose₁, h⟩ := bind_ok_iff.mp h
        cases h
        rw [(fileclose_spec hclose₁).p, (fileclose_spec hclose₀).p, h₂]
      · cases h
        exact h₂

theorem pipeFds_vma {fdarray : UInt64} {k₀ k₁ : FileId}
    (h : pipeFds s fdarray k₀ k₁ = .ok (s', r)) : s'.p.vma = s.p.vma := by
  unfold pipeFds at h
  split at h
  · exact closeBoth_vma h
  · rename_i s₁ fd₀ hfd₀
    have h₁ := fdalloc_vma hfd₀
    split at h
    · exact (closeBoth_vma h).trans h₁
    · rename_i s₂ fd₁ hfd₁
      have h₂ := (fdalloc_vma hfd₁).trans h₁
      obtain ⟨⟨s₃, done⟩, hcopy, h⟩ := bind_ok_iff.mp h
      have h₃ := ((copyoutFds_still ..).returns _ hcopy).vma.trans h₂
      dsimp only at h
      split at h
      · cases h
        exact h₃
      · exact (closeBoth_vma h).trans h₃

theorem sysPipe_vma {fdarray : UInt64} (h : sysPipe s fdarray = .ok (s', r)) :
    s'.p.vma = s.p.vma := by
  obtain ⟨⟨s₁, ks⟩, hpipe, h⟩ := bind_ok_iff.mp h
  have h₁ : s₁.p.vma = s.p.vma := by rw [pipealloc_p hpipe]
  cases ks with
  | none =>
    cases h
    exact h₁
  | some ks => exact (pipeFds_vma h).trans h₁

end Xv6.Vm
