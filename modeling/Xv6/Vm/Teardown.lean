import Xv6.Vm.ReadOnly
import Xv6.Vm.WriteBack

/-!
# Taking a process down

`kexit` closes the descriptors, unmaps every mapping over its whole range and
ignores a failure. Two kinds of mappings fail: one whose range is empty or
runs backwards, which `uvmunmap_vma` takes for no overlap, and one with a
dirty page whose negative file offset wraps to a place so far past the end of
the file that the distance comes out positive again. Such a mapping stays in
the slot with its pages and its reference; all the others go.
-/

namespace Xv6.Vm

open Framework

/-! ## Mappings that stay -/

/-- Write-back of the mapping fails at its first dirty page. -/
def Stuck (s : State) (v : VMA) : Prop :=
  WritesBack s v v.start v.end_ ∧ v.offset.toInt < 0 ∧
    ∃ j, (s.file v.f).ip = some j ∧
      ((s.inode j).size : ℤ) < v.offset.toInt + 2 ^ 31

/-- `kexit` gets rid of the mapping. -/
def Removable (s : State) (v : VMA) : Prop := v.start < v.end_ ∧ ¬ Stuck s v

/-! ## What holds while a process goes down -/

/-- What `kexit` relies on. -/
structure ExitInv (s : State) : Prop where
  bounded : ∀ i, (s.p.vma i).valid = true → (s.p.vma i).Bounded
  apart : Apart fun i => (s.p.vma i).region
  pages : PagesOk s.p
  covered : Covered s.p
  frames : FramesAll Frame.Usable s
  refs : RefsOk s
  backed : ∀ i, (s.p.vma i).valid = true → (s.p.vma i).shared = true →
    (s.p.vma i).allows PROT_READ = true →
    (s.p.vma i).allows PROT_WRITE = true →
    (s.file (s.p.vma i).f).type = .inode ∨
      (s.file (s.p.vma i).f).type = .device

/-- One step of `kexit`: slots are given up with their pages, the rest of the
process stays, and so do the sizes of the files that are still open. -/
structure ExitStep (s s' : State) : Prop where
  refs : Balanced s s'
  vma : ∀ i, s'.p.vma i = s.p.vma i ∨ (s'.p.vma i).valid = false
  leaf : ∀ i va, (s'.p.vma i).Mem va →
    s'.p.pagetable.leaf va = s.p.pagetable.leaf va
  tables : s'.p.pagetable.frames = s.p.pagetable.frames
  size : ∀ j, 0 < openCount s'.file j →
    (s'.inode j).size = (s.inode j).size
  ofile : ∀ fd, s.p.ofile fd = none → s'.p.ofile fd = none
  sz : s'.p.sz = s.p.sz
  trapframe : s'.p.trapframe = s.p.trapframe

namespace ExitStep

variable {s s₁ s' : State}

theorem refl (s : State) : ExitStep s s :=
  ⟨.of_same rfl rfl rfl fun _ => rfl, fun _ => Or.inl rfl, fun _ _ _ => rfl,
    rfl, fun _ _ => rfl, fun _ => id, rfl, rfl⟩

theorem trans (h : ExitStep s s₁) (h' : ExitStep s₁ s') : ExitStep s s' where
  refs := h.refs.trans h'.refs
  vma := by
    intro i
    rcases h'.vma i with heq | hinv
    · rw [heq]
      exact h.vma i
    · exact Or.inr hinv
  leaf := by
    intro i va hi
    rw [h'.leaf i va hi]
    refine h.leaf i va ?_
    rcases h'.vma i with heq | hinv
    · rwa [heq] at hi
    · rw [VMA.Mem, hinv] at hi
      cases hi.1
  tables := h'.tables.trans h.tables
  size := by
    intro j hj
    rw [h'.size j hj]
    exact h.size j (Nat.lt_of_lt_of_le hj (h'.refs.kept.openCount_le j))
  ofile := fun fd hfd => h'.ofile fd (h.ofile fd hfd)
  sz := h'.sz.trans h.sz
  trapframe := h'.trapframe.trans h.trapframe

end ExitStep

variable {i : Fin NVMA}

namespace ExitInv

variable {s s' : State}

theorem mem_lt (h : ExitInv s) (i : Fin NVMA) (va : ℕ)
    (hi : (s.p.vma i).Mem va) : va < MAXVA :=
  lt_MAXVA_of_lt_TRAPFRAME
    (Nat.lt_of_lt_of_le hi.2.2 (h.bounded i hi.1).end_le)

theorem held (h : ExitInv s) (hvalid : (s.p.vma i).valid = true) :
    0 < (s.file (s.p.vma i).f).ref := by
  have hpos : 0 < mapCount s.p.vma (s.p.vma i).f :=
    tally_pos (i := i) (by simp [hvalid])
  have := h.refs.files (s.p.vma i).f
  omega

theorem canClose (h : ExitInv s) {k : FileId} (hpos : 0 < (s.file k).ref) :
    CanClose s k :=
  ⟨hpos, h.frames.pipe k, h.refs.ip k hpos⟩

/-- A mapping with something to write back is of an open file. -/
theorem writes_ip (h : ExitInv s) (hvalid : (s.p.vma i).valid = true)
    (hw : WritesBack s (s.p.vma i) (s.p.vma i).start (s.p.vma i).end_) :
    ∃ j, (s.file (s.p.vma i).f).ip = some j ∧ 0 < openCount s.file j := by
  obtain ⟨hshared, va, hlo, hhi, l, hl, hd⟩ := hw
  obtain ⟨hread, hwrite⟩ := (h.pages i va l ⟨hvalid, hlo, hhi⟩ hl).dirty hd
  have htype := h.backed i hvalid hshared hread hwrite
  have hpos := h.held hvalid
  obtain ⟨j, hj⟩ := Option.ne_none_iff_exists'.mp
    (h.refs.ip _ hpos htype)
  refine ⟨j, hj, tally_pos (i := (s.p.vma i).f) ?_⟩
  rcases htype with htype | htype
  · simp [File.RefersTo, File.Backs, hpos, htype, hj]
  · simp [File.RefersTo, File.Backs, hpos, htype, hj]

/-- Being stuck does not depend on the other mappings. -/
theorem stuck_iff (h : ExitInv s') (hs : ExitStep s s')
    (hvalid : (s'.p.vma i).valid = true) :
    Stuck s' (s'.p.vma i) ↔ Stuck s (s.p.vma i) := by
  have hsame : s'.p.vma i = s.p.vma i := by
    rcases hs.vma i with heq | hinv
    · exact heq
    · rw [hinv] at hvalid
      cases hvalid
  have hwrites : WritesBack s' (s'.p.vma i) (s'.p.vma i).start
      (s'.p.vma i).end_ ↔ WritesBack s (s'.p.vma i) (s'.p.vma i).start
        (s'.p.vma i).end_ := by
    unfold WritesBack Dirty
    refine and_congr_right fun _ => exists_congr fun va => ?_
    refine and_congr_right fun hlo => and_congr_right fun hhi => ?_
    rw [hs.leaf i va ⟨hvalid, hlo, hhi⟩]
  rw [← hsame]
  unfold Stuck
  constructor
  · rintro ⟨hw, hneg, j, hj, hsize⟩
    obtain ⟨j', hj', hopen⟩ := h.writes_ip hvalid hw
    cases hj.symm.trans hj'
    rw [hs.size j hopen] at hsize
    rw [hs.refs.kept.ip] at hj
    exact ⟨hwrites.mp hw, hneg, j, hj, hsize⟩
  · rintro ⟨hw, hneg, j, hj, hsize⟩
    have hw' := hwrites.mpr hw
    obtain ⟨j', hj', hopen⟩ := h.writes_ip hvalid hw'
    rw [← hs.refs.kept.ip] at hj
    cases hj.symm.trans hj'
    rw [← hs.size j hopen] at hsize
    exact ⟨hw', hneg, j, hj, hsize⟩

theorem removable_iff (h : ExitInv s') (hs : ExitStep s s')
    (hsame : s'.p.vma i = s.p.vma i) (hvalid : (s.p.vma i).valid = true) :
    Removable s' (s'.p.vma i) ↔ Removable s (s.p.vma i) := by
  unfold Removable
  rw [h.stuck_iff hs (by rw [hsame]; exact hvalid), hsame]

/-- What is left to show after a step. -/
theorem of_step (h : ExitInv s) (hs : ExitStep s s') (hcov : Covered s'.p)
    (hframes : FramesAll Frame.Usable s') : ExitInv s' := by
  have hsame : ∀ i, (s'.p.vma i).valid = true → s'.p.vma i = s.p.vma i := by
    intro i hi
    rcases hs.vma i with heq | hinv
    · exact heq
    · rw [hinv] at hi
      cases hi
  have hrefs := h.refs.balanced hs.refs
  refine ⟨?_, h.apart.shrink ?_, ?_, hcov, hframes, hrefs, ?_⟩
  · intro i hi
    have heq := hsame i hi
    rw [heq] at hi ⊢
    exact h.bounded i hi
  · intro i va (hi : (s'.p.vma i).Mem va)
    show (s.p.vma i).Mem va
    rwa [hsame i hi.1] at hi
  · intro i va l hi hl
    rw [hs.leaf i va hi] at hl
    have heq := hsame i hi.1
    rw [heq] at hi ⊢
    exact h.pages i va l hi hl
  · intro i hi hshared hread hwrite
    have hpos : 0 < (s'.file (s'.p.vma i).f).ref := by
      have hcount : 0 < mapCount s'.p.vma (s'.p.vma i).f :=
        tally_pos (i := i) (by simp [hi])
      have := hrefs.files (s'.p.vma i).f
      omega
    rw [(hs.refs.kept.opened _ hpos).2]
    have heq := hsame i hi
    rw [heq] at hi hshared hread hwrite ⊢
    exact h.backed i hi hshared hread hwrite

/-! ## The loop over the descriptors -/

theorem exitFile (h : ExitInv s) (fd : Fin NOFILE) :
    ∃ s', exitFile s fd = .ok s' ∧ ExitInv s' ∧ ExitStep s s' ∧
      s'.p.vma = s.p.vma ∧ s'.p.ofile = Function.update s.p.ofile fd none := by
  unfold Vm.exitFile
  cases hfd : s.p.ofile fd with
  | none =>
    refine ⟨s, rfl, h, .refl s, rfl, ?_⟩
    rw [← hfd, Function.update_eq_self]
  | some k =>
    have hpos : 0 < (s.file k).ref := by
      have hcount : 0 < fdCount s.p.ofile k :=
        tally_pos (i := fd) (by simp [hfd])
      have := h.refs.files k
      omega
    obtain ⟨s₁, hclose⟩ := fileclose_ok (h.canClose hpos)
    have hclosed := fileclose_spec hclose
    have hbal := hclosed.balanced_fd hfd
    have hstep : ExitStep s { s₁ with
        p := { s₁.p with ofile := Function.update s₁.p.ofile fd none } } := by
      refine ⟨hbal, ?_, ?_, ?_, ?_, ?_, ?_, ?_⟩
      · exact fun i => Or.inl (show s₁.p.vma i = _ by rw [hclosed.p])
      · exact fun i va _ => show s₁.p.pagetable.leaf va = _ by
          rw [hclosed.p]
      · exact show s₁.p.pagetable.frames = _ by rw [hclosed.p]
      · intro j hj
        have hj' : openCount s₁.file j ≤ (s₁.inode j).ref :=
          (h.refs.balanced hbal).inodes j
        exact (hclosed.inode j).size (Nat.lt_of_lt_of_le hj hj')
      · intro fd' hfd'
        show Function.update s₁.p.ofile fd none fd' = none
        rw [hclosed.p, Function.update_apply]
        split
        · rfl
        · exact hfd'
      · exact show s₁.p.sz = _ by rw [hclosed.p]
      · exact show s₁.p.trapframe = _ by rw [hclosed.p]
    refine ⟨_, bind_ok_iff.mpr ⟨s₁, hclose, rfl⟩,
      h.of_step hstep ?_ ⟨?_, ?_, h.frames.pipe_of_filesKept hbal.kept⟩,
      hstep, ?_, ?_⟩
    · show Covered { s₁.p with ofile := _ }
      rw [hclosed.p]
      exact h.covered
    · intro f (hf : f ∈ s₁.kmem.freelist)
      rcases hclosed.freed with hfree | ⟨htype, hfree⟩
      · exact h.frames.free f (hfree ▸ hf)
      · rw [hfree, List.mem_cons] at hf
        rcases hf with rfl | hf
        · exact h.frames.pipe k htype
        · exact h.frames.free f hf
    · show ∀ va < TRAPFRAME, ∀ l, s₁.p.pagetable.leaf va = some l → _
      rw [hclosed.p]
      exact h.frames.user
    · show s₁.p.vma = _
      rw [hclosed.p]
    · show Function.update s₁.p.ofile fd none = _
      rw [hclosed.p]

theorem exitFiles (h : ExitInv s) : ∀ fds : List (Fin NOFILE),
    ∃ s', fds.foldlM Vm.exitFile s = .ok s' ∧ ExitInv s' ∧ ExitStep s s' ∧
      s'.p.vma = s.p.vma ∧
      ∀ fd, fd ∈ fds ∨ s.p.ofile fd = none → s'.p.ofile fd = none := by
  intro fds
  induction fds generalizing s with
  | nil =>
    refine ⟨s, rfl, h, .refl s, rfl, ?_⟩
    rintro fd (hfd | hfd)
    · cases hfd
    · exact hfd
  | cons a fds ih =>
    obtain ⟨s₁, hround, h₁, hstep₁, hvma₁, hofile⟩ := h.exitFile a
    obtain ⟨s', hrest, h', hstep', hvma', hclosed⟩ := ih h₁
    refine ⟨s', ?_, h', hstep₁.trans hstep', hvma'.trans hvma₁, ?_⟩
    · rw [List.foldlM_cons, hround]
      exact hrest
    · intro fd hfd
      apply hclosed
      rw [hofile, Function.update_apply]
      split
      · exact Or.inr rfl
      · rename_i hne
        rcases hfd with hfd | hfd
        · rcases List.mem_cons.mp hfd with heq | hfd
          · exact absurd heq hne
          · exact Or.inl hfd
        · exact Or.inr hfd

/-! ## The loop over the mappings -/

/-- Write-back of a mapping that is not stuck goes through, and files keep
their sizes. -/
theorem writeBack_ok (h : ExitInv s) (hvalid : (s.p.vma i).valid = true)
    (hr : Removable s (s.p.vma i)) :
    ∃ s₁, writeBack s (s.p.vma i) (s.p.vma i).start (s.p.vma i).end_ =
        .ok (s₁, true) ∧
      ∀ j, (s₁.inode j).size = (s.inode j).size := by
  obtain ⟨hlt, hstuck⟩ := hr
  have hb := h.bounded i hvalid
  have hspan : (s.p.vma i).start + ((s.p.vma i).end_ - (s.p.vma i).start +
      PGSIZE - 1) / PGSIZE * PGSIZE = (s.p.vma i).end_ := by
    obtain ⟨h₁, h₂, -, -⟩ := hb
    unfold PGSIZE at *
    omega
  have htop : (s.p.vma i).end_ ≤ MAXVA :=
    Nat.le_trans hb.end_le (Nat.le_of_lt TRAPFRAME_lt_MAXVA)
  rw [writeBack]
  split
  · rename_i hshared
    by_cases hw : WritesBack s (s.p.vma i) (s.p.vma i).start (s.p.vma i).end_
    · obtain ⟨j, hj, hopen⟩ := h.writes_ip hvalid hw
      have href := h.refs.inodes j
      have hlo := (s.p.vma i).offset.le_toInt
      have hhi := (s.p.vma i).offset.toInt_lt
      generalize hoff : toUint32 ((s.p.vma i).offset.toInt +
        (s.p.vma i).start - (s.p.vma i).start) = off
      rcases Nat.lt_or_ge (s.inode j).size off with hpast | hin
      · have hnear : off ≤ (s.inode j).size + 2 ^ 31 := by
          by_contra hfar
          refine hstuck ⟨hw, ?_, j, hj, ?_⟩
          · unfold toUint32 at hoff
            omega
          · unfold toUint32 at hoff
            omega
        rw [writeBackLoop_past hj (by rw [hspan]; exact htop) hpast hnear]
        exact ⟨s, rfl, fun _ => rfl⟩
      · refine ⟨_, writeBackLoop_inside hj (by omega) hb.start_mod
          (by rw [hspan]; exact htop) ?_ hin, ?_⟩
        · intro n hn l hl _
          refine (h.pages i _ l ⟨hvalid, Nat.le_add_right _ _, ?_⟩ hl).user
          have := Nat.mul_le_mul_right PGSIZE (Nat.succ_le_of_lt hn)
          rw [Nat.succ_mul] at this
          have hpos : 0 < PGSIZE := by decide
          omega
        · intro j'
          rw [State.setInode]
          simp only [Function.update_apply]
          split
          · rename_i heq
            rw [heq]
            rfl
          · rfl
    · rw [writeBackLoop_clean (by rw [hspan]; exact htop)]
      · exact ⟨s, rfl, fun _ => rfl⟩
      · intro n hn hd
        refine hw ⟨hshared, _, Nat.le_add_right _ _, ?_, hd⟩
        have := Nat.mul_le_mul_right PGSIZE (Nat.succ_le_of_lt hn)
        rw [Nat.succ_mul] at this
        have hpos : 0 < PGSIZE := by decide
        omega
  · exact ⟨s, rfl, fun _ => rfl⟩

/-- The base that `kexit` moves. -/
theorem set_base (h : ExitInv s) (base : ℕ) :
    ExitInv { s with p := { s.p with mmapBase := base } } ∧
      ExitStep s { s with p := { s.p with mmapBase := base } } :=
  ⟨⟨h.bounded, h.apart, h.pages, h.covered,
      ⟨h.frames.free, h.frames.user, h.frames.pipe⟩,
      ⟨h.refs.files, h.refs.inodes, h.refs.typed, h.refs.ip⟩, h.backed⟩,
    ⟨.of_same rfl rfl rfl fun _ => rfl, fun _ => Or.inl rfl, fun _ _ _ => rfl,
      rfl, fun _ _ => rfl, fun _ => id, rfl, rfl⟩⟩

/-- A mapping that can go is unmapped as a whole. -/
theorem unmap_whole (h : ExitInv s) (hvalid : (s.p.vma i).valid = true)
    (hr : Removable s (s.p.vma i)) :
    ∃ s', uvmunmapVma s i (s.p.vma i).start (s.p.vma i).end_ =
        .ok (s', true) ∧ ExitInv s' ∧ ExitStep s s' ∧
      (s'.p.vma i).valid = false ∧
      ∀ j, j ≠ i → s'.p.vma j = s.p.vma j := by
  have hb := h.bounded i hvalid
  have hlt := hr.1
  have hus : unmapStart (s.p.vma i) (s.p.vma i).start = (s.p.vma i).start := by
    simp [unmapStart]
  have hue : unmapEnd (s.p.vma i) (s.p.vma i).end_ = (s.p.vma i).end_ := by
    simp [unmapEnd]
  obtain ⟨s₁, hwb, hsize⟩ := h.writeBack_ok hvalid hr
  obtain ⟨s', hun, -, hdrop⟩ := uvmunmapVma_ok hb ⟨hvalid, hlt, hlt⟩
    (Or.inl hus) hb.start_mod hb.end_mod (by rw [hus, hue]; omega)
    (by
      rw [hus, hue]
      intro va l _ hhi hl
      exact h.frames.user va (Nat.lt_of_lt_of_le hhi hb.end_le) l hl)
    (h.canClose (h.held hvalid)) (by rw [hus, hue]; exact hwb)
  have hbal := uvmunmapVma_balanced (by rw [hus]; exact hb.start_mod) hun
  have hrel : Released s i (s.p.vma i).start (s.p.vma i).end_ s' := by
    rcases uvmunmapVma_spec (h.bounded i) hb.start_mod hb.end_mod hun with
      ⟨hfalse, -⟩ | ⟨-, hrel⟩
    · cases hfalse
    · exact hrel
  have hgone : (s'.p.vma i).valid = false := by
    rw [hrel.vma_self, hus, hue, VMA.shrunk, if_pos ⟨rfl, rfl⟩]
  have hstep : ExitStep s s' := by
    refine ⟨hbal, ?_, ?_, hrel.frames, ?_, fun fd hfd => by rw [hrel.p]; exact hfd,
      by rw [hrel.p], by rw [hrel.p]⟩
    · intro j
      by_cases hj : j = i
      · exact Or.inr (hj ▸ hgone)
      · exact Or.inl (hrel.vma_other hj)
    · intro j va hj
      obtain ⟨hold, -⟩ := hrel.mem_iff.mp hj
      refine hrel.outside va (h.mem_lt j va hold) ?_
      rw [hus, hue]
      rintro ⟨hlo, hhi⟩
      obtain rfl : j = i := h.apart.eq_of_mem hold ⟨hvalid, hlo, hhi⟩
      rw [VMA.Mem, hgone] at hj
      cases hj.1
    · intro j hj
      have href := (h.refs.balanced hbal).inodes j
      rw [← hsize j]
      exact (hdrop j).size (by omega)
  exact ⟨s', hun, h.of_step hstep (h.covered.released hrel)
    (h.frames.released hb hrel), hstep, hgone, fun j hj => hrel.vma_other hj⟩

/-- A mapping that cannot go is left alone. -/
theorem unmap_fails (h : ExitInv s) (hvalid : (s.p.vma i).valid = true)
    (hr : ¬ Removable s (s.p.vma i)) :
    uvmunmapVma s i (s.p.vma i).start (s.p.vma i).end_ = .ok (s, false) := by
  dsimp only [uvmunmapVma]
  by_cases hlt : (s.p.vma i).start < (s.p.vma i).end_
  · have hstuck : Stuck s (s.p.vma i) := by
      by_contra hcon
      exact hr ⟨hlt, hcon⟩
    obtain ⟨hw, hneg, j, hj, hsize⟩ := hstuck
    obtain ⟨j', hj', hopen⟩ := h.writes_ip hvalid hw
    cases hj.symm.trans hj'
    have href := h.refs.inodes j
    have hb := h.bounded i hvalid
    have hspan : (s.p.vma i).start + ((s.p.vma i).end_ - (s.p.vma i).start +
        PGSIZE - 1) / PGSIZE * PGSIZE = (s.p.vma i).end_ := by
      obtain ⟨h₁, h₂, -, -⟩ := hb
      unfold PGSIZE at *
      omega
    have hwb : writeBack s (s.p.vma i) (s.p.vma i).start (s.p.vma i).end_ =
        .ok (s, false) := by
      obtain ⟨hshared, va, hlo, hhi, hd⟩ := hw
      have hoff := (s.p.vma i).offset.le_toInt
      rw [writeBack, if_pos hshared]
      refine writeBackLoop_wrapped hj (by omega)
        (by rw [hspan]; exact Nat.le_trans hb.end_le
              (Nat.le_of_lt TRAPFRAME_lt_MAXVA)) ?_ ?_
        ⟨(va - (s.p.vma i).start) / PGSIZE, ?_, ?_⟩
      · unfold toUint32
        omega
      · unfold toUint32
        omega
      · unfold PGSIZE at *
        omega
      · obtain ⟨l, hl, hdirty⟩ := hd
        refine ⟨l, ?_, hdirty⟩
        rw [← hl]
        apply PageTable.leaf_congr
        have hmod := hb.start_mod
        unfold pgrounddown PGSIZE at *
        omega
    have hus : unmapStart (s.p.vma i) (s.p.vma i).start =
        (s.p.vma i).start := by simp [unmapStart]
    have hue : unmapEnd (s.p.vma i) (s.p.vma i).end_ = (s.p.vma i).end_ := by
      simp [unmapEnd]
    rw [if_neg (by simp [hvalid, hlt]), hus, hue, if_neg (by simp), hwb]
    rfl
  · rw [if_pos (Or.inr (Or.inl (Nat.not_lt.mp hlt)))]

/-- One round of the loop. -/
theorem exitVma (h : ExitInv s) (i : Fin NVMA) :
    ∃ s', exitVma s i = .ok s' ∧ ExitInv s' ∧ ExitStep s s' ∧
      ((s.p.vma i).valid = true →
        ((s'.p.vma i).valid = false ↔ Removable s (s.p.vma i))) ∧
      ∀ j, j ≠ i → s'.p.vma j = s.p.vma j := by
  have hbase : ∀ t : State, ExitInv t → ∃ t',
      (if (t.p.vma i).start = t.p.mmapBase then
        Except.ok { t with p := { t.p with mmapBase := (t.p.vma i).end_ } }
      else Except.ok (ε := Panic) t) = .ok t' ∧ ExitInv t' ∧ ExitStep t t' ∧
        t'.p.vma = t.p.vma := by
    intro t ht
    split
    · obtain ⟨h₁, h₂⟩ := ht.set_base (t.p.vma i).end_
      exact ⟨_, rfl, h₁, h₂, rfl⟩
    · exact ⟨t, rfl, ht, .refl t, rfl⟩
  unfold Vm.exitVma
  split
  · rename_i hvalid
    by_cases hr : Removable s (s.p.vma i)
    · obtain ⟨s₁, hun, h₁, hstep₁, hgone, hother⟩ := h.unmap_whole hvalid hr
      obtain ⟨s', hset, h', hstep', hvma⟩ := hbase s₁ h₁
      refine ⟨s', bind_ok_iff.mpr ⟨(s₁, true), hun, hset⟩, h',
        hstep₁.trans hstep', fun _ => ?_, ?_⟩
      · rw [hvma]
        exact iff_of_true hgone hr
      · rw [hvma]
        exact hother
    · obtain ⟨s', hset, h', hstep', hvma⟩ := hbase s h
      refine ⟨s', bind_ok_iff.mpr ⟨(s, false), h.unmap_fails hvalid hr, hset⟩,
        h', hstep', fun _ => ?_, ?_⟩
      · rw [hvma, hvalid]
        exact iff_of_false Bool.noConfusion hr
      · rw [hvma]
        exact fun _ _ => rfl
  · rename_i hinv
    exact ⟨s, rfl, h, .refl s, fun hvalid => absurd hvalid hinv, fun _ _ => rfl⟩

/-- **The loop over the slots gives up the removable mappings and no
others.** -/
theorem exitVmas : ∀ {is : List (Fin NVMA)} {s : State}, ExitInv s →
    is.Nodup → ∃ s', is.foldlM Vm.exitVma s = .ok s' ∧ ExitInv s' ∧
      ExitStep s s' ∧
      (∀ i ∈ is, (s.p.vma i).valid = true →
        ((s'.p.vma i).valid = false ↔ Removable s (s.p.vma i))) ∧
      ∀ i, i ∉ is → s'.p.vma i = s.p.vma i
  | [], s, h, _ =>
    ⟨s, rfl, h, .refl s, (fun i hi => by cases hi), fun _ _ => rfl⟩
  | a :: is, s, h, hnodup => by
    obtain ⟨ha, hnodup⟩ := List.nodup_cons.mp hnodup
    obtain ⟨s₁, hround, h₁, hstep₁, hself, hother⟩ := h.exitVma a
    obtain ⟨s', hrest, h', hstep', hin, hout⟩ := exitVmas h₁ hnodup
    refine ⟨s', ?_, h', hstep₁.trans hstep', ?_, ?_⟩
    · rw [List.foldlM_cons, hround]
      exact hrest
    · intro i hi hvalid
      rcases List.mem_cons.mp hi with rfl | hmem
      · rw [hout i ha]
        exact hself hvalid
      · -- the rounds before did not change what holds of this slot
        have hne : i ≠ a := by
          rintro rfl
          exact ha hmem
        have hsame := hother i hne
        rw [hin i hmem (by rw [hsame]; exact hvalid)]
        exact h₁.removable_iff hstep₁ hsame hvalid
    · intro i hi
      rw [List.mem_cons, not_or] at hi
      rw [hout i hi.2, hother i hi.1]

/-- **`kexit` up to the end of its loops.** -/
theorem exitLoops (h : ExitInv s) : ∃ s', exitLoops s = .ok s' ∧
    ExitInv s' ∧ ExitStep s s' ∧ (∀ fd, s'.p.ofile fd = none) ∧
    ∀ i, (s.p.vma i).valid = true →
      ((s'.p.vma i).valid = false ↔ Removable s (s.p.vma i)) := by
  obtain ⟨s₁, hfiles, h₁, hstep₁, hvma₁, hclosed⟩ :=
    h.exitFiles (List.finRange NOFILE)
  obtain ⟨s', hvmas, h', hstep', hin, -⟩ := exitVmas h₁
    (List.nodup_finRange NVMA)
  refine ⟨s', bind_ok_iff.mpr ⟨s₁, hfiles, hvmas⟩, h', hstep₁.trans hstep',
    ?_, ?_⟩
  · intro fd
    exact hstep'.ofile fd (hclosed fd (Or.inl (List.mem_finRange fd)))
  · intro i hvalid
    rw [hin i (List.mem_finRange i) (by rw [hvma₁]; exact hvalid)]
    exact h₁.removable_iff hstep₁ (by rw [hvma₁]) hvalid

end ExitInv

/-! ## Runs -/

/-- Frames come from the allocator, counts cover the references, and the ends
of pipes are apart. -/
structure Sound (s : State) : Prop where
  frames : FramesAll Frame.Usable s
  tables : ∀ f ∈ s.p.pagetable.frames, f.Usable
  trapframe : s.p.trapframe.Usable
  refs : RefsOk s
  pipes : PipeEnds s

/-- `mmap`, `munmap`, page faults, loads and stores with any arguments. -/
def LiveOps (_ : State) : Op → Prop
  | .mmap .. => True
  | .munmap .. => True
  | .vmfault .. => True
  | .load _ => True
  | .store .. => True
  | _ => False

/-- As `LiveOps`, where `mmap_base` is not raised over a mapping. The others
use the allocator and write to and truncate the files meanwhile. -/
def LiveGuarded (s : State) : Op → Prop
  | .mmap _ len _ _ _ _ => s.p.state = .running ∧ MmapOk s.p len
  | .munmap addr len => s.p.state = .running ∧ MunmapOk s.p addr len
  | .vmfault .. => s.p.state = .running
  | .load _ => s.p.state = .running
  | .store .. => s.p.state = .running
  | .others freelist inode => s.p.state = .running ∧
      (∀ f ∈ freelist, f.Usable) ∧
      ∀ j, openCount s.file j ≤ (inode j).ref
  | _ => False

instance (s : State) : DecidablePred (LiveGuarded s)
  | .mmap .. | .munmap .. => inferInstanceAs (Decidable (_ ∧ _))
  | .others .. => inferInstanceAs (Decidable (_ ∧ _ ∧ _))
  | .vmfault .. | .load _ | .store .. => inferInstanceAs (Decidable (_ = _))
  | .sbrk .. | .growproc _ | .exit => .isFalse id

/-- What holds of the process while it runs. -/
structure LiveInv (s : State) : Prop where
  space : SpaceInv s.p
  sz_le : s.p.sz ≤ TRAPFRAME
  sound : Sound s
  backed : ∀ i, (s.p.vma i).valid = true → (s.p.vma i).shared = true →
    (s.p.vma i).allows PROT_READ = true →
    (s.p.vma i).allows PROT_WRITE = true →
    (s.file (s.p.vma i).f).type = .inode ∨
      (s.file (s.p.vma i).f).type = .device

variable {s s' : State}

theorem PipeEnds.filesKept (h : PipeEnds s) (hk : FilesKept s s') :
    PipeEnds s' := by
  intro k hpipe
  rw [hk.readable, hk.writable]
  refine h k ?_
  rcases hk.type k with htype | htype
  · rw [← htype]
    exact hpipe
  · rw [htype] at hpipe
    cases hpipe

/-- A slot that is still valid maps the same file in the same way. -/
theorem MunmapDone.vma {addr stop : ℕ} (h : MunmapDone s addr stop s')
    (hi : (s'.p.vma i).valid = true) :
    (s.p.vma i).valid = true ∧ (s'.p.vma i).f = (s.p.vma i).f ∧
      (s'.p.vma i).prot = (s.p.vma i).prot ∧
      (s'.p.vma i).flags = (s.p.vma i).flags := by
  cases h with
  | refused => exact ⟨hi, rfl, rfl, rfl⟩
  | failed _ _ honly =>
    rw [honly.p] at hi ⊢
    exact ⟨hi, rfl, rfl, rfl⟩
  | missed =>
    rw [rebase_vma] at hi ⊢
    exact ⟨hi, rfl, rfl, rfl⟩
  | @released j s₁ _ hrel =>
    rw [rebase_vma] at hi ⊢
    by_cases hij : i = j
    · subst hij
      rw [hrel.vma_self, VMA.shrunk_f, VMA.shrunk_prot, VMA.shrunk_flags]
      exact ⟨hrel.hit.1, rfl, rfl, rfl⟩
    · rw [hrel.vma_other hij] at hi ⊢
      exact ⟨hi, rfl, rfl, rfl⟩

namespace LiveInv

variable {s s' : State}

theorem exitInv (h : LiveInv s) : ExitInv s where
  bounded := h.space.layout.bounded
  apart := h.space.layout.apart
  pages := h.space.pages
  covered := h.space.covered
  frames := h.sound.frames
  refs := h.sound.refs
  backed := h.backed

/-- A step that leaves the mappings and the files alone. -/
theorem of_same (h : LiveInv s) (hspace : SpaceInv s'.p)
    (hframes : FramesAll Frame.Usable s')
    (htables : ∀ f ∈ s'.p.pagetable.frames, f.Usable)
    (hsame : SameProc s s') : LiveInv s' where
  space := hspace
  sz_le := by
    rw [hsame.sz]
    exact h.sz_le
  sound :=
    { frames := hframes
      tables := htables
      trapframe := by
        rw [hsame.trapframe]
        exact h.sound.trapframe
      refs := h.sound.refs.balanced (.of_same hsame.file hsame.ofile hsame.vma
        fun j => by rw [hsame.inode])
      pipes := h.sound.pipes.filesKept (.of_file_eq hsame.file) }
  backed := by
    rw [hsame.vma, hsame.file]
    exact h.backed

theorem mmap {len prot flags offset : Int32} {k : FileId} (h : LiveInv s)
    (hok : MmapOk s.p len) (hm : MmapDone s len prot flags offset i k s') :
    LiveInv s' := by
  have hpt : s'.p.pagetable = s.p.pagetable := by rw [hm.p]
  refine ⟨h.space.mmap hok hm, ?_, ⟨h.sound.frames.mmap hm, ?_, ?_,
    h.sound.refs.balanced hm.balanced, h.sound.pipes.filesKept hm.filesKept⟩,
    ?_⟩
  · rw [show s'.p.sz = s.p.sz by rw [hm.p]]
    exact h.sz_le
  · rw [hpt]
    exact h.sound.tables
  · rw [show s'.p.trapframe = s.p.trapframe by rw [hm.p]]
    exact h.sound.trapframe
  · intro n hn hshared hread hwrite
    rw [show (s'.file (s'.p.vma n).f).type = (s.file (s'.p.vma n).f).type by
      rw [hm.file_eq]]
    by_cases hni : n = i
    · subst hni
      rw [hm.p] at hshared hread hwrite ⊢
      simp only [Function.update_self, VMA.shared, VMA.allows,
        decide_eq_true_eq] at hshared hread hwrite ⊢
      have hgrant := hm.granted
      simp only [mmapRefused, hread, hwrite, hshared, decide_true,
        Bool.true_and, Bool.and_true, ne_eq, not_false_eq_true,
        Bool.or_eq_false_iff, Bool.not_eq_false'] at hgrant
      have hpipe := h.sound.pipes k
      have htyped := h.sound.refs.typed k hm.ref_pos
      cases htype : (s.file k).type with
      | none => exact absurd htype htyped
      | pipe => exact absurd hgrant (hpipe htype)
      | inode => exact Or.inl rfl
      | device => exact Or.inr rfl
    · rw [hm.vma_other hni] at hn hshared hread hwrite ⊢
      exact h.backed n hn hshared hread hwrite

theorem munmap {addr : UInt64} {len : Int32} (h : LiveInv s)
    (hok : MunmapOk s.p addr len)
    (hm : MunmapDone s addr.toNat (munmapEnd addr len) s')
    (hbal : Balanced s s') : LiveInv s' := by
  have hp : s'.p.sz = s.p.sz ∧ s'.p.trapframe = s.p.trapframe ∧
      s'.p.pagetable.frames = s.p.pagetable.frames := by
    cases hm with
    | refused => exact ⟨rfl, rfl, rfl⟩
    | failed _ _ honly => rw [honly.p]; exact ⟨rfl, rfl, rfl⟩
    | missed =>
      unfold rebase
      split <;> exact ⟨rfl, rfl, rfl⟩
    | released _ hrel =>
      have hsz := congrArg Proc.sz hrel.p
      have htf := congrArg Proc.trapframe hrel.p
      unfold rebase
      split <;> exact ⟨hsz, htf, hrel.frames⟩
  have hrefs := h.sound.refs.balanced hbal
  refine ⟨h.space.munmap hok hm, hp.1 ▸ h.sz_le,
    ⟨h.sound.frames.munmap h.space.layout.bounded hm, ?_, ?_, hrefs,
      h.sound.pipes.filesKept hbal.kept⟩, ?_⟩
  · rw [hp.2.2]
    exact h.sound.tables
  · rw [hp.2.1]
    exact h.sound.trapframe
  · intro i hi hshared hread hwrite
    have hpos : 0 < (s'.file (s'.p.vma i).f).ref := by
      have hcount : 0 < mapCount s'.p.vma (s'.p.vma i).f :=
        tally_pos (i := i) (by simp [hi])
      have := hrefs.files (s'.p.vma i).f
      omega
    obtain ⟨hold, hf, hprot, hflags⟩ := hm.vma hi
    rw [VMA.shared, hflags] at hshared
    rw [VMA.allows, hprot] at hread hwrite
    rw [(hbal.kept.opened _ hpos).2, hf]
    exact h.backed i hold hshared hread hwrite

variable {va : ℕ}

theorem fault {r : ℕ} {read : Bool} (h : LiveInv s)
    (hf : Faulted s va read s' r) : LiveInv s' :=
  h.of_same (h.space.fault hf) (h.sound.frames.fault hf)
    (hf.tables h.sound.frames.free h.sound.tables) hf.sameProc

theorem setkilled (h : LiveInv s) : LiveInv (setkilled s) :=
  h.of_same h.space.setkilled
    ⟨h.sound.frames.free, h.sound.frames.user, h.sound.frames.pipe⟩
    h.sound.tables ⟨rfl, rfl, rfl, rfl, rfl, rfl, rfl, rfl, rfl⟩

/-- A trap after which the process still runs. -/
theorem trap {read : Bool} (h : LiveInv s)
    (ht : (usertrapFault s va read >>= usertrapret) = .ok s')
    (hrun : s'.p.state = .running) : LiveInv s' := by
  obtain ⟨s₁, s₂, r, hf, hkill, hend⟩ := usertrap_spec ht
  rcases hend with rfl | hexit
  · rcases hkill with rfl | rfl
    · exact h.fault hf
    · exact (h.fault hf).setkilled
  · rw [kexit_zombie hexit] at hrun
    cases hrun

theorem store {l : Leaf} {b : UInt8} (h : LiveInv s)
    (ht : translateStore s.p.pagetable va = some l) :
    LiveInv (storeThrough s va l b) := by
  refine h.of_same (h.space.store ht) (h.sound.frames.store ht) ?_
    ⟨rfl, rfl, rfl, rfl, rfl, rfl, rfl, rfl, rfl⟩
  rw [show (storeThrough s va l b).p.pagetable.frames = s.p.pagetable.frames
    from PageTable.frames_setPte ..]
  exact h.sound.tables

theorem step {op : Op} (h : s.p.state = .running → LiveInv s)
    (hok : LiveGuarded s op) (hstep : Vm.step s op = .ok s')
    (hrun : s'.p.state = .running) : LiveInv s' := by
  cases op with
  | mmap addr len prot flags fd offset =>
    have h := h hok.1
    obtain ⟨⟨s₁, r⟩, hm, rfl⟩ := map_ok_iff.mp hstep
    rcases sysMmap_spec hm with rfl | ⟨i, k, -, hdone⟩
    · exact h
    · exact h.mmap hok.2 hdone
  | munmap addr len =>
    have h := h hok.1
    obtain ⟨⟨s₁, r⟩, hm, rfl⟩ := map_ok_iff.mp hstep
    exact h.munmap hok.2 (sysMunmap_spec h.space.layout.bounded hm)
      (sysMunmap_balanced h.space.layout.bounded hm)
  | vmfault va read =>
    obtain ⟨⟨s₁, r⟩, hm, rfl⟩ := map_ok_iff.mp hstep
    exact (h hok).fault (vmfault_spec hm)
  | load va =>
    simp only [Vm.step, userLoad] at hstep
    split at hstep
    · cases hstep
      exact h hok
    · exact (h hok).trap hstep hrun
  | store va b =>
    simp only [Vm.step, userStore] at hstep
    split at hstep
    · rename_i l hl
      cases hstep
      exact (h hok).store hl
    · exact (h hok).trap hstep hrun
  | others freelist inode =>
    obtain ⟨hstate, hfree, hopen⟩ := hok
    have h := h hstate
    cases hstep
    exact ⟨h.space, h.sz_le,
      ⟨⟨hfree, h.sound.frames.user, h.sound.frames.pipe⟩, h.sound.tables,
        h.sound.trapframe,
        ⟨h.sound.refs.files, hopen, h.sound.refs.typed, h.sound.refs.ip⟩,
        h.sound.pipes⟩, h.backed⟩
  | sbrk => cases hok
  | growproc => cases hok
  | exit => cases hok

end LiveInv

/-! ## Teardown -/

/-- Nothing of the process is left: no mapping and no page of one, the
references are dropped, and what the parent does with the entry goes
through. -/
structure TornDown (s s' : State) : Prop where
  slots : ∀ i, (s'.p.vma i).valid = false
  refs : ∀ k, (s'.file k).ref +
    (fdCount s.p.ofile k + mapCount s.p.vma k) = (s.file k).ref
  leaf : ∀ va < TRAPFRAME, pgroundup s'.p.sz ≤ va →
    s'.p.pagetable.leaf va = none
  freed : ∀ km, ∃ km' slot, freeproc km s'.p = .ok (km', slot)
  next : ∀ km km' slot, freeproc km s'.p = .ok (km', slot) →
    ∀ km₁ km₂ np, allocproc km₁ slot = .ok (km₂, some np) →
      ∀ i, (np.vma i).valid = false

/-- Without mappings the rest follows. -/
theorem tornDown_of_slots (h : ExitInv s') (hs : ExitStep s s')
    (hsz : s.p.sz ≤ TRAPFRAME) (htables : ∀ f ∈ s.p.pagetable.frames, f.Usable)
    (htf : s.p.trapframe.Usable) (hfds : ∀ fd, s'.p.ofile fd = none)
    (hslots : ∀ i, (s'.p.vma i).valid = false) : TornDown s s' := by
  have hleaf : ∀ va < TRAPFRAME, pgroundup s'.p.sz ≤ va →
      s'.p.pagetable.leaf va = none := by
    intro va hva hge
    by_contra hsome
    rcases h.covered va hva hsome with hheap | ⟨i, hi⟩
    · have htrap : TRAPFRAME < 2 ^ 63 := by decide
      rw [← lt_pgroundup_iff (by rw [hs.sz]; omega)] at hheap
      omega
    · rw [VMA.Mem, hslots i] at hi
      cases hi.1
  refine ⟨hslots, ?_, hleaf, ?_, ?_⟩
  · intro k
    have := hs.refs.files k
    rw [fdCount_of_closed hfds, mapCount_of_invalid hslots] at this
    exact this
  · intro km
    obtain ⟨km₁, hfree, -⟩ := kfree_of_usable km (hs.trapframe ▸ htf)
    obtain ⟨km₂, hproc, -⟩ := procFreepagetable_ok km₁
      (by rw [hs.sz]; exact hsz) (by rw [hs.tables]; exact htables)
      h.frames.user hleaf
    exact ⟨km₂, _, bind_ok_iff.mpr ⟨km₁, hfree,
      bind_ok_iff.mpr ⟨km₂, hproc, rfl⟩⟩⟩
  · intro km km' slot hfree km₁ km₂ np halloc i
    obtain ⟨_, -, hfree⟩ := bind_ok_iff.mp hfree
    obtain ⟨_, -, hfree⟩ := bind_ok_iff.mp hfree
    cases hfree
    rw [(allocproc_spec halloc).2]
    exact hslots i

/-- **Teardown completes just when every mapping has a range that runs
forwards and none is stuck**, in every state that runs reach which do not
raise `mmap_base` over a mapping. -/
theorem teardown_iff {s s' : State} {ops : List Op} (hs : Fresh s.p)
    (hsound : Sound s) (run : Run step LiveGuarded s ops s')
    (hrun : s'.p.state = .running) :
    (∃ t, exitLoops s' = .ok t ∧ TornDown s' t) ↔
      ∀ i, (s'.p.vma i).valid = true → Removable s' (s'.p.vma i) := by
  have hlive : LiveInv s' := by
    refine run.invariant (I := fun t => t.p.state = .running → LiveInv t)
      (fun t op t' h hok hstep => LiveInv.step h hok hstep) ?_ hrun
    intro _
    refine ⟨.of_fresh hs, Nat.le_trans hs.sz_le hs.base_le, hsound, ?_⟩
    intro i hi
    rw [hs.none_valid i] at hi
    cases hi
  obtain ⟨t, hexit, ht, hstep, hfds, hslots⟩ := hlive.exitInv.exitLoops
  constructor
  · rintro ⟨t', hexit', hdown⟩ i hi
    cases hexit.symm.trans hexit'
    exact (hslots i hi).mp (hdown.slots i)
  · intro hall
    refine ⟨t, hexit, tornDown_of_slots ht hstep hlive.sz_le
      hlive.sound.tables hlive.sound.trapframe hfds ?_⟩
    intro i
    cases hi : (s'.p.vma i).valid with
    | true => exact (hslots i hi).mpr (hall i hi)
    | false =>
      rcases hstep.vma i with heq | hinv
      · rw [heq]
        exact hi
      · exact hinv

/-! ### A process with two mappings -/

theorem bootState_sound {freelist : List Frame}
    (hfree : ∀ f ∈ freelist, f.Usable) :
    Sound (bootState freelist rwFile pageInode) where
  frames := by
    refine ⟨hfree, ?_, ?_⟩
    · intro va hva l hl
      have hl' : bootTable.leaf va = some l := hl
      rw [bootTable_leaf hva] at hl'
      cases hl'
    · intro k hk
      by_cases h0 : k = 0
      · subst h0
        cases hk
      · simp [bootState, h0] at hk
  tables := bootTable_frames_usable
  trapframe := show Frame.Usable 103 by decide
  refs := by
    refine ⟨?_, ?_, ?_, ?_⟩
    · show ∀ k, fdCount (bootState [] rwFile pageInode).p.ofile k +
        mapCount (bootState [] rwFile pageInode).p.vma k ≤
          ((bootState [] rwFile pageInode).file k).ref
      decide +kernel
    · show ∀ j, openCount (bootState [] rwFile pageInode).file j ≤
        ((bootState [] rwFile pageInode).inode j).ref
      decide +kernel
    · intro k hk
      by_cases h0 : k = 0
      · subst h0
        exact FileType.noConfusion
      · simp [bootState, h0] at hk
    · intro k hk
      by_cases h0 : k = 0
      · subst h0
        exact fun _ => Option.some_ne_none 0
      · simp [bootState, h0] at hk
  pipes := by
    intro k hk
    by_cases h0 : k = 0
    · subst h0
      cases hk
    · simp [bootState, h0] at hk

/-- A shared mapping and a private one of two pages, both stored to. -/
def storedOps : List Op :=
  [.mmap 0 4096 3 1 0 0, .mmap 0 8192 3 2 0 0, .store 0x3fffffd000 7,
    .store 0x3fffffd000 7, .vmfault 0x3fffffb000 false, .store 0x3fffffb000 8]

theorem teardown_mapped : ∃ s',
    Run step LiveGuarded (bootState spareFrames rwFile pageInode) storedOps s' ∧
    (s'.p.vma 0).valid = true ∧ (s'.p.vma 1).valid = true ∧
    ∃ t, exitLoops s' = .ok t ∧ TornDown s' t := by
  obtain ⟨s', hs', hp⟩ := exists_some_of_any
    (show (Run.checked step LiveGuarded (bootState spareFrames rwFile pageInode)
      storedOps).any (fun s => decide (s.p.state = .running ∧
        (s.p.vma 0).valid = true ∧ (s.p.vma 1).valid = true ∧
        ∀ i, (s.p.vma i).valid = true → (s.p.vma i).start < (s.p.vma i).end_ ∧
          0 ≤ (s.p.vma i).offset.toInt)) = true by decide +kernel)
  have run := Run.of_checked hs'
  obtain ⟨hrun, h₀, h₁, hforward⟩ := of_decide_eq_true hp
  have hsound := bootState_sound (spareFrames_all (P := Frame.Usable) (by decide))
  refine ⟨s', run, h₀, h₁,
    (teardown_iff (bootState_fresh ..) hsound run hrun).mpr ?_⟩
  intro i hi
  obtain ⟨hlt, hnonneg⟩ := hforward i hi
  refine ⟨hlt, ?_⟩
  rintro ⟨-, hneg, -⟩
  omega

/-- A shared mapping at file offset -4096, stored to. -/
def negativeOffsetOps : List Op :=
  [.mmap 0 4096 3 1 0 (-4096), .store 0x3fffffd000 7, .store 0x3fffffd000 7]

theorem teardown_stuck : ∃ s' t,
    Run step LiveOps (bootState [200] rwFile pageInode) negativeOffsetOps s' ∧
    s'.p.state = .running ∧ exitLoops s' = .ok t ∧ ¬ TornDown s' t ∧
    (t.p.vma 0).valid = true ∧
    freeproc t.kmem t.p = .error .freewalkLeaf := by
  obtain ⟨s', hrun, hp⟩ := exists_ok_of_any
    (show ((negativeOffsetOps.foldlM step
      (bootState [200] rwFile pageInode)).toOption.any fun s =>
        decide (s.p.state = .running) && (exitLoops s).toOption.any fun t =>
          (t.p.vma 0).valid &&
            endsIn (freeproc t.kmem t.p) .freewalkLeaf) = true
      by decide +kernel)
  rw [Bool.and_eq_true, decide_eq_true_eq] at hp
  obtain ⟨t, hexit, ht⟩ := exists_ok_of_any hp.2
  rw [Bool.and_eq_true] at ht
  refine ⟨s', t, Run.of_foldlM ?_ hrun, hp.1, hexit, ?_, ht.1,
    eq_error_of_endsIn ht.2⟩
  · intro s op hop
    simp only [negativeOffsetOps, List.mem_cons, List.not_mem_nil,
      or_false] at hop
    rcases hop with rfl | rfl | rfl <;> trivial
  · intro hdown
    rw [hdown.slots 0] at ht
    cases ht.1

end Xv6.Vm
