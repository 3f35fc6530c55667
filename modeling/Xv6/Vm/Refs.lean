import Xv6.Framework.Tally
import Xv6.Vm.Process

/-!
# Reference counts

An open file is referred to by descriptors and by mappings, an inode by open
files. Each count is at least the number of references that this process
holds, the difference being those of the others, and no step of the process
changes the difference.
-/

namespace Xv6.Vm

open Framework

/-! ## Counting -/

/-- The descriptors on an open file. -/
def fdCount (ofile : Fin NOFILE → Option FileId) (k : FileId) : ℕ :=
  tally ofile fun o => decide (o = some k)

/-- The mappings of an open file. -/
def mapCount (vma : VMAs) (k : FileId) : ℕ :=
  tally vma fun v => v.valid && decide (v.f = k)

/-- An entry of the file table that holds a reference to the inode. -/
def File.RefersTo (f : File) (j : InodeId) : Bool :=
  decide (0 < f.ref) && f.Backs j

/-- The open files on an inode. -/
def openCount (file : FileId → File) (j : InodeId) : ℕ :=
  tally file fun f => f.RefersTo j

theorem mapCount_of_invalid {vma : VMAs}
    (h : ∀ i, (vma i).valid = false) (k : FileId) : mapCount vma k = 0 := by
  apply tally_eq_zero
  intro i
  simp [h i]

theorem fdCount_of_closed {ofile : Fin NOFILE → Option FileId}
    (h : ∀ fd, ofile fd = none) (k : FileId) : fdCount ofile k = 0 := by
  apply tally_eq_zero
  intro fd
  simp [h fd]

theorem mapCount_update (vma : VMAs) (i : Fin NVMA) (v : VMA) (k : FileId) :
    mapCount (Function.update vma i v) k +
        ((vma i).valid && decide ((vma i).f = k)).toNat =
      mapCount vma k + (v.valid && decide (v.f = k)).toNat :=
  tally_update ..

variable {s s' : State} {k : FileId}

/-- Open files stay what they are, so an inode is not opened again. -/
theorem FilesKept.refersTo (h : FilesKept s s') {j : InodeId}
    (hr : (s'.file k).RefersTo j = true) : (s.file k).RefersTo j = true := by
  unfold File.RefersTo File.Backs at *
  rw [Bool.and_eq_true, decide_eq_true_eq] at hr
  obtain ⟨hpos, htype⟩ := h.opened k hr.1
  rw [htype, h.ip] at hr
  rw [Bool.and_eq_true, decide_eq_true_eq]
  exact ⟨hpos, hr.2⟩

theorem FilesKept.openCount_le (h : FilesKept s s') (j : InodeId) :
    openCount s'.file j ≤ openCount s.file j :=
  tally_le fun _ hr => h.refersTo hr

/-! ## What holds of the counts -/

/-- The counts cover the references that are held, and an open file has
something behind it. -/
structure RefsOk (s : State) : Prop where
  files : ∀ k, fdCount s.p.ofile k + mapCount s.p.vma k ≤ (s.file k).ref
  inodes : ∀ j, openCount s.file j ≤ (s.inode j).ref
  typed : ∀ k, 0 < (s.file k).ref → (s.file k).type ≠ .none
  ip : ∀ k, 0 < (s.file k).ref →
    (s.file k).type = .inode ∨ (s.file k).type = .device →
      (s.file k).ip ≠ none

/-- References come and go together with what holds them. -/
structure Balanced (s s' : State) : Prop where
  kept : FilesKept s s'
  files : ∀ k, (s'.file k).ref + (fdCount s.p.ofile k + mapCount s.p.vma k) =
    (s.file k).ref + (fdCount s'.p.ofile k + mapCount s'.p.vma k)
  inodes : ∀ j, openCount s'.file j + (s.inode j).ref ≤
    (s'.inode j).ref + openCount s.file j

namespace Balanced

variable {s s₁ s' : State}

theorem of_same (hfile : s'.file = s.file) (hofile : s'.p.ofile = s.p.ofile)
    (hvma : s'.p.vma = s.p.vma)
    (href : ∀ j, (s'.inode j).ref = (s.inode j).ref) : Balanced s s' where
  kept := .of_file_eq hfile
  files := by
    intro k
    rw [hfile, hofile, hvma]
  inodes := by
    intro j
    rw [hfile, href, Nat.add_comm]

theorem trans (h : Balanced s s₁) (h' : Balanced s₁ s') : Balanced s s' where
  kept := h.kept.trans h'.kept
  files := by
    intro k
    have h₁ := h.files k
    have h₂ := h'.files k
    omega
  inodes := by
    intro j
    have h₁ := h.inodes j
    have h₂ := h'.inodes j
    omega

end Balanced

theorem RefsOk.balanced (h : RefsOk s) (hd : Balanced s s') :
    RefsOk s' where
  files := by
    intro k
    have h₁ := h.files k
    have h₂ := hd.files k
    omega
  inodes := by
    intro j
    have h₁ := h.inodes j
    have h₂ := hd.inodes j
    omega
  typed := by
    intro k hk
    obtain ⟨hpos, htype⟩ := hd.kept.opened k hk
    rw [htype]
    exact h.typed k hpos
  ip := by
    intro k hk
    obtain ⟨hpos, htype⟩ := hd.kept.opened k hk
    rw [htype, hd.kept.ip]
    exact h.ip k hpos

/-! ## Closing a file -/

theorem Inode.Dropped.ref_le {ip ip' : Inode} (h : ip.Dropped ip') :
    ip.ref ≤ ip'.ref + 1 := by
  cases h with
  | kept => exact Nat.le_succ _
  | put =>
    show ip.ref ≤ ip.ref - 1 + 1
    omega
  | freed hlast =>
    show ip.ref ≤ 0 + 1
    omega

theorem Inode.Dropped.size {ip ip' : Inode} (h : ip.Dropped ip')
    (href : 0 < ip'.ref) : ip'.size = ip.size := by
  cases h with
  | kept => rfl
  | put => rfl
  | freed => exact absurd href (Nat.lt_irrefl 0)

/-- What a closed entry still refers to. -/
theorem Closed.refersTo (h : Closed s k s') (j : InodeId) :
    (s'.file k).RefersTo j =
      (decide (1 < (s.file k).ref) && (s.file k).Backs j) := by
  rw [h.file, Function.update_self]
  by_cases hmore : 1 < (s.file k).ref
  · have hpos : 0 < (s.file k).ref - 1 := by omega
    simp [File.RefersTo, File.Backs, hmore, hpos]
  · have hzero : ¬ 0 < (s.file k).ref - 1 := by omega
    simp [File.RefersTo, hmore, hzero]

theorem Closed.inodes (h : Closed s k s') (j : InodeId) :
    openCount s'.file j + (s.inode j).ref ≤
      (s'.inode j).ref + openCount s.file j := by
  have hcount : openCount s'.file j + ((s.file k).RefersTo j).toNat =
      openCount s.file j + ((s'.file k).RefersTo j).toNat := by
    have := tally_update s.file (fun f => f.RefersTo j) k (s'.file k)
    rwa [show Function.update s.file k (s'.file k) = s'.file by
      rw [h.file]; simp] at this
  have hpos := h.held
  rw [h.refersTo, File.RefersTo, decide_eq_true hpos, Bool.true_and] at hcount
  cases hback : (s.file k).Backs j with
  | false =>
    rw [hback, Bool.and_false] at hcount
    rw [h.other j hback]
    omega
  | true =>
    rw [hback, Bool.and_true] at hcount
    by_cases hmore : 1 < (s.file k).ref
    · rw [decide_eq_true hmore] at hcount
      rw [h.shared hmore]
      omega
    · rw [decide_eq_false hmore] at hcount
      have := (h.inode j).ref_le
      simp only [Bool.toNat_true, Bool.toNat_false] at hcount
      omega

theorem Closed.ref (h : Closed s k s') (n : FileId) :
    (s'.file n).ref + (decide (k = n)).toNat =
      (s.file n).ref := by
  have hpos := h.held
  rw [h.file, Function.update_apply]
  by_cases hn : n = k
  · subst hn
    simp only [if_true, decide_true, Bool.toNat_true]
    omega
  · rw [if_neg hn, decide_eq_false (Ne.symm hn)]
    rfl

/-- A descriptor is closed. -/
theorem Closed.balanced_fd {s₁ : State} {fd : Fin NOFILE} (h : Closed s k s₁)
    (hfd : s.p.ofile fd = some k) :
    Balanced s { s₁ with
      p := { s₁.p with ofile := Function.update s₁.p.ofile fd none } } where
  kept := h.filesKept.trans (.of_file_eq rfl)
  files := by
    intro n
    have href := h.ref n
    have hcount := tally_update s.p.ofile (fun o => decide (o = some n)) fd none
    rw [hfd] at hcount
    show (s₁.file n).ref + (_ + _) = _ + (fdCount (Function.update s₁.p.ofile
      fd none) n + mapCount s₁.p.vma n)
    rw [h.p]
    simp only [Option.some.injEq, reduceCtorEq, decide_false,
      Bool.toNat_false] at hcount
    unfold fdCount
    omega
  inodes := h.inodes

variable {i : Fin NVMA}

/-- A mapping is given up with its reference. -/
theorem Closed.balanced_vma {s₁ : State} (h : Closed s (s.p.vma i).f s₁)
    (hvalid : (s.p.vma i).valid = true) {v : VMA} (hv : v.valid = false) :
    Balanced s (s₁.setVma i v) where
  kept := h.filesKept.trans (.of_file_eq rfl)
  files := by
    intro n
    have href := h.ref n
    have hcount := mapCount_update s.p.vma i v n
    show (s₁.file n).ref + (_ + _) = _ + (fdCount s₁.p.ofile n +
      mapCount (Function.update s₁.p.vma i v) n)
    rw [h.p]
    rw [hvalid, hv] at hcount
    simp only [Bool.true_and, Bool.false_and, Bool.toNat_false] at hcount
    omega
  inodes := h.inodes

/-! ## Unmapping -/

theorem shrinkVma_balanced {us ue : ℕ} (hvalid : (s.p.vma i).valid = true)
    (h : shrinkVma s i us ue = .ok s') : Balanced s s' := by
  have hpart : ∀ v : VMA, v.valid = true → v.f = (s.p.vma i).f →
      Balanced s (s.setVma i v) := by
    intro v hv hf
    refine ⟨.of_file_eq rfl, ?_, ?_⟩
    · intro k
      have hcount := mapCount_update s.p.vma i v k
      rw [hvalid, hv, hf] at hcount
      show _ = _ + (_ + mapCount (Function.update s.p.vma i v) k)
      show (s.file k).ref + (_ + _) = (s.file k).ref + (fdCount s.p.ofile k + _)
      omega
    · intro j
      exact Nat.le_of_eq (Nat.add_comm _ _)
  dsimp only [shrinkVma] at h
  split at h
  · obtain ⟨s₁, hclose, h⟩ := bind_ok_iff.mp h
    cases h
    exact (fileclose_spec hclose).balanced_vma hvalid rfl
  · split at h
    · cases h
      exact hpart _ hvalid rfl
    · cases h
      exact hpart _ hvalid rfl

theorem uvmunmapVma_balanced {addr stop : ℕ} {done : Bool}
    (hus : unmapStart (s.p.vma i) addr % PGSIZE = 0)
    (h : uvmunmapVma s i addr stop = .ok (s', done)) : Balanced s s' := by
  dsimp only [uvmunmapVma] at h
  split at h
  · cases h
    exact .of_same rfl rfl rfl fun _ => rfl
  · rename_i hhit
    simp only [not_or, Bool.not_eq_false] at hhit
    split at h
    · cases h
      exact .of_same rfl rfl rfl fun _ => rfl
    · obtain ⟨⟨s₁, done₁⟩, hwb, h⟩ := bind_ok_iff.mp h
      have honly := writeBack_only hus hwb
      have h₁ : Balanced s s₁ := .of_same honly.file (by rw [honly.p])
        (by rw [honly.p]) honly.ref
      cases done₁ with
      | false =>
        cases h
        exact h₁
      | true =>
        simp only [if_true] at h
        obtain ⟨⟨km, pt⟩, -, h⟩ := bind_ok_iff.mp h
        obtain ⟨s₂, hshrink, h⟩ := bind_ok_iff.mp h
        cases h
        have h₂ : Balanced s₁ (s₁.setMemory km pt) :=
          .of_same rfl rfl rfl fun _ => rfl
        refine h₁.trans (h₂.trans (shrinkVma_balanced ?_ hshrink))
        show (s₁.p.vma i).valid = true
        rw [honly.p]
        exact hhit.1

variable {len : Int32}

theorem sysMunmap_balanced {addr : UInt64} {done : Bool}
    (hv : ∀ i, (s.p.vma i).valid = true → (s.p.vma i).Bounded)
    (h : sysMunmap s addr len = .ok (s', done)) : Balanced s s' := by
  unfold sysMunmap at h
  split at h
  · cases h
    exact .of_same rfl rfl rfl fun _ => rfl
  · rename_i hargs
    simp only [not_or, not_not] at hargs
    obtain ⟨⟨s₁, goOn⟩, hhit, h⟩ := bind_ok_iff.mp h
    have h₁ : Balanced s s₁ := by
      unfold munmapHit at hhit
      split at hhit
      · cases hhit
        exact .of_same rfl rfl rfl fun _ => rfl
      · rename_i i hfind
        have hi := of_decide_eq_true (findVma_some hfind)
        exact uvmunmapVma_balanced (unmapStart_mod (hv i hi.1) hargs.2.2) hhit
    cases goOn with
    | true =>
      cases h
      refine h₁.trans ?_
      unfold rebase
      split <;> exact .of_same rfl rfl rfl fun _ => rfl
    | false =>
      cases h
      exact h₁

/-! ## Mapping -/

variable {prot flags offset : Int32}

theorem MmapDone.file_eq (h : MmapDone s len prot flags offset i k s')
    (n : FileId) : s'.file n =
      { s.file n with ref := (s.file n).ref + (decide (k = n)).toNat } := by
  rw [h.file, Function.update_apply]
  split
  · rename_i hn
    simp [hn]
  · rename_i hn
    simp [Ne.symm hn]

theorem MmapDone.ref_pos_iff (h : MmapDone s len prot flags offset i k s')
    (n : FileId) : 0 < (s'.file n).ref ↔ 0 < (s.file n).ref := by
  have hpos := h.ref_pos
  rw [h.file_eq]
  by_cases hn : k = n
  · subst hn
    simp [hpos]
  · simp [hn]

theorem MmapDone.filesKept (h : MmapDone s len prot flags offset i k s') :
    FilesKept s s' where
  readable := fun n => by rw [h.file_eq]
  writable := fun n => by rw [h.file_eq]
  ip := fun n => by rw [h.file_eq]
  pipe := fun n => by rw [h.file_eq]
  type := fun n => Or.inl (by rw [h.file_eq])
  opened := fun n hn => ⟨(h.ref_pos_iff n).mp hn, by rw [h.file_eq]⟩

/-- A new mapping comes with its reference. -/
theorem MmapDone.balanced (h : MmapDone s len prot flags offset i k s') :
    Balanced s s' := by
  refine ⟨h.filesKept, ?_, ?_⟩
  · intro n
    have hcount := mapCount_update s.p.vma i (s'.p.vma i) n
    rw [show Function.update s.p.vma i (s'.p.vma i) = s'.p.vma by
      rw [h.p]; simp, h.free] at hcount
    have hnew : (s'.p.vma i).valid = true ∧ (s'.p.vma i).f = k := by
      rw [h.p]
      simp
    rw [hnew.1, hnew.2] at hcount
    rw [h.file_eq, show s'.p.ofile = s.p.ofile by rw [h.p]]
    simp only [Bool.false_and, Bool.toNat_false, Bool.true_and] at hcount
    show (s.file n).ref + _ + (_ + _) = _
    omega
  · intro j
    have hsame : openCount s'.file j = openCount s.file j := by
      unfold openCount tally
      refine Finset.sum_congr rfl fun n _ => ?_
      have hpos := h.ref_pos_iff n
      have heq := h.file_eq n
      simp only [File.RefersTo, hpos]
      rw [heq]
      rfl
    rw [hsame, h.inode, Nat.add_comm]

end Xv6.Vm
