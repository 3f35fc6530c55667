import Xv6.Vm.Pages
import Xv6.Vm.Refs

/-!
# Files without write permission

Write-back is the only way a mapping changes its file, and it takes a shared
mapping with a dirty page. `sys_mmap` refuses a shared writable mapping of a
file that is not open for writing, `vmfault` gives a page the permissions of
its mapping, and the MMU sets `PTE_D` only on a writable page. So the file
stays as it is, as long as no heap page comes to lie inside the mapping.
-/

namespace Xv6.Vm

open Framework

/-! ## What may happen to the file -/

/-- The contents are the same, or the file had no link left and went with its
last reference. -/
def Inode.Unmodified (ip ip' : Inode) : Prop :=
  (ip'.size = ip.size ∧ ip'.byte = ip.byte ∧ ip'.type = ip.type ∧
    ip'.nlink = ip.nlink) ∨ (ip.nlink = 0 ∧ ip'.type = 0)

theorem Inode.Dropped.unmodified {ip ip' : Inode} (h : ip.Dropped ip') :
    ip.Unmodified ip' := by
  cases h with
  | kept => exact Or.inl ⟨rfl, rfl, rfl, rfl⟩
  | put => exact Or.inl ⟨rfl, rfl, rfl, rfl⟩
  | freed _ hlink => exact Or.inr ⟨hlink, rfl⟩

theorem Inode.Unmodified.trans {a b c : Inode} (h : a.Unmodified b)
    (h' : b.Unmodified c) : a.Unmodified c := by
  rcases h with ⟨hsize, hbyte, htype, hlink⟩ | ⟨hlink, htype⟩
  · rcases h' with ⟨hsize', hbyte', htype', hlink'⟩ | ⟨hlink', htype'⟩
    · exact Or.inl ⟨hsize'.trans hsize, hbyte'.trans hbyte,
        htype'.trans htype, hlink'.trans hlink⟩
    · exact Or.inr ⟨hlink ▸ hlink', htype'⟩
  · rcases h' with ⟨-, -, htype', -⟩ | ⟨-, htype'⟩
    · exact Or.inr ⟨hlink, htype'.trans htype⟩
    · exact Or.inr ⟨hlink, htype'⟩

/-- Between the two states the open files are the same and file `j` was not
written to. -/
structure Untouched (j : InodeId) (s s' : State) : Prop where
  files : FilesKept s s'
  same : (s.inode j).Unmodified (s'.inode j)

namespace Untouched

variable {j : InodeId} {s s₁ s' : State}

theorem of_dropped (hfiles : FilesKept s s')
    (hdrop : (s.inode j).Dropped (s'.inode j)) : Untouched j s s' :=
  ⟨hfiles, hdrop.unmodified⟩

theorem of_eq (hfile : s'.file = s.file) (hinode : s'.inode j = s.inode j) :
    Untouched j s s' :=
  .of_dropped (.of_file_eq hfile) (hinode ▸ .kept)

theorem trans (h : Untouched j s s₁) (h' : Untouched j s₁ s') :
    Untouched j s s' :=
  ⟨h.files.trans h'.files, h.same.trans h'.same⟩

end Untouched

/-! ## Mappings that do not write to the file -/

/-- No shared mapping of file `j` can be both read and written. -/
structure Quiet (j : InodeId) (s : State) : Prop where
  bounded : ∀ i, (s.p.vma i).valid = true → (s.p.vma i).Bounded
  pages : PagesOk s.p
  source : ∀ i, (s.p.vma i).valid = true → (s.p.vma i).shared = true →
    (s.file (s.p.vma i).f).ip = some j →
    ¬ ((s.p.vma i).allows PROT_READ = true ∧
      (s.p.vma i).allows PROT_WRITE = true)

variable {i : Fin NVMA}

namespace Quiet

variable {j : InodeId} {s s' : State}

theorem mem_lt (h : Quiet j s) (i : Fin NVMA) (va : ℕ)
    (hi : (s.p.vma i).Mem va) : va < MAXVA :=
  lt_MAXVA_of_lt_TRAPFRAME
    (Nat.lt_of_lt_of_le hi.2.2 (h.bounded i hi.1).end_le)

variable {addr stop : ℕ}

/-- The mappings of the file have nothing to write back. -/
theorem idle (h : Quiet j s) (hvalid : (s.p.vma i).valid = true)
    (hip : (s.file (s.p.vma i).f).ip = some j) :
    ¬ WritesBack s (s.p.vma i) (unmapStart (s.p.vma i) addr)
      (unmapEnd (s.p.vma i) stop) := by
  rintro ⟨hshared, va, hlo, hhi, l, hl, hd⟩
  have hmem : (s.p.vma i).Mem va := by
    refine ⟨hvalid, ?_, ?_⟩
    · unfold unmapStart at hlo
      split at hlo <;> omega
    · unfold unmapEnd at hhi
      split at hhi <;> omega
  exact h.source i hvalid hshared hip ((h.pages i va l hmem hl).dirty hd)

/-- The same mappings, and the same files behind them. -/
theorem of_same (h : Quiet j s) (hvma : s'.p.vma = s.p.vma)
    (hip : ∀ k, (s'.file k).ip = (s.file k).ip) (hpages : PagesOk s'.p) :
    Quiet j s' := by
  refine ⟨?_, hpages, ?_⟩
  · rw [hvma]
    exact h.bounded
  · intro i
    rw [hvma, hip]
    exact h.source i

theorem released (h : Quiet j s) {i : Fin NVMA} {addr stop : ℕ}
    (haddr : addr % PGSIZE = 0) (hstop : stop % PGSIZE = 0)
    (hr : Released s i addr stop s') : Quiet j s' ∧ Untouched j s s' := by
  refine ⟨⟨?_, h.pages.released h.mem_lt hr, ?_⟩, .of_dropped hr.files ?_⟩
  · intro k hk
    by_cases hki : k = i
    · subst hki
      rw [hr.vma_self]
      exact (h.bounded k hr.hit.1).shrunk hr.hit haddr hstop
    · rw [hr.vma_other hki] at hk ⊢
      exact h.bounded k hk
  · intro k hk
    rw [hr.files.ip]
    by_cases hki : k = i
    · subst hki
      rw [hr.vma_self, VMA.shared, VMA.allows, VMA.allows, VMA.shrunk_prot,
        VMA.shrunk_flags, VMA.shrunk_f]
      exact h.source k hr.hit.1
    · rw [hr.vma_other hki] at hk ⊢
      exact h.source k hk
  · refine hr.inode j ?_
    by_cases hip : (s.file (s.p.vma i).f).ip = some j
    · exact Or.inr (h.idle hr.hit.1 hip)
    · exact Or.inl hip

/-- Write-back that was given up did not reach the file. -/
theorem failed (h : Quiet j s) (hvalid : (s.p.vma i).valid = true)
    (honly : OnlyFile s (s.file (s.p.vma i).f).ip s')
    (hidle : ¬ WritesBack s (s.p.vma i) (unmapStart (s.p.vma i) addr)
      (unmapEnd (s.p.vma i) stop) → s' = s) :
    Quiet j s' ∧ Untouched j s s' := by
  refine ⟨h.of_same (by rw [honly.p]) (fun k => by rw [honly.file])
    (by rw [honly.p]; exact h.pages), ?_⟩
  by_cases hip : (s.file (s.p.vma i).f).ip = some j
  · rw [hidle (h.idle hvalid hip)]
    exact .of_eq rfl rfl
  · exact .of_eq honly.file (honly.other j hip)

theorem munmap (h : Quiet j s) (hstop : stop % PGSIZE = 0)
    (hm : MunmapDone s addr stop s') : Quiet j s' ∧ Untouched j s s' := by
  have hbase : ∀ t : State, Quiet j t →
      Quiet j (rebase t addr stop) ∧ Untouched j t (rebase t addr stop) := by
    intro t ht
    have hsame : (rebase t addr stop).file = t.file ∧
        (rebase t addr stop).inode = t.inode := by
      unfold rebase
      split <;> exact ⟨rfl, rfl⟩
    exact ⟨ht.of_same (rebase_vma ..) (fun k => by rw [hsame.1])
      (ht.pages.rebase _ _), .of_eq hsame.1 (by rw [hsame.2])⟩
  cases hm with
  | refused => exact ⟨h, .of_eq rfl rfl⟩
  | failed hhit hwrites honly =>
    exact h.failed hhit.1 honly fun hidle => absurd hwrites hidle
  | missed => exact hbase s h
  | released haddr hrel =>
    obtain ⟨h₁, hu₁⟩ := h.released haddr hstop hrel
    obtain ⟨h₂, hu₂⟩ := hbase _ h₁
    exact ⟨h₂, hu₁.trans hu₂⟩

/-! ### `kexit` -/

theorem exitVma (h : Quiet j s) (he : exitVma s i = .ok s') :
    Quiet j s' ∧ Untouched j s s' := by
  have hbase : ∀ t : State, Quiet j t → ∀ t',
      (if (t.p.vma i).start = t.p.mmapBase then
        Except.ok { t with p := { t.p with mmapBase := (t.p.vma i).end_ } }
      else Except.ok (ε := Panic) t) = .ok t' →
      Quiet j t' ∧ Untouched j t t' := by
    intro t ht t' h'
    split at h'
    · cases h'
      exact ⟨ht.of_same rfl (fun _ => rfl) ht.pages, .of_eq rfl rfl⟩
    · cases h'
      exact ⟨ht, .of_eq rfl rfl⟩
  unfold Vm.exitVma at he
  split at he
  · rename_i hvalid
    obtain ⟨⟨s₁, done⟩, hun, he⟩ := bind_ok_iff.mp he
    have hb := h.bounded i hvalid
    have h₁ : Quiet j s₁ ∧ Untouched j s s₁ := by
      rcases uvmunmapVma_spec (h.bounded i) hb.start_mod hb.end_mod hun with
        ⟨-, honly, hidle⟩ | ⟨-, hrel⟩
      · exact h.failed hvalid honly hidle
      · exact h.released hb.start_mod hb.end_mod hrel
    obtain ⟨h₂, hu₂⟩ := hbase s₁ h₁.1 s' he
    exact ⟨h₂, h₁.2.trans hu₂⟩
  · cases he
    exact ⟨h, .of_eq rfl rfl⟩

theorem exitFile {fd : Fin NOFILE} (h : Quiet j s)
    (he : exitFile s fd = .ok s') : Quiet j s' ∧ Untouched j s s' := by
  unfold Vm.exitFile at he
  split at he
  · obtain ⟨s₁, hclose, he⟩ := bind_ok_iff.mp he
    cases he
    have hclosed := fileclose_spec hclose
    refine ⟨h.of_same ?_ hclosed.filesKept.ip ?_,
      .of_dropped (hclosed.filesKept.trans (.of_file_eq rfl))
        (hclosed.inode j)⟩
    · show s₁.p.vma = _
      rw [hclosed.p]
    · show PagesOk { s₁.p with ofile := _ }
      rw [hclosed.p]
      exact h.pages
  · cases he
    exact ⟨h, .of_eq rfl rfl⟩

theorem kexit (h : Quiet j s) (he : kexit s = .ok s') :
    Untouched j s s' := by
  obtain ⟨s₁, hloops, he⟩ := bind_ok_iff.mp he
  obtain ⟨s₂, hfiles, hvmas⟩ := bind_ok_iff.mp hloops
  have hround : ∀ {t t' : State}, Quiet j t ∧ Untouched j s t →
      Quiet j t' ∧ Untouched j t t' → Quiet j t' ∧ Untouched j s t' :=
    fun h₁ h₂ => ⟨h₂.1, h₁.2.trans h₂.2⟩
  have h₂ : Quiet j s₂ ∧ Untouched j s s₂ :=
    foldlM_invariant (I := fun t => Quiet j t ∧ Untouched j s t)
      (fun t fd t' ht hstep => hround ht (ht.1.exitFile hstep))
      ⟨h, .of_eq rfl rfl⟩ hfiles
  have h₁ : Quiet j s₁ ∧ Untouched j s s₁ :=
    foldlM_invariant (I := fun t => Quiet j t ∧ Untouched j s t)
      (fun t i t' ht hstep => hround ht (ht.1.exitVma hstep)) h₂ hvmas
  split at he
  · cases he
  · rename_i cwd _
    cases he
    refine h₁.2.trans (.of_dropped (.of_file_eq ?_) (iput_inode ..))
    exact iput_file ..

end Quiet

/-- Unmapping a private mapping, or a part of it, writes to no file. -/
theorem uvmunmapVma_private {s s' : State} {addr stop : ℕ} {done : Bool}
    (hpriv : (s.p.vma i).shared = false)
    (h : uvmunmapVma s i addr stop = .ok (s', done)) (j : InodeId) :
    (s.inode j).Unmodified (s'.inode j) := by
  have hsame : (s.inode j).Unmodified (s.inode j) := Inode.Dropped.kept.unmodified
  simp only [uvmunmapVma, writeBack, hpriv] at h
  split at h
  · cases h
    exact hsame
  split at h
  · cases h
    exact hsame
  obtain ⟨⟨s₁, done₁⟩, hwb, h⟩ := bind_ok_iff.mp h
  cases hwb
  obtain ⟨⟨km, pt⟩, -, h⟩ := bind_ok_iff.mp h
  obtain ⟨s₂, hshrink, h⟩ := bind_ok_iff.mp h
  cases h
  dsimp only [shrinkVma] at hshrink
  split at hshrink
  · obtain ⟨s₃, hclose, hshrink⟩ := bind_ok_iff.mp hshrink
    cases hshrink
    exact ((fileclose_spec hclose).inode j).unmodified
  · split at hshrink <;> cases hshrink <;> exact hsame

/-! ## Runs -/

/-- `mmap`, `munmap`, `sbrk`, loads and stores with any arguments, and the
exit of the process. -/
def FileOps (_ : State) : Op → Prop
  | .mmap .. => True
  | .munmap .. => True
  | .sbrk .. => True
  | .load _ => True
  | .store .. => True
  | .exit => True
  | _ => False

/-- As `FileOps`, up to the exit of the process, where `mmap_base` is not
raised over a mapping and lazy growth stays below the mappings. -/
def FileGuarded (s : State) : Op → Prop
  | .mmap _ len _ _ _ _ => s.p.state = .running ∧ MmapOk s.p len
  | .munmap addr len => s.p.state = .running ∧ MunmapOk s.p addr len
  | .sbrk n t => s.p.state = .running ∧
      (t ≠ SBRK_EAGER → 0 ≤ n.toInt → ∀ i va, (s.p.vma i).Mem va →
        (s.p.sz : ℤ) + n.toInt ≤ va)
  | .load _ => s.p.state = .running
  | .store .. => s.p.state = .running
  | .exit => s.p.state = .running
  | _ => False

instance (s : State) : DecidablePred (FileGuarded s)
  | .mmap .. | .munmap .. | .sbrk .. => inferInstanceAs (Decidable (_ ∧ _))
  | .load _ | .store .. | .exit => inferInstanceAs (Decidable (_ = _))
  | .growproc _ | .vmfault .. | .others .. => .isFalse id

/-- The file is not mapped both shared and writable. -/
def NoSharedWrite (j : InodeId) (s : State) : Op → Prop
  | .mmap _ _ prot flags fd _ => ∀ k, fdFile s fd = .ok k →
      0 < (s.file k).ref → mmapRefused (s.file k) prot flags = false →
      (s.file k).ip = some j → flags &&& MAP_SHARED ≠ 0 →
      ¬ (prot &&& PROT_READ ≠ 0 ∧ prot &&& PROT_WRITE ≠ 0)
  | _ => True

/-- What holds of the process while it runs. -/
structure RunInv (j : InodeId) (s₀ s : State) : Prop where
  untouched : Untouched j s₀ s
  running : s.p.state = .running → SpaceInv s.p ∧ Quiet j s

namespace RunInv

variable {j : InodeId} {s₀ s s' : State}

/-- A step that keeps the mappings and their files. -/
theorem of_same (h : Untouched j s₀ s) (hq : Quiet j s)
    (hspace : SpaceInv s'.p) (hvma : s'.p.vma = s.p.vma)
    (hfile : s'.file = s.file) (hinode : s'.inode = s.inode) :
    RunInv j s₀ s' where
  untouched := h.trans (.of_eq hfile (by rw [hinode]))
  running := fun _ =>
    ⟨hspace, hq.of_same hvma (fun k => by rw [hfile]) hspace.pages⟩

theorem mmap {len prot flags offset : Int32} {k : FileId} (h : Untouched j s₀ s)
    (hs : SpaceInv s.p) (hq : Quiet j s) (hok : MmapOk s.p len)
    (hm : MmapDone s len prot flags offset i k s')
    (hsrc : (s.file k).ip = some j → flags &&& MAP_SHARED ≠ 0 →
      ¬ (prot &&& PROT_READ ≠ 0 ∧ prot &&& PROT_WRITE ≠ 0)) :
    RunInv j s₀ s' := by
  have hs' := hs.mmap hok hm
  refine ⟨h.trans (.of_dropped hm.filesKept ?_),
    fun _ => ⟨hs', ?_, hs'.pages, ?_⟩⟩
  · rw [hm.inode]
    exact .kept
  · exact hs'.layout.bounded
  · intro n hn
    rw [hm.filesKept.ip]
    by_cases hni : n = i
    · subst hni
      rw [hm.p]
      simp only [Function.update_self, VMA.shared, VMA.allows,
        decide_eq_true_eq]
      exact fun hshared hip => hsrc hip hshared
    · rw [hm.vma_other hni] at hn ⊢
      exact hq.source n hn

/-- A trap: the fault is served, or the process is killed and exits. -/
theorem trap {va : ℕ} {read : Bool} (h : Untouched j s₀ s)
    (hs : SpaceInv s.p) (hq : Quiet j s)
    (ht : (usertrapFault s va read >>= usertrapret) = .ok s') :
    RunInv j s₀ s' := by
  obtain ⟨s₁, s₂, r, hf, hkill, hend⟩ := usertrap_spec ht
  have hsame := hf.sameProc
  have hs₁ := hs.fault hf
  have h₂ : SpaceInv s₂.p ∧ s₂.p.vma = s.p.vma ∧ s₂.file = s.file ∧
      s₂.inode = s.inode := by
    rcases hkill with rfl | rfl
    · exact ⟨hs₁, hsame.vma, hsame.file, hsame.inode⟩
    · exact ⟨hs₁.setkilled, hsame.vma, hsame.file, hsame.inode⟩
  obtain ⟨hs₂, hvma, hfile, hinode⟩ := h₂
  have hinv : RunInv j s₀ s₂ := .of_same h hq hs₂ hvma hfile hinode
  rcases hend with rfl | hexit
  · exact hinv
  · have hq₂ : Quiet j s₂ := hq.of_same hvma (fun k => by rw [hfile]) hs₂.pages
    refine ⟨hinv.untouched.trans (hq₂.kexit hexit), ?_⟩
    rw [kexit_zombie hexit]
    exact ProcState.noConfusion

theorem step {op : Op} (h : RunInv j s₀ s) (hok : FileGuarded s op)
    (hsrc : NoSharedWrite j s op) (hstep : Vm.step s op = .ok s') :
    RunInv j s₀ s' := by
  have hu := h.untouched
  cases op with
  | mmap addr len prot flags fd offset =>
    obtain ⟨hs, hq⟩ := h.running hok.1
    obtain ⟨⟨s₁, r⟩, hm, rfl⟩ := map_ok_iff.mp hstep
    rcases sysMmap_spec hm with rfl | ⟨i, k, hfd, hdone⟩
    · exact h
    · exact .mmap hu hs hq hok.2 hdone
        (hsrc k hfd hdone.ref_pos hdone.granted)
  | munmap addr len =>
    obtain ⟨hs, hq⟩ := h.running hok.1
    obtain ⟨⟨s₁, r⟩, hm, rfl⟩ := map_ok_iff.mp hstep
    have hdone := sysMunmap_spec hq.bounded hm
    obtain ⟨hq', hu'⟩ := hq.munmap (munmapEnd_mod addr len) hdone
    exact ⟨hu.trans hu', fun _ => ⟨hs.munmap hok.2 hdone, hq'⟩⟩
  | sbrk n t =>
    obtain ⟨hs, hq⟩ := h.running hok.1
    obtain ⟨⟨s₁, r⟩, hm, rfl⟩ := map_ok_iff.mp hstep
    have hdone := sysSbrk_spec hs.sz_lt hs.layout.base_le hm
    obtain ⟨hvma, hfile, hinode⟩ := hdone.same
    exact .of_same hu hq (hs.sbrk hdone hok.2) hvma hfile hinode
  | load va =>
    obtain ⟨hs, hq⟩ := h.running hok
    simp only [Vm.step, userLoad] at hstep
    split at hstep
    · cases hstep
      exact h
    · exact .trap hu hs hq hstep
  | store va b =>
    obtain ⟨hs, hq⟩ := h.running hok
    simp only [Vm.step, userStore] at hstep
    split at hstep
    · rename_i l hl
      cases hstep
      exact .of_same hu hq (hs.store hl) rfl rfl rfl
    · exact .trap hu hs hq hstep
  | exit =>
    obtain ⟨-, hq⟩ := h.running hok
    refine ⟨hu.trans (hq.kexit hstep), ?_⟩
    rw [kexit_zombie hstep]
    exact ProcState.noConfusion
  | growproc => cases hok
  | vmfault => cases hok
  | others => cases hok

end RunInv

/-- No descriptor that was open at `s` can write to the file. -/
def OpenReadOnly (j : InodeId) (s : State) : Prop :=
  ∀ k, 0 < (s.file k).ref → (s.file k).type ≠ .pipe →
    (s.file k).ip = some j → (s.file k).writable = false

/-- An end of a pipe is for reading or for writing. -/
def PipeEnds (s : State) : Prop :=
  ∀ k, (s.file k).type = .pipe →
    ¬ ((s.file k).readable = true ∧ (s.file k).writable = true)

/-- The file is only mapped without `MAP_SHARED`. -/
def PrivateOnly (j : InodeId) (s : State) : Op → Prop
  | .mmap _ _ _ flags fd _ => ∀ k, fdFile s fd = .ok k →
      (s.file k).ip = some j → flags &&& MAP_SHARED = 0
  | _ => True

/-- The permission tests of `sys_mmap`, at any later state. -/
theorem OpenReadOnly.noSharedWrite {j : InodeId} {s₀ s : State}
    (h : OpenReadOnly j s₀) (hpipe : PipeEnds s₀) (hk : FilesKept s₀ s)
    (op : Op) : NoSharedWrite j s op := by
  cases op with
  | mmap addr len prot flags fd offset =>
    rintro k - href hgrant hip hshared ⟨hread, hwrite⟩
    obtain ⟨href₀, htype⟩ := hk.opened k href
    simp only [mmapRefused, hread, hwrite, hshared, decide_true,
      Bool.true_and, Bool.and_true, ne_eq, not_false_eq_true,
      Bool.or_eq_false_iff, Bool.not_eq_false'] at hgrant
    rw [hk.readable, hk.writable] at hgrant
    by_cases hp : (s₀.file k).type = .pipe
    · exact hpipe k hp hgrant
    · have := h k href₀ hp (by rw [← hk.ip]; exact hip)
      rw [hgrant.2] at this
      cases this
  | _ => trivial

theorem PrivateOnly.noSharedWrite {j : InodeId} {s : State} {op : Op}
    (h : PrivateOnly j s op) : NoSharedWrite j s op := by
  cases op with
  | mmap addr len prot flags fd offset =>
    intro k hfd _ _ hip hshared
    exact absurd (h k hfd hip) hshared
  | _ => trivial

/-- **A file that is not open for writing, and one that is only mapped
privately, stay as they are** in every run that keeps the heap and the
mappings apart. A private mapping is given up without a write to any file,
whatever the state. -/
theorem read_only_unmodified {s s' : State} {ops : List Op} (hs : Fresh s.p)
    (hpipe : PipeEnds s) (run : Run step FileGuarded s ops s')
    (j : InodeId) :
    (OpenReadOnly j s → (s.inode j).Unmodified (s'.inode j)) ∧
    (Run step (PrivateOnly j) s ops s' →
      (s.inode j).Unmodified (s'.inode j)) ∧
    ∀ (t t' : State) i addr stop done, (t.p.vma i).shared = false →
      uvmunmapVma t i addr stop = .ok (t', done) →
      (t.inode j).Unmodified (t'.inode j) := by
  have hstart : RunInv j s s := by
    have hspace := SpaceInv.of_fresh hs
    refine ⟨.of_eq rfl rfl, fun _ =>
      ⟨hspace, hspace.layout.bounded, hspace.pages, ?_⟩⟩
    intro i hi
    rw [hs.none_valid i] at hi
    cases hi
  refine ⟨?_, ?_, fun t t' i addr stop done hpriv h =>
    uvmunmapVma_private hpriv h j⟩
  · intro hread
    have hinv : RunInv j s s' := run.invariant
      (fun t op t' h hok hstep => h.step hok
        (hread.noSharedWrite hpipe h.untouched.files op) hstep) hstart
    exact hinv.untouched.same
  · intro hpriv
    have hinv : RunInv j s s' := (run.and hpriv).invariant
      (fun t op t' h hok hstep => h.step hok.1 hok.2.noSharedWrite hstep)
      hstart
    exact hinv.untouched.same

/-- A file open for reading only. -/
def roFile : File := { rwFile with writable := false }

theorem bootState_readOnly (freelist : List Frame) (ip : Inode) :
    OpenReadOnly 0 (bootState freelist roFile ip) := by
  intro k _ _ hip
  by_cases h0 : k = 0
  · subst h0
    rfl
  · simp [bootState, h0] at hip

/-- A shared mapping to read and a private one to write; both are used, one is
unmapped and the process exits. -/
def readOnlyOps : List Op :=
  [.mmap 0 4096 1 1 0 0, .mmap 0 4096 3 2 0 0, .load 0x3fffffd000,
    .store 0x3fffffc000 7, .store 0x3fffffc000 7, .munmap 0x3fffffd000 4096,
    .exit]

theorem read_only_unmodified_exit : ∃ s', Run step FileGuarded
    (bootState spareFrames roFile pageInode) readOnlyOps s' ∧
    s'.p.state = .zombie ∧ pageInode.Unmodified (s'.inode 0) := by
  obtain ⟨s', hs', hend⟩ := exists_some_of_any
    (show (Run.checked step FileGuarded (bootState spareFrames roFile pageInode)
      readOnlyOps).any (fun s => decide (s.p.state = .zombie)) = true
      by decide +kernel)
  have run := Run.of_checked hs'
  have hpipe : PipeEnds (bootState spareFrames roFile pageInode) := by
    intro k hk
    by_cases h0 : k = 0
    · subst h0
      cases hk
    · simp [bootState, h0] at hk
  exact ⟨s', run, of_decide_eq_true hend, (read_only_unmodified
    (bootState_fresh ..) hpipe run 0).1 (bootState_readOnly _ _)⟩

/-- Lazy growth of the heap over a read-only mapping: the store faults in a
writable heap page at an address of the mapping, and `munmap` writes it to the
file. -/
def heapOverMapping : List Op :=
  .mmap 0 4096 1 1 0 0 :: List.replicate 128 (.sbrk 2147483647 2) ++
    [.store 0x3fffffd000 7, .store 0x3fffffd000 7, .munmap 0x3fffffd000 4096]

theorem read_only_modified : ∃ s',
    Run step FileOps (bootState [200] roFile pageInode) heapOverMapping s' ∧
    s'.p.state = .running ∧
    OpenReadOnly 0 (bootState [200] roFile pageInode) ∧
    ¬ pageInode.Unmodified (s'.inode 0) := by
  obtain ⟨s', hrun, hp⟩ := exists_ok_of_any
    (show ((heapOverMapping.foldlM step
      (bootState [200] roFile pageInode)).toOption.any fun s =>
        decide (s.p.state = .running) && decide ((s.inode 0).byte 0 = 7)) = true
      by decide +kernel)
  simp only [Bool.and_eq_true, decide_eq_true_eq] at hp
  refine ⟨s', Run.of_foldlM ?_ hrun, hp.1, bootState_readOnly _ _, ?_⟩
  · intro s op hop
    simp only [heapOverMapping, List.mem_append, List.mem_cons,
      List.not_mem_nil, or_false] at hop
    rcases hop with (rfl | hop) | rfl | rfl | rfl
    · trivial
    · rw [List.eq_of_mem_replicate hop]
      trivial
    · trivial
    · trivial
    · trivial
  · rintro (⟨-, hbyte, -⟩ | ⟨hlink, -⟩)
    · rw [hbyte] at hp
      exact absurd hp.2 (show ¬ (0 : UInt8) = 7 by decide)
    · cases hlink

end Xv6.Vm
