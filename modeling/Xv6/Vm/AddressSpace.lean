import Xv6.Vm.Frames

/-!
# Runs of one process keep the layout

Three families of runs. Under the documented assumptions (positive lengths,
unmapping a prefix, a suffix or the whole of one mapping) the layout holds as
it is meant to. With arbitrary arguments to `mmap` and `munmap` it holds as
long as `mmap_base` is not raised over a mapping. With `sbrk` in the run the
heap stays below `mmap_base` as long as lazy growth does.
-/

namespace Xv6.Vm

open Framework

variable {s s' : State}

theorem GrowDone.sameMaps (h : GrowDone s s') :
    s'.p.mmapBase = s.p.mmapBase ∧ s'.p.vma = s.p.vma := by
  cases h <;> exact ⟨rfl, rfl⟩

theorem VMA.shrunk_nonempty {v : VMA} {addr stop : ℕ}
    (hhit : v.Hit addr stop)
    (hvalid : (v.shrunk (unmapStart v addr) (unmapEnd v stop)).valid = true) :
    (v.shrunk (unmapStart v addr) (unmapEnd v stop)).start <
      (v.shrunk (unmapStart v addr) (unmapEnd v stop)).end_ := by
  obtain ⟨-, hhi, hlo⟩ := hhit
  unfold VMA.shrunk at *
  split at hvalid
  · cases hvalid
  · rename_i hpart
    rw [if_neg hpart]
    split
    · rename_i hfront
      simp only [hfront, true_and] at hpart
      unfold unmapEnd at hpart ⊢
      simp only
      split at hpart <;> simp_all
    · rename_i hback
      unfold unmapStart at hback ⊢
      simp only
      split at hback <;> simp_all

/-! ## The documented use -/

/-- The layout as the lab describes it. -/
structure LayoutInv (p : Proc) : Prop where
  aligned : ∀ i, (p.vma i).valid = true →
    (p.vma i).start % PGSIZE = 0 ∧ (p.vma i).end_ % PGSIZE = 0
  nonempty : ∀ i, (p.vma i).valid = true → (p.vma i).start < (p.vma i).end_
  disjoint : ∀ i j, i ≠ j → (p.vma i).valid = true → (p.vma j).valid = true →
    (p.vma i).end_ ≤ (p.vma j).start ∨ (p.vma j).end_ ≤ (p.vma i).start
  between : ∀ i, (p.vma i).valid = true →
    pgroundup p.sz ≤ (p.vma i).start ∧ (p.vma i).end_ ≤ TRAPFRAME
  base_mod : p.mmapBase % PGSIZE = 0
  base_le : p.mmapBase ≤ TRAPFRAME
  sz_le : p.sz ≤ TRAPFRAME
  base_le_start : ∀ i, (p.vma i).valid = true → p.mmapBase ≤ (p.vma i).start
  leaf : ∀ va < TRAPFRAME, p.pagetable.leaf va ≠ none →
    va < pgroundup p.sz ∨ ∃! i, (p.vma i).Mem va

/-- A process without mappings. -/
structure Fresh (p : Proc) : Prop where
  none_valid : ∀ i, (p.vma i).valid = false
  base_mod : p.mmapBase % PGSIZE = 0
  base_le : p.mmapBase ≤ TRAPFRAME
  sz_le : p.sz ≤ p.mmapBase
  leaf : ∀ va < TRAPFRAME, p.pagetable.leaf va ≠ none → va < pgroundup p.sz

theorem Fresh.covered {p : Proc} (h : Fresh p) : Covered p := by
  intro va hva hsome
  have htrap : TRAPFRAME < 2 ^ 63 := by decide
  have hsz := Nat.le_trans h.sz_le h.base_le
  exact Or.inl ((lt_pgroundup_iff (by omega)).mp (h.leaf va hva hsome))

/-- The steps the lab's assumptions allow; the others may take and give back
pages at any time. -/
def Documented (s : State) : Op → Prop
  | .mmap _ len _ _ fd _ => 0 < len.toInt ∧ len.toInt ≤ 2 ^ 31 - 4096 ∧
      ∃ k, fdFile s fd = .ok k ∧ (s.file k).type = .inode ∧ 0 < (s.file k).ref
  | .munmap addr len => ∃ i, (s.p.vma i).valid = true ∧
      addr.toNat < munmapEnd addr len ∧
      ((addr.toNat = (s.p.vma i).start ∧
          munmapEnd addr len ≤ (s.p.vma i).end_) ∨
        ((s.p.vma i).start ≤ addr.toNat ∧
          munmapEnd addr len = (s.p.vma i).end_))
  | .growproc _ => True
  | .vmfault _ _ => True
  | .others .. => True
  | _ => False

instance (s : State) : DecidablePred (Documented s)
  | .mmap .. => inferInstanceAs (Decidable (_ ∧ _ ∧ ∃ _, _ ∧ _))
  | .munmap .. => inferInstanceAs (Decidable (∃ _, _ ∧ _))
  | .growproc _ | .vmfault .. | .others .. => .isTrue trivial
  | .sbrk .. | .load _ | .store .. | .exit => .isFalse id

/-- What the documented steps keep. -/
structure DocInv (s : State) : Prop where
  layout : Layout s.p.mmapBase s.p.vma
  nonempty : ∀ i, (s.p.vma i).valid = true →
    (s.p.vma i).start < (s.p.vma i).end_
  heap : s.p.sz ≤ s.p.mmapBase
  covered : Covered s.p

variable {len : Int32} {i : Fin NVMA}

namespace DocInv

variable {s s' : State}

theorem of_fresh (h : Fresh s.p) : DocInv s where
  layout := layout_of_invalid h.base_mod h.base_le h.none_valid
  nonempty := by
    intro i hi
    rw [h.none_valid i] at hi
    cases hi
  heap := h.sz_le
  covered := h.covered

theorem sz_lt (h : DocInv s) : s.p.sz < 2 ^ 63 := by
  have htrap : TRAPFRAME < 2 ^ 63 := by decide
  have h₁ := h.heap
  have h₂ := h.layout.base_le
  omega

theorem layoutInv (h : DocInv s) : LayoutInv s.p where
  aligned := fun i hi =>
    ⟨(h.layout.bounded i hi).start_mod, (h.layout.bounded i hi).end_mod⟩
  nonempty := h.nonempty
  disjoint := by
    intro i j hne hi hj
    by_contra hcon
    simp only [not_or, Nat.not_le] at hcon
    have h₁ := h.nonempty i hi
    have h₂ := h.nonempty j hj
    -- the larger of the two starts would belong to both
    have hmi : (s.p.vma i).Mem (max (s.p.vma i).start (s.p.vma j).start) :=
      ⟨hi, by omega, by omega⟩
    have hmj : (s.p.vma j).Mem (max (s.p.vma i).start (s.p.vma j).start) :=
      ⟨hj, by omega, by omega⟩
    exact hne (h.layout.apart.eq_of_mem hmi hmj)
  between := by
    intro i hi
    have hb := h.layout.bounded i hi
    have habove := h.layout.above i _ ⟨hi, Nat.le_refl _, h.nonempty i hi⟩
    refine ⟨(pgroundup_le_iff h.sz_lt hb.start_mod).mpr ?_, hb.end_le⟩
    exact Nat.le_trans h.heap habove
  base_mod := h.layout.base_mod
  base_le := h.layout.base_le
  sz_le := h.heap.trans h.layout.base_le
  base_le_start := fun i hi =>
    h.layout.above i _ ⟨hi, Nat.le_refl _, h.nonempty i hi⟩
  leaf := by
    intro va hva hsome
    rcases h.covered va hva hsome with hheap | ⟨i, hi⟩
    · exact Or.inl ((lt_pgroundup_iff h.sz_lt).mpr hheap)
    · exact Or.inr ⟨i, hi, fun j hj => h.layout.apart.eq_of_mem hj hi⟩

/-- A positive length rounds to a positive one. -/
theorem pgroundupInt_pos (hlo : 0 < len.toInt) (hhi : len.toInt ≤ 2 ^ 31 - 4096) :
    0 < pgroundupInt len.toInt := by
  unfold pgroundupInt toInt32 PGSIZE
  split <;> omega

theorem mmap {prot flags offset : Int32} {k : FileId} (h : DocInv s)
    (hlo : 0 < len.toInt) (hhi : len.toInt ≤ 2 ^ 31 - 4096)
    (hm : MmapDone s len prot flags offset i k s') : DocInv s' := by
  have hpos := pgroundupInt_pos hlo hhi
  have hok : MmapOk s.p len := by
    intro j va hva
    have := h.layout.above j va hva
    omega
  obtain ⟨hstart, hend, -⟩ := mmap_range h.layout.base_mod h.layout.base_le
    hm.lt_trapframe
  refine ⟨h.layout.mmap hok hm, ?_, ?_, h.covered.mmap hm⟩
  · intro j hj
    by_cases hji : j = i
    · subst hji
      rw [hm.p]
      simp only [Function.update_self, hend]
      omega
    · rw [hm.p] at hj ⊢
      simp only [Function.update_of_ne hji] at hj ⊢
      exact h.nonempty j hj
  · rw [hm.p]
    exact hm.sz_le

/-- A range inside one mapping hits no other slot. -/
theorem munmapOk {addr : UInt64} (h : DocInv s) (hi : (s.p.vma i).valid = true)
    (hlt : addr.toNat < munmapEnd addr len)
    (hlo : (s.p.vma i).start ≤ addr.toNat)
    (hhi : munmapEnd addr len ≤ (s.p.vma i).end_) : MunmapOk s.p addr len := by
  have honly : ∀ j, (s.p.vma j).Hit addr.toNat (munmapEnd addr len) →
      j = i := by
    rintro j ⟨hj, hja, hjs⟩
    have hne := h.nonempty j hj
    have hmj : (s.p.vma j).Mem (max addr.toNat (s.p.vma j).start) :=
      ⟨hj, by omega, by omega⟩
    have hmi : (s.p.vma i).Mem (max addr.toNat (s.p.vma j).start) :=
      ⟨hi, by omega, by omega⟩
    exact h.layout.apart.eq_of_mem hmj hmi
  intro _
  refine ⟨Nat.le_trans hhi (h.layout.bounded i hi).end_le, ?_⟩
  intro j j' hj hj'
  rw [honly j hj, honly j' hj']

theorem munmap {addr : UInt64} (h : DocInv s) (hok : MunmapOk s.p addr len)
    (hlt : addr.toNat < munmapEnd addr len)
    (hm : MunmapDone s addr.toNat (munmapEnd addr len) s') : DocInv s' := by
  have hheap : ∀ s₁ : State, s₁.p.sz = s.p.sz →
      s₁.p.mmapBase = s.p.mmapBase →
      (rebase s₁ addr.toNat (munmapEnd addr len)).p.sz ≤
        (rebase s₁ addr.toNat (munmapEnd addr len)).p.mmapBase := by
    intro s₁ hsz hbase
    have := h.heap
    rw [rebase_sz, hsz]
    unfold rebase
    split
    · simp only
      omega
    · omega
  refine ⟨h.layout.munmap hok hm, ?_, ?_, h.covered.munmap hm⟩
  · intro j hj
    cases hm with
    | refused => exact h.nonempty j hj
    | failed _ _ honly =>
      rw [honly.p] at hj ⊢
      exact h.nonempty j hj
    | missed =>
      rw [rebase_vma] at hj ⊢
      exact h.nonempty j hj
    | @released i s₁ _ hrel =>
      rw [rebase_vma] at hj ⊢
      by_cases hji : j = i
      · subst hji
        rw [hrel.vma_self] at hj ⊢
        exact VMA.shrunk_nonempty hrel.hit hj
      · rw [hrel.vma_other hji] at hj ⊢
        exact h.nonempty j hj
  · cases hm with
    | refused => exact h.heap
    | failed _ _ honly =>
      rw [honly.p]
      exact h.heap
    | missed => exact hheap s rfl rfl
    | @released i s₁ _ hrel =>
      exact hheap s₁ (by rw [hrel.p]) (by rw [hrel.p])

theorem growproc (h : DocInv s) (hg : GrowDone s s') : DocInv s' := by
  obtain ⟨hbase, hvma⟩ := hg.sameMaps
  refine ⟨?_, ?_, ?_, h.covered.growproc h.layout.base_le hg⟩
  · rw [hbase, hvma]
    exact h.layout
  · rw [hvma]
    exact h.nonempty
  · cases hg with
    | same => exact h.heap
    | up _ hlt => exact Nat.le_of_lt hlt
    | down _ hlt => exact Nat.le_of_lt hlt

theorem vmfault {va r : ℕ} {read : Bool} (h : DocInv s)
    (hf : Faulted s va read s' r) : DocInv s' := by
  have hsame := hf.sameProc
  refine ⟨?_, ?_, ?_, h.covered.vmfault h.layout hf⟩
  · rw [hsame.mmapBase, hsame.vma]
    exact h.layout
  · rw [hsame.vma]
    exact h.nonempty
  · rw [hsame.sz, hsame.mmapBase]
    exact h.heap

end DocInv

theorem docInv_step {op : Op} (h : DocInv s) (hok : Documented s op)
    (hstep : step s op = .ok s') : DocInv s' := by
  cases op with
  | mmap addr len prot flags fd offset =>
    obtain ⟨⟨s₁, r⟩, hm, rfl⟩ := map_ok_iff.mp hstep
    obtain ⟨hlo, hhi, -⟩ := hok
    rcases sysMmap_spec hm with rfl | ⟨i, k, -, hdone⟩
    · exact h
    · exact h.mmap hlo hhi hdone
  | munmap addr len =>
    obtain ⟨⟨s₁, r⟩, hm, rfl⟩ := map_ok_iff.mp hstep
    obtain ⟨i, hi, hlt, hrange⟩ := hok
    refine h.munmap (h.munmapOk hi hlt ?_ ?_) hlt
      (sysMunmap_spec h.layout.bounded hm)
    · rcases hrange with ⟨he, -⟩ | ⟨hle, -⟩
      · omega
      · exact hle
    · rcases hrange with ⟨-, hle⟩ | ⟨-, he⟩
      · exact hle
      · omega
  | growproc n =>
    obtain ⟨⟨s₁, r⟩, hm, rfl⟩ := map_ok_iff.mp hstep
    have hsz := h.sz_lt
    exact h.growproc (growproc_spec (by omega) h.layout.base_le hm)
  | vmfault va read =>
    obtain ⟨⟨s₁, r⟩, hm, rfl⟩ := map_ok_iff.mp hstep
    exact h.vmfault (vmfault_spec hm)
  | others fl inode =>
    cases hstep
    exact ⟨h.layout, h.nonempty, h.heap, h.covered⟩
  | sbrk => cases hok
  | load => cases hok
  | store => cases hok
  | exit => cases hok

theorem docInv_run {ops : List Op} (hs : DocInv s)
    (run : Run step Documented s ops s') : DocInv s' :=
  run.invariant (fun _ _ _ h hok hstep => docInv_step h hok hstep) hs

/-- **The layout under the documented assumptions.** In every state reached
from a process without mappings, mappings are aligned, non-empty, disjoint and
above the heap, `mmap_base` is below them, and every page belongs to the heap
or to exactly one mapping. -/
theorem documented_layout {s s' : State} {ops : List Op} (hs : Fresh s.p)
    (run : Run step Documented s ops s') : LayoutInv s'.p :=
  (docInv_run (.of_fresh hs) run).layoutInv

theorem bootState_fresh (freelist : List Frame) (f : File) (ip : Inode) :
    Fresh (bootState freelist f ip).p where
  none_valid := fun _ => rfl
  base_mod := TRAPFRAME_mod
  base_le := Nat.le_refl _
  sz_le := show PGSIZE ≤ TRAPFRAME by decide
  leaf := fun va hva hsome => absurd (bootTable_leaf hva) hsome

/-- A file open for reading and writing on an inode with one link. -/
def rwFile : File :=
  { type := .inode, ref := 1, readable := true, writable := true
    ip := some 0 }

/-- Entry 0 of the inode table: a file with one page of content. -/
def pageInode : Inode :=
  { type := 2, nlink := 1, ref := 1, size := 4096, blocks := 4
    size_le := by decide }

def spareFrames : List Frame := [200, 201, 202, 203, 204, 205]

/-- Two mappings, with a page of the lower one faulted in; then the upper one
is given back and another made. -/
def mapOps : List Op :=
  [.mmap 0 4096 3 1 0 0, .mmap 0 8192 3 2 0 0, .vmfault 0x3fffffb000 false,
    .munmap 0x3fffffd000 4096, .mmap 0 4096 1 1 0 0]

theorem documented_layout_mmap : ∃ s',
    Run step Documented (bootState spareFrames rwFile pageInode)
      (.growproc 4096 :: mapOps) s' ∧
    s'.p.pagetable.leaf 0x3fffffb000 ≠ none ∧ LayoutInv s'.p := by
  obtain ⟨s', hs', hleaf⟩ := exists_some_of_any
    (show (Run.checked step Documented (bootState spareFrames
      rwFile pageInode) (.growproc 4096 :: mapOps)).any (fun s =>
        (s.p.pagetable.leaf 0x3fffffb000).isSome) = true by decide +kernel)
  have run := Run.of_checked hs'
  exact ⟨s', run, Option.isSome_iff_ne_none.mp hleaf,
    documented_layout (bootState_fresh ..) run⟩

/-! ## Arbitrary arguments -/

/-- `mmap` and `munmap` with any arguments, and nothing else. -/
def Untrusted (_ : State) : Op → Prop
  | .mmap .. => True
  | .munmap .. => True
  | _ => False

/-- `mmap` and `munmap` steps that do not raise `mmap_base` over a mapping,
with page faults in between. -/
def Guarded (s : State) : Op → Prop
  | .mmap _ len _ _ _ _ => MmapOk s.p len
  | .munmap addr len => MunmapOk s.p addr len
  | .vmfault _ _ => True
  | _ => False

instance (s : State) : DecidablePred (Guarded s)
  | .mmap .. => inferInstanceAs (Decidable (MmapOk ..))
  | .munmap .. => inferInstanceAs (Decidable (MunmapOk ..))
  | .vmfault .. => .isTrue trivial
  | .sbrk .. | .growproc _ | .load _ | .store .. | .exit | .others .. =>
    .isFalse id

/-- The frames behind the two trap pages. -/
def IsTrapFrame (pt : PageTable) (f : Frame) : Prop :=
  ∃ l, (pt.leaf TRAPFRAME = some l ∨ pt.leaf TRAMPOLINE = some l) ∧
    l.frame = f

/-- The trap pages are mapped, and their frames are used for nothing else. -/
structure TrapOwned (s : State) : Prop where
  trapframe : s.p.pagetable.leaf TRAPFRAME ≠ none
  trampoline : s.p.pagetable.leaf TRAMPOLINE ≠ none
  free : ∀ f ∈ s.kmem.freelist, ¬ IsTrapFrame s.p.pagetable f
  user : ∀ va < TRAPFRAME, ∀ l, s.p.pagetable.leaf va = some l →
    ¬ IsTrapFrame s.p.pagetable l.frame
  pipe : ∀ k, (s.file k).type = .pipe →
    ¬ IsTrapFrame s.p.pagetable (s.file k).pipe

/-- The trap pages are still those of `s`. -/
structure TrapKept (s s' : State) : Prop where
  trapframe : s'.p.pagetable.leaf TRAPFRAME = s.p.pagetable.leaf TRAPFRAME
  trampoline : s'.p.pagetable.leaf TRAMPOLINE = s.p.pagetable.leaf TRAMPOLINE

theorem TrapKept.isTrapFrame (h : TrapKept s s') (f : Frame) :
    IsTrapFrame s'.p.pagetable f ↔ IsTrapFrame s.p.pagetable f := by
  unfold IsTrapFrame
  rw [h.trapframe, h.trampoline]

theorem TrapKept.trans {s₁ s₂ : State} (h : TrapKept s s₁) (h' : TrapKept s₁ s₂) :
    TrapKept s s₂ :=
  ⟨h'.trapframe.trans h.trapframe, h'.trampoline.trans h.trampoline⟩

namespace TrapOwned

variable {s s' : State}

theorem frames (h : TrapOwned s) :
    FramesAll (fun f => ¬ IsTrapFrame s.p.pagetable f) s :=
  ⟨h.free, h.user, h.pipe⟩

/-- What a step has to show when it leaves the trap pages alone. -/
theorem of_kept (h : TrapOwned s) (hk : TrapKept s s')
    (hf : FramesAll (fun f => ¬ IsTrapFrame s.p.pagetable f) s') :
    TrapOwned s' where
  trapframe := by
    rw [hk.trapframe]
    exact h.trapframe
  trampoline := by
    rw [hk.trampoline]
    exact h.trampoline
  free := by
    intro f hfree
    rw [hk.isTrapFrame]
    exact hf.free f hfree
  user := by
    intro va hva l hl
    rw [hk.isTrapFrame]
    exact hf.user va hva l hl
  pipe := by
    intro k hpipe
    rw [hk.isTrapFrame]
    exact hf.pipe k hpipe

theorem mmap {prot flags offset : Int32} {k : FileId} (h : TrapOwned s)
    (hm : MmapDone s len prot flags offset i k s') :
    TrapOwned s' ∧ TrapKept s s' := by
  have hkept : TrapKept s s' := ⟨by rw [hm.p], by rw [hm.p]⟩
  exact ⟨h.of_kept hkept (h.frames.mmap hm), hkept⟩

theorem munmap {addr stop : ℕ} (h : TrapOwned s)
    (hl : Layout s.p.mmapBase s.p.vma) (hm : MunmapDone s addr stop s') :
    TrapOwned s' ∧ TrapKept s s' := by
  have hkept : TrapKept s s' := by
    cases hm with
    | refused => exact ⟨rfl, rfl⟩
    | failed _ _ honly => exact ⟨by rw [honly.p], by rw [honly.p]⟩
    | missed => exact ⟨by rw [rebase_pagetable], by rw [rebase_pagetable]⟩
    | @released i s₁ _ hrel =>
      -- no mapping reaches into the trap pages
      have hend : unmapEnd (s.p.vma i) stop ≤ TRAPFRAME := by
        have := (hl.bounded i hrel.hit.1).end_le
        unfold unmapEnd
        split <;> omega
      have htramp : TRAPFRAME < TRAMPOLINE := by decide
      refine ⟨?_, ?_⟩
      · rw [rebase_pagetable]
        exact hrel.outside _ (by decide) (by omega)
      · rw [rebase_pagetable]
        exact hrel.outside _ (by decide) (by omega)
  exact ⟨h.of_kept hkept (h.frames.munmap hl.bounded hm), hkept⟩

/-- A fault never replaces a page that is there. -/
theorem vmfault {va r : ℕ} {read : Bool} (h : TrapOwned s)
    (hf : Faulted s va read s' r) : TrapOwned s' ∧ TrapKept s s' := by
  have hthere : ∀ {mem perm km pt}, Filled s (pgrounddown va) mem perm km pt →
      ∀ vb < MAXVA, s.p.pagetable.leaf vb ≠ none →
        pt.leaf vb = s.p.pagetable.leaf vb := by
    intro mem perm km pt hfilled vb hvb hsome
    refine hfilled.other vb hvb fun hpage => hsome ?_
    rw [← PageTable.leaf_pgrounddown, hpage]
    exact hfilled.fresh
  have hkept : TrapKept s s' := by
    cases hf with
    | unserved hleaf => exact ⟨hleaf _, hleaf _⟩
    | denied => exact ⟨rfl, rfl⟩
    | file _ _ hfilled =>
      exact ⟨hthere hfilled _ (by decide) h.trapframe,
        hthere hfilled _ (by decide) h.trampoline⟩
    | heap _ hfilled =>
      exact ⟨hthere hfilled _ (by decide) h.trapframe,
        hthere hfilled _ (by decide) h.trampoline⟩
  exact ⟨h.of_kept hkept (h.frames.fault hf), hkept⟩

end TrapOwned

/-- What a guarded step keeps, relative to where the run began. -/
theorem guarded_step {s₀ : State} {op : Op}
    (h : Layout s.p.mmapBase s.p.vma ∧ TrapOwned s ∧ TrapKept s₀ s)
    (hok : Guarded s op) (hstep : step s op = .ok s') :
    Layout s'.p.mmapBase s'.p.vma ∧ TrapOwned s' ∧ TrapKept s₀ s' := by
  obtain ⟨hl, ht, hk⟩ := h
  cases op with
  | mmap addr len prot flags fd offset =>
    obtain ⟨⟨s₁, r⟩, hm, rfl⟩ := map_ok_iff.mp hstep
    rcases sysMmap_spec hm with rfl | ⟨i, k, -, hdone⟩
    · exact ⟨hl, ht, hk⟩
    · obtain ⟨ht', hk'⟩ := ht.mmap hdone
      exact ⟨hl.mmap hok hdone, ht', hk.trans hk'⟩
  | munmap addr len =>
    obtain ⟨⟨s₁, r⟩, hm, rfl⟩ := map_ok_iff.mp hstep
    have hdone := sysMunmap_spec hl.bounded hm
    obtain ⟨ht', hk'⟩ := ht.munmap hl hdone
    exact ⟨hl.munmap hok hdone, ht', hk.trans hk'⟩
  | vmfault va read =>
    obtain ⟨⟨s₁, r⟩, hm, rfl⟩ := map_ok_iff.mp hstep
    have hf := vmfault_spec hm
    obtain ⟨ht', hk'⟩ := ht.vmfault hf
    have hsame := hf.sameProc
    refine ⟨?_, ht', hk.trans hk'⟩
    rw [hsame.mmapBase, hsame.vma]
    exact hl
  | sbrk => cases hok
  | growproc => cases hok
  | load => cases hok
  | store => cases hok
  | exit => cases hok
  | others => cases hok

/-- **Arguments that do not raise `mmap_base` over a mapping keep the
layout.** No address belongs to two mappings, none lies in a trap page, and
the trap pages stay as they are with their frames off the free list. -/
theorem guarded_layout {s s' : State} {ops : List Op}
    (hl : Layout s.p.mmapBase s.p.vma) (ht : TrapOwned s)
    (run : Run step Guarded s ops s') :
    (∀ i j va, (s'.p.vma i).Mem va → (s'.p.vma j).Mem va → i = j) ∧
    (∀ i va, (s'.p.vma i).Mem va → va < TRAPFRAME) ∧
    s'.p.pagetable.leaf TRAPFRAME = s.p.pagetable.leaf TRAPFRAME ∧
    s'.p.pagetable.leaf TRAMPOLINE = s.p.pagetable.leaf TRAMPOLINE ∧
    ∀ f, IsTrapFrame s.p.pagetable f → f ∉ s'.kmem.freelist := by
  have hinv : Layout s'.p.mmapBase s'.p.vma ∧ TrapOwned s' ∧ TrapKept s s' :=
    run.invariant
      (I := fun t => Layout t.p.mmapBase t.p.vma ∧ TrapOwned t ∧ TrapKept s t)
      (fun t op t' h hok hstep => guarded_step h hok hstep)
      ⟨hl, ht, rfl, rfl⟩
  obtain ⟨hl', ht', hk⟩ := hinv
  refine ⟨?_, ?_, hk.trapframe, hk.trampoline, ?_⟩
  · intro i j va hi hj
    exact hl'.apart.eq_of_mem hi hj
  · intro i va hi
    exact Nat.lt_of_lt_of_le hi.2.2 (hl'.bounded i hi.1).end_le
  · intro f hf hfree
    rw [← hk.isTrapFrame] at hf
    exact ht'.free f hfree hf

theorem bootState_isTrapFrame {freelist : List Frame} {file : File}
    {ip : Inode} {f : Frame}
    (h : IsTrapFrame (bootState freelist file ip).p.pagetable f) :
    f = 103 ∨ f = trampolineFrame := by
  have h₁ : bootTable.leaf TRAPFRAME = some ⟨103, { r := true, w := true }⟩ := by
    decide +kernel
  have h₂ : bootTable.leaf TRAMPOLINE =
      some ⟨trampolineFrame, { r := true, x := true }⟩ := by
    decide +kernel
  obtain ⟨l, hl | hl, rfl⟩ := h
  · have hl' : bootTable.leaf TRAPFRAME = some l := hl
    rw [h₁] at hl'
    cases hl'
    exact Or.inl rfl
  · have hl' : bootTable.leaf TRAMPOLINE = some l := hl
    rw [h₂] at hl'
    cases hl'
    exact Or.inr rfl

theorem bootState_trapOwned {freelist : List Frame} {file : File} {ip : Inode}
    (hfree : ∀ f ∈ freelist, f ≠ 103 ∧ f ≠ trampolineFrame)
    (hfile : file.type ≠ .pipe) :
    TrapOwned (bootState freelist file ip) where
  trapframe := show bootTable.leaf TRAPFRAME ≠ none by decide +kernel
  trampoline := show bootTable.leaf TRAMPOLINE ≠ none by decide +kernel
  free := by
    intro f hf htrap
    rcases bootState_isTrapFrame htrap with rfl | rfl
    · exact (hfree _ hf).1 rfl
    · exact (hfree _ hf).2 rfl
  user := by
    intro va hva l hl
    have hl' : bootTable.leaf va = some l := hl
    rw [bootTable_leaf hva] at hl'
    cases hl'
  pipe := by
    intro k hk
    by_cases h0 : k = 0
    · subst h0
      exact absurd hk hfile
    · simp [bootState, h0] at hk

theorem spareFrames_all {P : Frame → Prop} [DecidablePred P]
    (h : spareFrames.all (fun f => decide (P f)) = true) :
    ∀ f ∈ spareFrames, P f :=
  fun f hf => of_decide_eq_true (List.all_eq_true.mp h f hf)

theorem guarded_layout_mmap : ∃ s',
    Run step Guarded (bootState spareFrames rwFile pageInode) mapOps s' ∧
    (s'.p.vma 0).Mem 0x3fffffa000 ∧ (s'.p.vma 1).Mem 0x3fffffb000 ∧
    ∀ i j va, (s'.p.vma i).Mem va → (s'.p.vma j).Mem va → i = j := by
  obtain ⟨s', hs', hmem⟩ := exists_some_of_any
    (show (Run.checked step Guarded (bootState spareFrames rwFile pageInode)
      mapOps).any (fun s => decide ((s.p.vma 0).Mem 0x3fffffa000 ∧
        (s.p.vma 1).Mem 0x3fffffb000)) = true by decide +kernel)
  have run := Run.of_checked hs'
  have hmem := of_decide_eq_true hmem
  have hl := (DocInv.of_fresh (bootState_fresh spareFrames rwFile
    pageInode)).layout
  have ht : TrapOwned (bootState spareFrames rwFile pageInode) :=
    bootState_trapOwned (spareFrames_all (by decide)) (by decide)
  exact ⟨s', run, hmem.1, hmem.2, (guarded_layout hl ht run).1⟩

/-- Two mappings of one page, a `munmap` over both, and a mapping of two
pages. The `munmap` releases the upper mapping only, since it stops at the
first slot it hits, and moves `mmap_base` past the lower one. -/
def overlapOps : List Op :=
  [.mmap 0 4096 3 1 0 0, .mmap 0 4096 3 1 0 0, .munmap 0x3fffffc000 8192,
    .mmap 0 8192 3 1 0 0]

theorem untrusted_overlap : ∃ s',
    Run step Untrusted (bootState [] rwFile pageInode) overlapOps s' ∧
    (s'.p.vma 0).Mem 0x3fffffc000 ∧ (s'.p.vma 1).Mem 0x3fffffc000 := by
  obtain ⟨s', hrun, hp⟩ := exists_ok_of_any
    (show ((overlapOps.foldlM step (bootState [] rwFile pageInode)).toOption.any
      fun s => decide ((s.p.vma 0).Mem 0x3fffffc000) &&
        decide ((s.p.vma 1).Mem 0x3fffffc000)) = true by decide +kernel)
  simp only [Bool.and_eq_true, decide_eq_true_eq] at hp
  refine ⟨s', Run.of_foldlM ?_ hrun, hp⟩
  intro s op hop
  simp only [overlapOps, List.mem_cons, List.not_mem_nil, or_false] at hop
  rcases hop with rfl | rfl | rfl | rfl <;> trivial

end Xv6.Vm
