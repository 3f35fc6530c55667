import Xv6.Vm.AddressSpace
import Xv6.Vm.Refs

/-!
# Replacing the image of a process (`kernel/exec.c`)

`kexec` frees the old page table with `proc_freepagetable`, which knows the
pages below `sz` and the trap pages. The mappings are neither unmapped nor
cleared: a page of a mapping makes `freewalk` panic, and without one the
mapping stays valid in the new image.
-/

namespace Xv6.Vm

open Framework

/-- The frames behind the user pages, in address order. -/
def userFrames (pt : PageTable) : List Frame :=
  leafFrames pt (TRAPFRAME / PGSIZE) 0

/-- The process that `kexec` replaces: the layout holds, and its frames come
from the allocator. -/
structure ExecReady (s : State) : Prop where
  layout : LayoutInv s.p
  tables : ∀ f ∈ s.p.pagetable.frames, f.Usable
  user : ∀ va < TRAPFRAME, ∀ l, s.p.pagetable.leaf va = some l →
    l.frame.Usable

/-- Nothing of the old image is left: each of its frames is on the free list
once more than before, there are no mappings, and their references are
dropped. -/
structure Discarded (s s' : State) : Prop where
  freed : s'.kmem.freelist.Perm
    (userFrames s.p.pagetable ++ s.p.pagetable.frames ++ s.kmem.freelist)
  none_valid : ∀ i, (s'.p.vma i).valid = false
  refs : ∀ k, (s'.file k).ref + mapCount s.p.vma k = (s.file k).ref

theorem leafFrames_add (pt : PageTable) (n : ℕ) : ∀ m a,
    leafFrames pt (m + n) a =
      leafFrames pt m a ++ leafFrames pt n (a + m * PGSIZE)
  | 0, a => by simp [leafFrames]
  | m + 1, a => by
    rw [Nat.succ_add, leafFrames, leafFrames_add pt n m, leafFrames,
      List.append_assoc, Nat.succ_mul, Nat.add_assoc,
      Nat.add_comm PGSIZE]

theorem leafFrames_eq_nil {pt : PageTable} {n a : ℕ}
    (h : ∀ k < n, pt.leaf (a + k * PGSIZE) = none) :
    leafFrames pt n a = [] := by
  apply List.eq_nil_iff_forall_not_mem.mpr
  intro f hf
  obtain ⟨k, hk, l, hl, -⟩ := mem_leafFrames.mp hf
  rw [h k hk] at hl
  cases hl

/-- Where the user pages end at `sz`, their frames do. -/
theorem userFrames_eq {pt : PageTable} {sz : ℕ} (hsz : sz ≤ TRAPFRAME)
    (h : ∀ va < TRAPFRAME, pgroundup sz ≤ va → pt.leaf va = none) :
    userFrames pt = leafFrames pt (pgroundup sz / PGSIZE) 0 := by
  have htrap : TRAPFRAME < 2 ^ 63 := by decide
  have hup : pgroundup sz ≤ TRAPFRAME :=
    (pgroundup_le_iff (by omega) TRAPFRAME_mod).mpr hsz
  have hmod := pgroundup_mod sz
  have hmod' := TRAPFRAME_mod
  obtain ⟨n, hn⟩ := Nat.exists_eq_add_of_le
    (Nat.div_le_div_right hup : pgroundup sz / PGSIZE ≤ TRAPFRAME / PGSIZE)
  rw [userFrames, hn, leafFrames_add, leafFrames_eq_nil (n := n),
    List.append_nil]
  intro k hk
  apply h
  · unfold PGSIZE at *
    omega
  · unfold PGSIZE at *
    omega

namespace ExecReady

variable {s : State}

theorem absent (h : ExecReady s) (hnone : ∀ i, (s.p.vma i).valid = false) :
    ∀ va < TRAPFRAME, pgroundup s.p.sz ≤ va →
      s.p.pagetable.leaf va = none := by
  intro va hva hge
  by_contra hsome
  rcases h.layout.leaf va hva hsome with hlt | ⟨i, hi, -⟩
  · omega
  · rw [VMA.Mem, hnone i] at hi
    cases hi.1

end ExecReady

/-- **`kexec` discards the old address space just when the process has no
mapping.** -/
theorem exec_discards {s : State} (h : ExecReady s) (pagetable : PageTable)
    (sz : ℕ) :
    (∃ s', kexecCommit s pagetable sz = .ok s' ∧ Discarded s s') ↔
      ∀ i, (s.p.vma i).valid = false := by
  constructor
  · rintro ⟨s', hcommit, hdisc⟩
    obtain ⟨km, -, hs'⟩ := bind_ok_iff.mp hcommit
    cases hs'
    exact hdisc.none_valid
  · intro hnone
    have habsent := h.absent hnone
    obtain ⟨km, hfree, hlist⟩ := procFreepagetable_ok s.kmem h.layout.sz_le h.tables
      h.user habsent
    refine ⟨_, bind_ok_iff.mpr ⟨km, hfree, rfl⟩, ?_, hnone, ?_⟩
    · show km.freelist.Perm _
      rw [hlist, userFrames_eq h.layout.sz_le habsent, List.append_assoc]
      exact ((List.reverse_perm _).append
        ((List.reverse_perm _).append_right _)).trans
        (List.perm_append_comm_assoc ..)
    · intro k
      rw [mapCount_of_invalid hnone]
      rfl

/-- Frames stay usable in `mmap`, `munmap` and faults. -/
theorem framesAll_step {P : Frame → Prop} {s s' : State} {op : Op}
    (h : FramesAll P s) (hb : ∀ i, (s.p.vma i).valid = true → (s.p.vma i).Bounded)
    (hok : Guarded s op) (hstep : step s op = .ok s') : FramesAll P s' := by
  cases op with
  | mmap addr len prot flags fd offset =>
    obtain ⟨⟨s₁, r⟩, hm, rfl⟩ := map_ok_iff.mp hstep
    rcases sysMmap_spec hm with rfl | ⟨i, k, -, hdone⟩
    · exact h
    · exact h.mmap hdone
  | munmap addr len =>
    obtain ⟨⟨s₁, r⟩, hm, rfl⟩ := map_ok_iff.mp hstep
    exact h.munmap hb (sysMunmap_spec hb hm)
  | vmfault va read =>
    obtain ⟨⟨s₁, r⟩, hm, rfl⟩ := map_ok_iff.mp hstep
    exact h.fault (vmfault_spec hm)
  | sbrk | growproc | load | store | exit | others => cases hok

/-- A page of a mapping and one of the heap are touched, and both mappings
given back. -/
def usedOps : List Op :=
  [.mmap 0 4096 3 1 0 0, .mmap 0 4096 3 2 0 0, .vmfault 0x3fffffc000 false,
    .vmfault 0 false, .munmap 0x3fffffc000 4096, .munmap 0x3fffffd000 4096]

theorem exec_discards_unmapped : ∃ s s', Run step Documented
    (bootState spareFrames rwFile pageInode) usedOps s ∧
    s.p.pagetable.leaf 0 ≠ none ∧
    kexecCommit s (PageTable.empty 300) 8192 = .ok s' ∧ Discarded s s' := by
  obtain ⟨s, hs, hcheck⟩ := exists_some_of_any
    (show (Run.checked step (fun s op => Documented s op ∧ Guarded s op)
      (bootState spareFrames rwFile pageInode) usedOps).any (fun s =>
        decide (∀ i, (s.p.vma i).valid = false) && (s.p.pagetable.leaf 0).isSome &&
        s.p.pagetable.frames.all fun f => decide f.Usable) = true
      by decide +kernel)
  simp only [Bool.and_eq_true, decide_eq_true_eq] at hcheck
  obtain ⟨⟨hnone, hleaf⟩, htables⟩ := hcheck
  have run := Run.of_checked hs
  have hinv : DocInv s ∧ FramesAll Frame.Usable s := by
    refine run.invariant (I := fun t => DocInv t ∧ FramesAll Frame.Usable t)
      (fun t op t' h hok hstep => ⟨docInv_step h.1 hok.1 hstep,
        framesAll_step h.2 h.1.layout.bounded hok.2 hstep⟩)
      ⟨.of_fresh (bootState_fresh ..), spareFrames_all (by decide), ?_, ?_⟩
    · intro va hva l hl
      have hl' : bootTable.leaf va = some l := hl
      rw [bootTable_leaf hva] at hl'
      cases hl'
    · intro k hk
      by_cases h0 : k = 0
      · subst h0
        cases hk
      · simp [bootState, h0] at hk
  have hready : ExecReady s := ⟨hinv.1.layoutInv,
    fun f hf => of_decide_eq_true (List.all_eq_true.mp htables f hf),
    hinv.2.user⟩
  obtain ⟨s', hcommit⟩ :=
    (exec_discards hready (PageTable.empty 300) 8192).mpr hnone
  exact ⟨s, s', run.mono fun _ _ h => h.1,
    Option.isSome_iff_ne_none.mp hleaf, hcommit⟩

/-- A process with one page of a file mapped and present. -/
def execMapped : State :=
  let s := bootState [] { rwFile with ref := 2 } pageInode
  { s with
    p := { s.p with
      mmapBase := 0x3fffffd000
      pagetable := mappedTable 0x3fffffd000 { r := true, u := true }
      vma := Function.update s.p.vma 0
        { valid := true, start := 0x3fffffd000, end_ := 0x3fffffe000
          prot := 1, flags := 1, f := 0, offset := 0 } } }

theorem execMapped_valid {i : Fin NVMA}
    (h : (execMapped.p.vma i).valid = true) : i = 0 := by
  by_contra hi
  simp [execMapped, bootState, hi] at h

theorem execMapped_leaf {va : ℕ} {l : Leaf} (h : va < TRAPFRAME)
    (hl : execMapped.p.pagetable.leaf va = some l) :
    l.frame = 200 ∧ (execMapped.p.vma 0).Mem va := by
  have hleaf : execMapped.p.pagetable.leaf va = _ :=
    mappedTable_leaf (show 0x3fffffd000 < MAXVA by decide) h
      (show bootTable.pte 0x3fffffd000 = some none by decide +kernel)
  rw [hleaf] at hl
  split at hl
  · rename_i hpage
    cases hl
    refine ⟨rfl, rfl, ?_, ?_⟩
    · show 0x3fffffd000 ≤ va
      unfold pgrounddown PGSIZE at hpage
      omega
    · exact h
  · cases hl

theorem execMapped_ready : ExecReady execMapped where
  layout :=
    { aligned := by
        intro i hi
        rw [execMapped_valid hi]
        decide
      nonempty := by
        intro i hi
        rw [execMapped_valid hi]
        decide
      disjoint := by
        intro i j hne hi hj
        exact absurd ((execMapped_valid hi).trans (execMapped_valid hj).symm)
          hne
      between := by
        intro i hi
        rw [execMapped_valid hi]
        decide
      base_mod := by decide
      base_le := by decide
      sz_le := by decide
      base_le_start := by
        intro i hi
        rw [execMapped_valid hi]
        decide
      leaf := by
        intro va hva hsome
        obtain ⟨l, hl⟩ := Option.ne_none_iff_exists'.mp hsome
        exact Or.inr ⟨0, (execMapped_leaf hva hl).2,
          fun j hj => execMapped_valid hj.1⟩ }
  tables := by
    have : execMapped.p.pagetable.frames = bootTable.frames :=
      PageTable.frames_setPte ..
    rw [this]
    exact bootTable_frames_usable
  user := by
    intro va hva l hl
    rw [(execMapped_leaf hva hl).1]
    decide

theorem exec_panics : ExecReady execMapped ∧
    kexecCommit execMapped bootTable 4096 = .error .freewalkLeaf := by
  refine ⟨execMapped_ready, eq_error_of_endsIn ?_⟩
  decide +kernel

end Xv6.Vm
