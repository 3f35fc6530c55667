import Xv6.Vm.AddressSpace

/-!
# The heap stays below the mappings

`growproc` and `sys_mmap` compare the heap with `mmap_base`; lazy growth in
`sys_sbrk` does not. In runs whose lazy growth stays below `mmap_base` the
order `sz ≤ mmap_base ≤ TRAPFRAME` holds throughout, so no walk over the user
part of the page table leaves the address space, and no address of a mapping
is taken for heap.
-/

namespace Xv6.Vm

open Framework

universe u

/-! ## Walks inside the address space -/

/-- The computation does not end in `panic("walk")`. -/
def NoWalk {α : Type u} (x : Except Panic α) : Prop := x ≠ .error .walk

namespace NoWalk

theorem ok {α : Type u} (a : α) : NoWalk (.ok a : Except Panic α) := by
  intro h
  cases h

theorem bind {α β : Type u} {x : Except Panic α} {f : α → Except Panic β}
    (hx : NoWalk x) (hf : ∀ a, x = .ok a → NoWalk (f a)) :
    NoWalk (x >>= f) := by
  cases hres : x with
  | error e =>
    intro h
    cases h
    exact hx hres
  | ok a => exact hf a hres

theorem foldlM {α σ : Type u} {f : σ → α → Except Panic σ}
    (hf : ∀ s a, NoWalk (f s a)) : ∀ (as : List α) (s : σ),
    NoWalk (as.foldlM f s)
  | [], s => ok s
  | a :: as, s => by
    rw [List.foldlM_cons]
    exact (hf s a).bind fun s' _ => foldlM hf as s'

end NoWalk

theorem kfree_noWalk (km : Kmem) (f : Frame) : NoWalk (kfree km f) := by
  unfold kfree
  split <;> simp [NoWalk]

variable {pt : PageTable} {va : ℕ}

theorem walk_noWalk (h : va < MAXVA) : NoWalk (walk pt va) := by
  rw [walk, if_pos h]
  exact .ok _

variable {km : Kmem}

theorem mappages_noWalk {f : Frame} {perm : Perm} (h : va < MAXVA) :
    NoWalk (mappages km pt va f perm) := by
  unfold mappages
  split
  · simp [NoWalk]
  · refine NoWalk.bind ?_ ?_
    · rw [walkAlloc, dif_pos h]
      split
      · exact .ok _
      · split <;> exact .ok _
    · rintro ⟨km₁, pt₁, found⟩ -
      simp only
      split
      · split <;> simp [NoWalk]
      · exact .ok _

theorem uvmunmapLoop_noWalk {doFree : Bool} : ∀ {n a : ℕ} {km : Kmem}
    {pt : PageTable}, a + n * PGSIZE ≤ MAXVA →
    NoWalk (uvmunmapLoop doFree n a km pt)
  | 0, _, _, _, _ => .ok _
  | n + 1, a, km, pt, h => by
    rw [Nat.succ_mul] at h
    have hlt : a < MAXVA := by
      unfold PGSIZE at h
      omega
    rw [uvmunmapLoop]
    refine (walk_noWalk hlt).bind ?_
    intro e _
    split
    · refine NoWalk.bind ?_ fun km₁ _ => uvmunmapLoop_noWalk (by omega)
      unfold kfreeIf
      split
      · exact kfree_noWalk _ _
      · exact .ok _
    · exact uvmunmapLoop_noWalk (by omega)

theorem uvmunmap_noWalk {npages : ℕ} {doFree : Bool}
    (h : va + npages * PGSIZE ≤ MAXVA) :
    NoWalk (uvmunmap km pt va npages doFree) := by
  unfold uvmunmap
  split
  · simp [NoWalk]
  · rw [uvmunmap_rounds (by unfold MAXVA at h; omega)]
    exact uvmunmapLoop_noWalk h

theorem mapOrFree_noWalk {s : State} {mem : Frame} {perm : Perm}
    (h : va < MAXVA) : NoWalk (mapOrFree s km va mem perm) := by
  unfold mapOrFree
  refine (mappages_noWalk h).bind ?_
  rintro ⟨km₁, pt₁, done⟩ -
  simp only
  split
  · exact .ok _
  · exact (kfree_noWalk _ _).bind fun _ _ => .ok _

/-- `vmfault` walks below `MAXVA` when the heap and the mappings lie there. -/
theorem vmfault_noWalk {s : State} (hsz : s.p.sz ≤ MAXVA)
    (hvma : ∀ i va, (s.p.vma i).Mem va → va < MAXVA) (va : ℕ) (read : Bool) :
    NoWalk (vmfault s va read) := by
  unfold vmfault
  split
  · split
    · exact .ok _
    · rename_i i hfind
      have hva := hvma i va (of_decide_eq_true (findVma_some hfind))
      have hpage := pgrounddown_le va
      dsimp only [vmfaultVma]
      split
      · exact .ok _
      · split
        · exact .ok _
        · refine NoWalk.bind ?_ fun ip _ => mapOrFree_noWalk (by omega)
          unfold ilock
          split
          · simp [NoWalk]
          · split <;> simp [NoWalk]
  · rename_i hbelow
    have hpage := pgrounddown_le va
    unfold vmfaultHeap
    refine NoWalk.bind ?_ ?_
    · rw [ismapped, if_pos (by omega)]
      exact .ok _
    · intro mapped _
      split
      · exact .ok _
      · split
        · exact .ok _
        · exact mapOrFree_noWalk (by omega)

theorem uvmcopyLoop_noWalk {old : PageTable} : ∀ {n i : ℕ} {km : Kmem}
    {new : PageTable}, i + n * PGSIZE ≤ MAXVA →
    NoWalk (uvmcopyLoop old n i km new)
  | 0, _, _, _, _ => .ok _
  | n + 1, i, km, new, h => by
    rw [Nat.succ_mul] at h
    have hlt : i < MAXVA := by
      unfold PGSIZE at h
      omega
    have hundo : ∀ km₁ new₁, NoWalk (uvmunmap km₁ new₁ 0 (i / PGSIZE) true) := by
      intro km₁ new₁
      apply uvmunmap_noWalk
      have := Nat.div_mul_le_self i PGSIZE
      omega
    rw [uvmcopyLoop]
    refine (walk_noWalk hlt).bind ?_
    intro e _
    split
    · split
      · exact (hundo _ _).bind fun _ _ => .ok _
      · refine (mappages_noWalk hlt).bind ?_
        rintro ⟨km₁, new₁, done⟩ -
        simp only
        split
        · exact uvmcopyLoop_noWalk (by omega)
        · refine (kfree_noWalk _ _).bind fun km₂ _ => ?_
          exact (hundo _ _).bind fun _ _ => .ok _
    · exact uvmcopyLoop_noWalk (by omega)

theorem uvmcopy_noWalk {old new : PageTable} {sz : ℕ} (h : sz ≤ TRAPFRAME) :
    NoWalk (uvmcopy km old new sz) := by
  apply uvmcopyLoop_noWalk
  unfold TRAPFRAME TRAMPOLINE MAXVA PGSIZE at *
  omega

theorem freewalk_noWalk (km : Kmem) (pt : PageTable) :
    NoWalk (freewalk km pt) := by
  have hleaf : ∀ km t, NoWalk (freewalkLeafPage km t) := by
    intro km t
    unfold freewalkLeafPage
    split
    · split <;> simp [NoWalk]
    · exact kfree_noWalk _ _
  have hmid : ∀ km m, NoWalk (freewalkMid km m) := by
    intro km m
    unfold freewalkMid
    refine (NoWalk.foldlM ?_ _ _).bind fun _ _ => kfree_noWalk _ _
    intro km j
    split
    · exact hleaf _ _
    · exact .ok _
  unfold freewalk
  refine (NoWalk.foldlM ?_ _ _).bind fun _ _ => kfree_noWalk _ _
  intro km i
  split
  · exact hmid _ _
  · exact .ok _

theorem uvmfree_noWalk {sz : ℕ} (h : sz ≤ TRAPFRAME) :
    NoWalk (uvmfree km pt sz) := by
  unfold uvmfree
  split
  · refine NoWalk.bind (uvmunmap_noWalk ?_) fun _ _ => freewalk_noWalk _ _
    unfold pgroundup TRAPFRAME TRAMPOLINE MAXVA PGSIZE at *
    omega
  · exact freewalk_noWalk _ _

/-! ## Runs -/

/-- The range of the call is that of a valid mapping. -/
def ExactRange (p : Proc) (addr : UInt64) (len : Int32) : Prop :=
  ∃ i, (p.vma i).valid = true ∧ addr.toNat = (p.vma i).start ∧
    munmapEnd addr len = (p.vma i).end_ ∧ (p.vma i).start < (p.vma i).end_

/-- `sbrk`, `mmap` and exact `munmap` with any arguments. -/
def HeapOps (s : State) : Op → Prop
  | .sbrk _ _ => True
  | .mmap .. => True
  | .munmap addr len => ExactRange s.p addr len
  | _ => False

/-- As `HeapOps`, where lazy growth stays below `mmap_base` and `mmap_base`
is not raised over a mapping; faults and the other processes come in
between. -/
def HeapGuarded (s : State) : Op → Prop
  | .sbrk n t => t ≠ SBRK_EAGER → 0 ≤ n.toInt →
      (s.p.sz : ℤ) + n.toInt ≤ s.p.mmapBase
  | .mmap _ len _ _ _ _ => MmapOk s.p len
  | .munmap addr len => ExactRange s.p addr len ∧ MunmapOk s.p addr len
  | .vmfault _ _ => True
  | .others .. => True
  | _ => False

instance (s : State) : DecidablePred (HeapGuarded s)
  | .sbrk .. => inferInstanceAs (Decidable (_ → _ → _))
  | .mmap .. => inferInstanceAs (Decidable (MmapOk ..))
  | .munmap .. => inferInstanceAs (Decidable ((∃ _, _ ∧ _) ∧ _))
  | .vmfault .. | .others .. => .isTrue trivial
  | .growproc _ | .load _ | .store .. | .exit => .isFalse id

/-- What the heap being below the mappings gives. -/
structure HeapBelow (s : State) : Prop where
  sz_le : s.p.sz ≤ s.p.mmapBase
  base_le : s.p.mmapBase ≤ TRAPFRAME
  fault : ∀ va read, vmfault s va read ≠ .error .walk
  copy : ∀ km new, uvmcopy km s.p.pagetable new s.p.sz ≠ .error .walk
  free : ∀ km, uvmfree km s.p.pagetable s.p.sz ≠ .error .walk
  heap : ∀ i va, (s.p.vma i).Mem va → s.p.sz ≤ va

/-- The invariant behind it. -/
structure HeapInv (s : State) : Prop where
  layout : Layout s.p.mmapBase s.p.vma
  sz_le : s.p.sz ≤ s.p.mmapBase

namespace HeapInv

variable {s s' : State}

theorem heapBelow (h : HeapInv s) : HeapBelow s where
  sz_le := h.sz_le
  base_le := h.layout.base_le
  fault := by
    refine vmfault_noWalk ?_ ?_
    · have h₁ := h.sz_le
      have h₂ := h.layout.base_le
      have h₃ := TRAPFRAME_lt_MAXVA
      omega
    · intro i va hva
      have h₁ := (h.layout.bounded i hva.1).end_le
      exact lt_MAXVA_of_lt_TRAPFRAME (Nat.lt_of_lt_of_le hva.2.2 h₁)
  copy := fun _ _ => uvmcopy_noWalk (Nat.le_trans h.sz_le h.layout.base_le)
  free := fun _ => uvmfree_noWalk (Nat.le_trans h.sz_le h.layout.base_le)
  heap := fun i va hva => Nat.le_trans h.sz_le (h.layout.above i va hva)

theorem sbrk {n t : Int32} (h : HeapInv s) (hs : SbrkDone s n t s')
    (hlazy : t ≠ SBRK_EAGER → 0 ≤ n.toInt →
      (s.p.sz : ℤ) + n.toInt ≤ s.p.mmapBase) : HeapInv s' := by
  cases hs with
  | grow hg =>
    obtain ⟨hbase, hvma⟩ := hg.sameMaps
    refine ⟨?_, ?_⟩
    · rw [hbase, hvma]
      exact h.layout
    · cases hg with
      | same => exact h.sz_le
      | up _ hlt => exact Nat.le_of_lt hlt
      | down _ hlt => exact Nat.le_of_lt hlt
  | lazy hmode hnonneg =>
    refine ⟨h.layout, ?_⟩
    have := hlazy hmode hnonneg
    show s.p.sz + n.toInt.toNat ≤ s.p.mmapBase
    omega

theorem munmap {addr : UInt64} {len : Int32} (h : HeapInv s)
    (hexact : ExactRange s.p addr len) (hok : MunmapOk s.p addr len)
    (hm : MunmapDone s addr.toNat (munmapEnd addr len) s') : HeapInv s' := by
  refine ⟨h.layout.munmap hok hm, ?_⟩
  have hraise : ∀ s₁ : State, s₁.p.sz = s.p.sz →
      s₁.p.mmapBase = s.p.mmapBase →
      (rebase s₁ addr.toNat (munmapEnd addr len)).p.sz ≤
        (rebase s₁ addr.toNat (munmapEnd addr len)).p.mmapBase := by
    intro s₁ hsz hbase
    obtain ⟨i, -, hstart, hend, hne⟩ := hexact
    have := h.sz_le
    rw [rebase_sz, hsz]
    unfold rebase
    split
    · show s.p.sz ≤ munmapEnd addr len
      omega
    · omega
  cases hm with
  | refused => exact h.sz_le
  | failed _ _ honly =>
    rw [honly.p]
    exact h.sz_le
  | missed => exact hraise s rfl rfl
  | released _ hrel => exact hraise _ (by rw [hrel.p]) (by rw [hrel.p])

theorem step {op : Op} (h : HeapInv s) (hok : HeapGuarded s op)
    (hstep : Vm.step s op = .ok s') : HeapInv s' := by
  cases op with
  | sbrk n t =>
    obtain ⟨⟨s₁, r⟩, hm, rfl⟩ := map_ok_iff.mp hstep
    have hsz : s.p.sz < 2 ^ 64 := by
      have h₁ := h.sz_le
      have h₂ := h.layout.base_le
      have h₃ : TRAPFRAME < 2 ^ 64 := by decide
      omega
    exact h.sbrk (sysSbrk_spec hsz h.layout.base_le hm) hok
  | mmap addr len prot flags fd offset =>
    obtain ⟨⟨s₁, r⟩, hm, rfl⟩ := map_ok_iff.mp hstep
    rcases sysMmap_spec hm with rfl | ⟨i, k, -, hdone⟩
    · exact h
    · refine ⟨h.layout.mmap hok hdone, ?_⟩
      rw [hdone.p]
      exact hdone.sz_le
  | munmap addr len =>
    obtain ⟨⟨s₁, r⟩, hm, rfl⟩ := map_ok_iff.mp hstep
    exact h.munmap hok.1 hok.2 (sysMunmap_spec h.layout.bounded hm)
  | vmfault va read =>
    obtain ⟨⟨s₁, r⟩, hm, rfl⟩ := map_ok_iff.mp hstep
    have hsame := (vmfault_spec hm).sameProc
    refine ⟨?_, ?_⟩
    · rw [hsame.mmapBase, hsame.vma]
      exact h.layout
    · rw [hsame.sz, hsame.mmapBase]
      exact h.sz_le
  | others fl inode =>
    cases hstep
    exact ⟨h.layout, h.sz_le⟩
  | growproc => cases hok
  | load => cases hok
  | store => cases hok
  | exit => cases hok

end HeapInv

/-- **The heap never runs into the mappings or the trap pages** when lazy
growth stays below `mmap_base`. -/
theorem heap_below_maps {s s' : State} {ops : List Op} (hs : Fresh s.p)
    (run : Run step HeapGuarded s ops s') : HeapBelow s' := by
  have hinv : HeapInv s' :=
    run.invariant (fun s op s' h hok hstep => h.step hok hstep)
      ⟨layout_of_invalid hs.base_mod hs.base_le hs.none_valid, hs.sz_le⟩
  exact hinv.heapBelow

/-- The heap is grown lazily and eagerly under two mappings, a page of it is
touched, and it shrinks again. -/
def heapOps : List Op :=
  mapOps ++ [.sbrk 8192 2, .vmfault 8192 false, .sbrk 4096 1, .sbrk (-8192) 1]

theorem heap_below_maps_lazy : ∃ s', Run step HeapGuarded
    (bootState spareFrames rwFile pageInode) heapOps s' ∧
    s'.p.sz = 8192 ∧ HeapBelow s' := by
  obtain ⟨s', hs', hsz⟩ := exists_some_of_any
    (show (Run.checked step HeapGuarded (bootState spareFrames rwFile pageInode)
      heapOps).any (fun s => decide (s.p.sz = 8192)) = true by decide +kernel)
  have run := Run.of_checked hs'
  exact ⟨s', run, of_decide_eq_true hsz,
    heap_below_maps (bootState_fresh ..) run⟩

/-- 129 lazy growths by 2 GB less a byte take the heap past the trap pages. -/
theorem heap_over_trapframe : ∃ s',
    Run step HeapOps (bootState [] rwFile pageInode)
      (List.replicate 129 (.sbrk 2147483647 2)) s' ∧
    s'.p.mmapBase < s'.p.sz ∧ vmfault s' MAXVA true = .error .walk := by
  obtain ⟨s', hrun, hp⟩ := exists_ok_of_any
    (show (((List.replicate 129 (.sbrk 2147483647 2)).foldlM step
      (bootState [] rwFile pageInode)).toOption.any
      fun s => decide (s.p.mmapBase < s.p.sz) &&
        decide (MAXVA < s.p.sz)) = true by decide +kernel)
  simp only [Bool.and_eq_true, decide_eq_true_eq] at hp
  refine ⟨s', Run.of_foldlM ?_ hrun, hp.1, ?_⟩
  · intro s op hop
    rw [List.eq_of_mem_replicate hop]
    trivial
  · have hpage : ¬ pgrounddown MAXVA < MAXVA := by decide
    rw [vmfault, if_neg (Nat.not_le.mpr hp.2), vmfaultHeap, ismapped,
      if_neg hpage]
    rfl

end Xv6.Vm
