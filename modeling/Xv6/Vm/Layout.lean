import Xv6.Framework.Regions
import Xv6.Vm.Process

/-!
# The layout of an address space

The mappings of a process are disjoint regions between `mmap_base` and the
trap pages. `sys_mmap` and `sys_munmap` keep it so as long as `mmap_base` is
not raised over a mapping that stays: by a negative length in the first, by a
range that reaches past the first mapping it hits in the second. The pages
that are present belong to the heap or to a mapping.
-/

namespace Xv6.Vm

open Framework

variable {va addr stop : ℕ}

namespace VMA

/-- The addresses of a mapping, none for a slot that is not valid. -/
def region (v : VMA) : Set ℕ := { va | v.Mem va }

variable {v : VMA}

theorem mem_start (h : v.Mem va) : v.Mem v.start :=
  ⟨h.1, Nat.le_refl _, Nat.lt_of_le_of_lt h.2.1 h.2.2⟩

theorem mem_pgrounddown {vb : ℕ} (hv : v.Bounded) (h : v.Mem va)
    (hpage : pgrounddown vb = pgrounddown va) : v.Mem vb := by
  refine ⟨h.1, ?_, ?_⟩
  · rw [← le_pgrounddown_iff hv.start_mod, hpage,
      le_pgrounddown_iff hv.start_mod]
    exact h.2.1
  · rw [← pgrounddown_lt_iff hv.end_mod, hpage, pgrounddown_lt_iff hv.end_mod]
    exact h.2.2

/-- What is left of a mapping when the clipped range is taken out of it. -/
theorem mem_shrunk (hhit : v.Hit addr stop)
    (hends : unmapStart v addr = v.start ∨ unmapEnd v stop = v.end_) :
    (v.shrunk (unmapStart v addr) (unmapEnd v stop)).Mem va ↔
      v.Mem va ∧ ¬ (unmapStart v addr ≤ va ∧ va < unmapEnd v stop) := by
  obtain ⟨hvalid, haddr, hstop⟩ := hhit
  unfold VMA.shrunk
  split
  · rename_i hwhole
    rw [hwhole.1, hwhole.2]
    simp [Mem]
  · split
    · rename_i hpart hfront
      unfold Mem unmapEnd at *
      simp only [hfront, hvalid]
      split at * <;> simp_all
      omega
    · rename_i hpart hback
      have hend := hends.resolve_left hback
      rw [hend]
      unfold Mem unmapStart at *
      simp only [hvalid]
      split at * <;> simp_all
      omega

theorem Bounded.shrunk (hv : v.Bounded) (hhit : v.Hit addr stop)
    (haddr : addr % PGSIZE = 0) (hstop : stop % PGSIZE = 0) :
    (v.shrunk (unmapStart v addr) (unmapEnd v stop)).Bounded := by
  have hus := unmapStart_mod hv haddr
  have hue := unmapEnd_mod hv hstop
  obtain ⟨h₁, h₂, h₃, h₄⟩ := hv
  obtain ⟨-, hhi, hlo⟩ := hhit
  unfold VMA.shrunk
  split
  · exact ⟨h₁, h₂, h₃, h₄⟩
  · split
    · refine ⟨hue, h₂, ?_, h₄⟩
      simp only [unmapEnd]
      split <;> omega
    · refine ⟨h₁, hus, h₃, ?_⟩
      simp only [unmapStart]
      split <;> omega

end VMA

/-! ## The invariant -/

/-- The mappings are page-aligned, disjoint and below the trap pages, and so
is `mmap_base`. A slot can hold an empty mapping, which constrains nothing. -/
structure Maps (base : ℕ) (vma : VMAs) : Prop where
  base_mod : base % PGSIZE = 0
  base_le : base ≤ TRAPFRAME
  bounded : ∀ i, (vma i).valid = true → (vma i).Bounded
  apart : Apart fun i => (vma i).region

/-- Besides, no mapping lies below `mmap_base`. -/
structure Layout (base : ℕ) (vma : VMAs) : Prop extends Maps base vma where
  above : ∀ i va, (vma i).Mem va → base ≤ va

variable {base : ℕ}

theorem layout_of_invalid {vma : VMAs} (hmod : base % PGSIZE = 0)
    (hle : base ≤ TRAPFRAME) (hnone : ∀ i, (vma i).valid = false) :
    Layout base vma where
  base_mod := hmod
  base_le := hle
  bounded := by
    intro i hi
    rw [hnone i] at hi
    cases hi
  above := by
    intro i va hi
    rw [VMA.Mem, hnone i] at hi
    cases hi.1
  apart := by
    apply Apart.of_eq_of_mem
    intro i j va hi
    have hvalid : (vma i).valid = true := hi.1
    rw [hnone i] at hvalid
    cases hvalid

/-! ## `sys_mmap` -/

/-- The range below `mmap_base` that the call asks for holds no address of a
mapping. -/
def GapOk (p : Proc) (len : Int32) : Prop :=
  ∀ i va, (p.vma i).Mem va →
    ¬ ((p.mmapBase : ℤ) - pgroundupInt len.toInt ≤ va ∧ va < p.mmapBase)

/-- The new start does not come to lie above an address of a mapping. -/
def MmapOk (p : Proc) (len : Int32) : Prop :=
  ∀ i va, (p.vma i).Mem va → (p.mmapBase : ℤ) - pgroundupInt len.toInt ≤ va

/-- The lowest address of each mapping decides. -/
instance (vma : VMAs) (x : ℤ) :
    Decidable (∀ i va, (vma i).Mem va → x ≤ (va : ℤ)) := by
  refine decidable_of_iff
    (∀ i, (vma i).Mem (vma i).start → x ≤ (vma i).start) ⟨?_, ?_⟩
  · intro h i va hva
    have := h i (VMA.mem_start hva)
    have := hva.2.1
    omega
  · exact fun h i => h i _

instance (p : Proc) (len : Int32) : Decidable (MmapOk p len) :=
  inferInstanceAs (Decidable (∀ _ _, _ → _ ≤ _))

theorem pgroundupInt_bounds (len : Int32) :
    -2 ^ 31 ≤ pgroundupInt len.toInt ∧ pgroundupInt len.toInt < 2 ^ 31 ∧
      pgroundupInt len.toInt % PGSIZE = 0 := by
  unfold pgroundupInt toInt32 PGSIZE
  split <;> omega

variable {len : Int32}

/-- The range that `sys_mmap` computes, when it lies below the trap pages,
ends at `mmap_base`. -/
theorem mmap_range (hmod : base % PGSIZE = 0) (hle : base ≤ TRAPFRAME)
    (hlt : mmapStart base len < TRAPFRAME) :
    (mmapStart base len : ℤ) = base - pgroundupInt len.toInt ∧
      toUint64 ((mmapStart base len : ℤ) + mmapSize len) = base ∧
      mmapStart base len % PGSIZE = 0 := by
  obtain ⟨hlo, hhi, hS⟩ := pgroundupInt_bounds len
  have hstart : (mmapStart base len : ℤ) = base - pgroundupInt len.toInt := by
    unfold mmapStart mmapSize toUint64 pgrounddown TRAPFRAME TRAMPOLINE MAXVA
      PGSIZE at *
    omega
  refine ⟨hstart, ?_, ?_⟩
  · rw [hstart]
    unfold mmapSize toUint64 TRAPFRAME TRAMPOLINE MAXVA PGSIZE at *
    omega
  · exact pgrounddown_mod _

variable {s s' : State} {prot flags offset : Int32} {i j : Fin NVMA}
  {k : FileId}

theorem MmapDone.vma_other (h : MmapDone s len prot flags offset i k s')
    (hj : j ≠ i) : s'.p.vma j = s.p.vma j := by
  rw [h.p]
  simp [hj]

/-- The addresses of the new mapping. -/
theorem MmapDone.mem_self (hm : Maps s.p.mmapBase s.p.vma)
    (h : MmapDone s len prot flags offset i k s') (va : ℕ) :
    (s'.p.vma i).Mem va ↔
      mmapStart s.p.mmapBase len ≤ va ∧ va < s.p.mmapBase := by
  obtain ⟨-, hend, -⟩ := mmap_range hm.base_mod hm.base_le h.lt_trapframe
  rw [h.p]
  simp [VMA.Mem, hend]

theorem Maps.mmap (hm : Maps s.p.mmapBase s.p.vma) (hok : GapOk s.p len)
    (h : MmapDone s len prot flags offset i k s') :
    Maps s'.p.mmapBase s'.p.vma := by
  obtain ⟨hstart, hend, hmod⟩ := mmap_range hm.base_mod hm.base_le
    h.lt_trapframe
  have hbase : s'.p.mmapBase = mmapStart s.p.mmapBase len := by rw [h.p]
  refine ⟨hbase ▸ hmod, hbase ▸ Nat.le_of_lt h.lt_trapframe, ?_, ?_⟩
  · intro j hj
    by_cases hji : j = i
    · subst hji
      rw [h.p]
      simp only [Function.update_self]
      exact ⟨hmod, by simpa [hend] using hm.base_mod,
        Nat.le_of_lt h.lt_trapframe, by simpa [hend] using hm.base_le⟩
    · rw [h.vma_other hji] at hj ⊢
      exact hm.bounded j hj
  · refine hm.apart.add (i := i) ?_ ?_
    · intro j hj
      show (s'.p.vma j).region = _
      rw [h.vma_other hj]
    · intro j hj va hva hvj
      have hnew := (h.mem_self hm va).mp hva
      exact hok j va hvj ⟨by omega, by exact_mod_cast hnew.2⟩

theorem Layout.mmap (hl : Layout s.p.mmapBase s.p.vma) (hok : MmapOk s.p len)
    (h : MmapDone s len prot flags offset i k s') :
    Layout s'.p.mmapBase s'.p.vma := by
  have hgap : GapOk s.p len := by
    rintro j va hva ⟨-, hlt⟩
    have := hl.above j va hva
    omega
  refine ⟨hl.toMaps.mmap hgap h, ?_⟩
  intro j va hva
  rw [show s'.p.mmapBase = mmapStart s.p.mmapBase len by rw [h.p]]
  by_cases hji : j = i
  · subst hji
    exact ((h.mem_self hl.toMaps va).mp hva).1
  · rw [h.vma_other hji] at hva
    have hstart := (mmap_range hl.base_mod hl.base_le h.lt_trapframe).1
    have := hok j va hva
    omega

/-! ## `sys_munmap` -/

/-- When the range starts at `mmap_base`, it ends below the trap pages and
hits at most one slot. -/
def MunmapOk (p : Proc) (addr : UInt64) (len : Int32) : Prop :=
  addr.toNat = p.mmapBase → munmapEnd addr len ≤ TRAPFRAME ∧
    ∀ i j, (p.vma i).Hit addr.toNat (munmapEnd addr len) →
      (p.vma j).Hit addr.toNat (munmapEnd addr len) → i = j

instance (p : Proc) (addr : UInt64) (len : Int32) :
    Decidable (MunmapOk p addr len) :=
  inferInstanceAs (Decidable (_ → _ ∧ _))

@[simp] theorem rebase_pagetable (s : State) (addr stop : ℕ) :
    (rebase s addr stop).p.pagetable = s.p.pagetable := by
  unfold rebase
  split <;> rfl

@[simp] theorem rebase_sz (s : State) (addr stop : ℕ) :
    (rebase s addr stop).p.sz = s.p.sz := by
  unfold rebase
  split <;> rfl

@[simp] theorem rebase_vma (s : State) (addr stop : ℕ) :
    (rebase s addr stop).p.vma = s.p.vma := by
  unfold rebase
  split <;> rfl

/-- The slots after a release. -/
theorem Released.vma_self (h : Released s i addr stop s') :
    s'.p.vma i = (s.p.vma i).shrunk (unmapStart (s.p.vma i) addr)
      (unmapEnd (s.p.vma i) stop) := by
  rw [h.p]
  simp

theorem Released.vma_other (h : Released s i addr stop s') (hj : j ≠ i) :
    s'.p.vma j = s.p.vma j := by
  rw [h.p]
  simp [hj]

/-- The addresses that stay mapped. -/
theorem Released.mem_iff (h : Released s i addr stop s') :
    (s'.p.vma j).Mem va ↔ (s.p.vma j).Mem va ∧
      (j = i → ¬ (unmapStart (s.p.vma i) addr ≤ va ∧
        va < unmapEnd (s.p.vma i) stop)) := by
  by_cases hj : j = i
  · subst hj
    rw [h.vma_self, VMA.mem_shrunk h.hit h.ends]
    simp
  · rw [h.vma_other hj]
    simp [hj]

/-- Taking a part out of a mapping, with `mmap_base` where it was. -/
theorem Maps.released {s s' : State} {i : Fin NVMA} {addr stop : ℕ}
    (hm : Maps s.p.mmapBase s.p.vma) (haddr : addr % PGSIZE = 0)
    (hstop : stop % PGSIZE = 0) (h : Released s i addr stop s') :
    Maps s'.p.mmapBase s'.p.vma := by
  have hbase : s'.p.mmapBase = s.p.mmapBase := by rw [h.p]
  refine ⟨hbase ▸ hm.base_mod, hbase ▸ hm.base_le, ?_, ?_⟩
  · intro j hj
    by_cases hji : j = i
    · subst hji
      rw [h.vma_self]
      exact (hm.bounded j h.hit.1).shrunk h.hit haddr hstop
    · rw [h.vma_other hji] at hj ⊢
      exact hm.bounded j hj
  · exact hm.apart.shrink fun j va hva => (h.mem_iff.mp hva).1

theorem Maps.rebase (hm : Maps s.p.mmapBase s.p.vma) (hmod : stop % PGSIZE = 0)
    (hle : addr = s.p.mmapBase → stop ≤ TRAPFRAME) :
    Maps (rebase s addr stop).p.mmapBase (rebase s addr stop).p.vma := by
  unfold Vm.rebase
  split
  · rename_i hbase
    exact ⟨hmod, hle hbase, hm.bounded, hm.apart⟩
  · exact hm

theorem Maps.munmap (hm : Maps s.p.mmapBase s.p.vma) (hmod : stop % PGSIZE = 0)
    (hle : addr = s.p.mmapBase → stop ≤ TRAPFRAME)
    (h : MunmapDone s addr stop s') : Maps s'.p.mmapBase s'.p.vma := by
  cases h with
  | refused => exact hm
  | failed _ _ honly =>
    rw [honly.p]
    exact hm
  | missed => exact hm.rebase hmod hle
  | released haddr hrel =>
    refine (hm.released haddr hmod hrel).rebase hmod ?_
    rw [hrel.p]
    exact hle

/-- A mapping at or above the start of the range that is not hit lies past
its end. -/
theorem Layout.past_of_not_hit {vma : VMAs} (hl : Layout base vma)
    (hva : (vma i).Mem va) (hmiss : ¬ (vma i).Hit base stop) : stop ≤ va := by
  have habove := hl.above i _ (VMA.mem_start hva)
  obtain ⟨hvalid, hlo, hhi⟩ := hva
  simp only [VMA.Hit, hvalid, true_and, not_and, Nat.not_lt] at hmiss
  have := hmiss (by omega)
  omega

theorem Layout.munmap {addr : UInt64} (hl : Layout s.p.mmapBase s.p.vma)
    (hok : MunmapOk s.p addr len)
    (h : MunmapDone s addr.toNat (munmapEnd addr len) s') :
    Layout s'.p.mmapBase s'.p.vma := by
  have hstop := munmapEnd_mod addr len
  refine ⟨hl.toMaps.munmap hstop (fun hbase => (hok hbase).1) h, ?_⟩
  cases h with
  | refused => exact hl.above
  | failed _ _ honly =>
    rw [honly.p]
    exact hl.above
  | missed _ hmiss =>
    intro i va hva
    rw [rebase_vma] at hva
    unfold rebase
    split
    · rename_i hbase
      refine hl.past_of_not_hit hva ?_
      rw [← hbase]
      exact hmiss i
    · exact hl.above i va hva
  | @released i s₁ haddr hrel =>
    intro j va hva
    rw [rebase_vma] at hva
    obtain ⟨hold, hgone⟩ := hrel.mem_iff.mp hva
    have hbase₁ : s₁.p.mmapBase = s.p.mmapBase := by rw [hrel.p]
    unfold rebase
    split
    · rename_i hbase
      rw [hbase₁] at hbase
      by_cases hji : j = i
      · -- the slot that was hit is cut off at the end of the range
        subst hji
        have hstart := hl.above j _ (VMA.mem_start hold)
        have hout := hgone rfl
        obtain ⟨-, hlo, hhi⟩ := hold
        show munmapEnd addr len ≤ va
        unfold unmapStart unmapEnd at hout
        split at hout <;> split at hout <;> omega
      · refine hl.past_of_not_hit hold fun hhit => hji ?_
        rw [← hbase] at hhit
        exact (hok hbase).2 j i hhit hrel.hit
    · rw [hbase₁]
      exact hl.above j va hold

/-! ## Where the pages are -/

/-- Every page below the trap pages starts below `sz` or belongs to a
mapping. -/
def Covered (p : Proc) : Prop :=
  ∀ va < TRAPFRAME, p.pagetable.leaf va ≠ none →
    pgrounddown va < p.sz ∨ ∃ i, (p.vma i).Mem va

theorem lt_MAXVA_of_lt_TRAPFRAME (h : va < TRAPFRAME) :
    va < MAXVA := Nat.lt_trans h TRAPFRAME_lt_MAXVA

/-- More heap, more mappings, the same leaves. -/
theorem Covered.mono {p p' : Proc} (h : Covered p)
    (hleaf : ∀ va < MAXVA, p'.pagetable.leaf va = p.pagetable.leaf va)
    (hsz : p.sz ≤ p'.sz)
    (hvma : ∀ i va, (p.vma i).Mem va → (p'.vma i).Mem va) : Covered p' := by
  intro va hva hsome
  rw [hleaf va (lt_MAXVA_of_lt_TRAPFRAME hva)] at hsome
  rcases h va hva hsome with hheap | ⟨i, hi⟩
  · exact Or.inl (Nat.lt_of_lt_of_le hheap hsz)
  · exact Or.inr ⟨i, hvma i va hi⟩

theorem Covered.mmap (h : Covered s.p)
    (hm : MmapDone s len prot flags offset i k s') : Covered s'.p := by
  refine h.mono ?_ ?_ ?_
  · intro va _
    rw [hm.p]
  · rw [hm.p]
  · intro j va hva
    have hj : j ≠ i := by
      rintro rfl
      rw [VMA.Mem, hm.free] at hva
      cases hva.1
    rw [hm.p]
    simpa [hj] using hva

theorem Covered.released {s s' : State} {i : Fin NVMA} {addr stop : ℕ}
    (h : Covered s.p) (hr : Released s i addr stop s') : Covered s'.p := by
  intro va hva hsome
  have hva' := lt_MAXVA_of_lt_TRAPFRAME hva
  have hout : ¬ (unmapStart (s.p.vma i) addr ≤ va ∧
      va < unmapEnd (s.p.vma i) stop) := by
    rintro ⟨hlo, hhi⟩
    exact hsome (hr.inside va hva' hlo hhi)
  rw [hr.outside va hva' hout] at hsome
  rcases h va hva hsome with hheap | ⟨j, hj⟩
  · left
    rwa [hr.p]
  · exact Or.inr ⟨j, hr.mem_iff.mpr ⟨hj, fun _ => hout⟩⟩

theorem Covered.rebase (h : Covered s.p) (addr stop : ℕ) :
    Covered (rebase s addr stop).p :=
  h.mono (by simp) (by simp) (by simp)

theorem Covered.munmap (h : Covered s.p) (hm : MunmapDone s addr stop s') :
    Covered s'.p := by
  cases hm with
  | refused => exact h
  | failed _ _ honly =>
    rw [honly.p]
    exact h
  | missed => exact h.rebase addr stop
  | released _ hrel => exact (h.released hrel).rebase addr stop

/-- A page put in at an address of the heap or of a mapping. -/
theorem Covered.filled {mem : Frame} {perm : Perm} {km : Kmem} {pt : PageTable}
    (h : Covered s.p) (hf : Filled s (pgrounddown va) mem perm km pt)
    (hpage : ∀ vb, pgrounddown vb = pgrounddown va →
      pgrounddown vb < s.p.sz ∨ ∃ i, (s.p.vma i).Mem vb) :
    Covered (s.setMemory km pt).p := by
  intro vb hvb hsome
  by_cases hpg : pgrounddown vb = pgrounddown va
  · exact hpage vb hpg
  · have hsame : pt.leaf vb = s.p.pagetable.leaf vb :=
      hf.other vb (lt_MAXVA_of_lt_TRAPFRAME hvb) hpg
    exact h vb hvb (hsame ▸ hsome)

theorem Covered.vmfault {r : ℕ} {read : Bool} (hl : Layout s.p.mmapBase s.p.vma)
    (h : Covered s.p) (hf : Faulted s va read s' r) : Covered s'.p := by
  cases hf with
  | unserved hleaf =>
    exact h.mono (fun vb _ => hleaf vb) (Nat.le_refl _) fun _ _ hi => hi
  | denied => exact h
  | @file i _ _ _ _ hmem hfilled =>
    refine h.filled hfilled fun vb hvb => Or.inr ⟨i, ?_⟩
    exact VMA.mem_pgrounddown (hl.bounded i hmem.1) hmem hvb
  | heap hbelow hfilled =>
    refine h.filled hfilled fun vb hvb => Or.inl ?_
    rw [hvb]
    exact Nat.lt_of_le_of_lt (pgrounddown_le va) hbelow

theorem Covered.growproc (hbase : s.p.mmapBase ≤ TRAPFRAME) (h : Covered s.p)
    (hg : GrowDone s s') : Covered s'.p := by
  have htrap : TRAPFRAME < 2 ^ 63 := by decide
  cases hg with
  | same hleaf => exact h.mono hleaf (Nat.le_refl _) fun _ _ hi => hi
  | @up km pt sz hle hlt hgrown =>
    intro va hva hsome
    by_cases hnew : pgroundup s.p.sz ≤ va ∧ va < pgroundup sz
    · left
      show pgrounddown va < sz
      exact (lt_pgroundup_iff (by omega)).mp hnew.2
    · have hsame : pt.leaf va = s.p.pagetable.leaf va :=
        hgrown.outside va (lt_MAXVA_of_lt_TRAPFRAME hva) hnew
      rcases h va hva (hsame ▸ hsome) with hheap | hmem
      · exact Or.inl (Nat.lt_of_lt_of_le hheap hle)
      · exact Or.inr hmem
  | @down km pt sz hlt hltb hsmall hin hout =>
    intro va hva hsome
    have hva' := lt_MAXVA_of_lt_TRAPFRAME hva
    by_cases hgone : pgroundup sz ≤ va ∧ va < pgroundup s.p.sz
    · exact absurd (hin va hva' hgone.1 hgone.2) hsome
    · have hsame : pt.leaf va = s.p.pagetable.leaf va := hout va hva' hgone
      rcases h va hva (hsame ▸ hsome) with hheap | hmem
      · left
        show pgrounddown va < sz
        rw [← lt_pgroundup_iff (by omega)] at hheap
        rw [← lt_pgroundup_iff (by omega)]
        omega
      · exact Or.inr hmem

end Xv6.Vm
