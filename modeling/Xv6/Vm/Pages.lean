import Xv6.Vm.AddressSpace

/-!
# The pages of a mapping

A page inside a mapping was put there by `vmfault` for this mapping, so it has
the mapping's permissions, and it is dirty only when they let a store through.
This needs the heap to stay below the mappings: `vmfault` takes every address
below `sz` for heap.
-/

namespace Xv6.Vm

open Framework

/-! ## One mapping and its pages -/

/-- The permissions of a page of the mapping, with what stores do to them. -/
def VMA.PageOk (v : VMA) (perm : Perm) : Prop :=
  ∃ d, perm = { v.perm with d := d } ∧
    (d = true → v.allows PROT_READ = true ∧ v.allows PROT_WRITE = true)

theorem VMA.pageOk_perm (v : VMA) : v.PageOk v.perm := by
  refine ⟨false, rfl, ?_⟩
  intro h
  cases h

variable {v : VMA} {perm : Perm}

theorem VMA.PageOk.user (h : v.PageOk perm) : perm.u = true := by
  obtain ⟨d, rfl, -⟩ := h
  rfl

theorem VMA.PageOk.dirty (h : v.PageOk perm) (hd : perm.d = true) :
    v.allows PROT_READ = true ∧ v.allows PROT_WRITE = true := by
  obtain ⟨d, rfl, hrw⟩ := h
  exact hrw hd

/-- A store that the MMU lets through. -/
theorem VMA.PageOk.store (h : v.PageOk perm) (hr : perm.r = true)
    (hw : perm.w = true) : v.PageOk { perm with d := true } := by
  obtain ⟨d, rfl, -⟩ := h
  exact ⟨true, rfl, fun _ => ⟨hr, hw⟩⟩

theorem VMA.PageOk.of_prot {v' : VMA} (hprot : v'.prot = v.prot)
    (h : v.PageOk perm) : v'.PageOk perm := by
  have hallows : v'.allows = v.allows := by
    funext bit
    rw [VMA.allows, VMA.allows, hprot]
  unfold VMA.PageOk VMA.perm at *
  rw [hallows]
  exact h

@[simp] theorem VMA.shrunk_prot (v : VMA) (us ue : ℕ) :
    (v.shrunk us ue).prot = v.prot := by
  unfold VMA.shrunk
  split
  · rfl
  · split <;> rfl

@[simp] theorem VMA.shrunk_flags (v : VMA) (us ue : ℕ) :
    (v.shrunk us ue).flags = v.flags := by
  unfold VMA.shrunk
  split
  · rfl
  · split <;> rfl

@[simp] theorem VMA.shrunk_f (v : VMA) (us ue : ℕ) :
    (v.shrunk us ue).f = v.f := by
  unfold VMA.shrunk
  split
  · rfl
  · split <;> rfl

/-- Every page inside a mapping is one of the mapping's. -/
def PagesOk (p : Proc) : Prop :=
  ∀ i va l, (p.vma i).Mem va → p.pagetable.leaf va = some l →
    (p.vma i).PageOk l.perm

variable {va : ℕ}

namespace PagesOk

variable {s s' : State}

/-- It is enough to look at the pages that changed. -/
theorem of_leaf {pt : PageTable} {km : Kmem} (h : PagesOk s.p)
    (hnew : ∀ i va l, (s.p.vma i).Mem va → pt.leaf va = some l →
      s.p.pagetable.leaf va ≠ some l → (s.p.vma i).PageOk l.perm) :
    PagesOk (s.setMemory km pt).p := by
  intro i va l hi (hl : pt.leaf va = some l)
  by_cases hold : s.p.pagetable.leaf va = some l
  · exact h i va l hi hold
  · exact hnew i va l hi hl hold

theorem released {i : Fin NVMA} {addr stop : ℕ} (h : PagesOk s.p)
    (hlt : ∀ i va, (s.p.vma i).Mem va → va < MAXVA)
    (hr : Released s i addr stop s') : PagesOk s'.p := by
  intro j va l hj hl
  have hold := (hr.mem_iff.mp hj).1
  have hva := hlt j va hold
  have hprot : (s'.p.vma j).prot = (s.p.vma j).prot := by
    by_cases hji : j = i
    · subst hji
      rw [hr.vma_self, VMA.shrunk_prot]
    · rw [hr.vma_other hji]
  refine VMA.PageOk.of_prot hprot (h j va l hold ?_)
  by_cases hin : unmapStart (s.p.vma i) addr ≤ va ∧
      va < unmapEnd (s.p.vma i) stop
  · rw [hr.inside va hva hin.1 hin.2] at hl
    cases hl
  · rwa [hr.outside va hva hin] at hl

theorem filled {mem : Frame} {km : Kmem} {pt : PageTable} (h : PagesOk s.p)
    (hlt : ∀ i va, (s.p.vma i).Mem va → va < MAXVA)
    (hf : Filled s (pgrounddown va) mem perm km pt)
    (hpage : ∀ i vb, pgrounddown vb = pgrounddown va → (s.p.vma i).Mem vb →
      (s.p.vma i).PageOk perm) : PagesOk (s.setMemory km pt).p := by
  refine h.of_leaf ?_
  intro i vb l hi hl hchanged
  by_cases hsame : pgrounddown vb = pgrounddown va
  · rw [hf.self vb hsame] at hl
    cases hl
    exact hpage i vb hsame hi
  · rw [hf.other vb (hlt i vb hi) hsame] at hl
    exact absurd hl hchanged

theorem store {l : Leaf} {b : UInt8} (h : PagesOk s.p)
    (hlt : ∀ i va, (s.p.vma i).Mem va → va < MAXVA)
    (ht : translateStore s.p.pagetable va = some l) :
    PagesOk (storeThrough s va l b).p := by
  obtain ⟨hva, hleaf, -, hr, hw⟩ := translateStore_some ht
  intro i vb l' hi hl
  rw [storeThrough_leaf b ht (hlt i vb hi)] at hl
  split at hl
  · rename_i hsame
    cases hl
    rw [← PageTable.leaf_congr _ hsame] at hleaf
    exact (h i vb l hi hleaf).store hr hw
  · exact h i vb l' hi hl

theorem rebase (h : PagesOk s.p) (addr stop : ℕ) :
    PagesOk (rebase s addr stop).p := by
  unfold PagesOk
  rw [rebase_vma, rebase_pagetable]
  exact h

end PagesOk

/-! ## The address space as a whole -/

/-- What the mappings, the heap and the pages of a process keep. -/
structure SpaceInv (p : Proc) : Prop where
  layout : Layout p.mmapBase p.vma
  heap : ∀ i va, (p.vma i).Mem va → p.sz ≤ va
  covered : Covered p
  pages : PagesOk p
  sz_lt : p.sz < 2 ^ 64

namespace SpaceInv

variable {s s' : State}

theorem of_fresh {p : Proc} (h : Fresh p) : SpaceInv p where
  layout := layout_of_invalid h.base_mod h.base_le h.none_valid
  heap := by
    intro i va hi
    rw [VMA.Mem, h.none_valid i] at hi
    cases hi.1
  covered := h.covered
  pages := by
    intro i va l hi
    rw [VMA.Mem, h.none_valid i] at hi
    cases hi.1
  sz_lt := by
    have h₁ := h.sz_le
    have h₂ := h.base_le
    have h₃ : TRAPFRAME < 2 ^ 64 := by decide
    omega

theorem mem_lt {p : Proc} (h : SpaceInv p) (i : Fin NVMA) (va : ℕ)
    (hi : (p.vma i).Mem va) : va < MAXVA :=
  lt_MAXVA_of_lt_TRAPFRAME
    (Nat.lt_of_lt_of_le hi.2.2 (h.layout.bounded i hi.1).end_le)

variable {len : Int32}

/-- There is no page in the range that `sys_mmap` picks. -/
theorem mmap_absent {prot flags offset : Int32} {i : Fin NVMA} {k : FileId}
    (h : SpaceInv s.p) (hm : MmapDone s len prot flags offset i k s')
    (hva : (s'.p.vma i).Mem va) : s.p.pagetable.leaf va = none := by
  obtain ⟨-, -, hmod⟩ := mmap_range h.layout.base_mod h.layout.base_le
    hm.lt_trapframe
  obtain ⟨hlo, hhi⟩ := (hm.mem_self h.layout.toMaps va).mp hva
  by_contra hsome
  rcases h.covered va (Nat.lt_of_lt_of_le hhi h.layout.base_le) hsome with
    hheap | ⟨j, hj⟩
  · rw [← le_pgrounddown_iff hmod] at hlo
    have := hm.sz_le
    omega
  · have := h.layout.above j va hj
    omega

theorem mmap {prot flags offset : Int32} {i : Fin NVMA} {k : FileId}
    (h : SpaceInv s.p) (hok : MmapOk s.p len)
    (hm : MmapDone s len prot flags offset i k s') : SpaceInv s'.p := by
  have hsz : s'.p.sz = s.p.sz := by rw [hm.p]
  refine ⟨h.layout.mmap hok hm, ?_, h.covered.mmap hm, ?_, hsz ▸ h.sz_lt⟩
  · intro j va hj
    rw [hsz]
    by_cases hji : j = i
    · subst hji
      exact Nat.le_trans hm.sz_le ((hm.mem_self h.layout.toMaps va).mp hj).1
    · rw [hm.vma_other hji] at hj
      exact h.heap j va hj
  · intro j va l hj hl
    rw [show s'.p.pagetable = s.p.pagetable by rw [hm.p]] at hl
    by_cases hji : j = i
    · subst hji
      rw [h.mmap_absent hm hj] at hl
      cases hl
    · rw [hm.vma_other hji] at hj ⊢
      exact h.pages j va l hj hl

theorem munmap {addr : UInt64} (h : SpaceInv s.p) (hok : MunmapOk s.p addr len)
    (hm : MunmapDone s addr.toNat (munmapEnd addr len) s') : SpaceInv s'.p := by
  have hl := h.layout.munmap hok hm
  have hc := h.covered.munmap hm
  cases hm with
  | refused => exact h
  | failed _ _ honly =>
    rw [honly.p]
    exact h
  | missed =>
    refine ⟨hl, ?_, hc, ?_, ?_⟩
    · simpa using h.heap
    · exact h.pages.rebase _ _
    · simpa using h.sz_lt
  | @released i s₁ _ hrel =>
    have hsz : s₁.p.sz = s.p.sz := by rw [hrel.p]
    have hpages := h.pages.released h.mem_lt hrel
    refine ⟨hl, ?_, hc, ?_, ?_⟩
    · simp only [rebase_vma, rebase_sz, hsz]
      exact fun j va hj => h.heap j va (hrel.mem_iff.mp hj).1
    · exact hpages.rebase _ _
    · simpa [hsz] using h.sz_lt

/-- `growproc` only maps pages below `mmap_base`. -/
theorem growproc (h : SpaceInv s.p) (hg : GrowDone s s') : SpaceInv s'.p := by
  have hc := h.covered.growproc h.layout.base_le hg
  have htrap : TRAPFRAME < 2 ^ 63 := by decide
  have hbase := h.layout.base_le
  cases hg with
  | same hleaf =>
    refine ⟨h.layout, h.heap, hc, h.pages.of_leaf ?_, h.sz_lt⟩
    intro i va l hi hl hchanged
    rw [hleaf va (h.mem_lt i va hi)] at hl
    exact absurd hl hchanged
  | @up km pt sz hle hlt hgrown =>
    refine ⟨h.layout, ?_, hc, ?_, by show sz < 2 ^ 64; omega⟩
    · intro i va hi
      have := h.layout.above i va hi
      show sz ≤ va
      omega
    · refine @PagesOk.of_leaf s pt km h.pages ?_
      intro i va l hi hl hchanged
      have habove := h.layout.above i va hi
      rw [hgrown.outside va (h.mem_lt i va hi)] at hl
      · exact absurd hl hchanged
      · rintro ⟨-, hin⟩
        have := (pgroundup_le_iff (by omega) h.layout.base_mod).mpr
          (Nat.le_of_lt hlt)
        omega
  | @down km pt sz hlt hltb hsmall hin hout =>
    refine ⟨h.layout, ?_, hc, ?_, by show sz < 2 ^ 64; omega⟩
    · intro i va hi
      have := h.heap i va hi
      show sz ≤ va
      omega
    · refine @PagesOk.of_leaf s pt km h.pages ?_
      intro i va l hi hl hchanged
      have hva := h.mem_lt i va hi
      by_cases hgone : pgroundup sz ≤ va ∧ va < pgroundup s.p.sz
      · rw [hin va hva hgone.1 hgone.2] at hl
        cases hl
      · rw [hout va hva hgone] at hl
        exact absurd hl hchanged

/-- `sys_sbrk`, when lazy growth stays below the mappings. -/
theorem sbrk {n t : Int32} (h : SpaceInv s.p) (hs : SbrkDone s n t s')
    (hlazy : t ≠ SBRK_EAGER → 0 ≤ n.toInt → ∀ i va, (s.p.vma i).Mem va →
      (s.p.sz : ℤ) + n.toInt ≤ va) : SpaceInv s'.p := by
  cases hs with
  | grow hg => exact h.growproc hg
  | lazy hmode hnonneg hlt =>
    refine ⟨h.layout, ?_, ?_, h.pages, hlt⟩
    · intro i va hi
      have := hlazy hmode hnonneg i va hi
      show s.p.sz + n.toInt.toNat ≤ va
      omega
    · exact h.covered.mono (fun _ _ => rfl) (Nat.le_add_right _ _)
        fun _ _ hi => hi

theorem fault {r : ℕ} {read : Bool} (h : SpaceInv s.p)
    (hf : Faulted s va read s' r) : SpaceInv s'.p := by
  have hsame := hf.sameProc
  have hc := h.covered.vmfault h.layout hf
  have hp : PagesOk s'.p := by
    cases hf with
    | unserved hleaf =>
      refine h.pages.of_leaf ?_
      intro i vb l _ hl hchanged
      rw [hleaf vb] at hl
      exact absurd hl hchanged
    | denied => exact h.pages
    | @file i _ _ _ _ hmem hfilled =>
      refine h.pages.filled h.mem_lt hfilled ?_
      intro j vb hvb hj
      have hi := VMA.mem_pgrounddown (h.layout.bounded i hmem.1) hmem hvb
      obtain rfl : j = i := h.layout.apart.eq_of_mem hj hi
      exact VMA.pageOk_perm _
    | heap hbelow hfilled =>
      refine h.pages.filled h.mem_lt hfilled ?_
      intro j vb hvb hj
      have hmem := VMA.mem_pgrounddown (h.layout.bounded j hj.1) hj hvb.symm
      have := h.heap j va hmem
      omega
  refine ⟨?_, ?_, hc, hp, ?_⟩
  · rw [hsame.mmapBase, hsame.vma]
    exact h.layout
  · rw [hsame.vma, hsame.sz]
    exact h.heap
  · rw [hsame.sz]
    exact h.sz_lt

theorem setkilled (h : SpaceInv s.p) : SpaceInv (setkilled s).p :=
  ⟨h.layout, h.heap, h.covered, h.pages, h.sz_lt⟩

theorem store {l : Leaf} {b : UInt8} (h : SpaceInv s.p)
    (ht : translateStore s.p.pagetable va = some l) :
    SpaceInv (storeThrough s va l b).p where
  layout := h.layout
  heap := h.heap
  covered := by
    intro vb hvb hsome
    rw [storeThrough_leaf b ht (lt_MAXVA_of_lt_TRAPFRAME hvb)] at hsome
    refine h.covered vb hvb ?_
    split at hsome
    · rename_i hsame
      rw [PageTable.leaf_congr _ hsame, (translateStore_some ht).2.1]
      exact Option.some_ne_none l
    · exact hsome
  pages := h.pages.store h.mem_lt ht
  sz_lt := h.sz_lt

end SpaceInv

end Xv6.Vm
