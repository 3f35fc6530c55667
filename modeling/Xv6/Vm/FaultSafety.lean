import Xv6.Framework.Meets
import Xv6.Vm.Munmap

/-!
# Faults that panic

`vmfault` looks whether the page is already there on the heap only. In a
mapping it relies on the hardware not to fault on a page that is present with
the permissions of the mapping, and maps it a second time if it does. A page
that may be written or executed but not read faults for ever.
-/

namespace Xv6.Vm

open Framework

variable {s s' : State}

/-! ## The panics -/

/-- The two panics that a fault can run into on the page table. -/
def TablePanic (e : Panic) : Prop := e = .remap ∨ e = .walk

instance (e : Panic) : Decidable (TablePanic e) :=
  inferInstanceAs (Decidable (_ ∨ _))

variable {va : ℕ}

theorem walkAlloc_of_lt (km : Kmem) (pt : PageTable) (hva : va < MAXVA) :
    ∃ r, walkAlloc km pt va = .ok r := by
  rw [walkAlloc, dif_pos hva]
  split
  · exact ⟨_, rfl⟩
  · split
    · exact ⟨_, rfl⟩
    · exact ⟨_, rfl⟩

variable {pt : PageTable}

/-- Mapping an absent page below `MAXVA` does not panic. -/
theorem mappages_of_absent (km : Kmem) (f : Frame) (perm : Perm)
    (haligned : va % PGSIZE = 0) (hva : va < MAXVA) (hleaf : pt.leaf va = none) :
    ∃ r, mappages km pt va f perm = .ok r := by
  obtain ⟨⟨km₁, pt₁, found⟩, hwalk⟩ := walkAlloc_of_lt km pt hva
  have hleaf₁ : pt₁.leaf va = none := by
    rw [(walkAlloc_spec hwalk).2.1.leaf, hleaf]
  rw [mappages, if_neg (not_not.mpr haligned), hwalk]
  dsimp only [bind, Except.bind]
  cases found with
  | false => exact ⟨_, rfl⟩
  | true =>
    rw [if_pos rfl, hleaf₁]
    exact ⟨_, rfl⟩

theorem mapOrFree_safe (km : Kmem) (mem : Frame) (perm : Perm)
    (haligned : va % PGSIZE = 0) (hva : va < MAXVA)
    (hleaf : s.p.pagetable.leaf va = none) :
    Meets TablePanic (mapOrFree s km va mem perm) fun _ => True := by
  obtain ⟨r, hmap⟩ := mappages_of_absent km mem perm haligned hva hleaf
  unfold mapOrFree
  rw [hmap]
  refine Meets.bind (Q := fun _ => True) (.ok trivial) ?_
  rintro ⟨km₁, pt₁, done⟩ -
  cases done with
  | true => exact .ok trivial
  | false =>
    dsimp only
    rw [if_neg Bool.false_ne_true]
    refine Meets.bind (Q := fun _ => True) ?_ fun _ _ => .ok trivial
    unfold kfree
    split
    · exact .error (by decide)
    · exact .ok trivial

/-- Below `p->sz` only the end of the address space is in the way. -/
theorem vmfaultHeap_safe (hva : va < MAXVA) :
    Meets TablePanic (vmfaultHeap s va) fun _ => True := by
  have hpage : pgrounddown va < MAXVA :=
    Nat.lt_of_le_of_lt (pgrounddown_le va) hva
  unfold vmfaultHeap ismapped
  rw [if_pos hpage]
  refine Meets.bind (Q := fun b => b =
    (s.p.pagetable.leaf (pgrounddown va)).isSome) (.ok rfl) ?_
  intro mapped hmapped
  split
  · exact .ok trivial
  · rename_i habsent
    split
    · exact .ok trivial
    · refine mapOrFree_safe _ _ _ (pgrounddown_mod va) hpage ?_
      simpa [hmapped] using habsent

variable {read : Bool}

/-- In a mapping the page must be absent, unless the store is denied. -/
theorem vmfaultVma_safe {i : Fin NVMA} (hva : va < MAXVA)
    (hleaf : (read = false ∧ (s.p.vma i).allows PROT_WRITE = false) ∨
      s.p.pagetable.leaf va = none) :
    Meets TablePanic (vmfaultVma s i va read) fun _ => True := by
  dsimp only [vmfaultVma]
  split
  · exact .ok trivial
  · rename_i hdeny
    have habsent : s.p.pagetable.leaf va = none := by
      refine hleaf.resolve_left ?_
      rintro ⟨rfl, hw⟩
      simp [hw] at hdeny
    split
    · exact .ok trivial
    · refine Meets.bind (Q := fun _ => True) ?_ ?_
      · unfold ilock
        split
        · exact .error (by decide)
        · split
          · exact .error (by decide)
          · exact .ok trivial
      · intro ip _
        refine mapOrFree_safe _ _ _ (pgrounddown_mod va)
          (Nat.lt_of_le_of_lt (pgrounddown_le va) hva) ?_
        rw [PageTable.leaf_pgrounddown, habsent]

/-! ## Runs of loads and stores -/

/-- The mappings are disjoint ranges of pages below the trap pages, and a page
that is present in one has the permissions of the mapping. -/
structure PagesAsMapped (s : State) : Prop where
  bounded : ∀ i, (s.p.vma i).valid = true → (s.p.vma i).Bounded
  apart : Apart fun i => (s.p.vma i).region
  perm : ∀ i va l, s.p.sz ≤ va → (s.p.vma i).Mem va →
    s.p.pagetable.leaf va = some l → l.perm.u = true ∧
      ((s.p.vma i).allows PROT_READ = true → l.perm.r = true) ∧
      ((s.p.vma i).allows PROT_WRITE = true → l.perm.w = true)

/-- The call of `vmfault` that an instruction leads to. -/
def faultOf (s : State) : Op → Option (ℕ × Bool)
  | .load va =>
      if (translateLoad s.p.pagetable va.toNat).isNone then
        some (va.toNat, true)
      else none
  | .store va _ =>
      if (translateStore s.p.pagetable va.toNat).isNone then
        some (va.toNat, false)
      else none
  | _ => none

/-- Loads and stores of a running process, with the rest of the system at
work meanwhile. An address below `p->sz` has to lie in the address space. In a
mapping, the page is absent, or the mapping may be read, or a store is turned
down because the mapping may not be written. -/
def AccessOk (s : State) : Op → Prop
  | .load va => s.p.state = .running ∧
      (va.toNat < s.p.sz → va.toNat < MAXVA) ∧
      ∀ i, s.p.sz ≤ va.toNat → (s.p.vma i).Mem va.toNat →
        s.p.pagetable.leaf va.toNat = none ∨
          (s.p.vma i).allows PROT_READ = true
  | .store va _ => s.p.state = .running ∧
      (va.toNat < s.p.sz → va.toNat < MAXVA) ∧
      ∀ i, s.p.sz ≤ va.toNat → (s.p.vma i).Mem va.toNat →
        s.p.pagetable.leaf va.toNat = none ∨
          (s.p.vma i).allows PROT_READ = true ∨
          (s.p.vma i).allows PROT_WRITE = false
  | .others .. => s.p.state = .running
  | _ => False

instance (s : State) : (op : Op) → Decidable (AccessOk s op)
  | .load _ => inferInstanceAs (Decidable (_ ∧ _ ∧ _))
  | .store _ _ => inferInstanceAs (Decidable (_ ∧ _ ∧ _))
  | .others _ _ => inferInstanceAs (Decidable (_ = _))
  | .mmap .. => .isFalse id
  | .munmap .. => .isFalse id
  | .sbrk .. => .isFalse id
  | .growproc _ => .isFalse id
  | .vmfault .. => .isFalse id
  | .exit => .isFalse id

/-- The search of `vmfault` finds a mapping below the trap pages. -/
theorem vmfault_safe (h : PagesAsMapped s) (hheap : va < s.p.sz → va < MAXVA)
    (hvma : ∀ i, s.p.sz ≤ va → (s.p.vma i).Mem va →
      (read = false ∧ (s.p.vma i).allows PROT_WRITE = false) ∨
        s.p.pagetable.leaf va = none) :
    Meets TablePanic (vmfault s va read) fun _ => True := by
  unfold vmfault
  split
  · rename_i hsz
    split
    · exact .ok trivial
    · rename_i i hfind
      have hm := of_decide_eq_true (findVma_some hfind)
      have hlt : va < TRAPFRAME :=
        Nat.lt_of_lt_of_le hm.2.2 (h.bounded i hm.1).end_le
      exact vmfaultVma_safe (lt_MAXVA_of_lt_TRAPFRAME hlt) (hvma i hsz hm)
  · rename_i hsz
    exact vmfaultHeap_safe (hheap (Nat.not_le.mp hsz))

theorem PagesAsMapped.of_leaf (h : PagesAsMapped s)
    (hvma : s'.p.vma = s.p.vma) (hsz : s'.p.sz = s.p.sz)
    (hperm : ∀ i va l, s.p.sz ≤ va → (s.p.vma i).Mem va →
      s'.p.pagetable.leaf va = some l → l.perm.u = true ∧
        ((s.p.vma i).allows PROT_READ = true → l.perm.r = true) ∧
        ((s.p.vma i).allows PROT_WRITE = true → l.perm.w = true)) :
    PagesAsMapped s' where
  bounded := by
    rw [hvma]
    exact h.bounded
  apart := by
    rw [hvma]
    exact h.apart
  perm := by
    rw [hvma, hsz]
    exact hperm

/-- A fault brings in a page with the permissions of its mapping. -/
theorem PagesAsMapped.fault {r : ℕ} (h : PagesAsMapped s)
    (hfault : Faulted s va read s' r) : PagesAsMapped s' := by
  have hsame := hfault.sameProc
  refine h.of_leaf hsame.vma hsame.sz ?_
  intro i vb l hsz hm hl
  have hvb : vb < MAXVA := lt_MAXVA_of_lt_TRAPFRAME
    (Nat.lt_of_lt_of_le hm.2.2 (h.bounded i hm.1).end_le)
  cases hfault with
  | unserved hleaf => exact h.perm i vb l hsz hm ((hleaf vb).symm.trans hl)
  | denied => exact h.perm i vb l hsz hm hl
  | @file j mem km pt habove hin hfilled =>
    by_cases hpage : pgrounddown vb = pgrounddown va
    · -- the page of the fault lies in one mapping
      have hmem : (s.p.vma i).Mem va :=
        VMA.mem_pgrounddown (h.bounded i hm.1) hm hpage.symm
      cases h.apart.eq_of_mem hmem hin
      have hself : pt.leaf vb = some l := hl
      rw [hfilled.self vb hpage] at hself
      cases hself
      exact ⟨rfl, fun hr => hr, fun hw => hw⟩
    · exact h.perm i vb l hsz hm ((hfilled.other vb hvb hpage).symm.trans hl)
  | @heap mem km pt hbelow hfilled =>
    by_cases hpage : pgrounddown vb = pgrounddown va
    · have hself : pt.leaf vb = some l := hl
      rw [hfilled.self vb hpage] at hself
      cases hself
      exact ⟨rfl, fun _ => rfl, fun _ => rfl⟩
    · exact h.perm i vb l hsz hm ((hfilled.other vb hvb hpage).symm.trans hl)

variable {l : Leaf}

/-- A store sets the dirty bit and leaves the rest of the PTE alone. -/
theorem PagesAsMapped.store (h : PagesAsMapped s) (b : UInt8)
    (hl : translateStore s.p.pagetable va = some l) :
    PagesAsMapped (storeThrough s va l b) := by
  obtain ⟨hva, hleaf, hu, hr, hw⟩ := translateStore_some hl
  refine h.of_leaf rfl rfl ?_
  intro i vb l' hsz hm hl'
  have hvb : vb < MAXVA := lt_MAXVA_of_lt_TRAPFRAME
    (Nat.lt_of_lt_of_le hm.2.2 (h.bounded i hm.1).end_le)
  rw [storeThrough_leaf b hl hvb] at hl'
  split at hl'
  · cases hl'
    exact ⟨hu, fun _ => hr, fun _ => hw⟩
  · exact h.perm i vb l' hsz hm hl'

theorem pagesAsMapped_usertrap (h : PagesAsMapped s)
    (hstep : (usertrapFault s va read >>= usertrapret) = .ok s')
    (hlive : s'.p.state = .running) : PagesAsMapped s' := by
  obtain ⟨s₁, s₂, r, hfault, hkill, rfl | hexit⟩ := usertrap_spec hstep
  · have h₁ := h.fault hfault
    rcases hkill with rfl | rfl
    · exact h₁
    · exact h₁.of_leaf rfl rfl h₁.perm
  · rw [kexit_zombie hexit] at hlive
    cases hlive

theorem pagesAsMapped_step (op : Op) (h : PagesAsMapped s)
    (hok : AccessOk s op) (hstep : step s op = .ok s')
    (hlive : s'.p.state = .running) : PagesAsMapped s' := by
  cases op with
  | load va =>
    dsimp only [step, userLoad] at hstep
    split at hstep
    · cases hstep
      exact h
    · exact pagesAsMapped_usertrap h hstep hlive
  | store va b =>
    dsimp only [step, userStore] at hstep
    split at hstep
    · rename_i l hl
      cases hstep
      exact h.store b hl
    · exact pagesAsMapped_usertrap h hstep hlive
  | others freelist inode =>
    cases hstep
    exact h.of_leaf rfl rfl h.perm
  | mmap => cases hok
  | munmap => cases hok
  | sbrk => cases hok
  | growproc => cases hok
  | vmfault => cases hok
  | exit => cases hok

/-- A page of the user that may be read does not fault on a load. -/
theorem translateLoad_of_perm (hva : va < MAXVA) (hl : pt.leaf va = some l)
    (hu : l.perm.u = true) (hr : l.perm.r = true) :
    (translateLoad pt va).isNone = false := by
  rw [translateLoad, if_pos hva, hl]
  simp [hu, hr]

theorem translateStore_of_perm (hva : va < MAXVA) (hl : pt.leaf va = some l)
    (hu : l.perm.u = true) (hr : l.perm.r = true) (hw : l.perm.w = true) :
    (translateStore pt va).isNone = false := by
  rw [translateStore, if_pos hva, hl]
  simp [hu, hr, hw]

/-- The fault of an allowed access is served, refused or denied. -/
theorem faultOf_safe {op : Op} (h : PagesAsMapped s) (hok : AccessOk s op)
    (hfault : faultOf s op = some (va, read)) :
    Meets TablePanic (vmfault s va read) fun _ => True := by
  have hmax : ∀ {i : Fin NVMA} {vb : ℕ}, (s.p.vma i).Mem vb → vb < MAXVA := by
    intro i vb hm
    exact lt_MAXVA_of_lt_TRAPFRAME
      (Nat.lt_of_lt_of_le hm.2.2 (h.bounded i hm.1).end_le)
  cases op with
  | load a =>
    obtain ⟨-, hheap, hvma⟩ := hok
    dsimp only [faultOf] at hfault
    split at hfault
    · rename_i hnone
      cases hfault
      refine vmfault_safe h hheap fun i hsz hm => Or.inr ?_
      rcases hvma i hsz hm with habsent | hread
      · exact habsent
      · by_contra hsome
        obtain ⟨l, hl⟩ := Option.ne_none_iff_exists'.mp hsome
        obtain ⟨hu, hr, -⟩ := h.perm i _ l hsz hm hl
        rw [translateLoad_of_perm (hmax hm) hl hu (hr hread)] at hnone
        cases hnone
    · cases hfault
  | store a b =>
    obtain ⟨-, hheap, hvma⟩ := hok
    dsimp only [faultOf] at hfault
    split at hfault
    · rename_i hnone
      cases hfault
      refine vmfault_safe h hheap fun i hsz hm => ?_
      by_cases hwrite : (s.p.vma i).allows PROT_WRITE = true
      · right
        rcases hvma i hsz hm with habsent | hread | hdeny
        · exact habsent
        · by_contra hsome
          obtain ⟨l, hl⟩ := Option.ne_none_iff_exists'.mp hsome
          obtain ⟨hu, hr, hw⟩ := h.perm i _ l hsz hm hl
          rw [translateStore_of_perm (hmax hm) hl hu (hr hread)
            (hw hwrite)] at hnone
          cases hnone
        · rw [hdeny] at hwrite
          cases hwrite
      · exact Or.inl ⟨rfl, Bool.eq_false_iff.mpr hwrite⟩
    · cases hfault
  | others => cases hfault
  | mmap => cases hok
  | munmap => cases hok
  | sbrk => cases hok
  | growproc => cases hok
  | vmfault => cases hok
  | exit => cases hok

/-- **No access panics the kernel through a mapping** in a run of loads and
stores that stay away from pages that are present but cannot be read. -/
theorem access_never_panics {ops : List Op} (hs : PagesAsMapped s)
    (hrun : Run step AccessOk s ops s') {op : Op} (hok : AccessOk s' op)
    {va : ℕ} {read : Bool} (hfault : faultOf s' op = some (va, read)) :
    vmfault s' va read ≠ .error .remap ∧
      vmfault s' va read ≠ .error .walk := by
  have hlive : s'.p.state = .running := by
    cases op with
    | load => exact hok.1
    | store => exact hok.1
    | _ => cases hfault
  have hinv : PagesAsMapped s' := by
    refine hrun.invariant
      (I := fun s => s.p.state = .running → PagesAsMapped s) ?_ ?_ hlive
    · intro s op s' h hok hstep hlive'
      refine pagesAsMapped_step op (h ?_) hok hstep hlive'
      cases op with
      | load => exact hok.1
      | store => exact hok.1
      | others => exact hok
      | _ => cases hok
    · intro _
      exact hs
  have hsafe := faultOf_safe hinv hok hfault
  exact ⟨hsafe.ne_error (Or.inl rfl), hsafe.ne_error (Or.inr rfl)⟩

/-! ## One page, with and without `PROT_READ` -/

/-- Before the first access there is no page in the mappings. -/
theorem DocInv.pagesAsMapped (h : DocInv s) (hpt : s.p.pagetable = bootTable) :
    PagesAsMapped s where
  bounded := h.layout.bounded
  apart := h.layout.apart
  perm := by
    intro i va l _ hm hl
    rw [hpt, bootTable_leaf (Nat.lt_of_lt_of_le hm.2.2
      (h.layout.bounded i hm.1).end_le)] at hl
    cases hl

/-- Two mappings that may be read and written: a page of the first is faulted
in and written, and the fault in the second does not panic. -/
theorem access_never_panics_store : ∃ s s', PagesAsMapped s ∧
    Run step AccessOk s [.store 0x3fffffd000 7, .store 0x3fffffd000 7] s' ∧
    faultOf s' (.store 0x3fffffc000 7) = some (0x3fffffc000, false) ∧
    vmfault s' 0x3fffffc000 false ≠ .error .remap ∧
    vmfault s' 0x3fffffc000 false ≠ .error .walk := by
  obtain ⟨s, hinv, hpt, htest⟩ := @exists_two_maps
    (fun s => (Run.checked step AccessOk s
      [.store 0x3fffffd000 7, .store 0x3fffffd000 7]).any fun s' : State =>
        decide (AccessOk s' (.store 0x3fffffc000 7)) &&
        decide (faultOf s' (.store 0x3fffffc000 7) =
          some (0x3fffffc000, false))) 3 2 (by decide +kernel)
  obtain ⟨s', hrun, hx⟩ := exists_some_of_any htest
  simp only [Bool.and_eq_true, decide_eq_true_eq] at hx
  have hrun := Run.of_checked hrun
  exact ⟨s, s', hinv.pagesAsMapped hpt, hrun, hx.2,
    access_never_panics (hinv.pagesAsMapped hpt) hrun hx.1 hx.2⟩

/-- A page that may be written but not read: the first store brings it in,
and the second one panics. -/
theorem store_remaps : ∃ s s', PagesAsMapped s ∧
    step s (.store 0x3fffffd000 7) = .ok s' ∧
    faultOf s' (.store 0x3fffffd000 7) = some (0x3fffffd000, false) ∧
    vmfault s' 0x3fffffd000 false = .error .remap := by
  obtain ⟨s, hinv, hpt, htest⟩ := @exists_two_maps
    (fun s => (step s (.store 0x3fffffd000 7)).toOption.any fun s' : State =>
      decide (faultOf s' (.store 0x3fffffd000 7) =
        some (0x3fffffd000, false)) &&
      endsIn (vmfault s' 0x3fffffd000 false) .remap) 2 2 (by decide +kernel)
  obtain ⟨s', hstep, hx⟩ := exists_ok_of_any htest
  simp only [Bool.and_eq_true, decide_eq_true_eq] at hx
  exact ⟨s, s', hinv.pagesAsMapped hpt, hstep, hx.1,
    eq_error_of_endsIn hx.2⟩

end Xv6.Vm
