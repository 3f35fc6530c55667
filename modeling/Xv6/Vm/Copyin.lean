import Xv6.Vm.AddressSpace

/-!
# `copyin` against the loads of the user program

`copyin` reads on behalf of the user program, so it should read what the user
program can. The two take different paths to a page: `copyin` looks it up with
`walkaddr` and faults it in at the start of the page as a store, the user
program goes through the MMU and faults at the address itself as a load. They
agree on every range unless the loads reach a page on which the paths part.
-/

namespace Xv6.Vm

open Framework

/-! ## Loads of the user program -/

/-- A load of the byte at `va` that goes through: the MMU translates it, or
`vmfault` serves the fault and the load is repeated. -/
inductive LoadByte : State → ℕ → UInt8 → State → Prop
  | hit {s : State} {va pa : ℕ}
      (translated : translateLoad s.p.pagetable va = some pa) :
      LoadByte s va (s.kmem.mem pa) s
  | fault {s s₁ s' : State} {va r : ℕ} {b : UInt8}
      (missed : translateLoad s.p.pagetable va = none)
      (served : vmfault s va true = .ok (s₁, r)) (nonzero : r ≠ 0)
      (again : LoadByte s₁ va b s') : LoadByte s va b s'

/-- Loads of `n` bytes from `va` on that all go through, and what they
return. -/
inductive Loads : State → ℕ → ℕ → List UInt8 → State → Prop
  | nil (s : State) (va : ℕ) : Loads s va 0 [] s
  | cons {s s₁ s' : State} {va n : ℕ} {b : UInt8} {bs : List UInt8}
      (first : LoadByte s va b s₁)
      (rest : Loads s₁ ((va + 1) % 2 ^ 64) n bs s') :
      Loads s va (n + 1) (b :: bs) s'

variable {s s₁ : State} {va : ℕ}

theorem LoadByte.unique {s₂ : State} {b₁ b₂ : UInt8} (h₁ : LoadByte s va b₁ s₁)
    (h₂ : LoadByte s va b₂ s₂) : b₁ = b₂ ∧ s₁ = s₂ := by
  induction h₁ with
  | hit htr =>
    cases h₂ with
    | hit htr' =>
      cases htr.symm.trans htr'
      exact ⟨rfl, rfl⟩
    | fault hmiss => cases htr.symm.trans hmiss
  | fault hmiss hserved _ _ ih =>
    cases h₂ with
    | hit htr => cases hmiss.symm.trans htr
    | fault _ hserved' _ hagain =>
      cases hserved.symm.trans hserved'
      exact ih hagain

/-- The first of a run of bytes, and the others. -/
theorem map_range_succ (f : ℕ → UInt8) (a n : ℕ) :
    ((List.range (n + 1)).map fun i => f (a + i)) =
      f a :: (List.range n).map fun i => f (a + 1 + i) := by
  rw [List.range_succ_eq_map, List.map_cons, List.map_map]
  congr 1
  refine List.map_congr_left fun i _ => ?_
  show f (a + (i + 1)) = f (a + 1 + i)
  rw [Nat.add_assoc, Nat.add_comm 1 i]

namespace Loads

variable {s s' s₁ s₂ : State} {va n m : ℕ} {bs bs₁ bs₂ : List UInt8}

theorem unique (h₁ : Loads s va n bs₁ s₁) (h₂ : Loads s va n bs₂ s₂) :
    bs₁ = bs₂ ∧ s₁ = s₂ := by
  induction h₁ generalizing bs₂ with
  | nil => cases h₂; exact ⟨rfl, rfl⟩
  | cons hfirst _ ih =>
    cases h₂ with
    | cons hfirst' hrest' =>
      obtain ⟨rfl, rfl⟩ := hfirst.unique hfirst'
      obtain ⟨rfl, rfl⟩ := ih hrest'
      exact ⟨rfl, rfl⟩

theorem append (h₁ : Loads s va n bs₁ s₁)
    (h₂ : Loads s₁ ((va + n) % 2 ^ 64) m bs₂ s') (hva : va < 2 ^ 64) :
    Loads s va (n + m) (bs₁ ++ bs₂) s' := by
  induction h₁ with
  | nil =>
    rw [Nat.add_zero, Nat.mod_eq_of_lt hva] at h₂
    rwa [Nat.zero_add]
  | @cons _ _ _ va n _ _ hfirst _ ih =>
    rw [Nat.add_right_comm]
    refine .cons hfirst (ih ?_ (Nat.mod_lt _ (by decide)))
    rwa [Nat.mod_add_mod, Nat.add_right_comm, Nat.add_assoc]

theorem split (h : Loads s va (n + m) bs s') (hva : va < 2 ^ 64) :
    ∃ bs₁ bs₂ s₁, bs = bs₁ ++ bs₂ ∧ Loads s va n bs₁ s₁ ∧
      Loads s₁ ((va + n) % 2 ^ 64) m bs₂ s' := by
  induction n generalizing s va bs with
  | zero =>
    rw [Nat.zero_add] at h
    refine ⟨[], bs, s, rfl, .nil .., ?_⟩
    rwa [Nat.add_zero, Nat.mod_eq_of_lt hva]
  | succ n ih =>
    rw [Nat.add_right_comm] at h
    cases h with
    | cons hfirst hrest =>
      obtain ⟨bs₁, bs₂, s₂, rfl, h₁, h₂⟩ :=
        ih hrest (Nat.mod_lt _ (by decide))
      refine ⟨_ :: bs₁, bs₂, s₂, rfl, .cons hfirst h₁, ?_⟩
      rwa [Nat.mod_add_mod, Nat.add_right_comm, Nat.add_assoc] at h₂

/-- The first of the loads. -/
theorem head (h : Loads s va n bs s') (hn : 0 < n) :
    ∃ b s₁, LoadByte s va b s₁ := by
  cases h with
  | nil => omega
  | cons hfirst _ => exact ⟨_, _, hfirst⟩

/-- Loads that the MMU translates to consecutive addresses. -/
theorem of_translated {pa : ℕ} (h : ∀ i < n,
    translateLoad s.p.pagetable ((va + i) % 2 ^ 64) = some (pa + i))
    (hva : va < 2 ^ 64) :
    Loads s va n ((List.range n).map fun i => s.kmem.mem (pa + i)) s := by
  induction n generalizing va pa with
  | zero => exact .nil ..
  | succ n ih =>
    have hfirst := h 0 (Nat.succ_pos n)
    rw [Nat.add_zero, Nat.mod_eq_of_lt hva] at hfirst
    have hrest : ∀ i < n, translateLoad s.p.pagetable
        (((va + 1) % 2 ^ 64 + i) % 2 ^ 64) = some (pa + 1 + i) := by
      intro i hi
      rw [Nat.mod_add_mod, Nat.add_assoc, Nat.add_assoc, Nat.add_comm 1 i]
      exact h (i + 1) (Nat.succ_lt_succ hi)
    rw [map_range_succ]
    exact .cons (.hit hfirst) (ih hrest (Nat.mod_lt _ (by decide)))

end Loads

/-! ## The two paths to one page -/

/-- The mappings are aligned and disjoint, and none has the page in which the
heap ends. -/
structure WellFormed (p : Proc) : Prop where
  bounded : ∀ i, (p.vma i).valid = true → (p.vma i).Bounded
  apart : Apart fun i => (p.vma i).region
  edge : ∀ i va, (p.vma i).Mem va → p.sz ≤ va → p.sz ≤ pgrounddown va

/-- The documented use of `mmap` and `munmap` leaves the process so. -/
theorem DocInv.wellFormed (h : DocInv s) : WellFormed s.p where
  bounded := h.layout.bounded
  apart := h.layout.apart
  edge := by
    intro i va hm _
    have hm0 := VMA.mem_pgrounddown (h.layout.bounded i hm.1) hm
      (pgrounddown_of_mod (pgrounddown_mod va))
    exact Nat.le_trans h.heap (h.layout.above i _ hm0)

variable {s' : State}

theorem SameProc.wellFormed (hs : SameProc s s') (h : WellFormed s.p) :
    WellFormed s'.p := by
  refine ⟨?_, ?_, ?_⟩
  · rw [hs.vma]
    exact h.bounded
  · rw [hs.vma]
    exact h.apart
  · rw [hs.vma, hs.sz]
    exact h.edge

/-- The pages on which `copyin` and a load at `va` part. -/
inductive BadPage (s : State) (va : ℕ) : Prop
  /-- `walkaddr` does not ask for `PTE_R`. -/
  | unreadable {l : Leaf} (lt : va < MAXVA)
      (leaf : s.p.pagetable.leaf va = some l) (user : l.perm.u = true)
      (prot : l.perm.r = false)
  /-- The fault of `copyin` counts as a store, and -1 is not 0. -/
  | denied {i : Fin NVMA}
      (miss : walkaddr s.p.pagetable (pgrounddown va) = 0)
      (above : s.p.sz ≤ pgrounddown va)
      (inside : (s.p.vma i).Mem (pgrounddown va))
      (prot : (s.p.vma i).allows PROT_WRITE = false)
  /-- The page comes in, but not for loads. -/
  | writeOnly {i : Fin NVMA} {s₁ : State} {r : ℕ}
      (absent : s.p.pagetable.leaf va = none)
      (above : s.p.sz ≤ pgrounddown va)
      (inside : (s.p.vma i).Mem (pgrounddown va))
      (write : (s.p.vma i).allows PROT_WRITE = true)
      (prot : (s.p.vma i).allows PROT_READ = false)
      (memory : vmfault s va true = .ok (s₁, r)) (nonzero : r ≠ 0)
  /-- The page starts in the heap, the load is past its end. -/
  | pastHeap {s₁ : State} {r : ℕ}
      (absent : s.p.pagetable.leaf va = none)
      (start : pgrounddown va < s.p.sz) (past : s.p.sz ≤ va)
      (memory : vmfault s (pgrounddown va) true = .ok (s₁, r))
      (nonzero : r ≠ 0)

/-- Both paths lead to the page `l`, and leave the same state. -/
structure Served (s : State) (va : ℕ) (s₁ : State) (l : Leaf) : Prop where
  lt : va < MAXVA
  page : copyinPage s (pgrounddown va) = .ok (s₁, l.frame.pa)
  leaf : s₁.p.pagetable.leaf va = some l
  user : l.perm.u = true
  load : LoadByte s va (s₁.kmem.mem (l.frame.pa + va % PGSIZE)) s₁
  readable : l.perm.r = true
  same : SameProc s s₁

/-- Neither path leads to a page. -/
structure Refused (s : State) (va : ℕ) : Prop where
  page : ∀ s₁ pa, copyinPage s (pgrounddown va) = .ok (s₁, pa) → pa = 0
  load : ∀ b s₁, ¬ LoadByte s va b s₁

variable {pt : PageTable} {l : Leaf}

theorem translateLoad_of_leaf (hva : va < MAXVA) (hleaf : pt.leaf va = some l) :
    translateLoad pt va = if l.perm.u && l.perm.r then
      some (l.frame.pa + va % PGSIZE) else none := by
  rw [translateLoad, if_pos hva, hleaf]

theorem translateLoad_of_none (hleaf : pt.leaf va = none) :
    translateLoad pt va = none := by
  rw [translateLoad, hleaf, ite_self]

theorem translateLoad_of_le (hva : MAXVA ≤ va) :
    translateLoad pt va = none := by
  rw [translateLoad, if_neg (Nat.not_lt.mpr hva)]

/-- A load fails when `vmfault` does not serve it. -/
theorem not_loadByte (hmiss : translateLoad s.p.pagetable va = none)
    (hzero : ∀ s₁ r, vmfault s va true = .ok (s₁, r) → r = 0) (b : UInt8)
    (s' : State) : ¬ LoadByte s va b s' := by
  intro h
  cases h with
  | hit htr => cases hmiss.symm.trans htr
  | fault _ hserved hr _ => exact hr (hzero _ _ hserved)

theorem Frame.pa_ne_negOne (f : Frame) : f.pa ≠ negOne := by
  have := f.pa_add_le
  unfold PHYSTOP KERNBASE negOne at *
  omega

variable {r : ℕ}

/-- The fault of a load never returns -1. -/
theorem vmfault_read_ne_negOne (h : vmfault s va true = .ok (s', r)) :
    r ≠ negOne := by
  cases vmfault_spec h with
  | unserved => decide
  | denied _ _ hstore _ => cases hstore
  | file => exact Frame.pa_ne_negOne _
  | heap => exact Frame.pa_ne_negOne _

/-- A page that is there but not for the user's loads stays so. -/
theorem not_loadByte_of_leaf (hva : va < MAXVA)
    (hleaf : s.p.pagetable.leaf va = some l)
    (hperm : (l.perm.u && l.perm.r) = false) (b : UInt8) (s' : State) :
    ¬ LoadByte s va b s' := by
  refine not_loadByte ?_ ?_ b s'
  · rw [translateLoad_of_leaf hva hleaf, hperm]
    rfl
  · intro s₁ r hr
    rcases vmfault_of_leaf hleaf hr with ⟨hzero, -⟩ | hneg
    · exact hzero
    · exact absurd hneg (vmfault_read_ne_negOne hr)

theorem findVma_page {p : Proc} (h : WellFormed p) (va : ℕ) :
    (findVma p.vma fun v => decide (v.Mem (pgrounddown va))) =
      findVma p.vma fun v => decide (v.Mem va) := by
  have hpage := pgrounddown_of_mod (pgrounddown_mod va)
  unfold findVma
  congr 1
  funext i
  refine decide_eq_decide.mpr ⟨fun hm => ?_, fun hm => ?_⟩
  · exact VMA.mem_pgrounddown (h.bounded i hm.1) hm hpage.symm
  · exact VMA.mem_pgrounddown (h.bounded i hm.1) hm hpage

/-- A fault at the start of the page is the fault at `va`, unless the heap
ends between the two. -/
theorem vmfault_page (h : WellFormed s.p) (read : Bool)
    (hside : s.p.sz ≤ pgrounddown va ∨ va < s.p.sz) :
    vmfault s (pgrounddown va) read = vmfault s va read := by
  have hpage := pgrounddown_of_mod (pgrounddown_mod va)
  have hle := pgrounddown_le va
  unfold vmfault
  rcases hside with habove | hbelow
  · rw [if_pos habove, if_pos (Nat.le_trans habove hle), findVma_page h]
    simp only [vmfaultVma, hpage]
  · rw [if_neg (by omega), if_neg (by omega)]
    simp only [vmfaultHeap, hpage]

/-- A store faults like a load where no mapping forbids it. -/
theorem vmfault_store (h : ∀ i, s.p.sz ≤ va →
    (s.p.vma i).Mem va → (s.p.vma i).allows PROT_WRITE = true) :
    vmfault s va false = vmfault s va true := by
  unfold vmfault
  split
  · rename_i habove
    cases hfind : findVma s.p.vma fun v => decide (v.Mem va) with
    | none => rfl
    | some i =>
      have hw := h i habove (of_decide_eq_true (findVma_some hfind))
      simp only [vmfaultVma, hw, Bool.not_true, Bool.and_false]
  · rfl

theorem vmfault_unmapped (read : Bool) (habove : s.p.sz ≤ va)
    (h : ∀ i, ¬ (s.p.vma i).Mem va) : vmfault s va read = .ok (s, 0) := by
  rw [vmfault, if_pos habove]
  cases hfind : findVma s.p.vma fun v => decide (v.Mem va) with
  | none => rfl
  | some i => exact absurd (of_decide_eq_true (findVma_some hfind)) (h i)

variable {read : Bool}

/-- No fault is served past the last address. -/
theorem vmfault_of_le_MAXVA (h : WellFormed s.p) (hva : MAXVA ≤ va)
    (hr : vmfault s va read = .ok (s', r)) : r = 0 := by
  have hin : ∀ i, ¬ (s.p.vma i).Mem va := by
    intro i hm
    have hend := (h.bounded i hm.1).end_le
    have := hm.2.2
    unfold TRAPFRAME TRAMPOLINE at hend
    omega
  have hpage : ¬ pgrounddown va < MAXVA := by
    rw [pgrounddown_lt_iff (by decide)]
    omega
  cases vmfault_spec hr with
  | unserved => rfl
  | denied _ hm => exact absurd hm (hin _)
  | file _ hm => exact absurd hm (hin _)
  | heap _ hfilled => exact absurd hfilled.lt hpage

theorem vmfault_denied {i : Fin NVMA} (h : WellFormed s.p)
    (habove : s.p.sz ≤ va) (hmem : (s.p.vma i).Mem va)
    (hprot : (s.p.vma i).allows PROT_WRITE = false) :
    vmfault s va false = .ok (setkilled s, negOne) := by
  obtain ⟨j, hfind⟩ := @findVma_isSome s.p.vma
    (fun v => decide (v.Mem va)) i (decide_eq_true hmem)
  have hj := of_decide_eq_true (findVma_some hfind)
  cases h.apart.eq_of_mem hmem hj
  rw [vmfault, if_pos habove]
  simp only [hfind, vmfaultVma, hprot, Bool.not_false, Bool.and_true, if_true]
  rfl

/-- A served fault brings in a page of the user. -/
theorem vmfault_served (hr : vmfault s va read = .ok (s₁, r)) (hzero : r ≠ 0)
    (hneg : r ≠ negOne) : ∃ l, r = l.frame.pa ∧ l.perm.u = true ∧
      (∀ vb, pgrounddown vb = pgrounddown va →
        s₁.p.pagetable.leaf vb = some l) ∧
      (l.perm.r = true ∨ ∃ i, (s.p.vma i).Mem va ∧ s.p.sz ≤ va ∧
        (s.p.vma i).allows PROT_READ = false) := by
  cases vmfault_spec hr with
  | unserved => exact absurd rfl hzero
  | denied => exact absurd rfl hneg
  | @file i mem _ _ habove hm hfilled =>
    refine ⟨⟨mem, (s.p.vma i).perm⟩, rfl, rfl, hfilled.self, ?_⟩
    cases hread : (s.p.vma i).allows PROT_READ with
    | true => exact Or.inl hread
    | false => exact Or.inr ⟨i, hm, habove, hread⟩
  | @heap mem _ _ _ hfilled =>
    exact ⟨⟨mem, heapPerm⟩, rfl, rfl, hfilled.self, Or.inl rfl⟩

theorem copyinPage_of_miss (h : walkaddr s.p.pagetable va = 0) :
    copyinPage s va = vmfault s va false := by
  rw [copyinPage, if_pos h]

theorem walkaddr_of_none (h : pt.leaf va = none) : walkaddr pt va = 0 := by
  rw [walkaddr, h, ite_self]

/-- A page that is there. -/
theorem page_present (hva : va < MAXVA) (hleaf : s.p.pagetable.leaf va = some l) :
    Served s va s l ∨ Refused s va ∨ BadPage s va := by
  have hva0 := Nat.lt_of_le_of_lt (pgrounddown_le va) hva
  have hleaf0 := (PageTable.leaf_pgrounddown s.p.pagetable va).trans hleaf
  have hwalk := walkaddr_of_leaf hva0 hleaf0
  have htr := translateLoad_of_leaf hva hleaf
  cases hu : l.perm.u with
  | true =>
    cases hr : l.perm.r with
    | true =>
      rw [hu, hr] at htr
      rw [hu, if_pos rfl] at hwalk
      refine Or.inl ⟨hva, ?_, hleaf, hu, .hit htr, hr,
        ⟨rfl, rfl, rfl, rfl, rfl, rfl, rfl, rfl, rfl⟩⟩
      rw [copyinPage, hwalk, if_neg l.frame.pa_ne_zero]
    | false => exact Or.inr (Or.inr (.unreadable hva hleaf hu hr))
  | false =>
    rw [hu, if_neg Bool.false_ne_true] at hwalk
    by_cases hdeny : ∃ i, s.p.sz ≤ pgrounddown va ∧
        (s.p.vma i).Mem (pgrounddown va) ∧
        (s.p.vma i).allows PROT_WRITE = false
    · obtain ⟨i, habove, hm, hprot⟩ := hdeny
      exact Or.inr (Or.inr (.denied hwalk habove hm hprot))
    · refine Or.inr (Or.inl ⟨?_, not_loadByte_of_leaf hva hleaf ?_⟩)
      · intro s₁ pa hpage
        rw [copyinPage_of_miss hwalk] at hpage
        cases vmfault_spec hpage with
        | unserved => rfl
        | denied habove hm _ hprot =>
          exact absurd ⟨_, habove, hm, hprot⟩ hdeny
        | file _ _ hfilled =>
          have := hfilled.fresh
          rw [PageTable.leaf_pgrounddown, hleaf0] at this
          cases this
        | heap _ hfilled =>
          have := hfilled.fresh
          rw [PageTable.leaf_pgrounddown, hleaf0] at this
          cases this
      · rw [hu, Bool.false_and]

/-- A page that both paths fault in alike. -/
theorem page_faulted (hva : va < MAXVA) (hleaf : s.p.pagetable.leaf va = none)
    (hsame : vmfault s (pgrounddown va) false = vmfault s va true)
    (hread : ∀ i, (s.p.vma i).Mem va → s.p.sz ≤ va →
      (s.p.vma i).allows PROT_READ = true ∨
      ∀ s₁ r, vmfault s va true = .ok (s₁, r) → r = 0) :
    (∃ s₁ l, Served s va s₁ l) ∨ Refused s va := by
  have hmiss := translateLoad_of_none hleaf
  have hwalk := walkaddr_of_none
    ((PageTable.leaf_pgrounddown s.p.pagetable va).trans hleaf)
  by_cases hserved : ∃ s₁ r, vmfault s va true = .ok (s₁, r) ∧ r ≠ 0
  · obtain ⟨s₁, r, hr, hzero⟩ := hserved
    obtain ⟨l, rfl, hu, hl, hprot⟩ :=
      vmfault_served hr hzero (vmfault_read_ne_negOne hr)
    have hlr : l.perm.r = true := by
      rcases hprot with hlr | ⟨i, hm, habove, hdeny⟩
      · exact hlr
      · rcases hread i hm habove with hallow | hnone
        · rw [hallow] at hdeny
          cases hdeny
        · exact absurd (hnone _ _ hr) hzero
    have htr := translateLoad_of_leaf hva (hl va rfl)
    rw [hu, hlr] at htr
    refine Or.inl ⟨s₁, l, hva, ?_, hl va rfl, hu,
      .fault hmiss hr hzero (.hit htr), hlr, (vmfault_spec hr).sameProc⟩
    rw [copyinPage_of_miss hwalk, hsame, hr]
  · have hzero : ∀ s₁ r, vmfault s va true = .ok (s₁, r) → r = 0 := by
      intro s₁ r hr
      by_contra hne
      exact hserved ⟨s₁, r, hr, hne⟩
    refine Or.inr ⟨?_, not_loadByte hmiss hzero⟩
    intro s₁ pa hpage
    rw [copyinPage_of_miss hwalk, hsame] at hpage
    exact hzero _ _ hpage

/-- A load past the end of the heap, in the page where the heap ends. -/
theorem vmfault_pastHeap (h : WellFormed s.p) (read : Bool)
    (hstart : pgrounddown va < s.p.sz) (hpast : s.p.sz ≤ va) :
    vmfault s va read = .ok (s, 0) := by
  refine vmfault_unmapped read hpast fun i hm => ?_
  have := h.edge i va hm hpast
  omega

/-- A page that is not there. -/
theorem page_absent (h : WellFormed s.p) (hva : va < MAXVA)
    (hleaf : s.p.pagetable.leaf va = none) :
    (∃ s₁ l, Served s va s₁ l) ∨ Refused s va ∨ BadPage s va := by
  have hpage := pgrounddown_of_mod (pgrounddown_mod va)
  have hwalk := walkaddr_of_none
    ((PageTable.leaf_pgrounddown s.p.pagetable va).trans hleaf)
  by_cases hbad : BadPage s va
  · exact Or.inr (Or.inr hbad)
  by_cases hside : s.p.sz ≤ pgrounddown va ∨ va < s.p.sz
  · have hsame : vmfault s (pgrounddown va) false = vmfault s va true := by
      rw [← vmfault_page h true hside]
      refine vmfault_store fun i habove hm => ?_
      by_contra hprot
      exact hbad (.denied hwalk habove hm (Bool.not_eq_true _ ▸ hprot))
    refine (page_faulted hva hleaf hsame ?_).imp_right Or.inl
    intro i hm habove
    have hm0 := VMA.mem_pgrounddown (h.bounded i hm.1) hm hpage
    have habove0 := h.edge i va hm habove
    by_contra hprot
    rw [not_or, Bool.not_eq_true] at hprot
    obtain ⟨hprot, hmemory⟩ := hprot
    push Not at hmemory
    obtain ⟨s₁, r, hr, hzero⟩ := hmemory
    cases hw : (s.p.vma i).allows PROT_WRITE with
    | true => exact hbad (.writeOnly hleaf habove0 hm0 hw hprot hr hzero)
    | false => exact hbad (.denied hwalk habove0 hm0 hw)
  · -- the heap ends inside the page, before `va`
    rw [not_or, Nat.not_le, Nat.not_lt] at hside
    obtain ⟨hstart, hpast⟩ := hside
    have hload := vmfault_pastHeap h true hstart hpast
    refine Or.inr (Or.inl ⟨?_, not_loadByte (translateLoad_of_none hleaf) ?_⟩)
    · intro s₁ pa hcopy
      rw [copyinPage_of_miss hwalk, vmfault_store
        (fun _ habove => absurd habove (Nat.not_le.mpr hstart))] at hcopy
      by_contra hzero
      exact hbad (.pastHeap hleaf hstart hpast hcopy hzero)
    · intro s₁ r hr
      cases hload.symm.trans hr
      rfl

/-- **On every page both paths lead to the same bytes, or neither leads to
any, or the page is bad.** -/
theorem page_outcomes (h : WellFormed s.p) (va : ℕ) :
    (∃ s₁ l, Served s va s₁ l) ∨ Refused s va ∨ BadPage s va := by
  by_cases hva : va < MAXVA
  · cases hleaf : s.p.pagetable.leaf va with
    | none => exact page_absent h hva hleaf
    | some l =>
      exact (page_present hva hleaf).imp_left fun hs => ⟨s, l, hs⟩
  · have hle := Nat.not_lt.mp hva
    have hle0 : MAXVA ≤ pgrounddown va :=
      (le_pgrounddown_iff (by decide)).mpr hle
    refine Or.inr (Or.inl ⟨?_, not_loadByte (translateLoad_of_le hle) ?_⟩)
    · intro s₁ pa hpage
      rw [copyinPage_of_miss (by rw [walkaddr, if_neg (by omega)])] at hpage
      exact vmfault_of_le_MAXVA h hle0 hpage
    · intro s₁ r hr
      exact vmfault_of_le_MAXVA h hle hr

/-! ## Agreement on a range -/

/-- `copyin` returns 0 just when the loads go through, it then has what they
return, and it only reads through pages of the user. -/
structure Agrees (s : State) (srcva len : ℕ) : Prop where
  returns : (copyin s srcva len).ret = .ok true ↔
    ∃ bs s', Loads s srcva len bs s'
  bytes : ∀ bs s', (copyin s srcva len).ret = .ok true →
    Loads s srcva len bs s' → (copyin s srcva len).dst = bs
  reads : ∀ va0 pa0, (va0, pa0) ∈ (copyin s srcva len).reads →
    va0 < MAXVA ∧ ∃ l, (copyin s srcva len).st.p.pagetable.leaf va0 = some l ∧
      l.perm.u = true ∧ l.frame.pa = pa0

/-- The loads reach no bad page. -/
def NoBadPage (s : State) (srcva len : ℕ) : Prop :=
  ∀ n < len, (n = 0 ∨ (srcva + n) % PGSIZE = 0) →
    ∀ bs s₁, Loads s srcva n bs s₁ → ¬ BadPage s₁ ((srcva + n) % 2 ^ 64)

theorem Faulted.leaf_kept {vb : ℕ} (h : Faulted s va read s' r)
    (hvb : vb < MAXVA) (hleaf : s.p.pagetable.leaf vb = some l) :
    s'.p.pagetable.leaf vb = some l := by
  have hfilled : ∀ {mem perm km pt},
      Filled s (pgrounddown va) mem perm km pt → pt.leaf vb = some l := by
    intro mem perm km pt hf
    rw [hf.other vb hvb, hleaf]
    intro hsame
    have := hf.fresh
    rw [← hsame, PageTable.leaf_pgrounddown, hleaf] at this
    cases this
  cases h with
  | unserved hl => exact (hl vb).trans hleaf
  | denied => exact hleaf
  | file _ _ hf => exact hfilled hf
  | heap _ hf => exact hfilled hf

theorem copyinPage_leaf_kept {vb pa : ℕ} (h : copyinPage s va = .ok (s', pa))
    (hvb : vb < MAXVA) (hleaf : s.p.pagetable.leaf vb = some l) :
    s'.p.pagetable.leaf vb = some l := by
  unfold copyinPage at h
  split at h
  · exact (vmfault_spec h).leaf_kept hvb hleaf
  · cases h
    exact hleaf

/-- `copyin` takes no page away. -/
theorem copyin_leaf_kept {s : State} {va vb len : ℕ} {l : Leaf}
    (hvb : vb < MAXVA) (hleaf : s.p.pagetable.leaf vb = some l) :
    (copyin s va len).st.p.pagetable.leaf vb = some l := by
  induction len using Nat.strong_induction_on generalizing s va with
  | h len ih =>
    rw [copyin]
    split
    · exact hleaf
    · dsimp only
      split
      · exact hleaf
      · rename_i s₁ pa0 hpage
        have hleaf₁ := copyinPage_leaf_kept hpage hvb hleaf
        split
        · exact hleaf₁
        · split
          · exact hleaf₁
          · refine ih _ ?_ hleaf₁
            have := lt_pgrounddown_add va
            have := pgrounddown_le va
            unfold PGSIZE at *
            omega

theorem agrees_zero (s : State) (va : ℕ) : Agrees s va 0 := by
  refine ⟨?_, ?_, ?_⟩
  · rw [copyin_zero]
    exact ⟨fun _ => ⟨[], s, .nil ..⟩, fun _ => rfl⟩
  · intro bs s' _ hloads
    cases hloads
    rw [copyin_zero]
  · intro va0 pa0 hmem
    rw [copyin_zero] at hmem
    cases hmem

theorem Refused.agrees (h : Refused s va) (len : ℕ) : Agrees s va len := by
  rcases Nat.eq_zero_or_pos len with rfl | hlen
  · exact agrees_zero s va
  have hcopy : (copyin s va len).reads = [] ∧
      (copyin s va len).ret ≠ .ok true := by
    rw [copyin, if_neg (Nat.ne_of_gt hlen)]
    dsimp only
    split
    · exact ⟨rfl, by simp⟩
    · rename_i s₁ pa0 hpage
      rw [if_pos (h.page s₁ pa0 hpage)]
      exact ⟨rfl, by simp⟩
  refine ⟨⟨fun hret => absurd hret hcopy.2, ?_⟩,
    fun _ _ hret => absurd hret hcopy.2, ?_⟩
  · rintro ⟨bs, s', hloads⟩
    obtain ⟨b, s₁, hb⟩ := hloads.head hlen
    exact absurd hb (h.load b s₁)
  · intro va0 pa0 hmem
    rw [hcopy.1] at hmem
    cases hmem

namespace Served

variable {s s₁ : State} {va n k : ℕ} {l : Leaf}

theorem translated (h : Served s va s₁ l) {i : ℕ}
    (hi : va % PGSIZE + i < PGSIZE) :
    translateLoad s₁.p.pagetable ((va + i) % 2 ^ 64) =
      some (l.frame.pa + va % PGSIZE + i) := by
  have hlt := h.lt
  have hpage : pgrounddown (va + i) = pgrounddown va := by
    unfold pgrounddown PGSIZE at *
    omega
  have hmax : va + i < MAXVA := by
    rw [← pgrounddown_lt_iff (by decide), hpage, pgrounddown_lt_iff (by decide)]
    exact hlt
  have hmod : (va + i) % PGSIZE = va % PGSIZE + i := by
    unfold PGSIZE at *
    omega
  rw [Nat.mod_eq_of_lt (by unfold MAXVA at hmax; omega),
    translateLoad_of_leaf hmax
      ((s₁.p.pagetable.leaf_congr hpage).trans h.leaf), h.user, h.readable,
    hmod, Nat.add_assoc]
  rfl

/-- The loads from `va` up to the end of the page. -/
theorem loads (h : Served s va s₁ l) (hn : 0 < n)
    (hfit : va % PGSIZE + n ≤ PGSIZE) :
    Loads s va n (pageBytes s₁.kmem l.frame va n) s₁ := by
  obtain ⟨m, rfl⟩ := Nat.exists_eq_succ_of_ne_zero (Nat.ne_of_gt hn)
  have hrest : ∀ i < m, translateLoad s₁.p.pagetable
      (((va + 1) % 2 ^ 64 + i) % 2 ^ 64) =
        some (l.frame.pa + va % PGSIZE + 1 + i) := by
    intro i hi
    have hnext := h.translated (i := i + 1) (by omega)
    rw [← Nat.add_assoc, Nat.add_right_comm va, ← Nat.add_assoc,
      Nat.add_right_comm _ i 1] at hnext
    rwa [Nat.mod_add_mod]
  rw [pageBytes, map_range_succ]
  exact .cons h.load (.of_translated hrest (Nat.mod_lt _ (by decide)))

theorem copyin_add (h : Served s va s₁ l) (hn : 0 < n)
    (hfit : va % PGSIZE + n = PGSIZE ∨ va % PGSIZE + n ≤ PGSIZE ∧ k = 0) :
    copyin s va (n + k) =
      ⟨(copyin s₁ ((va + n) % 2 ^ 64) k).st,
        pageBytes s₁.kmem l.frame va n ++
          (copyin s₁ ((va + n) % 2 ^ 64) k).dst,
        (pgrounddown va, l.frame.pa) ::
          (copyin s₁ ((va + n) % 2 ^ 64) k).reads,
        (copyin s₁ ((va + n) % 2 ^ 64) k).ret⟩ := by
  have hmin : min (PGSIZE - va % PGSIZE) (n + k) = n := by omega
  have hrest : copyin s₁ ((pgrounddown va + PGSIZE) % 2 ^ 64) k =
      copyin s₁ ((va + n) % 2 ^ 64) k ∨ k = 0 := by
    rcases hfit with hend | ⟨-, hk⟩
    · left
      congr 2
      have := sub_pgrounddown va
      have := pgrounddown_le va
      omega
    · exact Or.inr hk
  rw [copyin_served (by omega) h.page]
  simp only [hmin, Nat.add_sub_cancel_left]
  rcases hrest with hrest | rfl
  · rw [hrest]
  · simp only [copyin_zero]

/-- Agreement past a page that both paths lead to. -/
theorem agrees_add (h : Served s va s₁ l) (hn : 0 < n)
    (hfit : va % PGSIZE + n = PGSIZE ∨ va % PGSIZE + n ≤ PGSIZE ∧ k = 0) :
    Agrees s va (n + k) ↔ Agrees s₁ ((va + n) % 2 ^ 64) k := by
  have hlt := h.lt
  have hva : va < 2 ^ 64 := by
    unfold MAXVA at hlt
    omega
  have hva0 := Nat.lt_of_le_of_lt (pgrounddown_le va) hlt
  have hpage := h.loads hn (by omega)
  have hcopy := h.copyin_add hn hfit
  have hleaf := @copyin_leaf_kept s₁ ((va + n) % 2 ^ 64) _ k l hva0
    ((PageTable.leaf_pgrounddown ..).trans h.leaf)
  have hloads : ∀ bs s', Loads s va (n + k) bs s' ↔ ∃ bs₂,
      bs = pageBytes s₁.kmem l.frame va n ++ bs₂ ∧
      Loads s₁ ((va + n) % 2 ^ 64) k bs₂ s' := by
    intro bs s'
    constructor
    · intro hl
      obtain ⟨bs₁, bs₂, s₂, rfl, h₁, h₂⟩ := hl.split hva
      obtain ⟨rfl, rfl⟩ := h₁.unique hpage
      exact ⟨bs₂, rfl, h₂⟩
    · rintro ⟨bs₂, rfl, h₂⟩
      exact hpage.append h₂ hva
  constructor
  · intro ha
    obtain ⟨hret, hbytes, hreads⟩ := ha
    rw [hcopy] at hret hbytes hreads
    refine ⟨hret.trans ?_, ?_, ?_⟩
    · constructor
      · rintro ⟨bs, s', hl⟩
        obtain ⟨bs₂, -, h₂⟩ := (hloads bs s').mp hl
        exact ⟨bs₂, s', h₂⟩
      · rintro ⟨bs₂, s', h₂⟩
        exact ⟨_, s', (hloads _ s').mpr ⟨bs₂, rfl, h₂⟩⟩
    · intro bs₂ s' hr h₂
      exact List.append_cancel_left
        (hbytes _ s' hr ((hloads _ s').mpr ⟨bs₂, rfl, h₂⟩))
    · intro va0 pa0 hmem
      exact hreads va0 pa0 (List.mem_cons_of_mem _ hmem)
  · rintro ⟨hret, hbytes, hreads⟩
    refine ⟨?_, ?_, ?_⟩
    · rw [hcopy]
      refine hret.trans ⟨?_, ?_⟩
      · rintro ⟨bs₂, s', h₂⟩
        exact ⟨_, s', (hloads _ s').mpr ⟨bs₂, rfl, h₂⟩⟩
      · rintro ⟨bs, s', hl⟩
        obtain ⟨bs₂, -, h₂⟩ := (hloads bs s').mp hl
        exact ⟨bs₂, s', h₂⟩
    · intro bs s' hr hl
      rw [hcopy] at hr ⊢
      obtain ⟨bs₂, rfl, h₂⟩ := (hloads bs s').mp hl
      exact congrArg _ (hbytes bs₂ s' hr h₂)
    · intro va0 pa0 hmem
      rw [hcopy] at hmem ⊢
      rcases List.mem_cons.mp hmem with heq | hmem
      · cases heq
        exact ⟨hva0, l, hleaf, h.user, rfl⟩
      · exact hreads va0 pa0 hmem

/-- A bad page further on is one of the rest. -/
theorem noBadPage_iff (h : Served s va s₁ l)
    (hn : va % PGSIZE + n = PGSIZE) {len : ℕ} (hlen : 0 < len) :
    NoBadPage s va len ↔
      ¬ BadPage s va ∧ NoBadPage s₁ ((va + n) % 2 ^ 64) (len - n) := by
  have hlt := h.lt
  have hva : va < 2 ^ 64 := by
    unfold MAXVA at hlt
    omega
  have hmod := Nat.mod_lt va (show 0 < PGSIZE by decide)
  have hpage := h.loads (n := n) (by omega) (by omega)
  have hpage0 : (va + n) % PGSIZE = 0 := by
    unfold PGSIZE at *
    omega
  have hdvd : ∀ m, ((va + n) % 2 ^ 64 + m) % PGSIZE = (va + n + m) % PGSIZE := by
    intro m
    unfold PGSIZE
    omega
  constructor
  · intro hall
    refine ⟨?_, ?_⟩
    · have := hall 0 hlen (Or.inl rfl) [] s (.nil ..)
      rwa [Nat.add_zero, Nat.mod_eq_of_lt hva] at this
    · intro m hm hstart bs s₂ hloads
      rw [Nat.mod_add_mod, Nat.add_assoc]
      refine hall (n + m) (by omega) (Or.inr ?_) _ s₂
        (hpage.append hloads hva)
      rcases hstart with rfl | hstart
      · exact hpage0
      · rwa [hdvd, Nat.add_assoc] at hstart
  · rintro ⟨hfirst, hrest⟩ m hm hstart bs s₂ hloads
    rcases hstart with rfl | hstart
    · cases hloads
      rwa [Nat.add_zero, Nat.mod_eq_of_lt hva]
    · by_cases hzero : m = 0
      · subst hzero
        cases hloads
        rwa [Nat.add_zero, Nat.mod_eq_of_lt hva]
      · have hge : n ≤ m := by
          unfold PGSIZE at *
          omega
        obtain ⟨k, rfl⟩ := Nat.exists_eq_add_of_le hge
        obtain ⟨bs₁, bs₂, s₃, -, h₁, h₂⟩ := hloads.split hva
        obtain ⟨-, rfl⟩ := h₁.unique hpage
        have := hrest k (by omega) (Or.inr ?_) bs₂ s₂ h₂
        · rwa [Nat.mod_add_mod, Nat.add_assoc] at this
        · rwa [hdvd, Nat.add_assoc]

end Served

/-- `copyin` of one byte whose page came in: it goes through. -/
theorem ret_of_page {f : Frame}
    (h : copyinPage s (pgrounddown va) = .ok (s₁, f.pa)) :
    (copyin s va 1).ret = .ok true := by
  have hmod := Nat.mod_lt va (show 0 < PGSIZE by decide)
  have hmin : min (PGSIZE - va % PGSIZE) 1 = 1 := by omega
  rw [copyin_served Nat.one_ne_zero h]
  simp only [hmin, Nat.sub_self, copyin_zero]

/-- The two part at a page that `copyin` gets and the loads do not. -/
theorem not_agrees_of_page {s s₁ : State} {va : ℕ} {f : Frame}
    (hpage : copyinPage s (pgrounddown va) = .ok (s₁, f.pa))
    (hload : ∀ b s', ¬ LoadByte s va b s') : ¬ Agrees s va 1 := by
  intro ha
  obtain ⟨bs, s', hloads⟩ := ha.returns.mp (ret_of_page hpage)
  obtain ⟨b, s₂, hb⟩ := hloads.head Nat.one_pos
  exact hload b s₂ hb

theorem not_agrees_of_denied {s s₁ : State} {va : ℕ}
    (hpage : copyinPage s (pgrounddown va) = .ok (s₁, negOne)) :
    ¬ Agrees s va 1 := by
  intro ha
  have hmod := Nat.mod_lt va (show 0 < PGSIZE by decide)
  have hread := kread_negOne s₁.kmem hmod
    (show 0 < min (PGSIZE - va % PGSIZE) 1 by omega)
  have hcopy : (copyin s va 1).reads = [(pgrounddown va, negOne)] := by
    rw [copyin, if_neg Nat.one_ne_zero]
    simp only [hpage, sub_pgrounddown, show negOne ≠ 0 by decide, if_false,
      hread]
  obtain ⟨-, l, -, -, hpa⟩ := ha.reads (pgrounddown va) negOne (by simp [hcopy])
  exact l.frame.pa_ne_negOne hpa

/-- **On a bad page the two disagree about its first byte.** -/
theorem BadPage.not_agrees (h : WellFormed s.p) (hbad : BadPage s va) :
    ¬ Agrees s va 1 := by
  have hleaf0 := PageTable.leaf_pgrounddown s.p.pagetable va
  cases hbad with
  | @unreadable l hva hleaf hu hprot =>
    refine @not_agrees_of_page s s va l.frame ?_
      (not_loadByte_of_leaf hva hleaf (by rw [hprot, Bool.and_false]))
    rw [copyinPage, walkaddr_of_leaf
      (Nat.lt_of_le_of_lt (pgrounddown_le va) hva) (hleaf0.trans hleaf), hu,
      if_pos rfl, if_neg l.frame.pa_ne_zero]
  | denied hmiss habove hm hprot =>
    refine @not_agrees_of_denied s (setkilled s) va ?_
    rw [copyinPage_of_miss hmiss, vmfault_denied h habove hm hprot]
  | @writeOnly i s₁ r hleaf habove hm hwrite hprot hr hzero =>
    have hwalk := walkaddr_of_none (hleaf0.trans hleaf)
    have hsame : vmfault s (pgrounddown va) false = .ok (s₁, r) := by
      rw [← hr, ← vmfault_page h true (Or.inl habove)]
      refine vmfault_store fun j _ hj => ?_
      cases h.apart.eq_of_mem hm hj
      exact hwrite
    have hmva := VMA.mem_pgrounddown (h.bounded i hm.1) hm
      (pgrounddown_of_mod (pgrounddown_mod va)).symm
    cases vmfault_spec hr with
    | unserved => exact absurd rfl hzero
    | denied _ _ hstore => cases hstore
    | @file j mem _ _ _ hj hfilled =>
      cases h.apart.eq_of_mem hmva hj
      refine not_agrees_of_page
        ((copyinPage_of_miss hwalk).trans hsame) ?_
      intro b s' hb
      have hva : va < MAXVA := (pgrounddown_lt_iff (by decide)).mp hfilled.lt
      cases hb with
      | hit htr => cases (translateLoad_of_none hleaf).symm.trans htr
      | fault _ hserved _ hagain =>
        cases hr.symm.trans hserved
        -- the page is there now, without `PTE_R`
        exact not_loadByte_of_leaf hva (hfilled.self va rfl)
          (show (true && _) = false by rw [Bool.true_and]; exact hprot)
          _ _ hagain
    | heap hbelow =>
      have := pgrounddown_le va
      omega
  | @pastHeap s₁ r hleaf hstart hpast hr hzero =>
    obtain ⟨l, rfl, -⟩ := vmfault_served hr hzero (vmfault_read_ne_negOne hr)
    refine @not_agrees_of_page s s₁ va l.frame ?_
      (not_loadByte (translateLoad_of_none hleaf) ?_)
    · rw [copyinPage_of_miss (walkaddr_of_none (hleaf0.trans hleaf)),
        vmfault_store
          (fun _ habove => absurd habove (Nat.not_le.mpr hstart)), hr]
    · intro s₂ r hr'
      cases (vmfault_pastHeap h true hstart hpast).symm.trans hr'
      rfl

/-- **`copyin` agrees with the loads of the user program on every range up to
`len` just when the loads reach no bad page.** -/
theorem copyin_agrees_iff {s : State} {srcva : ℕ} (len : ℕ)
    (h : WellFormed s.p) (hva : srcva < 2 ^ 64) :
    (∀ n ≤ len, Agrees s srcva n) ↔ NoBadPage s srcva len := by
  -- by induction on what is left, one page at a time
  induction len using Nat.strong_induction_on generalizing s srcva with
  | h len ih =>
    rcases Nat.eq_zero_or_pos len with rfl | hlen
    · refine ⟨fun _ n hn => absurd hn (Nat.not_lt_zero n), fun _ n hn => ?_⟩
      rw [Nat.le_zero.mp hn]
      exact agrees_zero s srcva
    have hmod := Nat.mod_lt srcva (show 0 < PGSIZE by decide)
    rcases page_outcomes h srcva with ⟨s₁, l, hs⟩ | hrefused | hbad
    · obtain ⟨n, hn⟩ := Nat.exists_eq_add_of_le (Nat.le_of_lt hmod)
      have hpos : 0 < n := by omega
      rw [hs.noBadPage_iff hn.symm hlen, ← ih (len - n) (by omega)
        (hs.same.wellFormed h) (Nat.mod_lt _ (by decide))]
      constructor
      · intro hall
        refine ⟨fun hb => hb.not_agrees h (hall 1 hlen), fun k hk => ?_⟩
        rcases Nat.eq_zero_or_pos k with rfl | hk0
        · exact agrees_zero ..
        · exact (hs.agrees_add hpos (Or.inl hn.symm)).mp
            (hall (n + k) (by omega))
      · rintro ⟨-, hrest⟩ m hm
        rcases Nat.lt_or_ge n m with hlt | hge
        · obtain ⟨k, rfl⟩ := Nat.exists_eq_add_of_le (Nat.le_of_lt hlt)
          exact (hs.agrees_add hpos (Or.inl hn.symm)).mpr
            (hrest k (by omega))
        · rcases Nat.eq_zero_or_pos m with rfl | hm0
          · exact agrees_zero ..
          · exact (hs.agrees_add (k := 0) hm0
              (Or.inr ⟨by omega, rfl⟩)).mpr (agrees_zero ..)
    · refine ⟨fun _ n hn hstart bs s₁ hloads => ?_,
        fun _ n _ => hrefused.agrees n⟩
      rcases Nat.eq_zero_or_pos n with rfl | hn0
      · cases hloads
        rw [Nat.add_zero, Nat.mod_eq_of_lt hva]
        exact fun hb => hb.not_agrees h (hrefused.agrees 1)
      · obtain ⟨b, s₂, hb⟩ := hloads.head hn0
        exact absurd hb (hrefused.load b s₂)
    · constructor
      · intro hall
        exact absurd (hall 1 hlen) (hbad.not_agrees h)
      · intro hno
        have := hno 0 hlen (Or.inl rfl) [] s (.nil ..)
        rw [Nat.add_zero, Nat.mod_eq_of_lt hva] at this
        exact absurd hbad this

theorem copyin_agrees_heap :
    (copyin (bootState [200, 201, 202] rwFile pageInode) 0 4096).ret.toOption =
        some true ∧
      ∀ n ≤ 4096, Agrees (bootState [200, 201, 202] rwFile pageInode) 0 n := by
  refine ⟨by decide +kernel, (copyin_agrees_iff 4096
    (DocInv.of_fresh (bootState_fresh ..)).wellFormed (by decide)).mpr ?_⟩
  intro n hn hstart bs s₁ hloads
  have hzero : n = 0 := by
    unfold PGSIZE at hstart
    omega
  subst hzero
  cases hloads
  intro hbad
  cases hbad with
  | unreadable _ hleaf =>
    cases (bootTable_leaf (show 0 < TRAPFRAME by decide)).symm.trans hleaf
  | denied _ habove => exact absurd habove (by decide)
  | writeOnly _ habove => exact absurd habove (by decide)
  | pastHeap _ _ hpast => exact absurd hpast (by decide)

/-- A file mapped for reading that no load has touched: `copyin` takes the -1
of `vmfault` for an address. -/
theorem copyin_kerneltrap : ∃ s',
    Run step Documented (bootState [200, 201] rwFile pageInode)
      [.mmap 0 4096 1 2 0 0] s' ∧ WellFormed s'.p ∧
    (∃ bs s'', Loads s' 0x3fffffd000 1 bs s'') ∧
    (copyin s' 0x3fffffd000 1).ret = .error .kerneltrap ∧
    ¬ Agrees s' 0x3fffffd000 1 := by
  obtain ⟨s', hrun, hp⟩ := exists_ok_of_any
    (show ((step (bootState [200, 201] rwFile pageInode)
      (.mmap 0 4096 1 2 0 0)).toOption.any fun s =>
        endsIn (copyin s 0x3fffffd000 1).ret .kerneltrap &&
        (translateLoad s.p.pagetable 0x3fffffd000).isNone &&
        (vmfault s 0x3fffffd000 true).toOption.any fun x =>
          decide (x.2 ≠ 0) &&
            (translateLoad x.1.p.pagetable 0x3fffffd000).isSome) = true
      by decide +kernel)
  simp only [Bool.and_eq_true, Option.isNone_iff_eq_none] at hp
  obtain ⟨⟨hret, hmiss⟩, hfault⟩ := hp
  obtain ⟨⟨s₁, r⟩, hserved, hx⟩ := exists_ok_of_any hfault
  rw [Bool.and_eq_true, decide_eq_true_eq, Option.isSome_iff_exists] at hx
  obtain ⟨hzero, pa, htr⟩ := hx
  have hok : Documented (bootState [200, 201] rwFile pageInode)
      (.mmap 0 4096 1 2 0 0) :=
    ⟨by decide, by decide, 0, rfl, rfl, by decide⟩
  have hloads : ∃ bs s'', Loads s' 0x3fffffd000 1 bs s'' :=
    ⟨_, _, .cons (.fault hmiss hserved hzero (.hit htr)) (.nil ..)⟩
  have htrap := eq_error_of_endsIn hret
  refine ⟨s', .cons hok hrun (.nil s'), (docInv_step
    (DocInv.of_fresh (bootState_fresh ..)) hok hrun).wellFormed, hloads, htrap,
    fun ha => ?_⟩
  have := ha.returns.mpr hloads
  rw [htrap] at this
  cases this

end Xv6.Vm
