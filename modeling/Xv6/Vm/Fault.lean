import Xv6.Vm.File

/-!
# Page faults and copies from user space (`kernel/vm.c`, `kernel/trap.c`)

`vmfault` serves a fault of the running process, on the heap by a zeroed page
and in a mapping by a page of the file. `copyin` is the kernel's software walk
over the same addresses, and the loads and stores of the user program go
through the MMU and reach `vmfault` by `usertrap`.
-/

namespace Xv6.Vm

open Framework

/-! ## `vmfault` -/

/-- The last lines of both branches of `vmfault`: map the filled page, or give
it back. -/
def mapOrFree (s : State) (km : Kmem) (va : ℕ) (mem : Frame) (perm : Perm) :
    Except Panic (State × ℕ) := do
  let (km, pt, done) ← mappages km s.p.pagetable va mem perm
  if done then .ok (s.setMemory km pt, mem.pa)
  else do
    let km ← kfree km mem
    .ok (s.setMemory km pt, 0)

/-- Fill a page from the file; a short read leaves the rest of the page to be
zeroed. -/
def fillPage (ip : Inode) (km : Kmem) (mem : Frame) (off : ℕ) : Kmem :=
  let (km, n) := readi ip km mem.pa off PGSIZE
  if n < PGSIZE then km.memset (mem.pa + n) 0 (PGSIZE - n) else km

/-- `vmfault` inside the mapping of slot `i`. -/
def vmfaultVma (s : State) (i : Fin NVMA) (va : ℕ) (read : Bool) :
    Except Panic (State × ℕ) :=
  let v := s.p.vma i
  if !read && !v.allows PROT_WRITE then
    .ok ({ s with p := { s.p with killed := true } }, negOne)
  else
    match kalloc s.kmem with
    | none => .ok (s, 0)
    | some (mem, km) => do
        let va := pgrounddown va
        let ip ← ilock s (s.file v.f).ip
        let off := toUint32 (v.offset.toInt + va - v.start)
        mapOrFree s (fillPage (s.inode ip) km mem off) va mem v.perm

/-- `PTE_W | PTE_U | PTE_R`, what the heap is mapped with. -/
def heapPerm : Perm := { r := true, w := true, u := true }

/-- `vmfault` below `p->sz`. -/
def vmfaultHeap (s : State) (va : ℕ) : Except Panic (State × ℕ) := do
  let mapped ← ismapped s.p.pagetable (pgrounddown va)
  if mapped then .ok (s, 0)
  else
    match kalloc s.kmem with
    | none => .ok (s, 0)
    | some (mem, km) =>
        mapOrFree s (km.memset mem.pa 0 PGSIZE) (pgrounddown va) mem heapPerm

/-- `vmfault(p->pagetable, va, read)`: 0 when the fault is not served, -1 for a
store to a mapping without `PROT_WRITE`, else the physical address. -/
def vmfault (s : State) (va : ℕ) (read : Bool) : Except Panic (State × ℕ) :=
  if s.p.sz ≤ va then
    match findVma s.p.vma fun v => decide (v.Mem va) with
    | none => .ok (s, 0)
    | some i => vmfaultVma s i va read
  else vmfaultHeap s va

/-! ## `copyin` -/

/-- What a run of `copyin` leaves behind: the state, the bytes that reached
`dst`, the page and the physical page address of every read, and the return
value, or the way the kernel stopped. -/
structure Copied where
  st : State
  dst : List UInt8
  reads : List (ℕ × ℕ)
  ret : Except Panic Bool

/-- `pa0` in `copyin`, and in `copyout`. -/
def copyinPage (s : State) (va0 : ℕ) : Except Panic (State × ℕ) :=
  if walkaddr s.p.pagetable va0 = 0 then vmfault s va0 false
  else .ok (s, walkaddr s.p.pagetable va0)

/-- `copyin(p->pagetable, dst, srcva, len)`. -/
def copyin (s : State) (srcva len : ℕ) : Copied :=
  if len = 0 then ⟨s, [], [], .ok true⟩
  else
    let va0 := pgrounddown srcva
    match copyinPage s va0 with
    | .error e => ⟨s, [], [], .error e⟩
    | .ok (s, pa0) =>
        if pa0 = 0 then ⟨s, [], [], .ok false⟩
        else
          let n := min (PGSIZE - (srcva - va0)) len
          match kread s.kmem ((pa0 + (srcva - va0)) % 2 ^ 64) n with
          | .error e => ⟨s, [], [(va0, pa0)], .error e⟩
          | .ok bs =>
              let r := copyin s ((va0 + PGSIZE) % 2 ^ 64) (len - n)
              ⟨r.st, bs ++ r.dst, (va0, pa0) :: r.reads, r.ret⟩
termination_by len
decreasing_by
  have := pgrounddown_le srcva
  have := lt_pgrounddown_add srcva
  omega

/-! ## Loads and stores of the user program -/

/-- The MMU's translation of a user load. -/
def translateLoad (pt : PageTable) (va : ℕ) : Option ℕ :=
  if va < MAXVA then
    match pt.leaf va with
    | some l =>
        if l.perm.u && l.perm.r then some (l.frame.pa + va % PGSIZE) else none
    | none => none
  else none

/-- The leaf a user store goes through. A page that is writable but not
readable is a reserved encoding, on which the MMU faults. -/
def translateStore (pt : PageTable) (va : ℕ) : Option Leaf :=
  if va < MAXVA then
    match pt.leaf va with
    | some l => if l.perm.u && l.perm.r && l.perm.w then some l else none
    | none => none
  else none

/-- A store that the MMU lets through: it writes the byte and sets `PTE_D`. -/
def storeThrough (s : State) (va : ℕ) (l : Leaf) (b : UInt8) : State :=
  s.setMemory (s.kmem.memset (l.frame.pa + va % PGSIZE) b 1)
    (s.p.pagetable.setPte va (some { l with perm := { l.perm with d := true } }))

variable {va : ℕ} {l : Leaf}

theorem translateStore_some {pt : PageTable} (h : translateStore pt va = some l) :
    va < MAXVA ∧ pt.leaf va = some l ∧
      l.perm.u = true ∧ l.perm.r = true ∧ l.perm.w = true := by
  unfold translateStore at h
  split at h
  · rename_i hva
    split at h
    · rename_i l' hleaf
      split at h
      · rename_i hperm
        cases h
        simp only [Bool.and_eq_true] at hperm
        exact ⟨hva, hleaf, hperm.1.1, hperm.1.2, hperm.2⟩
      · cases h
    · cases h
  · cases h

variable {s : State}

theorem storeThrough_leaf {vb : ℕ} (b : UInt8)
    (h : translateStore s.p.pagetable va = some l) (hvb : vb < MAXVA) :
    (storeThrough s va l b).p.pagetable.leaf vb =
      if pgrounddown vb = pgrounddown va then
        some { l with perm := { l.perm with d := true } }
      else s.p.pagetable.leaf vb := by
  obtain ⟨hva, hleaf, -⟩ := translateStore_some h
  have hpte : s.p.pagetable.pte va = some (some l) := by
    rw [PageTable.leaf_eq_join] at hleaf
    exact Option.join_eq_some_iff.mp hleaf
  split
  · rename_i hsame
    exact PageTable.leaf_setPte_self _ hpte hsame
  · rename_i hne
    exact PageTable.leaf_setPte_of_ne _ _ hva hvb hne

/-- `setkilled(p)`. -/
def setkilled (s : State) : State := { s with p := { s.p with killed := true } }

/-- The page-fault branch of `usertrap`: an unserved fault kills the
process. -/
def usertrapFault (s : State) (va : ℕ) (read : Bool) : Except Panic State := do
  let (s, r) ← vmfault s va read
  .ok (if r = 0 then setkilled s else s)

/-! ## What `vmfault` does -/

/-- The frames on the new free list and in the new page table come from the
old ones. -/
structure Drawn (km : Kmem) (pt : PageTable) (km' : Kmem) (pt' : PageTable) :
    Prop where
  free : ∀ f ∈ km'.freelist, f ∈ km.freelist
  frames : ∀ f ∈ pt'.frames, f ∈ km.freelist ∨ f ∈ pt.frames

theorem Drawn.refl (km : Kmem) (pt : PageTable) : Drawn km pt km pt :=
  ⟨fun _ hf => hf, fun _ hf => Or.inr hf⟩

/-- A page was put in at `va`, from the free list. -/
structure Filled (s : State) (va : ℕ) (mem : Frame) (perm : Perm)
    (km : Kmem) (pt : PageTable) : Prop where
  lt : va < MAXVA
  fresh : s.p.pagetable.leaf va = none
  self : ∀ vb, pgrounddown vb = va → pt.leaf vb = some ⟨mem, perm⟩
  other : ∀ vb < MAXVA, pgrounddown vb ≠ va →
    pt.leaf vb = s.p.pagetable.leaf vb
  free : mem ∈ s.kmem.freelist
  drawn : Drawn s.kmem s.p.pagetable km pt

/-- Everything `vmfault` can do when it returns. -/
inductive Faulted (s : State) (va : ℕ) (read : Bool) : State → ℕ → Prop
  | unserved {km : Kmem} {pt : PageTable}
      (leaf : ∀ vb, pt.leaf vb = s.p.pagetable.leaf vb)
      (drawn : Drawn s.kmem s.p.pagetable km pt) :
      Faulted s va read (s.setMemory km pt) 0
  | denied {i : Fin NVMA} (above : s.p.sz ≤ va) (mem : (s.p.vma i).Mem va)
      (store : read = false)
      (prot : (s.p.vma i).allows PROT_WRITE = false) :
      Faulted s va read (setkilled s) negOne
  | file {i : Fin NVMA} {mem : Frame} {km : Kmem} {pt : PageTable}
      (above : s.p.sz ≤ va) (inside : (s.p.vma i).Mem va)
      (filled : Filled s (pgrounddown va) mem (s.p.vma i).perm km pt) :
      Faulted s va read (s.setMemory km pt) mem.pa
  | heap {mem : Frame} {km : Kmem} {pt : PageTable} (below : va < s.p.sz)
      (filled : Filled s (pgrounddown va) mem heapPerm km pt) :
      Faulted s va read (s.setMemory km pt) mem.pa

theorem Faulted.unchanged (s : State) (va : ℕ) (read : Bool) :
    Faulted s va read s 0 :=
  @Faulted.unserved s va read s.kmem s.p.pagetable (fun _ => rfl) (.refl _ _)

variable {s' : State} {r : ℕ}

theorem mapOrFree_spec {km km₁ : Kmem} {mem : Frame} {perm : Perm}
    (halloc : kalloc s.kmem = some (mem, km)) (hfl : km₁.freelist = km.freelist)
    (h : mapOrFree s km₁ va mem perm = .ok (s', r)) :
    (∃ km' pt', r = mem.pa ∧ s' = s.setMemory km' pt' ∧
      Filled s va mem perm km' pt') ∨
    (∃ km' pt', r = 0 ∧ s' = s.setMemory km' pt' ∧
      (∀ vb, pt'.leaf vb = s.p.pagetable.leaf vb) ∧
      Drawn s.kmem s.p.pagetable km' pt') := by
  have hhead := kalloc_some halloc
  unfold mapOrFree at h
  obtain ⟨⟨km₂, pt₂, done⟩, hmap, h⟩ := bind_ok_iff.mp h
  rcases mappages_spec hmap with ⟨rfl, hm⟩ | ⟨rfl, hext⟩
  · simp only [if_true, Except.ok.injEq, Prod.mk.injEq] at h
    obtain ⟨rfl, rfl⟩ := h
    obtain ⟨taken, htaken, hframes⟩ := hm.taken
    rw [hfl] at htaken
    refine Or.inl ⟨km₂, pt₂, rfl, rfl, hm.lt, hm.fresh, hm.self, hm.other, ?_,
      ?_, ?_⟩
    · simp [hhead]
    · intro f hf
      rw [hhead, htaken]
      simp [hf]
    · intro f hf
      rw [hhead, htaken]
      rcases hframes f hf with hf | hf
      · exact Or.inl (by simp [hf])
      · exact Or.inr hf
  · simp only [Bool.false_eq_true, if_false] at h
    obtain ⟨km₃, hfree, h⟩ := bind_ok_iff.mp h
    simp only [Except.ok.injEq, Prod.mk.injEq] at h
    obtain ⟨rfl, rfl⟩ := h
    obtain ⟨taken, htaken, hframes⟩ := hext.taken
    rw [hfl] at htaken
    refine Or.inr ⟨km₃, pt₂, rfl, rfl, hext.leaf, ?_, ?_⟩
    · intro f hf
      rw [(kfree_ok hfree).2, List.mem_cons] at hf
      rw [hhead, htaken]
      rcases hf with rfl | hf
      · simp
      · simp [hf]
    · intro f hf
      rw [hhead, htaken]
      rcases hframes f hf with hf | hf
      · exact Or.inl (by simp [hf])
      · exact Or.inr hf

theorem fillPage_freelist (ip : Inode) (km : Kmem) (mem : Frame) (off : ℕ) :
    (fillPage ip km mem off).freelist = km.freelist := by
  dsimp only [fillPage]
  split
  · exact readi_freelist ..
  · exact readi_freelist ..

variable {read : Bool}

theorem vmfaultVma_spec {i : Fin NVMA} (habove : s.p.sz ≤ va)
    (hmem : (s.p.vma i).Mem va) (h : vmfaultVma s i va read = .ok (s', r)) :
    Faulted s va read s' r := by
  dsimp only [vmfaultVma] at h
  split at h
  · rename_i hdeny
    simp only [Bool.and_eq_true, Bool.not_eq_true'] at hdeny
    cases h
    exact .denied habove hmem hdeny.1 hdeny.2
  · cases halloc : kalloc s.kmem with
    | none =>
      simp only [halloc] at h
      cases h
      exact .unchanged ..
    | some fk =>
      obtain ⟨mem, km⟩ := fk
      simp only [halloc] at h
      obtain ⟨ip, -, h⟩ := bind_ok_iff.mp h
      rcases mapOrFree_spec halloc (fillPage_freelist ..) h with
        ⟨km', pt', rfl, rfl, hfilled⟩ | ⟨km', pt', rfl, rfl, hleaf, hdrawn⟩
      · exact .file habove hmem hfilled
      · exact .unserved hleaf hdrawn

theorem vmfaultHeap_spec (hbelow : va < s.p.sz)
    (h : vmfaultHeap s va = .ok (s', r)) : Faulted s va read s' r := by
  unfold vmfaultHeap at h
  obtain ⟨mapped, -, h⟩ := bind_ok_iff.mp h
  split at h
  · cases h
    exact .unchanged ..
  · cases halloc : kalloc s.kmem with
    | none =>
      simp only [halloc] at h
      cases h
      exact .unchanged ..
    | some fk =>
      obtain ⟨mem, km⟩ := fk
      simp only [halloc] at h
      rcases mapOrFree_spec halloc (Kmem.freelist_memset ..) h with
        ⟨km', pt', rfl, rfl, hfilled⟩ | ⟨km', pt', rfl, rfl, hleaf, hdrawn⟩
      · exact .heap hbelow hfilled
      · exact .unserved hleaf hdrawn

theorem vmfault_spec (h : vmfault s va read = .ok (s', r)) :
    Faulted s va read s' r := by
  unfold vmfault at h
  split at h
  · rename_i habove
    cases hfind : findVma s.p.vma fun v => decide (v.Mem va) with
    | none =>
      simp only [hfind] at h
      cases h
      exact .unchanged ..
    | some i =>
      simp only [hfind] at h
      exact vmfaultVma_spec habove (of_decide_eq_true (findVma_some hfind)) h
  · rename_i hbelow
    exact vmfaultHeap_spec (Nat.not_le.mp hbelow) h

/-- What a fault leaves alone: the files, and everything of the process but
its page table and its `killed` flag. -/
structure SameProc (s s' : State) : Prop where
  file : s'.file = s.file
  inode : s'.inode = s.inode
  pipe : s'.pipe = s.pipe
  sz : s'.p.sz = s.p.sz
  mmapBase : s'.p.mmapBase = s.p.mmapBase
  vma : s'.p.vma = s.p.vma
  ofile : s'.p.ofile = s.p.ofile
  cwd : s'.p.cwd = s.p.cwd
  trapframe : s'.p.trapframe = s.p.trapframe

theorem Faulted.sameProc (h : Faulted s va read s' r) : SameProc s s' := by
  cases h <;> exact ⟨rfl, rfl, rfl, rfl, rfl, rfl, rfl, rfl, rfl⟩

/-! ## What `copyin` does inside one present page -/

theorem walkaddr_of_leaf {pt : PageTable} (hva : va < MAXVA)
    (hleaf : pt.leaf va = some l) :
    walkaddr pt va = if l.perm.u then l.frame.pa else 0 := by
  rw [walkaddr, if_pos hva, hleaf]

theorem mapOrFree_of_leaf {km : Kmem} {mem : Frame} {perm : Perm}
    (hleaf : s.p.pagetable.leaf va = some l)
    (h : mapOrFree s km va mem perm = .ok (s', r)) : False := by
  obtain ⟨⟨km₁, pt₁, done⟩, hmap, -⟩ := bind_ok_iff.mp h
  exact mappages_of_leaf hleaf hmap

/-- A fault on a page that is there returns without a change, or denies the
store. -/
theorem vmfault_of_leaf (hleaf : s.p.pagetable.leaf va = some l)
    (h : vmfault s va read = .ok (s', r)) : (r = 0 ∧ s' = s) ∨ r = negOne := by
  rw [← PageTable.leaf_pgrounddown] at hleaf
  unfold vmfault at h
  split at h
  · cases hfind : findVma s.p.vma fun v => decide (v.Mem va) with
    | none =>
      simp only [hfind] at h
      cases h
      exact Or.inl ⟨rfl, rfl⟩
    | some i =>
      simp only [hfind, vmfaultVma] at h
      split at h
      · cases h
        exact Or.inr rfl
      · split at h
        · cases h
          exact Or.inl ⟨rfl, rfl⟩
        · obtain ⟨ip, -, h⟩ := bind_ok_iff.mp h
          exact absurd h fun h => mapOrFree_of_leaf hleaf h
  · unfold vmfaultHeap at h
    obtain ⟨mapped, -, h⟩ := bind_ok_iff.mp h
    split at h
    · cases h
      exact Or.inl ⟨rfl, rfl⟩
    · split at h
      · cases h
        exact Or.inl ⟨rfl, rfl⟩
      · exact absurd h fun h => mapOrFree_of_leaf hleaf h

/-- The bytes a page holds from `va` on. -/
def pageBytes (km : Kmem) (f : Frame) (va n : ℕ) : List UInt8 :=
  (List.range n).map fun i => km.mem (f.pa + va % PGSIZE + i)

@[simp] theorem length_pageBytes (km : Kmem) (f : Frame) (va n : ℕ) :
    (pageBytes km f va n).length = n := by
  simp [pageBytes]

theorem copyinPage_of_leaf {pa : ℕ} (hva : va < MAXVA)
    (hleaf : s.p.pagetable.leaf va = some l)
    (h : copyinPage s va = .ok (s', pa)) :
    (pa ≠ negOne → s' = s) ∧ (l.perm.u = true → pa = l.frame.pa ∧ s' = s) ∧
      (l.perm.u = false → pa = 0 ∨ pa = negOne) := by
  rw [copyinPage, walkaddr_of_leaf hva hleaf] at h
  cases hu : l.perm.u with
  | true =>
    simp only [hu, if_true, l.frame.pa_ne_zero, if_false] at h
    cases h
    simp
  | false =>
    simp only [hu, Bool.false_eq_true, if_false, if_true] at h
    rcases vmfault_of_leaf hleaf h with ⟨rfl, rfl⟩ | rfl
    · simp
    · simp

theorem sub_pgrounddown (va : ℕ) : va - pgrounddown va = va % PGSIZE := by
  unfold pgrounddown PGSIZE
  omega

theorem copyin_zero (s : State) (srcva : ℕ) :
    copyin s srcva 0 = ⟨s, [], [], .ok true⟩ := by
  rw [copyin, if_pos rfl]

/-- The kernel has nothing mapped around address -1. -/
theorem kread_negOne (km : Kmem) {off n : ℕ} (hoff : off < PGSIZE)
    (hn : 0 < n) :
    kread km ((negOne + off) % 2 ^ 64) n = .error .kerneltrap := by
  rw [kread, if_neg]
  unfold negOne KERNBASE PHYSTOP KERNBASE PGSIZE at *
  omega

variable {srcva len : ℕ}

/-- One round of `copyin` whose page is in memory. -/
theorem copyin_served {s₁ : State} {f : Frame} (hlen : len ≠ 0)
    (hpage : copyinPage s (pgrounddown srcva) = .ok (s₁, f.pa)) :
    copyin s srcva len =
      let n := min (PGSIZE - srcva % PGSIZE) len
      let r := copyin s₁ ((pgrounddown srcva + PGSIZE) % 2 ^ 64) (len - n)
      ⟨r.st, pageBytes s₁.kmem f srcva n ++ r.dst,
        (pgrounddown srcva, f.pa) :: r.reads, r.ret⟩ := by
  have hmod := Nat.mod_lt srcva (show 0 < PGSIZE by decide)
  have hfit : srcva % PGSIZE + min (PGSIZE - srcva % PGSIZE) len ≤ PGSIZE := by
    omega
  have hpa : (f.pa + srcva % PGSIZE) % 2 ^ 64 = f.pa + srcva % PGSIZE := by
    have := f.pa_add_le
    apply Nat.mod_eq_of_lt
    unfold PHYSTOP KERNBASE at this
    omega
  rw [copyin, if_neg hlen]
  simp only [hpage, sub_pgrounddown, f.pa_ne_zero, if_false, hpa,
    kread_frame _ _ hfit]
  rfl

/-- A copy inside one page of the user goes through and changes nothing. -/
theorem copyin_of_user (hva : srcva < MAXVA)
    (hleaf : s.p.pagetable.leaf srcva = some l) (hu : l.perm.u = true)
    (hfit : srcva % PGSIZE + len ≤ PGSIZE) (hlen : len ≠ 0) :
    copyin s srcva len = ⟨s, pageBytes s.kmem l.frame srcva len,
      [(pgrounddown srcva, l.frame.pa)], .ok true⟩ := by
  have hpage : copyinPage s (pgrounddown srcva) = .ok (s, l.frame.pa) := by
    rw [copyinPage, walkaddr_of_leaf
      (Nat.lt_of_le_of_lt (pgrounddown_le srcva) hva)
      (by rw [PageTable.leaf_pgrounddown, hleaf]), hu]
    simp [l.frame.pa_ne_zero]
  have hmin : min (PGSIZE - srcva % PGSIZE) len = len := by omega
  rw [copyin_served hlen hpage]
  simp only [hmin, Nat.sub_self, copyin_zero, List.append_nil]

/-- A copy inside one present page changes nothing when it returns. -/
theorem copyin_of_leaf {done : Bool} (hva : srcva < MAXVA)
    (hleaf : s.p.pagetable.leaf srcva = some l)
    (hfit : srcva % PGSIZE + len ≤ PGSIZE)
    (h : (copyin s srcva len).ret = .ok done) :
    (copyin s srcva len).st = s := by
  by_cases hlen : len = 0
  · rw [hlen, copyin_zero]
  · cases hu : l.perm.u with
    | true => rw [copyin_of_user hva hleaf hu hfit hlen]
    | false =>
      rw [copyin, if_neg hlen] at h ⊢
      cases hpage : copyinPage s (pgrounddown srcva) with
      | error e =>
        simp only [hpage] at h
        cases h
      | ok r =>
        obtain ⟨s₁, pa0⟩ := r
        obtain ⟨hsame, -, hpa⟩ := copyinPage_of_leaf
          (Nat.lt_of_le_of_lt (pgrounddown_le srcva) hva)
          (by rw [PageTable.leaf_pgrounddown, hleaf]) hpage
        rcases hpa hu with rfl | rfl
        · simp only [hpage, if_true]
          exact hsame (by decide)
        · have hne : negOne ≠ 0 := by decide
          have hread := kread_negOne s₁.kmem
            (Nat.mod_lt srcva (show 0 < PGSIZE by decide))
            (show 0 < min (PGSIZE - srcva % PGSIZE) len by omega)
          simp only [hpage, sub_pgrounddown, hne, if_false, hread] at h
          cases h

end Xv6.Vm
