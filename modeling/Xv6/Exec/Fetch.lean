import Xv6.Exec.Outcome
import Xv6.Vm.Room

/-!
# Fetching the arguments (`kernel/sysfile.c`: `sys_exec`, `kernel/syscall.c`)

`sys_exec` copies the user's array of pointers word by word and each string
into a page of its own. The words come through `copyin`, which brings in
pages of the heap that are not there yet; the strings come through
`copyinstr`, which does not. The user does not see any of it.
-/

namespace Xv6.Exec

open Framework Vm

variable {pool rest : Multiset Frame} {s s' : State}

/-! ## What the user sees -/

/-- The byte at a user address. A page of the heap that was not brought in yet
is all zeroes. -/
def userByte (s : State) (va : ℕ) : Option UInt8 :=
  if va < MAXVA then
    match s.p.pagetable.leaf va with
    | some l =>
        if l.perm.u then some (s.kmem.mem (l.frame.pa + va % PGSIZE)) else none
    | none => if pgrounddown va < s.p.sz then some 0 else none
  else none

/-- The `uint64` at a user address. -/
def UserWord (s : State) (va x : ℕ) : Prop :=
  ∃ b : ℕ → UInt8, (∀ k < 8, userByte s (va + k) = some (b k)) ∧
    leNat b 0 8 = x

/-- The string at a user address. -/
def UserString (s : State) (va : ℕ) (str : List UInt8) : Prop :=
  Terminated 0 (fun k => userByte s (va + k)) str

/-- The array of strings at a user address: pointers to them and then a null
pointer. -/
structure UserArgv (s : State) (uargv : ℕ) (strs : List (List UInt8)) :
    Prop where
  string : ∀ (i : ℕ) (h : i < strs.length), ∃ a, a ≠ 0 ∧
    UserWord s (uargv + 8 * i) a ∧ UserString s a strs[i]
  null : UserWord s (uargv + 8 * strs.length) 0

/-- The frames of a process: those of its page table, the trapframe and what
belongs to others. The user cannot get at the trap pages. -/
structure Accounted (pool rest : Multiset Frame) (s : State) : Prop where
  ledger : Ledger pool s.kmem (s.p.pagetable.owned + s.p.trapframe ::ₘ rest)
  trap : ∀ va < MAXVA, TRAPFRAME ≤ va →
    ∃ l, s.p.pagetable.leaf va = some l ∧ l.perm.u = false

/-- Only pages of the heap were brought in: everything else is as it was, and
the user sees the same bytes. -/
structure Touched (s s' : State) : Prop where
  sz : s'.p.sz = s.p.sz
  p : ∃ pt, s'.p = { s.p with pagetable := pt }
  file : s'.file = s.file
  inode : s'.inode = s.inode
  pipe : s'.pipe = s.pipe
  view : ∀ va, userByte s' va = userByte s va

theorem Touched.refl (s : State) : Touched s s :=
  ⟨rfl, ⟨_, rfl⟩, rfl, rfl, rfl, fun _ => rfl⟩

variable {s₁ : State}

theorem Touched.trans (h : Touched s s₁) (h' : Touched s₁ s') :
    Touched s s' where
  sz := h'.sz.trans h.sz
  p := by
    obtain ⟨pt, hp⟩ := h.p
    obtain ⟨pt', hp'⟩ := h'.p
    exact ⟨pt', by rw [hp', hp]⟩
  file := h'.file.trans h.file
  inode := h'.inode.trans h.inode
  pipe := h'.pipe.trans h.pipe
  view := fun va => (h'.view va).trans (h.view va)

variable {va : ℕ}

/-- A page of the user is in use. -/
theorem Accounted.not_free (h : Accounted pool rest s) {l : Leaf}
    (hva : va < TRAPFRAME) (hl : s.p.pagetable.leaf va = some l) :
    l.frame ∉ s.kmem.freelist :=
  h.ledger.not_free (Multiset.mem_add.mpr (Or.inl (PageTable.mem_owned hva hl)))

variable {km : Kmem}

/-- Where the page table is as before, writing to free pages is not seen. -/
theorem Accounted.view (h : Accounted pool rest s) {pt : PageTable}
    (hspares : Spares s.kmem km) (hleaf : pt.leaf va = s.p.pagetable.leaf va) :
    userByte (s.setMemory km pt) va = userByte s va := by
  unfold userByte
  split
  · rename_i hva
    dsimp only [State.setMemory]
    rw [hleaf]
    cases hl : s.p.pagetable.leaf va with
    | none => rfl
    | some l =>
      dsimp only
      rcases Nat.lt_or_ge va TRAPFRAME with hlow | hhigh
      · rw [hspares.same l.frame (h.not_free hlow hl) _
          (Nat.mod_lt _ (by decide))]
      · obtain ⟨l', hl', hu⟩ := h.trap va hva hhigh
        cases hl.symm.trans hl'
        rw [hu]
        rfl
  · rfl

theorem Accounted.touched (h : Accounted pool rest s)
    (hspares : Spares s.kmem km) : Touched s { s with kmem := km } :=
  ⟨rfl, ⟨_, rfl⟩, rfl, rfl, rfl, fun _ => h.view hspares rfl⟩

/-! ## Faults on the heap -/

/-- Pages of the heap were brought in: the frames are accounted for, and the
user sees no difference. -/
structure Populated (pool rest : Multiset Frame) (s s' : State) : Prop where
  accounted : Accounted pool rest s'
  touched : Touched s s'
  spares : Spares s.kmem s'.kmem

theorem Accounted.populated (h : Accounted pool rest s) :
    Populated pool rest s s :=
  ⟨h, .refl s, .refl _⟩

theorem Populated.trans (h : Populated pool rest s s₁)
    (h' : Populated pool rest s₁ s') : Populated pool rest s s' :=
  ⟨h'.accounted, h.touched.trans h'.touched, h.spares.trans h'.spares⟩

/-- A fault on the page at `va` takes a frame: the page is not there yet, and
there is a frame for it and, unless its entry is there, another one. -/
def BringsIn (s : State) (va : ℕ) : Prop :=
  va < MAXVA ∧ s.p.pagetable.leaf va = none ∧
    (2 ≤ s.kmem.freelist.length ∨
      1 ≤ s.kmem.freelist.length ∧ s.p.pagetable.pte va ≠ none)

/-- What a fault on the page at `va` leaves behind. -/
structure HeapFault (pool rest : Multiset Frame) (s : State) (va : ℕ)
    (s' : State) (r : ℕ) : Prop extends Populated pool rest s s' where
  lt : va < MAXVA
  served : r ≠ 0 → ∃ f, r = f.pa ∧
    s'.p.pagetable.leaf va = some ⟨f, heapPerm⟩
  brought : BringsIn s va →
    s'.kmem.freelist.length < s.kmem.freelist.length
  quiet : ¬ BringsIn s va → s'.p = s.p ∧ r = 0

section Mapped

variable {va : ℕ} {f : Frame} {km₁ km₂ : Kmem} {pt₂ : PageTable}

/-- A fresh page of zeroes on the heap is what the user saw before. -/
theorem Accounted.view_mapped (h : Accounted pool rest s)
    (hva : va < s.p.sz) (halloc : kalloc s.kmem = some (f, km₁))
    (hmap : mappages (km₁.memset f.pa 0 PGSIZE) s.p.pagetable va f heapPerm =
      .ok (km₂, pt₂, true))
    (hm : Mapped (km₁.memset f.pa 0 PGSIZE) s.p.pagetable va f heapPerm
      km₂ pt₂) (vb : ℕ) :
    userByte (s.setMemory km₂ pt₂) vb = userByte s vb := by
  have hspares : Spares s.kmem km₂ :=
    (kalloc_zero_spares halloc).trans (mappages_spares hmap)
  by_cases hvb : vb < MAXVA
  · by_cases hin : pgrounddown vb = va
    · have hold : s.p.pagetable.leaf vb = none := by
        rw [← s.p.pagetable.leaf_pgrounddown, hin, hm.fresh]
      have hfree : f ∉ (km₁.memset f.pa 0 PGSIZE).freelist := by
        have hnodup := h.ledger.freelist_nodup
        rw [kalloc_some halloc] at hnodup
        exact (List.nodup_cons.mp hnodup).1
      have hzero : km₂.mem (f.pa + vb % PGSIZE) = 0 := by
        rw [(mappages_spares hmap).same f hfree _ (Nat.mod_lt _ (by decide))]
        exact mem_memset _ _ _ (Nat.mod_lt _ (by decide))
      unfold userByte
      rw [if_pos hvb, if_pos hvb, hold]
      dsimp only [State.setMemory]
      rw [hm.self vb hin]
      dsimp only
      rw [if_pos (show heapPerm.u = true from rfl),
        if_pos (show pgrounddown vb < s.p.sz by rw [hin]; exact hva), hzero]
    · exact h.view hspares (hm.other vb hvb hin)
  · unfold userByte
    rw [if_neg hvb, if_neg hvb]

end Mapped

variable {f : Frame}

/-- The frames and the trap pages after the fresh page was mapped. -/
theorem Accounted.mapped (h : Accounted pool rest s) {perm : Perm} {km₂ : Kmem}
    {pt₂ : PageTable} (hm : Mapped km s.p.pagetable va f perm km₂ pt₂)
    (hled : Ledger pool km₂ (pt₂.owned + s.p.trapframe ::ₘ rest)) :
    Accounted pool rest (s.setMemory km₂ pt₂) := by
  refine ⟨hled, fun vb hvb hge => ?_⟩
  obtain ⟨l, hl, hu⟩ := h.trap vb hvb hge
  refine ⟨l, (hm.other vb hvb ?_).trans hl, hu⟩
  rintro rfl
  have hfresh := hm.fresh
  rw [PageTable.leaf_pgrounddown] at hfresh
  cases hfresh.symm.trans hl

section Heap

variable {km₁ km₂ : Kmem} {pt₂ : PageTable}

/-- The fresh page is mapped. -/
theorem Accounted.heap_mapped (h : Accounted pool rest s)
    (ha : va % PGSIZE = 0) (hva : va < s.p.sz) (hmax : va < MAXVA)
    (halloc : kalloc s.kmem = some (f, km₁))
    (hmap : mappages (km₁.memset f.pa 0 PGSIZE) s.p.pagetable va f heapPerm =
      .ok (km₂, pt₂, true))
    (hm : Mapped (km₁.memset f.pa 0 PGSIZE) s.p.pagetable va f heapPerm
      km₂ pt₂) (hled : Ledger pool km₂ (pt₂.owned + s.p.trapframe ::ₘ rest)) :
    HeapFault pool rest s va (s.setMemory km₂ pt₂) f.pa := by
  have hpage := pgrounddown_of_mod ha
  have hlist := kalloc_some halloc
  have htook := mappages_took hmap
  rw [Kmem.freelist_memset] at htook
  have hless : km₂.freelist.length < s.kmem.freelist.length := by
    have := (mappages_spares hmap).free.length_le
    rw [Kmem.freelist_memset] at this
    rw [hlist, List.length_cons]
    omega
  refine ⟨⟨h.mapped hm hled, ⟨rfl, ⟨_, rfl⟩, rfl, rfl, rfl,
      h.view_mapped hva halloc hmap hm⟩,
      (kalloc_zero_spares halloc).trans (mappages_spares hmap)⟩, hmax,
    fun _ => ⟨f, rfl, hm.self va hpage⟩, fun _ => hless,
    fun hnot => absurd ⟨hmax, hpage ▸ hm.fresh, ?_⟩ hnot⟩
  rw [hlist, List.length_cons]
  by_cases hthere : s.p.pagetable.pte va = none
  · have := List.length_pos_iff.mpr (htook.some rfl (not_not.mpr hthere))
    omega
  · exact Or.inr ⟨by omega, hthere⟩

/-- There is no memory for the page table, and the fresh page goes back. -/
theorem Accounted.heap_short (h : Accounted pool rest s) (hmax : va < MAXVA)
    (hl : s.p.pagetable.leaf va = none)
    (halloc : kalloc s.kmem = some (f, km₁))
    (hmap : mappages (km₁.memset f.pa 0 PGSIZE) s.p.pagetable va f heapPerm =
      .ok (km₂, pt₂, false))
    (hext : Extends (km₁.memset f.pa 0 PGSIZE) s.p.pagetable km₂ pt₂)
    (hled : Ledger pool km₂ (f ::ₘ (pt₂.owned + s.p.trapframe ::ₘ rest))) :
    ∃ km₃, mapOrFree s (km₁.memset f.pa 0 PGSIZE) va f heapPerm =
      .ok (s.setMemory km₃ pt₂, 0) ∧
      HeapFault pool rest s va (s.setMemory km₃ pt₂) 0 := by
  have hlist := kalloc_some halloc
  have htook := mappages_took hmap
  rw [Kmem.freelist_memset] at htook
  have hempty := (htook.short rfl).2
  obtain ⟨km₃, halways, hled₃⟩ := Ledger.free hled
  have hfree : kfree km₂ f = .ok km₃ := halways kfree standsIn_kfree
  have hcall : mapOrFree s (km₁.memset f.pa 0 PGSIZE) va f heapPerm =
      .ok (s.setMemory km₃ pt₂, 0) := by
    rw [mapOrFree, hmap]
    show (kfree km₂ f).bind _ = _
    rw [hfree]
    rfl
  have hspares := mapOrFree_spares (kalloc_zero_spares halloc)
    (by rw [Kmem.freelist_memset]; exact hlist) hcall
  have hone : km₃.freelist = [f] := by
    rw [(kfree_ok hfree).2, hempty]
  refine ⟨km₃, hcall, ⟨⟨hled₃, ?_⟩, ⟨rfl, ⟨_, rfl⟩, rfl, rfl, rfl,
      fun vb => h.view hspares (hext.leaf vb)⟩, hspares⟩, hmax,
    fun hr => absurd rfl hr, ?_, ?_⟩
  · intro vb hvb hge
    obtain ⟨l, hl', hu⟩ := h.trap vb hvb hge
    exact ⟨l, (hext.leaf vb).trans hl', hu⟩
  · rintro ⟨-, -, htwo | ⟨-, hthere⟩⟩
    · show km₃.freelist.length < _
      rw [hone, List.length_singleton]
      exact htwo
    · cases (htook.nothing hthere).2
  · intro hnot
    have hnil : km₁.freelist = [] := by
      by_contra hne
      refine hnot ⟨hmax, hl, Or.inl ?_⟩
      have := List.length_pos_iff.mpr hne
      rw [hlist, List.length_cons]
      omega
    obtain ⟨-, rfl⟩ := mappages_of_nil
      (by rw [Kmem.freelist_memset]; exact hnil) hmap
    exact ⟨rfl, rfl⟩

end Heap

/-- **A fault on the heap shows the user a page of zeroes**, or nothing. -/
theorem Accounted.vmfaultHeap (h : Accounted pool rest s) (ha : va % PGSIZE = 0)
    (hva : va < s.p.sz) :
    (MAXVA ≤ va ∧ vmfaultHeap s va = .error .walk) ∨
    ∃ s' r, vmfaultHeap s va = .ok (s', r) ∧
      HeapFault pool rest s va s' r := by
  unfold Vm.vmfaultHeap
  rw [pgrounddown_of_mod ha]
  unfold ismapped
  rcases Nat.lt_or_ge va MAXVA with hmax | hmax
  swap
  · rw [if_neg (Nat.not_lt.mpr hmax)]
    exact Or.inl ⟨hmax, rfl⟩
  rw [if_pos hmax]
  dsimp only [bind, Except.bind]
  -- nothing happens when the page is there or there is no frame for it
  have hsame : ¬ BringsIn s va → HeapFault pool rest s va s 0 := fun hnot =>
    ⟨h.populated, hmax, fun hr => absurd rfl hr, fun hb => absurd hb hnot,
      fun _ => ⟨rfl, rfl⟩⟩
  right
  cases hl : s.p.pagetable.leaf va with
  | some l =>
    refine ⟨s, 0, rfl, hsame ?_⟩
    rintro ⟨-, hnone, -⟩
    cases hl.symm.trans hnone
  | none =>
    have hlow : va < TRAPFRAME := by
      by_contra hge
      obtain ⟨l, hl', -⟩ := h.trap va hmax (Nat.not_lt.mp hge)
      cases hl.symm.trans hl'
    cases halloc : kalloc s.kmem with
    | none =>
      refine ⟨s, 0, rfl, hsame ?_⟩
      rintro ⟨-, -, hroom⟩
      rw [kalloc_none halloc, List.length_nil] at hroom
      omega
    | some fk =>
      obtain ⟨f, km₁⟩ := fk
      have hled₁ := (h.ledger.alloc halloc).congr
        (km₁.freelist_memset f.pa 0 PGSIZE)
      obtain ⟨km₂, pt₂, done, hmap, hled₂⟩ :=
        mappages_ledger heapPerm hled₁ ha hlow hl
      rcases mappages_spec hmap with ⟨rfl, hm⟩ | ⟨rfl, hext⟩
      · rw [if_pos rfl] at hled₂
        refine ⟨s.setMemory km₂ pt₂, f.pa, ?_,
          h.heap_mapped ha hva hmax halloc hmap hm hled₂⟩
        show mapOrFree s (km₁.memset f.pa 0 PGSIZE) va f heapPerm = _
        rw [mapOrFree, hmap]
        rfl
      · rw [if_neg Bool.false_ne_true] at hled₂
        obtain ⟨km₃, hcall, hfault⟩ :=
          h.heap_short hmax hl halloc hmap hext hled₂
        exact ⟨_, 0, hcall, hfault⟩

/-! ## `copyin` from the heap -/

theorem exists_leaf_of_walkaddr {pt : PageTable} (h : walkaddr pt va ≠ 0) :
    va < MAXVA ∧ ∃ l, pt.leaf va = some l ∧
      l.perm.u = true ∧ walkaddr pt va = l.frame.pa := by
  unfold walkaddr at h ⊢
  split at h
  · rename_i hva
    refine ⟨hva, ?_⟩
    cases hl : pt.leaf va with
    | none =>
      rw [hl] at h
      exact absurd rfl h
    | some l =>
      rw [hl] at h
      dsimp only at h
      split at h
      · rename_i hu
        exact ⟨l, rfl, hu, by rw [if_pos hva]; exact if_pos hu⟩
      · exact absurd rfl h
  · exact absurd rfl h

theorem pgrounddown_lt_MAXVA :
    pgrounddown va < MAXVA ↔ va < MAXVA :=
  pgrounddown_lt_iff (by decide)

/-- The user sees the bytes of a page that is there. -/
theorem userByte_of_leaf {vb : ℕ} {l : Leaf} (hva : va < MAXVA)
    (hl : s.p.pagetable.leaf va = some l) (hu : l.perm.u = true)
    (hpage : pgrounddown vb = va) :
    userByte s vb = some (s.kmem.mem (l.frame.pa + vb % PGSIZE)) := by
  subst hpage
  rw [PageTable.leaf_pgrounddown] at hl
  rw [userByte, if_pos (pgrounddown_lt_MAXVA.mp hva), hl]
  exact if_pos hu

/-- What `copyin` does about a page of the heap: it is there, or it is brought
in, or nothing changes. -/
structure PageRead (pool rest : Multiset Frame) (s : State) (va : ℕ)
    (s' : State) (pa : ℕ) : Prop extends Populated pool rest s s' where
  lt : va < MAXVA
  seen : pa ≠ 0 → ∃ f : Frame, pa = f.pa ∧ ∀ vb, pgrounddown vb = va →
    userByte s' vb = some (s'.kmem.mem (f.pa + vb % PGSIZE))
  present : walkaddr s.p.pagetable va ≠ 0 → s' = s ∧ pa ≠ 0
  brought : BringsIn s va →
    s'.kmem.freelist.length < s.kmem.freelist.length
  quiet : walkaddr s.p.pagetable va = 0 → ¬ BringsIn s va →
    s'.p = s.p ∧ pa = 0

theorem Accounted.copyinPage (h : Accounted pool rest s) (ha : va % PGSIZE = 0)
    (hva : va < s.p.sz) :
    (MAXVA ≤ va ∧ copyinPage s va = .error .walk) ∨
    ∃ s' pa, copyinPage s va = .ok (s', pa) ∧
      PageRead pool rest s va s' pa := by
  unfold Vm.copyinPage
  split
  · rename_i hwalk
    rw [vmfault, if_neg (Nat.not_le.mpr hva)]
    rcases h.vmfaultHeap ha hva with herr | ⟨s', pa, hcall, hfault⟩
    · exact Or.inl herr
    · refine Or.inr ⟨s', pa, hcall, hfault.toPopulated, hfault.lt, ?_,
        fun hne => absurd hwalk hne, hfault.brought, fun _ => hfault.quiet⟩
      intro hpa
      obtain ⟨f, rfl, hl⟩ := hfault.served hpa
      exact ⟨f, rfl, fun vb hvb =>
        userByte_of_leaf (l := ⟨f, heapPerm⟩) hfault.lt hl rfl hvb⟩
  · rename_i hwalk
    obtain ⟨hmax, l, hl, hu, hpa⟩ := exists_leaf_of_walkaddr hwalk
    refine Or.inr ⟨s, _, rfl, h.populated, hmax, fun _ => ⟨l.frame, hpa,
      fun vb => userByte_of_leaf hmax hl hu⟩, fun _ => ⟨rfl, hwalk⟩, ?_,
      fun hzero => absurd hzero hwalk⟩
    rintro ⟨-, hnone, -⟩
    cases hl.symm.trans hnone

/-- The first byte whose page is not there is on a page that is brought
in. -/
def FirstFault (s : State) (srcva len : ℕ) : Prop :=
  ∃ k < len, (∀ j < k, walkaddr s.p.pagetable (pgrounddown (srcva + j)) ≠ 0) ∧
    BringsIn s (pgrounddown (srcva + k))

/-- What `copyin` of `len` bytes of the heap leaves behind. -/
structure BytesRead (pool rest : Multiset Frame) (s : State)
    (srcva len : ℕ) (r : Copied) (done : Bool) : Prop
    extends Populated pool rest s r.st where
  ret : r.ret = .ok done
  bytes : done = true → ∀ k < len,
    userByte s (srcva + k) = some (r.dst.getD k 0)
  brought : FirstFault s srcva len →
    r.st.kmem.freelist.length < s.kmem.freelist.length
  quiet : ¬ FirstFault s srcva len → r.st.p = s.p

/-- Behind a page that is there nothing else matters. -/
theorem firstFault_next {srcva len n : ℕ}
    (hpage : ∀ k < n, pgrounddown (srcva + k) = pgrounddown srcva)
    (hn : n ≤ len)
    (hwalk : walkaddr s.p.pagetable (pgrounddown srcva) ≠ 0) :
    FirstFault s srcva len ↔ FirstFault s (srcva + n) (len - n) := by
  have hnot : ¬ BringsIn s (pgrounddown srcva) := by
    rintro ⟨-, hnone, -⟩
    obtain ⟨-, l, hl, -⟩ := exists_leaf_of_walkaddr hwalk
    cases hl.symm.trans hnone
  constructor
  · rintro ⟨k, hk, hbefore, hbrings⟩
    rcases Nat.lt_or_ge k n with hlt | hge
    · rw [hpage k hlt] at hbrings
      exact absurd hbrings hnot
    · refine ⟨k - n, by omega, fun j hj => ?_, ?_⟩
      · have := hbefore (n + j) (by omega)
        rwa [← Nat.add_assoc] at this
      · rwa [Nat.add_assoc, Nat.add_sub_cancel' hge]
  · rintro ⟨k, hk, hbefore, hbrings⟩
    refine ⟨n + k, by omega, fun j hj => ?_, by rwa [← Nat.add_assoc]⟩
    rcases Nat.lt_or_ge j n with hlt | hge
    · rw [hpage j hlt]
      exact hwalk
    · have := hbefore (j - n) (by omega)
      rwa [Nat.add_assoc, Nat.add_sub_cancel' hge] at this

/-- **`copyin` from the heap reads what the user sees.** -/
theorem Accounted.copyin {len : ℕ} : ∀ {s : State} {srcva : ℕ},
    Accounted pool rest s → srcva ≤ MAXVA →
    (∀ k < len, srcva + k < s.p.sz) →
    (MAXVA < srcva + len ∧ (copyin s srcva len).ret = .error .walk) ∨
    ∃ done, BytesRead pool rest s srcva len (copyin s srcva len) done := by
  induction len using Nat.strong_induction_on with
  | _ len ih =>
    intro s srcva h hsrc hsz
    rcases Nat.eq_zero_or_pos len with rfl | hlen
    · rw [copyin_zero]
      refine Or.inr ⟨true, h.populated, rfl,
        fun _ k hk => absurd hk (Nat.not_lt_zero k), ?_, fun _ => rfl⟩
      rintro ⟨k, hk, -⟩
      exact absurd hk (Nat.not_lt_zero k)
    have hlt : pgrounddown srcva < s.p.sz :=
      Nat.lt_of_le_of_lt (pgrounddown_le srcva) (hsz 0 hlen)
    rcases h.copyinPage (pgrounddown_mod srcva) hlt with
      ⟨hmax, hpage⟩ | ⟨s₁, pa, hpage, hread⟩
    · have := pgrounddown_le srcva
      refine Or.inl ⟨by omega, ?_⟩
      rw [Vm.copyin, if_neg hlen.ne']
      simp only [hpage]
    have hmax := hread.lt
    by_cases hpa : pa = 0
    · -- the page is not there and is not brought in, or not for the user
      have hwalk : walkaddr s.p.pagetable (pgrounddown srcva) = 0 :=
        not_not.mp fun hne => (hread.present hne).2 hpa
      rw [Vm.copyin, if_neg hlen.ne']
      simp only [hpage, hpa, if_true]
      refine Or.inr ⟨false, hread.toPopulated, rfl, nofun, ?_, fun hnot => ?_⟩
      · rintro ⟨k, hk, hbefore, hbrings⟩
        cases k with
        | zero => exact hread.brought hbrings
        | succ k => exact absurd hwalk (hbefore 0 (Nat.succ_pos k))
      · refine (hread.quiet hwalk fun hbrings => hnot ?_).1
        exact ⟨0, hlen, fun j hj => absurd hj (Nat.not_lt_zero j), hbrings⟩
    obtain ⟨f, rfl, hbyte⟩ := hread.seen hpa
    have hend : pgrounddown srcva + PGSIZE ≤ MAXVA := by
      unfold pgrounddown PGSIZE MAXVA at *
      omega
    have hmod : (pgrounddown srcva + PGSIZE) % 2 ^ 64 =
        pgrounddown srcva + PGSIZE := by
      apply Nat.mod_eq_of_lt
      unfold MAXVA at hend
      omega
    have hpos : 0 < PGSIZE - srcva % PGSIZE :=
      Nat.sub_pos_of_lt (Nat.mod_lt _ (by decide))
    have hdown : pgrounddown srcva + PGSIZE =
        srcva + (PGSIZE - srcva % PGSIZE) := by
      unfold pgrounddown PGSIZE
      omega
    rw [copyin_served hlen.ne' hpage, hmod]
    generalize hn : min (PGSIZE - srcva % PGSIZE) len = n
    have hsame : ∀ k < n, pgrounddown (srcva + k) = pgrounddown srcva ∧
        (srcva + k) % PGSIZE = srcva % PGSIZE + k := fun k hk =>
      (@page_offset srcva k (by unfold MAXVA at hsrc; omega) (by omega)).2
    have hskip : walkaddr s.p.pagetable (pgrounddown srcva) ≠ 0 →
        (FirstFault s srcva len ↔
          FirstFault s (pgrounddown srcva + PGSIZE) (len - n)) := by
      intro hwalk
      rw [firstFault_next (fun k hk => (hsame k hk).1) (by omega) hwalk]
      rcases Nat.lt_or_ge n len with hlt | hge
      · rw [show pgrounddown srcva + PGSIZE = srcva + n by omega]
      · rw [Nat.sub_eq_zero_of_le hge]
        constructor
        · rintro ⟨k, hk, -⟩
          exact absurd hk (Nat.not_lt_zero k)
        · rintro ⟨k, hk, -⟩
          exact absurd hk (Nat.not_lt_zero k)
    dsimp only
    rcases ih (len - n) (by omega) hread.accounted hend (fun k hk => by
        rw [hread.touched.sz]
        have := hsz (PGSIZE - srcva % PGSIZE + k) (by omega)
        omega) with ⟨hover, hret⟩ | ⟨done, hrest⟩
    · exact Or.inl ⟨by omega, hret⟩
    refine Or.inr ⟨done, hread.toPopulated.trans hrest.toPopulated, hrest.ret,
      fun hdone k hk => ?_, fun hfault => ?_, fun hquiet => ?_⟩
    · rw [← hread.touched.view]
      rcases Nat.lt_or_ge k n with hkn | hkn
      · obtain ⟨hdownk, hoff⟩ := hsame k hkn
        rw [hbyte _ hdownk, hoff, List.getD_append _ _ _ _ (by simpa),
          pageBytes, ← Nat.add_assoc]
        simp [hkn]
      · have hk' := hrest.bytes hdone (k - n) (by omega)
        rw [show pgrounddown srcva + PGSIZE + (k - n) = srcva + k by omega]
          at hk'
        rw [List.getD_append_right _ _ _ _ (by simpa), length_pageBytes, hk']
    · rcases Nat.eq_zero_or_pos (walkaddr s.p.pagetable (pgrounddown srcva))
        with hwalk | hwalk
      · obtain ⟨k, hk, hbefore, hbrings⟩ := hfault
        cases k with
        | zero =>
          exact Nat.lt_of_le_of_lt hrest.spares.free.length_le
            (hread.brought hbrings)
        | succ k => exact absurd hwalk (hbefore 0 (Nat.succ_pos k))
      · obtain ⟨rfl, -⟩ := hread.present hwalk.ne'
        exact hrest.brought ((hskip hwalk.ne').mp hfault)
    · rcases Nat.eq_zero_or_pos (walkaddr s.p.pagetable (pgrounddown srcva))
        with hwalk | hwalk
      · refine absurd (hread.quiet hwalk fun hbrings => hquiet ?_).2 hpa
        exact ⟨0, hlen, fun j hj => absurd hj (Nat.not_lt_zero j), hbrings⟩
      · obtain ⟨rfl, -⟩ := hread.present hwalk.ne'
        exact hrest.quiet fun hfault => hquiet ((hskip hwalk.ne').mpr hfault)

/-! ## `fetchaddr` -/

theorem lt_MAXVA_of_userByte {b : UInt8} (h : userByte s va = some b) :
    va < MAXVA := by
  unfold userByte at h
  split at h
  · assumption
  · cases h

theorem UserWord.le_MAXVA {x : ℕ} (h : UserWord s va x) : va + 8 ≤ MAXVA := by
  obtain ⟨b, hb, -⟩ := h
  exact lt_MAXVA_of_userByte (hb 7 (by omega))

theorem UserWord.lt {va x : ℕ} (h : UserWord s va x) : x < 2 ^ 64 := by
  obtain ⟨b, -, rfl⟩ := h
  exact leNat_lt b 8 0

theorem UserWord.congr {x : ℕ} (h : UserWord s va x)
    (hview : ∀ va, userByte s' va = userByte s va) : UserWord s' va x := by
  obtain ⟨b, hb, hx⟩ := h
  exact ⟨b, fun k hk => (hview _).trans (hb k hk), hx⟩

variable {str : List UInt8}

theorem UserString.congr (h : UserString s va str)
    (hview : ∀ va, userByte s' va = userByte s va) :
    UserString s' va str where
  before := fun i hi => (hview _).trans (h.before i hi)
  ne_stop := h.ne_stop
  last := (hview _).trans h.last

/-- Above `MAXVA` the walk panics. -/
theorem copyin_high {srcva len : ℕ} (hmax : MAXVA ≤ srcva)
    (hsz : srcva < s.p.sz) (hlen : len ≠ 0) :
    (copyin s srcva len).ret = .error .walk := by
  have hhigh : ¬pgrounddown srcva < MAXVA := by
    rw [pgrounddown_lt_MAXVA]
    exact Nat.not_lt.mpr hmax
  have hlt : ¬s.p.sz ≤ pgrounddown srcva :=
    Nat.not_le.mpr (Nat.lt_of_le_of_lt (pgrounddown_le srcva) hsz)
  have hwalk : walkaddr s.p.pagetable (pgrounddown srcva) = 0 := by
    rw [walkaddr, if_neg hhigh]
  have hpage : copyinPage s (pgrounddown srcva) = .error .walk := by
    rw [copyinPage, if_pos hwalk, vmfault, if_neg hlt, vmfaultHeap,
      pgrounddown_of_mod (pgrounddown_mod srcva), ismapped, if_neg hhigh]
    rfl
  rw [copyin, if_neg hlen]
  simp only [hpage]

/-- `fetchaddr` lets the address pass, and the word is not all there. -/
def WordFaults (s : State) (addr : ℕ) : Prop :=
  addr < s.p.sz ∧ (addr + 8) % 2 ^ 64 ≤ s.p.sz ∧ FirstFault s addr 8

/-- What `fetchaddr` leaves behind. -/
structure WordRead (pool rest : Multiset Frame) (s : State) (addr : ℕ)
    (s' : State) (o : Option ℕ) : Prop extends Populated pool rest s s' where
  word : ∀ x, o = some x → UserWord s addr x
  brought : WordFaults s addr →
    s'.kmem.freelist.length < s.kmem.freelist.length
  quiet : ¬ WordFaults s addr → s'.p = s.p

variable {addr : ℕ}

/-- **`fetchaddr` reads a word of the user.** -/
theorem Accounted.fetchaddr_cases (h : Accounted pool rest s)
    (haddr : addr < 2 ^ 64) :
    (MAXVA < addr + 8 ∧ fetchaddr s addr = .error .walk) ∨
    ∃ s' o, fetchaddr s addr = .ok (s', o) ∧
      WordRead pool rest s addr s' o := by
  unfold fetchaddr
  split
  · rename_i hout
    refine Or.inr ⟨s, none, rfl, h.populated, nofun, ?_, fun _ => rfl⟩
    rintro ⟨hlt, hend, -⟩
    omega
  · rename_i hin
    rw [not_or, Nat.not_le, Nat.not_lt] at hin
    obtain ⟨hlt, hend⟩ := hin
    dsimp only
    rcases Nat.lt_or_ge addr MAXVA with hmax | hmax
    · have hmod : (addr + 8) % 2 ^ 64 = addr + 8 := by
        apply Nat.mod_eq_of_lt
        unfold MAXVA at hmax
        omega
      have hfaults : WordFaults s addr ↔ FirstFault s addr 8 :=
        ⟨fun hw => hw.2.2, fun hf => ⟨hlt, hend, hf⟩⟩
      rw [hmod] at hend
      rcases @Accounted.copyin pool rest 8 s addr h (Nat.le_of_lt hmax)
        (fun k hk => by omega) with ⟨hover, hret⟩ | ⟨done, hread⟩
      · rw [hret]
        exact Or.inl ⟨hover, rfl⟩
      · rw [hread.ret]
        refine Or.inr ?_
        cases done with
        | false =>
          exact ⟨_, none, rfl, hread.toPopulated, nofun,
            fun hw => hread.brought (hfaults.mp hw),
            fun hw => hread.quiet (mt hfaults.mpr hw)⟩
        | true =>
          refine ⟨_, some _, rfl, hread.toPopulated, ?_,
            fun hw => hread.brought (hfaults.mp hw),
            fun hw => hread.quiet (mt hfaults.mpr hw)⟩
          rintro _ ⟨⟩
          exact ⟨_, hread.bytes rfl, rfl⟩
    · rw [copyin_high hmax hlt (by decide)]
      exact Or.inl ⟨by omega, rfl⟩

theorem Accounted.fetchaddr (h : Accounted pool rest s) {o : Option ℕ}
    (haddr : addr < 2 ^ 64) (hcall : fetchaddr s addr = .ok (s', o)) :
    WordRead pool rest s addr s' o := by
  rcases h.fetchaddr_cases haddr with ⟨-, herr⟩ | ⟨_, _, hcall', hread⟩
  · cases herr.symm.trans hcall
  · cases hcall.symm.trans hcall'
    exact hread

/-! ## `copyinstr` -/

theorem userByte_of_presentByte {b : UInt8} (h : presentByte s va = some b) :
    userByte s va = some b := by
  unfold presentByte at h
  split at h
  · cases h
  · rename_i hwalk
    cases h
    obtain ⟨hmax, l, hl, hu, hpa⟩ := exists_leaf_of_walkaddr hwalk
    rw [hpa]
    exact userByte_of_leaf hmax hl hu rfl

/-- A string that `copyinstr` finds is the user's. It cannot wrap around,
since nothing is mapped at the top. -/
theorem copyinstr_user {max : ℕ} {dst : List UInt8} (hva : va < 2 ^ 64)
    (h : copyinstr s va max = (dst, true)) : ∃ str, dst = str ++ [0] ∧
      str.length < max ∧ UserString s va str := by
  rw [copyinstr_eq_scan s va max hva] at h
  obtain ⟨str, hlen, hstr⟩ := exists_terminated_of_scan (by rw [h])
  rw [scan_of_terminated hlen hstr] at h
  cases h
  refine ⟨str, rfl, hlen, ?_⟩
  have hsome : ∀ k ≤ str.length, ∃ b, bytesFrom s va k = some b := by
    intro k hk
    rcases Nat.lt_or_eq_of_le hk with hlt | rfl
    · exact ⟨str[k], (hstr.before k hlt).trans (List.getElem?_eq_getElem hlt)⟩
    · exact ⟨0, hstr.last⟩
  have hwrap : ∀ k ≤ str.length, (va + k) % 2 ^ 64 = va + k := by
    intro k
    induction k with
    | zero => exact fun _ => Nat.mod_eq_of_lt hva
    | succ k ih =>
      intro hk
      obtain ⟨b, hb⟩ := hsome k (by omega)
      rw [bytesFrom, ih (by omega)] at hb
      have := lt_MAXVA_of_userByte (userByte_of_presentByte hb)
      apply Nat.mod_eq_of_lt
      unfold MAXVA at this
      omega
  have hbyte : ∀ k ≤ str.length, userByte s (va + k) = bytesFrom s va k := by
    intro k hk
    obtain ⟨b, hb⟩ := hsome k hk
    rw [hb]
    rw [bytesFrom, hwrap k hk] at hb
    exact userByte_of_presentByte hb
  exact ⟨fun k hk => (hbyte k (Nat.le_of_lt hk)).trans (hstr.before k hk),
    hstr.ne_stop, (hbyte _ (Nat.le_refl _)).trans hstr.last⟩

/-! ## The loop -/

/-- The pages of the arguments. -/
def argPages (args : List Arg) : Multiset Frame :=
  (args.map Arg.page : List Frame)

theorem argPages_concat (args : List Arg) (a : Arg) :
    argPages (args ++ [a]) = a.page ::ₘ argPages args := by
  unfold argPages
  rw [List.map_append, ← Multiset.coe_add, add_comm]
  rfl

/-- `sys_exec` holds the pages of its arguments, and nothing else changed. -/
structure ArgsHeld (pool rest : Multiset Frame) (s₀ s : State)
    (args : List Arg) : Prop where
  accounted : Accounted pool (argPages args + rest) s
  touched : Touched s₀ s
  spares : Spares s₀.kmem s.kmem

/-- The arguments are the first strings of the user's array. -/
structure ArgsRead (s₀ : State) (uargv : ℕ) (args : List Arg) : Prop where
  inside : uargv + 8 * args.length < 2 ^ 64
  string : ∀ (i : ℕ) (h : i < args.length),
    args[i].str.length < PGSIZE ∧ ∃ a, a ≠ 0 ∧
      UserWord s₀ (uargv + 8 * i) a ∧ UserString s₀ a args[i].str

theorem kwrite_spares {km₁ km' : Kmem} {bs : List UInt8} (h : Spares km km₁)
    (hf : f ∈ km.freelist) (hlen : bs.length ≤ PGSIZE)
    (hcall : kwrite km₁ f.pa bs = .ok km') : Spares km km' := by
  unfold kwrite at hcall
  split at hcall
  · cases hcall
    refine ⟨h.free, fun g hg => (h.same g hg).trans ?_⟩
    have hne : f ≠ g := by
      rintro rfl
      exact hg hf
    intro i hi
    refine if_neg ?_
    rintro ⟨hlo, hhi⟩
    exact Frame.add_ne hne hi (g.pa + i) ⟨by omega, by omega⟩ rfl
  · cases hcall

variable {s₀ : State} {args : List Arg}

/-- A page is taken for the next argument. -/
theorem ArgsHeld.concat {km₁ km₂ : Kmem} {bs : List UInt8}
    (h : ArgsHeld pool rest s₀ s args) (halloc : kalloc s.kmem = some (f, km₁))
    (hlen : bs.length ≤ PGSIZE) (hwrite : kwrite km₁ f.pa bs = .ok km₂) :
    ArgsHeld pool rest s₀ { s with kmem := km₂ } (args ++ [⟨f, str⟩]) := by
  have hf : f ∈ s.kmem.freelist := by
    rw [kalloc_some halloc]
    exact List.mem_cons_self
  have hspares := kwrite_spares (kalloc_spares halloc) hf hlen hwrite
  have hfree : km₂.freelist = km₁.freelist := by
    unfold kwrite at hwrite
    split at hwrite
    · cases hwrite
      rfl
    · cases hwrite
  refine ⟨⟨?_, h.accounted.trap⟩,
    h.touched.trans (h.accounted.touched hspares), h.spares.trans hspares⟩
  have hled := (h.accounted.ledger.alloc halloc).congr hfree
  rwa [← Multiset.add_cons, Multiset.cons_swap, ← Multiset.cons_add,
    ← argPages_concat args ⟨f, str⟩] at hled

variable {uargv : ℕ}

/-- One more string of the user's array. -/
theorem ArgsRead.concat {a : ℕ} (h : ArgsRead s₀ uargv args) (ha : a ≠ 0)
    (hword : UserWord s₀ (uargv + 8 * args.length) a)
    (hstr : UserString s₀ a str) (hlen : str.length < PGSIZE) :
    ArgsRead s₀ uargv (args ++ [⟨f, str⟩]) where
  inside := by
    have := hword.le_MAXVA
    rw [List.length_append, List.length_singleton]
    unfold MAXVA at this
    omega
  string := by
    intro i hi
    rw [List.length_append, List.length_singleton] at hi
    rcases Nat.lt_or_eq_of_le (Nat.le_of_lt_succ hi) with hlt | rfl
    · rw [List.getElem_append_left hlt]
      exact h.string i hlt
    · rw [List.getElem_concat_length rfl]
      exact ⟨hlen, a, ha, hword, hstr⟩

theorem ArgsHeld.fetched {o : Option ℕ} (h : ArgsHeld pool rest s₀ s args)
    (haddr : addr < 2 ^ 64) (hcall : fetchaddr s addr = .ok (s₁, o)) :
    ArgsHeld pool rest s₀ s₁ args := by
  have hread := h.accounted.fetchaddr haddr hcall
  exact ⟨hread.accounted, h.touched.trans hread.touched,
    h.spares.trans hread.spares⟩

theorem length_copyinstr {va max : ℕ} (hva : va < 2 ^ 64) :
    (copyinstr s va max).1.length ≤ max := by
  rw [copyinstr_eq_scan s va max hva]
  exact length_scan_le _ _

/-- One round of the loop: it ends after the word is read, or a page is taken
for the string. -/
theorem fetchArgs_round {n i : ℕ} {args' : List Arg} {done : Bool}
    (h : fetchArgs uargv (n + 1) i s args = .ok (s', args', done)) :
    ∃ s₁ o, fetchaddr s ((uargv + 8 * i) % 2 ^ 64) = .ok (s₁, o) ∧
      ((s' = s₁ ∧ args' = args ∧ (done = true → o = some 0)) ∨
      ∃ a f km₁ km₂ dst got, o = some a ∧ a ≠ 0 ∧
        kalloc s₁.kmem = some (f, km₁) ∧
        copyinstr { s₁ with kmem := km₁ } a PGSIZE = (dst, got) ∧
        kwrite km₁ f.pa dst = .ok km₂ ∧
        ((got = false ∧ done = false ∧ s' = { s₁ with kmem := km₂ } ∧
            args' = args ++ [⟨f, dst.dropLast⟩]) ∨
          (got = true ∧ fetchArgs uargv n (i + 1) { s₁ with kmem := km₂ }
            (args ++ [⟨f, dst.dropLast⟩]) = .ok (s', args', done)))) := by
  obtain ⟨⟨s₁, o⟩, hfetch, h⟩ := bind_ok_iff.mp h
  refine ⟨s₁, o, lift_eq_ok.mp hfetch, ?_⟩
  cases o with
  | none =>
    cases h
    exact Or.inl ⟨rfl, rfl, nofun⟩
  | some a =>
    cases a with
    | zero =>
      cases h
      exact Or.inl ⟨rfl, rfl, fun _ => rfl⟩
    | succ a =>
      cases halloc : kalloc s₁.kmem with
      | none =>
        simp only [halloc] at h
        cases h
        exact Or.inl ⟨rfl, rfl, nofun⟩
      | some fk =>
        obtain ⟨f, km₁⟩ := fk
        simp only [halloc] at h
        obtain ⟨km₂, hwrite, h⟩ := bind_ok_iff.mp h
        rw [lift_eq_ok] at hwrite
        refine Or.inr ⟨a + 1, f, km₁, km₂, _, _, rfl,
          Nat.succ_ne_zero a, rfl, rfl, hwrite, ?_⟩
        cases hgot : (copyinstr { s₁ with kmem := km₁ } (a + 1)
          PGSIZE).2 with
        | false =>
          rw [hgot] at h
          cases h
          exact Or.inl ⟨rfl, rfl, rfl, rfl⟩
        | true =>
          rw [hgot] at h
          exact Or.inr ⟨rfl, h⟩

/-- **The loop of `sys_exec`** reads the strings of the user's array up to
the null pointer, each into a page of its own. -/
theorem fetchArgs_ok {args' : List Arg} {done : Bool} :
    ∀ {n : ℕ} {s : State} {args : List Arg},
    ArgsHeld pool rest s₀ s args → ArgsRead s₀ uargv args →
    fetchArgs uargv n args.length s args = .ok (s', args', done) →
    ArgsHeld pool rest s₀ s' args' ∧ (done = true →
      args'.length < args.length + n ∧ ArgsRead s₀ uargv args' ∧
        UserWord s₀ (uargv + 8 * args'.length) 0) := by
  intro n
  induction n with
  | zero =>
    intro s args hheld _ hcall
    cases hcall
    exact ⟨hheld, nofun⟩
  | succ n ih =>
    intro s args hheld hread hcall
    obtain ⟨s₁, o, hfetch, hround⟩ := fetchArgs_round hcall
    rw [Nat.mod_eq_of_lt hread.inside] at hfetch
    have hheld₁ := hheld.fetched hread.inside hfetch
    have hword : ∀ x, o = some x →
        UserWord s₀ (uargv + 8 * args.length) x := fun x hx =>
      ((hheld.accounted.fetchaddr hread.inside hfetch).word x hx).congr
        fun va => (hheld.touched.view va).symm
    rcases hround with ⟨rfl, rfl, hnull⟩ | ⟨a, f, km₁, km₂, dst, got, ho,
      ha, halloc, hstr, hwrite, hrest⟩
    · exact ⟨hheld₁, fun hdone =>
        ⟨by omega, hread, hword 0 (hnull hdone)⟩⟩
    · have hword := hword a ho
      have hlen : dst.length ≤ PGSIZE := by
        have := @length_copyinstr { s₁ with kmem := km₁ } a PGSIZE hword.lt
        rwa [hstr] at this
      have hheld₂ : ArgsHeld pool rest s₀ { s₁ with kmem := km₂ }
          (args ++ [⟨f, dst.dropLast⟩]) :=
        hheld₁.concat halloc hlen hwrite
      rcases hrest with ⟨-, rfl, rfl, rfl⟩ | ⟨rfl, hrest⟩
      · exact ⟨hheld₂, nofun⟩
      · obtain ⟨str, rfl, hfits, hstr⟩ := copyinstr_user hword.lt hstr
        rw [List.dropLast_concat] at hrest hheld₂
        -- taking a page for the string changes nothing for the user
        have htouched := hheld₁.touched.trans
          (hheld₁.accounted.touched (kalloc_spares halloc))
        have hread₂ := hread.concat (f := f) ha hword
          (hstr.congr fun va => (htouched.view va).symm) hfits
        obtain ⟨hheld', hdone⟩ := ih hheld₂ hread₂ (by simpa using hrest)
        refine ⟨hheld', fun hd => ?_⟩
        obtain ⟨hlt, hrest⟩ := hdone hd
        rw [List.length_append, List.length_singleton] at hlt
        exact ⟨by omega, hrest⟩

end Xv6.Exec
