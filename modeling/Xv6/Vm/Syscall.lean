import Xv6.Vm.Unmap

/-!
# The memory system calls (`kernel/sysproc.c`, `kernel/proc.c`)

`sys_mmap`, `sys_munmap`, `sys_sbrk` and `growproc`. The arguments are what
`argaddr` and `argint` deliver; a result of `none` is -1. A descriptor that
names no open file makes `sys_mmap` follow a null pointer, and one outside
the descriptor table makes it read past the array.
-/

namespace Xv6.Vm

open Framework

/-- `growproc`; the flag says whether it returned 0. -/
def growproc (s : State) (n : Int32) : Except Panic (State × Bool) :=
  let sz := s.p.sz
  let newsz := toUint64 (sz + n.toInt)
  if s.p.mmapBase ≤ newsz then .ok (s, false)
  else if 0 < n.toInt then do
    let (km, pt, sz') ← uvmalloc s.kmem s.p.pagetable sz newsz heapPerm
    let s := s.setMemory km pt
    if sz' = 0 then .ok (s, false)
    else .ok ({ s with p := { s.p with sz := sz' } }, true)
  else if n.toInt < 0 then do
    let (km, pt, sz') ← uvmdealloc s.kmem s.p.pagetable sz newsz
    let s := s.setMemory km pt
    .ok ({ s with p := { s.p with sz := sz' } }, true)
  else .ok (s, true)

def SBRK_EAGER : Int32 := 1

/-- `sys_sbrk`. -/
def sysSbrk (s : State) (n t : Int32) : Except Panic (State × Option ℕ) :=
  let addr := s.p.sz
  if t = SBRK_EAGER ∨ n.toInt < 0 then do
    let (s, done) ← growproc s n
    .ok (s, if done then some addr else none)
  else if toUint64 (addr + n.toInt) < addr then .ok (s, none)
  else
    .ok ({ s with p := { s.p with sz := toUint64 (addr + n.toInt) } },
      some addr)

/-- `p->ofile[fd]`, followed. -/
def fdFile (s : State) (fd : Int32) : Except Panic FileId :=
  if h : 0 ≤ fd.toInt ∧ fd.toInt < NOFILE then
    match s.p.ofile ⟨fd.toInt.toNat, fd_lt h⟩ with
    | some k => .ok k
    | none => .error .kerneltrap
  else .error .badFd

/-- The two permission tests of `sys_mmap`. -/
def mmapRefused (f : File) (prot flags : Int32) : Bool :=
  (decide (prot &&& PROT_READ ≠ 0) && !f.readable) ||
    (decide (prot &&& PROT_WRITE ≠ 0) && !f.writable &&
      decide (flags &&& MAP_SHARED ≠ 0))

/-- `PGROUNDUP(len)` as a `uint64`. -/
def mmapSize (len : Int32) : ℕ := toUint64 (pgroundupInt len.toInt)

/-- `PGROUNDDOWN(p->mmap_base - size)`. -/
def mmapStart (base : ℕ) (len : Int32) : ℕ :=
  pgrounddown (toUint64 ((base : ℤ) - mmapSize len))

/-- `sys_mmap`. -/
def sysMmap (s : State) (addr : UInt64) (len prot flags fd offset : Int32) :
    Except Panic (State × Option ℕ) :=
  if len = 0 then .ok (s, none)
  else if addr ≠ 0 then .ok (s, none)
  else do
    let k ← fdFile s fd
    if mmapRefused (s.file k) prot flags then .ok (s, none)
    else
      let start := mmapStart s.p.mmapBase len
      if start < s.p.sz ∨ TRAPFRAME ≤ start then .ok (s, none)
      else
        match findVma s.p.vma fun v => !v.valid with
        | none => .ok (s, none)
        | some i => do
            let s ← filedup s k
            let s := s.setVma i
              { valid := true, start := start
                end_ := toUint64 ((start : ℤ) + mmapSize len)
                prot := prot, flags := flags, f := k, offset := offset }
            .ok ({ s with p := { s.p with mmapBase := start } }, some start)

/-- `PGROUNDUP(addr + len)` in `sys_munmap`. -/
def munmapEnd (addr : UInt64) (len : Int32) : ℕ :=
  pgroundup (toUint64 (addr.toNat + len.toInt))

/-- The loop of `sys_munmap`: only the first slot that the range hits is
unmapped. The flag says whether the call goes on. -/
def munmapHit (s : State) (addr stop : ℕ) : Except Panic (State × Bool) :=
  match findVma s.p.vma fun v => decide (v.Hit addr stop) with
  | none => .ok (s, true)
  | some i => uvmunmapVma s i addr stop

/-- `if (addr == p->mmap_base) p->mmap_base = end;` -/
def rebase (s : State) (addr stop : ℕ) : State :=
  if addr = s.p.mmapBase then { s with p := { s.p with mmapBase := stop } }
  else s

/-- `sys_munmap`; the flag says whether it returned 0. -/
def sysMunmap (s : State) (addr : UInt64) (len : Int32) :
    Except Panic (State × Bool) :=
  if addr = 0 ∨ len = 0 ∨ addr.toNat % PGSIZE ≠ 0 then .ok (s, false)
  else do
    let stop := munmapEnd addr len
    let (s, goOn) ← munmapHit s addr.toNat stop
    .ok (if goOn then (rebase s addr.toNat stop, true) else (s, false))

/-! ## What `sys_mmap` does -/

/-- A mapping of file `k` was made in slot `i`. -/
structure MmapDone (s : State) (len prot flags offset : Int32)
    (i : Fin NVMA) (k : FileId) (s' : State) : Prop where
  len_ne : len ≠ 0
  granted : mmapRefused (s.file k) prot flags = false
  sz_le : s.p.sz ≤ mmapStart s.p.mmapBase len
  lt_trapframe : mmapStart s.p.mmapBase len < TRAPFRAME
  free : (s.p.vma i).valid = false
  ref_pos : 0 < (s.file k).ref
  kmem : s'.kmem = s.kmem
  inode : s'.inode = s.inode
  pipe : s'.pipe = s.pipe
  file : s'.file = Function.update s.file k
    { s.file k with ref := (s.file k).ref + 1 }
  p : s'.p = { s.p with
    mmapBase := mmapStart s.p.mmapBase len
    vma := Function.update s.p.vma i
      { valid := true, start := mmapStart s.p.mmapBase len
        end_ := toUint64 ((mmapStart s.p.mmapBase len : ℤ) + mmapSize len)
        prot := prot, flags := flags, f := k, offset := offset } }

variable {s s' : State}

theorem sysMmap_spec {addr : UInt64} {len prot flags fd offset : Int32}
    {r : Option ℕ} (h : sysMmap s addr len prot flags fd offset = .ok (s', r)) :
    s' = s ∨ ∃ i k, fdFile s fd = .ok k ∧
      MmapDone s len prot flags offset i k s' := by
  unfold sysMmap at h
  split at h
  · cases h
    exact Or.inl rfl
  · rename_i hlen
    split at h
    · cases h
      exact Or.inl rfl
    · obtain ⟨k, hfd, h⟩ := bind_ok_iff.mp h
      split at h
      · cases h
        exact Or.inl rfl
      · rename_i hgrant
        dsimp only at h
        split at h
        · cases h
          exact Or.inl rfl
        · rename_i hrange
          simp only [not_or, Nat.not_lt, Nat.not_le] at hrange
          split at h
          · cases h
            exact Or.inl rfl
          · rename_i i hfind
            obtain ⟨s₁, hdup, h⟩ := bind_ok_iff.mp h
            obtain ⟨hpos, rfl⟩ := filedup_ok hdup
            cases h
            refine Or.inr ⟨i, k, hfd, hlen, ?_, hrange.1, hrange.2,
              ?_, hpos, rfl, rfl, rfl, rfl, rfl⟩
            · simpa using hgrant
            · have := findVma_some hfind
              simpa using this

/-! ## What `sys_munmap` does -/

/-- Everything `sys_munmap` can do: give up, possibly after some write-back;
or unmap from the first slot that the range hits, if there is one, and move
`mmap_base`. -/
inductive MunmapDone (s : State) (addr stop : ℕ) : State → Prop
  | refused : MunmapDone s addr stop s
  | failed {i : Fin NVMA} {s' : State} (hit : (s.p.vma i).Hit addr stop)
      (writes : WritesBack s (s.p.vma i) (unmapStart (s.p.vma i) addr)
        (unmapEnd (s.p.vma i) stop))
      (only : OnlyFile s (s.file (s.p.vma i).f).ip s') :
      MunmapDone s addr stop s'
  | missed (aligned : addr % PGSIZE = 0)
      (miss : ∀ i, ¬ (s.p.vma i).Hit addr stop) :
      MunmapDone s addr stop (rebase s addr stop)
  | released {i : Fin NVMA} {s' : State} (aligned : addr % PGSIZE = 0)
      (rel : Released s i addr stop s') :
      MunmapDone s addr stop (rebase s' addr stop)

theorem munmapEnd_mod (addr : UInt64) (len : Int32) :
    munmapEnd addr len % PGSIZE = 0 := pgroundup_mod _

theorem sysMunmap_spec {addr : UInt64} {len : Int32} {done : Bool}
    (hv : ∀ i, (s.p.vma i).valid = true → (s.p.vma i).Bounded)
    (h : sysMunmap s addr len = .ok (s', done)) :
    MunmapDone s addr.toNat (munmapEnd addr len) s' := by
  unfold sysMunmap at h
  split at h
  · cases h
    exact .refused
  · rename_i hargs
    simp only [not_or, not_not] at hargs
    have haddr := hargs.2.2
    obtain ⟨⟨s₁, goOn⟩, hhit, h⟩ := bind_ok_iff.mp h
    unfold munmapHit at hhit
    split at hhit
    · rename_i hfind
      cases hhit
      cases h
      refine .missed haddr fun i => ?_
      simpa using findVma_none hfind i
    · rename_i i hfind
      have hi : (s.p.vma i).Hit addr.toNat (munmapEnd addr len) :=
        of_decide_eq_true (findVma_some hfind)
      rcases uvmunmapVma_spec (hv i) haddr (munmapEnd_mod addr len) hhit with
        ⟨rfl, honly, hidle⟩ | ⟨rfl, hrel⟩
      · cases h
        by_cases hwrites : WritesBack s (s.p.vma i)
            (unmapStart (s.p.vma i) addr.toNat)
            (unmapEnd (s.p.vma i) (munmapEnd addr len))
        · exact .failed hi hwrites honly
        · rw [hidle hwrites]
          exact .refused
      · cases h
        exact .released haddr hrel

/-! ## What `growproc` and `sys_sbrk` do -/

/-- Everything `growproc` can do: nothing to the leaves, map the pages up to a
larger size, or unmap those from a smaller one on. -/
inductive GrowDone (s : State) : State → Prop
  | same {km : Kmem} {pt : PageTable}
      (leaf : ∀ vb < MAXVA, pt.leaf vb = s.p.pagetable.leaf vb) :
      GrowDone s (s.setMemory km pt)
  | up {km : Kmem} {pt : PageTable} {sz : ℕ} (le : s.p.sz ≤ sz)
      (lt : sz < s.p.mmapBase)
      (grown : Grown (pgroundup s.p.sz) (pgroundup sz) heapPerm
        s.p.pagetable pt) :
      GrowDone s { s with kmem := km, p := { s.p with pagetable := pt, sz := sz } }
  | down {km : Kmem} {pt : PageTable} {sz : ℕ} (lt : sz < s.p.sz)
      (lt_base : sz < s.p.mmapBase) (small : s.p.sz < 2 ^ 40)
      (inside : ∀ vb < MAXVA, pgroundup sz ≤ vb → vb < pgroundup s.p.sz →
        pt.leaf vb = none)
      (outside : ∀ vb < MAXVA,
        ¬ (pgroundup sz ≤ vb ∧ vb < pgroundup s.p.sz) →
        pt.leaf vb = s.p.pagetable.leaf vb) :
      GrowDone s { s with kmem := km, p := { s.p with pagetable := pt, sz := sz } }

theorem growproc_spec {n : Int32} {done : Bool} (hsz : s.p.sz < 2 ^ 64)
    (hbase : s.p.mmapBase ≤ TRAPFRAME) (h : growproc s n = .ok (s', done)) :
    GrowDone s s' := by
  have hlo := n.le_toInt
  have hhi := n.toInt_lt
  have htrap : TRAPFRAME < 2 ^ 38 := by decide
  dsimp only [growproc] at h
  split at h
  · cases h
    exact @GrowDone.same s s.kmem s.p.pagetable fun _ _ => rfl
  · rename_i hbelow
    have hbelow := Nat.not_le.mp hbelow
    split at h
    · rename_i hpos
      obtain ⟨⟨km, pt, r⟩, halloc, h⟩ := bind_ok_iff.mp h
      rcases Nat.lt_or_ge (toUint64 (s.p.sz + n.toInt)) s.p.sz with hwrap | hle
      · -- the sum wrapped: `uvmalloc` returns at once
        rw [uvmalloc, if_pos hwrap] at halloc
        cases halloc
        split at h
        · cases h
          exact @GrowDone.same s s.kmem s.p.pagetable fun _ _ => rfl
        · cases h
          exact @GrowDone.same s s.kmem s.p.pagetable fun _ _ => rfl
      · have hnew : 0 < toUint64 (s.p.sz + n.toInt) := by
          unfold toUint64 at *
          omega
        rcases uvmalloc_spec (by omega) hle hnew halloc with
          ⟨rfl, hgrown⟩ | ⟨rfl, hsame⟩
        · simp only [Nat.pos_iff_ne_zero.mp hnew, if_false] at h
          cases h
          exact .up hle hbelow hgrown
        · simp only [if_true] at h
          cases h
          exact .same hsame
    · split at h
      · rename_i hneg
        obtain ⟨⟨km, pt, r⟩, hdealloc, h⟩ := bind_ok_iff.mp h
        cases h
        have hlt : toUint64 (s.p.sz + n.toInt) < s.p.sz := by
          unfold toUint64 at *
          omega
        have hsmall : s.p.sz < 2 ^ 40 := by
          unfold toUint64 at *
          omega
        obtain ⟨rfl, hin, hout⟩ := uvmdealloc_spec hsmall hlt hdealloc
        exact .down hlt hbelow hsmall hin hout
      · cases h
        exact @GrowDone.same s s.kmem s.p.pagetable fun _ _ => rfl

/-- `sys_sbrk` goes through `growproc`, or only moves the size up. -/
inductive SbrkDone (s : State) (n t : Int32) : State → Prop
  | grow {s' : State} (done : GrowDone s s') : SbrkDone s n t s'
  | lazy (mode : t ≠ SBRK_EAGER) (nonneg : 0 ≤ n.toInt)
      (lt : s.p.sz + n.toInt.toNat < 2 ^ 64) :
      SbrkDone s n t
        { s with p := { s.p with sz := s.p.sz + n.toInt.toNat } }

theorem SbrkDone.same {s s' : State} {n t : Int32} (h : SbrkDone s n t s') :
    s'.p.vma = s.p.vma ∧ s'.file = s.file ∧ s'.inode = s.inode := by
  cases h with
  | grow hg => cases hg <;> exact ⟨rfl, rfl, rfl⟩
  | lazy => exact ⟨rfl, rfl, rfl⟩

theorem sysSbrk_spec {n t : Int32} {r : Option ℕ} (hsz : s.p.sz < 2 ^ 64)
    (hbase : s.p.mmapBase ≤ TRAPFRAME) (h : sysSbrk s n t = .ok (s', r)) :
    SbrkDone s n t s' := by
  have hhi := n.toInt_lt
  dsimp only [sysSbrk] at h
  split at h
  · obtain ⟨⟨s₁, done⟩, hgrow, h⟩ := bind_ok_iff.mp h
    cases h
    exact .grow (growproc_spec hsz hbase hgrow)
  · rename_i hlazy
    simp only [not_or, Int.not_lt] at hlazy
    split at h
    · cases h
      exact .grow (@GrowDone.same s s.kmem s.p.pagetable fun _ _ => rfl)
    · rename_i hwrap
      cases h
      have hlt : s.p.sz + n.toInt.toNat < 2 ^ 64 := by
        unfold toUint64 at hwrap
        omega
      have hsum : toUint64 (s.p.sz + n.toInt) = s.p.sz + n.toInt.toNat := by
        unfold toUint64
        omega
      rw [hsum]
      exact .lazy hlazy.1 hlazy.2 hlt

end Xv6.Vm
