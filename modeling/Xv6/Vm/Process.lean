import Xv6.Vm.Syscall

/-!
# Processes come and go (`kernel/proc.c`, `kernel/exec.c`)

`allocproc`, `kfork`, the commit of `kexec`, `kexit` and `freeproc`. An unused
entry of the process table keeps its arrays of mappings and descriptors: no
function clears them when the entry is freed or taken.
-/

namespace Xv6.Vm

open Framework

/-- The frame of `trampoline`, from `kernel.sym`. -/
def trampolineFrame : Frame := 6

/-- What an `UNUSED` entry of `proc[]` carries over to its next process. -/
structure Slot where
  vma : VMAs
  ofile : Fin NOFILE → Option FileId
  cwd : Option InodeId

/-! ## Making a process -/

/-- A page table with an empty root page. -/
def PageTable.empty (f : Frame) : PageTable where
  root := Table.blank f none
  high := fun _ _ => rfl

/-- `uvmcreate`. -/
def uvmcreate (km : Kmem) : Option (PageTable × Kmem) :=
  match kalloc km with
  | none => none
  | some (f, km) => some (PageTable.empty f, km.memset f.pa 0 PGSIZE)

/-- `proc_pagetable`. -/
def procPagetable (km : Kmem) (trapframe : Frame) :
    Except Panic (Kmem × Option PageTable) :=
  match uvmcreate km with
  | none => .ok (km, none)
  | some (pt, km) => do
      let (km, pt, done) ← mappages km pt TRAMPOLINE trampolineFrame
        { r := true, x := true }
      if done then do
        let (km, pt, done) ← mappages km pt TRAPFRAME trapframe
          { r := true, w := true }
        if done then .ok (km, some pt)
        else do
          let (km, pt) ← uvmunmap km pt TRAMPOLINE 1 false
          let km ← uvmfree km pt 0
          .ok (km, none)
      else do
        let km ← uvmfree km pt 0
        .ok (km, none)

/-- `allocproc`, once it has found the entry. -/
def allocproc (km : Kmem) (slot : Slot) : Except Panic (Kmem × Option Proc) :=
  match kalloc km with
  | none => .ok (km, none)
  | some (trapframe, km) => do
      let (km, pt) ← procPagetable km trapframe
      match pt with
      | none => do
          let km ← kfree km trapframe
          .ok (km, none)
      | some pt =>
          .ok (km, some
            { sz := 0, pagetable := pt, trapframe := trapframe
              mmapBase := TRAPFRAME, vma := slot.vma, ofile := slot.ofile
              cwd := slot.cwd })

/-- The arrays of the entry are not touched. -/
theorem allocproc_spec {km km' : Kmem} {slot : Slot} {np : Proc}
    (h : allocproc km slot = .ok (km', some np)) :
    np.mmapBase = TRAPFRAME ∧ np.vma = slot.vma := by
  unfold allocproc at h
  split at h
  · cases h
  · obtain ⟨⟨km₁, pt⟩, -, h⟩ := bind_ok_iff.mp h
    cases pt with
    | none =>
      obtain ⟨km₂, -, h⟩ := bind_ok_iff.mp h
      cases h
    | some pt =>
      cases h
      exact ⟨rfl, rfl⟩

/-! ## `freeproc` -/

/-- `freeproc`: the memory goes, the arrays of the entry stay. -/
def freeproc (km : Kmem) (p : Proc) : Except Panic (Kmem × Slot) := do
  let km ← kfree km p.trapframe
  let km ← procFreepagetable km p.pagetable p.sz
  .ok (km, ⟨p.vma, p.ofile, p.cwd⟩)

/-! ## `kfork` -/

/-- One round of the loop that copies the mappings: the child's array and the
file table. -/
def forkVma (p : Proc) (sv : State × VMAs) (i : Fin NVMA) :
    Except Panic (State × VMAs) :=
  if (p.vma i).valid then do
    let s ← filedup sv.1 (p.vma i).f
    .ok (s, Function.update sv.2 i (p.vma i))
  else .ok sv

/-- One round of the loop that copies the descriptors. -/
def forkFile (p : Proc) (so : State × (Fin NOFILE → Option FileId))
    (fd : Fin NOFILE) : Except Panic (State × (Fin NOFILE → Option FileId)) :=
  match p.ofile fd with
  | some k => do
      let s ← filedup so.1 k
      .ok (s, Function.update so.2 fd (some k))
  | none => .ok so

/-- `idup`. -/
def idup (s : State) (i : InodeId) : State :=
  s.setInode i { s.inode i with ref := (s.inode i).ref + 1 }

/-- `sizeof(struct trapframe)` and the place of `a0` in it. -/
def trapframeSize : ℕ := 288

def trapframeA0 : ℕ := 112

/-- `kfork`, given the entry that `allocproc` takes: the state after it and
the child. -/
def kfork (s : State) (slot : Slot) : Except Panic (State × Option Proc) := do
  let (km, np) ← allocproc s.kmem slot
  match np with
  | none => .ok ({ s with kmem := km }, none)
  | some np => do
      let (km, pt, done) ← uvmcopy km s.p.pagetable np.pagetable s.p.sz
      if done then do
        let (s, vma) ← (List.finRange NVMA).foldlM (forkVma s.p)
          ({ s with kmem := km }, np.vma)
        let km := (s.kmem.memmove np.trapframe.pa
          (fun k => s.kmem.mem (s.p.trapframe.pa + k)) trapframeSize).memset
            (np.trapframe.pa + trapframeA0) 0 8
        let (s, ofile) ← (List.finRange NOFILE).foldlM (forkFile s.p)
          ({ s with kmem := km }, np.ofile)
        match s.p.cwd with
        | none => .error .kerneltrap
        | some cwd =>
            .ok (idup s cwd, some
              { np with
                pagetable := pt, sz := s.p.sz, vma := vma, ofile := ofile
                cwd := some cwd })
      else do
        let (km, _) ← freeproc km { np with pagetable := pt }
        .ok ({ s with kmem := km }, none)

/-! ## `kexec` -/

/-- The commit of `kexec` to a loaded image: the process gets the new page
table and size, and the old ones are freed. -/
def kexecCommit (s : State) (pagetable : PageTable) (sz : ℕ) :
    Except Panic State := do
  let km ← procFreepagetable s.kmem s.p.pagetable s.p.sz
  .ok { s with
    kmem := km, p := { s.p with pagetable := pagetable, sz := sz } }

/-! ## `kexit` -/

/-- One round of the loop that closes the descriptors. -/
def exitFile (s : State) (fd : Fin NOFILE) : Except Panic State :=
  match s.p.ofile fd with
  | some k => do
      let s ← fileclose s k
      .ok { s with p := { s.p with ofile := Function.update s.p.ofile fd none } }
  | none => .ok s

/-- One round of the loop that unmaps the mappings; a failure is only
logged. -/
def exitVma (s : State) (i : Fin NVMA) : Except Panic State :=
  if (s.p.vma i).valid then do
    let (s, _) ← uvmunmapVma s i (s.p.vma i).start (s.p.vma i).end_
    if (s.p.vma i).start = s.p.mmapBase then
      .ok { s with p := { s.p with mmapBase := (s.p.vma i).end_ } }
    else .ok s
  else .ok s

/-- `kexit` up to the end of the loop over the mappings. -/
def exitLoops (s : State) : Except Panic State := do
  let s ← (List.finRange NOFILE).foldlM exitFile s
  (List.finRange NVMA).foldlM exitVma s

/-- `kexit`. -/
def kexit (s : State) : Except Panic State := do
  let s ← exitLoops s
  match s.p.cwd with
  | none => .error .kerneltrap
  | some cwd =>
      let s := iput s cwd
      .ok { s with p := { s.p with cwd := none, state := .zombie } }

/-! ## One process as a machine -/

/-- What the process can ask for or run into, and what the rest of the system
does to the free list and the files meanwhile. -/
inductive Op
  | mmap (addr : UInt64) (len prot flags fd offset : Int32)
  | munmap (addr : UInt64) (len : Int32)
  | sbrk (n t : Int32)
  | growproc (n : Int32)
  | vmfault (va : UInt64) (read : Bool)
  | load (va : UInt64)
  | store (va : UInt64) (b : UInt8)
  | exit
  | others (freelist : List Frame) (inode : InodeId → Inode)

/-- The end of `usertrap`. -/
def usertrapret (s : State) : Except Panic State :=
  if s.p.killed then kexit s else .ok s

variable {va : ℕ}

/-- Everything a trap can do: the process goes on, or it is killed and
exits. -/
theorem usertrap_spec {s s' : State} {read : Bool}
    (h : (usertrapFault s va read >>= usertrapret) = .ok s') :
    ∃ s₁ s₂ r, Faulted s va read s₁ r ∧ (s₂ = s₁ ∨ s₂ = setkilled s₁) ∧
      (s' = s₂ ∨ kexit s₂ = .ok s') := by
  obtain ⟨s₂, hfault, hret⟩ := bind_ok_iff.mp h
  obtain ⟨⟨s₁, r⟩, hvm, hfault⟩ := bind_ok_iff.mp hfault
  refine ⟨s₁, s₂, r, vmfault_spec hvm, ?_, ?_⟩
  · cases hfault
    split
    · exact Or.inr rfl
    · exact Or.inl rfl
  · unfold usertrapret at hret
    split at hret
    · exact Or.inr hret
    · cases hret
      exact Or.inl rfl

theorem kexit_zombie {s s' : State} (h : kexit s = .ok s') :
    s'.p.state = .zombie := by
  obtain ⟨s₁, -, h⟩ := bind_ok_iff.mp h
  split at h
  · cases h
  · cases h
    rfl

/-- One execution of a load instruction: it goes through or it traps. -/
def userLoad (s : State) (va : ℕ) : Except Panic State :=
  match translateLoad s.p.pagetable va with
  | some _ => .ok s
  | none => do
      let s ← usertrapFault s va true
      usertrapret s

/-- One execution of a store instruction. -/
def userStore (s : State) (va : ℕ) (b : UInt8) : Except Panic State :=
  match translateStore s.p.pagetable va with
  | some l => .ok (storeThrough s va l b)
  | none => do
      let s ← usertrapFault s va false
      usertrapret s

def step (s : State) : Op → Except Panic State
  | .mmap addr len prot flags fd offset =>
      (sysMmap s addr len prot flags fd offset).map Prod.fst
  | .munmap addr len => (sysMunmap s addr len).map Prod.fst
  | .sbrk n t => (sysSbrk s n t).map Prod.fst
  | .growproc n => (growproc s n).map Prod.fst
  | .vmfault va read => (vmfault s va.toNat read).map Prod.fst
  | .load va => userLoad s va.toNat
  | .store va b => userStore s va.toNat b
  | .exit => kexit s
  | .others freelist inode =>
      .ok { s with kmem := { s.kmem with freelist := freelist }, inode := inode }

/-! ## A process to start from -/

/-- The three page-table pages above the trap pages, which they share. -/
def bootPages : PageTable :=
  (PageTable.empty 100).setMid (show TRAPFRAME < MAXVA by decide)
    ((Table.blank 101 none).set (px 1 TRAPFRAME) (some (Table.blank 102 none)))

/-- A page table with nothing but the trap pages, as `proc_pagetable` makes
it. -/
def bootTable : PageTable :=
  (bootPages.setPte TRAMPOLINE
    (some ⟨trampolineFrame, { r := true, x := true }⟩)).setPte TRAPFRAME
      (some ⟨103, { r := true, w := true }⟩)

theorem bootPages_leaf (va : ℕ) : bootPages.leaf va = none := by
  simp only [bootPages, PageTable.leaf, PageTable.setMid, PageTable.empty,
    Root.value, Root.slot, Root.setMid, Table.set]
  by_cases h₂ : px 2 va = px 2 TRAPFRAME
  · by_cases h₁ : px 1 va = px 1 TRAPFRAME
    · simp [h₂, h₁, Table.blank]
    · simp [h₂, h₁, Table.blank]
  · simp [h₂, Table.blank]

theorem bootTable_leaf (h : va < TRAPFRAME) : bootTable.leaf va = none := by
  have hva : va < MAXVA := Nat.lt_trans h TRAPFRAME_lt_MAXVA
  have hne : pgrounddown va ≠ pgrounddown TRAPFRAME ∧
      pgrounddown va ≠ pgrounddown TRAMPOLINE := by
    unfold pgrounddown TRAPFRAME TRAMPOLINE MAXVA PGSIZE at *
    omega
  rw [bootTable, PageTable.leaf_setPte_of_ne _ _ (by decide) hva hne.1,
    PageTable.leaf_setPte_of_ne _ _ (by decide) hva hne.2, bootPages_leaf]

theorem bootTable_frames_usable : ∀ f ∈ bootTable.frames, f.Usable := by
  have hall : (bootTable.frames.all fun f => decide f.Usable) = true := by
    decide +kernel
  intro f hf
  exact of_decide_eq_true (List.all_eq_true.mp hall f hf)

/-- A page at `va`, beside the trap pages. -/
def mappedTable (va : ℕ) (perm : Perm) : PageTable :=
  bootTable.setPte va (some ⟨200, perm⟩)

theorem mappedTable_leaf {vb : ℕ} {perm : Perm} (h : va < MAXVA)
    (hb : vb < TRAPFRAME) (he : bootTable.pte va = some none) :
    (mappedTable va perm).leaf vb =
      if pgrounddown vb = pgrounddown va then some ⟨200, perm⟩ else none := by
  have hvb : vb < MAXVA := Nat.lt_trans hb TRAPFRAME_lt_MAXVA
  unfold mappedTable
  split
  · rename_i heq
    exact PageTable.leaf_setPte_self _ he heq
  · rename_i hne
    rw [PageTable.leaf_setPte_of_ne _ _ h hvb hne, bootTable_leaf hb]

/-- A small process with one open file, `f`, on descriptor 0, and the inode
`ip` behind entry 0 of the inode table; entry 1 is its directory. -/
def bootState (freelist : List Frame) (f : File) (ip : Inode) : State where
  kmem := ⟨freelist, fun _ => 0⟩
  file := fun k => if k = 0 then f else {}
  inode := fun i => if i = 0 then ip else
    { type := 1, nlink := 1, ref := 1, size_le := Inode.empty_size_le }
  pipe := fun _ => {}
  freeBlocks := 100
  p :=
    { sz := PGSIZE, pagetable := bootTable, trapframe := 103
      mmapBase := TRAPFRAME, vma := fun _ => {}
      ofile := fun fd => if fd = 0 then some 0 else none
      cwd := some 1 }

end Xv6.Vm
