import Xv6.Vm.Fault
import Xv6.Vm.Process

/-!
# The memory functions over any `kfree`

`kfree` does not look whether the page it is given is on the free list
already. To be able to say that it is never called on such a page, the
functions that call it are written once more with the allocator's `kfree` as a
parameter. With `kfree` itself they are the functions of `vm.c` and `proc.c`;
with one that does something else for a page on the free list, they tell
whether that case is ever reached.
-/

namespace Xv6.Vm

open Framework

/-- What stands in for `kfree`. -/
abbrev Free := Kmem → Frame → Except Panic Kmem

/-- The stand-in does as `kfree` on every page that is not on the free list;
on a page that is, it may do anything. -/
def StandsIn (free : Free) : Prop :=
  ∀ km f, f ∉ km.freelist → free km f = kfree km f

theorem standsIn_kfree : StandsIn kfree := fun _ _ _ => rfl

section With

variable (free : Free)

/-! ## The functions -/

/-- The loop of `uvmunmap` with `do_free` set. -/
def uvmunmapLoopWith : ℕ → ℕ → Kmem → PageTable →
    Except Panic (Kmem × PageTable)
  | 0, _, km, pt => .ok (km, pt)
  | n + 1, a, km, pt => do
      match ← walk pt a with
      | some (some l) =>
          let km ← free km l.frame
          uvmunmapLoopWith n (a + PGSIZE) km (pt.setPte a none)
      | _ => uvmunmapLoopWith n (a + PGSIZE) km pt

/-- `uvmunmap` with `do_free` set. -/
def uvmunmapWith (km : Kmem) (pt : PageTable) (va npages : ℕ) :
    Except Panic (Kmem × PageTable) :=
  if va % PGSIZE ≠ 0 then .error .uvmunmapUnaligned
  else
    uvmunmapLoopWith free (((va + npages * PGSIZE) % 2 ^ 64 - va) / PGSIZE)
      va km pt

def uvmdeallocWith (km : Kmem) (pt : PageTable) (oldsz newsz : ℕ) :
    Except Panic (Kmem × PageTable × ℕ) :=
  if oldsz ≤ newsz then .ok (km, pt, oldsz)
  else if pgroundup newsz < pgroundup oldsz then do
    let npages := toInt32 ((pgroundup oldsz - pgroundup newsz) / PGSIZE : ℕ)
    let (km, pt) ← uvmunmapWith free km pt (pgroundup newsz) (toUint64 npages)
    .ok (km, pt, newsz)
  else .ok (km, pt, newsz)

def uvmallocLoopWith (oldsz : ℕ) (perm : Perm) :
    ℕ → ℕ → Kmem → PageTable → Except Panic (Kmem × PageTable × Bool)
  | 0, _, km, pt => .ok (km, pt, true)
  | n + 1, a, km, pt =>
      match kalloc km with
      | none => do
          let (km, pt, _) ← uvmdeallocWith free km pt a oldsz
          .ok (km, pt, false)
      | some (mem, km) => do
          let (km, pt, done) ←
            mappages (km.memset mem.pa 0 PGSIZE) pt a mem perm
          if done then uvmallocLoopWith oldsz perm n (a + PGSIZE) km pt
          else do
            let km ← free km mem
            let (km, pt, _) ← uvmdeallocWith free km pt a oldsz
            .ok (km, pt, false)

def uvmallocWith (km : Kmem) (pt : PageTable) (oldsz newsz : ℕ)
    (perm : Perm) : Except Panic (Kmem × PageTable × ℕ) :=
  if newsz < oldsz then .ok (km, pt, oldsz)
  else do
    let oldsz := pgroundup oldsz
    let (km, pt, done) ← uvmallocLoopWith free oldsz perm
      ((newsz - oldsz + PGSIZE - 1) / PGSIZE) oldsz km pt
    .ok (km, pt, if done then newsz else 0)

def uvmcopyLoopWith (old : PageTable) :
    ℕ → ℕ → Kmem → PageTable → Except Panic (Kmem × PageTable × Bool)
  | 0, _, km, new => .ok (km, new, true)
  | n + 1, i, km, new => do
      match ← walk old i with
      | some (some l) =>
          match kalloc km with
          | none => do
              let (km, new) ← uvmunmapWith free km new 0 (i / PGSIZE)
              .ok (km, new, false)
          | some (mem, km) => do
              let km :=
                km.memmove mem.pa (fun k => km.mem (l.frame.pa + k)) PGSIZE
              let (km, new, done) ← mappages km new i mem l.perm
              if done then uvmcopyLoopWith old n (i + PGSIZE) km new
              else do
                let km ← free km mem
                let (km, new) ← uvmunmapWith free km new 0 (i / PGSIZE)
                .ok (km, new, false)
      | _ => uvmcopyLoopWith old n (i + PGSIZE) km new

def uvmcopyWith (km : Kmem) (old new : PageTable) (sz : ℕ) :
    Except Panic (Kmem × PageTable × Bool) :=
  uvmcopyLoopWith free old ((sz + PGSIZE - 1) / PGSIZE) 0 km new

def freewalkLeafPageWith (km : Kmem) (t : Table Frame 512 (Option Leaf)) :
    Except Panic Kmem :=
  match (List.finRange 512).findSome? t.entry with
  | some l =>
      .error (if l.perm.r || l.perm.w || l.perm.x then .freewalkLeaf
        else .freewalkData)
  | none => free km t.frame

def freewalkMidWith (km : Kmem) (m : Mid Frame 512 (Option Leaf)) :
    Except Panic Kmem := do
  let km ← (List.finRange 512).foldlM (fun km j =>
    match m.entry j with
    | some t => freewalkLeafPageWith free km t
    | none => .ok km) km
  free km m.frame

def freewalkWith (km : Kmem) (pt : PageTable) : Except Panic Kmem := do
  let km ← (List.finRange 512).foldlM (fun km i =>
    match pt.root.entry i with
    | some m => freewalkMidWith free km m
    | none => .ok km) km
  free km pt.root.frame

def uvmfreeWith (km : Kmem) (pt : PageTable) (sz : ℕ) :
    Except Panic Kmem := do
  if 0 < sz then do
    let (km, pt) ← uvmunmapWith free km pt 0 (pgroundup sz / PGSIZE)
    freewalkWith free km pt
  else freewalkWith free km pt

def procFreepagetableWith (km : Kmem) (pt : PageTable) (sz : ℕ) :
    Except Panic Kmem := do
  let (km, pt) ← uvmunmap km pt TRAMPOLINE 1 false
  let (km, pt) ← uvmunmap km pt TRAPFRAME 1 false
  uvmfreeWith free km pt sz

def procPagetableWith (km : Kmem) (trapframe : Frame) :
    Except Panic (Kmem × Option PageTable) :=
  match uvmcreate km with
  | none => .ok (km, none)
  | some (pt, km) => do
      let (km, pt, done) ← mappages km pt TRAMPOLINE trampolineFrame
        { r := true, x := true }
      if done then do
        let (km, pt, done) ← mappages km pt TRAPFRAME trapframe
          { r := true, w := true }
        if done then .ok (km, some pt)
        else do
          let (km, pt) ← uvmunmap km pt TRAMPOLINE 1 false
          let km ← uvmfreeWith free km pt 0
          .ok (km, none)
      else do
        let km ← uvmfreeWith free km pt 0
        .ok (km, none)

/-- A fresh zeroed page is mapped, or given back if there is no memory for the
page table. -/
def mapFreshWith (km : Kmem) (pt : PageTable) (va : ℕ) (perm : Perm) :
    Except Panic (Kmem × PageTable × ℕ) :=
  match kalloc km with
  | none => .ok (km, pt, 0)
  | some (mem, km) => do
      let (km, pt, done) ←
        mappages (km.memset mem.pa 0 PGSIZE) pt va mem perm
      if done then .ok (km, pt, mem.pa)
      else do
        let km ← free km mem
        .ok (km, pt, 0)

/-- `vmfault` below `p->sz`, as far as memory is concerned. -/
def heapFaultWith (km : Kmem) (pt : PageTable) (va : ℕ) :
    Except Panic (Kmem × PageTable × ℕ) := do
  let mapped ← ismapped pt (pgrounddown va)
  if mapped then .ok (km, pt, 0)
  else mapFreshWith free km pt (pgrounddown va) heapPerm

end With

/-! ## With `kfree` they are the functions of the kernel -/

theorem uvmunmapLoopWith_kfree (n : ℕ) : ∀ (a : ℕ) (km : Kmem)
    (pt : PageTable), uvmunmapLoopWith kfree n a km pt =
      uvmunmapLoop true n a km pt := by
  induction n with
  | zero =>
    intro a km pt
    rfl
  | succ n ih =>
    intro a km pt
    simp only [uvmunmapLoopWith, ih]
    rfl

theorem uvmunmapWith_kfree (km : Kmem) (pt : PageTable) (va npages : ℕ) :
    uvmunmapWith kfree km pt va npages =
      uvmunmap km pt va npages true := by
  simp only [uvmunmapWith, uvmunmap, uvmunmapLoopWith_kfree]

theorem uvmdeallocWith_kfree (km : Kmem) (pt : PageTable)
    (oldsz newsz : ℕ) : uvmdeallocWith kfree km pt oldsz newsz =
      uvmdealloc km pt oldsz newsz := by
  simp only [uvmdeallocWith, uvmdealloc, uvmunmapWith_kfree]

theorem uvmallocLoopWith_kfree (oldsz : ℕ) (perm : Perm) (n : ℕ) :
    ∀ (a : ℕ) (km : Kmem) (pt : PageTable),
    uvmallocLoopWith kfree oldsz perm n a km pt =
      uvmallocLoop oldsz perm n a km pt := by
  induction n with
  | zero =>
    intro a km pt
    rfl
  | succ n ih =>
    intro a km pt
    simp only [uvmallocLoopWith, ih, uvmdeallocWith_kfree]
    rfl

theorem uvmallocWith_kfree (km : Kmem) (pt : PageTable) (oldsz newsz : ℕ)
    (perm : Perm) : uvmallocWith kfree km pt oldsz newsz perm =
      uvmalloc km pt oldsz newsz perm := by
  simp only [uvmallocWith, uvmalloc, uvmallocLoopWith_kfree]

theorem uvmcopyLoopWith_kfree (old : PageTable) (n : ℕ) : ∀ (i : ℕ)
    (km : Kmem) (new : PageTable), uvmcopyLoopWith kfree old n i km new =
      uvmcopyLoop old n i km new := by
  induction n with
  | zero =>
    intro i km new
    rfl
  | succ n ih =>
    intro i km new
    simp only [uvmcopyLoopWith, ih, uvmunmapWith_kfree]
    rfl

theorem uvmcopyWith_kfree (km : Kmem) (old new : PageTable) (sz : ℕ) :
    uvmcopyWith kfree km old new sz = uvmcopy km old new sz :=
  uvmcopyLoopWith_kfree ..

theorem freewalkLeafPageWith_kfree (km : Kmem)
    (t : Table Frame 512 (Option Leaf)) :
    freewalkLeafPageWith kfree km t = freewalkLeafPage km t := by
  unfold freewalkLeafPageWith freewalkLeafPage
  cases (List.finRange 512).findSome? t.entry <;> rfl

theorem freewalkMidWith_kfree (km : Kmem) (m : Mid Frame 512 (Option Leaf)) :
    freewalkMidWith kfree km m = freewalkMid km m := by
  unfold freewalkMidWith freewalkMid
  refine congrArg (fun x => x >>= fun km => kfree km m.frame) ?_
  refine congrArg (fun round => List.foldlM round km (List.finRange 512)) ?_
  funext km j
  cases m.entry j with
  | none => rfl
  | some t => exact freewalkLeafPageWith_kfree km t

theorem freewalkWith_kfree (km : Kmem) (pt : PageTable) :
    freewalkWith kfree km pt = freewalk km pt := by
  unfold freewalkWith freewalk
  refine congrArg (fun x => x >>= fun km => kfree km pt.root.frame) ?_
  refine congrArg (fun round => List.foldlM round km (List.finRange 512)) ?_
  funext km i
  cases pt.root.entry i with
  | none => rfl
  | some m => exact freewalkMidWith_kfree km m

theorem uvmfreeWith_kfree (km : Kmem) (pt : PageTable) (sz : ℕ) :
    uvmfreeWith kfree km pt sz = uvmfree km pt sz := by
  simp only [uvmfreeWith, uvmfree, uvmunmapWith_kfree, freewalkWith_kfree]

theorem procFreepagetableWith_kfree (km : Kmem) (pt : PageTable) (sz : ℕ) :
    procFreepagetableWith kfree km pt sz = procFreepagetable km pt sz := by
  simp only [procFreepagetableWith, procFreepagetable, uvmfreeWith_kfree]

theorem procPagetableWith_kfree (km : Kmem) (trapframe : Frame) :
    procPagetableWith kfree km trapframe = procPagetable km trapframe := by
  simp only [procPagetableWith, uvmfreeWith_kfree]
  rfl

/-- `vmfault` below `p->sz` changes the allocator and the page table only. -/
theorem heapFaultWith_kfree (s : State) (va : ℕ) :
    vmfaultHeap s va = (heapFaultWith kfree s.kmem s.p.pagetable va).map
      fun r => (s.setMemory r.1 r.2.1, r.2.2) := by
  unfold vmfaultHeap heapFaultWith mapFreshWith mapOrFree
  cases ismapped s.p.pagetable (pgrounddown va) with
  | error e => rfl
  | ok mapped =>
    cases mapped with
    | true => rfl
    | false =>
      cases kalloc s.kmem with
      | none => rfl
      | some r =>
        obtain ⟨mem, km⟩ := r
        simp only [bind, Except.bind, Bool.false_eq_true, if_false]
        cases mappages (km.memset mem.pa 0 PGSIZE) s.p.pagetable
          (pgrounddown va) mem heapPerm with
        | error e => rfl
        | ok r =>
          obtain ⟨km, pt, done⟩ := r
          cases done with
          | true => rfl
          | false => cases hfree : kfree km mem <;> simp [Except.map, hfree]

end Xv6.Vm
