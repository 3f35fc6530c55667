import Xv6.Framework.Run
import Xv6.Vm.Riscv

/-!
# The page allocator (`kernel/kalloc.c`) and physical memory

The free list is the list of its frames, head first; the links that the C
code keeps inside the free pages are not represented. `kalloc` fails exactly
when the list is empty, so letting the list be arbitrary lets it fail at any
point.
-/

namespace Xv6.Vm

open Framework

/-- The ways the kernel stops. Beside its own `panic` calls these are the
accesses that the kernel page table does not map, which end in `kerneltrap`,
and the two that read or walk memory that is not what the code takes it
for. -/
inductive Panic
  | walk
  | mappagesUnaligned
  | remap
  | uvmunmapUnaligned
  | kfree
  | freewalkLeaf
  | freewalkData
  | filedup
  | fileclose
  | ilock
  | bmap
  | kerneltrap
  | badFd
deriving DecidableEq, Repr

/-- `kmem.freelist` and the bytes of RAM. -/
structure Kmem where
  freelist : List Frame
  mem : ℕ → UInt8

namespace Kmem

/-- `memset(a, c, n)`. -/
def memset (km : Kmem) (a : ℕ) (c : UInt8) (n : ℕ) : Kmem :=
  { km with mem := fun b => if a ≤ b ∧ b < a + n then c else km.mem b }

/-- `memmove(a, src, n)` from bytes outside the destination. -/
def memmove (km : Kmem) (a : ℕ) (src : ℕ → UInt8) (n : ℕ) : Kmem :=
  { km with mem := fun b => if a ≤ b ∧ b < a + n then src (b - a) else km.mem b }

@[simp] theorem freelist_memset (km : Kmem) (a : ℕ) (c : UInt8) (n : ℕ) :
    (km.memset a c n).freelist = km.freelist := rfl

@[simp] theorem freelist_memmove (km : Kmem) (a : ℕ) (src : ℕ → UInt8) (n : ℕ) :
    (km.memmove a src n).freelist = km.freelist := rfl

end Kmem

/-- `kalloc`: the head of the free list, filled with junk. -/
def kalloc (km : Kmem) : Option (Frame × Kmem) :=
  match km.freelist with
  | [] => none
  | f :: fl => some (f, { km with freelist := fl }.memset f.pa 5 PGSIZE)

/-- `kfree`. -/
def kfree (km : Kmem) (f : Frame) : Except Panic Kmem :=
  if f.pa % PGSIZE ≠ 0 ∨ f.pa < kernelEnd ∨ PHYSTOP ≤ f.pa then .error .kfree
  else .ok ({ km with freelist := f :: km.freelist }.memset f.pa 1 PGSIZE)

variable {km : Kmem} {f : Frame}

theorem kalloc_some {km' : Kmem} (h : kalloc km = some (f, km')) :
    km.freelist = f :: km'.freelist := by
  unfold kalloc at h
  cases hfl : km.freelist with
  | nil => simp [hfl] at h
  | cons g fl =>
    simp only [hfl, Option.some.injEq, Prod.mk.injEq] at h
    obtain ⟨rfl, rfl⟩ := h
    rfl

theorem kalloc_none (h : kalloc km = none) : km.freelist = [] := by
  unfold kalloc at h
  cases hfl : km.freelist with
  | nil => rfl
  | cons g fl => simp [hfl] at h

/-- Of the tests of `kfree` only the second can fail on a frame. -/
theorem kfree_test (f : Frame) :
    (f.pa % PGSIZE ≠ 0 ∨ f.pa < kernelEnd ∨ PHYSTOP ≤ f.pa) ↔ ¬ f.Usable := by
  have htop := f.pa_add_le
  have haligned : f.pa % PGSIZE = 0 := by
    unfold Frame.pa PGSIZE KERNBASE
    omega
  unfold Frame.Usable PGSIZE at *
  omega

theorem kfree_ok {km' : Kmem} (h : kfree km f = .ok km') :
    f.Usable ∧ km'.freelist = f :: km.freelist := by
  unfold kfree at h
  split at h
  · cases h
  · rename_i hf
    cases h
    exact ⟨not_not.mp (mt (kfree_test f).mpr hf), rfl⟩

theorem kfree_of_usable (km : Kmem) (h : f.Usable) :
    ∃ km', kfree km f = .ok km' ∧ km'.freelist = f :: km.freelist := by
  unfold kfree
  rw [if_neg (mt (kfree_test f).mp (not_not.mpr h))]
  exact ⟨_, rfl, rfl⟩

/-! ## Boot -/

/-- The loop of `freerange`, for `n` pages from physical address `p`. -/
def freerangeLoop : ℕ → ℕ → Kmem → Except Panic Kmem
  | 0, _, km => .ok km
  | n + 1, p, km => do
      let km ← kfree km (Frame.ofPa p)
      freerangeLoop n (p + PGSIZE) km

/-- `freerange`. -/
def freerange (km : Kmem) (paStart paEnd : ℕ) : Except Panic Kmem :=
  freerangeLoop ((paEnd - pgroundup paStart) / PGSIZE) (pgroundup paStart) km

/-- `kinit`. -/
def kinit (km : Kmem) : Except Panic Kmem := freerange km kernelEnd PHYSTOP

theorem freerangeLoop_spec (n : ℕ) : ∀ {p : ℕ} {km : Kmem},
    p % PGSIZE = 0 → kernelEnd ≤ p → p + n * PGSIZE ≤ PHYSTOP →
    km.freelist.Nodup → (∀ f, f ∈ km.freelist ↔ f.Usable ∧ f.pa < p) →
    ∃ km', freerangeLoop n p km = .ok km' ∧ km'.freelist.Nodup ∧
      ∀ f, f ∈ km'.freelist ↔ f.Usable ∧ f.pa < p + n * PGSIZE := by
  induction n with
  | zero =>
    intro p km _ _ _ hnodup hlist
    exact ⟨km, rfl, hnodup, by simpa using hlist⟩
  | succ n ih =>
    intro p km hp hlo hhi hnodup hlist
    rw [Nat.succ_mul, add_comm (n * _), ← add_assoc] at hhi ⊢
    have hpa : (Frame.ofPa p).pa = p := Frame.pa_ofPa hp
      (Nat.le_trans (by decide) hlo) (by unfold PGSIZE at hhi; omega)
    obtain ⟨km₁, hfree, hlist₁⟩ := kfree_of_usable km
      (show (Frame.ofPa p).Usable from hlo.trans_eq hpa.symm)
    have hnodup₁ : km₁.freelist.Nodup := by
      rw [hlist₁, List.nodup_cons, hlist, hpa]
      exact ⟨fun h => lt_irrefl p h.2, hnodup⟩
    have hlist₂ : ∀ f, f ∈ km₁.freelist ↔ f.Usable ∧ f.pa < p + PGSIZE := by
      intro f
      rw [hlist₁, List.mem_cons, hlist, Fin.ext_iff]
      unfold Frame.Usable Frame.pa at *
      unfold PGSIZE KERNBASE at *
      omega
    obtain ⟨km', hloop, hspec⟩ := ih (by simpa using hp) (by omega)
      hhi hnodup₁ hlist₂
    exact ⟨km', bind_ok_iff.mpr ⟨km₁, hfree, hloop⟩, hspec⟩

/-- **`kinit` does not panic and puts every page past the kernel image on the
free list**, once. -/
theorem kinit_frees_all (h : km.freelist = []) :
    ∃ km', kinit km = .ok km' ∧ km'.freelist.Nodup ∧
      ∀ f, f ∈ km'.freelist ↔ f.Usable := by
  have hnone : ∀ f, f ∈ km.freelist ↔
      f.Usable ∧ f.pa < pgroundup kernelEnd := by
    intro f
    rw [h, lt_pgroundup_iff (by decide)]
    grind [Frame.Usable, Frame.pa, pgrounddown, PGSIZE, KERNBASE, kernelEnd]
  obtain ⟨km', hkinit, hnodup, hall⟩ := freerangeLoop_spec
    ((PHYSTOP - pgroundup kernelEnd) / PGSIZE) (pgroundup_mod _)
    (le_pgroundup (by decide)) (by decide) (h ▸ List.nodup_nil) hnone
  refine ⟨km', hkinit, hnodup, fun f => (hall f).trans (and_iff_left ?_)⟩
  exact f.pa_add_le.trans_lt' (Nat.lt_add_of_pos_right (by decide))

theorem kinit_frees_all_zero : ∃ km', kinit ⟨[], fun _ => 0⟩ = .ok km' ∧
    km'.freelist.Nodup ∧ ∀ f, f ∈ km'.freelist ↔ f.Usable :=
  kinit_frees_all rfl

/-- The kernel reads `n` bytes at a physical address through its direct map,
which covers RAM. -/
def kread (km : Kmem) (a n : ℕ) : Except Panic (List UInt8) :=
  if KERNBASE ≤ a ∧ a + n ≤ PHYSTOP then
    .ok ((List.range n).map fun i => km.mem (a + i))
  else .error .kerneltrap

/-- Reading inside a frame never faults. -/
theorem kread_frame (km : Kmem) (f : Frame) {off n : ℕ} (h : off + n ≤ PGSIZE) :
    kread km (f.pa + off) n =
      .ok ((List.range n).map fun i => km.mem (f.pa + off + i)) := by
  have hlo := f.KERNBASE_le_pa
  have hhi := f.pa_add_le
  rw [kread, if_pos ⟨by omega, by omega⟩]

end Xv6.Vm
