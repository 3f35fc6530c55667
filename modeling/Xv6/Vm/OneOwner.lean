import Xv6.Framework.Run
import Xv6.Vm.Conserve

/-!
# Every frame has exactly one owner

Any number of address spaces and trapframe pages share one free list. A step
is a call of one of the functions that make, grow, copy, fault in, shrink and
discard address spaces; it may run out of memory anywhere. The ledger of the
frames in use is kept by every step, and a frame of the initial free list is
in it once: on the free list, in one page table, under one user page or as the
trapframe of one process.
-/

namespace Xv6.Vm

open Framework

/-! ## The system -/

/-- A user page table and the size its process records for it. -/
structure Space where
  pt : PageTable
  sz : ℕ

structure Memory (A P : Type) where
  km : Kmem
  space : A → Option Space
  trapframe : P → Option Frame

inductive MemOp (A P : Type)
  /-- `p->trapframe = kalloc()` in `allocproc`. -/
  | allocTrapframe (p : P)
  /-- `kfree(p->trapframe)` in `freeproc`. -/
  | freeTrapframe (p : P)
  | uvmcreate (a : A)
  | procPagetable (a : A) (p : P)
  /-- `mappages` of a page from `kalloc`, which is given back on failure. -/
  | mapFresh (a : A) (va : ℕ) (perm : Perm)
  | uvmalloc (a : A) (newsz : ℕ) (perm : Perm)
  | uvmdealloc (a : A) (newsz : ℕ)
  /-- `sbrk` without allocation. -/
  | grow (a : A) (newsz : ℕ)
  | uvmcopy (old new : A)
  /-- `vmfault` in a process without mappings. -/
  | heapFault (a : A) (va : ℕ)
  /-- `uvmunmap` with `do_free` set. -/
  | uvmunmap (a : A) (va npages : ℕ)
  | procFreepagetable (a : A)

namespace Memory

variable {A P : Type}

/-- Nothing is allocated yet. -/
def boot (km : Kmem) : Memory A P := ⟨km, fun _ => none, fun _ => none⟩

variable {a : A}

section Set

variable [DecidableEq A]

def setSpace (s : Memory A P) (km : Kmem) (a : A) (sp : Option Space) :
    Memory A P :=
  { s with km := km, space := Function.update s.space a sp }

@[simp] theorem space_setSpace_self (s : Memory A P) (km : Kmem) (a : A)
    (sp : Option Space) : (s.setSpace km a sp).space a = sp :=
  Function.update_self ..

theorem space_setSpace_of_ne (s : Memory A P) (km : Kmem) (sp : Option Space)
    {b : A} (h : b ≠ a) : (s.setSpace km a sp).space b = s.space b :=
  Function.update_of_ne h ..

end Set

section Set

variable [DecidableEq P]

def setTrapframe (s : Memory A P) (km : Kmem) (p : P) (f : Option Frame) :
    Memory A P :=
  { s with km := km, trapframe := Function.update s.trapframe p f }

theorem trapframe_setTrapframe_self (s : Memory A P) (km : Kmem) (p : P)
    (f : Option Frame) : (s.setTrapframe km p f).trapframe p = f :=
  Function.update_self ..

theorem trapframe_setTrapframe_of_ne (s : Memory A P) (km : Kmem)
    (f : Option Frame) {p q : P} (h : q ≠ p) :
    (s.setTrapframe km p f).trapframe q = s.trapframe q :=
  Function.update_of_ne h ..

end Set

variable [DecidableEq A] [DecidableEq P]

/-- What an operation does to the address space it is about, if there is
one. -/
def onSpace (s : Memory A P) (a : A)
    (f : Space → Except Panic (Kmem × Option Space)) :
    Except Panic (Memory A P) :=
  match s.space a with
  | none => .ok s
  | some sp => do
      let (km, sp) ← f sp
      .ok (s.setSpace km a sp)

/-- One operation, with `free` for `kfree`. -/
def stepWith (free : Free) (s : Memory A P) :
    MemOp A P → Except Panic (Memory A P)
  | .allocTrapframe p =>
      match kalloc s.km with
      | none => .ok s
      | some (f, km) => .ok (s.setTrapframe km p (some f))
  | .freeTrapframe p =>
      match s.trapframe p with
      | none => .ok s
      | some f => do
          let km ← free s.km f
          .ok (s.setTrapframe km p none)
  | .uvmcreate a =>
      match Vm.uvmcreate s.km with
      | none => .ok s
      | some (pt, km) => .ok (s.setSpace km a (some ⟨pt, 0⟩))
  | .procPagetable a p =>
      match s.trapframe p with
      | none => .ok s
      | some f => do
          let (km, made) ← procPagetableWith free s.km f
          .ok (s.setSpace km a (made.map fun pt => ⟨pt, 0⟩))
  | .mapFresh a va perm => s.onSpace a fun sp => do
      let (km, pt, mem) ← mapFreshWith free s.km sp.pt va perm
      .ok (km, some ⟨pt, if mem = 0 then sp.sz else max sp.sz (va + PGSIZE)⟩)
  | .uvmalloc a newsz perm => s.onSpace a fun sp => do
      let (km, pt, r) ← uvmallocWith free s.km sp.pt sp.sz newsz perm
      .ok (km, some ⟨pt, resized sp.sz r⟩)
  | .uvmdealloc a newsz => s.onSpace a fun sp => do
      let (km, pt, r) ← uvmdeallocWith free s.km sp.pt sp.sz newsz
      .ok (km, some ⟨pt, r⟩)
  | .grow a newsz => s.onSpace a fun sp =>
      .ok (s.km, some ⟨sp.pt, max sp.sz newsz⟩)
  | .uvmcopy old new => s.onSpace new fun np =>
      match s.space old with
      | none => .ok (s.km, some np)
      | some sp => do
          let (km, pt, done) ← uvmcopyWith free s.km sp.pt np.pt sp.sz
          .ok (km, some ⟨pt, if done then max sp.sz np.sz else np.sz⟩)
  | .heapFault a va => s.onSpace a fun sp =>
      if va < sp.sz then do
        let (km, pt, _) ← heapFaultWith free s.km sp.pt va
        .ok (km, some ⟨pt, sp.sz⟩)
      else .ok (s.km, some sp)
  | .uvmunmap a va npages => s.onSpace a fun sp => do
      let (km, pt) ← uvmunmapWith free s.km sp.pt va npages
      .ok (km, some ⟨pt, sp.sz⟩)
  | .procFreepagetable a => s.onSpace a fun sp => do
      let km ← procFreepagetableWith free s.km sp.pt sp.sz
      .ok (km, none)

/-- One operation of the kernel. -/
def step (s : Memory A P) : MemOp A P → Except Panic (Memory A P) :=
  stepWith kfree s

/-- What the callers see to: an address space is made in an unused place, user
pages stay below the trap pages, and a page is mapped where none is. -/
def Allowed (s : Memory A P) : MemOp A P → Prop
  | .allocTrapframe p => s.trapframe p = none
  | .uvmcreate a => s.space a = none
  | .procPagetable a _ => s.space a = none
  | .mapFresh a va _ => va % PGSIZE = 0 ∧ va < TRAPFRAME ∧
      ∀ sp ∈ s.space a, sp.pt.leaf va = none
  | .uvmalloc _ newsz _ => newsz ≤ TRAPFRAME
  | .grow _ newsz => newsz ≤ TRAPFRAME
  | .uvmcopy old new => ∀ sp ∈ s.space old, ∀ np ∈ s.space new,
      ∀ va < pgroundup sp.sz, sp.pt.leaf va ≠ none → np.pt.leaf va = none
  | .uvmunmap _ va npages => va % PGSIZE = 0 ∧
      va + npages * PGSIZE ≤ TRAPFRAME
  | .freeTrapframe _ => True
  | .uvmdealloc _ _ => True
  | .heapFault _ _ => True
  | .procFreepagetable _ => True

/-! ## The frames in use -/

section Ledger

variable [Fintype A] [Fintype P]

/-- The frames of address space `a`. -/
def spaceFrames (s : Memory A P) (a : A) : Multiset Frame :=
  ownedOf ((s.space a).map Space.pt)

def used (s : Memory A P) : Multiset Frame :=
  ∑ a, s.spaceFrames a + ∑ p, ((s.trapframe p).toList : Multiset Frame)

/-- Everything in use but the address space `a`. -/
def usedBut (s : Memory A P) (a : A) : Multiset Frame :=
  ∑ b ∈ Finset.univ.erase a, s.spaceFrames b +
    ∑ p, ((s.trapframe p).toList : Multiset Frame)

omit [DecidableEq P] in
theorem used_eq (s : Memory A P) (a : A) :
    s.used = s.spaceFrames a + s.usedBut a := by
  rw [used, usedBut, sum_update s.spaceFrames s.spaceFrames a
    (fun _ _ => rfl), add_assoc]

omit [DecidableEq P] in
theorem used_setSpace (s : Memory A P) (km : Kmem) (a : A)
    (sp : Option Space) : (s.setSpace km a sp).used =
      ownedOf (sp.map Space.pt) + s.usedBut a := by
  have hself : (s.setSpace km a sp).spaceFrames a =
      ownedOf (sp.map Space.pt) := by
    rw [spaceFrames, space_setSpace_self]
  rw [used, sum_update s.spaceFrames (s.setSpace km a sp).spaceFrames a,
    hself, usedBut, add_assoc]
  · rfl
  · intro b hb
    rw [spaceFrames, space_setSpace_of_ne s km sp hb, spaceFrames]

/-- Everything in use but the trapframe of `p`. -/
def usedButTrapframe (s : Memory A P) (p : P) : Multiset Frame :=
  ∑ a, s.spaceFrames a + ∑ q ∈ Finset.univ.erase p,
    ((s.trapframe q).toList : Multiset Frame)

omit [DecidableEq A] in
theorem used_eq_trapframe (s : Memory A P) (p : P) :
    s.used = ((s.trapframe p).toList : Multiset Frame) +
      s.usedButTrapframe p := by
  rw [used, usedButTrapframe, sum_update _
    (fun q => ((s.trapframe q).toList : Multiset Frame)) p (fun _ _ => rfl)]
  exact add_left_comm ..

omit [DecidableEq A] in
theorem used_setTrapframe (s : Memory A P) (km : Kmem) (p : P)
    (f : Option Frame) : (s.setTrapframe km p f).used =
      (f.toList : Multiset Frame) + s.usedButTrapframe p := by
  rw [used_eq_trapframe _ p, trapframe_setTrapframe_self]
  congr 1
  rw [usedButTrapframe, usedButTrapframe]
  congr 1
  apply Finset.sum_congr rfl
  intro q hq
  rw [trapframe_setTrapframe_of_ne s km f (Finset.ne_of_mem_erase hq)]

/-- The invariant: the ledger is right, and no address space has a user page
at or above its size. -/
structure MemInv (pool : Multiset Frame) (s : Memory A P) : Prop where
  ledger : Ledger pool s.km s.used
  size : ∀ a sp, s.space a = some sp → sp.sz ≤ TRAPFRAME
  below : ∀ a sp, s.space a = some sp → Below sp.pt sp.sz

variable {pool : Multiset Frame} {s : Memory A P}

namespace MemInv

variable {km : Kmem}

omit [DecidableEq A] [DecidableEq P] in
theorem boot (hnodup : km.freelist.Nodup)
    (husable : ∀ f ∈ km.freelist, f.Usable) :
    MemInv km.freelist (boot km : Memory A P) where
  ledger := by
    have hused : (Memory.boot km : Memory A P).used = 0 := by
      rw [used, Finset.sum_eq_zero, Finset.sum_eq_zero, add_zero]
      · intro p _
        rfl
      · intro a _
        exact ownedOf_none
    refine ⟨Multiset.coe_nodup.mpr hnodup, husable, ?_⟩
    rw [hused, add_zero]
    rfl
  size := by
    intro a sp hsp
    cases hsp
  below := by
    intro a sp hsp
    cases hsp

/-- What an operation on an address space has to show. -/
def Kept (pool : Multiset Frame) (rest : Multiset Frame)
    (f : Free → Except Panic (Kmem × Option Space)) : Prop :=
  ∃ km' sp', Always f (km', sp') ∧
    Ledger pool km' (ownedOf (sp'.map Space.pt) + rest) ∧
    ∀ sp ∈ sp', sp.sz ≤ TRAPFRAME ∧ Below sp.pt sp.sz

omit [DecidableEq P] in
theorem setSpace (h : MemInv pool s) {sp : Option Space}
    (hled : Ledger pool km (ownedOf (sp.map Space.pt) + s.usedBut a))
    (hsp : ∀ sp' ∈ sp, sp'.sz ≤ TRAPFRAME ∧ Below sp'.pt sp'.sz) :
    MemInv pool (s.setSpace km a sp) := by
  have hcases : ∀ b sp', (s.setSpace km a sp).space b = some sp' →
      sp'.sz ≤ TRAPFRAME ∧ Below sp'.pt sp'.sz := by
    intro b sp' hb
    by_cases hba : b = a
    · rw [hba, space_setSpace_self] at hb
      exact hsp sp' hb
    · rw [space_setSpace_of_ne s km sp hba] at hb
      exact ⟨h.size b sp' hb, h.below b sp' hb⟩
  refine ⟨?_, fun b sp' hb => (hcases b sp' hb).1,
    fun b sp' hb => (hcases b sp' hb).2⟩
  rw [used_setSpace]
  exact hled

omit [DecidableEq A] in
theorem setTrapframe (h : MemInv pool s) {p : P} {f : Option Frame}
    (hled : Ledger pool km
      ((f.toList : Multiset Frame) + s.usedButTrapframe p)) :
    MemInv pool (s.setTrapframe km p f) := by
  refine ⟨?_, h.size, h.below⟩
  rw [used_setTrapframe]
  exact hled

omit [DecidableEq P] in
theorem ledger_but (h : MemInv pool s) (ha : s.space a = none) :
    Ledger pool s.km (s.usedBut a) := by
  have hled := h.ledger
  rw [used_eq s a, spaceFrames, ha, Option.map_none, ownedOf_none, zero_add]
    at hled
  exact hled

omit [DecidableEq P] in
theorem onSpace (h : MemInv pool s) (a : A)
    (f : Free → Space → Except Panic (Kmem × Option Space))
    (hf : ∀ sp, s.space a = some sp → sp.sz ≤ TRAPFRAME →
      Below sp.pt sp.sz → Ledger pool s.km (sp.pt.owned + s.usedBut a) →
      Kept pool (s.usedBut a) fun free => f free sp) :
    ∃ s', Always (fun free => s.onSpace a (f free)) s' ∧ MemInv pool s' := by
  cases hsp : s.space a with
  | none =>
    refine ⟨s, ?_, h⟩
    intro free _
    simp only [Memory.onSpace, hsp]
  | some sp =>
    have hled := h.ledger
    rw [used_eq s a, spaceFrames, hsp, Option.map_some, ownedOf_some]
      at hled
    obtain ⟨km', sp', hcall, hled', hsp'⟩ :=
      hf sp hsp (h.size a sp hsp) (h.below a sp hsp) hled
    refine ⟨s.setSpace km' a sp', ?_, h.setSpace hled' hsp'⟩
    simp only [Memory.onSpace, hsp]
    exact hcall.bind fun _ _ => rfl

/-- The common case: the address space is still there. -/
theorem Kept.of_table {rest : Multiset Frame}
    {f : Free → Except Panic (Kmem × Option Space)} {sp : Space}
    (hcall : Always f (km, some sp))
    (hled : Ledger pool km (sp.pt.owned + rest)) (hsz : sp.sz ≤ TRAPFRAME)
    (hbelow : Below sp.pt sp.sz) : Kept pool rest f := by
  refine ⟨km, some sp, hcall, ?_, ?_⟩
  · rw [Option.map_some, ownedOf_some]
    exact hled
  · rintro sp' ⟨⟩
    exact ⟨hsz, hbelow⟩

/-- **Every operation returns, frees no frame twice and keeps the
invariant.** -/
theorem step (h : MemInv pool s) (op : MemOp A P) (hallow : s.Allowed op) :
    ∃ s', Always (fun free => s.stepWith free op) s' ∧ MemInv pool s' := by
  cases op with
  | allocTrapframe p =>
    cases halloc : kalloc s.km with
    | none =>
      refine ⟨s, ?_, h⟩
      intro free _
      simp only [stepWith, halloc]
    | some fk =>
      obtain ⟨f, km⟩ := fk
      refine ⟨s.setTrapframe km p (some f), ?_, h.setTrapframe ?_⟩
      · intro free _
        simp only [stepWith, halloc]
      · have hled := h.ledger.alloc halloc
        have hnone : s.trapframe p = none := hallow
        rw [used_eq_trapframe s p, hnone, Option.toList_none,
          Multiset.coe_nil, zero_add] at hled
        rw [Option.toList_some, Multiset.coe_singleton,
          Multiset.singleton_add]
        exact hled
  | freeTrapframe p =>
    cases hp : s.trapframe p with
    | none =>
      refine ⟨s, ?_, h⟩
      intro free _
      simp only [stepWith, hp]
    | some f =>
      have hled := h.ledger
      rw [used_eq_trapframe s p, hp, Option.toList_some,
        Multiset.coe_singleton, Multiset.singleton_add] at hled
      obtain ⟨km, hfree, hled'⟩ := hled.free
      refine ⟨s.setTrapframe km p none, ?_, h.setTrapframe ?_⟩
      · simp only [stepWith, hp]
        exact hfree.bind fun _ _ => rfl
      · rw [Option.toList_none, Multiset.coe_nil, zero_add]
        exact hled'
  | uvmcreate a =>
    cases hcreate : Vm.uvmcreate s.km with
    | none =>
      refine ⟨s, ?_, h⟩
      intro free _
      simp only [stepWith, hcreate]
    | some r =>
      obtain ⟨pt, km⟩ := r
      obtain ⟨hled, hnone⟩ := uvmcreate_ledger (h.ledger_but hallow) hcreate
      refine ⟨s.setSpace km a (some ⟨pt, 0⟩), ?_, h.setSpace ?_ ?_⟩
      · intro free _
        simp only [stepWith, hcreate]
      · rw [Option.map_some, ownedOf_some]
        exact hled
      · rintro sp ⟨⟩
        exact ⟨Nat.zero_le _, fun va _ _ => hnone va⟩
  | procPagetable a p =>
    cases hp : s.trapframe p with
    | none =>
      refine ⟨s, ?_, h⟩
      intro free _
      simp only [stepWith, hp]
    | some f =>
      obtain ⟨km, made, hcall, hled, hnone⟩ :=
        procPagetableWith_ledger f (h.ledger_but hallow)
      refine ⟨s.setSpace km a (made.map fun pt => ⟨pt, 0⟩), ?_,
        h.setSpace ?_ ?_⟩
      · simp only [stepWith, hp]
        exact hcall.bind fun _ _ => rfl
      · have hsame : (made.map fun pt => (⟨pt, 0⟩ : Space)).map Space.pt =
            made := by
          rw [Option.map_map]
          exact Option.map_id'
        rw [hsame]
        exact hled
      · intro sp hsp
        obtain ⟨pt, hpt, rfl⟩ := Option.map_eq_some_iff.mp hsp
        exact ⟨Nat.zero_le _, fun va hva _ => hnone pt hpt va hva⟩
  | mapFresh a va perm =>
    obtain ⟨ha, hva, hleaf⟩ := hallow
    apply h.onSpace a
    intro sp hsp hsz hbelow hled
    obtain ⟨km, pt, r, hcall, hled', hother, hfail⟩ :=
      mapFreshWith_ledger perm ha hva (hleaf sp hsp) hled
    have hend : va + PGSIZE ≤ TRAPFRAME := by
      have := TRAPFRAME_mod
      unfold PGSIZE at *
      omega
    refine .of_table (hcall.bind fun _ _ => rfl) hled' ?_ ?_
    · show (if r = 0 then sp.sz else max sp.sz (va + PGSIZE)) ≤ TRAPFRAME
      split
      · exact hsz
      · exact max_le hsz hend
    · show Below pt (if r = 0 then sp.sz else max sp.sz (va + PGSIZE))
      split
      · rename_i hzero
        intro vb hvb hle
        rw [hfail hzero]
        exact hbelow vb hvb hle
      · intro vb hvb hle
        have hmax := max_le hsz hend
        have hpast : va + PGSIZE ≤ vb := by
          refine Nat.le_trans (Nat.le_trans (le_max_right sp.sz _)
            (le_pgroundup ?_)) hle
          exact Nat.lt_of_le_of_lt hmax (by decide)
        rw [hother vb hvb hpast]
        exact hbelow.mono hmax (le_max_left ..) vb hvb hle
  | uvmalloc a newsz perm =>
    apply h.onSpace a
    intro sp _ hsz hbelow hled
    obtain ⟨km, pt, r, hcall, hled', hsz', hbelow'⟩ :=
      uvmallocWith_ledger perm hallow hsz hbelow hled
    exact .of_table (hcall.bind fun _ _ => rfl) hled' hsz' hbelow'
  | uvmdealloc a newsz =>
    apply h.onSpace a
    intro sp _ hsz hbelow hled
    obtain ⟨km, pt, hcall, hled', hbelow'⟩ :=
      uvmdeallocWith_ledger hsz hled
    exact .of_table (hcall.bind fun _ _ => rfl) hled'
      (Nat.le_trans (min_le_left ..) hsz) (hbelow' hbelow)
  | grow a newsz =>
    apply h.onSpace a
    intro sp _ hsz hbelow hled
    have hmax := max_le hsz hallow
    exact .of_table (fun _ _ => rfl) hled hmax
      (hbelow.mono hmax (le_max_left ..))
  | uvmcopy old new =>
    apply h.onSpace new
    intro np hnp hsz hbelow hled
    cases hold : s.space old with
    | none => exact .of_table (fun _ _ => rfl) hled hsz hbelow
    | some sp =>
      obtain ⟨km, pt, done, hcall, hled', hbelow'⟩ := uvmcopyWith_ledger
        (h.size old sp hold) hsz (hallow sp hold np hnp) hbelow hled
      refine .of_table (hcall.bind fun _ _ => rfl) hled' ?_ hbelow'
      show (if done then max sp.sz np.sz else np.sz) ≤ TRAPFRAME
      split
      · exact max_le (h.size old sp hold) hsz
      · exact hsz
  | heapFault a va =>
    apply h.onSpace a
    intro sp _ hsz hbelow hled
    by_cases hva : va < sp.sz
    · obtain ⟨km, pt, r, hcall, hled', hbelow'⟩ :=
        heapFaultWith_ledger hsz hva hbelow hled
      simp only [hva, if_true]
      exact .of_table (hcall.bind fun _ _ => rfl) hled' hsz hbelow'
    · simp only [hva, if_false]
      exact .of_table (fun _ _ => rfl) hled hsz hbelow
  | uvmunmap a va npages =>
    apply h.onSpace a
    intro sp _ hsz hbelow hled
    obtain ⟨km, pt, hcall, hled', hspec⟩ :=
      uvmunmapWith_ledger hallow.1 hallow.2 hled
    refine .of_table (hcall.bind fun _ _ => rfl) hled' hsz ?_
    intro vb hvb hle
    have hmax : vb < MAXVA := Nat.lt_trans hvb TRAPFRAME_lt_MAXVA
    by_cases hin : va ≤ vb ∧ vb < va + npages * PGSIZE
    · exact hspec.inside vb hmax hin.1 hin.2
    · rw [hspec.outside vb hmax hin]
      exact hbelow vb hvb hle
  | procFreepagetable a =>
    apply h.onSpace a
    intro sp _ hsz hbelow hled
    obtain ⟨km, hcall, hled'⟩ :=
      procFreepagetableWith_ledger hsz hbelow hled
    refine ⟨km, none, hcall.bind fun _ _ => rfl, ?_, fun sp' hsp' => by
      cases hsp'⟩
    rw [Option.map_none, ownedOf_none, zero_add]
    exact hled'

end MemInv

end Ledger

/-! ## Owners -/

/-- Who may hold a frame; a user page is named by its first address. -/
inductive Owner (A P : Type)
  | free
  | trapframe (p : P)
  | table (a : A)
  | page (a : A) (va : ℕ)
deriving DecidableEq

/-- The address space of an owner. -/
def Owner.space : Owner A P → Option A
  | .table a => some a
  | .page a _ => some a
  | _ => none

def Owns (s : Memory A P) : Owner A P → Frame → Prop
  | .free, f => f ∈ s.km.freelist
  | .trapframe p, f => s.trapframe p = some f
  | .table a, f => ∃ sp, s.space a = some sp ∧ f ∈ sp.pt.frames
  | .page a va, f => va < TRAPFRAME ∧ va % PGSIZE = 0 ∧
      ∃ sp, s.space a = some sp ∧ ∃ l, sp.pt.leaf va = some l ∧ l.frame = f

/-- Every frame of `pool` has one owner, and the free list and every page
table have it once. -/
structure OneOwner (pool : List Frame) (s : Memory A P) : Prop where
  owner : ∀ f ∈ pool, ∃! o, s.Owns o f
  free_once : s.km.freelist.Nodup
  tree_once : ∀ a sp, s.space a = some sp → sp.pt.frames.Nodup

section Share

variable [Fintype A] [Fintype P]

/-- The frames an owner holds. -/
def share (s : Memory A P) : Owner A P → Multiset Frame
  | .free => s.km.freelist
  | .trapframe p => (s.trapframe p).toList
  | .table a => ((s.space a).map fun sp => (sp.pt.frames : Multiset Frame)).getD 0
  | .page a va =>
      ((s.space a).bind fun sp => (sp.pt.leaf va).map Leaf.frame).toList

def pageOwners : Finset (Owner A P) :=
  (Finset.univ ×ˢ Finset.range (TRAPFRAME / PGSIZE)).image
    fun x => .page x.1 (x.2 * PGSIZE)

def owners : Finset (Owner A P) :=
  insert .free (Finset.univ.image .trapframe ∪
    (Finset.univ.image .table ∪ pageOwners))

variable {o : Owner A P}

omit [Fintype P] in
theorem mem_pageOwners : o ∈ (pageOwners : Finset (Owner A P)) ↔
    ∃ a va, va < TRAPFRAME ∧ va % PGSIZE = 0 ∧ o = .page a va := by
  simp only [pageOwners, Finset.mem_image, Finset.mem_product,
    Finset.mem_univ, true_and, Prod.exists]
  constructor
  · rintro ⟨a, k, hk, rfl⟩
    exact ⟨a, k * PGSIZE, PageTable.page_lt hk, Nat.mul_mod_left .., rfl⟩
  · rintro ⟨a, va, hva, hmod, rfl⟩
    refine ⟨a, va / PGSIZE, PageTable.mem_range_of_lt hva, ?_⟩
    rw [Nat.div_mul_cancel (Nat.dvd_of_mod_eq_zero hmod)]

variable {f : Frame} {s : Memory A P}

theorem owns_iff :
    s.Owns o f ↔ o ∈ (owners : Finset (Owner A P)) ∧ f ∈ s.share o := by
  cases o with
  | free => simp [Owns, owners, share]
  | trapframe p => simp [Owns, owners, share]
  | table a =>
    cases hsp : s.space a with
    | none => simp [Owns, share, hsp]
    | some sp => simp [Owns, owners, share, hsp]
  | page a va =>
    have hmem : (Owner.page a va : Owner A P) ∈ owners ↔
        va < TRAPFRAME ∧ va % PGSIZE = 0 := by
      simp only [owners, Finset.mem_insert, Finset.mem_union,
        Finset.mem_image, Finset.mem_univ, true_and, reduceCtorEq,
        exists_false, false_or, mem_pageOwners, Owner.page.injEq]
      constructor
      · rintro ⟨a', va', hva, hmod, rfl, rfl⟩
        exact ⟨hva, hmod⟩
      · rintro ⟨hva, hmod⟩
        exact ⟨a, va, hva, hmod, rfl, rfl⟩
    rw [hmem, and_assoc]
    simp only [Owns, share, Multiset.mem_coe, Option.mem_toList,
      Option.bind_eq_some_iff, Option.map_eq_some_iff]

omit [DecidableEq A] [DecidableEq P] [Fintype A] [Fintype P] in
theorem spaceFrames_eq (s : Memory A P) (a : A) :
    s.spaceFrames a = s.share (.table a) +
      ∑ k ∈ Finset.range (TRAPFRAME / PGSIZE),
        s.share (.page a (k * PGSIZE)) := by
  cases hsp : s.space a with
  | none =>
    rw [spaceFrames, hsp, Option.map_none, ownedOf_none,
      Finset.sum_eq_zero]
    · simp only [share, hsp, Option.map_none, Option.getD_none, add_zero]
    · intro k _
      simp only [share, hsp, Option.bind_none, Option.toList_none,
        Multiset.coe_nil]
  | some sp =>
    have htable : s.share (.table a) = (sp.pt.frames : Multiset Frame) := by
      rw [share, hsp, Option.map_some, Option.getD_some]
    have hpage : ∀ va, s.share (.page a va) =
        (((sp.pt.leaf va).map Leaf.frame).toList : Multiset Frame) := by
      intro va
      rw [share, hsp, Option.bind_some]
    have hpages : sp.pt.pages = ∑ k ∈ Finset.range (TRAPFRAME / PGSIZE),
        s.share (.page a (k * PGSIZE)) := by
      rw [PageTable.pages_eq]
      apply Finset.sum_congr rfl
      intro k _
      exact (hpage _).symm
    rw [spaceFrames, hsp, Option.map_some, ownedOf_some, PageTable.owned,
      htable, hpages]

/-- The owners hold the free list and what is in use. -/
theorem sum_share (s : Memory A P) :
    ∑ o ∈ owners, s.share o = (s.km.freelist : Multiset Frame) + s.used := by
  have hpages : ∑ o ∈ pageOwners, s.share o =
      ∑ a, ∑ k ∈ Finset.range (TRAPFRAME / PGSIZE),
        s.share (.page a (k * PGSIZE)) := by
    rw [pageOwners, Finset.sum_image, Finset.sum_product]
    rintro ⟨a, k⟩ _ ⟨b, j⟩ _ heq
    obtain ⟨hab, hkj⟩ := Owner.page.inj heq
    exact Prod.ext hab (Nat.eq_of_mul_eq_mul_right (by decide) hkj)
  rw [owners, Finset.sum_insert, Finset.sum_union, Finset.sum_union,
    Finset.sum_image, Finset.sum_image, hpages, ← Finset.sum_add_distrib]
  · simp only [← spaceFrames_eq]
    rw [used]
    exact congrArg _ (add_comm ..)
  · intro a _ b _ heq
    exact Owner.table.inj heq
  · intro p _ q _ heq
    exact Owner.trapframe.inj heq
  · rw [Finset.disjoint_left]
    intro o ho ho'
    obtain ⟨a, -, rfl⟩ := Finset.mem_image.mp ho
    obtain ⟨b, va, -, -, heq⟩ := mem_pageOwners.mp ho'
    cases heq
  · rw [Finset.disjoint_left]
    intro o ho ho'
    obtain ⟨p, -, rfl⟩ := Finset.mem_image.mp ho
    rcases Finset.mem_union.mp ho' with ho' | ho'
    · obtain ⟨a, -, heq⟩ := Finset.mem_image.mp ho'
      cases heq
    · obtain ⟨b, va, -, -, heq⟩ := mem_pageOwners.mp ho'
      cases heq
  · simp [mem_pageOwners]

theorem MemInv.oneOwner {pool : List Frame} (h : MemInv pool s) :
    OneOwner pool s := by
  have hsum : ∑ o ∈ owners, s.share o = (pool : Multiset Frame) := by
    rw [sum_share, h.ledger.sum]
  have hnodup := h.ledger.nodup
  rw [← hsum] at hnodup
  refine ⟨?_, ?_, ?_⟩
  · intro f hf
    simp only [owns_iff]
    refine existsUnique_share hnodup ?_
    rw [hsum]
    exact hf
  · have hled := h.ledger.nodup
    rw [← h.ledger.sum, Multiset.nodup_add] at hled
    exact Multiset.coe_nodup.mp hled.1
  · intro a sp hsp
    have hled := h.ledger.nodup
    rw [← h.ledger.sum, used_eq s a, spaceFrames, hsp, Option.map_some,
      ownedOf_some, PageTable.owned, Multiset.nodup_add, Multiset.nodup_add,
      Multiset.nodup_add] at hled
    exact Multiset.coe_nodup.mp hled.2.1.1.1

theorem mem_spaceFrames (ho : o.space = some a) (howns : s.Owns o f) :
    f ∈ s.spaceFrames a := by
  rw [spaceFrames_eq, Multiset.mem_add]
  cases o with
  | free => cases ho
  | trapframe p => cases ho
  | table b =>
    cases ho
    exact Or.inl (owns_iff.mp howns).2
  | page b va =>
    cases ho
    have hlt : va < TRAPFRAME := howns.1
    have hpage : va / PGSIZE * PGSIZE = va :=
      Nat.div_mul_cancel (Nat.dvd_of_mod_eq_zero howns.2.1)
    rw [Multiset.mem_sum]
    refine Or.inr ⟨va / PGSIZE, PageTable.mem_range_of_lt hlt, ?_⟩
    rw [hpage]
    exact (owns_iff.mp howns).2

/-- What an address space held is free once it is discarded. -/
theorem MemInv.freed {pool : List Frame} {s' : Memory A P} (h : MemInv pool s)
    (h' : MemInv pool s')
    (hstep : s.stepWith kfree (.procFreepagetable a) = .ok s')
    (ho : o.space = some a) (howns : s.Owns o f) : f ∈ s'.km.freelist := by
  have hmem := mem_spaceFrames ho howns
  have hused : s'.used = s.usedBut a := by
    cases hsp : s.space a with
    | none =>
      rw [spaceFrames, hsp, Option.map_none, ownedOf_none] at hmem
      cases hmem
    | some sp =>
      rw [stepWith, Memory.onSpace] at hstep
      simp only [hsp] at hstep
      obtain ⟨⟨km, sp'⟩, hcall, hstep⟩ := bind_ok_iff.mp hstep
      obtain ⟨km', -, hcall⟩ := bind_ok_iff.mp hcall
      cases hcall
      cases hstep
      rw [used_setSpace, Option.map_none, ownedOf_none, zero_add]
  have hsum := h.ledger.sum
  rw [used_eq s a] at hsum
  have hnodup := h.ledger.nodup
  rw [← hsum, Multiset.nodup_add, Multiset.nodup_add] at hnodup
  -- the frame is in the pool but not with the other owners
  have hpool : f ∈ (pool : Multiset Frame) := by
    rw [← hsum, Multiset.mem_add, Multiset.mem_add]
    exact Or.inr (Or.inl hmem)
  rw [← h'.ledger.sum, hused, Multiset.mem_add] at hpool
  rcases hpool with hfree | hother
  · exact Multiset.mem_coe.mp hfree
  · exact absurd hother (Multiset.disjoint_left.mp hnodup.2.1.2.2 hmem)

end Share

/-! ## The theorem -/

/-- **Every frame of the initial free list has exactly one owner in every
state reached**, however often memory runs out. Every operation returns, so
`freewalk` meets no leaf and `mappages` no mapped page; it returns the same
whatever `kfree` does on a free page, so `kfree` is never called on one. After
`proc_freepagetable` all frames of the address space are free. -/
theorem frames_have_one_owner [Fintype A] [Fintype P] {km : Kmem}
    {ops : List (MemOp A P)} {s : Memory A P} (hnodup : km.freelist.Nodup)
    (husable : ∀ f ∈ km.freelist, f.Usable)
    (hrun : Run step Allowed (boot km) ops s) :
    OneOwner km.freelist s ∧
      ∀ op, s.Allowed op → ∃ s', s.step op = .ok s' ∧
        (∀ free, StandsIn free → s.stepWith free op = .ok s') ∧
        ∀ a, op = .procFreepagetable a → ∀ o f, o.space = some a →
          s.Owns o f → f ∈ s'.km.freelist := by
  have hinv : MemInv km.freelist s := by
    refine hrun.invariant (I := MemInv km.freelist) ?_ (.boot hnodup husable)
    intro s op s' hs hallow hstep
    obtain ⟨s₁, halways, hs₁⟩ := hs.step op hallow
    have hsame := (halways kfree standsIn_kfree).symm.trans hstep
    exact Except.ok.inj hsame ▸ hs₁
  refine ⟨hinv.oneOwner, ?_⟩
  intro op hallow
  obtain ⟨s', halways, hs'⟩ := hinv.step op hallow
  have hstep := halways kfree standsIn_kfree
  refine ⟨s', hstep, halways, ?_⟩
  rintro a rfl o f ho howns
  exact hinv.freed hs' hstep ho howns

/-- Operations that are always allowed can be carried out. -/
theorem exists_run [Fintype A] [Fintype P] {pool : Multiset Frame}
    {ops : List (MemOp A P)} (hops : ∀ op ∈ ops, ∀ s : Memory A P,
      s.Allowed op) : ∀ {s : Memory A P}, MemInv pool s →
    ∃ s', Run step Allowed s ops s' := by
  induction ops with
  | nil =>
    intro s _
    exact ⟨s, .nil s⟩
  | cons op ops ih =>
    intro s h
    have hallow := hops op (List.mem_cons_self ..) s
    obtain ⟨s₁, halways, h₁⟩ := h.step op hallow
    obtain ⟨s', hrest⟩ :=
      ih (fun op' hop => hops op' (List.mem_cons_of_mem op hop)) h₁
    exact ⟨s', .cons hallow (halways kfree standsIn_kfree) hrest⟩

/-- Six free frames. -/
def sixFrames : Kmem := ⟨[100, 101, 102, 103, 104, 105], fun _ => 0⟩

/-- An address space is grown, by `sbrk` and by a fault, shrunk and
discarded. -/
def tour : List (MemOp Unit Unit) :=
  [.uvmalloc () 4096 heapPerm, .grow () 12288, .heapFault () 8000,
    .uvmdealloc () 4096, .procFreepagetable ()]

theorem frames_have_one_owner_tour :
    ∃ s : Memory Unit Unit,
      Run step Allowed (boot sixFrames) (.uvmcreate () :: tour) s ∧
      OneOwner sixFrames.freelist s := by
  have hnodup : sixFrames.freelist.Nodup := by decide
  have husable : ∀ f ∈ sixFrames.freelist, f.Usable := by
    have hall : (sixFrames.freelist.all fun f => decide f.Usable) = true := by
      decide
    intro f hf
    exact of_decide_eq_true (List.all_eq_true.mp hall f hf)
  have htour : ∀ op ∈ tour, ∀ s : Memory Unit Unit, s.Allowed op := by
    intro op hop s
    simp only [tour, List.mem_cons, List.not_mem_nil, or_false] at hop
    rcases hop with rfl | rfl | rfl | rfl | rfl
    · show 4096 ≤ TRAPFRAME
      decide
    · show 12288 ≤ TRAPFRAME
      decide
    all_goals exact trivial
  have hcreate : (boot sixFrames : Memory Unit Unit).Allowed
      (.uvmcreate ()) := rfl
  obtain ⟨s₁, halways, h₁⟩ :=
    (MemInv.boot hnodup husable).step (.uvmcreate ()) hcreate
  obtain ⟨s, hrest⟩ := exists_run htour h₁
  have hrun := Run.cons hcreate (halways kfree standsIn_kfree) hrest
  exact ⟨s, hrun, (frames_have_one_owner hnodup husable hrun).1⟩

end Memory

end Xv6.Vm
