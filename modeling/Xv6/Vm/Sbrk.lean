import Xv6.Vm.AddressSpace
import Xv6.Vm.AllOrNothing

/-!
# The contract of `sbrk` (`kernel/sysproc.c`, `kernel/proc.c`)

Shrinking gives back exactly the pages above the new size, and growing is all
or nothing. `growproc` compares the new size with `mmap_base` before it looks
at the sign of the increment: a request to shrink by more than the whole size
wraps around to a huge new size and is refused with -1, where the test program
expects the old size.
-/

namespace Xv6.Vm

open Framework

/-! ## The contract -/

/-- The pages from `PGROUNDUP(newsz)` on are unmapped and given back, present
or not, and nothing else changed. -/
structure Shrunk (s : State) (newsz : ℕ) (s' : State) : Prop where
  sz : s'.p.sz = newsz
  inside : ∀ va < MAXVA, pgroundup newsz ≤ va → va < pgroundup s.p.sz →
    s'.p.pagetable.leaf va = none
  outside : ∀ va < MAXVA,
    ¬ (pgroundup newsz ≤ va ∧ va < pgroundup s.p.sz) →
    s'.p.pagetable.leaf va = s.p.pagetable.leaf va
  freed : s'.kmem.freelist = (leafFrames s.p.pagetable
    ((pgroundup s.p.sz - pgroundup newsz) / PGSIZE)
    (pgroundup newsz)).reverse ++ s.kmem.freelist

/-- The heap grew by pages of zeros, or nothing happened that the process
could see. -/
def GrewOrNot (s : State) (newsz : ℕ) (s' : State) (r : Option ℕ) : Prop :=
  (r = some s.p.sz ∧ s'.p.sz = newsz ∧
    AllocDone (pgroundup s.p.sz) (pgroundup newsz) heapPerm
      s.kmem s.p.pagetable s'.kmem s'.p.pagetable) ∨
  (r = none ∧ s'.p.sz = s.p.sz ∧
    Undone s.kmem s.p.pagetable s'.kmem s'.p.pagetable)

/-- The pages below both sizes are as they were. -/
def KeepsLow (s s' : State) : Prop :=
  ∀ va < min s.p.sz s'.p.sz,
    s'.p.pagetable.leaf va = s.p.pagetable.leaf va ∧
    ∀ l, s.p.pagetable.leaf va = some l → s.kmem.SameIn s'.kmem l.frame

/-- What `sbrk(n)` promises; a result of `none` is -1. -/
structure SbrkContract (s : State) (n t : Int32) (s' : State)
    (r : Option ℕ) : Prop where
  old_size : n.toInt < 0 → r = some s.p.sz
  shrink : n.toInt < 0 → -n.toInt ≤ s.p.sz →
    Shrunk s (s.p.sz + n.toInt).toNat s'
  below_zero : n.toInt < 0 → s.p.sz < -n.toInt → s' = s
  grow : 0 ≤ n.toInt → t = SBRK_EAGER →
    s.p.sz + n.toInt < s.p.mmapBase →
    GrewOrNot s (s.p.sz + n.toInt.toNat) s' r
  low : KeepsLow s s'

/-- The process is laid out as the lab describes it, and its frames are
accounted for. -/
structure SbrkReady (pool rest : Multiset Frame) (s : State) : Prop where
  layout : LayoutInv s.p
  ledger : Ledger pool s.kmem (s.p.pagetable.owned + rest)

/-! ## Shrinking -/

theorem uvmdealloc_freed {km km' : Kmem} {pt pt' : PageTable}
    {oldsz newsz r : ℕ} (hold : oldsz ≤ TRAPFRAME) (hlt : newsz < oldsz)
    (h : uvmdealloc km pt oldsz newsz = .ok (km', pt', r)) :
    km'.freelist = (leafFrames pt
      ((pgroundup oldsz - pgroundup newsz) / PGSIZE)
      (pgroundup newsz)).reverse ++ km.freelist := by
  have hup := pgroundup_le_TRAPFRAME hold
  have htrap : TRAPFRAME < 2 ^ 38 := by decide
  have hpages : (pgroundup oldsz - pgroundup newsz) / PGSIZE < 2 ^ 31 := by
    unfold PGSIZE
    omega
  unfold uvmdealloc at h
  rw [if_neg (Nat.not_le.mpr hlt)] at h
  split at h
  · obtain ⟨⟨km₁, pt₁⟩, hun, h⟩ := bind_ok_iff.mp h
    cases h
    rw [toUint64_toInt32 hpages] at hun
    refine (uvmunmap_spec ?_ hun).freed
    unfold PGSIZE
    omega
  · rename_i hround
    cases h
    rw [Nat.sub_eq_zero_of_le (Nat.not_lt.mp hround), Nat.zero_div]
    rfl

variable {pool rest : Multiset Frame} {s : State} {n t : Int32}

/-- The frame of a page is in use. -/
theorem SbrkReady.mem_used (h : SbrkReady pool rest s) {va : ℕ} {l : Leaf}
    (hva : va < s.p.sz) (hl : s.p.pagetable.leaf va = some l) :
    l.frame ∈ s.p.pagetable.owned + rest :=
  Multiset.mem_add.mpr (Or.inl
    (PageTable.mem_owned (Nat.lt_of_lt_of_le hva h.layout.sz_le) hl))

/-- A request to shrink that `growproc` lets through. -/
theorem SbrkReady.shrink (h : SbrkReady pool rest s) (hneg : n.toInt < 0)
    (hle : -n.toInt ≤ s.p.sz) (hbase : s.p.sz + n.toInt < s.p.mmapBase) :
    ∃ s', sysSbrk s n t = .ok (s', some s.p.sz) ∧
      SbrkContract s n t s' (some s.p.sz) := by
  obtain ⟨newsz, hnew⟩ : ∃ newsz : ℕ, s.p.sz + n.toInt = newsz :=
    ⟨(s.p.sz + n.toInt).toNat, by omega⟩
  have hlt : newsz < s.p.sz := by omega
  have hsz : s.p.sz < 2 ^ 38 := Nat.lt_of_le_of_lt h.layout.sz_le (by decide)
  have hwide : toUint64 (s.p.sz + n.toInt) = newsz := by
    rw [hnew, toUint64]
    omega
  obtain ⟨km', pt', halways, -, -⟩ :=
    @uvmdeallocWith_ledger _ _ _ _ _ newsz h.layout.sz_le h.ledger
  have hde := halways kfree standsIn_kfree
  simp only [uvmdeallocWith_kfree] at hde
  have hmin : min s.p.sz newsz = newsz := Nat.min_eq_right (Nat.le_of_lt hlt)
  obtain ⟨-, hin, hout⟩ := uvmdealloc_spec (by omega) hlt hde
  have hcall : sysSbrk s n t = .ok
      ({ s with kmem := km', p := { s.p with pagetable := pt', sz := newsz } },
        some s.p.sz) := by
    dsimp only [sysSbrk, growproc]
    rw [if_pos (Or.inr hneg), hwide, if_neg (by omega), if_neg (by omega),
      if_pos hneg, hde, hmin]
    rfl
  refine ⟨_, hcall, fun _ => rfl, ?_, ?_, ?_, ?_⟩
  · intro _ _
    rw [hnew]
    exact ⟨rfl, hin, hout, uvmdealloc_freed h.layout.sz_le hlt hde⟩
  · intro _ hover
    omega
  · intro hnonneg
    omega
  · intro va hva
    have hnewsz : va < newsz := Nat.lt_of_lt_of_le hva (Nat.min_le_right ..)
    have hup : newsz ≤ pgroundup newsz := le_pgroundup (by omega)
    have hmax : va < MAXVA := by
      unfold MAXVA
      omega
    refine ⟨hout va hmax (by omega), ?_⟩
    intro l hl
    refine uvmdealloc_sameIn h.layout.sz_le hde ?_
    intro vb hlo hhi l' hl' heq
    have htop := pgroundup_le_TRAPFRAME h.layout.sz_le
    have hpage := distinct_of_ledger h.ledger (by omega) (by omega) hl' hl heq
    have hmod := pgroundup_mod newsz
    unfold pgrounddown PGSIZE at *
    omega

/-! ## Growing -/

/-- Above the heap there are no pages up to `mmap_base`. -/
theorem LayoutInv.empty_above {p : Proc} (h : LayoutInv p) {newsz va : ℕ}
    (hbase : newsz < p.mmapBase) (hlo : pgroundup p.sz ≤ va)
    (hhi : va < pgroundup newsz) : p.pagetable.leaf va = none := by
  have htrap : TRAPFRAME < 2 ^ 38 := by decide
  have hle := h.base_le
  have hup : pgroundup newsz ≤ p.mmapBase :=
    (pgroundup_le_iff (by omega) h.base_mod).mpr (Nat.le_of_lt hbase)
  by_contra hne
  rcases h.leaf va (by omega) hne with hlow | ⟨i, hmem, -⟩
  · omega
  · have hstart := h.base_le_start i hmem.1
    have hle' := hmem.2.1
    omega

/-- Growth, eager and below `mmap_base`. -/
theorem SbrkReady.grow (h : SbrkReady pool rest s) (hpos : 0 < n.toInt)
    (heager : t = SBRK_EAGER) (hbase : s.p.sz + n.toInt < s.p.mmapBase) :
    ∃ s' r, sysSbrk s n t = .ok (s', r) ∧ SbrkContract s n t s' r ∧
      Ledger pool s'.kmem (s'.p.pagetable.owned + rest) := by
  obtain ⟨newsz, hnew⟩ : ∃ newsz : ℕ, s.p.sz + n.toInt = newsz :=
    ⟨(s.p.sz + n.toInt).toNat, by omega⟩
  have hbase_le := h.layout.base_le
  have hsz : s.p.sz < 2 ^ 38 := Nat.lt_of_le_of_lt h.layout.sz_le (by decide)
  have htrap : TRAPFRAME < 2 ^ 38 := by decide
  have hwide : toUint64 (s.p.sz + n.toInt) = newsz := by
    rw [hnew, toUint64]
    omega
  have hsum : s.p.sz + n.toInt.toNat = newsz := by omega
  obtain ⟨km', pt', r, halloc, hsame, hcases, hled⟩ := uvmalloc_done_or_undone
    h.ledger heapPerm (show s.p.sz < newsz by omega) (by omega)
    fun va => h.layout.empty_above (by omega)
  have hlow : ∀ sz', (∀ va < s.p.sz, pt'.leaf va = s.p.pagetable.leaf va) →
      KeepsLow s { s with kmem := km',
                          p := { s.p with pagetable := pt', sz := sz' } } := by
    intro sz' hleaf va hva
    have hold : va < s.p.sz := Nat.lt_of_lt_of_le hva (Nat.min_le_left ..)
    exact ⟨hleaf va hold, fun l hl => hsame l.frame (h.mem_used hold hl)⟩
  have hup := le_pgroundup (show s.p.sz < 2 ^ 63 by omega)
  have hmax : ∀ va < s.p.sz, va < MAXVA := by
    intro va hva
    unfold MAXVA
    omega
  rcases hcases with ⟨rfl, hdone⟩ | ⟨rfl, hundone⟩
  · have hcall : sysSbrk s n t = .ok ({ s with
        kmem := km', p := { s.p with pagetable := pt', sz := r } },
        some s.p.sz) := by
      dsimp only [sysSbrk, growproc]
      rw [if_pos (Or.inl heager), hwide, if_neg (by omega), if_pos hpos, halloc]
      dsimp only [bind, Except.bind]
      rw [if_neg (by omega)]
      rfl
    refine ⟨_, _, hcall, ⟨fun hneg => by omega, fun hneg => by omega,
      fun hneg => by omega, ?_, ?_⟩, hled⟩
    · intro _ _ _
      rw [hsum]
      exact Or.inl ⟨rfl, rfl, hdone⟩
    · apply hlow
      intro va hva
      exact hdone.other va (hmax va hva) (by omega)
  · have hcall : sysSbrk s n t = .ok (s.setMemory km' pt', none) := by
      dsimp only [sysSbrk, growproc]
      rw [if_pos (Or.inl heager), hwide, if_neg (by omega), if_pos hpos, halloc]
      rfl
    refine ⟨_, _, hcall, ⟨fun hneg => by omega, fun hneg => by omega,
      fun hneg => by omega, ?_, ?_⟩, hled⟩
    · intro _ _ _
      exact Or.inr ⟨rfl, rfl, hundone⟩
    · exact hlow s.p.sz fun va hva => hundone.leaf va (hmax va hva)

/-- Nothing moves but the size. -/
theorem keepsLow_sz (s : State) (sz : ℕ) :
    KeepsLow s { s with p := { s.p with sz := sz } } :=
  fun _ _ => ⟨rfl, fun _ _ _ _ => rfl⟩

/-- The part of the contract that is about requests that do not shrink. -/
theorem SbrkContract.of_nonneg {s' : State} {r : Option ℕ}
    (hn : 0 ≤ n.toInt) (hgrow : t = SBRK_EAGER →
      s.p.sz + n.toInt < s.p.mmapBase →
      GrewOrNot s (s.p.sz + n.toInt.toNat) s' r)
    (hlow : KeepsLow s s') : SbrkContract s n t s' r where
  old_size := fun hneg => absurd hn (Int.not_le.mpr hneg)
  shrink := fun hneg => absurd hn (Int.not_le.mpr hneg)
  below_zero := fun hneg => absurd hn (Int.not_le.mpr hneg)
  grow := fun _ => hgrow
  low := hlow

/-- Requests that do not shrink keep the contract. -/
theorem SbrkReady.nonneg (h : SbrkReady pool rest s) (hn : 0 ≤ n.toInt) :
    ∃ s' r, sysSbrk s n t = .ok (s', r) ∧ SbrkContract s n t s' r := by
  have hsz : s.p.sz < 2 ^ 38 := Nat.lt_of_le_of_lt h.layout.sz_le (by decide)
  have hhi := n.toInt_lt
  have hwide : (toUint64 (s.p.sz + n.toInt) : ℤ) = s.p.sz + n.toInt := by
    unfold toUint64
    omega
  by_cases heager : t = SBRK_EAGER
  · by_cases hbase : s.p.sz + n.toInt < s.p.mmapBase
    · rcases Int.lt_or_eq_of_le hn with hpos | hzero
      · obtain ⟨s', r, hcall, hcontract, -⟩ := h.grow hpos heager hbase
        exact ⟨s', r, hcall, hcontract⟩
      · have hcall : sysSbrk s n t = .ok (s, some s.p.sz) := by
          dsimp only [sysSbrk, growproc]
          rw [if_pos (Or.inl heager), if_neg (by omega), if_neg (by omega),
            if_neg (by omega)]
          rfl
        refine ⟨s, _, hcall, .of_nonneg hn ?_ (keepsLow_sz s s.p.sz)⟩
        intro _ _
        rw [← hzero]
        refine Or.inl ⟨rfl, rfl, ?_, ?_, fun _ _ _ => rfl⟩
        · intro va hlo hlt
          exact absurd hlo (Nat.not_le.mpr hlt)
        · intro va vb l l' hlo hlt
          exact absurd hlo (Nat.not_le.mpr hlt)
    · have hcall : sysSbrk s n t = .ok (s, none) := by
        dsimp only [sysSbrk, growproc]
        rw [if_pos (Or.inl heager), if_pos (by omega)]
        rfl
      exact ⟨s, _, hcall, .of_nonneg hn (fun _ hlt => absurd hlt hbase)
        (keepsLow_sz s s.p.sz)⟩
  · have hlazy : ∀ {s' : State} {r : Option ℕ}, KeepsLow s s' →
        SbrkContract s n t s' r := fun hlow =>
      .of_nonneg hn (fun h => absurd h heager) hlow
    dsimp only [sysSbrk]
    rw [if_neg (by rintro (h | h) <;> [exact heager h; omega])]
    split
    · exact ⟨s, none, rfl, hlazy (keepsLow_sz s s.p.sz)⟩
    · exact ⟨_, _, rfl, hlazy (keepsLow_sz s _)⟩

/-! ## The requests that are refused -/

/-- A request to shrink that `growproc` refuses. -/
theorem sysSbrk_refused (hneg : n.toInt < 0)
    (h : s.p.mmapBase ≤ toUint64 (s.p.sz + n.toInt)) :
    sysSbrk s n t = .ok (s, none) := by
  dsimp only [sysSbrk, growproc]
  rw [if_pos (Or.inr hneg), if_pos h]
  rfl

/-- **`sbrk` keeps its contract exactly when a request to shrink asks for at
most the whole size and leaves less than `mmap_base`.** -/
theorem sbrk_contract_iff (h : SbrkReady pool rest s) :
    (∃ s' r, sysSbrk s n t = .ok (s', r) ∧ SbrkContract s n t s' r) ↔
      (n.toInt < 0 → -n.toInt ≤ s.p.sz ∧
        s.p.sz + n.toInt < s.p.mmapBase) := by
  constructor
  · rintro ⟨s', r, hcall, hcontract⟩ hneg
    by_contra hcond
    have hbase := h.layout.base_le
    have hsz := h.layout.sz_le
    have htrap : TRAPFRAME < 2 ^ 38 := by decide
    have hlo := n.le_toInt
    have hwide : s.p.mmapBase ≤ toUint64 (s.p.sz + n.toInt) := by
      unfold toUint64
      omega
    rw [sysSbrk_refused hneg hwide] at hcall
    cases hcall
    cases hcontract.old_size hneg
  · intro hcond
    by_cases hneg : n.toInt < 0
    · obtain ⟨hle, hbase⟩ := hcond hneg
      obtain ⟨s', hcall, hcontract⟩ := h.shrink hneg hle hbase
      exact ⟨s', _, hcall, hcontract⟩
    · exact h.nonneg (Int.not_lt.mp hneg)

theorem bootState_sbrkReady : SbrkReady
    ((spareFrames ++ bootTable.frames : List Frame) : Multiset Frame) 0
    (bootState spareFrames rwFile pageInode) where
  layout := (DocInv.of_fresh (bootState_fresh ..)).layoutInv
  ledger := by
    have hpages : bootTable.pages = 0 := PageTable.pages_eq_zero
      fun va hva => bootTable_leaf hva
    refine ⟨?_, ?_, ?_⟩
    · exact Multiset.coe_nodup.mpr (by decide +kernel)
    · intro f hf
      rcases List.mem_append.mp (Multiset.mem_coe.mp hf) with hf | hf
      · exact spareFrames_all (P := Frame.Usable) (by decide) f hf
      · exact bootTable_frames_usable f hf
    · show (spareFrames : Multiset Frame) + (bootTable.owned + 0) = _
      rw [PageTable.owned, hpages, add_zero, add_zero, Multiset.coe_add]

theorem mmap_memory {addr : UInt64} {len prot flags fd offset : Int32}
    {s' : State} (h : step s (.mmap addr len prot flags fd offset) = .ok s') :
    s'.kmem = s.kmem ∧ s'.p.pagetable = s.p.pagetable := by
  obtain ⟨⟨s₁, r⟩, hm, rfl⟩ := map_ok_iff.mp h
  rcases sysMmap_spec hm with rfl | ⟨i, k, -, hdone⟩
  · exact ⟨rfl, rfl⟩
  · exact ⟨hdone.kmem, by rw [hdone.p]⟩

/-- A process grows by two pages, maps two files and gives 5000 bytes back:
one of the new pages is unmapped. -/
theorem sbrk_contract_iff_boot : ∃ s s' r,
    s.p.pagetable.leaf 8192 ≠ none ∧ (s.p.vma 1).valid = true ∧
    sysSbrk s (-5000) 1 = .ok (s', r) ∧ SbrkContract s (-5000) 1 s' r ∧
    s'.p.pagetable.leaf 8192 = none := by
  obtain ⟨s₁, r, hcall, -, hled⟩ := bootState_sbrkReady.grow (n := 8192) (t := 1)
    (by decide) (by decide) (by decide)
  obtain ⟨x, hx, hcheck⟩ := exists_ok_of_any
    (show ((sysSbrk (bootState spareFrames rwFile pageInode) 8192 1).toOption.any
      fun x => (Run.checked step Documented x.1 [.mmap 0 4096 3 1 0 0,
        .mmap 0 4096 3 2 0 0]).any fun s => decide ((s.p.vma 1).valid = true ∧
          s.p.sz = 12288 ∧ s.p.mmapBase = 0x3fffffc000) &&
          (s.p.pagetable.leaf 8192).isSome) = true by decide +kernel)
  cases hcall.symm.trans hx
  obtain ⟨s, hs, hcheck⟩ := exists_some_of_any hcheck
  rw [Bool.and_eq_true, decide_eq_true_eq] at hcheck
  obtain ⟨⟨hvalid, hsz, hbase⟩, hleaf⟩ := hcheck
  have hinv₁ : DocInv s₁ := by
    have hboot : DocInv (bootState spareFrames rwFile pageInode) :=
      .of_fresh (bootState_fresh ..)
    cases sysSbrk_spec (by decide) (by decide) hcall with
    | grow hg => exact hboot.growproc hg
    | lazy hmode => exact absurd rfl hmode
  have run := Run.of_checked hs
  have hready : SbrkReady ((spareFrames ++ bootTable.frames : List Frame) :
      Multiset Frame) 0 s := by
    refine ⟨(docInv_run hinv₁ run).layoutInv, ?_⟩
    rcases run with _ | ⟨-, h₁, _ | ⟨-, h₂, _ | _⟩⟩
    rw [(mmap_memory h₂).1, (mmap_memory h₂).2, (mmap_memory h₁).1,
      (mmap_memory h₁).2]
    exact hled
  obtain ⟨s', r', hcall', hcontract⟩ := (sbrk_contract_iff (n := -5000) (t := 1)
    hready).mpr fun _ => by rw [hsz, hbase]; decide
  have hshrunk := hcontract.shrink (by decide) (by rw [hsz]; decide)
  exact ⟨s, s', r', Option.isSome_iff_ne_none.mp hleaf, hvalid, hcall',
    hcontract, hshrunk.inside 8192 (by decide) (by rw [hsz]; decide)
      (by rw [hsz]; decide)⟩

/-- A process of one page asks for one byte less than nothing: it gets -1. -/
theorem sbrk_below_zero :
    ¬ ∃ s' r, sysSbrk (bootState spareFrames rwFile pageInode) (-4097) 0 =
        .ok (s', r) ∧
      SbrkContract (bootState spareFrames rwFile pageInode) (-4097) 0 s' r := by
  rintro ⟨s', r, hcall, hcontract⟩
  rw [sysSbrk_refused (by decide) (by decide)] at hcall
  cases hcall
  cases hcontract.old_size (by decide)

end Xv6.Vm
