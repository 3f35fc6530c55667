import Xv6.Vm.AddressSpace

/-!
# Mappings across `fork`

The child gets a copy of the parent's mappings from `kfork` and an `mmap_base`
at the top from `allocproc`, so its first `mmap` looks for room where the
copied mappings already are. The child's mappings stay disjoint in runs that
ask for no more than the room above what was copied.
-/

namespace Xv6.Vm

open Framework

/-! ## The child -/

/-- The loop over the slots copies the valid ones. -/
theorem forkVma_foldlM {p : Proc} : ∀ {is : List (Fin NVMA)} {s s' : State}
    {vma vma' : VMAs}, is.foldlM (forkVma p) (s, vma) = .ok (s', vma') →
    ∀ i, vma' i = if i ∈ is ∧ (p.vma i).valid = true then p.vma i else vma i
  | [], s, s', vma, vma', h, i => by
    cases h
    simp
  | j :: is, s, s', vma, vma', h, i => by
    rw [List.foldlM_cons] at h
    obtain ⟨⟨s₁, vma₁⟩, hround, h⟩ := bind_ok_iff.mp h
    rw [forkVma_foldlM h i]
    have hround' : vma₁ i =
        if i = j ∧ (p.vma i).valid = true then p.vma i else vma i := by
      unfold forkVma at hround
      split at hround
      · rename_i hvalid
        obtain ⟨s₂, -, hround⟩ := bind_ok_iff.mp hround
        cases hround
        rw [Function.update_apply]
        by_cases hij : i = j
        · subst hij
          simp [hvalid]
        · simp [hij]
      · rename_i hvalid
        cases hround
        rw [if_neg]
        rintro ⟨rfl, hv⟩
        exact hvalid hv
    rw [hround']
    by_cases hmem : i ∈ is
    · by_cases hv : (p.vma i).valid = true <;> simp [hmem, hv]
    · simp [hmem]

variable {s s' : State}

/-- The child starts at the top, with the parent's mappings. -/
theorem kfork_child {slot : Slot} {np : Proc}
    (h : kfork s slot = .ok (s', some np)) :
    np.mmapBase = TRAPFRAME ∧ ∀ i, np.vma i =
      if (s.p.vma i).valid = true then s.p.vma i else slot.vma i := by
  unfold kfork at h
  obtain ⟨⟨km, np₀⟩, halloc, h⟩ := bind_ok_iff.mp h
  cases np₀ with
  | none => cases h
  | some np₀ =>
    obtain ⟨hbase, hvma⟩ := allocproc_spec halloc
    obtain ⟨⟨km₁, pt, done⟩, -, h⟩ := bind_ok_iff.mp h
    simp only at h
    split at h
    · obtain ⟨⟨s₁, vma⟩, hloop, h⟩ := bind_ok_iff.mp h
      obtain ⟨⟨s₂, ofile⟩, -, h⟩ := bind_ok_iff.mp h
      simp only at h
      split at h
      · cases h
      · cases h
        refine ⟨hbase, fun i => ?_⟩
        show vma i = _
        rw [forkVma_foldlM hloop i, hvma]
        simp [List.mem_finRange]
    · obtain ⟨⟨km₂, slot'⟩, -, h⟩ := bind_ok_iff.mp h
      cases h

/-! ## Runs of the child -/

/-- `mmap` with a positive length, and exact `munmap`. -/
def ChildOps (s : State) : Op → Prop
  | .mmap _ len _ _ _ _ => 0 < len.toInt
  | .munmap addr len => ∃ i, (s.p.vma i).valid = true ∧
      addr.toNat = (s.p.vma i).start ∧ munmapEnd addr len = (s.p.vma i).end_
  | _ => False

/-- Child steps whose length does not wrap when it is rounded; the others use
the allocator in between. -/
def ChildGuarded (s : State) : Op → Prop
  | .mmap _ len _ _ _ _ => 0 < len.toInt ∧ len.toInt ≤ 2 ^ 31 - 4096
  | .others .. => True
  | op => ChildOps s op

instance (s : State) : DecidablePred (ChildGuarded s)
  | .mmap .. => inferInstanceAs (Decidable (_ ∧ _))
  | .munmap .. => inferInstanceAs (Decidable (∃ _, _ ∧ _ ∧ _))
  | .others .. => .isTrue trivial
  | .sbrk .. | .growproc _ | .vmfault .. | .load _ | .store .. | .exit =>
    .isFalse id

/-- The bytes an operation asks for in the mapping area. -/
def Op.bytes : Op → ℕ
  | .mmap _ len _ _ _ _ => mmapSize len
  | _ => 0

/-- Below `mmap_base` there are `n` bytes of room: whatever is mapped under it
ends that far down. -/
structure Room (p : Proc) (n : ℕ) : Prop extends Maps p.mmapBase p.vma where
  nonempty : ∀ i, (p.vma i).valid = true → (p.vma i).start < (p.vma i).end_
  clear : ∀ i, (p.vma i).valid = true →
    p.mmapBase ≤ (p.vma i).start ∨ (p.vma i).end_ + n ≤ p.mmapBase

theorem kfork_maps {slot : Slot} {np : Proc} (hl : Layout s.p.mmapBase s.p.vma)
    (hslot : ∀ i, (slot.vma i).valid = false)
    (h : kfork s slot = .ok (s', some np)) : Maps np.mmapBase np.vma := by
  obtain ⟨hbase, hvma⟩ := kfork_child h
  have hkept : ∀ i, (np.vma i).valid = true → np.vma i = s.p.vma i := by
    intro i hi
    rw [hvma i] at hi ⊢
    split at hi
    · rename_i hv
      rw [if_pos hv]
    · rw [hslot i] at hi
      cases hi
  refine ⟨hbase ▸ TRAPFRAME_mod, hbase ▸ Nat.le_refl _, ?_, ?_⟩
  · intro i hi
    have heq := hkept i hi
    rw [heq] at hi ⊢
    exact hl.bounded i hi
  · refine hl.apart.shrink fun i va hva => ?_
    have hmem : (np.vma i).Mem va := hva
    rw [hkept i hmem.1] at hmem
    exact hmem

namespace Room

variable {n : ℕ} {len : Int32} {i : Fin NVMA}

theorem mono {m : ℕ} (h : Room s.p n) (hle : m ≤ n) : Room s.p m where
  toMaps := h.toMaps
  nonempty := h.nonempty
  clear := fun i hi => (h.clear i hi).imp_right fun hend => by omega

/-- A new mapping takes its bytes from the room. -/
theorem mmap {prot flags offset : Int32} {k : FileId}
    (h : Room s.p (mmapSize len + n)) (hlo : 0 < len.toInt)
    (hhi : len.toInt ≤ 2 ^ 31 - 4096)
    (hm : MmapDone s len prot flags offset i k s') : Room s'.p n := by
  have hpos := DocInv.pgroundupInt_pos hlo hhi
  obtain ⟨hstart, hend, -⟩ := mmap_range h.base_mod h.base_le hm.lt_trapframe
  have hsize : (mmapSize len : ℤ) = pgroundupInt len.toInt := by
    have := (pgroundupInt_bounds len).2.1
    unfold mmapSize toUint64
    omega
  have hgap : GapOk s.p len := by
    rintro j va ⟨hj, hjlo, hjhi⟩ ⟨hle, hlt⟩
    rcases h.clear j hj with habove | hbelow <;> omega
  refine ⟨h.toMaps.mmap hgap hm, ?_, ?_⟩
  · intro j hj
    by_cases hji : j = i
    · subst hji
      rw [hm.p]
      simp only [Function.update_self, hend]
      omega
    · rw [hm.vma_other hji] at hj ⊢
      exact h.nonempty j hj
  · intro j hj
    rw [show s'.p.mmapBase = mmapStart s.p.mmapBase len by rw [hm.p]]
    by_cases hji : j = i
    · subst hji
      left
      rw [hm.p]
      simp
    · rw [hm.vma_other hji] at hj ⊢
      rcases h.clear j hj with habove | hbelow <;> omega

/-- Unmapping the whole of a mapping: no other slot is hit, and `mmap_base`
is raised over nothing. -/
theorem munmap {addr stop : ℕ} (h : Room s.p n) (hi : (s.p.vma i).valid = true)
    (haddr : addr = (s.p.vma i).start) (hstop : stop = (s.p.vma i).end_)
    (hm : MunmapDone s addr stop s') : Room s'.p n := by
  have hb := h.bounded i hi
  have hne := h.nonempty i hi
  have honly : ∀ j, (s.p.vma j).Hit addr stop → j = i := by
    rintro j ⟨hj, hja, hjs⟩
    have hnej := h.nonempty j hj
    have hmj : (s.p.vma j).Mem (max addr (s.p.vma j).start) :=
      ⟨hj, by omega, by omega⟩
    exact h.apart.eq_of_mem hmj ⟨hi, by omega, by omega⟩
  have hmaps := h.toMaps.munmap (hstop ▸ hb.end_mod) (fun _ => hstop ▸ hb.end_le) hm
  cases hm with
  | refused => exact h
  | failed _ _ hfile =>
    rw [hfile.p]
    exact h
  | missed _ hmiss => exact absurd ⟨hi, by omega, by omega⟩ (hmiss i)
  | @released j s₁ _ hrel =>
    obtain rfl := honly j hrel.hit
    have hgone : (s₁.p.vma j).valid = false := by
      rw [hrel.vma_self]
      simp [VMA.shrunk, unmapStart, unmapEnd, haddr, hstop]
    have hother : ∀ l, (s₁.p.vma l).valid = true →
        s₁.p.vma l = s.p.vma l ∧ ¬ (s.p.vma l).Hit addr stop := by
      intro l hl
      have hlj : l ≠ j := by
        rintro rfl
        simp [hgone] at hl
      exact ⟨hrel.vma_other hlj, fun hhit => hlj (honly l hhit)⟩
    refine ⟨hmaps, ?_, ?_⟩
    · intro l hl
      rw [rebase_vma] at hl ⊢
      have heq := (hother l hl).1
      rw [heq] at hl ⊢
      exact h.nonempty l hl
    · intro l hl
      rw [rebase_vma] at hl ⊢
      obtain ⟨heq, hmiss⟩ := hother l hl
      rw [heq] at hl ⊢
      have hbase : s₁.p.mmapBase = s.p.mmapBase := by rw [hrel.p]
      have hnel := h.nonempty l hl
      simp only [VMA.Hit, hl, true_and, not_and, Nat.not_lt] at hmiss
      unfold rebase
      rcases h.clear l hl with habove | hbelow <;> split <;> grind

theorem step {op : Op} (h : Room s.p (op.bytes + n)) (hok : ChildGuarded s op)
    (hstep : step s op = .ok s') : Room s'.p n := by
  cases op with
  | mmap addr len prot flags fd offset =>
    obtain ⟨⟨s₁, r⟩, hmm, rfl⟩ := map_ok_iff.mp hstep
    rcases sysMmap_spec hmm with rfl | ⟨i, k, -, hdone⟩
    · exact h.mono (Nat.le_add_left ..)
    · exact h.mmap hok.1 hok.2 hdone
  | munmap addr len =>
    obtain ⟨⟨s₁, r⟩, hmm, rfl⟩ := map_ok_iff.mp hstep
    obtain ⟨i, hi, haddr, hend⟩ := hok
    have hn := h.mono (Nat.le_add_left ..)
    exact hn.munmap hi haddr hend (sysMunmap_spec h.bounded hmm)
  | others fl =>
    cases hstep
    exact h.mono (Nat.le_add_left ..)
  | vmfault => cases hok
  | sbrk => cases hok
  | growproc => cases hok
  | load => cases hok
  | store => cases hok
  | exit => cases hok

/-- The room that the whole run asks for is used up at its end. -/
theorem run {ops : List Op} (run : Run Vm.step ChildGuarded s ops s')
    (h : Room s.p (ops.map Op.bytes).sum) : Room s'.p 0 := by
  induction run with
  | nil s => exact h
  | cons allowed taken _ ih => exact ih (h.step allowed taken)

end Room

/-- **The child's mappings stay disjoint** when it starts from a clean entry
of the process table and everything it inherits ends as far below its
`mmap_base` as the bytes that its own calls of `mmap` ask for together. -/
theorem fork_child_disjoint {s s₁ s' : State} {slot : Slot} {np : Proc}
    {ops : List Op} (hl : Layout s.p.mmapBase s.p.vma)
    (hslot : ∀ i, (slot.vma i).valid = false)
    (hfork : kfork s slot = .ok (s₁, some np))
    (hroom : ∀ i, (np.vma i).valid = true →
      (np.vma i).start < (np.vma i).end_ ∧
      (np.vma i).end_ + (ops.map Op.bytes).sum ≤ np.mmapBase)
    (run : Run step ChildGuarded { s₁ with p := np } ops s') :
    ∀ i j va, (s'.p.vma i).Mem va → (s'.p.vma j).Mem va → i = j := by
  have hstart : Room np (ops.map Op.bytes).sum :=
    ⟨kfork_maps hl hslot hfork, fun i hi => (hroom i hi).1,
      fun i hi => Or.inr (hroom i hi).2⟩
  intro i j va hi hj
  exact (Room.run run hstart).apart.eq_of_mem hi hj

/-- An entry of the process table that no process has used. -/
def cleanSlot : Slot := ⟨fun _ => {}, fun _ => none, none⟩

/-- Enough pages for a child: its trapframe and three page-table pages. -/
def forkPages : List Frame := [200, 201, 202, 203]

/-- The parent maps two pages and gives the upper one back. -/
def parentOps : List Op :=
  [.mmap 0 4096 3 1 0 0, .mmap 0 4096 3 1 0 0, .munmap 0x3fffffd000 4096]

/-- The child maps a page where the parent's upper one was. -/
def childOps : List Op := [.mmap 0 4096 3 1 0 0]

theorem fork_child_disjoint_mmap : ∃ s s₁ np s',
    Run step Documented (bootState forkPages rwFile pageInode) parentOps s ∧
    kfork s cleanSlot = .ok (s₁, some np) ∧
    Run step ChildGuarded { s₁ with p := np } childOps s' ∧
    (s'.p.vma 0).Mem 0x3fffffd000 ∧ (s'.p.vma 1).Mem 0x3fffffc000 ∧
    ∀ i j va, (s'.p.vma i).Mem va → (s'.p.vma j).Mem va → i = j := by
  obtain ⟨s, hs, hcheck⟩ := exists_some_of_any
    (show (Run.checked step Documented (bootState forkPages rwFile pageInode)
      parentOps).any (fun s => (kfork s cleanSlot).toOption.any fun r =>
        r.2.any fun np => decide (∀ i, (np.vma i).valid = true →
            (np.vma i).start < (np.vma i).end_ ∧
            (np.vma i).end_ + (childOps.map Op.bytes).sum ≤ np.mmapBase) &&
          (Run.checked step ChildGuarded { r.1 with p := np } childOps).any
            fun s => decide ((s.p.vma 0).Mem 0x3fffffd000 ∧
              (s.p.vma 1).Mem 0x3fffffc000)) = true by decide +kernel)
  obtain ⟨⟨s₁, np⟩, hfork, hcheck⟩ := exists_ok_of_any hcheck
  obtain ⟨np, rfl, hcheck⟩ := exists_some_of_any hcheck
  rw [Bool.and_eq_true, decide_eq_true_eq] at hcheck
  obtain ⟨s', hs', hmem⟩ := exists_some_of_any hcheck.2
  have hparent := Run.of_checked hs
  have run := Run.of_checked hs'
  have hmem := of_decide_eq_true hmem
  have hinv := docInv_run (.of_fresh (bootState_fresh ..)) hparent
  exact ⟨s, s₁, np, s', hparent, hfork, run, hmem.1, hmem.2,
    fork_child_disjoint hinv.layout (fun _ => rfl) hfork hcheck.1 run⟩

/-- A parent with one mapping of a page, and a child that maps a page too: the
child's mapping is put over the one it inherited. -/
theorem fork_child_overlap : ∃ s s₁ np s',
    Layout s.p.mmapBase s.p.vma ∧
    kfork s cleanSlot = .ok (s₁, some np) ∧
    Run step ChildOps { s₁ with p := np } [.mmap 0 4096 3 1 0 0] s' ∧
    (s'.p.vma 0).Mem 0x3fffffd000 ∧ (s'.p.vma 1).Mem 0x3fffffd000 := by
  have hcheck : ((step (bootState forkPages rwFile pageInode)
      (.mmap 0 4096 3 1 0 0)).toOption.any fun s =>
      (kfork s cleanSlot).toOption.any fun r => r.2.any fun np =>
        (step { r.1 with p := np } (.mmap 0 4096 3 1 0 0)).toOption.any
          fun s => decide ((s.p.vma 0).Mem 0x3fffffd000) &&
            decide ((s.p.vma 1).Mem 0x3fffffd000)) = true := by
    decide +kernel
  obtain ⟨s, hmap, hcheck⟩ := exists_ok_of_any hcheck
  obtain ⟨⟨s₁, np⟩, hfork, hcheck⟩ := exists_ok_of_any hcheck
  obtain ⟨np, rfl, hcheck⟩ := exists_some_of_any hcheck
  obtain ⟨s', hstep, hp⟩ := exists_ok_of_any hcheck
  simp only [Bool.and_eq_true, decide_eq_true_eq] at hp
  have hok : Documented (bootState forkPages rwFile pageInode)
      (.mmap 0 4096 3 1 0 0) := by decide +kernel
  have hinv := docInv_run (.of_fresh (bootState_fresh ..))
    (.cons hok hmap (.nil s))
  have hchild : ChildOps { s₁ with p := np } (.mmap 0 4096 3 1 0 0) := by
    show (0 : ℤ) < (4096 : Int32).toInt
    decide
  exact ⟨s, s₁, np, s', hinv.layout, hfork, .cons hchild hstep (.nil s'), hp⟩

end Xv6.Vm
