import Xv6.Vm.AddressSpace

/-!
# The arguments of `sys_mmap`

All six arguments come from the user. The call should refuse or map exactly
the range it was asked for, from a file with an inode. It follows
`p->ofile[fd]` before it looks at the descriptor, never looks at the type of
the file, and rounds the length as an `int`.
-/

namespace Xv6.Vm

open Framework

variable {s s' : State} {len prot flags fd offset : Int32} {addr : UInt64}

/-! ## What the call promises -/

/-- Slot `i` has a new mapping of file `k` from `start` on, and nothing else
of the VMA table or of the file counts has changed. -/
structure MmapAdds (s : State) (len fd : Int32) (start : ℕ) (i : Fin NVMA)
    (k : FileId) (s' : State) : Prop where
  free : (s.p.vma i).valid = false
  valid : (s'.p.vma i).valid = true
  others : ∀ j ≠ i, s'.p.vma j = s.p.vma j
  start_eq : (s'.p.vma i).start = start
  aligned : start % PGSIZE = 0
  len_le : start + len.toInt ≤ (s'.p.vma i).end_
  end_le : (s'.p.vma i).end_ ≤ s.p.mmapBase
  file : (s'.p.vma i).f = k
  descriptor : ∃ n : Fin NOFILE, fd.toInt = n.val ∧ s.p.ofile n = some k
  isOpen : 0 < (s.file k).ref
  isInode : (s.file k).type = .inode
  ref : (s'.file k).ref = (s.file k).ref + 1
  refs : ∀ m ≠ k, (s'.file m).ref = (s.file m).ref

/-- The call refuses and leaves VMAs, `mmap_base` and file counts alone, or
adds one mapping and returns its start. A panic is neither. -/
def MmapChecked (s : State) (addr : UInt64)
    (len prot flags fd offset : Int32) : Prop :=
  ∃ s' r, sysMmap s addr len prot flags fd offset = .ok (s', r) ∧
    ((r = none ∧ s'.p.vma = s.p.vma ∧ s'.p.mmapBase = s.p.mmapBase ∧
        ∀ k, (s'.file k).ref = (s.file k).ref) ∨
      ∃ start i k, r = some start ∧ MmapAdds s len fd start i k s')

/-- What a caller has to see to. The call ends at its first two tests; or the
descriptor names a file and one of the later tests refuses; or the file is
open, has an inode, and `PGROUNDUP(len)` stays an `int` (when it does not,
the sums only come out right for a start in the lowest 2 GB). -/
def MmapArgsOk (s : State) (addr : UInt64) (len prot flags fd : Int32) :
    Prop :=
  len = 0 ∨ addr ≠ 0 ∨
    ∃ (n : Fin NOFILE) (k : FileId), fd.toInt = n.val ∧ s.p.ofile n = some k ∧
      (mmapRefused (s.file k) prot flags = true ∨
        mmapStart s.p.mmapBase len < s.p.sz ∨
        TRAPFRAME ≤ mmapStart s.p.mmapBase len ∨
        (∀ i, (s.p.vma i).valid = true) ∨
        (0 < (s.file k).ref ∧ (s.file k).type = .inode ∧
          (len.toInt ≤ 2 ^ 31 - PGSIZE ∨
            mmapStart s.p.mmapBase len < 2 ^ 31)))

instance (s : State) (addr : UInt64) (len prot flags fd : Int32) :
    Decidable (MmapArgsOk s addr len prot flags fd) :=
  inferInstanceAs (Decidable (_ ∨ _))

/-! ## The range -/

/-- The new range ends at or below the old `mmap_base`, whatever the
length. -/
theorem mmap_end_le (base : ℕ) (len : Int32) :
    toUint64 ((mmapStart base len : ℤ) + mmapSize len) ≤ base := by
  obtain ⟨hlo, hhi, hmod⟩ := pgroundupInt_bounds len
  unfold mmapStart mmapSize at *
  generalize pgroundupInt len.toInt = up at *
  unfold toUint64 pgrounddown PGSIZE at *
  omega

/-- It covers the requested length, unless the rounding overflowed. -/
theorem mmap_len_le_iff {start : ℕ} (hmod : start % PGSIZE = 0)
    (hlt : start < TRAPFRAME) :
    (start + len.toInt ≤ toUint64 ((start : ℤ) + mmapSize len)) ↔
      (len.toInt ≤ 2 ^ 31 - PGSIZE ∨ start < 2 ^ 31) := by
  have hlo := len.le_toInt
  have hhi := len.toInt_lt
  unfold mmapSize pgroundupInt toInt32 toUint64 TRAPFRAME TRAMPOLINE MAXVA
    PGSIZE at *
  split <;> omega

/-! ## The descriptor -/

variable {k : FileId}

theorem fdFile_ok_iff : fdFile s fd = .ok k ↔
    ∃ n : Fin NOFILE, fd.toInt = n.val ∧ s.p.ofile n = some k := by
  unfold fdFile
  constructor
  · intro h
    split at h
    · rename_i hrange
      split at h
      · rename_i k' hk
        cases h
        exact ⟨_, (Int.toNat_of_nonneg hrange.1).symm, hk⟩
      · cases h
    · cases h
  · rintro ⟨n, hn, hk⟩
    have hlt := n.isLt
    rw [dif_pos ⟨by omega, by omega⟩]
    have hidx : (⟨fd.toInt.toNat, by omega⟩ : Fin NOFILE) = n :=
      Fin.ext (by simp only; omega)
    rw [hidx, hk]

/-! ## The two directions -/

theorem sysMmap_none_of_refused (addr : UInt64) (offset : Int32)
    (hfd : fdFile s fd = .ok k) (h : mmapRefused (s.file k) prot flags = true ∨
      mmapStart s.p.mmapBase len < s.p.sz ∨
      TRAPFRAME ≤ mmapStart s.p.mmapBase len ∨
      ∀ i, (s.p.vma i).valid = true) :
    sysMmap s addr len prot flags fd offset = .ok (s, none) := by
  unfold sysMmap
  split
  · rfl
  · split
    · rfl
    · rw [hfd]
      dsimp only [bind, Except.bind]
      split
      · rfl
      · rename_i hgrant
        split
        · rfl
        · rename_i hrange
          rcases h with h | h | h | h
          · exact absurd h hgrant
          · exact absurd (Or.inl h) hrange
          · exact absurd (Or.inr h) hrange
          · split
            · rfl
            · rename_i i hfind
              have hfree := findVma_some hfind
              rw [h i] at hfree
              cases hfree

/-- Past the tests, everything hangs on `filedup`. -/
theorem sysMmap_of_granted (offset : Int32) (hlen : len ≠ 0)
    (hfd : fdFile s fd = .ok k)
    (hgrant : mmapRefused (s.file k) prot flags = false)
    (hsz : s.p.sz ≤ mmapStart s.p.mmapBase len)
    (htrap : mmapStart s.p.mmapBase len < TRAPFRAME)
    (hfree : ∃ i, (s.p.vma i).valid = false) :
    (0 < (s.file k).ref ∧ ∃ i s', MmapDone s len prot flags offset i k s' ∧
      sysMmap s 0 len prot flags fd offset =
        .ok (s', some (mmapStart s.p.mmapBase len))) ∨
    ((s.file k).ref = 0 ∧
      sysMmap s 0 len prot flags fd offset = .error .filedup) := by
  obtain ⟨i₀, hi₀⟩ := hfree
  have hslot : ∃ i, findVma s.p.vma (fun v => !v.valid) = some i :=
    findVma_isSome (i := i₀) (by simp [hi₀])
  obtain ⟨i, hfind⟩ := hslot
  unfold sysMmap
  rw [if_neg hlen, if_neg (by simp), hfd]
  dsimp only [bind, Except.bind]
  rw [if_neg (by simp [hgrant]), if_neg (by omega), hfind]
  dsimp only
  rcases Nat.eq_zero_or_pos (s.file k).ref with hzero | hpos
  · refine Or.inr ⟨hzero, ?_⟩
    rw [filedup, if_pos (by omega)]
  · refine Or.inl ⟨hpos, i, ?_⟩
    rw [filedup, if_neg (by omega)]
    refine ⟨_, ?_, rfl⟩
    have hi := findVma_some hfind
    exact ⟨hlen, hgrant, hsz, htrap, by simpa using hi, hpos, rfl, rfl, rfl,
      rfl, rfl⟩

theorem MmapDone.adds {i : Fin NVMA}
    (h : MmapDone s len prot flags offset i k s') (hfd : fdFile s fd = .ok k)
    (htype : (s.file k).type = .inode) (hlen : len.toInt ≤ 2 ^ 31 - PGSIZE ∨
      mmapStart s.p.mmapBase len < 2 ^ 31) :
    MmapAdds s len fd (mmapStart s.p.mmapBase len) i k s' where
  free := h.free
  valid := by simp [h.p]
  others := fun _ hj => h.vma_other hj
  start_eq := by simp [h.p]
  aligned := pgrounddown_mod _
  len_le := by
    simp only [h.p, Function.update_self]
    exact (mmap_len_le_iff (pgrounddown_mod _) h.lt_trapframe).mpr hlen
  end_le := by
    simp only [h.p, Function.update_self]
    exact mmap_end_le _ _
  file := by simp [h.p]
  descriptor := fdFile_ok_iff.mp hfd
  isOpen := h.ref_pos
  isInode := htype
  ref := by simp [h.file]
  refs := fun m hm => by simp [h.file, hm]

/-- A slot that was free before and is valid after is the mapped one. -/
theorem MmapDone.slot_unique {i j : Fin NVMA}
    (h : MmapDone s len prot flags offset i k s')
    (hfree : (s.p.vma j).valid = false) (hvalid : (s'.p.vma j).valid = true) :
    j = i := by
  by_contra hne
  rw [h.vma_other hne, hfree] at hvalid
  cases hvalid

theorem MmapChecked.argsOk (h : MmapChecked s addr len prot flags fd offset) :
    MmapArgsOk s addr len prot flags fd := by
  obtain ⟨s', r, hrun, hdone⟩ := h
  by_cases hlen : len = 0
  · exact Or.inl hlen
  by_cases haddr : addr ≠ 0
  · exact Or.inr (Or.inl haddr)
  -- the call came back, so the descriptor was good
  have hfd : ∃ k, fdFile s fd = .ok k := by
    rw [sysMmap, if_neg hlen, if_neg haddr] at hrun
    obtain ⟨k, hk, -⟩ := bind_ok_iff.mp hrun
    exact ⟨k, hk⟩
  obtain ⟨k, hfd⟩ := hfd
  obtain ⟨n, hn, hk⟩ := fdFile_ok_iff.mp hfd
  refine Or.inr (Or.inr ⟨n, k, hn, hk, ?_⟩)
  by_contra hbad
  simp only [not_or, Bool.not_eq_true, Nat.not_lt, Nat.not_le,
    not_forall] at hbad
  obtain ⟨hgrant, hsz, htrap, hfree, hbad⟩ := hbad
  rw [not_ne_iff.mp haddr] at hrun
  rcases sysMmap_of_granted offset hlen hfd hgrant hsz htrap hfree with
    ⟨hpos, i, s₁, hmap, hrun'⟩ | ⟨-, hrun'⟩
  · rw [hrun] at hrun'
    cases hrun'
    rcases hdone with ⟨hnone, -⟩ | ⟨start, j, k', hsome, hadds⟩
    · cases hnone
    · cases hsome
      obtain rfl : k' = k := by
        obtain ⟨n', hn', hk'⟩ := hadds.descriptor
        obtain rfl : n' = n := Fin.ext (by omega)
        exact Option.some.inj (hk'.symm.trans hk)
      obtain rfl := hmap.slot_unique hadds.free hadds.valid
      refine hbad ⟨hpos, hadds.isInode, ?_⟩
      have hle := hadds.len_le
      simp only [hmap.p, Function.update_self] at hle
      exact (mmap_len_le_iff (pgrounddown_mod _) htrap).mp hle
  · rw [hrun] at hrun'
    cases hrun'

theorem MmapArgsOk.checked (h : MmapArgsOk s addr len prot flags fd)
    (offset : Int32) : MmapChecked s addr len prot flags fd offset := by
  have hrefuse : sysMmap s addr len prot flags fd offset = .ok (s, none) →
      MmapChecked s addr len prot flags fd offset :=
    fun hrun => ⟨s, none, hrun, Or.inl ⟨rfl, rfl, rfl, fun _ => rfl⟩⟩
  by_cases hlen : len = 0
  · exact hrefuse (by rw [sysMmap, if_pos hlen])
  by_cases haddr : addr ≠ 0
  · exact hrefuse (by rw [sysMmap, if_neg hlen, if_pos haddr])
  obtain ⟨n, k, hn, hk, h⟩ := (h.resolve_left hlen).resolve_left haddr
  have hfd : fdFile s fd = .ok k := fdFile_ok_iff.mpr ⟨n, hn, hk⟩
  by_cases hany : mmapRefused (s.file k) prot flags = true ∨
      mmapStart s.p.mmapBase len < s.p.sz ∨
      TRAPFRAME ≤ mmapStart s.p.mmapBase len ∨ ∀ i, (s.p.vma i).valid = true
  · exact hrefuse (sysMmap_none_of_refused addr offset hfd hany)
  obtain ⟨hpos, htype, hroom⟩ : 0 < (s.file k).ref ∧
      (s.file k).type = .inode ∧ (len.toInt ≤ 2 ^ 31 - PGSIZE ∨
        mmapStart s.p.mmapBase len < 2 ^ 31) := by
    simp only [not_or] at hany
    rcases h with h | h | h | h | h
    · exact absurd h hany.1
    · exact absurd h hany.2.1
    · exact absurd h hany.2.2.1
    · exact absurd h hany.2.2.2
    · exact h
  simp only [not_or, Bool.not_eq_true, Nat.not_lt, Nat.not_le,
    not_forall] at hany
  obtain ⟨hgrant, hsz, htrap, hfree⟩ := hany
  rw [not_ne_iff.mp haddr]
  rcases sysMmap_of_granted offset hlen hfd hgrant hsz htrap hfree with
    ⟨-, i, s', hmap, hrun⟩ | ⟨hzero, -⟩
  · exact ⟨s', _, hrun, Or.inr ⟨_, i, k, rfl, hmap.adds hfd htype hroom⟩⟩
  · omega

/-- **`sys_mmap` keeps its promise exactly on checked arguments.** The
descriptor has to name an open file with an inode, and the length must not
overflow when it is rounded, unless another test refuses the call first. -/
theorem mmapChecked_iff (s : State) (addr : UInt64)
    (len prot flags fd offset : Int32) :
    MmapChecked s addr len prot flags fd offset ↔
      MmapArgsOk s addr len prot flags fd :=
  ⟨MmapChecked.argsOk, fun h => h.checked offset⟩

/-- Descriptor -1 reads before the table, a closed one is a null pointer, a
pipe is mapped like a file, and a length within a page of `2 ^ 31` puts the
start of the new range above its end. -/
theorem mmap_unchecked :
    sysMmap (bootState [] rwFile pageInode) 0 4096 PROT_READ 2 (-1) 0 =
        .error .badFd ∧
      sysMmap (bootState [] rwFile pageInode) 0 4096 PROT_READ 2 5 0 =
        .error .kerneltrap ∧
      ¬ MmapChecked (bootState [] { rwFile with type := .pipe } pageInode) 0
        4096 PROT_READ 2 0 0 ∧
      ¬ MmapChecked { bootState [] rwFile pageInode with
        p := { (bootState [] rwFile pageInode).p with
          mmapBase := TRAPFRAME - 2 ^ 32 } } 0 (2 ^ 31 - 1) PROT_READ 2 0 0 :=
  ⟨rfl, rfl, mt MmapChecked.argsOk (by decide +kernel),
    mt MmapChecked.argsOk (by decide +kernel)⟩

end Xv6.Vm
