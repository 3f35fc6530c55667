import Xv6.Vm.WriteBack

/-!
# Where write-back is exact

Every byte of a dirty page goes to its place in the file, and no other byte of
the file changes, just when the dirty pages come first in the range, or the
ones before them lie past the end of the file.
-/

namespace Xv6.Vm

open Framework

/-! ## Dirty pages and the file -/

variable {pt : PageTable} {va : ℕ}

theorem Dirty.congr {vb : ℕ} (h : pgrounddown va = pgrounddown vb) :
    Dirty pt va ↔ Dirty pt vb := by
  unfold Dirty
  rw [pt.leaf_congr h]

/-- The byte of memory behind a user address. -/
def userByte (s : State) (va : ℕ) : UInt8 :=
  match s.p.pagetable.leaf va with
  | some l => s.kmem.mem (l.frame.pa + va % PGSIZE)
  | none => 0

/-- The place in the file of an address of the mapping. -/
def fileOffset (v : VMA) (va : ℕ) : ℕ := v.offset.toInt.toNat + (va - v.start)

/-- A shared mapping of an open file with a prefix, a suffix or the whole of
it to be unmapped, in a state the kernel can be in: the pages that are present
are user pages in allocated frames, and unmapping does not delete the file. -/
structure SharedMapping (s : State) (i : Fin NVMA) (j : InodeId) (a b : ℕ) :
    Prop where
  valid : (s.p.vma i).valid = true
  shared : (s.p.vma i).shared = true
  bounded : (s.p.vma i).Bounded
  offset_nonneg : 0 ≤ (s.p.vma i).offset.toInt
  offset_lt : (s.p.vma i).offset.toInt +
    ((s.p.vma i).end_ - (s.p.vma i).start) < 2 ^ 31
  a_mod : a % PGSIZE = 0
  b_mod : b % PGSIZE = 0
  lt : a < b
  range : (a = (s.p.vma i).start ∧ b ≤ (s.p.vma i).end_) ∨
    ((s.p.vma i).start ≤ a ∧ b = (s.p.vma i).end_)
  held : 0 < (s.file (s.p.vma i).f).ref
  type : (s.file (s.p.vma i).f).type = .inode
  ip : (s.file (s.p.vma i).f).ip = some j
  ref : 0 < (s.inode j).ref
  pages : ∀ va l, a ≤ va → va < b → s.p.pagetable.leaf va = some l →
    l.perm.u = true ∧ l.frame.Usable
  exists_after : a = (s.p.vma i).start → b = (s.p.vma i).end_ →
    (s.file (s.p.vma i).f).ref = 1 → (s.inode j).ref = 1 →
    (s.inode j).nlink ≠ 0

/-- Unmapping `[a, b)` leaves the file with its size, the bytes of the dirty
pages at their places, and every other byte as it was. -/
structure ExactWriteBack (s : State) (i : Fin NVMA) (j : InodeId) (a b : ℕ)
    (s' : State) : Prop where
  size : (s'.inode j).size = (s.inode j).size
  written : ∀ va, a ≤ va → va < b → Dirty s.p.pagetable va →
    fileOffset (s.p.vma i) va < (s.inode j).size →
    (s'.inode j).byte (fileOffset (s.p.vma i) va) = userByte s va
  others : ∀ k < (s.inode j).size,
    (∀ va, a ≤ va → va < b → Dirty s.p.pagetable va →
      fileOffset (s.p.vma i) va ≠ k) →
    (s'.inode j).byte k = (s.inode j).byte k

/-- No dirty page of the range comes after a page that is not dirty and whose
place in the file lies below the file size. -/
def NoGap (s : State) (i : Fin NVMA) (j : InodeId) (a b : ℕ) : Prop :=
  ∀ p q, p % PGSIZE = 0 → q % PGSIZE = 0 → a ≤ p → p < q → q < b →
    ¬ Dirty s.p.pagetable p → Dirty s.p.pagetable q →
    (s.inode j).size ≤ fileOffset (s.p.vma i) p

variable {km : Kmem}

theorem dirtyBytes_clean : ∀ {n a : ℕ},
    (∀ m < n, ¬ Dirty pt (a + m * PGSIZE)) → dirtyBytes km pt n a = []
  | 0, _, _ => rfl
  | n + 1, a, h => by
    have hrest : dirtyBytes km pt n (a + PGSIZE) = [] := by
      apply dirtyBytes_clean
      intro m hm
      rw [show a + PGSIZE + m * PGSIZE = a + (m + 1) * PGSIZE by
        rw [Nat.succ_mul]; omega]
      exact h (m + 1) (Nat.succ_lt_succ hm)
    rw [dirtyBytes, dirtyPage_of_not (by simpa using h 0 (Nat.succ_pos n)),
      hrest, List.nil_append]

theorem dirtyBytes_add (km : Kmem) (pt : PageTable) (n : ℕ) : ∀ m a,
    dirtyBytes km pt (m + n) a =
      dirtyBytes km pt m a ++ dirtyBytes km pt n (a + m * PGSIZE)
  | 0, a => by simp [dirtyBytes]
  | m + 1, a => by
    rw [Nat.succ_add, dirtyBytes, dirtyBytes_add km pt n m, dirtyBytes,
      List.append_assoc, Nat.succ_mul, Nat.add_assoc,
      Nat.add_comm PGSIZE]

theorem length_dirtyBytes : ∀ {n a : ℕ},
    (∀ m < n, Dirty pt (a + m * PGSIZE)) →
    (dirtyBytes km pt n a).length = n * PGSIZE
  | 0, _, _ => by simp [dirtyBytes]
  | n + 1, a, h => by
    obtain ⟨l, hl, hd⟩ := h 0 (Nat.succ_pos n)
    rw [Nat.zero_mul, Nat.add_zero] at hl
    have hrest : (dirtyBytes km pt n (a + PGSIZE)).length = n * PGSIZE := by
      apply length_dirtyBytes
      intro m hm
      rw [show a + PGSIZE + m * PGSIZE = a + (m + 1) * PGSIZE by
        rw [Nat.succ_mul]; omega]
      exact h (m + 1) (Nat.succ_lt_succ hm)
    rw [dirtyBytes, dirtyPage_of_leaf hl hd, List.length_append,
      length_pageBytes, hrest, Nat.succ_mul, Nat.add_comm]

/-- A dirty page after the first one that is not takes its place. -/
theorem lt_length_dirtyBytes {km : Kmem} {pt : PageTable} {n a p q : ℕ}
    (hall : ∀ m < p, Dirty pt (a + m * PGSIZE)) (hpq : p ≤ q) (hq : q < n)
    (hdirty : Dirty pt (a + q * PGSIZE)) :
    p * PGSIZE < (dirtyBytes km pt n a).length := by
  obtain ⟨c, rfl⟩ := Nat.exists_eq_add_of_le hpq
  obtain ⟨d, rfl⟩ := Nat.exists_eq_add_of_lt hq
  have hone : (dirtyBytes km pt 1 (a + (p + c) * PGSIZE)).length =
      1 * PGSIZE := by
    apply length_dirtyBytes
    intro m hm
    obtain rfl : m = 0 := by omega
    simpa using hdirty
  have hpos : 0 < PGSIZE := by decide
  rw [show p + c + d + 1 = p + (c + (1 + d)) by omega, dirtyBytes_add,
    dirtyBytes_add, dirtyBytes_add, List.length_append, List.length_append,
    List.length_append, length_dirtyBytes hall,
    show a + p * PGSIZE + c * PGSIZE = a + (p + c) * PGSIZE by
      rw [Nat.add_mul, Nat.add_assoc], hone]
  omega

theorem mem_dirtyBytes {x : UInt8} :
    ∀ {n a : ℕ}, x ∈ dirtyBytes km pt n a → ∃ pa, x = km.mem pa
  | 0, _, h => by simp [dirtyBytes] at h
  | n + 1, a, h => by
    rw [dirtyBytes, List.mem_append] at h
    rcases h with h | h
    · unfold dirtyPage at h
      split at h
      · split at h
        · simp only [pageBytes, List.mem_map] at h
          obtain ⟨m, -, rfl⟩ := h
          exact ⟨_, rfl⟩
        · cases h
      · cases h
    · exact mem_dirtyBytes h

/-- Where the dirty pages come first, their bytes are where they belong. -/
theorem dirtyBytes_get {km : Kmem} {pt : PageTable} : ∀ {n a L : ℕ},
    a % PGSIZE = 0 →
    (∀ p q, p < q → q < n → ¬ Dirty pt (a + p * PGSIZE) →
      Dirty pt (a + q * PGSIZE) → L ≤ p * PGSIZE) →
    ∀ t < L, (∀ l, t < n * PGSIZE → pt.leaf (a + t) = some l →
        l.perm.d = true → (dirtyBytes km pt n a)[t]? =
          some (km.mem (l.frame.pa + (a + t) % PGSIZE))) ∧
      (¬ (t < n * PGSIZE ∧ Dirty pt (a + t)) →
        (dirtyBytes km pt n a)[t]? = none)
  | 0, a, L, _, _, t, _ => by
    refine ⟨fun l hlt => by omega, fun _ => rfl⟩
  | n + 1, a, L, ha, hgap, t, ht => by
    have hnext : (a + PGSIZE) % PGSIZE = 0 := by simpa using ha
    have hshift : ∀ m, a + PGSIZE + m * PGSIZE = a + (m + 1) * PGSIZE := by
      intro m
      rw [Nat.succ_mul]
      omega
    have hsame : t < PGSIZE → pgrounddown (a + t) = pgrounddown a := by
      intro hlt
      unfold pgrounddown PGSIZE at *
      omega
    by_cases hdirty : Dirty pt a
    · obtain ⟨l₀, hl₀, hd₀⟩ := hdirty
      have hrest := @dirtyBytes_get km pt n (a + PGSIZE) (L - PGSIZE) hnext
        (by
          intro p q hpq hq hp hqd
          rw [hshift] at hp hqd
          have := hgap (p + 1) (q + 1) (by omega) (by omega) hp hqd
          rw [Nat.succ_mul] at this
          omega)
      rw [dirtyBytes, dirtyPage_of_leaf hl₀ hd₀]
      rcases Nat.lt_or_ge t PGSIZE with hlt | hge
      · rw [List.getElem?_append_left (by simpa using hlt)]
        refine ⟨?_, ?_⟩
        · intro l _ hl _
          rw [pt.leaf_congr (hsame hlt), hl₀] at hl
          cases hl
          have hoff : (a + t) % PGSIZE = t := by
            unfold PGSIZE at *
            omega
          simp [pageBytes, hlt, ha, hoff]
        · intro hnot
          refine absurd ⟨?_, ?_⟩ hnot
          · rw [Nat.succ_mul]
            omega
          · exact (Dirty.congr (hsame hlt)).mpr ⟨l₀, hl₀, hd₀⟩
      · have hback : a + PGSIZE + (t - PGSIZE) = a + t := by omega
        obtain ⟨h₁, h₂⟩ := hrest (t - PGSIZE) (by omega)
        rw [hback] at h₁ h₂
        rw [List.getElem?_append_right (by simpa using hge),
          length_pageBytes]
        rw [Nat.succ_mul]
        refine ⟨?_, ?_⟩
        · intro l hlt hl hd
          exact h₁ l (by omega) hl hd
        · intro hnot
          exact h₂ fun hyes => hnot ⟨by omega, hyes.2⟩
    · -- a page that is not dirty: from here on there is no dirty one
      have hclean : ∀ m < n, ¬ Dirty pt (a + PGSIZE + m * PGSIZE) := by
        intro m hm hd
        rw [hshift] at hd
        have := hgap 0 (m + 1) (by omega) (by omega)
          (by simpa using hdirty) hd
        omega
      have hnone : ¬ (t < (n + 1) * PGSIZE ∧ Dirty pt (a + t)) := by
        rintro ⟨hlt, hd⟩
        rw [Nat.succ_mul] at hlt
        rcases Nat.lt_or_ge t PGSIZE with hsmall | hge
        · exact hdirty ((Dirty.congr (hsame hsmall)).mp hd)
        · refine hclean ((t - PGSIZE) / PGSIZE) ?_ ?_
          · unfold PGSIZE at *
            omega
          · refine (Dirty.congr ?_).mp hd
            unfold pgrounddown PGSIZE at *
            omega
      rw [dirtyBytes, dirtyPage_of_not hdirty, dirtyBytes_clean hclean,
        List.nil_append]
      refine ⟨?_, fun _ => rfl⟩
      intro l hlt hl hd
      exact absurd ⟨hlt, l, hl, hd⟩ hnone

/-- The same state with other memory and other bytes in the file. -/
def State.withContents (s : State) (j : InodeId) (mem : ℕ → UInt8)
    (byte : ℕ → UInt8) : State :=
  { s with kmem := { s.kmem with mem := mem } }.setInode j
    { s.inode j with byte := byte }

namespace SharedMapping

variable {s : State} {i : Fin NVMA} {j : InodeId} {a b : ℕ}

theorem withContents (h : SharedMapping s i j a b) (mem byte : ℕ → UInt8) :
    SharedMapping (s.withContents j mem byte) i j a b where
  valid := h.valid
  shared := h.shared
  bounded := h.bounded
  offset_nonneg := h.offset_nonneg
  offset_lt := h.offset_lt
  a_mod := h.a_mod
  b_mod := h.b_mod
  lt := h.lt
  range := h.range
  held := h.held
  type := h.type
  ip := h.ip
  ref := by
    rw [State.withContents, State.inode_setInode]
    exact h.ref
  pages := h.pages
  exists_after := by
    rw [State.withContents, State.inode_setInode]
    exact h.exists_after

theorem start_le (h : SharedMapping s i j a b) : (s.p.vma i).start ≤ a := by
  rcases h.range with ⟨h, -⟩ | ⟨h, -⟩
  · exact Nat.le_of_eq h.symm
  · exact h

theorem le_end (h : SharedMapping s i j a b) : b ≤ (s.p.vma i).end_ := by
  rcases h.range with ⟨-, h⟩ | ⟨-, h⟩
  · exact h
  · exact Nat.le_of_eq h

theorem unmapStart_eq (h : SharedMapping s i j a b) :
    unmapStart (s.p.vma i) a = a := by
  have := h.start_le
  unfold unmapStart
  split <;> omega

theorem unmapEnd_eq (h : SharedMapping s i j a b) :
    unmapEnd (s.p.vma i) b = b := by
  have := h.le_end
  unfold unmapEnd
  split <;> omega

theorem le_MAXVA (h : SharedMapping s i j a b) : b ≤ MAXVA := by
  have h₁ := h.le_end
  have h₂ := h.bounded.end_le
  have h₃ := TRAPFRAME_lt_MAXVA
  omega

/-- The write-back of the mapping, in one piece. -/
theorem writeBack_eq (h : SharedMapping s i j a b) :
    writeBack s (s.p.vma i) a b = .ok
      (s.setInode j ((s.inode j).setBytes (fileOffset (s.p.vma i) a)
        ((dirtyBytes s.kmem s.p.pagetable ((b - a) / PGSIZE) a).take
          ((s.inode j).size - fileOffset (s.p.vma i) a))), true) := by
  have ha := h.a_mod
  have hb := h.b_mod
  have hlt := h.lt
  have hstart := h.start_le
  have hend := h.le_end
  have hnn := h.offset_nonneg
  have hoff := h.offset_lt
  have hfirst : toUint32 ((s.p.vma i).offset.toInt + a - (s.p.vma i).start) =
      fileOffset (s.p.vma i) a := by
    unfold toUint32 fileOffset
    omega
  have hpages : (b - a + PGSIZE - 1) / PGSIZE = (b - a) / PGSIZE := by
    unfold PGSIZE at *
    omega
  have hspan : a + (b - a) / PGSIZE * PGSIZE = b := by
    unfold PGSIZE at *
    omega
  rw [writeBack, if_pos h.shared, hfirst, hpages]
  rcases Nat.lt_or_ge (s.inode j).size (fileOffset (s.p.vma i) a) with hpast | hin
  · rw [writeBackLoop_past h.ip (by rw [hspan]; exact h.le_MAXVA) hpast
      (by unfold fileOffset; omega),
      Nat.sub_eq_zero_of_le (Nat.le_of_lt hpast), List.take_zero,
      Inode.setBytes_nil, State.setInode_self]
  · refine writeBackLoop_inside h.ip h.ref ha
      (by rw [hspan]; exact h.le_MAXVA) ?_ hin
    intro n hn l hl _
    refine (h.pages _ l (Nat.le_add_right _ _) ?_ hl).1
    unfold PGSIZE at *
    omega

/-- **`uvmunmap_vma` returns 0**, and the file is what the dirty pages make of
it when they are written one after the other. -/
theorem uvmunmapVma_eq (h : SharedMapping s i j a b) :
    ∃ s', uvmunmapVma s i a b = .ok (s', true) ∧
      (s'.inode j).size = (s.inode j).size ∧
      (s'.inode j).byte =
        ((s.inode j).setBytes (fileOffset (s.p.vma i) a)
          ((dirtyBytes s.kmem s.p.pagetable ((b - a) / PGSIZE) a).take
            ((s.inode j).size - fileOffset (s.p.vma i) a))).byte := by
  have hlt := h.lt
  have hstart := h.start_le
  have hend := h.le_end
  have hus := h.unmapStart_eq
  have hue := h.unmapEnd_eq
  have hclose : CanClose s (s.p.vma i).f :=
    ⟨h.held, by rw [h.type]; exact FileType.noConfusion,
      by rw [h.ip]; exact fun _ => Option.some_ne_none j⟩
  obtain ⟨s', hun, hsame, hdrop⟩ := uvmunmapVma_ok h.bounded
    ⟨h.valid, by omega, by omega⟩
    (by
      rw [hus, hue]
      rcases h.range with ⟨h, -⟩ | ⟨-, h⟩
      · exact Or.inl h
      · exact Or.inr h)
    h.a_mod h.b_mod (by rw [hus, hue]; omega)
    (by
      rw [hus, hue]
      exact fun va l hlo hhi hl => (h.pages va l hlo hhi hl).2)
    hclose (by rw [hus, hue]; exact h.writeBack_eq)
  rw [hus, hue] at hsame
  have hj := hdrop j
  rw [State.inode_setInode] at hj
  refine ⟨s', hun, ?_⟩
  by_cases hlast : a = (s.p.vma i).start ∧ b = (s.p.vma i).end_ ∧
      (s.file (s.p.vma i).f).ref = 1
  · -- the last reference to the file goes, and its inode stays linked
    generalize hnew : s'.inode j = new at hj ⊢
    cases hj with
    | kept => exact ⟨rfl, rfl⟩
    | put => exact ⟨rfl, rfl⟩
    | freed hone hzero =>
      exact absurd hzero (h.exists_after hlast.1 hlast.2.1 hlast.2.2 hone)
  · rw [hsame hlast, State.inode_setInode]
    exact ⟨rfl, rfl⟩

/-- The page numbers of the range. -/
theorem page_lt (h : SharedMapping s i j a b) {n : ℕ}
    (hn : n < (b - a) / PGSIZE) :
    a + n * PGSIZE < b ∧ (a + n * PGSIZE) % PGSIZE = 0 := by
  have ha := h.a_mod
  have hb := h.b_mod
  unfold PGSIZE at *
  omega

theorem fileOffset_add (h : SharedMapping s i j a b) (t : ℕ) :
    fileOffset (s.p.vma i) (a + t) = fileOffset (s.p.vma i) a + t := by
  have := h.start_le
  unfold fileOffset
  omega

theorem exact_of_noGap (h : SharedMapping s i j a b)
    (hgap : NoGap s i j a b) : ∃ s', uvmunmapVma s i a b = .ok (s', true) ∧
      ExactWriteBack s i j a b s' := by
  have ha := h.a_mod
  have hb := h.b_mod
  have hlt := h.lt
  obtain ⟨s', hun, hsize, hbyte⟩ := h.uvmunmapVma_eq
  -- from here on only places in the range are compared
  have hget := @dirtyBytes_get s.kmem s.p.pagetable ((b - a) / PGSIZE) a
    ((s.inode j).size - fileOffset (s.p.vma i) a) ha (by
      intro p q hpq hq hp hqd
      have hplt := h.page_lt (Nat.lt_trans hpq hq)
      have hqlt := h.page_lt hq
      have := hgap _ _ hplt.2 hqlt.2 (Nat.le_add_right _ _)
        (Nat.add_lt_add_left (Nat.mul_lt_mul_of_pos_right hpq (by decide)) a)
        hqlt.1 hp hqd
      rw [h.fileOffset_add] at this
      omega)
  have hrange : ∀ t, t < (b - a) / PGSIZE * PGSIZE ↔ a + t < b := by
    intro t
    unfold PGSIZE at *
    omega
  refine ⟨s', hun, hsize, ?_, ?_⟩
  · rintro va hlo hhi ⟨l, hl, hd⟩ hin
    obtain ⟨t, rfl⟩ := Nat.exists_eq_add_of_le hlo
    rw [h.fileOffset_add] at hin ⊢
    rw [hbyte, Inode.byte_setBytes, if_pos (Nat.le_add_right _ _),
      Nat.add_sub_cancel_left, List.getElem?_take_of_lt (by omega),
      (hget t (by omega)).1 l ((hrange t).mpr hhi) hl hd, userByte, hl]
    rfl
  · intro k hk hother
    rw [hbyte, Inode.byte_setBytes]
    split
    · rename_i hle
      obtain ⟨t, rfl⟩ := Nat.exists_eq_add_of_le hle
      have hnone := (hget t (by omega)).2 (by
        rintro ⟨ht, hd⟩
        exact hother _ (Nat.le_add_right _ _) ((hrange t).mp ht) hd
          (h.fileOffset_add t))
      rw [Nat.add_sub_cancel_left, List.getElem?_take_of_lt (by omega), hnone]
      rfl
    · rfl

/-- With a gap, a page of ones lands in a file of zeros where none of the
dirty pages belongs. -/
theorem noGap_of_exact (h : SharedMapping s i j a b)
    (hall : ∀ mem byte, ∃ s',
      uvmunmapVma (s.withContents j mem byte) i a b = .ok (s', true) ∧
      ExactWriteBack (s.withContents j mem byte) i j a b s') :
    NoGap s i j a b := by
  intro p q hp hq hap hpq hqb hpd hqd
  by_contra hsize
  have ha := h.a_mod
  have hb := h.b_mod
  have hpage : ∀ x, x % PGSIZE = 0 → a ≤ x →
      x = a + (x - a) / PGSIZE * PGSIZE := by
    intro x hx hle
    unfold PGSIZE at *
    omega
  -- the first page of the range that is not dirty
  have hex : ∃ n, ¬ Dirty s.p.pagetable (a + n * PGSIZE) :=
    ⟨(p - a) / PGSIZE, by rw [← hpage p hp hap]; exact hpd⟩
  classical
  have hmin := Nat.find_spec hex
  have hbefore : ∀ m < Nat.find hex, Dirty s.p.pagetable (a + m * PGSIZE) :=
    fun m hm => not_not.mp (Nat.find_min hex hm)
  have hfirst : Nat.find hex ≤ (p - a) / PGSIZE :=
    Nat.find_min' hex (by rw [← hpage p hp hap]; exact hpd)
  generalize Nat.find hex = n at hmin hbefore hfirst
  have hnp : a + n * PGSIZE ≤ p := by
    have := Nat.mul_le_mul_right PGSIZE hfirst
    have := hpage p hp hap
    omega
  have hin : fileOffset (s.p.vma i) a + n * PGSIZE < (s.inode j).size := by
    have h₁ : fileOffset (s.p.vma i) (a + n * PGSIZE) ≤
        fileOffset (s.p.vma i) p := by
      unfold fileOffset
      omega
    rw [h.fileOffset_add] at h₁
    omega
  obtain ⟨s', hun, hexact⟩ := hall (fun _ => 1) (fun _ => 0)
  obtain ⟨s'', hun', -, hbyte⟩ :=
    (h.withContents (fun _ => 1) (fun _ => 0)).uvmunmapVma_eq
  obtain rfl : s' = s'' := by
    rw [hun] at hun'
    exact congrArg Prod.fst (Except.ok.inj hun')
  have hlen := @lt_length_dirtyBytes
    (s.withContents j (fun _ => 1) (fun _ => 0)).kmem s.p.pagetable
    ((b - a) / PGSIZE) a n ((q - a) / PGSIZE) hbefore
    (by unfold PGSIZE at *; omega) (by unfold PGSIZE at *; omega)
    (by rw [← hpage q hq (by omega)]; exact hqd)
  have hone : (s'.inode j).byte (fileOffset (s.p.vma i) a + n * PGSIZE) =
      1 := by
    rw [hbyte, Inode.byte_setBytes]
    show (if fileOffset (s.p.vma i) a ≤ _ then _ else _) = _
    rw [if_pos (Nat.le_add_right _ _)]
    show Option.getD (List.take (_ - fileOffset (s.p.vma i) a) _)[
      fileOffset (s.p.vma i) a + n * PGSIZE -
        fileOffset (s.p.vma i) a]? _ = _
    rw [Nat.add_sub_cancel_left, List.getElem?_take_of_lt (by
      rw [State.withContents, State.inode_setInode]
      show n * PGSIZE < (s.inode j).size - _
      omega)]
    have hx := List.getElem?_eq_getElem hlen
    obtain ⟨_, hmem⟩ := mem_dirtyBytes (List.mem_of_getElem? hx)
    rw [hmem] at hx
    exact congrArg (Option.getD · _) hx
  have hzero : (s'.inode j).byte (fileOffset (s.p.vma i) a + n * PGSIZE) =
      0 := by
    refine (hexact.others _ ?_ ?_).trans ?_
    · rw [State.withContents, State.inode_setInode]
      exact hin
    · intro va hlo hhi hd heq
      refine hmin ?_
      obtain ⟨t, rfl⟩ := Nat.exists_eq_add_of_le hlo
      have : t = n * PGSIZE := by
        rw [show fileOffset ((s.withContents j _ _).p.vma i) (a + t) =
          fileOffset (s.p.vma i) (a + t) from rfl, h.fileOffset_add] at heq
        omega
      rw [← this]
      exact hd
    · rw [State.withContents, State.inode_setInode]
  rw [hone] at hzero
  exact absurd hzero (by decide)

end SharedMapping

/-- **Write-back is exact** for whatever the pages and the file hold **just
when no dirty page lies behind a clean or absent one** whose place is inside
the file. -/
theorem write_back_exact {s : State} {i : Fin NVMA} {j : InodeId} {a b : ℕ}
    (h : SharedMapping s i j a b) :
    (∀ mem byte, ∃ s',
      uvmunmapVma (s.withContents j mem byte) i a b = .ok (s', true) ∧
      ExactWriteBack (s.withContents j mem byte) i j a b s') ↔
    NoGap s i j a b := by
  refine ⟨h.noGap_of_exact, ?_⟩
  intro hgap mem byte
  refine (h.withContents mem byte).exact_of_noGap ?_
  intro p q hp hq hap hpq hqb hpd hqd
  rw [State.withContents, State.inode_setInode]
  exact hgap p q hp hq hap hpq hqb hpd hqd

/-! ### A mapping of two pages -/

/-- Two pages at the top of the mapping region. -/
def topPages : VMA :=
  { valid := true, start := 0x3fffffc000, end_ := 0x3fffffe000
    prot := 3, flags := 1, f := 0, offset := 0 }

/-- They are shared with a file of two pages, and only the page at `va` was
stored to. -/
def onePageDirty (va : ℕ) : State :=
  let s := bootState [] { rwFile with ref := 2 }
    { type := 2, nlink := 1, ref := 1, size := 8192, blocks := 8
      size_le := by decide }
  { s with
    kmem := ⟨[], fun pa => if Frame.pa 200 ≤ pa then 7 else 0⟩
    p := { s.p with
      pagetable := mappedTable va
        { r := true, w := true, u := true, d := true }
      vma := Function.update s.p.vma 0 topPages } }

theorem onePageDirty_dirty {vb : ℕ} (h : va < MAXVA) (hb : vb < TRAPFRAME)
    (he : bootTable.pte va = some none) :
    Dirty (onePageDirty va).p.pagetable vb ↔
      pgrounddown vb = pgrounddown va := by
  unfold Dirty
  rw [show (onePageDirty va).p.pagetable.leaf vb = _ from
    mappedTable_leaf h hb he]
  split
  · rename_i heq
    exact iff_of_true ⟨_, rfl, rfl⟩ heq
  · rename_i hne
    refine iff_of_false ?_ hne
    rintro ⟨l, hl, -⟩
    cases hl

theorem onePageDirty_shared (h : va < MAXVA) (he : bootTable.pte va = some none) :
    SharedMapping (onePageDirty va) 0 0 0x3fffffc000 0x3fffffe000 where
  valid := rfl
  shared := show topPages.shared = true by decide
  bounded := show topPages.Bounded from
    ⟨by decide, by decide, by decide, by decide⟩
  offset_nonneg := show 0 ≤ topPages.offset.toInt by decide
  offset_lt := show topPages.offset.toInt +
    (topPages.end_ - topPages.start) < 2 ^ 31 by decide
  a_mod := by decide
  b_mod := by decide
  lt := by decide
  range := Or.inl ⟨rfl, Nat.le_refl _⟩
  held := show 0 < 2 by decide
  type := rfl
  ip := rfl
  ref := show 0 < 1 by decide
  pages := by
    intro vb l _ hhi hl
    rw [show (onePageDirty va).p.pagetable.leaf vb = _ from
      mappedTable_leaf h hhi he] at hl
    split at hl
    · cases hl
      exact ⟨rfl, by decide⟩
    · cases hl
  exists_after := fun _ _ (hone : 2 = 1) => absurd hone (by decide)

theorem write_back_exact_first :
    SharedMapping (onePageDirty 0x3fffffc000) 0 0 0x3fffffc000 0x3fffffe000 ∧
    ∀ mem byte, ∃ s',
      uvmunmapVma ((onePageDirty 0x3fffffc000).withContents 0 mem byte) 0
        0x3fffffc000 0x3fffffe000 = .ok (s', true) ∧
      ExactWriteBack ((onePageDirty 0x3fffffc000).withContents 0 mem byte) 0 0
        0x3fffffc000 0x3fffffe000 s' := by
  have he : bootTable.pte 0x3fffffc000 = some none := by decide +kernel
  have hshared := onePageDirty_shared (by decide) he
  refine ⟨hshared, (write_back_exact hshared).mpr ?_⟩
  intro p q _ hq hap hpq hqb _ hqd
  rw [onePageDirty_dirty (by decide) hqb he] at hqd
  unfold pgrounddown PGSIZE at *
  omega

/-- Only the second page is dirty, and it is written over the first page of
the file. -/
theorem write_back_gap :
    SharedMapping (onePageDirty 0x3fffffd000) 0 0 0x3fffffc000 0x3fffffe000 ∧
    ∃ s', uvmunmapVma (onePageDirty 0x3fffffd000) 0
      0x3fffffc000 0x3fffffe000 = .ok (s', true) ∧
    ¬ ExactWriteBack (onePageDirty 0x3fffffd000) 0 0
      0x3fffffc000 0x3fffffe000 s' := by
  have he : bootTable.pte 0x3fffffd000 = some none := by decide +kernel
  have hshared := onePageDirty_shared (by decide) he
  obtain ⟨⟨s', done⟩, hun, hp⟩ := exists_ok_of_any
    (show ((uvmunmapVma (onePageDirty 0x3fffffd000) 0
      0x3fffffc000 0x3fffffe000).toOption.any
        fun r => r.2 && decide ((r.1.inode 0).byte 0 = 7)) = true
      by decide +kernel)
  simp only [Bool.and_eq_true, decide_eq_true_eq] at hp
  obtain ⟨rfl, hbyte⟩ := hp
  refine ⟨hshared, s', hun, ?_⟩
  intro hexact
  have hzero := hexact.others 0 (show 0 < 8192 by decide) (by
    intro va hlo hhi hd hplace
    rw [onePageDirty_dirty (by decide) hhi he] at hd
    have : fileOffset ((onePageDirty 0x3fffffd000).p.vma 0) va =
      0 + (va - 0x3fffffc000) := rfl
    unfold pgrounddown PGSIZE at hd
    omega)
  rw [hbyte] at hzero
  exact absurd hzero (show ¬ (7 : UInt8) = 0 by decide)

end Xv6.Vm
