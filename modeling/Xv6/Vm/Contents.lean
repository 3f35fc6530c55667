import Xv6.Vm.Fault

/-!
# What pages contain

The allocator fills pages with junk and `walk` clears the page-table pages it
takes, so a page keeps its bytes as long as it is not on the free list. On
this rests what a fault puts into a page: the bytes of the file, then zeroes.
-/

namespace Xv6.Vm

open Framework

variable {km km₁ km' : Kmem} {pt pt' : PageTable}

/-! ## Bytes of frames -/

variable {f g : Frame}

/-- Two frames share no byte. -/
theorem Frame.add_ne (h : f ≠ g) {i : ℕ} (hi : i < PGSIZE) (b : ℕ)
    (hb : f.pa ≤ b ∧ b < f.pa + PGSIZE) : b ≠ g.pa + i := by
  rintro rfl
  have hne : f.val ≠ g.val := fun e => h (Fin.ext e)
  unfold Frame.pa KERNBASE PGSIZE at *
  omega

/-- The same bytes in the frame. -/
def Kmem.SameIn (km km' : Kmem) (g : Frame) : Prop :=
  ∀ i < PGSIZE, km'.mem (g.pa + i) = km.mem (g.pa + i)

theorem Kmem.SameIn.trans (h : km.SameIn km₁ g) (h' : km₁.SameIn km' g) :
    km.SameIn km' g :=
  fun i hi => (h' i hi).trans (h i hi)

theorem sameIn_memset {f g : Frame} (h : f ≠ g) (c : UInt8) {a n : ℕ}
    (ha : f.pa ≤ a) (hn : a + n ≤ f.pa + PGSIZE) :
    km.SameIn (km.memset a c n) g := by
  intro i hi
  refine if_neg ?_
  rintro ⟨hlo, hhi⟩
  exact Frame.add_ne h hi (g.pa + i) ⟨by omega, by omega⟩ rfl

theorem kalloc_sameIn (h : kalloc km = some (f, km')) (hg : g ∉ km.freelist) :
    km.SameIn km' g := by
  have hne : f ≠ g := by
    rintro rfl
    rw [kalloc_some h] at hg
    simp at hg
  unfold kalloc at h
  split at h
  · cases h
  · rename_i f' fl hfl
    cases h
    exact @sameIn_memset ⟨fl, km.mem⟩ f g hne 5 f.pa PGSIZE (Nat.le_refl _)
      (Nat.le_refl _)

/-- Only pages of the free list were written, and it has at most lost some of
them. -/
structure Spares (km km' : Kmem) : Prop where
  free : km'.freelist.Sublist km.freelist
  same : ∀ g ∉ km.freelist, km.SameIn km' g

theorem Spares.refl (km : Kmem) : Spares km km :=
  ⟨.refl _, fun _ _ _ _ => rfl⟩

theorem Spares.trans (h : Spares km km₁) (h' : Spares km₁ km') :
    Spares km km' where
  free := h'.free.trans h.free
  same := fun g hg =>
    (h.same g hg).trans (h'.same g fun hmem => hg (h.free.subset hmem))

/-- A page from the free list may be written at will. -/
theorem Spares.memset (h : Spares km km₁) (hf : f ∈ km.freelist) (c : UInt8)
    {a n : ℕ} (ha : f.pa ≤ a) (hn : a + n ≤ f.pa + PGSIZE) :
    Spares km (km₁.memset a c n) where
  free := h.free
  same := by
    intro g hg
    refine (h.same g hg).trans (sameIn_memset ?_ c ha hn)
    rintro rfl
    exact hg hf

theorem kalloc_spares (h : kalloc km = some (f, km')) :
    Spares km km' where
  free := by
    rw [kalloc_some h]
    exact List.sublist_cons_self ..
  same := fun g hg => kalloc_sameIn h hg

/-! ## Page-table pages -/

theorem mem_of_kalloc (h : kalloc km = some (f, km')) : f ∈ km.freelist := by
  rw [kalloc_some h]
  exact List.mem_cons_self

/-- `kalloc` and the `memset` after it. -/
theorem kalloc_zero_spares (h : kalloc km = some (f, km')) :
    Spares km (km'.memset f.pa 0 PGSIZE) :=
  (kalloc_spares h).memset (mem_of_kalloc h) 0 (Nat.le_refl _) (Nat.le_refl _)

variable {va : ℕ}

theorem walkAllocMid_spares {m : Mid Frame 512 (Option Leaf)} {found : Bool}
    {hva : va < MAXVA} (h : walkAllocMid km pt hva m = (km', pt', found)) :
    Spares km km' := by
  unfold walkAllocMid at h
  split at h
  · cases h
    exact .refl km
  · split at h
    · cases h
      exact .refl km
    · rename_i f km₁ halloc
      cases h
      exact kalloc_zero_spares halloc

theorem walkAlloc_spares {found : Bool}
    (h : walkAlloc km pt va = .ok (km', pt', found)) : Spares km km' := by
  unfold walkAlloc at h
  split at h
  · split at h
    · exact walkAllocMid_spares (Except.ok.inj h)
    · split at h
      · cases h
        exact .refl km
      · rename_i f km₁ halloc
        exact (kalloc_zero_spares halloc).trans
          (walkAllocMid_spares (Except.ok.inj h))
  · cases h

variable {perm : Perm}

theorem mappages_spares {done : Bool}
    (h : mappages km pt va f perm = .ok (km', pt', done)) : Spares km km' := by
  unfold mappages at h
  split at h
  · cases h
  · obtain ⟨⟨km₁, pt₁, found⟩, hwalk, h⟩ := bind_ok_iff.mp h
    have hspares := walkAlloc_spares hwalk
    cases found with
    | false =>
      cases h
      exact hspares
    | true =>
      simp only [if_true] at h
      split at h
      · cases h
      · cases h
        exact hspares

/-! ## The bytes of a file -/

theorem readiLoop_mem (ip : Inode) (km : Kmem) (dst off rem : ℕ) :
    ∀ b, (readiLoop ip km dst off rem).mem b =
      if dst ≤ b ∧ b < dst + rem then ip.byte (off + (b - dst))
      else km.mem b := by
  fun_induction readiLoop ip km dst off rem with
  | case1 km dst off =>
    intro b
    rw [if_neg (by omega)]
  | case2 km dst off rem hrem m ih =>
    intro b
    have hm : m ≤ rem := Nat.min_le_left ..
    rw [ih]
    -- behind this chunk, in it, or outside the range
    by_cases htail : dst + m ≤ b ∧ b < dst + m + (rem - m)
    · rw [if_pos htail, if_pos (by omega)]
      congr 1
      omega
    · rw [if_neg htail]
      show (if dst ≤ b ∧ b < dst + m then ip.byte (off + (b - dst))
        else km.mem b) = _
      by_cases hchunk : dst ≤ b ∧ b < dst + m
      · rw [if_pos hchunk, if_pos (by omega)]
      · rw [if_neg hchunk, if_neg (by omega)]

/-- What `vmfault` reads at a file offset: the file, and zeroes past its
end. -/
def fileByte (ip : Inode) (off : ℕ) : UInt8 :=
  if off < ip.size then ip.byte off else 0

variable {off : ℕ}

/-- `readi` of a page stops at the end of the file. -/
theorem readi_page (ip : Inode) (km : Kmem) (dst : ℕ) (hoff : off < 2 ^ 31) :
    readi ip km dst off PGSIZE =
      (readiLoop ip km dst off (min PGSIZE (ip.size - off)),
        min PGSIZE (ip.size - off)) := by
  have hsum : (off + PGSIZE) % 2 ^ 32 = off + PGSIZE := by
    unfold PGSIZE
    omega
  unfold readi
  rw [hsum]
  by_cases hpast : ip.size < off
  · rw [if_pos (Or.inl hpast), show min PGSIZE (ip.size - off) = 0 by omega,
      readiLoop, if_pos rfl]
  · rw [if_neg (by omega)]
    dsimp only
    by_cases hshort : ip.size < off + PGSIZE
    · rw [if_pos hshort, show min PGSIZE (ip.size - off) = ip.size - off by
        omega]
    · rw [if_neg hshort, show min PGSIZE (ip.size - off) = PGSIZE by omega]

/-- **A page filled from the file shows the file.** -/
theorem fillPage_mem (ip : Inode) (km : Kmem) (mem : Frame)
    (hoff : off < 2 ^ 31) {i : ℕ} (hi : i < PGSIZE) :
    (fillPage ip km mem off).mem (mem.pa + i) = fileByte ip (off + i) := by
  dsimp only [fillPage]
  rw [readi_page ip km mem.pa hoff]
  dsimp only
  generalize hn : min PGSIZE (ip.size - off) = n
  have hread : (readiLoop ip km mem.pa off n).mem (mem.pa + i) =
      if i < n then ip.byte (off + i) else km.mem (mem.pa + i) := by
    rw [readiLoop_mem, Nat.add_sub_cancel_left]
    exact if_congr (by omega) rfl rfl
  unfold fileByte
  by_cases hin : off + i < ip.size
  · rw [if_pos hin]
    have hlt : i < n := by omega
    rw [if_pos hlt] at hread
    split
    · exact (if_neg (by omega)).trans hread
    · exact hread
  · rw [if_neg hin, if_pos (by omega)]
    exact if_pos (by omega)

variable {mem : Frame}

theorem fillPage_sameIn (ip : Inode) (km : Kmem) (off : ℕ) (h : mem ≠ g) :
    km.SameIn (fillPage ip km mem off) g := by
  have hread : ∀ n ≤ PGSIZE,
      km.SameIn (readiLoop ip km mem.pa off n) g := by
    intro n hn i hi
    rw [readiLoop_mem, if_neg]
    rintro ⟨hlo, hhi⟩
    exact Frame.add_ne h hi (g.pa + i) ⟨by omega, by omega⟩ rfl
  have hreadi : km.SameIn (readi ip km mem.pa off PGSIZE).1 g := by
    unfold readi
    split
    · exact fun _ _ => rfl
    · dsimp only
      apply hread
      split
      · rename_i hlong
        have := Nat.mod_le (off + PGSIZE) (2 ^ 32)
        omega
      · exact Nat.le_refl _
  dsimp only [fillPage]
  split
  · refine hreadi.trans (sameIn_memset h 0 ?_ ?_)
    · omega
    · omega
  · exact hreadi

/-! ## Pages that a fault brings in -/

variable {s s' : State} {r : ℕ}

theorem mapOrFree_spares (hkm : Spares s.kmem km)
    (hmem : s.kmem.freelist = mem :: km.freelist)
    (h : mapOrFree s km va mem perm = .ok (s', r)) : Spares s.kmem s'.kmem := by
  obtain ⟨⟨km₁, pt₁, done⟩, hmap, h⟩ := bind_ok_iff.mp h
  have hmapped := mappages_spares hmap
  have hspares := hkm.trans hmapped
  cases done with
  | true =>
    cases h
    exact hspares
  | false =>
    simp only [Bool.false_eq_true, if_false] at h
    obtain ⟨km₂, hfree, h⟩ := bind_ok_iff.mp h
    cases h
    unfold kfree at hfree
    split at hfree
    · cases hfree
    · cases hfree
      have hback : Spares s.kmem { km₁ with
          freelist := mem :: km₁.freelist } := by
        refine ⟨?_, hspares.same⟩
        rw [hmem]
        exact hmapped.free.cons_cons mem
      refine hback.memset ?_ 1 (Nat.le_refl _) (Nat.le_refl _)
      rw [hmem]
      exact List.mem_cons_self

/-- The page that was mapped holds what it was filled with. -/
theorem mapOrFree_page (hmem : mem ∉ km.freelist) (hr : r ≠ 0)
    (h : mapOrFree s km va mem perm = .ok (s', r)) :
    r = mem.pa ∧ km.SameIn s'.kmem mem ∧
      ∀ vb, pgrounddown vb = va →
        s'.p.pagetable.leaf vb = some ⟨mem, perm⟩ := by
  obtain ⟨⟨km₁, pt₁, done⟩, hmap, h⟩ := bind_ok_iff.mp h
  rcases mappages_spec hmap with ⟨rfl, hmapped⟩ | ⟨rfl, -⟩
  · cases h
    exact ⟨rfl, (mappages_spares hmap).same mem hmem, hmapped.self⟩
  · simp only [Bool.false_eq_true, if_false] at h
    obtain ⟨km₂, -, h⟩ := bind_ok_iff.mp h
    cases h
    exact absurd rfl hr

theorem fillPage_spares {ip : Inode} (halloc : kalloc km = some (mem, km₁)) :
    Spares km (fillPage ip km₁ mem off) where
  free := by
    rw [fillPage_freelist]
    exact (kalloc_spares halloc).free
  same := by
    intro g hg
    refine (kalloc_sameIn halloc hg).trans (fillPage_sameIn ip km₁ off ?_)
    rintro rfl
    exact hg (mem_of_kalloc halloc)

variable {read : Bool}

/-- **A fault writes to pages of the free list only.** -/
theorem vmfault_spares (h : vmfault s va read = .ok (s', r)) :
    Spares s.kmem s'.kmem := by
  unfold vmfault at h
  split at h
  · split at h
    · cases h
      exact .refl _
    · dsimp only [vmfaultVma] at h
      split at h
      · cases h
        exact .refl _
      · split at h
        · cases h
          exact .refl _
        · rename_i mem km₁ halloc
          obtain ⟨ip, -, h⟩ := bind_ok_iff.mp h
          refine mapOrFree_spares (fillPage_spares halloc) ?_ h
          rw [fillPage_freelist]
          exact kalloc_some halloc
  · obtain ⟨mapped, -, h⟩ := bind_ok_iff.mp h
    split at h
    · cases h
      exact .refl _
    · split at h
      · cases h
        exact .refl _
      · rename_i mem km₁ halloc
        refine mapOrFree_spares (kalloc_zero_spares halloc) ?_ h
        rw [Kmem.freelist_memset]
        exact kalloc_some halloc

/-- The page that a fault in a mapping brings in: the frame `mem` with the
permissions of the mapping, showing file `ip` from `off` on. -/
structure PageOf (s : State) (v : VMA) (va off : ℕ) (s' : State)
    (mem : Frame) (ip : InodeId) : Prop where
  backed : (s.file v.f).ip = some ip
  leaf : ∀ vb, pgrounddown vb = pgrounddown va →
    s'.p.pagetable.leaf vb = some ⟨mem, v.perm⟩
  bytes : ∀ i < PGSIZE,
    s'.kmem.mem (mem.pa + i) = fileByte (s.inode ip) (off + i)

theorem vmfaultVma_page {i : Fin NVMA} (hnodup : s.kmem.freelist.Nodup)
    (hoff : (s.p.vma i).offset.toInt + pgrounddown va - (s.p.vma i).start =
      off) (hlt : off < 2 ^ 31) (hzero : r ≠ 0) (hneg : r ≠ negOne)
    (h : vmfaultVma s i va read = .ok (s', r)) :
    ∃ mem ip, r = mem.pa ∧ PageOf s (s.p.vma i) va off s' mem ip := by
  dsimp only [vmfaultVma] at h
  split at h
  · cases h
    exact absurd rfl hneg
  · split at h
    · cases h
      exact absurd rfl hzero
    · rename_i mem km₁ halloc
      obtain ⟨ip, hlock, h⟩ := bind_ok_iff.mp h
      have huint : toUint32 ((s.p.vma i).offset.toInt + pgrounddown va -
          (s.p.vma i).start) = off := by
        rw [hoff]
        unfold toUint32
        omega
      rw [huint] at h
      have hfresh : mem ∉ (fillPage (s.inode ip) km₁ mem off).freelist := by
        rw [fillPage_freelist]
        rw [kalloc_some halloc] at hnodup
        exact (List.nodup_cons.mp hnodup).1
      obtain ⟨hr, hsame, hleaf⟩ := mapOrFree_page hfresh hzero h
      refine ⟨mem, ip, hr, (ilock_ok hlock).1, hleaf, ?_⟩
      intro k hk
      rw [hsame k hk, fillPage_mem _ _ _ hlt hk]

/-! ## Separate pages -/

/-- No frame is on the free list twice, and no frame is at two addresses or
both at an address and on the free list. -/
structure Separate (s : State) : Prop where
  nodup : s.kmem.freelist.Nodup
  free : ∀ va < MAXVA, ∀ l, s.p.pagetable.leaf va = some l →
    l.frame ∉ s.kmem.freelist
  one : ∀ va < MAXVA, ∀ vb < MAXVA, ∀ l l',
    s.p.pagetable.leaf va = some l → s.p.pagetable.leaf vb = some l' →
    l.frame = l'.frame → pgrounddown va = pgrounddown vb

/-- It depends on the frames only. -/
theorem Separate.of_frames (h : Separate s)
    (hfree : s'.kmem.freelist.Sublist s.kmem.freelist)
    (hleaf : ∀ va < MAXVA, ∀ l, s'.p.pagetable.leaf va = some l →
      ∃ l', s.p.pagetable.leaf va = some l' ∧ l'.frame = l.frame) :
    Separate s' where
  nodup := h.nodup.sublist hfree
  free := by
    intro va hva l hl hmem
    obtain ⟨l', hl', hframe⟩ := hleaf va hva l hl
    exact h.free va hva l' hl' (hframe ▸ hfree.subset hmem)
  one := by
    intro va hva vb hvb l l' hl hl' heq
    obtain ⟨m, hm, hmf⟩ := hleaf va hva l hl
    obtain ⟨m', hm', hmf'⟩ := hleaf vb hvb l' hl'
    exact h.one va hva vb hvb m m' hm hm' (by rw [hmf, hmf', heq])

theorem mapOrFree_separate (hs : Separate s) (hkm : Spares s.kmem km)
    (hmem : s.kmem.freelist = mem :: km.freelist)
    (h : mapOrFree s km va mem perm = .ok (s', r)) : Separate s' := by
  have hspares := mapOrFree_spares hkm hmem h
  have hin : mem ∈ s.kmem.freelist := by
    rw [hmem]
    exact List.mem_cons_self
  have hnot : mem ∉ km.freelist := by
    have := hs.nodup
    rw [hmem] at this
    exact (List.nodup_cons.mp this).1
  obtain ⟨⟨km₁, pt₁, done⟩, hmap, h⟩ := bind_ok_iff.mp h
  rcases mappages_spec hmap with ⟨rfl, hm⟩ | ⟨rfl, hext⟩
  · cases h
    -- a leaf of the new table is the new page or an old leaf
    have hcases : ∀ vb < MAXVA, ∀ l, pt₁.leaf vb = some l →
        (pgrounddown vb = va ∧ l.frame = mem) ∨
          s.p.pagetable.leaf vb = some l := by
      intro vb hvb l hl
      by_cases hpage : pgrounddown vb = va
      · rw [hm.self vb hpage] at hl
        cases hl
        exact Or.inl ⟨hpage, rfl⟩
      · rw [hm.other vb hvb hpage] at hl
        exact Or.inr hl
    refine ⟨hs.nodup.sublist hspares.free, ?_, ?_⟩
    · intro vb hvb l hl hfree
      rcases hcases vb hvb l hl with ⟨-, hframe⟩ | hold
      · rw [hframe] at hfree
        exact hnot ((mappages_spares hmap).free.subset hfree)
      · exact hs.free vb hvb l hold (hspares.free.subset hfree)
    · intro vb hvb vc hvc l l' hl hl' heq
      rcases hcases vb hvb l hl with ⟨hb, hframe⟩ | hold
      · rcases hcases vc hvc l' hl' with ⟨hc, -⟩ | hold'
        · rw [hb, hc]
        · rw [← heq.symm.trans hframe] at hin
          exact absurd hin (hs.free vc hvc l' hold')
      · rcases hcases vc hvc l' hl' with ⟨-, hframe⟩ | hold'
        · rw [← heq.trans hframe] at hin
          exact absurd hin (hs.free vb hvb l hold)
        · exact hs.one vb hvb vc hvc l l' hold hold' heq
  · simp only [Bool.false_eq_true, if_false] at h
    obtain ⟨km₂, -, h⟩ := bind_ok_iff.mp h
    cases h
    refine hs.of_frames hspares.free ?_
    intro vb hvb l hl
    exact ⟨l, (hext.leaf vb).symm.trans hl, rfl⟩

/-- **A fault keeps pages apart.** -/
theorem vmfault_separate (hs : Separate s) (h : vmfault s va read = .ok (s', r)) :
    Separate s' := by
  have hkill : Separate (setkilled s) :=
    hs.of_frames (.refl _) fun _ _ l hl => ⟨l, hl, rfl⟩
  unfold vmfault at h
  split at h
  · split at h
    · cases h
      exact hs
    · dsimp only [vmfaultVma] at h
      split at h
      · cases h
        exact hkill
      · split at h
        · cases h
          exact hs
        · rename_i mem km₁ halloc
          obtain ⟨ip, -, h⟩ := bind_ok_iff.mp h
          refine mapOrFree_separate hs (fillPage_spares halloc) ?_ h
          rw [fillPage_freelist]
          exact kalloc_some halloc
  · obtain ⟨mapped, -, h⟩ := bind_ok_iff.mp h
    split at h
    · cases h
      exact hs
    · split at h
      · cases h
        exact hs
      · rename_i mem km₁ halloc
        refine mapOrFree_separate hs (kalloc_zero_spares halloc) ?_ h
        rw [Kmem.freelist_memset]
        exact kalloc_some halloc

/-- A leaf that is there stays through a fault. -/
theorem vmfault_leaf {vb : ℕ} {l : Leaf} (hvb : vb < MAXVA)
    (hl : s.p.pagetable.leaf vb = some l) (h : vmfault s va read = .ok (s', r)) :
    s'.p.pagetable.leaf vb = some l := by
  have hother : ∀ {mem : Frame} {perm : Perm} {km : Kmem} {pt : PageTable},
      Filled s (pgrounddown va) mem perm km pt → pt.leaf vb = some l := by
    intro mem perm km pt hfilled
    rw [hfilled.other vb hvb, hl]
    intro hpage
    have hfresh := hfilled.fresh
    rw [← hpage, PageTable.leaf_pgrounddown, hl] at hfresh
    cases hfresh
  cases vmfault_spec h with
  | unserved hleaf => exact (hleaf vb).trans hl
  | denied => exact hl
  | file _ _ hfilled => exact hother hfilled
  | heap _ hfilled => exact hother hfilled

end Xv6.Vm
