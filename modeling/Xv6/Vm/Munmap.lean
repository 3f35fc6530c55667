import Xv6.Vm.Copyin

/-!
# `munmap` takes the access away

After `sys_munmap` has returned 0, the range should belong to no mapping, have
no page, and kill the process that touches it. The loop of the call stops at
the first slot that the range hits, so a range over two mappings leaves the
second one in place.
-/

namespace Xv6.Vm

open Framework

variable {s s' : State} {addr : UInt64} {len : Int32}

/-! ## The process before the call -/

/-- The mappings are non-empty, page-aligned, disjoint and below the trap
pages, and a page that is present belongs to the heap or to a mapping. -/
structure Tidy (p : Proc) : Prop where
  bounded : ∀ i, (p.vma i).valid = true → (p.vma i).Bounded
  nonempty : ∀ i, (p.vma i).valid = true → (p.vma i).start < (p.vma i).end_
  apart : Apart fun i => (p.vma i).region
  covered : Covered p

/-- The documented use of `mmap` and `munmap` leaves the process so. -/
theorem DocInv.tidy (h : DocInv s) : Tidy s.p where
  bounded := h.layout.bounded
  nonempty := h.nonempty
  apart := h.layout.apart
  covered := h.covered

/-! ## What the call promises -/

/-- A user access to the address ends the process. -/
def Fatal (s : State) (va : ℕ) : Prop :=
  translateLoad s.p.pagetable va = none ∧
    translateStore s.p.pagetable va = none ∧
    ∀ read, usertrapFault s va read = .ok (setkilled s)

/-- The range `[addr, stop)` is gone and the rest is as before. -/
structure Gone (s : State) (addr stop : ℕ) (s' : State) : Prop where
  vma : ∀ i va, (s'.p.vma i).Mem va → ¬ (addr ≤ va ∧ va < stop)
  leaf : ∀ va, addr ≤ va → va < stop → s.p.sz ≤ pgrounddown va →
    va < TRAPFRAME → s'.p.pagetable.leaf va = none
  fatal : ∀ va, addr ≤ va → va < stop → s.p.sz ≤ pgrounddown va →
    va < TRAPFRAME → Fatal s' va
  vma_other : ∀ i, ¬ (s.p.vma i).Hit addr stop → s'.p.vma i = s.p.vma i
  mem_outside : ∀ i va, ¬ (addr ≤ va ∧ va < stop) →
    ((s'.p.vma i).Mem va ↔ (s.p.vma i).Mem va)
  leaf_outside : ∀ va < MAXVA, ¬ (addr ≤ va ∧ va < stop) →
    s'.p.pagetable.leaf va = s.p.pagetable.leaf va

/-- The range lies inside one mapping and reaches neither of its ends. -/
def PunchesHole (v : VMA) (addr stop : ℕ) : Prop :=
  v.Hit addr stop ∧ v.start < addr ∧ stop < v.end_

/-- The range hits one mapping at most. -/
def HitsOne (p : Proc) (addr stop : ℕ) : Prop :=
  ∀ i j, (p.vma i).Hit addr stop → (p.vma j).Hit addr stop → i = j

instance (p : Proc) (addr stop : ℕ) : Decidable (HitsOne p addr stop) :=
  inferInstanceAs (Decidable (∀ _, _))

/-! ## The range -/

variable {va : ℕ}

theorem translateStore_of_none {pt : PageTable} (h : pt.leaf va = none) :
    translateStore pt va = none := by
  unfold translateStore
  rw [h]
  split <;> rfl

/-- An address without a mapping and without a page is fatal. -/
theorem fatal_of_unmapped (hsz : s.p.sz ≤ va) (hvma : ∀ i, ¬ (s.p.vma i).Mem va)
    (hleaf : s.p.pagetable.leaf va = none) : Fatal s va := by
  refine ⟨translateLoad_of_none hleaf, translateStore_of_none hleaf, ?_⟩
  intro read
  rw [usertrapFault, vmfault_unmapped read hsz hvma]
  rfl

variable {v : VMA} {stop : ℕ}

/-- A hit mapping that is not empty has an address in the range. -/
theorem VMA.Hit.exists_mem {addr : ℕ} (h : v.Hit addr stop)
    (hne : v.start < v.end_) (hrange : addr < stop) :
    ∃ va, v.Mem va ∧ addr ≤ va ∧ va < stop := by
  obtain ⟨hvalid, haddr, hstop⟩ := h
  exact ⟨max addr v.start, ⟨hvalid, by omega, by omega⟩, by omega, by omega⟩

theorem VMA.hit_of_mem {addr : ℕ} (h : v.Mem va)
    (hrange : addr ≤ va ∧ va < stop) : v.Hit addr stop :=
  ⟨h.1, Nat.lt_of_le_of_lt hrange.1 h.2.2, Nat.lt_of_le_of_lt h.2.1 hrange.2⟩

/-- The clipped range holds those addresses of the range that the mapping
has. -/
theorem VMA.Mem.clipped_iff {addr : ℕ} (h : v.Mem va) :
    (unmapStart v addr ≤ va ∧ va < unmapEnd v stop) ↔
      (addr ≤ va ∧ va < stop) := by
  obtain ⟨-, hlo, hhi⟩ := h
  unfold unmapStart unmapEnd
  split <;> split <;> omega

/-- A positive length below a mapping's end does not wrap. -/
theorem lt_munmapEnd (haddr : addr.toNat < TRAPFRAME)
    (hlen : 0 < len.toInt) : addr.toNat < munmapEnd addr len := by
  have hhi := len.toInt_lt
  unfold munmapEnd pgroundup toUint64 TRAPFRAME TRAMPOLINE MAXVA PGSIZE at *
  omega

/-! ## The call -/

/-- A call that returned 0 found no mapping, or released its part of the
first one. -/
theorem sysMunmap_true (hv : ∀ i, (s.p.vma i).valid = true →
      (s.p.vma i).Bounded)
    (h : sysMunmap s addr len = .ok (s', true)) :
    (∃ s₁, s' = rebase s₁ addr.toNat (munmapEnd addr len) ∧
      ((s₁ = s ∧ ∀ i, ¬ (s.p.vma i).Hit addr.toNat (munmapEnd addr len)) ∨
        ∃ i, Released s i addr.toNat (munmapEnd addr len) s₁)) := by
  unfold sysMunmap at h
  split at h
  · cases h
  · rename_i hargs
    simp only [not_or, not_not] at hargs
    obtain ⟨⟨s₁, goOn⟩, hhit, h⟩ := bind_ok_iff.mp h
    unfold munmapHit at hhit
    split at hhit
    · rename_i hfind
      cases hhit
      cases h
      refine ⟨s, rfl, Or.inl ⟨rfl, fun i => ?_⟩⟩
      simpa using findVma_none hfind i
    · rename_i i hfind
      rcases uvmunmapVma_spec (hv i) hargs.2.2 (munmapEnd_mod addr len)
        hhit with ⟨rfl, -, -⟩ | ⟨rfl, hrel⟩
      · cases h
      · cases h
        exact ⟨s₁, rfl, Or.inr ⟨i, hrel⟩⟩

variable {a : ℕ}

/-- The part of a state that `Gone` speaks of, apart from the fatal
accesses. -/
theorem Gone.of_parts (hsz : s'.p.sz = s.p.sz)
    (hvma : ∀ i va, (s'.p.vma i).Mem va → ¬ (a ≤ va ∧ va < stop))
    (hleaf : ∀ va, a ≤ va → va < stop → s.p.sz ≤ pgrounddown va →
      va < TRAPFRAME → s'.p.pagetable.leaf va = none)
    (hother : ∀ i, ¬ (s.p.vma i).Hit a stop → s'.p.vma i = s.p.vma i)
    (hmem : ∀ i va, ¬ (a ≤ va ∧ va < stop) →
      ((s'.p.vma i).Mem va ↔ (s.p.vma i).Mem va))
    (hout : ∀ va < MAXVA, ¬ (a ≤ va ∧ va < stop) →
      s'.p.pagetable.leaf va = s.p.pagetable.leaf va) :
    Gone s a stop s' where
  vma := hvma
  leaf := hleaf
  fatal := by
    intro va hlo hhi hbase htrap
    refine fatal_of_unmapped ?_ (fun i hm => hvma i va hm ⟨hlo, hhi⟩)
      (hleaf va hlo hhi hbase htrap)
    rw [hsz]
    exact Nat.le_trans hbase (pgrounddown_le va)
  vma_other := hother
  mem_outside := hmem
  leaf_outside := hout

/-- No mapping is hit: there was nothing in the range. -/
theorem gone_of_missed (ht : Tidy s.p) (hmiss : ∀ i, ¬ (s.p.vma i).Hit a stop) :
    Gone s a stop (rebase s a stop) := by
  refine .of_parts (rebase_sz ..) ?_ ?_ ?_ ?_ ?_
  · intro i va hm hrange
    rw [rebase_vma] at hm
    exact hmiss i (VMA.hit_of_mem hm hrange)
  · intro va hlo hhi hbase htrap
    rw [rebase_pagetable]
    by_contra hsome
    rcases ht.covered va htrap hsome with hheap | ⟨i, hm⟩
    · omega
    · exact hmiss i (VMA.hit_of_mem hm ⟨hlo, hhi⟩)
  · intro i _
    rw [rebase_vma]
  · intro i va _
    rw [rebase_vma]
  · intro va _ _
    rw [rebase_pagetable]

variable {i : Fin NVMA}

/-- One mapping was hit, and its part of the range was released. -/
theorem gone_of_released {s₁ : State} (ht : Tidy s.p)
    (hone : HitsOne s.p a stop) (hrel : Released s i a stop s₁) :
    Gone s a stop (rebase s₁ a stop) := by
  have hself : (s₁.p.vma i) = (s.p.vma i).shrunk
      (unmapStart (s.p.vma i) a) (unmapEnd (s.p.vma i) stop) := by
    rw [hrel.p]
    exact Function.update_self ..
  have hothers : ∀ j ≠ i, s₁.p.vma j = s.p.vma j := by
    intro j hj
    rw [hrel.p]
    exact Function.update_of_ne hj ..
  have hsz : s₁.p.sz = s.p.sz := by rw [hrel.p]
  have hmem : ∀ j va, (s₁.p.vma j).Mem va ↔
      (s.p.vma j).Mem va ∧ ¬ (a ≤ va ∧ va < stop) := by
    intro j va
    by_cases hj : j = i
    · subst hj
      rw [hself, VMA.mem_shrunk hrel.hit hrel.ends]
      refine and_congr_right fun hm => ?_
      rw [hm.clipped_iff]
    · rw [hothers j hj]
      refine (and_iff_left_of_imp fun hm hrange => hj ?_).symm
      exact hone j i (VMA.hit_of_mem hm hrange) hrel.hit
  refine .of_parts ((rebase_sz ..).trans hsz) ?_ ?_ ?_ ?_ ?_
  · intro j va hm
    rw [rebase_vma] at hm
    exact ((hmem j va).mp hm).2
  · intro va hlo hhi hbase htrap
    rw [rebase_pagetable]
    have hva := lt_MAXVA_of_lt_TRAPFRAME htrap
    by_cases hin : (s.p.vma i).Mem va
    · obtain ⟨h₁, h₂⟩ := hin.clipped_iff.mpr ⟨hlo, hhi⟩
      exact hrel.inside va hva h₁ h₂
    · -- outside the hit mapping there was no page
      by_contra hsome
      have hclip : ¬ (unmapStart (s.p.vma i) a ≤ va ∧
          va < unmapEnd (s.p.vma i) stop) := by
        rintro ⟨h₁, h₂⟩
        exact hsome (hrel.inside va hva h₁ h₂)
      rw [hrel.outside va hva hclip] at hsome
      rcases ht.covered va htrap hsome with hheap | ⟨j, hm⟩
      · omega
      · have := hone j i (VMA.hit_of_mem hm ⟨hlo, hhi⟩) hrel.hit
        exact hin (this ▸ hm)
  · intro j hj
    rw [rebase_vma]
    refine hothers j ?_
    rintro rfl
    exact hj hrel.hit
  · intro j va hout
    rw [rebase_vma, hmem]
    exact and_iff_left hout
  · intro va hva hout
    rw [rebase_pagetable]
    refine hrel.outside va hva ?_
    rintro ⟨h₁, h₂⟩
    refine hout ?_
    have hvalid := hrel.hit.1
    unfold unmapStart at h₁
    unfold unmapEnd at h₂
    split at h₁ <;> split at h₂ <;> omega

/-- A mapping that was hit besides the released one is still there. -/
theorem not_gone_of_two {j : Fin NVMA} {s₁ : State} (ht : Tidy s.p)
    (hrange : a < stop) (hrel : Released s i a stop s₁)
    (hj : (s.p.vma j).Hit a stop) (hne : j ≠ i) :
    ¬ Gone s a stop (rebase s₁ a stop) := by
  intro hgone
  obtain ⟨va, hm, hin⟩ := hj.exists_mem (ht.nonempty j hj.1) hrange
  refine hgone.vma j va ?_ hin
  rw [rebase_vma, hrel.p]
  simpa [hne] using hm

theorem uvmunmapVma_of_hole (hhit : (s.p.vma i).Hit a stop)
    (hlo : (s.p.vma i).start < a) (hhi : stop < (s.p.vma i).end_) :
    uvmunmapVma s i a stop = .ok (s, false) := by
  have hus : unmapStart (s.p.vma i) a = a := if_pos hlo
  have hue : unmapEnd (s.p.vma i) stop = stop := if_pos hhi
  obtain ⟨hvalid, haddr, hstop⟩ := hhit
  dsimp only [uvmunmapVma]
  rw [if_neg (by simp only [hvalid, Bool.true_eq_false, false_or]; omega),
    if_pos ⟨by omega, by omega⟩]

/-- A range that would punch a hole is turned down before anything is
done. -/
theorem sysMunmap_of_hole (ht : Tidy s.p) (haddr : addr.toNat % PGSIZE = 0)
    (hlen : 0 < len.toInt)
    (hhole : PunchesHole (s.p.vma i) addr.toNat (munmapEnd addr len)) :
    sysMunmap s addr len = .ok (s, false) := by
  obtain ⟨hhit, hlo, hhi⟩ := hhole
  have hne : ¬ (addr = 0 ∨ len = 0 ∨ addr.toNat % PGSIZE ≠ 0) := by
    rintro (rfl | rfl | h)
    · exact absurd hlo (Nat.not_lt_zero _)
    · exact absurd hlen (by decide)
    · exact h haddr
  have hrange : addr.toNat < munmapEnd addr len := lt_munmapEnd
    (Nat.lt_of_lt_of_le hhit.2.1 (ht.bounded i hhit.1).end_le) hlen
  -- the range lies inside the mapping, so no other one is hit
  have hfind : findVma s.p.vma (fun v =>
      decide (v.Hit addr.toNat (munmapEnd addr len))) = some i := by
    obtain ⟨j, hj⟩ := @findVma_isSome s.p.vma
      (fun v => decide (v.Hit addr.toNat (munmapEnd addr len))) i
      (decide_eq_true hhit)
    have hjhit := of_decide_eq_true (findVma_some hj)
    obtain ⟨va, hm, hva⟩ := hjhit.exists_mem (ht.nonempty j hjhit.1) hrange
    have hmi : (s.p.vma i).Mem va := ⟨hhit.1, by omega, by omega⟩
    rw [hj, ht.apart.eq_of_mem hm hmi]
  unfold sysMunmap munmapHit
  rw [if_neg hne]
  dsimp only
  rw [hfind]
  dsimp only
  rw [uvmunmapVma_of_hole hhit hlo hhi]
  rfl

/-- **`munmap` takes the access away exactly when its range hits one mapping
at most**, and a range that would punch a hole changes nothing. -/
theorem munmap_prevents_access (ht : Tidy s.p)
    (haddr : addr.toNat % PGSIZE = 0) (hlen : 0 < len.toInt) :
    (∀ s', sysMunmap s addr len = .ok (s', true) →
      (Gone s addr.toNat (munmapEnd addr len) s' ↔
        HitsOne s.p addr.toNat (munmapEnd addr len))) ∧
    ∀ i, PunchesHole (s.p.vma i) addr.toNat (munmapEnd addr len) →
      sysMunmap s addr len = .ok (s, false) := by
  refine ⟨?_, fun i => sysMunmap_of_hole ht haddr hlen⟩
  intro s' h
  obtain ⟨s₁, rfl, ⟨rfl, hmiss⟩ | ⟨i, hrel⟩⟩ := sysMunmap_true ht.bounded h
  · refine iff_of_true (gone_of_missed ht hmiss) ?_
    intro i _ hi
    exact absurd hi (hmiss i)
  · constructor
    · intro hgone i₁ j₁ hi₁ hj₁
      have hrange := lt_munmapEnd (Nat.lt_of_lt_of_le hrel.hit.2.1
        (ht.bounded i hrel.hit.1).end_le) hlen
      have huniq : ∀ j, (s.p.vma j).Hit addr.toNat (munmapEnd addr len) →
          j = i := by
        intro j hj
        by_contra hne
        exact not_gone_of_two ht hrange hrel hj hne hgone
      rw [huniq i₁ hi₁, huniq j₁ hj₁]
    · intro hone
      exact gone_of_released ht hone hrel

/-! ## Two mappings back to back -/

/-- A call of `mmap` that was documented once still is after it was made. -/
theorem Documented.mmap_again {prot flags fd offset : Int32}
    (hok : Documented s (.mmap addr len prot flags fd offset))
    (h : step s (.mmap addr len prot flags fd offset) = .ok s') :
    Documented s' (.mmap addr len prot flags fd offset) := by
  obtain ⟨hpos, hsmall, k, hfd, htype, href⟩ := hok
  refine ⟨hpos, hsmall, k, ?_⟩
  obtain ⟨⟨s₁, r⟩, hmap, h⟩ := bind_ok_iff.mp h
  cases h
  rcases sysMmap_spec hmap with rfl | ⟨i, k', hfd', hdone⟩
  · exact ⟨hfd, htype, href⟩
  · cases hfd.symm.trans hfd'
    refine ⟨?_, ?_, ?_⟩
    · rw [← hfd]
      unfold fdFile
      rw [hdone.p]
    · simpa [hdone.file] using htype
    · simp [hdone.file]

theorem step_mmap_pagetable {prot flags fd offset : Int32}
    (h : step s (.mmap addr len prot flags fd offset) = .ok s') :
    s'.p.pagetable = s.p.pagetable := by
  obtain ⟨⟨s₁, r⟩, hmap, h⟩ := map_ok_iff.mp h
  cases h
  rcases sysMmap_spec hmap with rfl | ⟨i, k, -, hdone⟩
  · rfl
  · rw [hdone.p]

/-- The process after two calls that map one page each. -/
theorem exists_two_maps {test : State → Bool} {prot flags : Int32}
    (h : ([Op.mmap 0 4096 prot flags 0 0, .mmap 0 4096 prot flags 0 0].foldlM
      step (bootState [200, 201] rwFile pageInode)).toOption.any test = true) :
    ∃ s, DocInv s ∧ s.p.pagetable = bootTable ∧ test s = true := by
  obtain ⟨s₂, hrun, htest⟩ := exists_ok_of_any h
  obtain ⟨s₁, h₁, hrun⟩ := bind_ok_iff.mp hrun
  obtain ⟨s₂, h₂, hrun⟩ := bind_ok_iff.mp hrun
  cases hrun
  have hok : Documented (bootState [200, 201] rwFile pageInode)
      (.mmap 0 4096 prot flags 0 0) :=
    ⟨by decide, by decide, 0, rfl, rfl, by decide⟩
  have hinv := docInv_step (DocInv.of_fresh (bootState_fresh ..)) hok h₁
  exact ⟨s₂, docInv_step hinv (hok.mmap_again h₁) h₂,
    (step_mmap_pagetable h₂).trans (step_mmap_pagetable h₁), htest⟩

theorem munmap_prevents_access_upper : ∃ s s', Tidy s.p ∧
    sysMunmap s 0x3fffffd000 4096 = .ok (s', true) ∧
    Gone s 0x3fffffd000 0x3fffffe000 s' := by
  obtain ⟨s, hinv, -, htest⟩ := @exists_two_maps
    (fun s => decide (HitsOne s.p 0x3fffffd000 0x3fffffe000) &&
      (sysMunmap s 0x3fffffd000 4096).toOption.any fun x => x.2) 1 2
    (by decide +kernel)
  rw [Bool.and_eq_true, decide_eq_true_eq] at htest
  obtain ⟨hone, hany⟩ := htest
  obtain ⟨⟨s', done⟩, hrun, hdone⟩ := exists_ok_of_any hany
  obtain rfl : done = true := hdone
  exact ⟨s, s', hinv.tidy, hrun, ((munmap_prevents_access hinv.tidy (by decide)
    (by decide)).1 s' hrun).mpr hone⟩

/-- Both mappings lie in the range; the call returns 0 and the lower one is
still there. -/
theorem munmap_leaves_second : ∃ s s', Tidy s.p ∧
    sysMunmap s 0x3fffffc000 8192 = .ok (s', true) ∧
    (s'.p.vma 1).Mem 0x3fffffc000 ∧
    ¬ Gone s 0x3fffffc000 0x3fffffe000 s' := by
  obtain ⟨s, hinv, -, htest⟩ := @exists_two_maps
    (fun s => (sysMunmap s 0x3fffffc000 8192).toOption.any
      fun x : State × Bool =>
        x.2 && decide ((x.1.p.vma 1).Mem 0x3fffffc000)) 1 2
    (by decide +kernel)
  obtain ⟨⟨s', done⟩, hrun, hx⟩ := exists_ok_of_any htest
  rw [Bool.and_eq_true, decide_eq_true_eq] at hx
  obtain ⟨rfl, hmem⟩ := hx
  refine ⟨s, s', hinv.tidy, hrun, hmem, fun hgone => ?_⟩
  exact hgone.vma 1 _ hmem ⟨Nat.le_refl _, by decide⟩

end Xv6.Vm
