import Xv6.Vm.Layout

/-!
# Where frames move

Frames move between the free list, the user pages and the pipes, and the
pages of a page table come from the free list. So whatever is true of all of
these frames stays true, step after step.
-/

namespace Xv6.Vm

open Framework

/-- Every frame on the free list, behind a user page or under a pipe has the
property. -/
structure FramesAll (P : Frame → Prop) (s : State) : Prop where
  free : ∀ f ∈ s.kmem.freelist, P f
  user : ∀ va < TRAPFRAME, ∀ l, s.p.pagetable.leaf va = some l → P l.frame
  pipe : ∀ k, (s.file k).type = .pipe → P (s.file k).pipe

variable {va : ℕ}

namespace FramesAll

variable {P : Frame → Prop} {s s' : State}

/-- Pipes do not come out of closing files. -/
theorem pipe_of_filesKept (h : FramesAll P s) (hk : FilesKept s s') :
    ∀ k, (s'.file k).type = .pipe → P (s'.file k).pipe := by
  intro k hpipe
  rw [hk.pipe]
  refine h.pipe k ?_
  rcases hk.type k with htype | htype
  · rw [← htype]
    exact hpipe
  · rw [htype] at hpipe
    cases hpipe

theorem mmap {len prot flags offset : Int32} {i : Fin NVMA} {k : FileId}
    (h : FramesAll P s) (hm : MmapDone s len prot flags offset i k s') :
    FramesAll P s' := by
  refine ⟨?_, ?_, ?_⟩
  · rw [hm.kmem]
    exact h.free
  · rw [show s'.p.pagetable = s.p.pagetable by rw [hm.p]]
    exact h.user
  · intro j hj
    rw [hm.file, Function.update_apply] at hj ⊢
    split at hj
    · rename_i hjk
      rw [if_pos hjk]
      exact h.pipe k hj
    · rename_i hjk
      rw [if_neg hjk]
      exact h.pipe j hj

theorem released {i : Fin NVMA} {addr stop : ℕ} (h : FramesAll P s)
    (hb : (s.p.vma i).Bounded) (hr : Released s i addr stop s') :
    FramesAll P s' := by
  have hend : unmapEnd (s.p.vma i) stop ≤ TRAPFRAME := by
    have := hb.end_le
    unfold unmapEnd
    split <;> omega
  refine ⟨?_, ?_, h.pipe_of_filesKept hr.files⟩
  · intro f hf
    rcases hr.freed f hf with hf | ⟨vb, l, -, hlt, hl, rfl⟩ | ⟨htype, rfl⟩
    · exact h.free f hf
    · exact h.user vb (by omega) l hl
    · exact h.pipe _ htype
  · intro va hva l hl
    have hva' := lt_MAXVA_of_lt_TRAPFRAME hva
    by_cases hin : unmapStart (s.p.vma i) addr ≤ va ∧
        va < unmapEnd (s.p.vma i) stop
    · rw [hr.inside va hva' hin.1 hin.2] at hl
      cases hl
    · rw [hr.outside va hva' hin] at hl
      exact h.user va hva l hl

theorem onlyFile {ip : Option InodeId} (h : FramesAll P s)
    (ho : OnlyFile s ip s') : FramesAll P s' := by
  refine ⟨?_, ?_, ?_⟩
  · rw [ho.kmem]
    exact h.free
  · rw [ho.p]
    exact h.user
  · rw [ho.file]
    exact h.pipe

theorem rebase (h : FramesAll P s) (addr stop : ℕ) :
    FramesAll P (rebase s addr stop) := by
  unfold Vm.rebase
  split
  · exact ⟨h.free, h.user, h.pipe⟩
  · exact h

theorem munmap {addr stop : ℕ} (h : FramesAll P s)
    (hb : ∀ i, (s.p.vma i).valid = true → (s.p.vma i).Bounded)
    (hm : MunmapDone s addr stop s') : FramesAll P s' := by
  cases hm with
  | refused => exact h
  | failed _ _ honly => exact h.onlyFile honly
  | missed => exact h.rebase addr stop
  | @released i s₁ _ hrel =>
    exact (h.released (hb i hrel.hit.1) hrel).rebase addr stop

theorem filled {mem : Frame} {perm : Perm} {km : Kmem} {pt : PageTable}
    (h : FramesAll P s) (hf : Filled s (pgrounddown va) mem perm km pt) :
    FramesAll P (s.setMemory km pt) := by
  refine ⟨fun f hfree => h.free f (hf.drawn.free f hfree), ?_, h.pipe⟩
  intro vb hvb l (hl : pt.leaf vb = some l)
  by_cases hpage : pgrounddown vb = pgrounddown va
  · rw [hf.self vb hpage] at hl
    cases hl
    exact h.free mem hf.free
  · rw [hf.other vb (lt_MAXVA_of_lt_TRAPFRAME hvb) hpage] at hl
    exact h.user vb hvb l hl

theorem fault {r : ℕ} {read : Bool} (h : FramesAll P s)
    (hf : Faulted s va read s' r) : FramesAll P s' := by
  cases hf with
  | unserved hleaf hdrawn =>
    refine ⟨fun f hfree => h.free f (hdrawn.free f hfree), ?_, h.pipe⟩
    intro vb hvb l hl
    exact h.user vb hvb l ((hleaf vb).symm.trans hl)
  | denied => exact ⟨h.free, h.user, h.pipe⟩
  | file _ _ hfilled => exact h.filled hfilled
  | heap _ hfilled => exact h.filled hfilled

theorem store {l : Leaf} {b : UInt8} (h : FramesAll P s)
    (ht : translateStore s.p.pagetable va = some l) :
    FramesAll P (storeThrough s va l b) := by
  refine ⟨h.free, ?_, h.pipe⟩
  intro vb hvb l' hl
  rw [storeThrough_leaf b ht (lt_MAXVA_of_lt_TRAPFRAME hvb)] at hl
  split at hl
  · rename_i hsame
    cases hl
    refine h.user vb hvb l ?_
    rw [PageTable.leaf_congr _ hsame]
    exact (translateStore_some ht).2.1
  · exact h.user vb hvb l' hl

end FramesAll

/-- New page-table pages come from the free list. -/
theorem Faulted.tables {P : Frame → Prop} {s s' : State} {r : ℕ} {read : Bool}
    (hf : Faulted s va read s' r) (hfree : ∀ f ∈ s.kmem.freelist, P f)
    (htables : ∀ f ∈ s.p.pagetable.frames, P f) :
    ∀ f ∈ s'.p.pagetable.frames, P f := by
  have hdrawn : ∀ {km : Kmem} {pt : PageTable},
      Drawn s.kmem s.p.pagetable km pt → ∀ f ∈ pt.frames, P f := by
    intro km pt hd f hf
    rcases hd.frames f hf with hf | hf
    · exact hfree f hf
    · exact htables f hf
  cases hf with
  | unserved _ hd => exact hdrawn hd
  | denied => exact htables
  | file _ _ hfilled => exact hdrawn hfilled.drawn
  | heap _ hfilled => exact hdrawn hfilled.drawn

end Xv6.Vm
