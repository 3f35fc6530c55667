import Xv6.Vm.Contents
import Xv6.Vm.Depart
import Xv6.Vm.MmapArgs
import Xv6.Vm.Munmap

/-!
# A mapping shows its file

`start`, `end` and `offset` of a mapping are edited apart from each other when
`munmap` cuts a prefix or a suffix off it. Whatever the process does while the
mapping is there, an address keeps the file offset it had at the beginning,
and a page that is faulted in holds the bytes of the file there.
-/

namespace Xv6.Vm

open Framework

variable {s s' : State}

/-! ## What is left of a mapping -/

/-- The file offset that belongs to an address of the mapping. -/
def VMA.fileOffset (v : VMA) (va : ℕ) : ℤ := v.offset.toInt + va - v.start

/-- `v` is a part of `v₀`, with the same file, the same permissions and the
same file offsets. -/
structure VMA.PartOf (v v₀ : VMA) : Prop where
  start_le : v₀.start ≤ v.start
  end_le : v.end_ ≤ v₀.end_
  f : v.f = v₀.f
  prot : v.prot = v₀.prot
  offset : v.offset.toInt = v₀.offset.toInt + v.start - v₀.start

theorem VMA.PartOf.refl (v : VMA) : v.PartOf v :=
  ⟨Nat.le_refl _, Nat.le_refl _, rfl, rfl, by omega⟩

/-- The last page of the mapping is at an offset that fits an `int`. -/
def VMA.Fits (v : VMA) : Prop :=
  0 ≤ v.offset.toInt ∧
    (v.start + PGSIZE ≤ v.end_ →
      v.offset.toInt + v.end_ - v.start < 2 ^ 31 + PGSIZE)

variable {v v₀ : VMA}

/-- A cut at either end leaves a part. -/
theorem VMA.PartOf.shrunk {addr stop : ℕ} (h : v.PartOf v₀) (hfits : v₀.Fits)
    (hv : v.Framed) (hhit : v.Hit addr stop) (hstop : stop % PGSIZE = 0)
    (hvalid : (v.shrunk (unmapStart v addr) (unmapEnd v stop)).valid = true) :
    (v.shrunk (unmapStart v addr) (unmapEnd v stop)).PartOf v₀ := by
  obtain ⟨hstart, hend, hf, hprot, hoff⟩ := h
  obtain ⟨hnonneg, hlast⟩ := hfits
  obtain ⟨-, haddr, hlo⟩ := hhit
  have hmod := hv.end_mod
  unfold VMA.shrunk at *
  split at hvalid
  · cases hvalid
  · rename_i hpart
    rw [if_neg hpart]
    by_cases hfront : unmapStart v addr = v.start
    · -- the offset moves with the start, and does not overflow
      have hue : unmapEnd v stop = stop ∧ stop < v.end_ := by
        unfold unmapEnd at hpart ⊢
        split
        · rename_i hlt
          exact ⟨rfl, hlt⟩
        · rename_i hge
          rw [if_neg hge] at hpart
          exact absurd ⟨hfront, rfl⟩ hpart
      obtain ⟨hue, hlt⟩ := hue
      rw [if_pos hfront, hue]
      have hpage : stop + PGSIZE ≤ v.end_ := by
        unfold PGSIZE at *
        omega
      have hbound := hlast (by omega)
      refine ⟨by simp only; omega, hend, hf, hprot, ?_⟩
      simp only
      rw [Int32.toInt_ofInt_of_le (by omega) (by unfold PGSIZE at *; omega)]
      omega
    · rw [if_neg hfront]
      refine ⟨hstart, ?_, hf, hprot, hoff⟩
      simp only
      unfold unmapStart at hfront ⊢
      split
      · omega
      · rename_i hge
        rw [if_neg hge] at hfront
        exact absurd rfl hfront

theorem VMA.PartOf.fileOffset (h : v.PartOf v₀) (va : ℕ) :
    v.fileOffset va = v₀.fileOffset va := by
  have := h.offset
  unfold VMA.fileOffset
  omega

/-! ## Runs with the mapping in place -/

/-- The process runs and slot `i` holds a mapping. -/
def Keeps (i : Fin NVMA) (s : State) (_ : Op) : Prop :=
  s.p.state = .running ∧ (s.p.vma i).valid = true

/-- What such a run keeps. -/
def PartInv (i : Fin NVMA) (v₀ : VMA) (s : State) : Prop :=
  s.p.state = .running →
    Framed s.p.vma ∧ ((s.p.vma i).valid = true → (s.p.vma i).PartOf v₀)

variable {i : Fin NVMA}

theorem PartInv.of_vma (h : PartInv i v₀ s) (hrun : s.p.state = .running)
    (hvma : s'.p.vma = s.p.vma) : PartInv i v₀ s' := by
  intro _
  rw [hvma]
  exact h hrun

variable {va : ℕ} {read : Bool}

/-- A trap leaves the mappings alone, or ends the process. -/
theorem partInv_usertrap (h : PartInv i v₀ s) (hrun : s.p.state = .running)
    (hstep : (usertrapFault s va read >>= usertrapret) = .ok s') :
    PartInv i v₀ s' := by
  obtain ⟨s₁, s₂, r, hfault, hkill, rfl | hexit⟩ := usertrap_spec hstep
  · refine h.of_vma hrun ?_
    rcases hkill with rfl | rfl
    · exact hfault.sameProc.vma
    · exact hfault.sameProc.vma
  · intro hlive
    rw [kexit_zombie hexit] at hlive
    cases hlive

theorem partInv_step (hfits : v₀.Fits) (op : Op) (h : PartInv i v₀ s)
    (hok : Keeps i s op) (hstep : step s op = .ok s') : PartInv i v₀ s' := by
  obtain ⟨hrun, hvalid⟩ := hok
  obtain ⟨hframed, hpart⟩ := h hrun
  cases op with
  | mmap addr len prot flags fd offset =>
    obtain ⟨⟨s₁, r⟩, hmap, hstep⟩ := map_ok_iff.mp hstep
    cases hstep
    intro _
    refine ⟨sysMmap_framed hframed hmap, ?_⟩
    rcases sysMmap_spec hmap with rfl | ⟨j, k, -, hdone⟩
    · exact hpart
    · -- the new mapping takes a slot that was free
      have hne : i ≠ j := by
        rintro rfl
        rw [hdone.free] at hvalid
        cases hvalid
      rw [hdone.vma_other hne]
      exact hpart
  | munmap addr len =>
    obtain ⟨⟨s₁, done⟩, hunmap, hstep⟩ := map_ok_iff.mp hstep
    cases hstep
    intro _
    refine ⟨sysMunmap_framed hframed hunmap, ?_⟩
    rcases sysMunmap_slot hframed hunmap i with hi | ⟨-, hhit, hi⟩
    · rw [hi]
      exact hpart
    · rw [hi]
      exact (hpart hvalid).shrunk hfits (hframed i hvalid) hhit
        (munmapEnd_mod addr len)
  | sbrk n t =>
    obtain ⟨⟨s₁, r⟩, hsbrk, hstep⟩ := map_ok_iff.mp hstep
    cases hstep
    exact h.of_vma hrun ((sysSbrk_still s n t).returns _ hsbrk).vma
  | growproc n =>
    obtain ⟨⟨s₁, r⟩, hgrow, hstep⟩ := map_ok_iff.mp hstep
    cases hstep
    exact h.of_vma hrun ((growproc_still s n).returns _ hgrow).vma
  | vmfault va read =>
    obtain ⟨⟨s₁, r⟩, hfault, hstep⟩ := map_ok_iff.mp hstep
    cases hstep
    exact h.of_vma hrun (vmfault_spec hfault).sameProc.vma
  | load va =>
    dsimp only [step, userLoad] at hstep
    split at hstep
    · cases hstep
      exact h
    · exact partInv_usertrap h hrun hstep
  | store va b =>
    dsimp only [step, userStore] at hstep
    split at hstep
    · cases hstep
      exact h.of_vma hrun rfl
    · exact partInv_usertrap h hrun hstep
  | exit =>
    intro hlive
    rw [kexit_zombie hstep] at hlive
    cases hlive
  | others freelist inode =>
    cases hstep
    exact h.of_vma hrun rfl

/-! ## The pages -/

/-- A fault at `va` brought in a page of file `k` with the permissions `prot`,
which shows the file from offset `off` on, and did nothing else to the
process. -/
structure ShowsPage (s : State) (k : FileId) (prot : Int32) (va : ℕ) (off : ℤ)
    (s' : State) (r : ℕ) : Prop where
  page : ∃ (mem : Frame) (ip : InodeId), r = mem.pa ∧
    (s.file k).ip = some ip ∧
    s'.p.pagetable.leaf va = some ⟨mem,
      { r := decide (prot &&& PROT_READ ≠ 0)
        w := decide (prot &&& PROT_WRITE ≠ 0)
        x := decide (prot &&& PROT_EXEC ≠ 0), u := true }⟩ ∧
    ∀ i < PGSIZE, s'.kmem.mem (mem.pa + i) =
      if off + i < (s.inode ip).size then (s.inode ip).byte (off + i).toNat
      else 0
  leaf : ∀ vb < MAXVA, pgrounddown vb ≠ pgrounddown va →
    s'.p.pagetable.leaf vb = s.p.pagetable.leaf vb
  vma : s'.p.vma = s.p.vma
  kept : ∀ g ∉ s.kmem.freelist, s.kmem.SameIn s'.kmem g

/-- The fault that is served by slot `i`. -/
theorem vmfault_showsPage {r : ℕ} (hsz : s.p.sz ≤ va) (hva : (s.p.vma i).Mem va)
    (honly : ∀ j, (s.p.vma j).Mem va → j = i)
    (hoff : 0 ≤ (s.p.vma i).fileOffset (pgrounddown va))
    (hlt : (s.p.vma i).fileOffset (pgrounddown va) < 2 ^ 31)
    (hnodup : s.kmem.freelist.Nodup) (h : vmfault s va read = .ok (s', r))
    (hzero : r ≠ 0) (hneg : r ≠ negOne) :
    ShowsPage s (s.p.vma i).f (s.p.vma i).prot va
      ((s.p.vma i).fileOffset (pgrounddown va)) s' r := by
  obtain ⟨off, hoff⟩ := Int.eq_ofNat_of_zero_le hoff
  rw [hoff] at hlt ⊢
  have hserved : vmfaultVma s i va read = .ok (s', r) := by
    obtain ⟨j, hfind⟩ := @findVma_isSome s.p.vma
      (fun v => decide (v.Mem va)) i (decide_eq_true hva)
    cases honly j (of_decide_eq_true (findVma_some hfind))
    rw [vmfault, if_pos hsz, hfind] at h
    exact h
  refine ⟨?_, ?_, (vmfault_spec h).sameProc.vma, (vmfault_spares h).same⟩
  · obtain ⟨mem, ip, hr, hpage⟩ := vmfaultVma_page hnodup hoff
      (by exact_mod_cast hlt) hzero hneg hserved
    refine ⟨mem, ip, hr, hpage.backed, hpage.leaf va rfl, ?_⟩
    intro k hk
    rw [hpage.bytes k hk, fileByte,
      show ((off : ℤ) + k).toNat = off + k by omega]
    exact if_congr (by omega) rfl rfl
  · cases vmfault_spec h with
    | unserved => exact absurd rfl hzero
    | denied => exact absurd rfl hneg
    | file _ _ hfilled => exact hfilled.other
    | heap hbelow => omega

/-! ## The mapping that `sys_mmap` makes -/

variable {len prot flags offset : Int32}

theorem sysMmap_some {addr : UInt64} {fd : Int32} {start : ℕ}
    (h : sysMmap s addr len prot flags fd offset = .ok (s', some start)) :
    ∃ i k, fdFile s fd = .ok k ∧ start = mmapStart s.p.mmapBase len ∧
      MmapDone s len prot flags offset i k s' := by
  have hspec := sysMmap_spec h
  unfold sysMmap at h
  split at h
  · cases h
  · split at h
    · cases h
    · obtain ⟨k, hfd, h⟩ := bind_ok_iff.mp h
      split at h
      · cases h
      · dsimp only at h
        split at h
        · cases h
        · split at h
          · cases h
          · rename_i i hfind
            obtain ⟨s₁, hdup, h⟩ := bind_ok_iff.mp h
            obtain ⟨hpos, rfl⟩ := filedup_ok hdup
            cases h
            rcases hspec with hsame | ⟨i, k', hfd', hdone⟩
            · -- the reference was taken, so the state is another one
              have := congrArg (fun s : State => (s.file k).ref) hsame
              simp [State.setFile, State.setVma] at this
            · exact ⟨i, k', hfd', rfl, hdone⟩

theorem MmapDone.fits {k : FileId} (hm : Maps s.p.mmapBase s.p.vma)
    (h : MmapDone s len prot flags offset i k s') (hoff : 0 ≤ offset.toInt)
    (hsum : offset.toInt + len.toInt < 2 ^ 31) : (s'.p.vma i).Fits := by
  obtain ⟨hstart, hend, -⟩ := mmap_range hm.base_mod hm.base_le h.lt_trapframe
  have hlo := len.le_toInt
  have hhi := len.toInt_lt
  rw [h.p]
  simp only [Function.update_self]
  refine ⟨hoff, ?_⟩
  simp only [hend]
  intro hpage
  have hup : pgroundupInt len.toInt < len.toInt + PGSIZE := by
    unfold pgroundupInt toInt32 PGSIZE at *
    split at * <;> omega
  omega

theorem Maps.framed {base : ℕ} {vma : VMAs} (h : Maps base vma) :
    Framed vma := by
  intro j hj
  obtain ⟨h₁, h₂, -, h₄⟩ := h.bounded j hj
  exact ⟨h₁, h₂, Nat.lt_of_le_of_lt h₄ (by decide)⟩

/-- As long as the mapping is there, an address has the file offset it had,
and a page faulted in for it from this mapping shows the file. -/
theorem shows_file_of_run {s₁ : State} {ops : List Op} {start : ℕ} {fd : Int32}
    (hmaps : Maps s.p.mmapBase s.p.vma) (hoff : 0 ≤ offset.toInt)
    (hsum : offset.toInt + len.toInt < 2 ^ 31)
    (hmmap : sysMmap s 0 len prot flags fd offset = .ok (s₁, some start))
    (hfree : (s.p.vma i).valid = false) (hmade : (s₁.p.vma i).valid = true)
    (hrun : Run step (Keeps i) s₁ ops s') (hlive : s'.p.state = .running)
    (hva : (s'.p.vma i).Mem va) :
    (s'.p.vma i).fileOffset va = offset.toInt + va - start ∧
    ∀ read s'' r, s'.p.sz ≤ va → (∀ j, (s'.p.vma j).Mem va → j = i) →
      s'.kmem.freelist.Nodup → vmfault s' va read = .ok (s'', r) →
      r ≠ 0 → r ≠ negOne → ∃ k, fdFile s fd = .ok k ∧
        ShowsPage s' k prot va (offset.toInt + pgrounddown va - start)
          s'' r := by
  obtain ⟨j, k, hfd, hstart, hdone⟩ := sysMmap_some hmmap
  obtain rfl := hdone.slot_unique hfree hmade
  have hv₀ : s₁.p.vma i =
      { valid := true, start := start
        end_ := toUint64 ((start : ℤ) + mmapSize len)
        prot := prot, flags := flags, f := k, offset := offset } := by
    rw [hdone.p, hstart]
    exact Function.update_self ..
  have hfits := hdone.fits hmaps hoff hsum
  have hinv : PartInv i (s₁.p.vma i) s' := hrun.invariant
    (fun _ op _ h hok hstep => partInv_step hfits op h hok hstep)
    (fun _ => ⟨sysMmap_framed hmaps.framed hmmap, fun _ => .refl _⟩)
  obtain ⟨hframed', hpart⟩ := hinv hlive
  have hpart := hpart hva.1
  have hoffset : ∀ vb : ℕ, (s'.p.vma i).fileOffset vb =
      offset.toInt + vb - start := by
    intro vb
    rw [hpart.fileOffset, hv₀]
    rfl
  refine ⟨hoffset va, ?_⟩
  intro read s'' r hsz honly hnodup hfault hzero hneg
  refine ⟨k, hfd, ?_⟩
  -- the page lies inside what is left of the mapping
  have hlo : (s'.p.vma i).start ≤ pgrounddown va :=
    (le_pgrounddown_iff (hframed' i hva.1).start_mod).mpr hva.2.1
  have hhi : pgrounddown va + PGSIZE ≤ (s'.p.vma i).end_ := by
    have h₁ := (hframed' i hva.1).end_mod
    have h₂ := hva.2.2
    unfold pgrounddown PGSIZE at *
    omega
  have h₁ := hpart.start_le
  have h₂ := hpart.end_le
  have hbound := hfits.2 (by omega)
  rw [hv₀] at h₁ h₂ hbound
  dsimp only at h₁ h₂ hbound
  have hshows := vmfault_showsPage hsz hva honly
    (by rw [hoffset]; omega) (by rw [hoffset]; omega) hnodup hfault hzero hneg
  rwa [hoffset, hpart.f, hpart.prot, hv₀] at hshows

/-! ## Unmapping only -/

/-- The calls and accesses that leave the heap and the number of mappings
alone, while slot `i` holds a mapping of a running process. -/
def Trims (i : Fin NVMA) (s : State) (op : Op) : Prop :=
  Keeps i s op ∧ match op with
    | .munmap .. | .vmfault .. | .load _ | .store .. | .others .. => True
    | _ => False

/-- Every mapping is inside what its slot held at the beginning, and the heap
is as large. -/
structure Trimmed (s₀ s : State) : Prop where
  framed : Framed s.p.vma
  sz : s.p.sz = s₀.p.sz
  mem : ∀ j va, (s.p.vma j).Mem va → (s₀.p.vma j).Mem va

variable {s₀ : State}

theorem Trimmed.of_same (h : Trimmed s₀ s) (hvma : s'.p.vma = s.p.vma)
    (hsz : s'.p.sz = s.p.sz) : Trimmed s₀ s' := by
  refine ⟨?_, hsz.trans h.sz, ?_⟩
  · rw [hvma]
    exact h.framed
  · rw [hvma]
    exact h.mem

theorem VMA.mem_of_mem_shrunk {addr stop : ℕ} (hhit : v.Hit addr stop)
    (h : (v.shrunk (unmapStart v addr) (unmapEnd v stop)).Mem va) :
    v.Mem va := by
  obtain ⟨hvalid, hlo, hhi⟩ := hhit
  unfold VMA.shrunk at h
  split at h
  · cases h.1
  · split at h
    · obtain ⟨-, hstart, hend⟩ := h
      refine ⟨hvalid, ?_, hend⟩
      simp only [unmapEnd] at hstart hend
      split at hstart <;> omega
    · obtain ⟨-, hstart, hend⟩ := h
      refine ⟨hvalid, hstart, ?_⟩
      simp only [unmapStart] at hstart hend
      split at hend <;> omega

theorem trimmed_usertrap (h : Trimmed s₀ s)
    (hstep : (usertrapFault s va read >>= usertrapret) = .ok s')
    (hlive : s'.p.state = .running) : Trimmed s₀ s' := by
  obtain ⟨s₁, s₂, r, hfault, hkill, rfl | hexit⟩ := usertrap_spec hstep
  · rcases hkill with rfl | rfl
    · exact h.of_same hfault.sameProc.vma hfault.sameProc.sz
    · exact h.of_same hfault.sameProc.vma hfault.sameProc.sz
  · rw [kexit_zombie hexit] at hlive
    cases hlive

theorem trimmed_step (op : Op) (h : Trimmed s₀ s) (hok : Trims i s op)
    (hstep : step s op = .ok s') (hlive : s'.p.state = .running) :
    Trimmed s₀ s' := by
  obtain ⟨-, hop⟩ := hok
  cases op with
  | munmap addr len =>
    obtain ⟨⟨s₁, done⟩, hunmap, hstep⟩ := map_ok_iff.mp hstep
    cases hstep
    refine ⟨sysMunmap_framed h.framed hunmap,
      (sysMunmap_sz h.framed hunmap).trans h.sz, ?_⟩
    · intro j va hm
      rcases sysMunmap_slot h.framed hunmap j with hj | ⟨-, hhit, hj⟩
      · exact h.mem j va (hj ▸ hm)
      · rw [hj] at hm
        exact h.mem j va (VMA.mem_of_mem_shrunk hhit hm)
  | vmfault va read =>
    obtain ⟨⟨s₁, r⟩, hfault, hstep⟩ := map_ok_iff.mp hstep
    cases hstep
    have hsame := (vmfault_spec hfault).sameProc
    exact h.of_same hsame.vma hsame.sz
  | load va =>
    dsimp only [step, userLoad] at hstep
    split at hstep
    · cases hstep
      exact h
    · exact trimmed_usertrap h hstep hlive
  | store va b =>
    dsimp only [step, userStore] at hstep
    split at hstep
    · cases hstep
      exact h.of_same rfl rfl
    · exact trimmed_usertrap h hstep hlive
  | others freelist inode =>
    cases hstep
    exact h.of_same rfl rfl
  | mmap => cases hop
  | sbrk => cases hop
  | growproc => cases hop
  | exit => cases hop

/-- **A mapping shows the file.** After any unmapping and any accesses, an
address that is still inside has the file offset it had at creation, and a
page faulted in for it holds the bytes of the file at that time and zeroes
behind its end, under the permissions asked for. -/
theorem mapping_shows_file {s₁ : State} {ops : List Op} {i : Fin NVMA}
    {start : ℕ} {len prot flags fd offset : Int32}
    (hlayout : Layout s.p.mmapBase s.p.vma) (hoff : 0 ≤ offset.toInt)
    (hsum : offset.toInt + len.toInt < 2 ^ 31)
    (hmmap : sysMmap s 0 len prot flags fd offset = .ok (s₁, some start))
    (hfree : (s.p.vma i).valid = false) (hmade : (s₁.p.vma i).valid = true)
    (hrun : Run step (Trims i) s₁ ops s') (hlive : s'.p.state = .running)
    {va : ℕ} (hva : (s'.p.vma i).Mem va) :
    (s'.p.vma i).fileOffset va = offset.toInt + va - start ∧
    ∀ read s'' r, s'.kmem.freelist.Nodup →
      vmfault s' va read = .ok (s'', r) → r ≠ 0 → r ≠ negOne →
      ∃ k, fdFile s fd = .ok k ∧
        ShowsPage s' k prot va (offset.toInt + pgrounddown va - start)
          s'' r := by
  obtain ⟨j, k, hfd, hstart, hdone⟩ := sysMmap_some hmmap
  obtain rfl := hdone.slot_unique hfree hmade
  have htrim : Trimmed s₁ s' := by
    have hinv : s'.p.state = .running → Trimmed s₁ s' := hrun.invariant
      (I := fun s => s.p.state = .running → Trimmed s₁ s)
      (fun _ op _ h hok hstep => trimmed_step op (h hok.1.1) hok hstep)
      (fun _ => ⟨sysMmap_framed hlayout.toMaps.framed hmmap, rfl,
        fun _ _ h => h⟩)
    exact hinv hlive
  obtain ⟨hoffset, hshows⟩ := shows_file_of_run hlayout.toMaps hoff hsum hmmap
    hfree hmade (hrun.mono fun _ _ h => h.1) hlive hva
  refine ⟨hoffset, ?_⟩
  intro read s'' r hnodup hfault hzero hneg
  -- the new mapping has an address, so it lies below the other ones
  have hmem := (hdone.mem_self hlayout.toMaps va).mp (htrim.mem i va hva)
  obtain ⟨hbase, -, -⟩ := mmap_range hlayout.base_mod hlayout.base_le
    hdone.lt_trapframe
  have happart : Apart fun j => (s₁.p.vma j).region := by
    refine (hlayout.mmap ?_ hdone).apart
    intro j vb hvb
    have := hlayout.above j vb hvb
    omega
  refine hshows read s'' r ?_ ?_ hnodup hfault hzero hneg
  · rw [htrim.sz, hdone.p]
    exact Nat.le_trans hdone.sz_le hmem.1
  · intro j hj
    exact happart.eq_of_mem (htrim.mem j va hj) (htrim.mem i va hva)

/-- Two pages of a file of one page are mapped, the first is unmapped, and the
second is touched. -/
theorem mapping_shows_file_second_page : ∃ s₁ s' s'' r,
    sysMmap (bootState [200, 201, 202] rwFile pageInode) 0 8192 1 2 0 0 =
      .ok (s₁, some 0x3fffffc000) ∧
    Run step (Trims 0) s₁ [.munmap 0x3fffffc000 4096] s' ∧
    (s'.p.vma 0).fileOffset 0x3fffffd000 = 4096 ∧
    vmfault s' 0x3fffffd000 true = .ok (s'', r) ∧
    ShowsPage s' 0 1 0x3fffffd000 4096 s'' r := by
  obtain ⟨⟨s₁, start⟩, hmmap, htest⟩ := exists_ok_of_any
    (show ((sysMmap (bootState [200, 201, 202] rwFile pageInode) 0 8192 1 2 0
      0).toOption.any fun x => decide (x.2 = some 0x3fffffc000) &&
        (x.1.p.vma 0).valid && decide (x.1.p.state = .running) &&
        (step x.1 (.munmap 0x3fffffc000 4096)).toOption.any fun s =>
          decide (s.p.state = .running) &&
          decide ((s.p.vma 0).Mem 0x3fffffd000) &&
          decide s.kmem.freelist.Nodup &&
          (vmfault s 0x3fffffd000 true).toOption.any fun y =>
            decide (y.2 ≠ 0 ∧ y.2 ≠ negOne)) = true by decide +kernel)
  simp only [Bool.and_eq_true, decide_eq_true_eq] at htest
  obtain ⟨⟨⟨rfl, hmade⟩, hlive₁⟩, hany⟩ := htest
  obtain ⟨s', hstep, htest⟩ := exists_ok_of_any hany
  simp only [Bool.and_eq_true, decide_eq_true_eq] at htest
  obtain ⟨⟨⟨hlive, hva⟩, hnodup⟩, hany⟩ := htest
  obtain ⟨⟨s'', r⟩, hfault, hr⟩ := exists_ok_of_any hany
  rw [decide_eq_true_eq] at hr
  have hrun : Run step (Trims 0) s₁ [.munmap 0x3fffffc000 4096] s' :=
    .cons ⟨⟨hlive₁, hmade⟩, trivial⟩ hstep (.nil s')
  obtain ⟨hoff, hshows⟩ := mapping_shows_file
    (layout_of_invalid TRAPFRAME_mod (Nat.le_refl _) fun _ => rfl)
    (by decide) (by decide) hmmap rfl hmade hrun hlive hva
  obtain ⟨k, hfd, hpage⟩ := hshows true s'' r hnodup hfault hr.1 hr.2
  cases hfd
  rw [show (0 : Int32).toInt + pgrounddown 0x3fffffd000 - (0x3fffffc000 : ℕ) =
    4096 by decide +kernel] at hpage
  exact ⟨s₁, s', s'', r, hmmap, hrun, hoff.trans (by decide +kernel), hfault,
    hpage⟩

end Xv6.Vm
