import Xv6.Exec.Image

/-!
# Loading a program (`kernel/exec.c`: the loop over the headers)

Whatever the file holds, the loop builds an image and touches nothing else.
If it gets through and the segments do not share pages, each segment is what
its header says, where the header is the one at the offset that the `int` off
holds.
-/

namespace Xv6.Exec

open Framework Vm

variable {pool rest : Multiset Frame} {km km' : Kmem} {pt pt' : PageTable}

/-! ## The loop over the headers -/

theorem toUint32_toInt32 (x : ℤ) : toUint32 (toInt32 x) = toUint32 x := by
  unfold toUint32 toInt32
  split <;> omega

theorem toUint32_lt (x : ℤ) : toUint32 x < 2 ^ 32 := by
  unfold toUint32
  omega

theorem decode_vaddr_lt (b : ℕ → UInt8) :
    (Proghdr.decode b).vaddr < 2 ^ 64 := leNat_lt b 8 16

theorem decode_memsz_lt (b : ℕ → UInt8) :
    (Proghdr.decode b).memsz < 2 ^ 64 := leNat_lt b 8 40

/-- What loading leaves behind, however far it gets. -/
structure LoadStep (pool rest : Multiset Frame) (km : Kmem) (km' : Kmem)
    (pt' : PageTable) (sz' : ℕ) : Prop where
  image : Image pool rest km' pt' sz'
  user : UserPages pt' 0 (pgroundup sz')
  same : ∀ f ∈ rest, km.SameIn km' f

/-- **The loop over the headers never panics**, whatever the file holds. -/
theorem loadHeaders_ok (ip : Inode) (n : ℕ) : ∀ (off : ℤ) {km : Kmem}
    {pt : PageTable} {sz : ℕ}, Image pool rest km pt sz →
    UserPages pt 0 (pgroundup sz) → ∃ km' pt' sz' done,
      loadHeaders ip n off km pt sz = .ok (km', pt', sz', done) ∧
      LoadStep pool rest km km' pt' sz' := by
  induction n with
  | zero =>
    intro off km pt sz h hu
    exact ⟨km, pt, sz, true, rfl, h, hu, fun _ _ _ _ => rfl⟩
  | succ n ih =>
    intro off km pt sz h hu
    rw [loadHeaders]
    cases readVar ip (toUint32 off) proghdrSize with
    | none => exact ⟨km, pt, sz, false, rfl, h, hu, fun _ _ _ _ => rfl⟩
    | some b =>
      obtain ⟨km₁, pt₁, sz₁, done, hcall, hstep⟩ :=
        h.loadHeader hu ip (decode_vaddr_lt b) (decode_memsz_lt b)
      dsimp only
      rw [hcall]
      dsimp only [bind, Except.bind]
      cases done with
      | false => exact ⟨km₁, pt₁, sz₁, false, rfl, hstep.image,
          hstep.user, hstep.same⟩
      | true =>
        obtain ⟨km', pt', sz', done, hloop, hrest⟩ :=
          ih (toInt32 (off + proghdrSize)) hstep.image hstep.user
        exact ⟨km', pt', sz', done, hloop, hrest.image, hrest.user,
          fun f hf => (hstep.same f hf).trans (hrest.same f hf)⟩

/-! ## What the file describes -/

/-- The program header at an offset of the file, if the file has it. -/
def headerAt (ip : Inode) (off : ℕ) : Option Proghdr :=
  if off + proghdrSize ≤ ip.size then
    some (Proghdr.decode fun k => ip.byte (off + k))
  else none

/-- The byte at an offset of the file, if the file has it. -/
def byteAt (ip : Inode) (off : ℕ) : Option UInt8 :=
  if off < ip.size then some (ip.byte off) else none

/-- The loadable segments of `n` headers from `off` on are in increasing order
and share no page. -/
def Ordered (ip : Inode) (off n : ℕ) : Prop :=
  ∀ i j p q, i < j → j < n → headerAt ip (off + i * proghdrSize) = some p →
    headerAt ip (off + j * proghdrSize) = some q →
    p.type = ELF_PROG_LOAD → q.type = ELF_PROG_LOAD →
    pgroundup (p.vaddr + p.memsz) ≤ q.vaddr

variable {ip : Inode}

theorem Ordered.tail {off n : ℕ} (h : Ordered ip off (n + 1)) :
    Ordered ip (off + proghdrSize) n := by
  intro i j p q hij hj hp hq
  refine h (i + 1) (j + 1) p q (by omega) (by omega) ?_ ?_
  · rwa [Nat.succ_mul, Nat.add_comm _ proghdrSize, ← Nat.add_assoc]
  · rwa [Nat.succ_mul, Nat.add_comm _ proghdrSize, ← Nat.add_assoc]

/-- The segment of a header is in the image; `off` is where its bytes were
taken from the file. -/
structure SegLoaded (ip : Inode) (ph : Proghdr) (off : ℕ) (km : Kmem)
    (pt : PageTable) : Prop where
  perm : ∀ k < ph.memsz, ∃ f,
    pt.leaf (ph.vaddr + k) = some ⟨f, segPerm ph.flags⟩
  file : ∀ k < ph.filesz,
    imageByte km pt (ph.vaddr + k) = byteAt ip (off + k)
  zero : ∀ k, ph.filesz ≤ k → k < ph.memsz →
    imageByte km pt (ph.vaddr + k) = some 0

variable {ph : Proghdr}

/-- What follows does not touch it. -/
theorem SegLoaded.later {off hi : ℕ} (h : SegLoaded ip ph off km pt)
    (hfits : ph.filesz ≤ ph.memsz) (hend : ph.vaddr + ph.memsz ≤ hi)
    (hkept : ∀ va < hi, pt'.leaf va = pt.leaf va ∧
      imageByte km' pt' va = imageByte km pt va) :
    SegLoaded ip ph off km' pt' where
  perm := fun k hk => by
    rw [(hkept _ (by omega)).1]
    exact h.perm k hk
  file := fun k hk => by
    rw [(hkept _ (by omega)).2]
    exact h.file k hk
  zero := fun k hlo hk => by
    rw [(hkept _ (by omega)).2]
    exact h.zero k hlo hk

/-- A segment above everything loaded so far. -/
theorem HeaderDone.segLoaded {sz sz' : ℕ}
    (h : HeaderDone ip ph km pt sz km' pt' sz') (hsz : sz' ≤ RAM)
    (hhigh : pgroundup sz ≤ ph.vaddr) :
    SegLoaded ip ph (ph.off % 2 ^ 32) km' pt' := by
  have hram : RAM = 2 ^ 27 := by decide
  have hup := le_pgroundup (show sz' < 2 ^ 63 by omega)
  have hfits := h.fits
  have hsize := h.size
  refine ⟨?_, ?_, ?_⟩
  · intro k hk
    exact h.fresh (ph.vaddr + k) (by omega) (by omega)
  · intro k hk
    have hfile := h.inFile (by omega)
    rw [h.bytes _ (by omega), if_pos ⟨by omega, by omega⟩,
      Nat.add_sub_cancel_left, byteAt, if_pos (by omega)]
  · intro k hlo hk
    rw [h.bytes _ (by omega), if_neg (by omega), if_neg (by omega)]

theorem HeaderDone.kept {sz sz' : ℕ} (h : HeaderDone ip ph km pt sz km' pt' sz')
    (hup : pgroundup sz ≤ pgroundup sz') (hhigh : pgroundup sz ≤ ph.vaddr) :
    ∀ va < pgroundup sz,
    pt'.leaf va = pt.leaf va ∧
      imageByte km' pt' va = imageByte km pt va := by
  intro va hva
  refine ⟨h.low va hva, ?_⟩
  rw [h.bytes va (by omega), if_neg (by omega), if_pos hva]

/-- The headers that the loop read, and what became of their segments. -/
structure HeadersDone (ip : Inode) (off n : ℕ) (km : Kmem) (pt : PageTable)
    (sz : ℕ) (km' : Kmem) (pt' : PageTable) (sz' : ℕ) : Prop where
  header : ∀ i < n, ∃ ph, headerAt ip (off + i * proghdrSize) = some ph ∧
    (ph.type = ELF_PROG_LOAD → ph.filesz ≤ ph.memsz ∧
      ph.vaddr + ph.memsz ≤ sz' ∧
      (0 < ph.filesz → ph.off % 2 ^ 32 + ph.filesz ≤ ip.size))
  seg : Ordered ip off n →
    (∀ i < n, ∀ ph, headerAt ip (off + i * proghdrSize) = some ph →
      ph.type = ELF_PROG_LOAD → pgroundup sz ≤ ph.vaddr) →
    (∀ i < n, ∀ ph, headerAt ip (off + i * proghdrSize) = some ph →
      ph.type = ELF_PROG_LOAD →
      SegLoaded ip ph (ph.off % 2 ^ 32) km' pt') ∧
    ∀ va < pgroundup sz, pt'.leaf va = pt.leaf va ∧
      imageByte km' pt' va = imageByte km pt va
  size : sz ≤ sz'

section Cons

variable {ip : Inode} {ph : Proghdr} {o n sz sz₁ sz' : ℕ} {km₁ : Kmem}
  {pt₁ : PageTable}

theorem offset_succ (o i : ℕ) : o + (i + 1) * proghdrSize =
    o + proghdrSize + i * proghdrSize := by
  rw [Nat.succ_mul]
  omega

theorem HeaderStep.size_le
    (h : HeaderStep pool rest ip ph km pt sz km₁ pt₁ sz₁ true) :
    sz ≤ sz₁ := by
  by_cases hload : ph.type = ELF_PROG_LOAD
  · have := (h.loaded rfl hload).size
    omega
  · cases h.skipped rfl hload
    exact Nat.le_refl _

/-- A round leaves alone what lies below its segment. -/
theorem HeaderStep.kept
    (h : HeaderStep pool rest ip ph km pt sz km₁ pt₁ sz₁ true)
    (hhigh : ph.type = ELF_PROG_LOAD → pgroundup sz ≤ ph.vaddr) :
    ∀ va < pgroundup sz, pt₁.leaf va = pt.leaf va ∧
      imageByte km₁ pt₁ va = imageByte km pt va := by
  by_cases hload : ph.type = ELF_PROG_LOAD
  · exact (h.loaded rfl hload).kept
      (pgroundup_mono h.image.sz_le_TRAPFRAME h.size_le) (hhigh hload)
  · cases h.skipped rfl hload
    exact fun _ _ => ⟨rfl, rfl⟩

/-- The segments that follow in order lie above the one of this round. -/
theorem HeaderStep.above
    (h : HeaderStep pool rest ip ph km pt sz km₁ pt₁ sz₁ true)
    (hhead : headerAt ip o = some ph) (hord : Ordered ip o (n + 1))
    (hhigh : ∀ i < n + 1, ∀ q, headerAt ip (o + i * proghdrSize) = some q →
      q.type = ELF_PROG_LOAD → pgroundup sz ≤ q.vaddr) :
    ∀ i < n, ∀ q, headerAt ip (o + proghdrSize + i * proghdrSize) = some q →
      q.type = ELF_PROG_LOAD → pgroundup sz₁ ≤ q.vaddr := by
  intro i hi q hq hload
  rw [← offset_succ] at hq
  have hzero : headerAt ip (o + 0 * proghdrSize) = some ph := by
    rw [Nat.zero_mul, Nat.add_zero, hhead]
  by_cases hfl : ph.type = ELF_PROG_LOAD
  · have hlast := hord 0 (i + 1) ph q (by omega) (by omega) hzero hq hfl hload
    have hfirst := hhigh 0 (by omega) ph hzero hfl
    have hsz := h.image.sz_le
    have hram : RAM = 2 ^ 27 := by decide
    have hle := h.size_le
    have hup := le_pgroundup (show sz < 2 ^ 63 by omega)
    rw [(h.loaded rfl hfl).size, Nat.max_eq_right (by omega)]
    exact hlast
  · cases h.skipped rfl hfl
    exact hhigh (i + 1) (by omega) q hq hload

/-- One round and the rounds after it. -/
theorem HeadersDone.cons
    (hstep : HeaderStep pool rest ip ph km pt sz km₁ pt₁ sz₁ true)
    (hhead : headerAt ip o = some ph)
    (hrest : HeadersDone ip (o + proghdrSize) n km₁ pt₁ sz₁ km' pt' sz') :
    HeadersDone ip o (n + 1) km pt sz km' pt' sz' where
  header := by
    intro i hi
    cases i with
    | zero =>
      rw [Nat.zero_mul, Nat.add_zero]
      refine ⟨ph, hhead, fun hload => ?_⟩
      have hdone := hstep.loaded rfl hload
      refine ⟨hdone.fits, Nat.le_trans ?_ hrest.size, hdone.inFile⟩
      rw [hdone.size]
      exact Nat.le_max_right ..
    | succ i =>
      rw [offset_succ]
      exact hrest.header i (by omega)
  seg := by
    intro hord hhigh
    have hfirst : ph.type = ELF_PROG_LOAD → pgroundup sz ≤ ph.vaddr := by
      refine hhigh 0 (by omega) ph ?_
      rw [Nat.zero_mul, Nat.add_zero, hhead]
    have hle := pgroundup_mono hstep.image.sz_le_TRAPFRAME hstep.size_le
    obtain ⟨hsegs, hkept⟩ :=
      hrest.seg hord.tail (hstep.above hhead hord hhigh)
    constructor
    · intro i hi q hq hload
      cases i with
      | zero =>
        rw [Nat.zero_mul, Nat.add_zero, hhead] at hq
        cases hq
        have hdone := hstep.loaded rfl hload
        have hsz := hstep.image.sz_le
        have hram : RAM = 2 ^ 27 := by decide
        have hup := le_pgroundup (show sz₁ < 2 ^ 63 by omega)
        refine (hdone.segLoaded hsz (hfirst hload)).later hdone.fits ?_
          hkept
        have := hdone.size
        omega
      | succ i =>
        rw [offset_succ] at hq
        exact hsegs i (by omega) q hq hload
    · intro va hva
      obtain ⟨hleaf, hbyte⟩ := hkept va (by omega)
      obtain ⟨hleaf₁, hbyte₁⟩ := hstep.kept hfirst va hva
      exact ⟨hleaf.trans hleaf₁, hbyte.trans hbyte₁⟩
  size := Nat.le_trans hstep.size_le hrest.size

end Cons

/-- **When the loop gets to its end**, every header is in the file, and
segments in order are loaded as they say. -/
theorem loadHeaders_done (ip : Inode) (n : ℕ) : ∀ {off : ℤ} {km km' : Kmem}
    {pt pt' : PageTable} {sz sz' : ℕ}, Image pool rest km pt sz →
    UserPages pt 0 (pgroundup sz) →
    loadHeaders ip n off km pt sz = .ok (km', pt', sz', true) →
    HeadersDone ip (toUint32 off) n km pt sz km' pt' sz' := by
  induction n with
  | zero =>
    intro off km km' pt pt' sz sz' _ _ h
    cases h
    refine ⟨fun i hi => by omega, ?_, Nat.le_refl _⟩
    intro _ _
    exact ⟨fun i hi => by omega, fun _ _ => ⟨rfl, rfl⟩⟩
  | succ n ih =>
    intro off km km' pt pt' sz sz' himage hu h
    have hsize := ip.size_lt
    rw [loadHeaders] at h
    rcases readVar_eq ip (toUint32_lt off)
      (show proghdrSize < 2 ^ 31 by decide) (by decide) with
      ⟨b, hread, hin, hb⟩ | ⟨hread, -⟩
    · rw [hread] at h
      obtain ⟨⟨km₁, pt₁, sz₁, done⟩, hcall, h⟩ := bind_ok_iff.mp h
      obtain ⟨_, _, _, _, hcall', hstep⟩ :=
        himage.loadHeader hu ip (decode_vaddr_lt b) (decode_memsz_lt b)
      cases hcall.symm.trans hcall'
      cases done with
      | false => cases h
      | true =>
        have hnext : toUint32 (toInt32 (off + proghdrSize)) =
            toUint32 off + proghdrSize := by
          rw [toUint32_toInt32]
          unfold toUint32 proghdrSize at *
          omega
        -- the header that was read is the one in the file
        have hhead : headerAt ip (toUint32 off) =
            some (Proghdr.decode b) := by
          rw [headerAt, if_pos hin]
          exact congrArg some (Proghdr.decode_congr fun j hj =>
            (hb j hj).symm)
        have hrest := ih hstep.image hstep.user h
        rw [hnext] at hrest
        exact hrest.cons hstep hhead
    · rw [hread] at h
      cases h

/-! ## `kexec` up to the stack -/

variable {trapframe : Frame}

/-- Making a page table writes only to frames that were free before or are
free after. -/
theorem procPagetable_sameIn {g : Frame} {made : Option PageTable}
    (h : procPagetable km trapframe = .ok (km', made)) (hg : g ∉ km.freelist)
    (hg' : g ∉ km'.freelist) : km.SameIn km' g := by
  unfold procPagetable at h
  cases hcreate : uvmcreate km with
  | none =>
    rw [hcreate] at h
    cases h
    exact fun _ _ => rfl
  | some r =>
    obtain ⟨pt₀, km₀⟩ := r
    have hspares₀ : Spares km km₀ := by
      unfold uvmcreate at hcreate
      cases halloc : kalloc km with
      | none =>
        rw [halloc] at hcreate
        cases hcreate
      | some fk =>
        rw [halloc] at hcreate
        cases hcreate
        exact kalloc_zero_spares halloc
    rw [hcreate] at h
    obtain ⟨⟨km₁, pt₁, done₁⟩, hmap₁, h⟩ := bind_ok_iff.mp h
    have hspares₁ := hspares₀.trans (mappages_spares hmap₁)
    cases done₁ with
    | false =>
      obtain ⟨km₂, hfree, h⟩ := bind_ok_iff.mp h
      cases h
      exact (hspares₁.same g hg).trans ((uvmfree_frees hfree).same g hg')
    | true =>
      obtain ⟨⟨km₂, pt₂, done₂⟩, hmap₂, h⟩ := bind_ok_iff.mp h
      have hspares₂ := hspares₁.trans (mappages_spares hmap₂)
      cases done₂ with
      | true =>
        cases h
        exact hspares₂.same g hg
      | false =>
        obtain ⟨⟨km₃, pt₃⟩, hun, h⟩ := bind_ok_iff.mp h
        obtain ⟨km₄, hfree, h⟩ := bind_ok_iff.mp h
        cases h
        exact (hspares₂.same g hg).trans
          (((uvmunmap_frees hun).trans (uvmfree_frees hfree)).same g hg')

/-- The trapframe is mapped. -/
theorem procPagetable_trap (h : procPagetable km trapframe = .ok (km', some pt)) :
    pt.leaf TRAPFRAME ≠ none := by
  unfold procPagetable at h
  split at h
  · cases h
  · obtain ⟨⟨km₁, pt₁, done₁⟩, -, h⟩ := bind_ok_iff.mp h
    cases done₁ with
    | false =>
      obtain ⟨_, -, h⟩ := bind_ok_iff.mp h
      cases h
    | true =>
      obtain ⟨⟨km₂, pt₂, done₂⟩, hmap, h⟩ := bind_ok_iff.mp h
      cases done₂ with
      | false =>
        obtain ⟨_, -, h⟩ := bind_ok_iff.mp h
        obtain ⟨_, -, h⟩ := bind_ok_iff.mp h
        cases h
      | true =>
        cases h
        rcases mappages_spec hmap with ⟨-, hm⟩ | ⟨hfalse, -⟩
        · rw [hm.self TRAPFRAME (pgrounddown_of_mod TRAPFRAME_mod)]
          exact Option.some_ne_none _
        · cases hfalse

/-- A page table that was just made is an image of size 0. -/
theorem procPagetable_image (h : Ledger pool km rest) (trapframe : Frame) :
    ∃ km' made, procPagetable km trapframe = .ok (km', made) ∧
      (∀ f ∈ rest, km.SameIn km' f) ∧
      (made = none → Ledger pool km' rest) ∧
      ∀ pt, made = some pt → Image pool rest km' pt 0 := by
  obtain ⟨km', made, halways, hled, hnone⟩ :=
    procPagetableWith_ledger trapframe h
  have hcall := halways kfree standsIn_kfree
  simp only [procPagetableWith_kfree] at hcall
  refine ⟨km', made, hcall, ?_, ?_, ?_⟩
  · intro f hf
    refine procPagetable_sameIn hcall (h.not_free hf) (hled.not_free ?_)
    exact Multiset.mem_add.mpr (Or.inr hf)
  · rintro rfl
    rwa [ownedOf_none, zero_add] at hled
  · rintro pt rfl
    rw [ownedOf_some] at hled
    refine ⟨hled, fun va hva _ => hnone pt rfl va hva, ?_,
      procPagetable_trap hcall, Nat.zero_le _⟩
    intro va hva
    exact absurd hva (Nat.not_lt.mpr (Nat.zero_le va))

/-- What `kexec` has built when it leaves the inode. -/
structure LoadOk (pool rest : Multiset Frame) (km : Kmem) (r : Loaded) :
    Prop where
  same : ∀ f ∈ rest, km.SameIn r.km f
  nothing : r.pagetable = none → Ledger pool r.km rest ∧ r.elf = none
  image : ∀ pt, r.pagetable = some pt → Image pool rest r.km pt r.sz
  user : ∀ pt, r.pagetable = some pt → UserPages pt 0 (pgroundup r.sz)

/-- **Loading never panics**, whatever the file holds. -/
theorem kexecLoad_ok (h : Ledger pool km rest) (trapframe : Frame)
    (ip : Inode) : ∃ r, kexecLoad km trapframe ip = .ok r ∧
      LoadOk pool rest km r := by
  have hbad : LoadOk pool rest km ⟨km, none, 0, none⟩ :=
    ⟨fun _ _ _ _ => rfl, fun _ => ⟨h, rfl⟩, by rintro _ ⟨⟩, by rintro _ ⟨⟩⟩
  unfold kexecLoad
  cases readVar ip 0 elfhdrSize with
  | none => exact ⟨_, rfl, hbad⟩
  | some b =>
    dsimp only
    split
    · exact ⟨_, rfl, hbad⟩
    obtain ⟨km₁, made, hmake, hsame, hnone, himage⟩ :=
      procPagetable_image h trapframe
    rw [lift_eq_ok.mpr hmake]
    dsimp only [bind, Except.bind]
    cases made with
    | none => exact ⟨_, rfl, hsame, fun _ => ⟨hnone rfl, rfl⟩,
        by rintro _ ⟨⟩, by rintro _ ⟨⟩⟩
    | some pt =>
      have hempty : UserPages pt 0 (pgroundup 0) := fun va _ hva =>
        absurd hva (Nat.not_lt.mpr (Nat.zero_le va))
      obtain ⟨km₂, pt₂, sz, done, hload, hstep⟩ := loadHeaders_ok ip
        (Elfhdr.decode b).phnum (toInt32 (Elfhdr.decode b).phoff)
        (himage pt rfl) hempty
      dsimp only
      rw [hload]
      refine ⟨_, rfl, ?_, by rintro ⟨⟩, ?_, ?_⟩
      · exact fun f hf => (hsame f hf).trans (hstep.same f hf)
      · rintro _ ⟨⟩
        exact hstep.image
      · rintro _ ⟨⟩
        exact hstep.user

/-- The header of the file. -/
def elfOf (ip : Inode) : Elfhdr := Elfhdr.decode ip.byte

theorem Elfhdr.decode_congr {b b' : ℕ → UInt8}
    (h : ∀ j < elfhdrSize, b j = b' j) :
    Elfhdr.decode b = Elfhdr.decode b' := by
  have hpart : ∀ i k, i + k ≤ 64 → leNat b i k = leNat b' i k :=
    fun i k hik => leNat_congr fun j _ hj =>
      h j (Nat.lt_of_lt_of_le hj hik)
  unfold Elfhdr.decode
  rw [hpart 0 4, hpart 24 8, hpart 32 8, hpart 56 2] <;> decide

/-- **When loading succeeds**, the headers were taken from the offset that an
`int` makes of `phoff`. -/
theorem kexecLoad_done (h : Ledger pool km rest) {r : Loaded} {elf : Elfhdr}
    (hcall : kexecLoad km trapframe ip = .ok r) (helf : r.elf = some elf) :
    elf = elfOf ip ∧ elf.magic = ELF_MAGIC ∧ elfhdrSize ≤ ip.size ∧
    ∃ pt km₀ pt₀, r.pagetable = some pt ∧
      HeadersDone ip (toUint32 elf.phoff) elf.phnum km₀ pt₀ 0 r.km pt r.sz := by
  unfold kexecLoad at hcall
  rcases readVar_eq ip (show 0 < 2 ^ 32 by decide)
    (show elfhdrSize < 2 ^ 31 by decide) (by decide) with
    ⟨b, hread, hin, hb⟩ | ⟨hread, -⟩
  · rw [hread] at hcall
    dsimp only at hcall
    have hdecode : Elfhdr.decode b = elfOf ip :=
      Elfhdr.decode_congr fun j hj => (hb j hj).trans (by rw [Nat.zero_add])
    rw [hdecode] at hcall
    split at hcall
    · cases hcall
      cases helf
    rename_i hmagic
    obtain ⟨km₁, made, hmake, -, -, himage⟩ :=
      procPagetable_image h trapframe
    obtain ⟨_, hmake', hcall⟩ := bind_ok_iff.mp hcall
    cases (lift_eq_ok.mpr hmake).symm.trans hmake'
    cases made with
    | none =>
      cases hcall
      cases helf
    | some pt =>
      obtain ⟨⟨km₂, pt₂, sz, done⟩, hload, hret⟩ := bind_ok_iff.mp hcall
      cases done with
      | false =>
        cases hret
        cases helf
      | true =>
        cases hret
        cases helf
        have hdone := loadHeaders_done ip _ (himage pt rfl)
          (fun va _ hva => absurd hva (Nat.not_lt.mpr (Nat.zero_le va)))
          hload
        rw [toUint32_toInt32] at hdone
        exact ⟨rfl, not_not.mp hmagic, by omega, pt₂, km₁, pt, rfl, hdone⟩
  · rw [hread] at hcall
    cases hcall
    cases helf

end Xv6.Exec
