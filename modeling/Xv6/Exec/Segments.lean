import Xv6.Exec.Outcome
import Xv6.Vm.Sbrk

/-!
# Does `exec` load the program that the file describes?

The header fields are 64-bit numbers, but the offset of the headers goes
through an `int` and the offset of a segment through a `uint`. Where they lose
nothing, a file with its segments in order is loaded as it says. Where they
do, `exec` takes other bytes of the file for the header or the segment, and
succeeds.
-/

namespace Xv6.Exec

open Framework Vm

variable {pool rest : Multiset Frame} {c c' : Caller}

/-! ## The property -/

/-- The segment of a header is in the user's memory. -/
structure SegmentIn (ip : Inode) (ph : Proghdr) (s : State) : Prop where
  perm : ∀ k < ph.memsz, ∃ l, s.p.pagetable.leaf (ph.vaddr + k) = some l ∧
    l.perm.u = true ∧ l.perm.w = ph.flags.testBit 1 ∧
    l.perm.x = ph.flags.testBit 0
  file : ∀ k < ph.filesz, imageByte s.kmem s.p.pagetable (ph.vaddr + k) =
    byteAt ip (ph.off + k) ∧ byteAt ip (ph.off + k) ≠ none
  zero : ∀ k, ph.filesz ≤ k → k < ph.memsz →
    imageByte s.kmem s.p.pagetable (ph.vaddr + k) = some 0

/-- **The process runs the program that the file describes.** -/
structure LoadsProgram (ip : Inode) (s : State) : Prop where
  segment : ∀ i < (elfOf ip).phnum, ∃ ph,
    headerAt ip ((elfOf ip).phoff + i * proghdrSize) = some ph ∧
    (ph.type = ELF_PROG_LOAD → SegmentIn ip ph s)
  guard : ∀ va, s.p.sz - 2 * PGSIZE ≤ va → va < s.p.sz - PGSIZE →
    ∃ l, s.p.pagetable.leaf va = some l ∧ l.perm.u = false
  mapped : ∀ va < s.p.sz, s.p.pagetable.leaf va ≠ none

/-- No offset that `exec` follows needs more than 32 bits. -/
structure NarrowOffsets (ip : Inode) : Prop where
  phoff : 0 < (elfOf ip).phnum → (elfOf ip).phoff < 2 ^ 32
  off : ∀ i < (elfOf ip).phnum, ∀ ph,
    headerAt ip ((elfOf ip).phoff + i * proghdrSize) = some ph →
    ph.type = ELF_PROG_LOAD → 0 < ph.filesz → ph.off < 2 ^ 32

/-! ## Both directions -/

theorem toUint32_natCast {x : ℕ} (h : x < 2 ^ 32) : toUint32 (x : ℤ) = x := by
  unfold toUint32
  omega

/-- A segment that was loaded is in the memory of the process, if its offset
lost nothing. -/
theorem SegLoaded.segmentIn {ip : Inode} {ph : Proghdr} {km : Kmem}
    {pt : PageTable} {s : State} {n : ℕ}
    (h : SegLoaded ip ph (ph.off % 2 ^ 32) km pt)
    (hoff : 0 < ph.filesz → ph.off < 2 ^ 32)
    (hfile : 0 < ph.filesz → ph.off % 2 ^ 32 + ph.filesz ≤ ip.size)
    (hfits : ph.filesz ≤ ph.memsz) (hend : ph.vaddr + ph.memsz ≤ n)
    (hleaf : ∀ va < n, s.p.pagetable.leaf va = pt.leaf va)
    (hbyte : ∀ va < n,
      imageByte s.kmem s.p.pagetable va = imageByte km pt va) :
    SegmentIn ip ph s where
  perm := by
    intro k hk
    obtain ⟨f, hf⟩ := h.perm k hk
    exact ⟨_, (hleaf _ (by omega)).trans hf, rfl, rfl, rfl⟩
  file := by
    intro k hk
    have hpos : 0 < ph.filesz := by omega
    have hmod : ph.off % 2 ^ 32 = ph.off := Nat.mod_eq_of_lt (hoff hpos)
    have hin := hfile hpos
    rw [hbyte _ (by omega), h.file k hk, hmod, byteAt, if_pos (by omega)]
    exact ⟨rfl, by simp⟩
  zero := by
    intro k hlo hk
    rw [hbyte _ (by omega)]
    exact h.zero k hlo hk

/-- **`exec` loads the program that the file describes exactly when no offset
needs more than 32 bits**, for every file on which it succeeds and whose
segments are in order. -/
theorem loads_program_iff {argv : Argv} {path : List UInt8} {j : InodeId}
    {ip₀ : Inode} {argc : ℕ}
    (hled : Ledger pool c.st.kmem
      (c.st.p.pagetable.owned + c.st.p.trapframe ::ₘ rest))
    (hargv : argv.Ok)
    (hcall : kexec c path (some (j, ip₀)) argv = .ok (c', some argc))
    (hord : Ordered ((lookupInode c.st j ip₀).inode j)
      (elfOf ((lookupInode c.st j ip₀).inode j)).phoff
      (elfOf ((lookupInode c.st j ip₀).inode j)).phnum) :
    LoadsProgram ((lookupInode c.st j ip₀).inode j) c'.st ↔
      NarrowOffsets ((lookupInode c.st j ip₀).inode j) := by
  obtain ⟨c₁, entry, pt, sz, sp, hready, hcommit, hbytes⟩ :=
    kexec_done hled hargv hcall
  obtain ⟨_, _, r, elf, pt₀, hexe, hload, helf, hpt₀, -, hstack⟩ :=
    hready.loaded
  cases hexe
  have hloaded : r.sz ≤ RAM := by
    obtain ⟨r', hload', hok⟩ := kexecLoad_ok hled c.st.p.trapframe
      ((lookupInode c.st j ip₀).inode j)
    cases hload.symm.trans hload'
    exact (hok.image pt₀ hpt₀).sz_le
  obtain ⟨rfl, -, -, pt₁, km₀, pt₂, hpt₁, hheaders⟩ :=
    kexecLoad_done hled hload helf
  cases hpt₀.symm.trans hpt₁
  generalize (lookupInode c.st j ip₀).inode j = ip at *
  have hsize := ip.size_lt
  have hram : RAM = 2 ^ 27 := by decide
  have hsz := hready.image.sz_le
  have htop := hstack.size
  have htrap := RAM_lt_TRAPFRAME
  have hpage : PGSIZE = 4096 := rfl
  have hp : c'.st.p.pagetable = pt ∧ c'.st.p.sz = sz := by
    rw [hcommit.p]
    exact ⟨rfl, rfl⟩
  constructor
  · intro hprog
    have hphoff : 0 < (elfOf ip).phnum → (elfOf ip).phoff < 2 ^ 32 := by
      intro hpos
      obtain ⟨ph, hph, -⟩ := hprog.segment 0 hpos
      unfold headerAt at hph
      split at hph
      · omega
      · cases hph
    refine ⟨hphoff, ?_⟩
    intro i hi ph hph hload hpos
    obtain ⟨ph', hph', hseg⟩ := hprog.segment i hi
    cases hph.symm.trans hph'
    have hsome := ((hseg hload).file 0 hpos).2
    unfold byteAt at hsome
    split at hsome
    · omega
    · exact absurd rfl hsome
  · intro hnarrow
    refine ⟨?_, ?_, ?_⟩
    · intro i hi
      have hsame := toUint32_natCast (hnarrow.phoff (by omega))
      rw [hsame] at hheaders
      obtain ⟨ph, hph, hfits⟩ := hheaders.header i hi
      refine ⟨ph, hph, fun hload => ?_⟩
      have hseg := (hheaders.seg hord fun _ _ _ _ _ => Nat.zero_le _).1 i hi
        ph hph hload
      obtain ⟨hle, hend, hin⟩ := hfits hload
      have hup := le_pgroundup (show r.sz < 2 ^ 63 by omega)
      refine hseg.segmentIn (hnarrow.off i hi ph hph hload) hin hle
        (Nat.le_trans hend hup) ?_ ?_
      · intro va hva
        rw [hp.1]
        exact (hstack.low va hva).1
      · intro va hva
        rw [hp.1, hbytes va (by omega)]
        exact (hstack.low va hva).2
    · intro va hlo hhi
      rw [hp.2] at hlo hhi
      rw [hp.1]
      exact hstack.guard va (by omega) (by omega)
    · intro va hva
      rw [hp.2] at hva
      have hup := le_pgroundup (show sz < 2 ^ 63 by omega)
      obtain ⟨l, hl⟩ := hready.image.mapped va (by omega)
      rw [hp.1, hl]
      exact Option.some_ne_none l

/-! ## Two files -/

/-- An executable of 120 bytes: the ELF header, and behind it one program
header for the first four bytes of the file. `high` is the fifth byte of the
offset of the segment. -/
def tinyFile (high : UInt8) : Inode where
  type := 2
  nlink := 1
  ref := 1
  size := 120
  blocks := 1
  byte := fun k => ([
    0x7F, 0x45, 0x4C, 0x46, 0, 0, 0, 0, 0, 0, 0, 0, 0, 0, 0, 0,
    0, 0, 0, 0, 0, 0, 0, 0, 0, 0, 0, 0, 0, 0, 0, 0,
    64, 0, 0, 0, 0, 0, 0, 0, 0, 0, 0, 0, 0, 0, 0, 0,
    0, 0, 0, 0, 0, 0, 0, 0, 1, 0, 0, 0, 0, 0, 0, 0,
    1, 0, 0, 0, 7, 0, 0, 0, 0, 0, 0, 0, high, 0, 0, 0,
    0, 0, 0, 0, 0, 0, 0, 0, 0, 0, 0, 0, 0, 0, 0, 0,
    4, 0, 0, 0, 0, 0, 0, 0, 4, 0, 0, 0, 0, 0, 0, 0,
    0, 0, 0, 0, 0, 0, 0, 0] : List UInt8).getD k 0

/-- An executable with two segments that end in zeroes: the first four bytes
of the file at 0, and the next three at 4096. -/
def twoFile : Inode :=
  { tinyFile 0 with
    size := 176
    size_le := by decide
    byte := fun k => (([(56, 2), (104, 12), (128, 4), (137, 16), (152, 3),
      (160, 5)] : List (ℕ × UInt8)).lookup k).getD
        ((tinyFile 0).byte (if k < 120 then k else k - 56)) }

/-- The frames that are free when `tinyFile` is executed. -/
def tinyFree : List Frame := [200, 201, 202, 203, 204, 205, 206, 207]

def tinyCaller (high : UInt8) : Caller where
  st := bootState tinyFree rwFile (tinyFile high)
  name := []

def argFree : List Frame :=
  tinyFree ++ [208, 209, 210, 211, 212, 213, 214, 215]

def twoCaller : Caller where
  st := bootState argFree rwFile twoFile
  name := []

/-- The frames of a process that has nothing but the trap pages. -/
theorem bootState_ledger {free : List Frame} (f : File) (ip : Inode)
    (hnodup : (free ++ (bootTable.frames ++ [103])).Nodup)
    (husable : ((free ++ (bootTable.frames ++ [103])).all
      fun f => decide f.Usable) = true) :
    Ledger ((free ++ (bootTable.frames ++ [103]) : List Frame) : Multiset Frame)
      (bootState free f ip).kmem
      ((bootState free f ip).p.pagetable.owned +
        (bootState free f ip).p.trapframe ::ₘ 0) := by
  have hpages : bootTable.pages = 0 := PageTable.pages_eq_zero
    fun va hva => bootTable_leaf hva
  refine ⟨Multiset.coe_nodup.mpr hnodup, ?_, ?_⟩
  · intro f hf
    exact of_decide_eq_true (List.all_eq_true.mp husable f hf)
  · show (free : Multiset Frame) + (bootTable.owned + {103}) = _
    rw [PageTable.owned, hpages, add_zero, ← Multiset.coe_add,
      ← Multiset.coe_add, Multiset.coe_singleton]

theorem tinyFile_ordered (high : UInt8) (ref off : ℕ) :
    Ordered { tinyFile high with ref := ref } off 1 := by
  intro i j p q hij hj
  omega

theorem twoFile_headers {i : ℕ} (hi : i < 2) {ph : Proghdr}
    (h : headerAt { twoFile with ref := 2 } (64 + i * proghdrSize) = some ph) :
    i = 0 ∧ ph = ⟨1, 7, 0, 0, 4, 12⟩ ∨ i = 1 ∧ ph = ⟨1, 7, 4, 4096, 3, 5⟩ := by
  interval_cases i
  · cases (show headerAt _ _ = some ⟨1, 7, 0, 0, 4, 12⟩ from rfl).symm.trans h
    exact Or.inl ⟨rfl, rfl⟩
  · cases (show headerAt _ _ = some ⟨1, 7, 4, 4096, 3, 5⟩ from rfl).symm.trans h
    exact Or.inr ⟨rfl, rfl⟩

/-- A file whose offsets fit is loaded. -/
theorem loads_program_two : ∃ c' argc,
    kexec twoCaller [] (some (0, twoFile)) (fun _ => none) =
      .ok (c', some argc) ∧
    LoadsProgram ((lookupInode twoCaller.st 0 twoFile).inode 0) c'.st := by
  obtain ⟨⟨c', ret⟩, hcall, hret⟩ := exists_ok_of_any (show ((kexec
    twoCaller [] (some (0, twoFile)) (fun _ => none)).toOption.any
      fun r : Caller × Option ℕ => decide (r.2 = some 0)) = true by
        decide +kernel)
  cases of_decide_eq_true hret
  have hled := @bootState_ledger argFree rwFile twoFile
    (by decide +kernel) (by decide +kernel)
  refine ⟨c', 0, hcall, (loads_program_iff hled
    ⟨⟨⟨0, by decide⟩, rfl⟩, by rintro _ _ ⟨⟩⟩ hcall ?_).mpr
      ⟨by decide +kernel, ?_⟩⟩
  · intro i j p q hij (hj : j < 2) hp hq _ _
    rcases twoFile_headers (Nat.lt_trans hij hj) hp with ⟨rfl, rfl⟩ | ⟨rfl, rfl⟩
    · rcases twoFile_headers hj hq with ⟨rfl, rfl⟩ | ⟨rfl, rfl⟩
      · omega
      · decide
    · omega
  · intro i hi ph hph _ _
    rcases twoFile_headers hi hph with ⟨-, rfl⟩ | ⟨-, rfl⟩ <;> decide

/-- The fifth byte of the offset of the segment is lost: `exec` succeeds with
the first bytes of the file where it should have read past its end. -/
theorem exec_truncates_offset : ∃ c' argc,
    kexec (tinyCaller 1) [] (some (0, tinyFile 1)) (fun _ => none) =
      .ok (c', some argc) ∧
    Ordered ((lookupInode (tinyCaller 1).st 0 (tinyFile 1)).inode 0) 64 1 ∧
    ¬ LoadsProgram ((lookupInode (tinyCaller 1).st 0 (tinyFile 1)).inode 0)
      c'.st := by
  obtain ⟨⟨c', ret⟩, hcall, hret⟩ := exists_ok_of_any (show ((kexec
    (tinyCaller 1) [] (some (0, tinyFile 1)) (fun _ => none)).toOption.any
      fun r : Caller × Option ℕ => decide (r.2 = some 0)) = true by
        decide +kernel)
  cases of_decide_eq_true hret
  refine ⟨c', 0, hcall, tinyFile_ordered 1 2 64, ?_⟩
  intro hprog
  obtain ⟨ph, hph, hseg⟩ := hprog.segment 0 (by decide +kernel)
  cases (show headerAt _ _ = some ⟨1, 7, 2 ^ 32, 0, 4, 4⟩ from rfl).symm.trans
    hph
  exact ((hseg rfl).file 0 (by decide)).2 rfl

end Xv6.Exec
