import Xv6.Vm.Fault
import Xv6.Vm.UserMemory

/-!
# Unmapping a mapped file (`kernel/fs.c`: `writei`, `kernel/vm.c`:
`uvmunmap_vma`)

The dirty pages of a shared mapping are written back to the file in chunks
that fit a log transaction, and the pages are unmapped. Writing never faults
pages in: the page that is written back is present.
-/

namespace Xv6.Vm

open Framework

/-! ## `writei` -/

/-- The loop of `writei(ip, 1, src, off, n)`, with the bytes still to write;
the result is the number of bytes it wrote. A copy that fails leaves what it
moved so far in the buffer. -/
def writeiLoop (s : State) (i : InodeId) (src off rem : ℕ) :
    Except Panic (State × ℕ) :=
  if rem = 0 then .ok (s, 0)
  else
    match bmap s i (off / BSIZE) with
    | .error e => .error e
    | .ok (s, false) => .ok (s, 0)
    | .ok (s, true) =>
        let m := min rem (BSIZE - off % BSIZE)
        let r := copyin s src m
        let s := r.st.setInode i ((r.st.inode i).setBytes off r.dst)
        match r.ret with
        | .error e => .error e
        | .ok false => .ok (s, 0)
        | .ok true => do
            let (s, tot) ←
              writeiLoop s i ((src + m) % 2 ^ 64) (off + m) (rem - m)
            .ok (s, m + tot)
termination_by rem
decreasing_by
  have := Nat.mod_lt off (show 0 < BSIZE by decide)
  omega

/-- `writei(ip, 1, src, off, n)`. -/
def writei (s : State) (i : InodeId) (src off n : ℕ) :
    Except Panic (State × ℤ) :=
  if (s.inode i).size < off ∨ (off + n) % 2 ^ 32 < off then .ok (s, -1)
  else if MAXFILE * BSIZE < (off + n) % 2 ^ 32 then .ok (s, -1)
  else do
    let (s, tot) ← writeiLoop s i src off n
    .ok (s.setInode i ((s.inode i).grow (off + tot)), tot)

/-! ## `uvmunmap_vma` -/

/-- `((MAXOPBLOCKS-1-1-2) / 2) * BSIZE`. -/
def writeBackMax : ℕ := (MAXOPBLOCKS - 1 - 1 - 2) / 2 * BSIZE

/-- The chunk loop over one page: `addr` and `offset` advance, `rem` is
`n - i`. The flag says whether the loop reached `i == n`. -/
def writeBackPage (s : State) (k : FileId) (addr offset rem : ℕ) :
    Except Panic (State × ℕ × Bool) :=
  if rem = 0 then .ok (s, offset, true)
  else
    let n1 := min rem writeBackMax
    match ilock s (s.file k).ip with
    | .error e => .error e
    | .ok ip =>
        match writei s ip addr offset n1 with
        | .error e => .error e
        | .ok (s, r) =>
            let offset := if 0 < r then toUint32 (offset + r) else offset
            if r ≠ n1 then .ok (s, offset, false)
            else writeBackPage s k (addr + n1) offset (rem - n1)
termination_by rem
decreasing_by
  have : 0 < writeBackMax := by decide
  omega

/-- `f->ip->size`. -/
def fileSize (s : State) (k : FileId) : Except Panic ℕ :=
  match (s.file k).ip with
  | some i => .ok (s.inode i).size
  | none => .error .kerneltrap

/-- The write-back loop over the pages, with the pages still to look at. The
running `offset` only moves when bytes are written. The flag is false when
`uvmunmap_vma` gives up with -1. -/
def writeBackLoop (k : FileId) :
    ℕ → ℕ → ℕ → State → Except Panic (State × Bool)
  | 0, _, _, s => .ok (s, true)
  | pages + 1, addr, offset, s => do
      let pte ← walk s.p.pagetable addr
      match pte.join with
      | none => writeBackLoop k pages (addr + PGSIZE) offset s
      | some l =>
          if l.perm.d = false then
            writeBackLoop k pages (addr + PGSIZE) offset s
          else do
            let fsize ← fileSize s k
            let size := toInt32 (fsize - offset)
            if size < 0 then .ok (s, true)
            else do
              let (s, offset, done) ←
                writeBackPage s k addr offset (min size.toNat PGSIZE)
              if done then writeBackLoop k pages (addr + PGSIZE) offset s
              else .ok (s, false)

/-- The write-back of the range `[us, ue)` of a mapping. -/
def writeBack (s : State) (v : VMA) (us ue : ℕ) :
    Except Panic (State × Bool) :=
  if v.shared then
    writeBackLoop v.f ((ue - us + PGSIZE - 1) / PGSIZE) us
      (toUint32 (v.offset.toInt + us - v.start)) s
  else .ok (s, true)

/-- The end of `uvmunmap_vma`: release, shrink from the front or shrink from
the back. -/
def shrinkVma (s : State) (i : Fin NVMA) (us ue : ℕ) : Except Panic State :=
  let v := s.p.vma i
  if us = v.start ∧ ue = v.end_ then do
    let s ← fileclose s v.f
    .ok (s.setVma i { v with valid := false })
  else if us = v.start then
    .ok (s.setVma i { v with
      offset := Int32.ofInt (v.offset.toInt + ue - v.start), start := ue })
  else .ok (s.setVma i { v with end_ := us })

/-- The clipped range of `uvmunmap_vma`. -/
def unmapStart (v : VMA) (addr : ℕ) : ℕ := if v.start < addr then addr else v.start

def unmapEnd (v : VMA) (stop : ℕ) : ℕ := if stop < v.end_ then stop else v.end_

/-- `uvmunmap_vma` of slot `i`; the flag says whether it returned 0. -/
def uvmunmapVma (s : State) (i : Fin NVMA) (addr stop : ℕ) :
    Except Panic (State × Bool) :=
  let v := s.p.vma i
  let us := unmapStart v addr
  let ue := unmapEnd v stop
  if v.valid = false ∨ v.end_ ≤ addr ∨ stop ≤ v.start then .ok (s, false)
  else if us ≠ v.start ∧ ue ≠ v.end_ then .ok (s, false)
  else do
    let (s, done) ← writeBack s v us ue
    if done then do
      let (km, pt) ← uvmunmap s.kmem s.p.pagetable us
        (toUint64 ((ue : ℤ) - us) / PGSIZE) true
      let s ← shrinkVma (s.setMemory km pt) i us ue
      .ok (s, true)
    else .ok (s, false)

/-! ## What write-back leaves alone -/

/-- Only the contents of the file behind `ip` changed. -/
structure OnlyFile (s : State) (ip : Option InodeId) (s' : State) : Prop where
  p : s'.p = s.p
  kmem : s'.kmem = s.kmem
  file : s'.file = s.file
  pipe : s'.pipe = s.pipe
  other : ∀ j, ip ≠ some j → s'.inode j = s.inode j
  ref : ∀ j, (s'.inode j).ref = (s.inode j).ref
  type : ∀ j, (s'.inode j).type = (s.inode j).type
  nlink : ∀ j, (s'.inode j).nlink = (s.inode j).nlink

theorem OnlyFile.refl (s : State) (ip : Option InodeId) : OnlyFile s ip s :=
  ⟨rfl, rfl, rfl, rfl, fun _ _ => rfl, fun _ => rfl, fun _ => rfl,
    fun _ => rfl⟩

variable {s s₁ : State}

theorem OnlyFile.trans {s₂ : State} {ip : Option InodeId} (h : OnlyFile s ip s₁)
    (h' : OnlyFile s₁ ip s₂) : OnlyFile s ip s₂ where
  p := h'.p.trans h.p
  kmem := h'.kmem.trans h.kmem
  file := h'.file.trans h.file
  pipe := h'.pipe.trans h.pipe
  other := fun j hj => (h'.other j hj).trans (h.other j hj)
  ref := fun j => (h'.ref j).trans (h.ref j)
  type := fun j => (h'.type j).trans (h.type j)
  nlink := fun j => (h'.nlink j).trans (h.nlink j)

/-- A new version of the inode with the same counts. -/
theorem onlyFile_setInode (s : State) {i : InodeId} {ip : Inode} (n : ℕ)
    (href : ip.ref = (s.inode i).ref) (htype : ip.type = (s.inode i).type)
    (hnlink : ip.nlink = (s.inode i).nlink) :
    OnlyFile s (some i) ({ s with freeBlocks := n }.setInode i ip) := by
  have hget : ∀ j, ({ s with freeBlocks := n }.setInode i ip).inode j =
      if j = i then ip else s.inode j := by
    intro j
    simp [State.setInode, Function.update_apply]
  refine ⟨rfl, rfl, rfl, rfl, ?_, ?_, ?_, ?_⟩
  · intro j hj
    rw [hget, if_neg fun e => hj (by rw [e])]
  · intro j
    rw [hget]
    split <;> simp_all
  · intro j
    rw [hget]
    split <;> simp_all
  · intro j
    rw [hget]
    split <;> simp_all

theorem bmapIndirect_only (s : State) (i : InodeId) :
    OnlyFile s (some i) (bmapIndirect s i).1 := by
  unfold bmapIndirect balloc
  split
  · exact .refl _ _
  · split
    · exact .refl _ _
    · rename_i hs
      split at hs
      · cases hs
      · cases hs
        exact onlyFile_setInode s _ rfl rfl rfl

theorem bmapData_only (s : State) (i : InodeId)
    (h : (s.inode i).blocks < MAXFILE) :
    OnlyFile s (some i) (bmapData s i h).1 := by
  unfold bmapData balloc
  split
  · exact .refl _ _
  · rename_i hs
    split at hs
    · cases hs
    · cases hs
      exact onlyFile_setInode s _ rfl rfl rfl

variable {s' : State}

theorem bmap_only {i : InodeId} {bn : ℕ} {found : Bool}
    (h : bmap s i bn = .ok (s', found)) : OnlyFile s (some i) s' := by
  unfold bmap at h
  split at h
  · cases h
    exact .refl _ _
  · split at h
    · obtain rfl : _ = s' := congrArg Prod.fst (Except.ok.inj h)
      exact bmapData_only s i _
    · split at h
      · split at h
        · obtain rfl : _ = s' := congrArg Prod.fst (Except.ok.inj h)
          exact (bmapIndirect_only s i).trans (bmapData_only _ i _)
        · obtain rfl : _ = s' := congrArg Prod.fst (Except.ok.inj h)
          exact bmapIndirect_only s i
      · cases h

/-- The part of a page that is still to be written. -/
theorem page_rest {src m rem : ℕ} (hva : src < MAXVA) (hm : m < rem)
    (hfit : src % PGSIZE + rem ≤ PGSIZE) :
    (src + m) % 2 ^ 64 = src + m ∧ src + m < MAXVA ∧
      pgrounddown (src + m) = pgrounddown src ∧
      (src + m) % PGSIZE = src % PGSIZE + m := by
  unfold pgrounddown PGSIZE MAXVA at *
  omega

variable {l : Leaf}

theorem writeiLoop_only {i : InodeId} : ∀ (rem : ℕ) {s s' : State}
    {src off tot : ℕ}, src < MAXVA → s.p.pagetable.leaf src = some l →
    src % PGSIZE + rem ≤ PGSIZE →
    writeiLoop s i src off rem = .ok (s', tot) → OnlyFile s (some i) s' := by
  intro rem
  induction rem using Nat.strong_induction_on with
  | _ rem ih =>
    intro s s' src off tot hva hleaf hfit h
    rw [writeiLoop] at h
    split at h
    · cases h
      exact .refl _ _
    · rename_i hrem
      have hblock := Nat.mod_lt off (show 0 < BSIZE by decide)
      cases hbmap : bmap s i (off / BSIZE) with
      | error e =>
        simp only [hbmap] at h
        cases h
      | ok r =>
        obtain ⟨s₁, found⟩ := r
        have honly := bmap_only hbmap
        cases found with
        | false =>
          simp only [hbmap] at h
          cases h
          exact honly
        | true =>
          simp only [hbmap] at h
          have hleaf₁ : s₁.p.pagetable.leaf src = some l := by
            rw [honly.p, hleaf]
          cases hret : (copyin s₁ src
              (min rem (BSIZE - off % BSIZE))).ret with
          | error e =>
            simp only [hret] at h
            cases h
          | ok done =>
            have hst := copyin_of_leaf hva hleaf₁ (by omega) hret
            have hset : ∀ bs, OnlyFile s₁ (some i)
                (s₁.setInode i ((s₁.inode i).setBytes off bs)) :=
              fun bs => onlyFile_setInode s₁ _ rfl rfl rfl
            rw [hst] at h
            cases done with
            | false =>
              simp only [hret] at h
              cases h
              exact honly.trans (hset _)
            | true =>
              simp only [hret] at h
              obtain ⟨⟨s₂, tot'⟩, hrest, h⟩ := bind_ok_iff.mp h
              cases h
              refine (honly.trans (hset (copyin s₁ src
                (min rem (BSIZE - off % BSIZE))).dst)).trans ?_
              rcases Nat.lt_or_ge (min rem (BSIZE - off % BSIZE))
                rem with hlt | hge
              · obtain ⟨hwrap, hva', hpage, hoff⟩ :=
                  page_rest hva hlt hfit
                rw [hwrap] at hrest
                refine ih _ (by omega) hva' ?_ (by omega) hrest
                rw [← hleaf₁]
                exact PageTable.leaf_congr _ hpage
              · rw [Nat.sub_eq_zero_of_le hge, writeiLoop,
                  if_pos rfl] at hrest
                cases hrest
                exact .refl _ _

theorem onlyFile_grow (s : State) (i : InodeId) (off : ℕ) :
    OnlyFile s (some i) (s.setInode i ((s.inode i).grow off)) := by
  refine onlyFile_setInode s _ ?_ ?_ ?_
  · unfold Inode.grow
    split <;> rfl
  · unfold Inode.grow
    split <;> rfl
  · unfold Inode.grow
    split <;> rfl

theorem writei_only {i : InodeId} {src off n : ℕ} {r : ℤ} (hva : src < MAXVA)
    (hleaf : s.p.pagetable.leaf src = some l) (hfit : src % PGSIZE + n ≤ PGSIZE)
    (h : writei s i src off n = .ok (s', r)) : OnlyFile s (some i) s' := by
  unfold writei at h
  split at h
  · cases h
    exact .refl _ _
  · split at h
    · cases h
      exact .refl _ _
    · obtain ⟨⟨s₁, tot⟩, hloop, h⟩ := bind_ok_iff.mp h
      cases h
      exact (writeiLoop_only n hva hleaf hfit hloop).trans
        (onlyFile_grow s₁ i _)

variable {k : FileId}

theorem writeBackPage_only : ∀ (rem : ℕ)
    {s s' : State} {addr offset offset' : ℕ} {done : Bool}, addr < MAXVA →
    s.p.pagetable.leaf addr = some l → addr % PGSIZE + rem ≤ PGSIZE →
    writeBackPage s k addr offset rem = .ok (s', offset', done) →
    OnlyFile s (s.file k).ip s' := by
  intro rem
  induction rem using Nat.strong_induction_on with
  | _ rem ih =>
    intro s s' addr offset offset' done hva hleaf hfit h
    have hmax : 0 < writeBackMax := by decide
    rw [writeBackPage] at h
    split at h
    · cases h
      exact .refl _ _
    · rename_i hrem
      cases hlock : ilock s (s.file k).ip with
      | error e =>
        simp only [hlock] at h
        cases h
      | ok i =>
        simp only [hlock] at h
        obtain ⟨hip, -⟩ := ilock_ok hlock
        cases hwrite : writei s i addr offset (min rem writeBackMax) with
        | error e =>
          simp only [hwrite] at h
          cases h
        | ok r =>
          obtain ⟨s₁, r⟩ := r
          simp only [hwrite] at h
          have honly := writei_only hva hleaf (by omega) hwrite
          rw [← hip] at honly
          split at h
          · cases h
            exact honly
          · refine honly.trans ?_
            rcases Nat.lt_or_ge (min rem writeBackMax) rem with hlt | hge
            · obtain ⟨-, hva', hpage, hoff⟩ := page_rest hva hlt hfit
              have hleaf' : s₁.p.pagetable.leaf
                  (addr + min rem writeBackMax) = some l := by
                rw [honly.p, ← hleaf]
                exact PageTable.leaf_congr _ hpage
              have := ih _ (by omega) hva' hleaf' (by omega) h
              rwa [honly.file] at this
            · rw [Nat.sub_eq_zero_of_le hge, writeBackPage,
                if_pos rfl] at h
              cases h
              exact .refl _ _

theorem walk_ok {pt : PageTable} {va : ℕ} {e : Option (Option Leaf)}
    (h : walk pt va = .ok e) : va < MAXVA ∧ pt.leaf va = e.join := by
  unfold walk at h
  split at h
  · rename_i hva
    cases h
    exact ⟨hva, rfl⟩
  · cases h

theorem writeBackLoop_only : ∀ {pages addr offset : ℕ}
    {s s' : State} {done : Bool}, addr % PGSIZE = 0 →
    writeBackLoop k pages addr offset s = .ok (s', done) →
    OnlyFile s (s.file k).ip s'
  | 0, _, _, s, s', done, _, h => by
    cases h
    exact .refl _ _
  | pages + 1, addr, offset, s, s', done, haddr, h => by
    have hnext : (addr + PGSIZE) % PGSIZE = 0 := by simpa using haddr
    rw [writeBackLoop] at h
    obtain ⟨pte, hwalk, h⟩ := bind_ok_iff.mp h
    obtain ⟨hva, hleaf⟩ := walk_ok hwalk
    split at h
    · exact writeBackLoop_only hnext h
    · rename_i l hl
      rw [hl] at hleaf
      split at h
      · exact writeBackLoop_only hnext h
      · obtain ⟨fsize, -, h⟩ := bind_ok_iff.mp h
        dsimp only at h
        split at h
        · cases h
          exact .refl _ _
        · obtain ⟨⟨s₁, offset₁, done₁⟩, hpage, h⟩ := bind_ok_iff.mp h
          have honly := writeBackPage_only _ hva hleaf (by omega) hpage
          split at h
          · have := writeBackLoop_only hnext h
            rw [honly.file] at this
            exact honly.trans this
          · cases h
            exact honly

variable {v : VMA} {us ue : ℕ} {done : Bool}

/-- **Write-back touches nothing but the mapped file.** -/
theorem writeBack_only (hus : us % PGSIZE = 0)
    (h : writeBack s v us ue = .ok (s', done)) :
    OnlyFile s (s.file v.f).ip s' := by
  unfold writeBack at h
  split at h
  · exact writeBackLoop_only hus h
  · cases h
    exact .refl _ _

/-- The page is present and dirty. -/
def Dirty (pt : PageTable) (va : ℕ) : Prop :=
  ∃ l, pt.leaf va = some l ∧ l.perm.d = true

/-- Write-back of the range has a page to write. -/
def WritesBack (s : State) (v : VMA) (us ue : ℕ) : Prop :=
  v.shared = true ∧ ∃ va, us ≤ va ∧ va < ue ∧ Dirty s.p.pagetable va

theorem writeBackLoop_idle : ∀ {pages addr offset : ℕ}
    {s s' : State} {done : Bool},
    (∀ n < pages, ¬ Dirty s.p.pagetable (addr + n * PGSIZE)) →
    writeBackLoop k pages addr offset s = .ok (s', done) → s' = s
  | 0, _, _, s, s', done, _, h => by
    cases h
    rfl
  | pages + 1, addr, offset, s, s', done, hclean, h => by
    have hnext : ∀ n < pages,
        ¬ Dirty s.p.pagetable (addr + PGSIZE + n * PGSIZE) := by
      intro n hn
      rw [show addr + PGSIZE + n * PGSIZE = addr + (n + 1) * PGSIZE by
        rw [Nat.succ_mul]; omega]
      exact hclean (n + 1) (Nat.succ_lt_succ hn)
    rw [writeBackLoop] at h
    obtain ⟨pte, hwalk, h⟩ := bind_ok_iff.mp h
    split at h
    · exact writeBackLoop_idle hnext h
    · rename_i l hl
      have hleaf := (walk_ok hwalk).2
      rw [hl] at hleaf
      split at h
      · exact writeBackLoop_idle hnext h
      · rename_i hd
        refine absurd ⟨l, ?_, by simpa using hd⟩ (hclean 0 (Nat.succ_pos _))
        simpa using hleaf

theorem writeBack_idle (hidle : ¬ WritesBack s v us ue)
    (h : writeBack s v us ue = .ok (s', done)) : s' = s := by
  unfold writeBack at h
  split at h
  · rename_i hshared
    refine writeBackLoop_idle ?_ h
    intro n hn hd
    refine hidle ⟨hshared, _, Nat.le_add_right _ _, ?_, hd⟩
    unfold PGSIZE at *
    omega
  · cases h
    rfl

/-! ## What `uvmunmap_vma` does -/

/-- Both ends of the mapping are page boundaries below the trap pages. -/
structure VMA.Bounded (v : VMA) : Prop where
  start_mod : v.start % PGSIZE = 0
  end_mod : v.end_ % PGSIZE = 0
  start_le : v.start ≤ TRAPFRAME
  end_le : v.end_ ≤ TRAPFRAME

variable {addr : ℕ}

theorem unmapStart_mod (hv : v.Bounded) (ha : addr % PGSIZE = 0) :
    unmapStart v addr % PGSIZE = 0 := by
  unfold unmapStart
  split
  · exact ha
  · exact hv.start_mod

variable {stop : ℕ}

theorem unmapEnd_mod (hv : v.Bounded) (hs : stop % PGSIZE = 0) :
    unmapEnd v stop % PGSIZE = 0 := by
  unfold unmapEnd
  split
  · exact hs
  · exact hv.end_mod

/-- The page count of `uvmunmap_vma` wraps for a range that runs backwards,
and then nothing is unmapped. -/
theorem uvmunmap_range {km km' : Kmem} {pt pt' : PageTable}
    (hus : us % PGSIZE = 0) (hue : ue % PGSIZE = 0) (hus' : us < 2 ^ 40)
    (hue' : ue < 2 ^ 40)
    (h : uvmunmap km pt us (toUint64 ((ue : ℤ) - us) / PGSIZE) true =
      .ok (km', pt')) :
    Unmapped true ((ue - us) / PGSIZE) us km pt km' pt' := by
  rcases Nat.le_total us ue with hle | hle
  · have hcount : toUint64 ((ue : ℤ) - us) = ue - us := by
      unfold toUint64
      omega
    rw [hcount] at h
    refine uvmunmap_spec ?_ h
    unfold PGSIZE
    omega
  · have hrounds : ((us + toUint64 ((ue : ℤ) - us) / PGSIZE * PGSIZE) %
        2 ^ 64 - us) / PGSIZE = 0 := by
      unfold toUint64 PGSIZE at *
      omega
    have hnone : (ue - us) / PGSIZE = 0 := by
      rw [Nat.sub_eq_zero_of_le hle]
      rfl
    unfold uvmunmap at h
    rw [if_neg (not_not.mpr hus), hrounds] at h
    rw [hnone]
    exact (uvmunmapLoop_spec hus h).1

/-- The slot after `[us, ue)` was unmapped. -/
def VMA.shrunk (v : VMA) (us ue : ℕ) : VMA :=
  if us = v.start ∧ ue = v.end_ then { v with valid := false }
  else if us = v.start then
    { v with
      offset := Int32.ofInt (v.offset.toInt + ue - v.start), start := ue }
  else { v with end_ := us }

/-- The file table keeps what `open` wrote: an entry that is still open is
the same file as before. -/
structure FilesKept (s s' : State) : Prop where
  readable : ∀ k, (s'.file k).readable = (s.file k).readable
  writable : ∀ k, (s'.file k).writable = (s.file k).writable
  ip : ∀ k, (s'.file k).ip = (s.file k).ip
  pipe : ∀ k, (s'.file k).pipe = (s.file k).pipe
  type : ∀ k, (s'.file k).type = (s.file k).type ∨ (s'.file k).type = .none
  opened : ∀ k, 0 < (s'.file k).ref →
    0 < (s.file k).ref ∧ (s'.file k).type = (s.file k).type

theorem FilesKept.of_file_eq (h : s'.file = s.file) : FilesKept s s' := by
  refine ⟨?_, ?_, ?_, ?_, ?_, ?_⟩ <;> intro k <;> simp [h]

theorem FilesKept.trans {s₂ : State} (h : FilesKept s s₁) (h' : FilesKept s₁ s₂) :
    FilesKept s s₂ where
  readable := fun k => (h'.readable k).trans (h.readable k)
  writable := fun k => (h'.writable k).trans (h.writable k)
  ip := fun k => (h'.ip k).trans (h.ip k)
  pipe := fun k => (h'.pipe k).trans (h.pipe k)
  type := by
    intro k
    rcases h'.type k with h₁ | h₁
    · rw [h₁]
      exact h.type k
    · exact Or.inr h₁
  opened := fun k hk =>
    ⟨(h.opened k (h'.opened k hk).1).1,
      (h'.opened k hk).2.trans (h.opened k (h'.opened k hk).1).2⟩

theorem Closed.filesKept (h : Closed s k s') : FilesKept s s' := by
  have hget : ∀ j, s'.file j = if j = k then
      { s.file k with
        ref := (s.file k).ref - 1
        type := if 1 < (s.file k).ref then (s.file k).type else .none }
      else s.file j := by
    intro j
    rw [h.file, Function.update_apply]
  refine ⟨?_, ?_, ?_, ?_, ?_, ?_⟩
  · intro j
    rw [hget]
    split <;> simp_all
  · intro j
    rw [hget]
    split <;> simp_all
  · intro j
    rw [hget]
    split <;> simp_all
  · intro j
    rw [hget]
    split <;> simp_all
  · intro j
    rw [hget]
    split
    · rename_i hjk
      subst hjk
      simp only
      split <;> simp
    · exact Or.inl rfl
  · intro j hj
    rw [hget] at hj ⊢
    split at hj
    · rename_i hjk
      subst hjk
      simp only at hj
      rw [if_pos rfl]
      exact ⟨by omega, by simp only; rw [if_pos (by omega)]⟩
    · rename_i hjk
      rw [if_neg hjk]
      exact ⟨hj, rfl⟩

/-- Everything a successful `uvmunmap_vma` does. -/
structure Released (s : State) (i : Fin NVMA) (addr stop : ℕ) (s' : State) :
    Prop where
  hit : (s.p.vma i).Hit addr stop
  ends : unmapStart (s.p.vma i) addr = (s.p.vma i).start ∨
    unmapEnd (s.p.vma i) stop = (s.p.vma i).end_
  p : s'.p = { s.p with
    pagetable := s'.p.pagetable
    vma := Function.update s.p.vma i ((s.p.vma i).shrunk
      (unmapStart (s.p.vma i) addr) (unmapEnd (s.p.vma i) stop)) }
  inside : ∀ vb < MAXVA, unmapStart (s.p.vma i) addr ≤ vb →
    vb < unmapEnd (s.p.vma i) stop → s'.p.pagetable.leaf vb = none
  outside : ∀ vb < MAXVA, ¬ (unmapStart (s.p.vma i) addr ≤ vb ∧
    vb < unmapEnd (s.p.vma i) stop) →
    s'.p.pagetable.leaf vb = s.p.pagetable.leaf vb
  frames : s'.p.pagetable.frames = s.p.pagetable.frames
  freed : ∀ f ∈ s'.kmem.freelist, f ∈ s.kmem.freelist ∨
    (∃ vb l, unmapStart (s.p.vma i) addr ≤ vb ∧
      vb < unmapEnd (s.p.vma i) stop ∧
      s.p.pagetable.leaf vb = some l ∧ l.frame = f) ∨
    ((s.file (s.p.vma i).f).type = .pipe ∧ f = (s.file (s.p.vma i).f).pipe)
  files : FilesKept s s'
  inode : ∀ j, (s.file (s.p.vma i).f).ip ≠ some j ∨
    ¬ WritesBack s (s.p.vma i) (unmapStart (s.p.vma i) addr)
      (unmapEnd (s.p.vma i) stop) → (s.inode j).Dropped (s'.inode j)

variable {i : Fin NVMA}

/-- The last step: the slot, and the reference when the whole mapping goes. -/
theorem shrinkVma_spec (h : shrinkVma s i us ue = .ok s') :
    s'.p = { s.p with
      vma := Function.update s.p.vma i ((s.p.vma i).shrunk us ue) } ∧
    FilesKept s s' ∧ (∀ j, (s.inode j).Dropped (s'.inode j)) ∧
    (s'.kmem.freelist = s.kmem.freelist ∨
      ((s.file (s.p.vma i).f).type = .pipe ∧ s'.kmem.freelist =
        (s.file (s.p.vma i).f).pipe :: s.kmem.freelist)) := by
  dsimp only [shrinkVma] at h
  split at h
  · rename_i hwhole
    obtain ⟨s₁, hclose, h⟩ := bind_ok_iff.mp h
    cases h
    have hclosed := fileclose_spec hclose
    refine ⟨?_, hclosed.filesKept.trans (.of_file_eq rfl), hclosed.inode,
      hclosed.freed⟩
    rw [VMA.shrunk, if_pos hwhole, State.setVma, hclosed.p]
  · rename_i hpart
    split at h
    · rename_i hfront
      cases h
      refine ⟨?_, .of_file_eq rfl, fun _ => .kept, Or.inl rfl⟩
      rw [VMA.shrunk, if_neg hpart, if_pos hfront]
      rfl
    · rename_i hback
      cases h
      refine ⟨?_, .of_file_eq rfl, fun _ => .kept, Or.inl rfl⟩
      rw [VMA.shrunk, if_neg hpart, if_neg hback]
      rfl

/-- **`uvmunmap_vma` either releases its part of the mapping or leaves the
process as it was**, in both cases after write-back. -/
theorem uvmunmapVma_spec (hv : (s.p.vma i).valid = true → (s.p.vma i).Bounded)
    (haddr : addr % PGSIZE = 0) (hstop : stop % PGSIZE = 0)
    (h : uvmunmapVma s i addr stop = .ok (s', done)) :
    (done = false ∧ OnlyFile s (s.file (s.p.vma i).f).ip s' ∧
      (¬ WritesBack s (s.p.vma i) (unmapStart (s.p.vma i) addr)
        (unmapEnd (s.p.vma i) stop) → s' = s)) ∨
    (done = true ∧ Released s i addr stop s') := by
  dsimp only [uvmunmapVma] at h
  split at h
  · cases h
    exact Or.inl ⟨rfl, .refl _ _, fun _ => rfl⟩
  · rename_i hhit
    have hhit : (s.p.vma i).Hit addr stop := by
      unfold VMA.Hit
      simp only [not_or, Bool.not_eq_false, Nat.not_le] at hhit
      exact hhit
    have hb := hv hhit.1
    have hus := unmapStart_mod hb haddr
    have hue := unmapEnd_mod hb hstop
    split at h
    · cases h
      exact Or.inl ⟨rfl, .refl _ _, fun _ => rfl⟩
    · rename_i hends
      obtain ⟨⟨s₁, done₁⟩, hwb, h⟩ := bind_ok_iff.mp h
      have honly := writeBack_only hus hwb
      cases done₁ with
      | false =>
        cases h
        exact Or.inl ⟨rfl, honly, fun hidle => writeBack_idle hidle hwb⟩
      | true =>
        simp only [if_true] at h
        obtain ⟨⟨km, pt⟩, hunmap, h⟩ := bind_ok_iff.mp h
        obtain ⟨s₂, hshrink, h⟩ := bind_ok_iff.mp h
        cases h
        have hbound : unmapStart (s.p.vma i) addr < 2 ^ 40 ∧
            unmapEnd (s.p.vma i) stop < 2 ^ 40 := by
          have h₁ := hb.start_le
          have h₂ := hb.end_le
          have h₃ := hhit.2.1
          unfold unmapStart unmapEnd TRAPFRAME TRAMPOLINE MAXVA PGSIZE at *
          split <;> split <;> omega
        have hun := uvmunmap_range hus hue hbound.1 hbound.2 hunmap
        have hrange : ∀ vb, (unmapStart (s.p.vma i) addr ≤ vb ∧
            vb < unmapStart (s.p.vma i) addr +
              (unmapEnd (s.p.vma i) stop -
                unmapStart (s.p.vma i) addr) / PGSIZE * PGSIZE) ↔
            (unmapStart (s.p.vma i) addr ≤ vb ∧
              vb < unmapEnd (s.p.vma i) stop) := by
          intro vb
          unfold PGSIZE at *
          omega
        obtain ⟨hp, hkept, hinode, hfree⟩ := shrinkVma_spec hshrink
        refine Or.inr ⟨rfl, hhit, ?_, ?_, ?_, ?_, ?_, ?_, ?_, ?_⟩
        · simp only [not_and_or, not_not] at hends
          exact hends
        · rw [hp]
          simp only [State.setMemory, honly.p]
        · intro vb hvb hlo hhi
          rw [hp]
          exact hun.inside vb hvb hlo ((hrange vb).mpr ⟨hlo, hhi⟩).2
        · intro vb hvb hout
          rw [hp]
          show pt.leaf vb = s.p.pagetable.leaf vb
          rw [hun.outside vb hvb fun hin => hout ((hrange vb).mp hin),
            honly.p]
        · rw [hp]
          show pt.frames = s.p.pagetable.frames
          rw [hun.frames, honly.p]
        · intro f hf
          have hf' : f ∈ km.freelist ∨
              ((s.file (s.p.vma i).f).type = .pipe ∧
                f = (s.file (s.p.vma i).f).pipe) := by
            simp only [State.setMemory, honly.p, honly.file] at hfree
            rcases hfree with hfree | ⟨htype, hfree⟩
            · exact Or.inl (hfree ▸ hf)
            · rw [hfree, List.mem_cons] at hf
              rcases hf with rfl | hf
              · exact Or.inr ⟨htype, rfl⟩
              · exact Or.inl hf
          rcases hf' with hf | hf
          · rw [hun.freed, if_pos rfl, List.mem_append,
              List.mem_reverse, honly.kmem, honly.p] at hf
            rcases hf with hf | hf
            · obtain ⟨n, hn, l, hl, rfl⟩ := mem_leafFrames.mp hf
              refine Or.inr (Or.inl ⟨_, l, Nat.le_add_right _ _, ?_, hl,
                rfl⟩)
              unfold PGSIZE at *
              omega
            · exact Or.inl hf
          · exact Or.inr (Or.inr hf)
        · have hmem : FilesKept s (s₁.setMemory km pt) :=
            .of_file_eq honly.file
          exact hmem.trans hkept
        · rintro j (hj | hidle)
          · have := hinode j
            rwa [show (s₁.setMemory km pt).inode j = s.inode j from
              honly.other j hj] at this
          · have := hinode j
            rwa [show (s₁.setMemory km pt).inode j = s.inode j by
              rw [writeBack_idle hidle hwb]; rfl] at this

/-! ## When `uvmunmap_vma` completes -/

theorem uvmunmap_range_ok {km : Kmem} {pt : PageTable} {us ue : ℕ}
    (hus : us % PGSIZE = 0) (hue : ue % PGSIZE = 0) (hle : us ≤ ue)
    (htop : ue ≤ MAXVA)
    (huse : ∀ va l, us ≤ va → va < ue → pt.leaf va = some l →
      l.frame.Usable) :
    ∃ km' pt', uvmunmap km pt us (toUint64 ((ue : ℤ) - us) / PGSIZE) true =
      .ok (km', pt') := by
  have hcount : toUint64 ((ue : ℤ) - us) = ue - us := by
    unfold toUint64 MAXVA at *
    omega
  rw [hcount]
  refine uvmunmap_ok hus ?_ ?_
  · unfold PGSIZE
    omega
  · intro _ f hf
    obtain ⟨n, hn, l, hl, rfl⟩ := mem_leafFrames.mp hf
    refine huse _ l (Nat.le_add_right _ _) ?_ hl
    unfold PGSIZE at *
    omega

theorem shrinkVma_ok (us ue : ℕ) (h : CanClose s (s.p.vma i).f) :
    ∃ s', shrinkVma s i us ue = .ok s' := by
  dsimp only [shrinkVma]
  split
  · obtain ⟨s₁, hclose⟩ := fileclose_ok h
    exact ⟨_, bind_ok_iff.mpr ⟨s₁, hclose, rfl⟩⟩
  · split <;> exact ⟨_, rfl⟩

/-- The inodes only see the last reference go. -/
theorem shrinkVma_inode (h : shrinkVma s i us ue = .ok s')
    (hlast : ¬ (us = (s.p.vma i).start ∧ ue = (s.p.vma i).end_ ∧
      (s.file (s.p.vma i).f).ref = 1)) : s'.inode = s.inode := by
  dsimp only [shrinkVma] at h
  split at h
  · rename_i hwhole
    obtain ⟨s₁, hclose, h⟩ := bind_ok_iff.mp h
    cases h
    have hclosed := fileclose_spec hclose
    have hpos := hclosed.held
    exact hclosed.shared (by
      by_contra hone
      exact hlast ⟨hwhole.1, hwhole.2, by omega⟩)
  · split at h
    · cases h
      rfl
    · cases h
      rfl

/-- Once write-back is through, the rest of `uvmunmap_vma` is, too. -/
theorem uvmunmapVma_ok (hv : (s.p.vma i).Bounded)
    (hhit : (s.p.vma i).Hit addr stop)
    (hends : unmapStart (s.p.vma i) addr = (s.p.vma i).start ∨
      unmapEnd (s.p.vma i) stop = (s.p.vma i).end_) (haddr : addr % PGSIZE = 0)
    (hstop : stop % PGSIZE = 0)
    (hle : unmapStart (s.p.vma i) addr ≤ unmapEnd (s.p.vma i) stop)
    (huse : ∀ va l, unmapStart (s.p.vma i) addr ≤ va →
      va < unmapEnd (s.p.vma i) stop → s.p.pagetable.leaf va = some l →
      l.frame.Usable) (hclose : CanClose s (s.p.vma i).f)
    (hwb : writeBack s (s.p.vma i) (unmapStart (s.p.vma i) addr)
      (unmapEnd (s.p.vma i) stop) = .ok (s₁, true)) :
    ∃ s', uvmunmapVma s i addr stop = .ok (s', true) ∧
      (¬ (unmapStart (s.p.vma i) addr = (s.p.vma i).start ∧
          unmapEnd (s.p.vma i) stop = (s.p.vma i).end_ ∧
          (s.file (s.p.vma i).f).ref = 1) → s'.inode = s₁.inode) ∧
      ∀ j, (s₁.inode j).Dropped (s'.inode j) := by
  have hus := unmapStart_mod hv haddr
  have hue := unmapEnd_mod hv hstop
  have honly := writeBack_only hus hwb
  have htop : unmapEnd (s.p.vma i) stop ≤ MAXVA := by
    have h₁ := hv.end_le
    have h₂ := TRAPFRAME_lt_MAXVA
    unfold unmapEnd
    split <;> omega
  obtain ⟨km, pt, hunmap⟩ := @uvmunmap_range_ok s₁.kmem s₁.p.pagetable _ _
    hus hue hle htop (by rw [honly.p]; exact huse)
  have hclose₁ : CanClose (s₁.setMemory km pt)
      ((s₁.setMemory km pt).p.vma i).f := by
    have hf : (s₁.setMemory km pt).file = s.file := honly.file
    have hp : (s₁.setMemory km pt).p.vma = s.p.vma := by
      show s₁.p.vma = _
      rw [honly.p]
    rw [hp]
    exact ⟨by rw [hf]; exact hclose.held, by rw [hf]; exact hclose.pipe,
      by rw [hf]; exact hclose.ip⟩
  obtain ⟨s', hshrink⟩ := shrinkVma_ok (unmapStart (s.p.vma i) addr)
    (unmapEnd (s.p.vma i) stop) hclose₁
  refine ⟨s', ?_, ?_, ?_⟩
  · dsimp only [uvmunmapVma]
    obtain ⟨hvalid, hlo, hhi⟩ := hhit
    rw [if_neg (by simp [hvalid, hlo, hhi]),
      if_neg (by simp only [not_and_or, not_not]; exact hends)]
    refine bind_ok_iff.mpr ⟨(s₁, true), hwb, ?_⟩
    simp only [if_true]
    exact bind_ok_iff.mpr ⟨(km, pt), hunmap,
      bind_ok_iff.mpr ⟨s', hshrink, rfl⟩⟩
  · intro hlast
    have := shrinkVma_inode hshrink (by
      show ¬ (_ = (s₁.p.vma i).start ∧ _ = (s₁.p.vma i).end_ ∧
        (s₁.file (s₁.p.vma i).f).ref = 1)
      rw [honly.p, honly.file]
      exact hlast)
    exact this
  · exact (shrinkVma_spec hshrink).2.2.1

end Xv6.Vm
