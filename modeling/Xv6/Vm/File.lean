import Xv6.Vm.State

/-!
# Inodes and open files (`kernel/fs.c`, `kernel/file.c`)

Reading a file into a page, dropping references to inodes and open files, and
what these leave alone. `bmap` allocates from the count of free blocks; a file
has no holes, so the block it is asked for is allocated or the next one.
-/

namespace Xv6.Vm

open Framework

/-! ## Inodes -/

/-- `ilock`: the checks on the pointer. -/
def ilock (s : State) (ip : Option InodeId) : Except Panic InodeId :=
  match ip with
  | none => .error .ilock
  | some i => if (s.inode i).ref < 1 then .error .ilock else .ok i

/-- The copying loop of `readi`, with the bytes still to copy. Every block
below the size exists, so `bmap` never fails here. -/
def readiLoop (ip : Inode) (km : Kmem) (dst off rem : ℕ) : Kmem :=
  if rem = 0 then km
  else
    let m := min rem (BSIZE - off % BSIZE)
    readiLoop ip (km.memmove dst (fun i => ip.byte (off + i)) m) (dst + m)
      (off + m) (rem - m)
termination_by rem
decreasing_by
  have := Nat.mod_lt off (show 0 < BSIZE by decide)
  omega

/-- `readi(ip, 0, dst, off, n)` into kernel memory. -/
def readi (ip : Inode) (km : Kmem) (dst off n : ℕ) : Kmem × ℕ :=
  if ip.size < off ∨ (off + n) % 2 ^ 32 < off then (km, 0)
  else
    let n := if ip.size < (off + n) % 2 ^ 32 then ip.size - off else n
    (readiLoop ip km dst off n, n)

namespace Inode

/-- `itrunc` and the lines of `iput` around it. -/
def free (ip : Inode) : Inode :=
  { ip with
    type := 0, ref := 0, size := 0, blocks := 0, indirect := false
    size_le := empty_size_le, blocks_le := Nat.zero_le _ }

/-- A further data block, filled with zeroes. -/
def addBlock (ip : Inode) (h : ip.blocks < MAXFILE) : Inode :=
  { ip with
    blocks := ip.blocks + 1
    byte := fun k => if k / BSIZE = ip.blocks then 0 else ip.byte k
    size_le := Nat.le_trans ip.size_le
      (Nat.mul_le_mul_right _ (Nat.le_succ _))
    blocks_le := h }

/-- Store bytes into the allocated blocks. -/
def setBytes (ip : Inode) (off : ℕ) (bs : List UInt8) : Inode :=
  { ip with
    byte := fun k =>
      if off ≤ k then (bs[k - off]?).getD (ip.byte k) else ip.byte k }

/-- `if(off > ip->size) ip->size = off`. Bytes only ever go to allocated
blocks, so the second test always passes. -/
def grow (ip : Inode) (off : ℕ) : Inode :=
  if h : ip.size < off ∧ off ≤ ip.blocks * BSIZE then
    { ip with size := off, size_le := h.2 }
  else ip

end Inode

/-- `balloc` succeeds while a free block is left. -/
def balloc (s : State) : Option State :=
  if s.freeBlocks = 0 then none
  else some { s with freeBlocks := s.freeBlocks - 1 }

/-- The last lines of `bmap`: allocate the data block. -/
def bmapData (s : State) (i : InodeId) (h : (s.inode i).blocks < MAXFILE) :
    State × Bool :=
  match balloc s with
  | none => (s, false)
  | some s' => (s'.setInode i ((s.inode i).addBlock h), true)

/-- The indirect block, allocated if need be. -/
def bmapIndirect (s : State) (i : InodeId) : State × Bool :=
  if (s.inode i).indirect then (s, true)
  else
    match balloc s with
    | none => (s, false)
    | some s' => (s'.setInode i { s.inode i with indirect := true }, true)

theorem bmapIndirect_blocks (s : State) (i : InodeId) :
    ((bmapIndirect s i).1.inode i).blocks = (s.inode i).blocks := by
  unfold bmapIndirect
  split
  · rfl
  · unfold balloc
    split <;> simp_all [State.setInode]

/-- `bmap`; the flag says whether the block address is non-zero. -/
def bmap (s : State) (i : InodeId) (bn : ℕ) : Except Panic (State × Bool) :=
  if hold : bn < (s.inode i).blocks then .ok (s, true)
  else if hdir : bn < NDIRECT then
    .ok (bmapData s i (by unfold MAXFILE; omega))
  else if hind : bn < MAXFILE then
    if (bmapIndirect s i).2 then
      .ok (bmapData (bmapIndirect s i).1 i
        (by rw [bmapIndirect_blocks]; omega))
    else .ok ((bmapIndirect s i).1, false)
  else .error .bmap

/-- `iput`. -/
def iput (s : State) (i : InodeId) : State :=
  let ip := s.inode i
  if ip.ref = 1 ∧ ip.nlink = 0 then
    { s.setInode i ip.free with
      freeBlocks := s.freeBlocks + ip.blocks + ip.indirect.toNat }
  else s.setInode i { ip with ref := ip.ref - 1 }

/-! ## Open files -/

/-- The end of the pipe that is closed. -/
def Pipe.close (pp : Pipe) (writable : Bool) : Pipe :=
  if writable then { pp with writeopen := false }
  else { pp with readopen := false }

/-- `pipeclose`. -/
def pipeclose (s : State) (pi : Frame) (writable : Bool) :
    Except Panic State :=
  let pp := (s.pipe pi).close writable
  let s := { s with pipe := Function.update s.pipe pi pp }
  if !pp.readopen && !pp.writeopen then do
    let km ← kfree s.kmem pi
    .ok { s with kmem := km }
  else .ok s

/-- `filedup`. -/
def filedup (s : State) (k : FileId) : Except Panic State :=
  if (s.file k).ref < 1 then .error .filedup
  else .ok (s.setFile k { s.file k with ref := (s.file k).ref + 1 })

/-- The end of `fileclose`, on the copy `ff` of the closed entry. -/
def filerelease (s : State) (ff : File) : Except Panic State :=
  match ff.type with
  | .pipe => pipeclose s ff.pipe ff.writable
  | .inode | .device =>
      match ff.ip with
      | some i => .ok (iput s i)
      | none => .error .kerneltrap
  | .none => .ok s

/-- `fileclose`. -/
def fileclose (s : State) (k : FileId) : Except Panic State :=
  let f := s.file k
  if f.ref < 1 then .error .fileclose
  else if 1 < f.ref then .ok (s.setFile k { f with ref := f.ref - 1 })
  else filerelease (s.setFile k { f with ref := 0, type := .none }) f

/-! ## What they change -/

theorem readiLoop_freelist (ip : Inode) (km : Kmem) (dst off rem : ℕ) :
    (readiLoop ip km dst off rem).freelist = km.freelist := by
  fun_induction readiLoop ip km dst off rem with
  | case1 => rfl
  | case2 km dst off rem _ m ih => exact ih

theorem readi_freelist (ip : Inode) (km : Kmem) (dst off n : ℕ) :
    (readi ip km dst off n).1.freelist = km.freelist := by
  unfold readi
  split
  · rfl
  · exact readiLoop_freelist ..

variable {s : State}

theorem ilock_ok {ip : Option InodeId} {i : InodeId} (h : ilock s ip = .ok i) :
    ip = some i ∧ 0 < (s.inode i).ref := by
  cases ip with
  | none => cases h
  | some j =>
    simp only [ilock] at h
    split at h
    · cases h
    · cases h
      exact ⟨rfl, by omega⟩

variable {s' : State} {k : FileId}

theorem filedup_ok (h : filedup s k = .ok s') :
    0 < (s.file k).ref ∧
      s' = s.setFile k { s.file k with ref := (s.file k).ref + 1 } := by
  unfold filedup at h
  split at h
  · cases h
  · cases h
    exact ⟨by omega, rfl⟩

/-- What can happen to an inode entry when a reference is dropped. -/
inductive Inode.Dropped (ip : Inode) : Inode → Prop
  | kept : Dropped ip ip
  | put : Dropped ip { ip with ref := ip.ref - 1 }
  | freed (last : ip.ref = 1) (unlinked : ip.nlink = 0) : Dropped ip ip.free

theorem iput_inode_of_ne (s : State) {i j : InodeId} (h : j ≠ i) :
    (iput s i).inode j = s.inode j := by
  dsimp only [iput]
  split <;> simp [State.setInode, h]

theorem iput_inode (s : State) (i j : InodeId) :
    (s.inode j).Dropped ((iput s i).inode j) := by
  by_cases hj : j = i
  · subst hj
    dsimp only [iput]
    split
    · rename_i h
      simpa [State.setInode] using Inode.Dropped.freed h.1 h.2
    · simpa [State.setInode] using Inode.Dropped.put
  · rw [iput_inode_of_ne s hj]
    exact .kept

@[simp] theorem iput_p (s : State) (i : InodeId) : (iput s i).p = s.p := by
  dsimp only [iput]
  split <;> rfl

@[simp] theorem iput_file (s : State) (i : InodeId) :
    (iput s i).file = s.file := by
  dsimp only [iput]
  split <;> rfl

@[simp] theorem iput_kmem (s : State) (i : InodeId) :
    (iput s i).kmem = s.kmem := by
  dsimp only [iput]
  split <;> rfl

/-- The file is on the inode. -/
def File.Backs (f : File) (i : InodeId) : Bool :=
  (decide (f.type = .inode) || decide (f.type = .device)) &&
    decide (f.ip = some i)

/-- The pipe or the inode behind a closed file was released. -/
structure BackReleased (s : State) (ff : File) (s' : State) : Prop where
  p : s'.p = s.p
  file : s'.file = s.file
  inode : ∀ i, (s.inode i).Dropped (s'.inode i)
  other : ∀ i, ff.Backs i = false → s'.inode i = s.inode i
  freed : s'.kmem.freelist = s.kmem.freelist ∨
    (ff.type = .pipe ∧ s'.kmem.freelist = ff.pipe :: s.kmem.freelist)

theorem pipeclose_spec {ff : File} (htype : ff.type = .pipe)
    (h : pipeclose s ff.pipe ff.writable = .ok s') : BackReleased s ff s' := by
  dsimp only [pipeclose] at h
  split at h
  · obtain ⟨km, hfree, h⟩ := bind_ok_iff.mp h
    cases h
    exact ⟨rfl, rfl, fun _ => .kept, fun _ _ => rfl,
      Or.inr ⟨htype, (kfree_ok hfree).2⟩⟩
  · cases h
    exact ⟨rfl, rfl, fun _ => .kept, fun _ _ => rfl, Or.inl rfl⟩

theorem filerelease_spec {ff : File} (h : filerelease s ff = .ok s') :
    BackReleased s ff s' := by
  have hiput : ∀ i, ff.Backs i = true → iput s i = s' →
      BackReleased s ff s' := by
    rintro i hi rfl
    refine ⟨iput_p s i, iput_file s i, iput_inode s i, ?_, Or.inl (by simp)⟩
    intro j hj
    refine iput_inode_of_ne s ?_
    rintro rfl
    rw [hi] at hj
    cases hj
  unfold filerelease at h
  split at h
  · exact pipeclose_spec (by assumption) h
  · rename_i htype
    split at h
    · rename_i i hip
      exact hiput i (by simp [File.Backs, htype, hip]) (Except.ok.inj h)
    · cases h
  · rename_i htype
    split at h
    · rename_i i hip
      exact hiput i (by simp [File.Backs, htype, hip]) (Except.ok.inj h)
    · cases h
  · cases h
    exact ⟨rfl, rfl, fun _ => .kept, fun _ _ => rfl, Or.inl rfl⟩

/-- A reference to an open file was dropped. -/
structure Closed (s : State) (k : FileId) (s' : State) : Prop where
  held : 0 < (s.file k).ref
  p : s'.p = s.p
  file : s'.file = Function.update s.file k
    { s.file k with
      ref := (s.file k).ref - 1
      type := if 1 < (s.file k).ref then (s.file k).type else .none }
  inode : ∀ i, (s.inode i).Dropped (s'.inode i)
  shared : 1 < (s.file k).ref → s'.inode = s.inode
  other : ∀ i, (s.file k).Backs i = false → s'.inode i = s.inode i
  freed : s'.kmem.freelist = s.kmem.freelist ∨
    ((s.file k).type = .pipe ∧
      s'.kmem.freelist = (s.file k).pipe :: s.kmem.freelist)

theorem fileclose_spec (h : fileclose s k = .ok s') : Closed s k s' := by
  dsimp only [fileclose] at h
  split at h
  · cases h
  · rename_i hheld
    have hpos : 0 < (s.file k).ref := by omega
    split at h
    · rename_i hmore
      cases h
      refine ⟨hpos, rfl, ?_, fun _ => .kept, fun _ => rfl, fun _ _ => rfl,
        Or.inl rfl⟩
      rw [if_pos hmore]
      rfl
    · rename_i hlast
      have hrel := filerelease_spec h
      refine ⟨hpos, hrel.p, ?_, hrel.inode, fun hmore => absurd hmore hlast,
        hrel.other, hrel.freed⟩
      rw [hrel.file, if_neg hlast, show (s.file k).ref - 1 = 0 by omega]
      rfl

/-- What `fileclose` relies on. -/
structure CanClose (s : State) (k : FileId) : Prop where
  held : 0 < (s.file k).ref
  pipe : (s.file k).type = .pipe → (s.file k).pipe.Usable
  ip : (s.file k).type = .inode ∨ (s.file k).type = .device →
    (s.file k).ip ≠ none

theorem pipeclose_ok (s : State) {pi : Frame} (writable : Bool)
    (h : pi.Usable) : ∃ s', pipeclose s pi writable = .ok s' := by
  dsimp only [pipeclose]
  split
  · obtain ⟨km, hfree, -⟩ := kfree_of_usable s.kmem h
    exact ⟨_, bind_ok_iff.mpr ⟨km, hfree, rfl⟩⟩
  · exact ⟨_, rfl⟩

theorem fileclose_ok (h : CanClose s k) : ∃ s', fileclose s k = .ok s' := by
  have hpos := h.held
  dsimp only [fileclose]
  rw [if_neg (by omega)]
  split
  · exact ⟨_, rfl⟩
  · unfold filerelease
    cases htype : (s.file k).type with
    | none => exact ⟨_, rfl⟩
    | pipe => exact pipeclose_ok _ _ (h.pipe htype)
    | inode =>
      cases hip : (s.file k).ip with
      | none => exact absurd hip (h.ip (Or.inl htype))
      | some i => exact ⟨_, rfl⟩
    | device =>
      cases hip : (s.file k).ip with
      | none => exact absurd hip (h.ip (Or.inr htype))
      | some i => exact ⟨_, rfl⟩

end Xv6.Vm
