import Xv6.Vm.AddressSpace

/-!
# What write-back writes

The running file offset of `uvmunmap_vma` moves only when bytes are written.
So the loop writes the dirty pages one after the other from the offset of the
first page of the range on, cut at the size of the file, whatever lies between
them. That is the right place for a page only while no clean or absent page
has come before it inside the file.
-/

namespace Xv6.Vm

open Framework

/-! ## Bytes of a file -/

variable {off : ℕ}

namespace Inode

theorem setBytes_nil (ip : Inode) (off : ℕ) : ip.setBytes off [] = ip := by
  unfold setBytes
  congr
  funext k
  simp

theorem byte_setBytes (ip : Inode) (off : ℕ) (bs : List UInt8) (k : ℕ) :
    (ip.setBytes off bs).byte k =
      if off ≤ k then (bs[k - off]?).getD (ip.byte k) else ip.byte k := rfl

theorem setBytes_append (ip : Inode) (off : ℕ) (as bs : List UInt8) :
    ip.setBytes off (as ++ bs) =
      (ip.setBytes off as).setBytes (off + as.length) bs := by
  unfold setBytes
  congr
  funext k
  simp only
  by_cases hlo : off ≤ k
  · by_cases hhi : off + as.length ≤ k
    · rw [if_pos hlo, if_pos hhi, List.getElem?_append_right (by omega),
        if_pos hlo, List.getElem?_eq_none (l := as) (by omega),
        Nat.sub_add_eq]
      rfl
    · rw [if_pos hlo, if_neg hhi, List.getElem?_append_left (by omega),
        if_pos hlo]
  · rw [if_neg hlo, if_neg (by omega), if_neg hlo]

theorem grow_of_le (ip : Inode) (h : off ≤ ip.size) : ip.grow off = ip := by
  unfold grow
  rw [dif_neg]
  omega

end Inode

theorem State.setInode_setInode (s : State) (i : InodeId) (ip ip' : Inode) :
    (s.setInode i ip).setInode i ip' = s.setInode i ip' := by
  unfold State.setInode
  simp

@[simp] theorem State.inode_setInode (s : State) (i : InodeId) (ip : Inode) :
    (s.setInode i ip).inode i = ip := by
  simp [State.setInode]

theorem State.setInode_self (s : State) (i : InodeId) :
    s.setInode i (s.inode i) = s := by
  unfold State.setInode
  simp

variable {n : ℕ}

/-- The bytes of a page in two pieces. -/
theorem pageBytes_split (km : Kmem) (f : Frame) {va m : ℕ} (hm : m < n)
    (hfit : va % PGSIZE + n ≤ PGSIZE) :
    pageBytes km f va n =
      pageBytes km f va m ++ pageBytes km f (va + m) (n - m) := by
  have hoff : (va + m) % PGSIZE = va % PGSIZE + m := by
    unfold PGSIZE at *
    omega
  unfold pageBytes
  rw [show n = m + (n - m) by omega, List.range_add, List.map_append,
    List.map_map, Nat.add_sub_cancel_left, hoff]
  congr 1
  apply List.map_congr_left
  intro i _
  simp only [Function.comp_apply]
  congr 1
  omega

/-! ## `writei` inside the file -/

variable {s : State} {i : InodeId}

theorem bmap_of_lt (h : off < (s.inode i).size) :
    bmap s i (off / BSIZE) = .ok (s, true) := by
  have hblock : off / BSIZE < (s.inode i).blocks := by
    have := (s.inode i).size_le
    apply Nat.div_lt_of_lt_mul
    rw [Nat.mul_comm]
    omega
  rw [bmap, dif_pos hblock]

variable {l : Leaf}

theorem writeiLoop_user (hu : l.perm.u = true) :
    ∀ (rem : ℕ) {s : State} {src off : ℕ}, src < MAXVA →
    s.p.pagetable.leaf src = some l → src % PGSIZE + rem ≤ PGSIZE →
    off + rem ≤ (s.inode i).size →
    writeiLoop s i src off rem = .ok
      (s.setInode i ((s.inode i).setBytes off
        (pageBytes s.kmem l.frame src rem)), rem) := by
  intro rem
  induction rem using Nat.strong_induction_on with
  | _ rem ih =>
    intro s src off hva hleaf hfit hsize
    rw [writeiLoop]
    split
    · rename_i hrem
      subst hrem
      rw [show pageBytes s.kmem l.frame src 0 = [] from rfl,
        Inode.setBytes_nil, State.setInode_self]
    · rename_i hrem
      have hblock := Nat.mod_lt off (show 0 < BSIZE by decide)
      have hm : min rem (BSIZE - off % BSIZE) ≠ 0 := by omega
      simp only [bmap_of_lt (show off < (s.inode i).size by omega),
        copyin_of_user hva hleaf hu
          (show src % PGSIZE + min rem (BSIZE - off % BSIZE) ≤ PGSIZE by
            omega) hm]
      rcases Nat.lt_or_ge (min rem (BSIZE - off % BSIZE)) rem with hlt | hge
      · obtain ⟨hwrap, hva', hpage, hoff⟩ := page_rest hva hlt hfit
        rw [hwrap]
        have hrest := @ih (rem - min rem (BSIZE - off % BSIZE)) (by omega)
          (s.setInode i ((s.inode i).setBytes off (pageBytes s.kmem
            l.frame src (min rem (BSIZE - off % BSIZE)))))
          (src + min rem (BSIZE - off % BSIZE))
          (off + min rem (BSIZE - off % BSIZE))
          hva' (by rw [← hleaf]; exact PageTable.leaf_congr _ hpage)
          (by omega)
          (by
            rw [State.inode_setInode]
            show _ ≤ (s.inode i).size
            omega)
        rw [hrest]
        show Except.ok (_, min rem (BSIZE - off % BSIZE) + _) = _
        rw [State.setInode_setInode, State.inode_setInode,
          pageBytes_split s.kmem l.frame hlt hfit, Inode.setBytes_append,
          length_pageBytes]
        congr 2
        omega
      · rw [Nat.sub_eq_zero_of_le hge, writeiLoop, if_pos rfl]
        show Except.ok (_, min rem (BSIZE - off % BSIZE) + 0) = _
        rw [show min rem (BSIZE - off % BSIZE) = rem by omega]
        rfl

theorem Inode.size_le_max (ip : Inode) : ip.size ≤ MAXFILE * BSIZE :=
  Nat.le_trans ip.size_le (Nat.mul_le_mul_right _ ip.blocks_le)

theorem writei_user {src : ℕ} (hu : l.perm.u = true) (hva : src < MAXVA)
    (hleaf : s.p.pagetable.leaf src = some l) (hfit : src % PGSIZE + n ≤ PGSIZE)
    (hsize : off + n ≤ (s.inode i).size) :
    writei s i src off n = .ok
      (s.setInode i ((s.inode i).setBytes off
        (pageBytes s.kmem l.frame src n)), n) := by
  have hsmall := (s.inode i).size_lt
  have hmax := (s.inode i).size_le_max
  have hmod : (off + n) % 2 ^ 32 = off + n := by
    apply Nat.mod_eq_of_lt
    omega
  rw [writei, hmod, if_neg (by omega), if_neg (by omega),
    writeiLoop_user hu n hva hleaf hfit hsize]
  have hgrow : ∀ bs, ((s.inode i).setBytes off bs).grow (off + n) =
      (s.inode i).setBytes off bs := fun bs => Inode.grow_of_le _ hsize
  show Except.ok (_, (n : ℤ)) = _
  rw [State.inode_setInode, hgrow, State.setInode_setInode]

theorem writei_beyond {src : ℕ} (h : (s.inode i).size < off) :
    writei s i src off n = .ok (s, -1) := by
  rw [writei, if_pos (Or.inl h)]

/-! ## One page -/

theorem ilock_some (h : 0 < (s.inode i).ref) : ilock s (some i) = .ok i := by
  rw [ilock, if_neg (by omega)]

variable {k : FileId}

theorem writeBackPage_user (hu : l.perm.u = true) :
    ∀ (rem : ℕ) {s : State} {addr offset : ℕ},
    (s.file k).ip = some i → 0 < (s.inode i).ref → addr < MAXVA →
    s.p.pagetable.leaf addr = some l → addr % PGSIZE + rem ≤ PGSIZE →
    offset + rem ≤ (s.inode i).size →
    writeBackPage s k addr offset rem = .ok
      (s.setInode i ((s.inode i).setBytes offset
        (pageBytes s.kmem l.frame addr rem)), offset + rem, true) := by
  intro rem
  induction rem using Nat.strong_induction_on with
  | _ rem ih =>
    intro s addr offset hip href hva hleaf hfit hsize
    have hmax : 0 < writeBackMax := by decide
    have hsmall := (s.inode i).size_lt
    rw [writeBackPage]
    split
    · rename_i hrem
      subst hrem
      rw [show pageBytes s.kmem l.frame addr 0 = [] from rfl,
        Inode.setBytes_nil, State.setInode_self]
      rfl
    · rename_i hrem
      have hr : (0 : ℤ) < (min rem writeBackMax : ℕ) := by omega
      have hoff : toUint32 (offset + (min rem writeBackMax : ℕ)) =
          offset + min rem writeBackMax := by
        unfold toUint32
        omega
      simp only [hip, ilock_some href, writei_user hu hva hleaf
        (show addr % PGSIZE + min rem writeBackMax ≤ PGSIZE by omega)
        (show offset + min rem writeBackMax ≤ (s.inode i).size by omega),
        hr, if_true, hoff, ne_eq, not_true_eq_false, if_false]
      rcases Nat.lt_or_ge (min rem writeBackMax) rem with hlt | hge
      · obtain ⟨-, hva', hpage, -⟩ := page_rest hva hlt hfit
        have hrest := @ih (rem - min rem writeBackMax) (by omega)
          (s.setInode i ((s.inode i).setBytes offset (pageBytes s.kmem
            l.frame addr (min rem writeBackMax))))
          (addr + min rem writeBackMax) (offset + min rem writeBackMax)
          hip (by rw [State.inode_setInode]; exact href) hva'
          (by rw [← hleaf]; exact PageTable.leaf_congr _ hpage)
          (by unfold PGSIZE at *; omega)
          (by
            rw [State.inode_setInode]
            show _ ≤ (s.inode i).size
            omega)
        rw [hrest, State.setInode_setInode, State.inode_setInode,
          pageBytes_split s.kmem l.frame hlt hfit, Inode.setBytes_append,
          length_pageBytes]
        congr 3
        omega
      · rw [Nat.sub_eq_zero_of_le hge, writeBackPage, if_pos rfl,
          show min rem writeBackMax = rem by omega]

variable {addr offset : ℕ}

theorem writeBackPage_beyond {rem : ℕ} (hip : (s.file k).ip = some i)
    (href : 0 < (s.inode i).ref) (hrem : rem ≠ 0)
    (h : (s.inode i).size < offset) :
    writeBackPage s k addr offset rem = .ok (s, offset, false) := by
  have hne : (-1 : ℤ) ≠ (min rem writeBackMax : ℕ) := by omega
  rw [writeBackPage, if_neg hrem]
  simp only [hip, ilock_some href, writei_beyond h]
  rw [if_pos hne, if_neg (by decide)]

/-! ## The loop over the pages -/

/-- What the loop takes from one page. -/
def dirtyPage (km : Kmem) (pt : PageTable) (a : ℕ) : List UInt8 :=
  match pt.leaf a with
  | some l => if l.perm.d then pageBytes km l.frame a PGSIZE else []
  | none => []

/-- The bytes of the dirty pages, one after the other. -/
def dirtyBytes (km : Kmem) (pt : PageTable) : ℕ → ℕ → List UInt8
  | 0, _ => []
  | n + 1, a => dirtyPage km pt a ++ dirtyBytes km pt n (a + PGSIZE)

variable {pt : PageTable}

theorem dirtyPage_of_not {km : Kmem} {a : ℕ} (h : ¬ Dirty pt a) :
    dirtyPage km pt a = [] := by
  unfold dirtyPage
  split
  · rename_i l hl
    rw [if_neg]
    exact fun hd => h ⟨l, hl, hd⟩
  · rfl

theorem dirtyPage_of_leaf {km : Kmem} {a : ℕ} (hl : pt.leaf a = some l)
    (hd : l.perm.d = true) :
    dirtyPage km pt a = pageBytes km l.frame a PGSIZE := by
  simp [dirtyPage, hl, hd]

theorem take_pageBytes (km : Kmem) (f : Frame) (va : ℕ) {m : ℕ} (h : n ≤ m) :
    (pageBytes km f va m).take n = pageBytes km f va n := by
  unfold pageBytes
  rw [← List.map_take, List.take_range, Nat.min_eq_left h]

variable {pages : ℕ}

/-- A page that is not dirty is passed over, and the offset stays. -/
theorem writeBackLoop_skip (hva : addr < MAXVA) (h : ¬ Dirty s.p.pagetable addr) :
    writeBackLoop k (pages + 1) addr offset s =
      writeBackLoop k pages (addr + PGSIZE) offset s := by
  rw [writeBackLoop, walk, if_pos hva]
  cases hl : s.p.pagetable.leaf addr with
  | none =>
    rw [PageTable.leaf_eq_join] at hl
    simp only [bind, Except.bind, hl]
  | some l =>
    have hd : l.perm.d = false := by
      cases hd : l.perm.d with
      | false => rfl
      | true => exact absurd ⟨l, hl, hd⟩ h
    rw [PageTable.leaf_eq_join] at hl
    simp only [bind, Except.bind, hl, hd, if_true]

/-- A dirty page, up to what the chunk loop makes of it. -/
theorem writeBackLoop_dirty (hva : addr < MAXVA)
    (hl : s.p.pagetable.leaf addr = some l) (hd : l.perm.d = true)
    (hip : (s.file k).ip = some i) :
    writeBackLoop k (pages + 1) addr offset s =
      if toInt32 ((s.inode i).size - offset) < 0 then .ok (s, true)
      else
        writeBackPage s k addr offset
          (min (toInt32 ((s.inode i).size - offset)).toNat PGSIZE) >>= fun r =>
          if r.2.2 then writeBackLoop k pages (addr + PGSIZE) r.2.1 r.1
          else .ok (r.1, false) := by
  rw [PageTable.leaf_eq_join] at hl
  rw [writeBackLoop, walk, if_pos hva]
  simp only [bind, Except.bind, hl, hd, Bool.true_eq_false, if_false, fileSize,
    hip]

section Loop

variable {k : FileId} {i : InodeId}

/-- The dirty pages of the range are the user's. -/
def DirtyUser (pt : PageTable) (pages addr : ℕ) : Prop :=
  ∀ n < pages, ∀ l, pt.leaf (addr + n * PGSIZE) = some l →
    l.perm.d = true → l.perm.u = true

theorem DirtyUser.tail (h : DirtyUser pt (pages + 1) addr) :
    DirtyUser pt pages (addr + PGSIZE) := by
  intro n hn l hl hd
  refine h (n + 1) (Nat.succ_lt_succ hn) l ?_ hd
  rw [← hl, Nat.succ_mul]
  congr 1
  omega

/-- **The loop writes the dirty pages one after the other**, from its first
offset on, up to the end of the file. -/
theorem writeBackLoop_inside : ∀ {pages addr offset : ℕ} {s : State},
    (s.file k).ip = some i → 0 < (s.inode i).ref → addr % PGSIZE = 0 →
    addr + pages * PGSIZE ≤ MAXVA →
    DirtyUser s.p.pagetable pages addr → offset ≤ (s.inode i).size →
    writeBackLoop k pages addr offset s = .ok
      (s.setInode i ((s.inode i).setBytes offset
        ((dirtyBytes s.kmem s.p.pagetable pages addr).take
          ((s.inode i).size - offset))), true)
  | 0, _, offset, s, _, _, _, _, _, _ => by
    rw [writeBackLoop, dirtyBytes, List.take_nil, Inode.setBytes_nil,
      State.setInode_self]
  | pages + 1, addr, offset, s, hip, href, haddr, hb, hu, hoff => by
    rw [Nat.succ_mul] at hb
    have hva : addr < MAXVA := by
      unfold PGSIZE at hb
      omega
    have hnext : (addr + PGSIZE) % PGSIZE = 0 := by simpa using haddr
    by_cases hdirty : Dirty s.p.pagetable addr
    · obtain ⟨l, hl, hd⟩ := hdirty
      have hlu := hu 0 (Nat.succ_pos _) l (by simpa using hl) hd
      have hsize : toInt32 ((s.inode i).size - offset) =
          ((s.inode i).size - offset : ℕ) := by
        have := (s.inode i).size_lt
        unfold toInt32
        split <;> omega
      rw [writeBackLoop_dirty hva hl hd hip, hsize, if_neg (by omega),
        Int.toNat_natCast, writeBackPage_user hlu _ hip href hva hl
          (by rw [haddr]; omega) (by omega)]
      show writeBackLoop k pages (addr + PGSIZE) _ _ = _
      -- the page gave `n` bytes, the rest of the loop gives the rest
      generalize hn : min ((s.inode i).size - offset) PGSIZE = n
      have hrest := @writeBackLoop_inside pages (addr + PGSIZE) (offset + n)
        (s.setInode i ((s.inode i).setBytes offset
          (pageBytes s.kmem l.frame addr n)))
        hip (by rw [State.inode_setInode]; exact href) hnext (by omega)
        hu.tail (by
          rw [State.inode_setInode]
          show _ ≤ (s.inode i).size
          omega)
      rw [hrest, State.setInode_setInode, State.inode_setInode]
      have hsplit : (dirtyBytes s.kmem s.p.pagetable (pages + 1) addr).take
          ((s.inode i).size - offset) = pageBytes s.kmem l.frame addr n ++
            (dirtyBytes s.kmem s.p.pagetable pages (addr + PGSIZE)).take
              ((s.inode i).size - (offset + n)) := by
        have hpage : (pageBytes s.kmem l.frame addr PGSIZE).take
            ((s.inode i).size - offset) = pageBytes s.kmem l.frame addr n := by
          rw [← hn]
          rcases Nat.le_total ((s.inode i).size - offset) PGSIZE with hle | hle
          · rw [Nat.min_eq_left hle, take_pageBytes _ _ _ hle]
          · rw [Nat.min_eq_right hle, List.take_of_length_le (by simpa)]
        have hcut : (s.inode i).size - offset - PGSIZE =
            (s.inode i).size - (offset + n) := by
          omega
        rw [dirtyBytes, dirtyPage_of_leaf hl hd, List.take_append,
          length_pageBytes, hpage, hcut]
      rw [hsplit, Inode.setBytes_append, length_pageBytes]
      rfl
    · rw [writeBackLoop_skip hva hdirty, writeBackLoop_inside hip href hnext
        (by omega) hu.tail hoff, dirtyBytes, dirtyPage_of_not hdirty,
        List.nil_append]

/-- Without dirty pages there is nothing to do. -/
theorem writeBackLoop_clean : ∀ {pages addr offset : ℕ} {s : State},
    addr + pages * PGSIZE ≤ MAXVA →
    (∀ n < pages, ¬ Dirty s.p.pagetable (addr + n * PGSIZE)) →
    writeBackLoop k pages addr offset s = .ok (s, true)
  | 0, _, _, _, _, _ => rfl
  | pages + 1, addr, offset, s, hb, h => by
    rw [Nat.succ_mul] at hb
    have hva : addr < MAXVA := by
      unfold PGSIZE at hb
      omega
    rw [writeBackLoop_skip hva (by simpa using h 0 (Nat.succ_pos _))]
    apply writeBackLoop_clean (by omega)
    intro n hn
    rw [show addr + PGSIZE + n * PGSIZE = addr + (n + 1) * PGSIZE by
      rw [Nat.succ_mul]; omega]
    exact h (n + 1) (Nat.succ_lt_succ hn)

/-- Past the end of the file the first dirty page stops the loop. -/
theorem writeBackLoop_past : ∀ {pages addr offset : ℕ} {s : State},
    (s.file k).ip = some i → addr + pages * PGSIZE ≤ MAXVA →
    (s.inode i).size < offset → offset ≤ (s.inode i).size + 2 ^ 31 →
    writeBackLoop k pages addr offset s = .ok (s, true)
  | 0, _, _, _, _, _, _, _ => rfl
  | pages + 1, addr, offset, s, hip, hb, hlo, hhi => by
    rw [Nat.succ_mul] at hb
    have hva : addr < MAXVA := by
      unfold PGSIZE at hb
      omega
    by_cases hdirty : Dirty s.p.pagetable addr
    · obtain ⟨l, hl, hd⟩ := hdirty
      have hneg : toInt32 ((s.inode i).size - offset) < 0 := by
        unfold toInt32
        split <;> omega
      rw [writeBackLoop_dirty hva hl hd hip, if_pos hneg]
    · rw [writeBackLoop_skip hva hdirty]
      exact writeBackLoop_past hip (by omega) hlo hhi

/-- An offset that wrapped below zero makes the first dirty page fail. -/
theorem writeBackLoop_wrapped : ∀ {pages addr offset : ℕ} {s : State},
    (s.file k).ip = some i → 0 < (s.inode i).ref →
    addr + pages * PGSIZE ≤ MAXVA →
    (s.inode i).size + 2 ^ 31 < offset → offset < 2 ^ 32 →
    (∃ n < pages, Dirty s.p.pagetable (addr + n * PGSIZE)) →
    writeBackLoop k pages addr offset s = .ok (s, false)
  | 0, _, _, _, _, _, _, _, _, h => by
    obtain ⟨n, hn, -⟩ := h
    cases hn
  | pages + 1, addr, offset, s, hip, href, hb, hlo, hhi, h => by
    rw [Nat.succ_mul] at hb
    have hva : addr < MAXVA := by
      unfold PGSIZE at hb
      omega
    by_cases hdirty : Dirty s.p.pagetable addr
    · obtain ⟨l, hl, hd⟩ := hdirty
      have hpos : 0 < toInt32 ((s.inode i).size - offset) := by
        unfold toInt32
        split <;> omega
      have hrem : min (toInt32 ((s.inode i).size - offset)).toNat PGSIZE ≠
          0 := by
        unfold PGSIZE
        omega
      rw [writeBackLoop_dirty hva hl hd hip, if_neg (by omega),
        writeBackPage_beyond hip href hrem (by omega)]
      rfl
    · rw [writeBackLoop_skip hva hdirty]
      refine writeBackLoop_wrapped hip href (by omega) hlo hhi ?_
      obtain ⟨n, hn, hd⟩ := h
      cases n with
      | zero => exact absurd (by simpa using hd) hdirty
      | succ n =>
        refine ⟨n, Nat.lt_of_succ_lt_succ hn, ?_⟩
        rwa [show addr + PGSIZE + n * PGSIZE = addr + (n + 1) * PGSIZE by
          rw [Nat.succ_mul]; omega]

end Loop

end Xv6.Vm
