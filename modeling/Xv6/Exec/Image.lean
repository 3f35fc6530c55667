import Xv6.Exec.Kexec

/-!
# The image that `exec` builds

An address space under construction has every page below its size and none
above, each in a frame of its own, so its size is bounded by the memory of the
machine, whatever sizes the file asks for. A store through the page table is a
store to the image, seen as a flat map from addresses to bytes.
-/

namespace Xv6.Exec

open Framework Vm

variable {pool rest : Multiset Frame} {km km' : Kmem} {pt pt' : PageTable}

/-! ## The bytes of an image -/

/-- The byte at a user address. -/
def imageByte (km : Kmem) (pt : PageTable) (va : ℕ) : Option UInt8 :=
  (pt.leaf va).map fun l => km.mem (l.frame.pa + va % PGSIZE)

/-- Different user pages are in different frames. -/
def Distinct (pt : PageTable) : Prop :=
  ∀ va < TRAPFRAME, ∀ vb < TRAPFRAME, ∀ l l', pt.leaf va = some l →
    pt.leaf vb = some l' → l.frame = l'.frame →
    pgrounddown va = pgrounddown vb

theorem distinct_of_accounts (h : Ledger pool km (pt.owned + rest)) :
    Distinct pt := fun _ hva _ hvb _ _ hl hl' heq =>
  distinct_of_ledger h hva hvb hl hl' heq

variable {va : ℕ}

theorem imageByte_congr (hleaf : pt'.leaf va = pt.leaf va)
    (hsame : ∀ l, pt.leaf va = some l → km.SameIn km' l.frame) :
    imageByte km' pt' va = imageByte km pt va := by
  rw [imageByte, imageByte, hleaf]
  cases hl : pt.leaf va with
  | none => rfl
  | some l =>
    exact congrArg some (hsame l hl _ (Nat.mod_lt _ (by decide)))

/-- The bytes `src 0`, ..., `src (n - 1)` were stored from `lo` on, and
nothing else was. -/
structure Stored (pt : PageTable) (lo n : ℕ) (src : ℕ → UInt8)
    (km km' : Kmem) : Prop where
  freelist : km'.freelist = km.freelist
  same : ∀ f ∉ pt.pages, km.SameIn km' f
  bytes : ∀ va < TRAPFRAME, imageByte km' pt va =
    if lo ≤ va ∧ va < lo + n then some (src (va - lo))
    else imageByte km pt va

theorem Stored.refl (pt : PageTable) (lo : ℕ) (src : ℕ → UInt8)
    (km : Kmem) : Stored pt lo 0 src km km where
  freelist := rfl
  same := fun _ _ _ _ => rfl
  bytes := fun va _ => by rw [if_neg (by omega)]

variable {n : ℕ}

theorem Stored.append {lo m : ℕ} {src : ℕ → UInt8} {km₁ : Kmem}
    (h : Stored pt lo n src km km₁)
    (h' : Stored pt (lo + n) m (fun k => src (n + k)) km₁ km') :
    Stored pt lo (n + m) src km km' where
  freelist := h'.freelist.trans h.freelist
  same := fun f hf => (h.same f hf).trans (h'.same f hf)
  bytes := by
    intro va hva
    rw [h'.bytes va hva, h.bytes va hva]
    by_cases htail : lo + n ≤ va ∧ va < lo + n + m
    · rw [if_pos htail, if_pos (by omega)]
      congr 2
      omega
    · rw [if_neg htail]
      by_cases hhead : lo ≤ va ∧ va < lo + n
      · rw [if_pos hhead, if_pos (by omega)]
      · rw [if_neg hhead, if_neg (by omega)]

/-- **A store inside a page is a store to the image.** -/
theorem stored_memmove (hd : Distinct pt) {va n : ℕ} {l : Leaf}
    (src : ℕ → UInt8) (km : Kmem) (hva : va < TRAPFRAME)
    (hl : pt.leaf va = some l) (hn : va % PGSIZE + n ≤ PGSIZE) :
    Stored pt va n src km
      (km.memmove (l.frame.pa + va % PGSIZE) src n) where
  freelist := rfl
  same := by
    intro f hf i hi
    have hne : l.frame ≠ f := by
      rintro rfl
      exact hf (PageTable.mem_pages hva hl)
    refine if_neg ?_
    rintro ⟨hlo, hhi⟩
    exact Frame.add_ne hne hi (f.pa + i) ⟨by omega, by omega⟩ rfl
  bytes := by
    intro vb hvb
    by_cases hpage : pgrounddown vb = pgrounddown va
    · have hl' : pt.leaf vb = some l := by
        rw [← pt.leaf_pgrounddown, hpage, pt.leaf_pgrounddown, hl]
      rw [imageByte, imageByte, hl', Option.map_some, Option.map_some]
      -- the same page: only the offsets count
      have hiff : (l.frame.pa + va % PGSIZE ≤ l.frame.pa + vb % PGSIZE ∧
          l.frame.pa + vb % PGSIZE < l.frame.pa + va % PGSIZE + n) ↔
          (va ≤ vb ∧ vb < va + n) := by
        unfold pgrounddown PGSIZE at *
        omega
      by_cases hin : va ≤ vb ∧ vb < va + n
      · rw [if_pos hin]
        refine congrArg some ((if_pos (hiff.mpr hin)).trans ?_)
        congr 1
        unfold pgrounddown PGSIZE at *
        omega
      · rw [if_neg hin]
        exact congrArg some (if_neg fun hr => hin (hiff.mp hr))
    · have hout : ¬ (va ≤ vb ∧ vb < va + n) := by
        unfold pgrounddown PGSIZE at *
        omega
      rw [if_neg hout]
      refine imageByte_congr rfl ?_
      intro l' hl' i hi
      have hne : l.frame ≠ l'.frame := fun heq =>
        hpage (hd vb hvb va hva l' l hl' hl heq.symm)
      refine if_neg ?_
      rintro ⟨hlo, hhi⟩
      exact Frame.add_ne hne hi (l'.frame.pa + i) ⟨by omega, by omega⟩ rfl

/-! ## How much memory there is -/

/-- The 128 MB of RAM. -/
def RAM : ℕ := PHYSTOP - KERNBASE

theorem RAM_lt_TRAPFRAME : RAM + 2 * PGSIZE < TRAPFRAME := by decide

/-- There are no more pages than frames. -/
theorem pages_le_RAM (h : Ledger pool km (pt.owned + rest))
    (hn : n * PGSIZE ≤ TRAPFRAME)
    (hmapped : ∀ k < n, ∃ l, pt.leaf (k * PGSIZE) = some l) :
    n * PGSIZE ≤ RAM := by
  have hpage : ∀ k : Fin n, ∃ l, pt.leaf (k.val * PGSIZE) = some l :=
    fun k => hmapped k.val k.isLt
  choose l hl using hpage
  have hinj : Function.Injective fun k => (l k).frame := by
    intro j k heq
    have hlt : ∀ k : Fin n, k.val * PGSIZE < TRAPFRAME := by
      intro k
      have := Nat.mul_lt_mul_of_pos_right k.isLt (show 0 < PGSIZE by decide)
      omega
    have hround := distinct_of_ledger h (hlt j) (hlt k) (hl j) (hl k) heq
    rw [pgrounddown_of_mod (Nat.mul_mod_left ..),
      pgrounddown_of_mod (Nat.mul_mod_left ..)] at hround
    exact Fin.ext (Nat.eq_of_mul_eq_mul_right (by decide) hround)
  have hcard := Fintype.card_le_of_injective _ hinj
  rw [Fintype.card_fin, Fintype.card_fin] at hcard
  unfold RAM PHYSTOP PGSIZE
  omega

/-! ## Growing to any size -/

variable {perm : Perm}

/-- Once memory has run out, more rounds make no difference. -/
theorem uvmallocLoop_more {lo : ℕ} (m n : ℕ) : ∀ {a : ℕ}
    {km : Kmem} {pt : PageTable},
    uvmallocLoop lo perm n a km pt = .ok (km', pt', false) →
    uvmallocLoop lo perm (n + m) a km pt = .ok (km', pt', false) := by
  induction n with
  | zero =>
    intro a km pt h
    cases h
  | succ n ih =>
    intro a km pt h
    rw [Nat.succ_add]
    unfold uvmallocLoop at h ⊢
    cases halloc : kalloc km with
    | none =>
      rw [halloc] at h
      exact h
    | some fk =>
      obtain ⟨f, km₁⟩ := fk
      simp only [halloc] at h ⊢
      obtain ⟨⟨km₂, pt₂, mapped⟩, hmap, h⟩ := bind_ok_iff.mp h
      refine bind_ok_iff.mpr ⟨_, hmap, ?_⟩
      cases mapped with
      | true => exact ih h
      | false => exact h

/-- An address space under construction. -/
structure Image (pool rest : Multiset Frame) (km : Kmem) (pt : PageTable)
    (sz : ℕ) : Prop where
  ledger : Ledger pool km (pt.owned + rest)
  below : Below pt sz
  mapped : ∀ va < pgroundup sz, ∃ l, pt.leaf va = some l
  trap : pt.leaf TRAPFRAME ≠ none
  sz_le : sz ≤ RAM

variable {newsz : ℕ}

namespace Image

variable {sz : ℕ}

theorem sz_le_TRAPFRAME (h : Image pool rest km pt sz) : sz ≤ TRAPFRAME := by
  have := h.sz_le
  have := RAM_lt_TRAPFRAME
  omega

theorem pgroundup_le (h : Image pool rest km pt sz) : pgroundup sz ≤ RAM :=
  (pgroundup_le_iff (Nat.lt_of_le_of_lt h.sz_le (by decide))
    (by decide)).mpr h.sz_le

theorem distinct (h : Image pool rest km pt sz) : Distinct pt :=
  distinct_of_accounts h.ledger

/-- A frame in use elsewhere holds no page of the image. -/
theorem rest_not_page (h : Image pool rest km pt sz) {f : Frame}
    (hf : f ∈ rest) : f ∉ pt.pages := by
  have hnodup := h.ledger.used_nodup
  rw [Multiset.nodup_add] at hnodup
  intro hpage
  exact Multiset.disjoint_left.mp hnodup.2.2
    (Multiset.mem_add.mpr (Or.inr hpage)) hf

/-- Only the pages of the image were written. -/
theorem congr (h : Image pool rest km pt sz)
    (hlist : km'.freelist = km.freelist) : Image pool rest km' pt sz :=
  ⟨h.ledger.congr hlist, h.below, h.mapped, h.trap, h.sz_le⟩

/-- Only pages of the page table were added. -/
theorem undone (h : Image pool rest km pt sz)
    (hled : Ledger pool km' (pt'.owned + rest))
    (hleaf : ∀ va < MAXVA, pt'.leaf va = pt.leaf va) :
    Image pool rest km' pt' sz where
  ledger := hled
  below := fun va hva hle => by
    rw [hleaf va (Nat.lt_trans hva TRAPFRAME_lt_MAXVA)]
    exact h.below va hva hle
  mapped := fun va hva => by
    have := h.pgroundup_le
    have hmax : va < MAXVA := Nat.lt_trans hva
      (Nat.lt_of_le_of_lt this (by decide))
    rw [hleaf va hmax]
    exact h.mapped va hva
  trap := by
    rw [hleaf _ TRAPFRAME_lt_MAXVA]
    exact h.trap
  sz_le := h.sz_le

/-- The address space grew. -/
theorem grown (h : Image pool rest km pt sz) (hlt : sz < newsz)
    (hnew : newsz ≤ TRAPFRAME) (hled : Ledger pool km' (pt'.owned + rest))
    (hdone : AllocDone (pgroundup sz) (pgroundup newsz) perm km pt km' pt') :
    Image pool rest km' pt' newsz := by
  have hup := pgroundup_le_TRAPFRAME hnew
  have hmapped : ∀ va < pgroundup newsz, ∃ l, pt'.leaf va = some l := by
    intro va hva
    rcases Nat.lt_or_ge va (pgroundup sz) with hlow | hhigh
    · have hmax : va < MAXVA := Nat.lt_of_lt_of_le hva
        (Nat.le_trans hup (Nat.le_of_lt TRAPFRAME_lt_MAXVA))
      rw [hdone.other va hmax (by omega)]
      exact h.mapped va hlow
    · obtain ⟨f, hf⟩ := hdone.fresh va hhigh hva
      exact ⟨_, hf.leaf⟩
  refine ⟨hled, ?_, hmapped, ?_, ?_⟩
  · intro va hva hle
    have hmono := pgroundup_mono hnew (Nat.le_of_lt hlt)
    rw [hdone.other va (Nat.lt_trans hva TRAPFRAME_lt_MAXVA) (by omega)]
    exact h.below va hva (by omega)
  · rw [hdone.other _ TRAPFRAME_lt_MAXVA (by omega)]
    exact h.trap
  · have hspan : pgroundup newsz / PGSIZE * PGSIZE = pgroundup newsz :=
      Nat.div_mul_cancel (Nat.dvd_of_mod_eq_zero (pgroundup_mod newsz))
    have hbound := pages_le_RAM hled (hspan.symm ▸ hup) (by
      intro k hk
      apply hmapped
      rw [← hspan]
      exact Nat.mul_lt_mul_of_pos_right hk (by decide))
    rw [hspan] at hbound
    exact Nat.le_trans
      (le_pgroundup (Nat.lt_of_le_of_lt hnew (by decide))) hbound

/-- **Growth to any size is all or nothing.** -/
theorem uvmalloc (h : Image pool rest km pt sz) (perm : Perm) (hlt : sz < newsz) :
    ∃ km' pt' r,
    uvmalloc km pt sz newsz perm = .ok (km', pt', r) ∧
      (∀ f ∈ pt.owned + rest, km.SameIn km' f) ∧
      ((r = newsz ∧ AllocDone (pgroundup sz) (pgroundup newsz) perm
          km pt km' pt' ∧ Image pool rest km' pt' newsz) ∨
        (r = 0 ∧ Image pool rest km' pt' sz ∧
          ∀ va < MAXVA, pt'.leaf va = pt.leaf va)) := by
  have hempty : ∀ {hi : ℕ}, hi ≤ TRAPFRAME → ∀ va, pgroundup sz ≤ va →
      va < pgroundup hi → pt.leaf va = none := by
    intro hi hle va hlo hva
    have := pgroundup_le_TRAPFRAME hle
    exact h.below va (by omega) hlo
  rcases Nat.lt_or_ge TRAPFRAME newsz with hhuge | hnew
  · -- the loop runs out of memory long before it gets to the trap pages
    have hsz : sz < TRAPFRAME := by
      have := h.sz_le
      have := RAM_lt_TRAPFRAME
      omega
    obtain ⟨km', pt', r, hcall, hsame, hcases, hled⟩ :=
      uvmalloc_done_or_undone h.ledger perm hsz (Nat.le_refl _)
        (hempty (Nat.le_refl _))
    refine ⟨km', pt', 0, ?_, hsame, ?_⟩
    · rcases hcases with ⟨-, hdone⟩ | ⟨rfl, -⟩
      · have := (h.grown hsz (Nat.le_refl _) hled hdone).sz_le
        have := RAM_lt_TRAPFRAME
        omega
      · rw [Vm.uvmalloc, if_neg (by omega)] at hcall ⊢
        obtain ⟨⟨km₁, pt₁, done⟩, hloop, hret⟩ := bind_ok_iff.mp hcall
        cases done with
        | true => cases hret
        | false =>
          cases hret
          obtain ⟨m, hm⟩ := Nat.exists_eq_add_of_le
            (show (TRAPFRAME - pgroundup sz + PGSIZE - 1) / PGSIZE ≤
              (newsz - pgroundup sz + PGSIZE - 1) / PGSIZE from
                Nat.div_le_div_right (by omega))
          refine bind_ok_iff.mpr ⟨(km', pt', false), ?_, rfl⟩
          rw [hm]
          exact uvmallocLoop_more m _ hloop
    · rcases hcases with ⟨-, hdone⟩ | ⟨-, hundone⟩
      · have := (h.grown hsz (Nat.le_refl _) hled hdone).sz_le
        have := RAM_lt_TRAPFRAME
        omega
      · exact Or.inr ⟨rfl, h.undone hled hundone.leaf, hundone.leaf⟩
  · obtain ⟨km', pt', r, hcall, hsame, hcases, hled⟩ :=
      uvmalloc_done_or_undone h.ledger perm hlt hnew (hempty hnew)
    refine ⟨km', pt', r, hcall, hsame, ?_⟩
    rcases hcases with ⟨rfl, hdone⟩ | ⟨rfl, hundone⟩
    · exact Or.inl ⟨rfl, hdone, h.grown hlt hnew hled hdone⟩
    · exact Or.inr ⟨rfl, h.undone hled hundone.leaf, hundone.leaf⟩

end Image

variable {sz : ℕ}

/-- A size that is reached already. -/
theorem uvmalloc_of_le (perm : Perm) (hsz : sz < 2 ^ 63) (hle : newsz ≤ sz) :
    Vm.uvmalloc km pt sz newsz perm = .ok (km, pt, sz) := by
  unfold Vm.uvmalloc
  split
  · rfl
  · obtain rfl : newsz = sz := by omega
    have hrounds : (newsz - pgroundup newsz + PGSIZE - 1) / PGSIZE = 0 := by
      have := le_pgroundup hsz
      rw [Nat.sub_eq_zero_of_le this]
      rfl
    dsimp only
    rw [hrounds]
    rfl

/-- The address space reaches to `r`: what was there is as it was, and what
is new is zero. -/
structure Resized (perm : Perm) (km : Kmem) (pt : PageTable) (sz : ℕ)
    (km' : Kmem) (pt' : PageTable) (r : ℕ) : Prop where
  low : ∀ va < pgroundup sz, pt'.leaf va = pt.leaf va
  fresh : ∀ va, pgroundup sz ≤ va → va < pgroundup r →
    ∃ f, pt'.leaf va = some ⟨f, perm⟩
  bytes : ∀ va < pgroundup r, imageByte km' pt' va =
    if va < pgroundup sz then imageByte km pt va else some 0

/-- **`uvmalloc` in `exec`**: the new size is the larger one, unless it
returns 0. -/
theorem Image.resize (h : Image pool rest km pt sz) (newsz : ℕ) (perm : Perm) :
    ∃ km' pt' r,
    Vm.uvmalloc km pt sz newsz perm = .ok (km', pt', r) ∧
      (∀ f ∈ rest, km.SameIn km' f) ∧
      ((r = max sz newsz ∧ Image pool rest km' pt' r ∧
          Resized perm km pt sz km' pt' r) ∨
        (r = 0 ∧ Image pool rest km' pt' sz ∧
          ∀ va < MAXVA, pt'.leaf va = pt.leaf va)) := by
  rcases Nat.lt_or_ge sz newsz with hlt | hge
  · obtain ⟨km', pt', r, hcall, hsame, hcases⟩ := h.uvmalloc perm hlt
    refine ⟨km', pt', r, hcall,
      fun f hf => hsame f (Multiset.mem_add.mpr (Or.inr hf)), ?_⟩
    rcases hcases with ⟨rfl, hdone, himage⟩ | hfail
    · have htrap := RAM_lt_TRAPFRAME
      have hmax := TRAPFRAME_lt_MAXVA
      have hsz := h.pgroundup_le
      have hr := himage.pgroundup_le
      have hlow : ∀ va < pgroundup sz, pt'.leaf va = pt.leaf va :=
        fun va hva => hdone.other va (by omega) (by omega)
      refine Or.inl ⟨(Nat.max_eq_right (Nat.le_of_lt hlt)).symm, himage,
        hlow, ?_, ?_⟩
      · intro va hlo hhi
        obtain ⟨f, hf⟩ := hdone.fresh va hlo hhi
        exact ⟨f, hf.leaf⟩
      · intro va hva
        by_cases hin : va < pgroundup sz
        · rw [if_pos hin]
          refine imageByte_congr (hlow va hin) fun l hl => hsame l.frame ?_
          exact Multiset.mem_add.mpr
            (Or.inl (PageTable.mem_owned (by omega) hl))
        · obtain ⟨f, hf⟩ := hdone.fresh va (Nat.not_lt.mp hin) hva
          rw [if_neg hin, imageByte, hf.leaf]
          exact congrArg some (hf.bytes _ (Nat.mod_lt _ (by decide)))
    · exact Or.inr hfail
  · have hsz : sz < 2 ^ 63 := Nat.lt_of_le_of_lt h.sz_le (by decide)
    refine ⟨km, pt, sz, uvmalloc_of_le perm hsz hge,
      fun _ _ _ _ => rfl, Or.inl ⟨(Nat.max_eq_left hge).symm, h,
        fun _ _ => rfl, ?_, ?_⟩⟩
    · intro va hlo hhi
      omega
    · intro va hva
      rw [if_pos hva]

/-! ## Reading the file -/

theorem kmem_eq (hlist : km'.freelist = km.freelist)
    (hmem : ∀ b, km'.mem b = km.mem b) : km' = km := by
  cases km
  cases km'
  obtain rfl := hlist
  exact congrArg _ (funext hmem)

/-- `readi` stores as many bytes as it returns. -/
theorem readi_eq (ip : Inode) (km : Kmem) (dst off n : ℕ) :
    (readi ip km dst off n).1 = km.memmove dst (fun k => ip.byte (off + k))
      (readi ip km dst off n).2 := by
  unfold readi
  split
  · refine kmem_eq rfl fun b => ?_
    exact (if_neg fun hb => absurd hb.2 (Nat.not_lt.mpr hb.1)).symm
  · exact kmem_eq (readiLoop_freelist ..) (readiLoop_mem ip km dst off _)

variable {off : ℕ}

theorem readi_le (ip : Inode) (km : Kmem) (dst : ℕ) (hoff : off < 2 ^ 32)
    (hn : n < 2 ^ 32) : (readi ip km dst off n).2 ≤ n := by
  unfold readi
  split
  · exact Nat.zero_le n
  · dsimp only
    split <;> omega

/-- All bytes arrive just when the file has them. -/
theorem readi_all_iff (ip : Inode) (km : Kmem) (dst : ℕ) (hoff : off < 2 ^ 32)
    (hn : n < 2 ^ 31) (hpos : 0 < n) :
    (readi ip km dst off n).2 = n ↔ off + n ≤ ip.size := by
  have hsize := ip.size_lt
  unfold readi
  split
  · constructor
    · intro h
      dsimp only at h
      omega
    · intro h
      omega
  · dsimp only
    split <;> omega

theorem leNat_congr {b b' : ℕ → UInt8} : ∀ {k i : ℕ},
    (∀ j, i ≤ j → j < i + k → b j = b' j) → leNat b i k = leNat b' i k
  | 0, _, _ => rfl
  | k + 1, i, h => by
    rw [leNat, leNat, h i (Nat.le_refl i) (by omega),
      leNat_congr fun j hlo hhi => h j (by omega) (by omega)]

theorem leNat_lt (b : ℕ → UInt8) : ∀ k i, leNat b i k < 256 ^ k
  | 0, i => by
    rw [leNat]
    decide
  | k + 1, i => by
    have := leNat_lt b k (i + 1)
    have := (b i).toNat_lt
    rw [leNat, Nat.pow_succ]
    omega

theorem Proghdr.decode_congr {b b' : ℕ → UInt8}
    (h : ∀ j < proghdrSize, b j = b' j) :
    Proghdr.decode b = Proghdr.decode b' := by
  have hpart : ∀ i k, i + k ≤ 56 → leNat b i k = leNat b' i k :=
    fun i k hik => leNat_congr fun j _ hj =>
      h j (Nat.lt_of_lt_of_le hj hik)
  unfold Proghdr.decode
  rw [hpart 0 4, hpart 4 4, hpart 8 8, hpart 16 8, hpart 32 8, hpart 40 8] <;>
    decide

/-- The bytes of the file at an offset, if it has them. -/
theorem readVar_eq (ip : Inode) (hoff : off < 2 ^ 32) (hn : n < 2 ^ 31)
    (hpos : 0 < n) :
    (∃ b, readVar ip off n = some b ∧ off + n ≤ ip.size ∧
      ∀ k < n, b k = ip.byte (off + k)) ∨
    (readVar ip off n = none ∧ ip.size < off + n) := by
  have hall := readi_all_iff ip ⟨[], fun _ => 0⟩ 0 hoff hn hpos
  have heq := readi_eq ip ⟨[], fun _ => 0⟩ 0 off n
  dsimp only [readVar]
  by_cases hfull : (readi ip ⟨[], fun _ => 0⟩ 0 off n).2 = n
  · refine Or.inl ⟨_, if_pos hfull, hall.mp hfull, ?_⟩
    intro k hk
    rw [heq, hfull]
    exact if_pos ⟨Nat.zero_le k, by omega⟩
  · refine Or.inr ⟨if_neg hfull, ?_⟩
    rw [hall] at hfull
    omega

/-! ## Loading a segment -/

/-- The pages of `[lo, hi)` are there and the user may access them. -/
def UserPages (pt : PageTable) (lo hi : ℕ) : Prop :=
  ∀ va, lo ≤ va → va < hi → ∃ l, pt.leaf va = some l ∧ l.perm.u = true

theorem walkaddr_user {l : Leaf} (hva : va < MAXVA) (hl : pt.leaf va = some l)
    (hu : l.perm.u = true) : walkaddr pt va = l.frame.pa := by
  unfold walkaddr
  rw [if_pos hva, hl]
  exact if_pos hu

/-- What `loadseg` leaves behind. -/
structure SegRead (pt : PageTable) (lo n : ℕ) (ip : Inode) (off : ℕ)
    (km km' : Kmem) (done : Bool) : Prop where
  freelist : km'.freelist = km.freelist
  same : ∀ f ∉ pt.pages, km.SameIn km' f
  inFile : done = true → 0 < n → off + n ≤ ip.size
  bytes : done = true →
    Stored pt lo n (fun k => ip.byte (off + k)) km km'

theorem loadsegLoop_spec (ip : Inode) (hd : Distinct pt) {offset : ℕ}
    (hva : va % PGSIZE = 0) (hu : UserPages pt va (va + sz))
    (hlim : va + sz ≤ RAM) (r : ℕ) :
    ∀ {i : ℕ} (km : Kmem), i % PGSIZE = 0 → offset + i < 2 ^ 32 →
    i + r * PGSIZE < sz + PGSIZE → sz ≤ i + r * PGSIZE →
    ∃ km' done, loadsegLoop pt va ip offset sz r i km = .ok (km', done) ∧
      SegRead pt (va + i) (sz - i) ip (offset + i) km km' done := by
  have hram : RAM = 2 ^ 27 := by decide
  have htrap := RAM_lt_TRAPFRAME
  have hsize := ip.size_lt
  induction r with
  | zero =>
    intro i km _ _ _ hend
    refine ⟨km, true, if_neg (by omega), rfl, fun _ _ _ _ => rfl, ?_, ?_⟩
    · intro _ hpos
      omega
    · intro _
      rw [show sz - i = 0 by omega]
      exact .refl ..
  | succ r ih =>
    intro i km hi hoff hlast hend
    rw [Nat.succ_mul] at hlast hend
    have hlt : i < sz := by omega
    have hin : va + i < TRAPFRAME := by omega
    obtain ⟨l, hl, hperm⟩ := hu (va + i) (by omega) (by omega)
    have hpa : walkaddr pt ((va + i) % 2 ^ 64) = l.frame.pa := by
      rw [Nat.mod_eq_of_lt (by omega)]
      exact walkaddr_user (Nat.lt_trans hin TRAPFRAME_lt_MAXVA) hl hperm
    have hzero : (va + i) % PGSIZE = 0 := by
      unfold PGSIZE at *
      omega
    obtain ⟨n, hn⟩ : ∃ n, n = if sz - i < PGSIZE then sz - i else PGSIZE :=
      ⟨_, rfl⟩
    have hnle : n ≤ PGSIZE ∧ n ≤ sz - i ∧ 0 < n := by
      have : 0 < PGSIZE := by decide
      split at hn <;> omega
    have hpage : PGSIZE = 4096 := rfl
    have hstored : ∀ m ≤ n, Stored pt (va + i) m
        (fun k => ip.byte (offset + i + k)) km
        (km.memmove l.frame.pa (fun k => ip.byte (offset + i + k)) m) := by
      intro m hm
      have h := @stored_memmove pt hd (va + i) m l
        (fun k => ip.byte (offset + i + k)) km hin hl (by omega)
      rwa [hzero, Nat.add_zero] at h
    have hread := readi_eq ip km l.frame.pa (offset + i) n
    have hle := readi_le ip km l.frame.pa hoff (show n < 2 ^ 32 by omega)
    have hall := readi_all_iff ip km l.frame.pa hoff
      (show n < 2 ^ 31 by omega) hnle.2.2
    rw [loadsegLoop]
    dsimp only
    rw [hpa, if_neg l.frame.pa_ne_zero, Nat.mod_eq_of_lt hoff, ← hn]
    by_cases hfull : (readi ip km l.frame.pa (offset + i) n).2 = n
    · rw [if_pos hfull, Nat.mod_eq_of_lt (show i + PGSIZE < 2 ^ 32 by omega)]
      have hgot := hall.mp hfull
      have hround := hstored n (Nat.le_refl n)
      rw [← hfull, ← hread, hfull] at hround
      obtain ⟨km', done, hloop, hrest⟩ := ih
        (readi ip km l.frame.pa (offset + i) n).1
        (show (i + PGSIZE) % PGSIZE = 0 by simpa using hi)
        (by omega) (by omega) (by omega)
      refine ⟨km', done, hloop, hrest.freelist.trans hround.freelist,
        fun f hf => (hround.same f hf).trans (hrest.same f hf), ?_, ?_⟩
      · intro hdone _
        have := hrest.inFile hdone
        split at hn <;> omega
      · intro hdone
        have htail := hrest.bytes hdone
        split at hn
        · -- this was the last round
          rw [show sz - (i + PGSIZE) = 0 by omega] at htail
          have hnil : Stored pt (va + i + n) 0
              (fun k => ip.byte (offset + i + (n + k)))
              (readi ip km l.frame.pa (offset + i) n).1 km' :=
            ⟨htail.freelist, htail.same, fun vb hvb => by
              rw [htail.bytes vb hvb, if_neg (by omega),
                if_neg (by omega)]⟩
          have := hround.append hnil
          rwa [Nat.add_zero, hn] at this
        · rw [show sz - i = n + (sz - (i + PGSIZE)) by omega]
          refine hround.append ?_
          rw [show va + i + n = va + (i + PGSIZE) by omega]
          have hsrc : (fun k => ip.byte (offset + i + (n + k))) =
              fun k => ip.byte (offset + (i + PGSIZE) + k) := by
            funext k
            congr 1
            omega
          rw [hsrc]
          exact htail
    · rw [if_neg hfull]
      have hround := hstored _ hle
      rw [← hread] at hround
      refine ⟨_, false, rfl, hround.freelist, hround.same, ?_, ?_⟩
      · intro hdone
        cases hdone
      · intro hdone
        cases hdone

/-- **`loadseg` never panics on pages that are there**, and when it returns 0
the segment is the bytes of the file. -/
theorem loadseg_spec (ip : Inode) (hd : Distinct pt) (km : Kmem)
    {va offset sz : ℕ} (hva : va % PGSIZE = 0)
    (hu : UserPages pt va (va + sz)) (hlim : va + sz ≤ RAM)
    (hoff : offset < 2 ^ 32) :
    ∃ km' done, loadseg km pt va ip offset sz = .ok (km', done) ∧
      SegRead pt va sz ip offset km km' done := by
  have hrounds : (sz + PGSIZE - 1) / PGSIZE * PGSIZE < sz + PGSIZE ∧
      sz ≤ (sz + PGSIZE - 1) / PGSIZE * PGSIZE := by
    unfold PGSIZE
    omega
  exact loadsegLoop_spec ip hd hva hu hlim _ (i := 0) km (Nat.zero_mod _)
    hoff (by omega) (by omega)

/-! ## The program headers -/

theorem lift_eq_ok {α : Type} {x : Except Panic α} {a : α} :
    lift x = .ok a ↔ x = .ok a := by
  cases x with
  | error e =>
    constructor
    · intro h
      cases h
    · intro h
      cases h
  | ok b =>
    constructor
    · intro h
      cases h
      rfl
    · intro h
      cases h
      rfl

/-- The segment of a header was put over what was there. -/
structure HeaderDone (ip : Inode) (ph : Proghdr) (km : Kmem) (pt : PageTable)
    (sz : ℕ) (km' : Kmem) (pt' : PageTable) (sz' : ℕ) : Prop where
  fits : ph.filesz ≤ ph.memsz
  aligned : ph.vaddr % PGSIZE = 0
  size : sz' = max sz (ph.vaddr + ph.memsz)
  inFile : 0 < ph.filesz → ph.off % 2 ^ 32 + ph.filesz ≤ ip.size
  low : ∀ va < pgroundup sz, pt'.leaf va = pt.leaf va
  fresh : ∀ va, pgroundup sz ≤ va → va < pgroundup sz' →
    ∃ f, pt'.leaf va = some ⟨f, segPerm ph.flags⟩
  bytes : ∀ va < pgroundup sz', imageByte km' pt' va =
    if ph.vaddr ≤ va ∧ va < ph.vaddr + ph.filesz then
      some (ip.byte (ph.off % 2 ^ 32 + (va - ph.vaddr)))
    else if va < pgroundup sz then imageByte km pt va else some 0

/-- What a round of the loop over the headers leaves behind, whether it goes
on or not. -/
structure HeaderStep (pool rest : Multiset Frame) (ip : Inode) (ph : Proghdr)
    (km : Kmem) (pt : PageTable) (sz : ℕ) (km' : Kmem) (pt' : PageTable)
    (sz' : ℕ) (done : Bool) : Prop where
  image : Image pool rest km' pt' sz'
  user : UserPages pt' 0 (pgroundup sz')
  same : ∀ f ∈ rest, km.SameIn km' f
  loaded : done = true → ph.type = ELF_PROG_LOAD →
    HeaderDone ip ph km pt sz km' pt' sz'
  skipped : done = true → ph.type ≠ ELF_PROG_LOAD →
    (km', pt', sz') = (km, pt, sz)

/-- The new pages are for the user, and so are the old ones. -/
theorem Resized.user {r : ℕ} (h : Resized perm km pt sz km' pt' r)
    (hu : UserPages pt 0 (pgroundup sz)) (hperm : perm.u = true) :
    UserPages pt' 0 (pgroundup r) := by
  intro va hlo hhi
  by_cases hin : va < pgroundup sz
  · rw [h.low va hin]
    exact hu va hlo hin
  · obtain ⟨f, hf⟩ := h.fresh va (Nat.not_lt.mp hin) hhi
    exact ⟨_, hf, hperm⟩

/-- **One round of the loop over the headers**: it never panics, the image
stays one, and nothing outside it is touched. -/
theorem Image.loadHeader (h : Image pool rest km pt sz)
    (hu : UserPages pt 0 (pgroundup sz)) (ip : Inode) {ph : Proghdr}
    (hv : ph.vaddr < 2 ^ 64) (hm : ph.memsz < 2 ^ 64) :
    ∃ km' pt' sz' done,
      loadHeader ip ph km pt sz = .ok (km', pt', sz', done) ∧
      HeaderStep pool rest ip ph km pt sz km' pt' sz' done := by
  have hstop : HeaderStep pool rest ip ph km pt sz km pt sz false :=
    ⟨h, hu, fun _ _ _ _ => rfl, by rintro ⟨⟩, by rintro ⟨⟩⟩
  have hram : RAM = 2 ^ 27 := by decide
  unfold Exec.loadHeader
  split
  · rename_i htype
    exact ⟨km, pt, sz, true, rfl, h, hu, fun _ _ _ _ => rfl,
      fun _ hload => absurd hload htype, fun _ _ => rfl⟩
  rename_i htype
  split
  · exact ⟨km, pt, sz, false, rfl, hstop⟩
  rename_i hfits
  split
  · exact ⟨km, pt, sz, false, rfl, hstop⟩
  rename_i hwrap
  split
  · exact ⟨km, pt, sz, false, rfl, hstop⟩
  rename_i haligned
  have hend : (ph.vaddr + ph.memsz) % 2 ^ 64 = ph.vaddr + ph.memsz := by
    omega
  rw [hend]
  obtain ⟨km₁, pt₁, r, halloc, hsame, hcases⟩ :=
    h.resize (ph.vaddr + ph.memsz) (segPerm ph.flags)
  rw [lift_eq_ok.mpr halloc]
  dsimp only [bind, Except.bind]
  by_cases hzero : r = 0
  · rw [if_pos hzero]
    refine ⟨km₁, pt₁, sz, false, rfl, ?_, ?_, hsame, by rintro ⟨⟩,
      by rintro ⟨⟩⟩
    · rcases hcases with ⟨hr, himage, -⟩ | ⟨-, himage, -⟩
      · rwa [show sz = r by omega]
      · exact himage
    · rcases hcases with ⟨hr, -, hsized⟩ | ⟨-, -, hleaf⟩
      · have := hsized.user hu rfl
        rwa [show r = sz by omega] at this
      · intro va hlo hhi
        have hup := h.pgroundup_le
        rw [hleaf va (by unfold MAXVA; omega)]
        exact hu va hlo hhi
  · rw [if_neg hzero]
    rcases hcases with ⟨hr, himage, hsized⟩ | ⟨hr, -⟩
    · have hle := himage.sz_le
      have hup := le_pgroundup (show r < 2 ^ 63 by omega)
      have huser := hsized.user hu rfl
      have hfile : ph.filesz % 2 ^ 32 = ph.filesz :=
        Nat.mod_eq_of_lt (by omega)
      obtain ⟨km₂, done, hload, hseg⟩ := @loadseg_spec pt₁ ip
        himage.distinct km₁ ph.vaddr (ph.off % 2 ^ 32) ph.filesz
        (not_not.mp haligned)
        (fun va hlo hhi => huser va (Nat.zero_le va) (by omega)) (by omega)
        (Nat.mod_lt _ (by decide))
      rw [hfile, hload]
      refine ⟨km₂, pt₁, r, done, rfl, himage.congr hseg.freelist, huser,
        fun f hf => (hsame f hf).trans (hseg.same f ?_), ?_, ?_⟩
      · exact himage.rest_not_page hf
      · intro hdone _
        have hstored := hseg.bytes hdone
        refine ⟨Nat.not_lt.mp hfits, not_not.mp haligned, hr,
          hseg.inFile hdone, hsized.low, hsized.fresh, ?_⟩
        intro va hva
        have hbound := himage.pgroundup_le
        have htrap := RAM_lt_TRAPFRAME
        rw [hstored.bytes va (by omega), hsized.bytes va hva]
      · intro _ hskip
        exact absurd hskip htype
    · exact absurd hr hzero

end Xv6.Exec
