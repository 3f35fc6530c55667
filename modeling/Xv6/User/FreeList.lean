import Xv6.User.Malloc

/-!
# The free list of the allocator

The blocks of the heap do not overlap and lie in memory that `sbrk` granted;
some of them are free. The free ones are linked in a sorted ring that begins at
`base`, and no two of them are adjacent. A size is kept in 32 bits, so joining
blocks may lose memory; it never makes a block too large.
-/

namespace Xv6.Malloc

open Framework

/-- Where a block ends. A block has its header, whatever its size says. -/
def stop (size : ℕ → ℕ) (p : ℕ) : ℕ := p + headerSize * max (size p) 1

theorem le_stop (size : ℕ → ℕ) (p : ℕ) :
    p + headerSize * size p ≤ stop size p ∧ p + headerSize ≤ stop size p := by
  unfold stop headerSize
  omega

theorem stop_eq {size : ℕ → ℕ} {p : ℕ} (h : 0 < size p) :
    stop size p = p + headerSize * size p := by
  unfold stop headerSize
  omega

structure Layout (base : ℕ) (size : ℕ → ℕ) (granted : ℕ → Prop)
    (blocks : Finset ℕ) : Prop where
  base_mem : base ∈ blocks
  base_size : size base = 0
  base_le : ∀ p ∈ blocks, base ≤ p
  apart : ∀ p ∈ blocks, ∀ q ∈ blocks, p < q → stop size p ≤ q
  granted : ∀ p ∈ blocks, p ≠ base → ∀ x, p ≤ x → x < stop size p → granted x

namespace Layout

variable {base : ℕ} {size : ℕ → ℕ} {granted : ℕ → Prop} {blocks : Finset ℕ}
variable {p q n : ℕ}

/-- A block is joined with the one right behind it. -/
theorem join (h : Layout base size granted blocks) (hp : p ∈ blocks)
    (hq : q ∈ blocks) (hadj : p + headerSize * size p = q) (hlt : p < q) :
    Layout base (Function.update size p ((size p + size q) % 2 ^ 32)) granted
      (blocks.erase q) := by
  have hpos : 0 < size p := by
    unfold headerSize at hadj
    omega
  have hbase : base < p := by
    refine lt_of_le_of_ne (h.base_le p hp) ?_
    rintro rfl
    rw [h.base_size] at hpos
    exact lt_irrefl 0 hpos
  have hstop : stop size p = q := (stop_eq hpos).trans hadj
  have hjoined : stop (Function.update size p ((size p + size q) % 2 ^ 32)) p ≤
      stop size q := by
    have hmod := Nat.mod_le (size p + size q) (2 ^ 32)
    rw [stop, stop, Function.update_self]
    unfold headerSize at *
    omega
  have hother : ∀ r, r ≠ p →
      stop (Function.update size p ((size p + size q) % 2 ^ 32)) r =
        stop size r := by
    intro r hr
    rw [stop, Function.update_of_ne hr, stop]
  refine ⟨Finset.mem_erase.mpr ⟨(hbase.trans hlt).ne, h.base_mem⟩, ?_,
    fun r hr => h.base_le r (Finset.mem_of_mem_erase hr), ?_, ?_⟩
  · rw [Function.update_of_ne hbase.ne, h.base_size]
  · intro a ha b hb hab
    obtain ⟨hbq, hb⟩ := Finset.mem_erase.mp hb
    have ha := Finset.mem_of_mem_erase ha
    by_cases hap : a = p
    · rw [hap] at hab ⊢
      have hqb : q ≤ b := hstop ▸ h.apart p hp b hb hab
      exact hjoined.trans (h.apart q hq b hb (lt_of_le_of_ne hqb hbq.symm))
    · rw [hother a hap]
      exact h.apart a ha b hb hab
  · intro r hr hrb x hrx hx
    have hr := Finset.mem_of_mem_erase hr
    by_cases hrp : r = p
    · rw [hrp] at hrx hx
      by_cases hxq : x < q
      · exact h.granted p hp hbase.ne' x hrx (hxq.trans_eq hstop.symm)
      · exact h.granted q hq (hbase.trans hlt).ne' x (not_lt.mp hxq)
          (hx.trans_le hjoined)
    · rw [hother r hrp] at hx
      exact h.granted r hr hrb x hrx hx

/-- A block is put in where there is none. -/
theorem insert (h : Layout base size granted blocks) (hlt : base < p)
    (hbelow : ∀ q ∈ blocks, q < p → stop size q ≤ p)
    (habove : ∀ q ∈ blocks, p < q → stop (Function.update size p n) p ≤ q)
    (hnew : p ∉ blocks)
    (hgranted : ∀ x, p ≤ x → x < stop (Function.update size p n) p →
      granted x) :
    Layout base (Function.update size p n) granted (insert p blocks) := by
  have hother : ∀ q ∈ blocks, stop (Function.update size p n) q =
      stop size q := by
    intro q hq
    rw [stop, Function.update_of_ne (ne_of_mem_of_not_mem hq hnew), stop]
  refine ⟨Finset.mem_insert_of_mem h.base_mem, ?_, ?_, ?_, ?_⟩
  · rw [Function.update_of_ne hlt.ne, h.base_size]
  · intro q hq
    rcases Finset.mem_insert.mp hq with rfl | hq
    · exact hlt.le
    · exact h.base_le q hq
  · intro a ha b hb hab
    rcases Finset.mem_insert.mp ha with rfl | ha'
    · exact habove b ((Finset.mem_insert.mp hb).resolve_left hab.ne') hab
    · rw [hother a ha']
      rcases Finset.mem_insert.mp hb with rfl | hb'
      · exact hbelow a ha' hab
      · exact h.apart a ha' b hb' hab
  · intro q hq hqb x hqx hx
    rcases Finset.mem_insert.mp hq with rfl | hq'
    · exact hgranted x hqx hx
    · rw [hother q hq'] at hx
      exact h.granted q hq' hqb x hqx hx

/-- A block gives up its upper end. -/
theorem shrink (h : Layout base size granted blocks) (hpb : p ≠ base)
    (hle : n ≤ size p) :
    Layout base (Function.update size p n) granted blocks := by
  have hstop : ∀ q, stop (Function.update size p n) q ≤ stop size q := by
    intro q
    by_cases hq : q = p
    · rw [hq, stop, stop, Function.update_self]
      unfold headerSize
      omega
    · rw [stop, Function.update_of_ne hq, stop]
  refine ⟨h.base_mem, ?_, h.base_le, ?_, ?_⟩
  · rw [Function.update_of_ne hpb.symm, h.base_size]
  · intro a ha b hb hab
    exact (hstop a).trans (h.apart a ha b hb hab)
  · intro q hq hqb x hqx hx
    exact h.granted q hq hqb x hqx (hx.trans_le (hstop q))

/-- The upper end of a block becomes a block of its own. -/
theorem split (h : Layout base size granted blocks) (hp : p ∈ blocks)
    (hn : 0 < n) (hlt : n < size p) :
    let q := p + headerSize * (size p - n)
    q ∉ blocks ∧
      Layout base (Function.update (Function.update size p (size p - n)) q n)
        granted (Insert.insert q blocks) := by
  intro q
  have hpb : p ≠ base := by
    rintro rfl
    rw [h.base_size] at hlt
    exact absurd hlt (Nat.not_lt_zero n)
  have hend : q + headerSize * n = stop size p := by
    rw [stop_eq (hn.trans hlt)]
    change p + headerSize * (size p - n) + headerSize * n = _
    rw [add_assoc, ← mul_add, Nat.sub_add_cancel hlt.le]
  have hpq : p + headerSize ≤ q ∧ q < stop size p := by
    have hq : q = p + headerSize * (size p - n) := rfl
    rw [stop_eq (hn.trans hlt), hq]
    unfold headerSize
    omega
  have hnew : q ∉ blocks := by
    intro hq
    have hapart := h.apart p hp q hq (by unfold headerSize at hpq; omega)
    exact absurd hpq.2 (not_lt_of_ge hapart)
  have hsmall := h.shrink (n := size p - n) hpb (Nat.sub_le ..)
  have hstop : stop (Function.update (Function.update size p (size p - n)) q n)
      q = stop size p := by
    rw [stop, Function.update_self, max_eq_left hn, hend]
  have hlow : p < q := by
    unfold headerSize at hpq
    omega
  refine ⟨hnew, hsmall.insert ?_ ?_ ?_ hnew ?_⟩
  · exact (lt_of_le_of_ne (h.base_le p hp) hpb.symm).trans hlow
  · intro r hr hrq
    by_cases hrp : r = p
    · rw [hrp, stop, Function.update_self, max_eq_left (Nat.sub_pos_of_lt hlt)]
    · refine le_trans ?_ (h.apart r hr p hp ?_) |>.trans hlow.le
      · rw [stop, Function.update_of_ne hrp, stop]
      · refine lt_of_le_of_ne (le_of_not_gt fun hpr => ?_) hrp
        exact absurd (hrq.trans hpq.2) (not_lt_of_ge (h.apart p hp r hr hpr))
  · intro r hr hqr
    rw [hstop]
    exact h.apart p hp r hr (hlow.trans hqr)
  · intro x hqx hx
    rw [hstop] at hx
    exact h.granted p hp hpb x (hlow.le.trans hqx) hx

end Layout

/-- Nothing in the list begins at or before the end of `p`. -/
def GapAt (size : ℕ → ℕ) (free : Finset ℕ) (p : ℕ) : Prop :=
  ∀ q ∈ free, p < q → p + headerSize * size p < q

/-- The state of the allocator between two calls. `blocks` are all blocks, and
`free` those of the free list. -/
structure Sound (base : ℕ) (s : State) (blocks free : Finset ℕ) : Prop where
  layout : Layout base s.size s.Granted blocks
  sub : free ⊆ blocks
  ring : SortedRing free base s.ptr
  freep : s.freep ∈ free
  gap : ∀ p ∈ free, GapAt s.size free p
  uint : ∀ p, s.size p < 2 ^ 32
  base_pos : 0 < base
  above : ∀ x, s.Granted x → base + headerSize ≤ x
  base_le : base + headerSize ≤ s.sz

namespace Sound

variable {base : ℕ} {s : State} {blocks free : Finset ℕ} {bp p : ℕ}

theorem stop_le (h : Sound base s blocks free) (hp : p ∈ blocks) :
    stop s.size p ≤ s.sz := by
  by_cases hpb : p = base
  · rw [hpb, stop, h.layout.base_size]
    exact h.base_le
  · have hlt := (le_stop s.size p).2
    have hlast := (h.layout.granted p hp hpb (stop s.size p - 1)
      (by unfold headerSize at hlt; omega)
      (by unfold headerSize at hlt; omega)).1
    omega

/-! ## Putting a block in -/

/-- The place of a block in the list. -/
structure Place (free : Finset ℕ) (bp p : ℕ) : Prop where
  mem : p ∈ free
  lt : p < bp
  gap : ∀ q ∈ free, p < q → bp < q

/-- The loop of `free` stops at the place of the block only. -/
theorem place_iff (h : Sound base s blocks free) (hbp : bp ∈ blocks)
    (hnot : bp ∉ free) (hp : p ∈ free) :
    ((p < bp ∧ bp < s.ptr p) ∨
      (s.ptr p ≤ p ∧ (p < bp ∨ bp < s.ptr p))) ↔ Place free bp p := by
  have hbase : base < bp := lt_of_le_of_ne (h.layout.base_le bp hbp)
    (ne_of_mem_of_not_mem h.ring.first_mem hnot)
  rcases h.ring.next_cases hp with ⟨hlt, hleast⟩ | ⟨hfirst, hlast⟩
  · constructor
    · rintro (⟨hpb, hbn⟩ | ⟨hle, -⟩)
      · exact ⟨hp, hpb, fun q hq hpq => hbn.trans_le (hleast q hq hpq)⟩
      · exact absurd hlt (not_lt_of_ge hle)
    · intro hplace
      exact Or.inl ⟨hplace.lt, hplace.gap _ (h.ring.next_mem p hp) hlt⟩
  · constructor
    · intro hstop
      have hpb : p < bp := by
        rcases hstop with ⟨hpb, -⟩ | ⟨-, hpb | hbn⟩
        · exact hpb
        · exact hpb
        · rw [hfirst] at hbn
          exact absurd hbase hbn.not_gt
      exact ⟨hp, hpb, fun q hq hpq => absurd hpq (not_lt_of_ge (hlast q hq))⟩
    · intro hplace
      rw [hfirst]
      exact Or.inr ⟨h.ring.first_le p hp, Or.inl hplace.lt⟩

theorem exists_place (h : Sound base s blocks free) (hbp : bp ∈ blocks)
    (hnot : bp ∉ free) : ∃ p, Place free bp p := by
  have hbase : base < bp := lt_of_le_of_ne (h.layout.base_le bp hbp)
    (ne_of_mem_of_not_mem h.ring.first_mem hnot)
  have hbelow : (free.filter (· < bp)).Nonempty :=
    ⟨base, Finset.mem_filter.mpr ⟨h.ring.first_mem, hbase⟩⟩
  obtain ⟨hp, hlt⟩ := Finset.mem_filter.mp (Finset.max'_mem _ hbelow)
  refine ⟨_, hp, hlt, fun q hq hpq => ?_⟩
  refine lt_of_le_of_ne (le_of_not_gt fun hqb => ?_)
    (ne_of_mem_of_not_mem hq hnot).symm
  exact absurd hpq (not_lt_of_ge
    (Finset.le_max' _ _ (Finset.mem_filter.mpr ⟨hq, hqb⟩)))

/-- **The loop of `free` finds the place of the block.** -/
theorem freeLoop_spec (h : Sound base s blocks free) (hbp : bp ∈ blocks)
    (hnot : bp ∉ free) :
    ∃ p N, Place free bp p ∧
      ∀ k, s.freeLoop bp (N + k) s.freep = some p := by
  obtain ⟨q, hq⟩ := h.exists_place hbp hnot
  obtain ⟨n, hstop, hbefore⟩ :=
    h.ring.exists_first_stop (Place free bp) h.freep hq.mem hq
  refine ⟨_, n + 1, hstop, fun k => ?_⟩
  have hmem := h.freep
  -- induction on the rounds before the stop
  generalize s.freep = p at *
  induction n generalizing p with
  | zero =>
    have htest := (h.place_iff hbp hnot hmem).mpr hstop
    rw [Nat.add_right_comm, State.freeLoop]
    rcases htest with htest | htest
    · rw [if_pos htest]
      rfl
    · rw [if_pos htest, ite_self]
      rfl
  | succ n ih =>
    have htest := mt (h.place_iff hbp hnot hmem).mp
      (hbefore 0 (Nat.succ_pos n))
    rw [not_or] at htest
    rw [Nat.add_right_comm, State.freeLoop, if_neg htest.1, if_neg htest.2]
    refine ih (s.ptr p) hstop (fun m hm => ?_) (h.ring.next_mem p hmem)
    exact hbefore (m + 1) (Nat.succ_lt_succ hm)

/-- The invariant while `p` may be adjacent to the block behind it. -/
structure Almost (base : ℕ) (s : State) (blocks free : Finset ℕ) (p : ℕ) :
    Prop where
  layout : Layout base s.size s.Granted blocks
  sub : free ⊆ blocks
  ring : SortedRing free base s.ptr
  gap : ∀ q ∈ free, q ≠ p → GapAt s.size free q

variable {q : ℕ}

/-- A block has been joined with the one right behind it, and `p` is another
block or the one that grew. -/
theorem gapAt_join {size : ℕ → ℕ} (hgap : GapAt size free q)
    (hadj : p + headerSize * size p = q) (hnext : ∀ r ∈ free, p < r → q ≤ r) :
    GapAt (Function.update size p ((size p + size q) % 2 ^ 32)) (free.erase q)
      p := by
  intro r hr hpr
  obtain ⟨hrq, hr⟩ := Finset.mem_erase.mp hr
  have hlt := hgap r hr (lt_of_le_of_ne (hnext r hr hpr) hrq.symm)
  have hmod := Nat.mod_le (size p + size q) (2 ^ 32)
  rw [Function.update_self]
  unfold headerSize at *
  omega

/-- The block is linked in. -/
theorem ring_insert (h : Sound base s blocks free) (hplace : Place free bp p) :
    SortedRing (insert bp free) base
      ((s.setPtr bp (s.ptr p)).setPtr p bp).ptr := by
  refine h.ring.insert hplace.mem hplace.lt hplace.gap ?_ ?_ ?_
  · rw [State.ptr_setPtr_of_ne _ _ hplace.lt.ne', State.ptr_setPtr_self]
  · exact State.ptr_setPtr_self ..
  · intro q hqp hqb
    rw [State.ptr_setPtr_of_ne _ _ hqp, State.ptr_setPtr_of_ne _ _ hqb]

/-- What was in the list has nothing adjacent behind it, `p` apart. -/
theorem gapAt_insert (h : Sound base s blocks free) (hplace : Place free bp p)
    (hq : q ∈ free) (hqp : q ≠ p) : GapAt s.size (insert bp free) q := by
  intro r hr hqr
  rcases Finset.mem_insert.mp hr with rfl | hr
  · have hlt : q < p := by
      refine lt_of_le_of_ne (le_of_not_gt fun hpq => ?_) hqp
      exact absurd (hplace.gap q hq hpq) hqr.not_gt
    exact (h.gap q hq p hplace.mem hlt).trans hplace.lt
  · exact h.gap q hq r hr hqr

/-- What is free behind the block is not before its upper neighbour. -/
theorem ptr_le (h : Sound base s blocks free) (hplace : Place free bp p)
    (hq : q ∈ insert bp free) (hlt : bp < q) :
    s.ptr p ∈ free ∧ bp < s.ptr p ∧ s.ptr p ≤ q := by
  have hqf := (Finset.mem_insert.mp hq).resolve_left hlt.ne'
  obtain ⟨hup, hle⟩ := h.ring.up p hplace.mem q hqf (hplace.lt.trans hlt)
  have hmem := h.ring.next_mem p hplace.mem
  exact ⟨hmem, hplace.gap _ hmem hup, hle⟩

/-- The block is in the list, and joined with its upper neighbour if they are
adjacent. -/
theorem joinUpper (h : Sound base s blocks free) (hbp : bp ∈ blocks)
    (hnot : bp ∉ free) (hplace : Place free bp p) :
    ∃ blocks' free', Almost base ((s.joinUpper bp p).setPtr p bp) blocks' free'
        p ∧
      p ∈ free' ∧ bp ∈ free' ∧
      ∀ q, q ∈ blocks' ∧ q ∉ free' ↔ (q ∈ blocks ∧ q ∉ free) ∧ q ≠ bp := by
  have hring := h.ring_insert hplace
  have hsub : insert bp free ⊆ blocks := Finset.insert_subset hbp h.sub
  have hbase : base < bp :=
    lt_of_le_of_lt (h.ring.first_le p hplace.mem) hplace.lt
  unfold State.joinUpper
  split
  · -- the upper neighbour is taken out of the list again
    rename_i hadj
    have hlt : bp < s.ptr p := by
      refine lt_of_le_of_ne (by omega) ?_
      intro heq
      exact hnot (heq ▸ h.ring.next_mem p hplace.mem)
    have hmem := h.ring.next_mem p hplace.mem
    have hne : s.ptr p ≠ bp := hlt.ne'
    refine ⟨blocks.erase (s.ptr p), (insert bp free).erase (s.ptr p),
      ⟨h.layout.join hbp (h.sub hmem) hadj hlt, Finset.erase_subset_erase _ hsub,
        ?_, ?_⟩, ?_, ?_, ?_⟩
    · have hself : ((s.setPtr bp (s.ptr p)).setPtr p bp).ptr bp = s.ptr p := by
        rw [State.ptr_setPtr_of_ne _ _ hplace.lt.ne', State.ptr_setPtr_self]
      have herase := hring.erase
        ((s.setPtr bp (s.ptr (s.ptr p))).setPtr p bp).ptr
        (Finset.mem_insert_self bp free)
      rw [hself] at herase
      refine herase (hbase.trans hlt).ne' ?_ ?_
      · rw [State.ptr_setPtr_of_ne _ _ hplace.lt.ne', State.ptr_setPtr_self,
          State.ptr_setPtr_of_ne _ _ (hplace.lt.trans hlt).ne',
          State.ptr_setPtr_of_ne _ _ hne]
      · intro q _ hqb _
        by_cases hqp : q = p
        · rw [hqp, State.ptr_setPtr_self, State.ptr_setPtr_self]
        · rw [State.ptr_setPtr_of_ne _ _ hqp, State.ptr_setPtr_of_ne _ _ hqb,
            State.ptr_setPtr_of_ne _ _ hqp, State.ptr_setPtr_of_ne _ _ hqb]
    · intro q hq hqp
      obtain ⟨hqn, hq⟩ := Finset.mem_erase.mp hq
      by_cases hqb : q = bp
      · rw [hqb]
        exact gapAt_join
          (h.gapAt_insert hplace hmem (hplace.lt.trans hlt).ne') hadj
          fun r hr hbr => (h.ptr_le hplace hr hbr).2.2
      · have hqf := (Finset.mem_insert.mp hq).resolve_left hqb
        intro r hr hqr
        have hsize : (((s.setSize bp (s.size bp + s.size (s.ptr p))).setPtr bp
            (s.ptr (s.ptr p))).setPtr p bp).size q = s.size q :=
          Function.update_of_ne hqb ..
        rw [hsize]
        exact h.gapAt_insert hplace hqf hqp r (Finset.mem_of_mem_erase hr) hqr
    · exact Finset.mem_erase.mpr ⟨(hplace.lt.trans hlt).ne,
        Finset.mem_insert_of_mem hplace.mem⟩
    · exact Finset.mem_erase.mpr ⟨hlt.ne, Finset.mem_insert_self bp free⟩
    · intro q
      simp only [Finset.mem_erase, Finset.mem_insert]
      have hin : s.ptr p = q → q ∈ free := fun heq => heq ▸ hmem
      tauto
  · rename_i hadj
    refine ⟨blocks, insert bp free, ⟨h.layout, hsub, hring, ?_⟩,
      Finset.mem_insert_of_mem hplace.mem, Finset.mem_insert_self bp free, ?_⟩
    · intro q hq hqp
      rcases Finset.mem_insert.mp hq with rfl | hqf
      · intro r hr hqr
        obtain ⟨hmem, hlt, hle⟩ := h.ptr_le hplace hr hqr
        have hapart := h.layout.apart q hbp _ (h.sub hmem) hlt
        exact (lt_of_le_of_ne ((le_stop s.size q).1.trans hapart)
          hadj).trans_le hle
      · exact h.gapAt_insert hplace hqf hqp
    · intro q
      simp only [Finset.mem_insert]
      tauto

/-- `p` is joined with the block behind it if they are adjacent. -/
theorem Almost.joinLower {t : State}
    (h : Almost base (t.setPtr p bp) blocks free p) (hp : p ∈ free)
    (hbp : bp ∈ free) (hlt : p < bp) :
    ∃ blocks' free', Layout base (t.joinLower bp p).size t.Granted blocks' ∧
      free' ⊆ blocks' ∧ SortedRing free' base (t.joinLower bp p).ptr ∧
      p ∈ free' ∧ (∀ q ∈ free', GapAt (t.joinLower bp p).size free' q) ∧
      (∀ q, q ∈ blocks' ∧ q ∉ free' ↔ q ∈ blocks ∧ q ∉ free) ∧
      (t.size p + t.size bp < 2 ^ 32 →
        ∃ q ∈ free', t.size bp ≤ (t.joinLower bp p).size q) := by
  have hnext : ∀ r ∈ free, p < r → bp ≤ r := by
    intro r hr hpr
    have hup := (h.ring.up p hp r hr hpr).2
    rwa [State.ptr_setPtr_self] at hup
  have hbase : base < bp := lt_of_le_of_lt (h.ring.first_le p hp) hlt
  unfold State.joinLower
  split
  · rename_i hadj
    refine ⟨blocks.erase bp, free.erase bp,
      h.layout.join (h.sub hp) (h.sub hbp) hadj hlt,
      Finset.erase_subset_erase _ h.sub, ?_,
      Finset.mem_erase.mpr ⟨hlt.ne, hp⟩, ?_, ?_, ?_⟩
    · have herase := h.ring.erase (t.setPtr p (t.ptr bp)).ptr hp
      rw [State.ptr_setPtr_self, State.ptr_setPtr_self,
        State.ptr_setPtr_of_ne _ _ hlt.ne'] at herase
      refine herase hbase.ne' rfl ?_
      intro q _ hqp _
      rw [State.ptr_setPtr_of_ne _ _ hqp, State.ptr_setPtr_of_ne _ _ hqp]
    · intro q hq
      by_cases hqp : q = p
      · rw [hqp]
        exact gapAt_join (h.gap bp hbp hlt.ne') hadj hnext
      · intro r hr hqr
        have hsize : ((t.setSize p (t.size p + t.size bp)).setPtr p
            (t.ptr bp)).size q = t.size q := State.size_setSize_of_ne _ _ hqp
        rw [hsize]
        exact h.gap q (Finset.mem_of_mem_erase hq) hqp r
          (Finset.mem_of_mem_erase hr) hqr
    · intro q
      simp only [Finset.mem_erase]
      have hin : bp = q → q ∈ free := fun heq => heq ▸ hbp
      tauto
    · intro hsmall
      refine ⟨p, Finset.mem_erase.mpr ⟨hlt.ne, hp⟩, ?_⟩
      have hsize : ((t.setSize p (t.size p + t.size bp)).setPtr p
          (t.ptr bp)).size p = _ := State.size_setSize_self ..
      rw [hsize, Nat.mod_eq_of_lt hsmall]
      exact Nat.le_add_left ..
  · rename_i hadj
    refine ⟨blocks, free, h.layout, h.sub, h.ring, hp, ?_, fun q => Iff.rfl,
      fun _ => ⟨bp, hbp, le_rfl⟩⟩
    intro q hq
    by_cases hqp : q = p
    · intro r hr hqr
      rw [hqp] at hqr ⊢
      have hapart := h.layout.apart p (h.sub hp) bp (h.sub hbp) hlt
      exact (lt_of_le_of_ne ((le_stop t.size p).1.trans hapart)
        hadj).trans_le (hnext r hr hqr)
    · exact h.gap q hq hqp

theorem size_joinUpper_self (s : State) (bp p : ℕ) :
    (s.joinUpper bp p).size bp = s.size bp ∨
      (s.joinUpper bp p).size bp = (s.size bp + s.size (s.ptr p)) % 2 ^ 32 := by
  unfold State.joinUpper
  split
  · exact Or.inr (State.size_setSize_self ..)
  · exact Or.inl rfl

theorem size_joinUpper_of_ne (s : State) (p : ℕ) (hqb : q ≠ bp) :
    (s.joinUpper bp p).size q = s.size q := by
  unfold State.joinUpper
  split
  · exact State.size_setSize_of_ne _ _ hqb
  · rfl

theorem size_joinLower_of_ne (hqp : q ≠ p) :
    (s.joinLower bp p).size q = s.size q := by
  unfold State.joinLower
  split
  · exact State.size_setSize_of_ne _ _ hqp
  · rfl

theorem uint_setSize (hs : ∀ q, s.size q < 2 ^ 32) (n q : ℕ) :
    (s.setSize p n).size q < 2 ^ 32 := by
  by_cases hq : q = p
  · rw [hq, State.size_setSize_self]
    exact Nat.mod_lt _ (Nat.two_pow_pos 32)
  · rw [State.size_setSize_of_ne _ _ hq]
    exact hs q

theorem uint_joins (hs : ∀ q, s.size q < 2 ^ 32) (q : ℕ) :
    ((s.joinUpper bp p).joinLower bp p).size q < 2 ^ 32 := by
  have hupper : ∀ r, (s.joinUpper bp p).size r < 2 ^ 32 := by
    unfold State.joinUpper
    split
    · exact uint_setSize hs _
    · exact hs
  unfold State.joinLower
  split
  · exact uint_setSize hupper _ q
  · exact hupper q

theorem granted_joinUpper : (s.joinUpper bp p).Granted = s.Granted := by
  unfold State.joinUpper
  split
  · rfl
  · rfl

/-- What `free` leaves alone. -/
theorem joins_frame (s : State) (bp p : ℕ) :
    ((s.joinUpper bp p).joinLower bp p).sz = s.sz ∧
      ((s.joinUpper bp p).joinLower bp p).regions = s.regions ∧
      ((s.joinUpper bp p).joinLower bp p).calls = s.calls := by
  unfold State.joinUpper State.joinLower
  split <;> split <;> exact ⟨rfl, rfl, rfl⟩

end Sound

/-- What has become of the heap after `bp` was freed. -/
structure Freed (base : ℕ) (s s' : State) (blocks free : Finset ℕ) (bp : ℕ)
    (blocks' free' : Finset ℕ) : Prop where
  sound : Sound base s' blocks' free'
  live : ∀ q, q ∈ blocks' ∧ q ∉ free' ↔ (q ∈ blocks ∧ q ∉ free) ∧ q ≠ bp
  size : ∀ q, q ∉ free → q ≠ bp → s'.size q = s.size q
  sz : s'.sz = s.sz
  regions : s'.regions = s.regions
  calls : s'.calls = s.calls
  fit : (∀ q ∈ free, s.size q < 2 ^ 30) → s.size bp < 2 ^ 30 →
    ∃ q ∈ free', s.size bp ≤ s'.size q

/-- **`free` returns and keeps the free list sound.** -/
theorem Sound.free_spec {base : ℕ} {s : State} {blocks free : Finset ℕ}
    {bp : ℕ} (h : Sound base s blocks free) (hbp : bp ∈ blocks)
    (hnot : bp ∉ free) :
    ∃ s' N blocks' free', (∀ k, s.free (N + k) (bp + headerSize) = some s') ∧
      Freed base s s' blocks free bp blocks' free' := by
  obtain ⟨p, N, hplace, hloop⟩ := h.freeLoop_spec hbp hnot
  obtain ⟨blocks₁, free₁, halmost, hp, hmem, hlive⟩ :=
    h.joinUpper hbp hnot hplace
  obtain ⟨blocks', free', hlayout, hsub, hring, hfree, hgap, hlive', hfit⟩ :=
    halmost.joinLower hp hmem hplace.lt
  obtain ⟨hsz, hregions, hcalls⟩ := Sound.joins_frame s bp p
  have hgranted := State.granted_congr hsz hregions
  rw [Sound.granted_joinUpper, ← hgranted] at hlayout
  refine ⟨{ (s.joinUpper bp p).joinLower bp p with freep := p }, N, blocks',
    free', ?_, ⟨hlayout, hsub, hring, hfree, hgap, Sound.uint_joins h.uint,
    h.base_pos, ?_, ?_⟩, ?_, ?_, hsz, hregions, hcalls, ?_⟩
  · intro k
    rw [State.free, Nat.add_sub_cancel, hloop k]
    rfl
  · intro x hx
    exact h.above x (hgranted ▸ hx)
  · exact h.base_le.trans_eq hsz.symm
  · intro q
    rw [hlive', hlive]
  · intro q hq hqb
    have hqp : q ≠ p := (ne_of_mem_of_not_mem hplace.mem hq).symm
    exact (Sound.size_joinLower_of_ne hqp).trans
      (Sound.size_joinUpper_of_ne s p hqb)
  · intro hsmall hself
    have hp' := Sound.size_joinUpper_of_ne s p hplace.lt.ne
    have hpsmall := hsmall p hplace.mem
    have hnext := hsmall _ (h.ring.next_mem p hplace.mem)
    have hle : s.size bp ≤ (s.joinUpper bp p).size bp ∧
        (s.joinUpper bp p).size bp < 2 ^ 31 := by
      rcases Sound.size_joinUpper_self s bp p with heq | heq
      · omega
      · omega
    obtain ⟨q, hq, hqsize⟩ := hfit (by omega)
    exact ⟨q, hq, hle.1.trans hqsize⟩

end Xv6.Malloc
