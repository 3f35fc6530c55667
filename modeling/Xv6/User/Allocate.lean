import Xv6.User.FreeList

/-!
# Allocating a block

`malloc` walks around the free list once. If a block is large enough it is
taken, in whole or in part; otherwise `morecore` puts a new region into the
list and the next walk finds it.
-/

namespace Xv6.Malloc

open Framework

variable {base mmapBase n : ℕ} {room : Bool} {s : State}
variable {blocks free : Finset ℕ} {p prevp : ℕ}

/-- What has become of the heap after `q` was allocated. -/
structure Taken (base : ℕ) (s s' : State) (blocks free : Finset ℕ) (q n : ℕ)
    (blocks' free' : Finset ℕ) : Prop where
  sound : Sound base s' blocks' free'
  fresh : ¬ (q ∈ blocks ∧ q ∉ free)
  live : ∀ r, r ∈ blocks' ∧ r ∉ free' ↔ (r ∈ blocks ∧ r ∉ free) ∨ r = q
  size : ∀ r, r ∈ blocks → r ∉ free → s'.size r = s.size r
  size_self : s'.size q = n
  calls : s'.calls = s.calls

variable {m : ℕ}

namespace Sound

theorem ne_base_of_size (h : Sound base s blocks free) (hn : 0 < s.size p) :
    p ≠ base := by
  rintro rfl
  rw [h.layout.base_size] at hn
  exact lt_irrefl 0 hn

/-- A block of the right size is taken out of the list. -/
theorem take_whole (h : Sound base s blocks free) (hprev : prevp ∈ free)
    (hn : 0 < s.size (s.ptr prevp)) :
    Taken base s
      { s.setPtr prevp (s.ptr (s.ptr prevp)) with freep := prevp } blocks free
      (s.ptr prevp) (s.size (s.ptr prevp)) blocks
      (free.erase (s.ptr prevp)) := by
  have hne := h.ne_base_of_size hn
  have hmem := h.ring.next_mem prevp hprev
  have hlt := h.ring.lt_next hprev hne
  refine ⟨⟨h.layout, (Finset.erase_subset ..).trans h.sub, ?_,
    Finset.mem_erase.mpr ⟨hlt.ne, hprev⟩, ?_, h.uint, h.base_pos, h.above,
    h.base_le⟩, ?_, ?_, fun _ _ _ => rfl, rfl, rfl⟩
  · refine h.ring.erase _ hprev hne (State.ptr_setPtr_self ..) ?_
    intro q _ hqp _
    exact State.ptr_setPtr_of_ne _ _ hqp
  · intro q hq r hr
    exact h.gap q (Finset.mem_of_mem_erase hq) r (Finset.mem_of_mem_erase hr)
  · rintro ⟨-, hnot⟩
    exact hnot hmem
  · intro r
    rw [Finset.mem_erase]
    have hin : r = s.ptr prevp → r ∈ free ∧ r ∈ blocks := fun heq =>
      heq ▸ ⟨hmem, h.sub hmem⟩
    tauto

/-- The upper end of a larger block is taken. -/
theorem take_part (h : Sound base s blocks free) (hprev : prevp ∈ free)
    (hp : p ∈ free) (hn : 0 < n) (hlt : n < s.size p) :
    let q := p + headerSize * (s.size p - n)
    Taken base s
      { (s.setSize p (s.size p - n)).setSize q n with freep := prevp } blocks
      free q n (insert q blocks) free := by
  intro q
  obtain ⟨hnew, hlayout⟩ := h.layout.split (h.sub hp) hn hlt
  have huint := h.uint p
  have hrest : (s.size p - n) % 2 ^ 32 = s.size p - n :=
    Nat.mod_eq_of_lt (by omega)
  have hn' : n % 2 ^ 32 = n := Nat.mod_eq_of_lt (by omega)
  have hsize : ((s.setSize p (s.size p - n)).setSize q n).size =
      Function.update (Function.update s.size p (s.size p - n)) q n := by
    rw [State.setSize, State.setSize, hrest, hn']
  have hle : ∀ r ∈ blocks,
      ((s.setSize p (s.size p - n)).setSize q n).size r ≤ s.size r := by
    intro r hr
    rw [State.size_setSize_of_ne _ _ (ne_of_mem_of_not_mem hr hnew)]
    by_cases hrp : r = p
    · rw [hrp, State.size_setSize_self, hrest]
      exact Nat.sub_le ..
    · rw [State.size_setSize_of_ne _ _ hrp]
  rw [← hsize] at hlayout
  refine ⟨⟨hlayout, h.sub.trans (Finset.subset_insert ..), h.ring, hprev, ?_,
    uint_setSize (uint_setSize h.uint _) _, h.base_pos, h.above, h.base_le⟩,
    ?_, ?_, ?_, ?_, rfl⟩
  · intro r hr t ht hrt
    have hgap := h.gap r hr t ht hrt
    have := hle r (h.sub hr)
    unfold headerSize at *
    exact lt_of_le_of_lt (by dsimp only; omega) hgap
  · rintro ⟨hq, -⟩
    exact hnew hq
  · intro r
    rw [Finset.mem_insert]
    have hin : r = q → r ∉ free := by
      rintro rfl hr
      exact hnew (h.sub hr)
    tauto
  · intro r hr hrf
    have hrp : r ≠ p := (ne_of_mem_of_not_mem hp hrf).symm
    have hrq : r ≠ q := ne_of_mem_of_not_mem hr hnew
    exact (State.size_setSize_of_ne _ _ hrq).trans
      (State.size_setSize_of_ne _ _ hrp)
  · exact (State.size_setSize_self ..).trans hn'

/-- **A block that is large enough is taken.** -/
theorem take_spec (h : Sound base s blocks free) (hprev : prevp ∈ free)
    (hn : 0 < n) (hle : n ≤ s.size (s.ptr prevp)) :
    ∃ q blocks' free', (s.take prevp (s.ptr prevp) n).2 = q + headerSize ∧
      Taken base s (s.take prevp (s.ptr prevp) n).1 blocks free q n blocks'
        free' := by
  unfold State.take
  split
  · rename_i heq
    have htaken := h.take_whole hprev (hn.trans_le hle)
    rw [heq] at htaken
    exact ⟨_, _, _, rfl, htaken⟩
  · rename_i hne
    exact ⟨_, _, _, rfl, h.take_part hprev (h.ring.next_mem _ hprev) hn
      (lt_of_le_of_ne hle (Ne.symm hne))⟩

/-! ## A new region -/

/-- A region from `sbrk` is a block that is not free yet. -/
theorem grow (h : Sound base s blocks free) (hm : 0 < m) (hlt : m < 2 ^ 32) :
    s.sz ∉ blocks ∧ Sound base
      ({ s with
          sz := s.sz + headerSize * m,
          regions := (s.sz, headerSize * m) :: s.regions }.setSize s.sz m)
      (insert s.sz blocks) free := by
  have hbelow : ∀ q ∈ blocks, q < s.sz := by
    intro q hq
    have hstop := h.stop_le hq
    have := (le_stop s.size q).2
    unfold headerSize at this
    omega
  have hnew : s.sz ∉ blocks := fun hmem => lt_irrefl _ (hbelow _ hmem)
  have hmono : ∀ x, s.Granted x → State.Granted { s with
      sz := s.sz + headerSize * m,
      regions := (s.sz, headerSize * m) :: s.regions } x := by
    rintro x ⟨hx, r, hr, hin⟩
    exact ⟨Nat.lt_add_right _ hx, r, List.mem_cons_of_mem _ hr, hin⟩
  refine ⟨hnew, ?_, h.sub.trans (Finset.subset_insert ..), h.ring, h.freep, ?_,
    uint_setSize h.uint m, h.base_pos, ?_, Nat.le_add_right_of_le h.base_le⟩
  · have hstop : stop (Function.update s.size s.sz m) s.sz =
        s.sz + headerSize * m := by
      rw [stop, Function.update_self, max_eq_left hm]
    have hlayout : Layout base s.size (State.Granted { s with
        sz := s.sz + headerSize * m,
        regions := (s.sz, headerSize * m) :: s.regions }) blocks :=
      ⟨h.layout.base_mem, h.layout.base_size, h.layout.base_le, h.layout.apart,
        fun q hq hqb x hqx hx => hmono x (h.layout.granted q hq hqb x hqx hx)⟩
    have hinsert := hlayout.insert (p := s.sz) (n := m)
      (hbelow _ h.layout.base_mem) (fun q hq _ => h.stop_le hq)
      (fun q hq hlt => absurd hlt (hbelow q hq).not_gt) hnew
      (fun x hle hx => ⟨hstop ▸ hx, _, List.mem_cons_self .., hle, hstop ▸ hx⟩)
    rw [State.setSize, Nat.mod_eq_of_lt hlt]
    exact hinsert
  · intro q hq r hr hqr
    have hqz : q ≠ s.sz := (hbelow q (h.sub hq)).ne
    have hsize := State.size_setSize_of_ne { s with
      sz := s.sz + headerSize * m,
      regions := (s.sz, headerSize * m) :: s.regions } m hqz
    rw [hsize]
    exact h.gap q hq r hr hqr
  · rintro x ⟨hx, r, hr, hin⟩
    rcases List.mem_cons.mp hr with rfl | hr
    · exact h.base_le.trans hin.1
    · by_cases hxz : x < s.sz
      · exact h.above x ⟨hxz, r, hr, hin⟩
      · exact h.base_le.trans (not_lt.mp hxz)

end Sound

/-! ## `morecore` -/

/-- A number of bytes is passed to `sbrk` as it is when it fits an `int`. -/
theorem toInt_eq_iff : State.toInt m = m ↔ m < 2 ^ 31 := by
  unfold State.toInt
  constructor
  · intro h
    have hlt := Int.bmod_lt (x := (m : ℤ)) (m := 2 ^ 32) (by decide)
    rw [h] at hlt
    omega
  · intro h
    rw [Int.bmod_eq_of_le]
    · omega
    · omega

theorem le_moreUnits (n : ℕ) : n ≤ State.moreUnits n ∧ 0 < State.moreUnits n := by
  unfold State.moreUnits
  split
  · omega
  · omega

/-- What has become of the heap after `morecore`. -/
structure More (base : ℕ) (s s' : State) (blocks free : Finset ℕ) (n p : ℕ)
    (blocks' free' : Finset ℕ) : Prop where
  sound : Sound base s' blocks' free'
  live : ∀ q, q ∈ blocks' ∧ q ∉ free' ↔ q ∈ blocks ∧ q ∉ free
  size : ∀ q, q ∈ blocks → q ∉ free → s'.size q = s.size q
  calls : ∃ m : ℕ, s'.calls = (m, (m : ℤ)) :: s.calls
  fit : p = 0 ∨ (p = s'.freep ∧ ∃ q ∈ free', n ≤ s'.size q)

/-- With a positive argument `sbrk` fails or returns a region of that size at
the end of the process. -/
theorem sbrk_cases (s : State) (mmapBase : ℕ) (room : Bool) (hm : 0 < m) :
    s.sbrk mmapBase room (m : ℤ) = (s, none) ∨
      s.sbrk mmapBase room (m : ℤ) = ({ s with
        sz := s.sz + m, regions := (s.sz, m) :: s.regions }, some s.sz) := by
  unfold State.sbrk
  split
  · exact Or.inl rfl
  · rw [if_pos (Int.natCast_pos.mpr hm), Int.toNat_natCast]
    split
    · exact Or.inr rfl
    · exact Or.inl rfl

/-- **`morecore` gets memory or leaves the heap as it is.** -/
theorem Sound.morecore_spec (h : Sound base s blocks free) (mmapBase : ℕ)
    (room : Bool) (hsmall : headerSize * State.moreUnits n < 2 ^ 31)
    (hnone : ∀ q ∈ free, s.size q < n) :
    ∃ s' p N blocks' free',
      (∀ k, s.morecore mmapBase room (N + k) n = some (s', p)) ∧
      More base s s' blocks free n p blocks' free' := by
  obtain ⟨hle, hpos⟩ := le_moreUnits n
  have hbound : State.moreUnits n < 2 ^ 30 := by
    unfold headerSize at hsmall
    omega
  obtain ⟨m, hm⟩ : ∃ m, State.moreUnits n = m := ⟨_, rfl⟩
  rw [hm] at hsmall hle hpos hbound
  have hint := toInt_eq_iff.mpr hsmall
  rw [mul_comm headerSize m] at hint
  have h₀ : Sound base (s.noteCall m) blocks free :=
    ⟨h.layout, h.sub, h.ring, h.freep, h.gap, h.uint, h.base_pos, h.above,
      h.base_le⟩
  have hcalls : (s.noteCall m).calls =
      (m * headerSize, ((m * headerSize : ℕ) : ℤ)) :: s.calls := by
    rw [State.noteCall, hint]
  have hmore : ∀ fuel, s.morecore mmapBase room fuel n = State.addRegion fuel m
      ((s.noteCall m).sbrk mmapBase room ((m * headerSize : ℕ) : ℤ)) := by
    intro fuel
    rw [State.morecore, hm, hint]
  have hsize : (s.noteCall m).size = s.size := rfl
  generalize s.noteCall m = s₀ at *
  have hbytes : 0 < m * headerSize := Nat.mul_pos hpos (by decide)
  rcases sbrk_cases s₀ mmapBase room hbytes with hfail | hregion
  · refine ⟨s₀, 0, 0, blocks, free, ?_, h₀, fun _ => Iff.rfl, ?_, ⟨_, hcalls⟩,
      Or.inl rfl⟩
    · intro k
      rw [hmore, hfail, State.addRegion]
    · intro q _ _
      rw [hsize]
  · obtain ⟨hnew, hgrown⟩ := h₀.grow hpos (hbound.trans (by decide))
    rw [mul_comm headerSize m] at hgrown
    have hself := State.size_setSize_self { s₀ with
      sz := s₀.sz + m * headerSize,
      regions := (s₀.sz, m * headerSize) :: s₀.regions } s₀.sz m
    have hsame : ∀ q ∈ blocks, State.size (State.setSize { s₀ with
        sz := s₀.sz + m * headerSize,
        regions := (s₀.sz, m * headerSize) :: s₀.regions } s₀.sz m) q =
        s.size q := by
      intro q hq
      rw [State.size_setSize_of_ne _ _ (ne_of_mem_of_not_mem hq hnew)]
      exact congrFun hsize q
    obtain ⟨s', N, blocks', free', hfree, hfreed⟩ := hgrown.free_spec
      (Finset.mem_insert_self ..) (fun hmem => hnew (h.sub hmem))
    rw [Nat.mod_eq_of_lt (hbound.trans (by decide))] at hself
    refine ⟨s', s'.freep, N, blocks', free', ?_, hfreed.sound, ?_, ?_,
      ⟨_, hfreed.calls.trans hcalls⟩, ?_⟩
    · intro k
      rw [hmore, hregion, State.addRegion, hfree k]
      rfl
    · intro q
      rw [hfreed.live, Finset.mem_insert]
      constructor
      · rintro ⟨⟨hq | hq, hqf⟩, hne⟩
        · exact absurd hq hne
        · exact ⟨hq, hqf⟩
      · rintro ⟨hq, hqf⟩
        exact ⟨⟨Or.inr hq, hqf⟩, ne_of_mem_of_not_mem hq hnew⟩
    · intro q hq hqf
      rw [hfreed.size q hqf (ne_of_mem_of_not_mem hq hnew), hsame q hq]
    · have hfit := hfreed.fit ?_ ?_
      · obtain ⟨q, hq, hqm⟩ := hfit
        rw [hself] at hqm
        exact Or.inr ⟨rfl, q, hq, hle.trans hqm⟩
      · intro q hq
        rw [hsame q (h.sub hq)]
        exact (hnone q hq).trans (lt_of_le_of_lt hle hbound)
      · rw [hself]
        exact hbound

/-! ## The walk -/

/-- Rounds of the loop that neither take a block nor come back to `freep`. -/
theorem Sound.rounds (h : Sound base s blocks free) (hp : p ∈ free) :
    ∀ N, (∀ m < N, ¬ (n ≤ s.size (s.ptr^[m] (s.ptr p)) ∨
        s.ptr^[m] (s.ptr p) = s.freep)) →
      ∀ k, s.mallocLoop mmapBase room n (N + (k + 1)) p (s.ptr p) =
        s.mallocLoop mmapBase room n (k + 1) (s.ptr^[N] p)
          (s.ptr (s.ptr^[N] p)) := by
  intro N
  induction N generalizing p with
  | zero =>
    intro _ k
    rw [Nat.zero_add, Function.iterate_zero_apply]
  | succ N ih =>
    intro hbefore k
    have hnot := hbefore 0 (Nat.succ_pos N)
    rw [Function.iterate_zero_apply, not_or] at hnot
    rw [Nat.add_right_comm, State.mallocLoop, if_neg hnot.1, if_neg hnot.2]
    exact ih (h.ring.next_mem p hp)
      (fun m hm => hbefore (m + 1) (Nat.succ_lt_succ hm)) k

/-- One time round the list: the walk stops before a block that is large
enough, or it has come back to `freep` and there is none. -/
theorem Sound.walk (h : Sound base s blocks free) (mmapBase : ℕ)
    (room : Bool) (n : ℕ) :
    ∃ prevp ∈ free, ∃ N,
      (∀ k, s.mallocLoop mmapBase room n (N + (k + 1)) s.freep
          (s.ptr s.freep) =
        s.mallocLoop mmapBase room n (k + 1) prevp (s.ptr prevp)) ∧
      (n ≤ s.size (s.ptr prevp) ∨
        (s.ptr prevp = s.freep ∧ ∀ q ∈ free, s.size q < n)) := by
  obtain ⟨N, hstop, hbefore⟩ := h.ring.exists_first_stop
    (fun q => n ≤ s.size q ∨ q = s.freep) (h.ring.next_mem _ h.freep) h.freep (Or.inr rfl)
  refine ⟨s.ptr^[N] s.freep, h.ring.iterate_mem h.freep N, N,
    h.rounds h.freep N hbefore, ?_⟩
  rw [← Function.iterate_succ_apply' s.ptr N, Function.iterate_succ_apply]
  by_cases hfit : n ≤ s.size (s.ptr^[N] (s.ptr s.freep))
  · exact Or.inl hfit
  · have hround := hstop.resolve_left hfit
    refine Or.inr ⟨hround, fun q hq => not_le.mp fun hle => ?_⟩
    -- everything is met in the first round
    obtain ⟨m, hm⟩ := h.ring.reaches (h.ring.next_mem _ h.freep) hq
    have hperiod : Function.IsPeriodicPt s.ptr (N + 1) (s.ptr s.freep) := by
      rw [Function.IsPeriodicPt, Function.IsFixedPt,
        Function.iterate_succ_apply', hround]
    rw [← hperiod.iterate_mod_apply m] at hm
    rcases Nat.lt_succ_iff_lt_or_eq.mp (Nat.mod_lt m (Nat.succ_pos N)) with
      hlt | heq
    · exact hbefore _ hlt (Or.inl (hm ▸ hle))
    · rw [heq] at hm
      exact hfit (hm ▸ hle)

/-- **`malloc` returns**, with no block or with a new one. -/
theorem Sound.mallocLoop_spec (h : Sound base s blocks free) (mmapBase : ℕ)
    (room : Bool) (hn : 0 < n)
    (hsmall : (∃ q ∈ free, n ≤ s.size q) ∨
      headerSize * State.moreUnits n < 2 ^ 31) :
    ∃ s' ap N blocks' free', (∀ k, s.mallocLoop mmapBase room n (N + k) s.freep
        (s.ptr s.freep) = some (s', ap)) ∧
      (s'.calls = s.calls ∨ ∃ m : ℕ, s'.calls = (m, (m : ℤ)) :: s.calls) ∧
      (∀ q, q ∈ blocks → q ∉ free → s'.size q = s.size q) ∧
      Sound base s' blocks' free' ∧
      ((ap = 0 ∧ ∀ q, q ∈ blocks' ∧ q ∉ free' ↔ q ∈ blocks ∧ q ∉ free) ∨
        ∃ q, ap = q + headerSize ∧ ¬ (q ∈ blocks ∧ q ∉ free) ∧
          s'.size q = n ∧
          ∀ r, r ∈ blocks' ∧ r ∉ free' ↔ (r ∈ blocks ∧ r ∉ free) ∨ r = q) := by
  obtain ⟨prevp, hprev, N, hwalk, hstop⟩ := h.walk mmapBase room n
  rcases hstop with hfit | ⟨hround, hnone⟩
  · obtain ⟨q, blocks', free', hap, htaken⟩ := h.take_spec hprev hn hfit
    refine ⟨_, _, N + 1, blocks', free', ?_, Or.inl htaken.calls, htaken.size,
      htaken.sound, Or.inr ⟨q, hap, htaken.fresh, htaken.size_self,
        htaken.live⟩⟩
    intro k
    rw [add_assoc, add_comm 1 k, hwalk k, State.mallocLoop, if_pos hfit]
  · have hbytes : headerSize * State.moreUnits n < 2 ^ 31 := by
      refine hsmall.resolve_left ?_
      rintro ⟨q, hq, hle⟩
      exact absurd (hnone q hq) (not_lt_of_ge hle)
    obtain ⟨s₁, p, N₁, blocks₁, free₁, hmore, hspec⟩ :=
      h.morecore_spec mmapBase room hbytes hnone
    have hloop : ∀ k, s.mallocLoop mmapBase room n (N + (N₁ + k + 1)) s.freep
        (s.ptr s.freep) = if p = 0 then some (s₁, 0) else
          s₁.mallocLoop mmapBase room n (N₁ + k) p (s₁.ptr p) := by
      intro k
      rw [hwalk, State.mallocLoop, hround, if_neg (not_le.mpr
        (hnone _ h.freep)), if_pos rfl, hmore k]
      rfl
    obtain ⟨m, hm⟩ := hspec.calls
    rcases hspec.fit with hzero | ⟨hfreep, hfit⟩
    · refine ⟨s₁, 0, N + (N₁ + 1), blocks₁, free₁, ?_, Or.inr ⟨m, hm⟩,
        hspec.size, hspec.sound, Or.inl ⟨rfl, hspec.live⟩⟩
      intro k
      rw [add_assoc, Nat.add_right_comm, hloop, if_pos hzero]
    · -- the second walk finds the region
      obtain ⟨prevp₁, hprev₁, N₂, hwalk₁, hstop₁⟩ :=
        hspec.sound.walk mmapBase room n
      have hfit₁ : n ≤ s₁.size (s₁.ptr prevp₁) := by
        refine hstop₁.resolve_right ?_
        rintro ⟨-, hnone₁⟩
        obtain ⟨q, hq, hle⟩ := hfit
        exact absurd (hnone₁ q hq) (not_lt_of_ge hle)
      obtain ⟨q, blocks', free', hap, htaken⟩ :=
        hspec.sound.take_spec hprev₁ hn hfit₁
      have hp : p ≠ 0 := by
        rw [hfreep]
        exact (hspec.sound.base_pos.trans_le
          (hspec.sound.ring.first_le _ hspec.sound.freep)).ne'
      refine ⟨_, _, N + (N₁ + (N₂ + 1) + 1), blocks', free', ?_,
        Or.inr ⟨m, htaken.calls.trans hm⟩, ?_, htaken.sound,
        Or.inr ⟨q, hap, ?_, htaken.size_self, ?_⟩⟩
      · intro k
        have hfuel : N₁ + (N₂ + 1) + 1 + k = N₁ + (N₂ + 1 + k) + 1 := by omega
        have hfuel' : N₁ + (N₂ + 1 + k) = N₂ + (N₁ + k + 1) := by omega
        rw [add_assoc, hfuel, hloop, if_neg hp, hfreep, hfuel', hwalk₁,
          State.mallocLoop, if_pos hfit₁]
      · intro r hr hrf
        obtain ⟨hr₁, hrf₁⟩ := (hspec.live r).mpr ⟨hr, hrf⟩
        rw [htaken.size r hr₁ hrf₁, hspec.size r hr hrf]
      · rw [← hspec.live]
        exact htaken.fresh
      · intro r
        rw [htaken.live, hspec.live]

end Xv6.Malloc
