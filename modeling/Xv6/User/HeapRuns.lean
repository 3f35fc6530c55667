import Xv6.User.Allocate

/-!
# Runs of `malloc` and `free`

A program allocates and frees blocks, and other parts of it get memory from
`sbrk` in between. The free list stays sound and every call returns, as long as
requests are well below 2 GiB. Without that bound the number of bytes that
`morecore` needs does not fit the `int` that `sbrk` takes.
-/

namespace Xv6.Malloc

open Framework

variable {base mmapBase n : ℕ} {room : Bool} {s s' : State}
variable {blocks free : Finset ℕ} {p prevp : ℕ}

/-! ## More rounds do not change a result -/

variable {q : ℕ}

theorem freeLoop_mono {bp : ℕ} :
    ∀ {fuel p}, s.freeLoop bp fuel p = some q →
      ∀ k, s.freeLoop bp (fuel + k) p = some q
  | 0, _, h, _ => by cases h
  | fuel + 1, p, h, k => by
    rw [State.freeLoop] at h
    rw [Nat.add_right_comm, State.freeLoop]
    split at h
    · rename_i htest
      rw [if_pos htest, h]
    · rename_i htest
      rw [if_neg htest]
      split at h
      · rename_i htest'
        rw [if_pos htest', h]
      · rename_i htest'
        rw [if_neg htest']
        exact freeLoop_mono h k

variable {fuel : ℕ}

theorem free_mono {ap : ℕ} (h : s.free fuel ap = some s') (k : ℕ) :
    s.free (fuel + k) ap = some s' := by
  obtain ⟨p, hloop, hs⟩ := Option.map_eq_some_iff.mp h
  rw [State.free, freeLoop_mono hloop k, ← hs]
  rfl

variable {r : State × ℕ}

theorem morecore_mono (h : s.morecore mmapBase room fuel n = some r) (k : ℕ) :
    s.morecore mmapBase room (fuel + k) n = some r := by
  unfold State.morecore at h ⊢
  dsimp only at h ⊢
  generalize State.sbrk mmapBase room _ _ = answer at h ⊢
  obtain ⟨t, none | hp⟩ := answer
  · exact h
  · obtain ⟨t', hfree, ht⟩ := Option.map_eq_some_iff.mp h
    rw [State.addRegion, free_mono hfree k, ← ht]
    rfl

theorem mallocLoop_mono :
    ∀ {fuel s prevp p}, State.mallocLoop mmapBase room n fuel s prevp p =
        some r →
      ∀ k, State.mallocLoop mmapBase room n (fuel + k) s prevp p = some r
  | 0, _, _, _, h, _ => by cases h
  | fuel + 1, s, prevp, p, h, k => by
    rw [State.mallocLoop] at h
    rw [Nat.add_right_comm, State.mallocLoop]
    split at h
    · rename_i htest
      rw [if_pos htest, h]
    · rename_i htest
      rw [if_neg htest]
      split at h
      · rename_i hround
        rw [if_pos hround]
        obtain ⟨t, hmore, ht⟩ := Option.bind_eq_some_iff.mp h
        rw [morecore_mono hmore k, Option.bind_some]
        split at ht
        · rename_i hzero
          rw [if_pos hzero, ht]
        · rename_i hzero
          rw [if_neg hzero]
          exact mallocLoop_mono ht k
      · rename_i hround
        rw [if_neg hround]
        exact mallocLoop_mono h k

/-! ## The first call -/

/-- The allocator of a program that has not called `malloc`. -/
structure Fresh (base : ℕ) (s : State) : Prop where
  freep : s.freep = 0
  regions : s.regions = []
  uint : ∀ p, s.size p < 2 ^ 32
  base_pos : 0 < base
  base_le : base + headerSize ≤ s.sz

/-- The heap between two calls. -/
def Heap (base : ℕ) (s : State) (blocks free : Finset ℕ) : Prop :=
  (Fresh base s ∧ blocks = {base} ∧ free = {base}) ∨ Sound base s blocks free

/-- `malloc` begins with a sound list, be it that of `base` alone. -/
theorem Heap.start (h : Heap base s blocks free) :
    Sound base (s.start base) blocks free ∧ (s.start base).calls = s.calls ∧
      ∀ q, q ∈ blocks → q ∉ free → (s.start base).size q = s.size q := by
  rcases h with ⟨hfresh, rfl, rfl⟩ | h
  · rw [State.start, if_pos hfresh.freep]
    have hnone : ∀ x, ¬ s.Granted x := by
      rintro x ⟨-, r, hr, -⟩
      rw [hfresh.regions] at hr
      cases hr
    refine ⟨⟨⟨Finset.mem_singleton_self base, State.size_setSize_self .., ?_,
      ?_, ?_⟩, subset_rfl, SortedRing.singleton (State.ptr_setPtr_self ..),
      Finset.mem_singleton_self base, ?_, Sound.uint_setSize hfresh.uint 0,
      hfresh.base_pos, fun x hx => absurd hx (hnone x), hfresh.base_le⟩, rfl,
      fun q hq hqf => absurd hq hqf⟩
    · intro q hq
      exact (Finset.mem_singleton.mp hq).ge
    · intro q hq r hr hqr
      rw [Finset.mem_singleton.mp hq, Finset.mem_singleton.mp hr] at hqr
      exact absurd hqr (lt_irrefl base)
    · intro q hq hqb
      exact absurd (Finset.mem_singleton.mp hq) hqb
    · intro q hq r hr hqr
      rw [Finset.mem_singleton.mp hq, Finset.mem_singleton.mp hr] at hqr
      exact absurd hqr (lt_irrefl base)
  · have hne : s.freep ≠ 0 :=
      (h.base_pos.trans_le (h.ring.first_le _ h.freep)).ne'
    rw [State.start, if_neg hne]
    exact ⟨h, rfl, fun _ _ _ => rfl⟩

variable {nbytes : ℕ}

/-- The number of units is that of the bytes and a header. -/
theorem nunits_bounds (h : nbytes < 2 ^ 32) :
    nbytes + headerSize ≤ headerSize * State.nunits nbytes ∧
      headerSize * State.nunits nbytes < nbytes + 2 * headerSize := by
  unfold State.nunits headerSize
  omega

theorem nunits_pos (h : nbytes < 2 ^ 32) : 0 < State.nunits nbytes := by
  have hle := (nunits_bounds h).1
  unfold headerSize at hle
  omega

theorem nunits_le_iff {m : ℕ} (h : nbytes < 2 ^ 32) :
    State.nunits nbytes ≤ m ↔ nbytes + headerSize ≤ headerSize * m := by
  obtain ⟨hle, hlt⟩ := nunits_bounds h
  unfold headerSize at *
  omega

theorem bytes_lt_iff (h : nbytes < 2 ^ 32) :
    headerSize * State.moreUnits (State.nunits nbytes) < 2 ^ 31 ↔
      nbytes ≤ 2 ^ 31 - 32 := by
  obtain ⟨hle, hlt⟩ := nunits_bounds h
  unfold State.moreUnits
  unfold headerSize at *
  split
  · omega
  · omega

/-! ## One call -/

theorem calls_morecore (h : s.morecore mmapBase room fuel n = some r) :
    r.1.calls = (State.moreUnits n * headerSize,
      State.toInt (State.moreUnits n * headerSize)) :: s.calls := by
  have hsbrk : ∀ (t : State) (m : ℤ),
      (t.sbrk mmapBase room m).1.calls = t.calls := by
    intro t m
    unfold State.sbrk
    split_ifs <;> rfl
  unfold State.morecore at h
  dsimp only at h
  have hcalls := hsbrk (s.noteCall (State.moreUnits n))
    (State.toInt (State.moreUnits n * headerSize))
  generalize State.sbrk mmapBase room _ _ = answer at h hcalls
  obtain ⟨t, none | hp⟩ := answer
  · cases h
    exact hcalls
  · obtain ⟨t', hfree, rfl⟩ := Option.map_eq_some_iff.mp h
    obtain ⟨q, -, rfl⟩ := Option.map_eq_some_iff.mp hfree
    exact (Sound.joins_frame ..).2.2.trans hcalls

theorem calls_mallocLoop :
    ∀ {fuel s prevp p}, State.mallocLoop mmapBase room n fuel s prevp p =
      some r → s.calls <:+ r.1.calls
  | 0, _, _, _, h => by cases h
  | fuel + 1, s, prevp, p, h => by
    rw [State.mallocLoop] at h
    split at h
    · cases h
      unfold State.take
      split
      · exact List.suffix_rfl
      · exact List.suffix_rfl
    · split at h
      · obtain ⟨t, hmore, ht⟩ := Option.bind_eq_some_iff.mp h
        have hsuffix : s.calls <:+ t.1.calls := by
          rw [calls_morecore hmore]
          exact List.suffix_cons ..
        split at ht
        · cases ht
          exact hsuffix
        · exact hsuffix.trans (calls_mallocLoop ht)
      · exact calls_mallocLoop h

/-- Without a block that is large enough, `sbrk` gets what is left of the number
of bytes in an `int`. -/
theorem Sound.calls_of_none (h : Sound base s blocks free)
    (hnone : ∀ q ∈ free, s.size q < n)
    (hr : s.mallocLoop mmapBase room n fuel s.freep (s.ptr s.freep) = some r) :
    (State.moreUnits n * headerSize,
      State.toInt (State.moreUnits n * headerSize)) :: s.calls <:+
        r.1.calls := by
  obtain ⟨prevp, hprev, N, hwalk, hstop⟩ := h.walk mmapBase room n
  have hround : s.ptr prevp = s.freep := by
    rcases hstop with hfit | ⟨hround, -⟩
    · exact absurd (hnone _ (h.ring.next_mem _ hprev)) (not_lt_of_ge hfit)
    · exact hround
  have hmono := mallocLoop_mono hr (N + 1)
  rw [show fuel + (N + 1) = N + (fuel + 1) by omega, hwalk, State.mallocLoop,
    hround, if_neg (not_le.mpr (hnone _ h.freep)), if_pos rfl] at hmono
  obtain ⟨t, hmore, ht⟩ := Option.bind_eq_some_iff.mp hmono
  rw [← calls_morecore hmore]
  split at ht
  · cases ht
    exact List.suffix_rfl
  · exact calls_mallocLoop ht

/-- A live block is memory that `sbrk` granted. -/
theorem Sound.granted_of_live (h : Sound base s blocks free) (hq : q ∈ blocks)
    (hqf : q ∉ free) {x : ℕ} (hqx : q ≤ x) (hx : x < q + headerSize * s.size q) :
    s.Granted x :=
  h.layout.granted q hq (ne_of_mem_of_not_mem h.ring.first_mem hqf).symm x hqx
    (hx.trans_le (le_stop s.size q).1)

/-- **`malloc` returns memory that it has when the request is small enough or
fits a free block, and only then.** Otherwise the number of bytes and what
`sbrk` gets differ. -/
theorem malloc_granted_iff (h : Heap base s blocks free) {nbytes : ℕ}
    (hn : nbytes < 2 ^ 32) :
    (∃ fuel s' ap, s.malloc base mmapBase room fuel nbytes = some (s', ap) ∧
      (ap = 0 ∨ ∀ x, ap ≤ x → x < ap + nbytes → s'.Granted x) ∧
      (s'.calls = s.calls ∨ ∃ m : ℕ, s'.calls = (m, (m : ℤ)) :: s.calls)) ↔
    (s.freep ≠ 0 ∧ ∃ q ∈ free, nbytes + headerSize ≤ headerSize * s.size q) ∨
      nbytes ≤ 2 ^ 31 - 32 := by
  obtain ⟨hsound, hcalls, -⟩ := h.start
  have hpos := nunits_pos hn
  simp only [← nunits_le_iff hn]
  -- whether there is a fit does not depend on the first call
  have hfit : (s.freep ≠ 0 ∧ ∃ q ∈ free, State.nunits nbytes ≤ s.size q) ↔
      ∃ q ∈ free, State.nunits nbytes ≤ (s.start base).size q := by
    by_cases hzero : s.freep = 0
    · refine iff_of_false (fun hne => hne.1 hzero) ?_
      rintro ⟨q, hq, hqn⟩
      rcases h with ⟨-, -, rfl⟩ | h
      · rw [Finset.mem_singleton.mp hq, hsound.layout.base_size] at hqn
        exact absurd hpos (not_lt_of_ge hqn)
      · exact absurd hzero
          (h.base_pos.trans_le (h.ring.first_le _ h.freep)).ne'
    · rw [State.start, if_neg hzero]
      exact and_iff_right hzero
  rw [hfit, ← bytes_lt_iff hn]
  constructor
  · rintro ⟨fuel, s', ap, hmalloc, -, hagree⟩
    by_contra hnot
    obtain ⟨hnofit, hbig⟩ := not_or.mp hnot
    have hsuffix := hsound.calls_of_none (fun q hq => not_le.mp fun hqn =>
      hnofit ⟨q, hq, hqn⟩) hmalloc
    rw [hcalls] at hsuffix
    rcases hagree with hsame | ⟨m, hm⟩
    · have hlen := hsuffix.length_le
      rw [hsame, List.length_cons] at hlen
      omega
    · rw [hm] at hsuffix
      obtain ⟨heq, -⟩ := List.cons.inj
        (hsuffix.eq_of_length (by rw [List.length_cons, List.length_cons]))
      obtain ⟨hm₁, hm₂⟩ := Prod.mk.inj heq
      rw [hm₁] at hm₂
      refine hbig ?_
      rw [mul_comm, hm₁]
      exact toInt_eq_iff.mp hm₂
  · intro hsmall
    obtain ⟨s', ap, N, blocks', free', hloop, hcalls', -, hsound', hcases⟩ :=
      hsound.mallocLoop_spec mmapBase room hpos hsmall
    refine ⟨N, s', ap, hloop 0, ?_, hcalls ▸ hcalls'⟩
    rcases hcases with ⟨hzero, -⟩ | ⟨q, rfl, -, hsize, hlive⟩
    · exact Or.inl hzero
    · refine Or.inr fun x hqx hx => ?_
      obtain ⟨hq, hqf⟩ := (hlive q).mpr (Or.inr rfl)
      refine hsound'.granted_of_live hq hqf ((Nat.le_add_right ..).trans hqx) ?_
      have hle := (nunits_bounds hn).1
      rw [hsize]
      omega

/-- A program before its first call, with `sz` bytes of memory. -/
def State.initial (sz : ℕ) : State where
  ptr := fun _ => 0
  size := fun _ => 0
  freep := 0
  sz := sz
  regions := []
  calls := []

theorem fresh_initial {sz : ℕ} (hbase : 0 < base)
    (hsz : base + headerSize ≤ sz) : Fresh base (State.initial sz) :=
  ⟨rfl, rfl, fun _ => Nat.two_pow_pos 32, hbase, hsz⟩

theorem malloc_granted_hundred :
    ∃ fuel s' ap,
      (State.initial 8192).malloc 4096 (2 ^ 37) true fuel 100 = some (s', ap) ∧
      (ap = 0 ∨ ∀ x, ap ≤ x → x < ap + 100 → s'.Granted x) ∧
      (s'.calls = [] ∨ ∃ m : ℕ, s'.calls = [(m, (m : ℤ))]) :=
  have hheap : Heap 4096 (State.initial 8192) {4096} {4096} :=
    Or.inl ⟨fresh_initial (by decide) (by decide), rfl, rfl⟩
  (malloc_granted_iff hheap (by decide)).mpr (Or.inr (by decide))

/-- The largest request: `sbrk` is asked for 16 bytes, and `malloc` returns a
block that begins where the memory of the process ends. -/
theorem malloc_ungranted :
    ∃ s', (State.initial 8192).malloc 4096 (2 ^ 37) true 8 (2 ^ 32 - 1) =
        some (s', 8208) ∧
      ¬ s'.Granted 8208 ∧ s'.calls = [(2 ^ 32 + 16, 16)] := by
  obtain ⟨r, hr, hall⟩ := exists_some_of_any
    (o := (State.initial 8192).malloc 4096 (2 ^ 37) true 8 (2 ^ 32 - 1))
    (p := fun r => r.2 == 8208 && r.1.sz == 8208 &&
      r.1.calls == [(2 ^ 32 + 16, 16)]) (by decide +kernel)
  simp only [Bool.and_eq_true, beq_iff_eq] at hall
  obtain ⟨⟨hap, hsz⟩, hcalls⟩ := hall
  refine ⟨r.1, by rw [hr, ← hap], ?_, hcalls⟩
  rintro ⟨hlt, -⟩
  rw [hsz] at hlt
  exact lt_irrefl _ hlt

/-! ## Runs -/

/-- A program and its allocations. -/
structure Program where
  heap : State
  /-- The pointers that were returned and not freed, with the bytes asked
  for. -/
  live : List (ℕ × ℕ)

inductive Op
  /-- `room` says whether the kernel has the memory. -/
  | malloc (nbytes : ℕ) (room : Bool)
  | free (ap : ℕ)
  /-- Another part of the program gets memory from `sbrk`. -/
  | grow (n : ℕ)

namespace Program

def step (base mmapBase fuel : ℕ) (s : Program) : Op → Except Unit Program
  | .malloc nbytes room =>
      ((s.heap.malloc base mmapBase room fuel nbytes).map fun r =>
        ⟨r.1, if r.2 = 0 then s.live else (r.2, nbytes) :: s.live⟩).elim
        (.error ()) .ok
  | .free ap =>
      ((s.heap.free fuel ap).map fun heap =>
        ⟨heap, s.live.filter (·.1 ≠ ap)⟩).elim (.error ()) .ok
  | .grow n => .ok { s with heap := { s.heap with sz := s.heap.sz + n } }

/-- Requests are bounded, and what is freed is a live allocation. -/
def Ok (s : Program) : Op → Prop
  | .malloc nbytes _ => nbytes < 2 ^ 31 - 65536
  | .free ap => ap ∈ s.live.map Prod.fst
  | .grow _ => True

instance Ok.decidable (s : Program) (op : Op) : Decidable (s.Ok op) :=
  match op with
  | .malloc _ _ => inferInstanceAs (Decidable (_ < _))
  | .free _ => inferInstanceAs (Decidable (_ ∈ _))
  | .grow _ => inferInstanceAs (Decidable True)

/-- The live allocations are the blocks that are not free. -/
structure Inv (base : ℕ) (s : Program) (blocks free : Finset ℕ) : Prop where
  heap : Heap base s.heap blocks free
  live : ∀ q, q ∈ blocks ∧ q ∉ free ↔ q + headerSize ∈ s.live.map Prod.fst
  ge : ∀ e ∈ s.live, headerSize ≤ e.1
  nodup : (s.live.map Prod.fst).Nodup
  bytes : ∀ e ∈ s.live,
    e.2 + headerSize ≤ headerSize * s.heap.size (e.1 - headerSize)

theorem inv_initial {sz : ℕ} (hbase : 0 < base)
    (hsz : base + headerSize ≤ sz) :
    Inv base ⟨State.initial sz, []⟩ {base} {base} where
  heap := Or.inl ⟨fresh_initial hbase hsz, rfl, rfl⟩
  live := fun _ => iff_of_false (fun h => h.2 h.1) List.not_mem_nil
  ge := fun _ he => absurd he List.not_mem_nil
  nodup := List.nodup_nil
  bytes := fun _ he => absurd he List.not_mem_nil

variable {t t' : Program} {op : Op} {fuel nbytes ap : ℕ}

theorem Inv.live_of_mem (h : Inv base t blocks free) {e : ℕ × ℕ}
    (he : e ∈ t.live) :
    e.1 - headerSize ∈ blocks ∧ e.1 - headerSize ∉ free := by
  rw [h.live, Nat.sub_add_cancel (h.ge e he)]
  exact List.mem_map_of_mem he

/-- The allocations keep their sizes. -/
theorem Inv.bytes_of_size (h : Inv base t blocks free) (s' : State)
    (hsize : ∀ q, q ∈ blocks → q ∉ free → s'.size q = t.heap.size q) :
    ∀ e ∈ t.live,
      e.2 + headerSize ≤ headerSize * s'.size (e.1 - headerSize) := by
  intro e he
  obtain ⟨hq, hqf⟩ := h.live_of_mem he
  rw [hsize _ hq hqf]
  exact h.bytes e he

theorem Inv.malloc (h : Inv base t blocks free) (hn : nbytes < 2 ^ 31 - 65536) :
    ∃ t' N blocks' free',
      (∀ k, t.step base mmapBase (N + k) (.malloc nbytes room) = .ok t') ∧
      Inv base t' blocks' free' := by
  obtain ⟨hsound, -, hsize⟩ := h.heap.start
  have hn' : nbytes < 2 ^ 32 := by omega
  obtain ⟨hle, -⟩ := nunits_bounds hn'
  have hpos := nunits_pos hn'
  have hbytes := (bytes_lt_iff hn').mpr (by omega)
  obtain ⟨s', ap, N, blocks', free', hloop, -, hsize', hsound', hcases⟩ :=
    hsound.mallocLoop_spec mmapBase room hpos (Or.inr hbytes)
  have hold := h.bytes_of_size s' fun q hq hqf =>
    (hsize' q hq hqf).trans (hsize q hq hqf)
  refine ⟨⟨s', if ap = 0 then t.live else (ap, nbytes) :: t.live⟩, N, blocks',
    free', ?_, ?_⟩
  · intro k
    rw [step, State.malloc, hloop k]
    rfl
  · rcases hcases with ⟨rfl, hlive⟩ | ⟨q, rfl, hfresh, hself, hlive⟩
    · rw [if_pos rfl]
      exact ⟨Or.inr hsound', fun q => (hlive q).trans (h.live q), h.ge, h.nodup,
        hold⟩
    · have hne : q + headerSize ≠ 0 := by
        unfold headerSize
        omega
      rw [if_neg hne]
      refine ⟨Or.inr hsound', ?_, ?_, ?_, ?_⟩
      · intro r
        rw [hlive, h.live, List.map_cons, List.mem_cons, or_comm]
        exact or_congr_left (Nat.add_right_cancel_iff).symm
      · intro e he
        rcases List.mem_cons.mp he with rfl | he
        · exact Nat.le_add_left ..
        · exact h.ge e he
      · rw [List.map_cons, List.nodup_cons, ← h.live]
        exact ⟨hfresh, h.nodup⟩
      · intro e he
        rcases List.mem_cons.mp he with rfl | he
        · dsimp only
          rw [Nat.add_sub_cancel, hself]
          exact hle
        · exact hold e he

theorem Inv.release (h : Inv base t blocks free)
    (hap : ap ∈ t.live.map Prod.fst) :
    ∃ t' N blocks' free',
      (∀ k, t.step base mmapBase (N + k) (.free ap) = .ok t') ∧
      Inv base t' blocks' free' := by
  obtain ⟨e, he, rfl⟩ := List.mem_map.mp hap
  obtain ⟨hq, hqf⟩ := h.live_of_mem he
  have hback := Nat.sub_add_cancel (h.ge e he)
  have hsound : Sound base t.heap blocks free := by
    rcases h.heap with ⟨-, rfl, rfl⟩ | hsound
    · exact absurd hq hqf
    · exact hsound
  obtain ⟨s', N, blocks', free', hfree, hfreed⟩ := hsound.free_spec hq hqf
  rw [hback] at hfree
  refine ⟨⟨s', t.live.filter (·.1 ≠ e.1)⟩, N, blocks', free', ?_,
    Or.inr hfreed.sound, ?_, ?_, ?_, ?_⟩
  · intro k
    rw [step, hfree k]
    rfl
  · intro q
    rw [hfreed.live, h.live]
    simp only [List.mem_map, List.mem_filter, decide_eq_true_eq]
    constructor
    · rintro ⟨⟨f, hf, hfq⟩, hne⟩
      refine ⟨f, ⟨hf, ?_⟩, hfq⟩
      intro heq
      rw [← heq, hfq, Nat.add_sub_cancel] at hne
      exact hne rfl
    · rintro ⟨f, ⟨hf, hne⟩, hfq⟩
      refine ⟨⟨f, hf, hfq⟩, ?_⟩
      rintro rfl
      exact hne (hfq.trans hback)
  · intro f hf
    exact h.ge f (List.mem_of_mem_filter hf)
  · exact h.nodup.sublist (List.filter_sublist.map Prod.fst)
  · intro f hf
    obtain ⟨hf, hne⟩ := List.mem_filter.mp hf
    obtain ⟨-, hff⟩ := h.live_of_mem hf
    dsimp only
    rw [hfreed.size _ hff]
    · exact h.bytes f hf
    · intro heq
      have hback' := Nat.sub_add_cancel (h.ge f hf)
      rw [heq, hback] at hback'
      exact absurd hback'.symm (of_decide_eq_true hne)

theorem Inv.grow (h : Inv base t blocks free) (n : ℕ) :
    Inv base { t with heap := { t.heap with sz := t.heap.sz + n } } blocks
      free := by
  refine ⟨?_, h.live, h.ge, h.nodup, h.bytes⟩
  rcases h.heap with ⟨hfresh, hblocks⟩ | hs
  · exact Or.inl ⟨⟨hfresh.freep, hfresh.regions, hfresh.uint, hfresh.base_pos,
      Nat.le_add_right_of_le hfresh.base_le⟩, hblocks⟩
  · refine Or.inr ⟨⟨hs.layout.base_mem, hs.layout.base_size, hs.layout.base_le,
      hs.layout.apart, ?_⟩, hs.sub, hs.ring, hs.freep, hs.gap, hs.uint,
      hs.base_pos, ?_, Nat.le_add_right_of_le hs.base_le⟩
    · intro q hq hqb x hqx hx
      obtain ⟨hlt, hregion⟩ := hs.layout.granted q hq hqb x hqx hx
      exact ⟨Nat.lt_add_right n hlt, hregion⟩
    · rintro x ⟨-, hregion⟩
      by_cases hx : x < t.heap.sz
      · exact hs.above x ⟨hx, hregion⟩
      · exact hs.base_le.trans (not_lt.mp hx)

/-- **Every allowed call returns and keeps the heap sound.** -/
theorem Inv.step_spec (h : Inv base t blocks free) (mmapBase : ℕ)
    (hok : t.Ok op) :
    ∃ t' N blocks' free', (∀ k, t.step base mmapBase (N + k) op = .ok t') ∧
      Inv base t' blocks' free' := by
  cases op with
  | malloc nbytes room => exact h.malloc hok
  | free ap => exact h.release hok
  | grow n => exact ⟨_, 0, blocks, free, fun _ => rfl, h.grow n⟩

theorem step_mono (hs : t.step base mmapBase fuel op = .ok t') (k : ℕ) :
    t.step base mmapBase (fuel + k) op = .ok t' := by
  cases op with
  | malloc nbytes room =>
    rw [step] at hs ⊢
    cases hr : t.heap.malloc base mmapBase room fuel nbytes with
    | none =>
      rw [hr] at hs
      cases hs
    | some r =>
      rw [State.malloc, mallocLoop_mono hr k]
      rwa [hr] at hs
  | free ap =>
    rw [step] at hs ⊢
    cases hr : t.heap.free fuel ap with
    | none =>
      rw [hr] at hs
      cases hs
    | some r =>
      rw [free_mono hr k]
      rwa [hr] at hs
  | grow n => exact hs

theorem Inv.step (h : Inv base t blocks free) (hok : t.Ok op)
    (hs : t.step base mmapBase fuel op = .ok t') :
    ∃ blocks' free', Inv base t' blocks' free' := by
  obtain ⟨t₁, N, blocks', free', hstep, hinv⟩ :=
    h.step_spec mmapBase hok
  have hmono := step_mono hs N
  rw [add_comm, hstep] at hmono
  cases hmono
  exact ⟨blocks', free', hinv⟩

/-- Blocks do not overlap. -/
theorem disjoint_block {granted : ℕ → Prop}
    (h : Layout base s.size granted blocks) (hp : p ∈ blocks) (hq : q ∈ blocks)
    (hne : p ≠ q) : Disjoint (s.block p) (s.block q) := by
  rw [Set.disjoint_left]
  rintro x ⟨hpx, hx⟩ ⟨hqx, hx'⟩
  have hp' := (le_stop s.size p).1
  have hq' := (le_stop s.size q).1
  rcases lt_or_gt_of_ne hne with hlt | hlt
  · have := h.apart p hp q hq hlt
    omega
  · have := h.apart q hq p hp hlt
    omega

/-- **The heap of every program stays sound.** After any calls with requests
below 2 GiB - 64 KiB and frees of live allocations: the free list is a finite
circular list through `base`, in increasing order but for one link, of blocks
that neither overlap nor touch; the live allocations have the bytes that were
asked for, in memory that `sbrk` granted, and overlap neither each other nor a
free block; and every further call returns. -/
theorem malloc_free_sound {sz : ℕ} {ops : List Op} (hbase : 0 < base)
    (hsz : base + headerSize ≤ sz)
    (run : Run (step base mmapBase fuel) Ok ⟨State.initial sz, []⟩ ops t) :
    ((t.heap.freep = 0 ∧ t.live = []) ∨
      ∃ free : Finset ℕ, SortedRing free base t.heap.ptr ∧
        t.heap.freep ∈ free ∧
        (∀ p ∈ free, ∀ q ∈ free, p ≠ q →
          Disjoint (t.heap.block p) (t.heap.block q) ∧
            p + headerSize * t.heap.size p ≠ q) ∧
        ∀ p ∈ free, ∀ e ∈ t.live,
          Disjoint (t.heap.block p) (t.heap.block (e.1 - headerSize))) ∧
    (t.live.Pairwise fun e f => Disjoint (t.heap.block (e.1 - headerSize))
      (t.heap.block (f.1 - headerSize))) ∧
    (∀ e ∈ t.live, headerSize ≤ e.1 ∧
      e.2 + headerSize ≤ headerSize * t.heap.size (e.1 - headerSize) ∧
      ∀ x ∈ t.heap.block (e.1 - headerSize), t.heap.Granted x) ∧
    ∀ op, t.Ok op → ∃ N, ∀ fuel ≥ N, ∃ t', t.step base mmapBase fuel op =
      .ok t' := by
  obtain ⟨blocks, free, h⟩ : ∃ blocks free, Inv base t blocks free := by
    refine run.invariant ?_
      (I := fun t => ∃ blocks free, Inv base t blocks free)
      ⟨_, _, inv_initial hbase hsz⟩
    rintro t op t' ⟨blocks, free, h⟩ hok hs
    exact h.step hok hs
  have hreturns : ∀ op, t.Ok op → ∃ N, ∀ fuel ≥ N, ∃ t',
      t.step base mmapBase fuel op = .ok t' := by
    intro op hok
    obtain ⟨t', N, -, -, hstep, -⟩ := h.step_spec mmapBase hok
    refine ⟨N, fun fuel hfuel => ⟨t', ?_⟩⟩
    rw [← Nat.add_sub_cancel' hfuel]
    exact hstep _
  rcases h.heap with ⟨hfresh, hblocks, hfree⟩ | hs
  · -- nothing has been allocated
    have hnone : t.live = [] := by
      refine List.eq_nil_iff_forall_not_mem.mpr fun e he => ?_
      obtain ⟨hq, hqf⟩ := h.live_of_mem he
      rw [hblocks] at hq
      rw [hfree] at hqf
      exact hqf hq
    refine ⟨Or.inl ⟨hfresh.freep, hnone⟩, ?_, ?_, hreturns⟩
    · rw [hnone]
      exact List.Pairwise.nil
    · intro e he
      rw [hnone] at he
      cases he
  · refine ⟨Or.inr ⟨free, hs.ring, hs.freep, ?_, ?_⟩, ?_, ?_, hreturns⟩
    · intro p hp q hq hne
      refine ⟨disjoint_block hs.layout (hs.sub hp) (hs.sub hq) hne, ?_⟩
      intro heq
      have hlt : p < q := by
        unfold headerSize at heq
        omega
      exact absurd heq (hs.gap p hp q hq hlt).ne
    · intro p hp e he
      obtain ⟨hq, hqf⟩ := h.live_of_mem he
      exact disjoint_block hs.layout (hs.sub hp) hq
        (ne_of_mem_of_not_mem hp hqf)
    · refine (List.pairwise_map.mp h.nodup).imp_of_mem ?_
      intro e f he hf hne
      refine disjoint_block hs.layout (h.live_of_mem he).1 (h.live_of_mem hf).1
        ?_
      intro heq
      have hge := h.ge e he
      have hge' := h.ge f hf
      exact hne (by omega)
    · intro e he
      obtain ⟨hq, hqf⟩ := h.live_of_mem he
      exact ⟨h.ge e he, h.bytes e he, fun x hx =>
        hs.granted_of_live hq hqf hx.1 hx.2⟩

/-- Two allocations, one freed, and a third from a new region. -/
def threeBlocks : List Op :=
  [.malloc 100 true, .malloc 5000 true, .free 73616, .grow 48,
    .malloc 100000 true]

theorem malloc_free_sound_threeBlocks :
    ∃ t : Program, Run (step 4096 (2 ^ 37) 16) Ok ⟨State.initial 8192, []⟩
        threeBlocks t ∧
      t.live.length = 2 ∧
      t.live.Pairwise fun e f => Disjoint (t.heap.block (e.1 - headerSize))
        (t.heap.block (f.1 - headerSize)) := by
  obtain ⟨t, hrun, hlive⟩ := exists_some_of_any
    (show (Run.checked (step 4096 (2 ^ 37) 16) Ok ⟨State.initial 8192, []⟩
      threeBlocks).any (fun t => t.live.length == 2) = true by decide +kernel)
  have run := Run.of_checked hrun
  exact ⟨t, run, eq_of_beq hlive,
    (malloc_free_sound (by decide) (by decide) run).2.1⟩

/-- A request that fits a free block is granted without `sbrk`. -/
theorem malloc_of_fit (h : Sound base s blocks free) (hn : nbytes < 2 ^ 32)
    (hq : q ∈ free) (hfit : State.nunits nbytes ≤ s.size q)
    (mmapBase : ℕ) (room : Bool) :
    ∃ s' ap N, (∀ k, s.malloc base mmapBase room (N + k) nbytes =
      some (s', ap)) ∧ ap ≠ 0 ∧ s'.calls = s.calls := by
  obtain ⟨prevp, hprev, N, hwalk, hstop⟩ :=
    h.walk mmapBase room (State.nunits nbytes)
  have hle := hstop.resolve_right fun hnone =>
    absurd (hnone.2 q hq) (not_lt_of_ge hfit)
  obtain ⟨q', _, _, hap, htaken⟩ := h.take_spec hprev (nunits_pos hn) hle
  have hstart : s.start base = s :=
    if_neg (h.base_pos.trans_le (h.ring.first_le _ h.freep)).ne'
  refine ⟨_, q' + headerSize, N + 1, fun k => ?_, Nat.succ_ne_zero _,
    htaken.calls⟩
  rw [← hap, State.malloc, hstart, add_assoc, add_comm 1 k, hwalk k,
    State.mallocLoop, if_pos hle]

/-- **What was freed can be allocated again**: after `free` of a live
allocation a request that is not larger gets a block, without `sbrk`. Below
16 GiB the sizes of joined blocks do not overflow. -/
theorem freed_memory_reused {sz : ℕ} {ops : List Op} (hbase : 0 < base)
    (hsz : base + headerSize ≤ sz)
    (run : Run (step base mmapBase fuel) Ok ⟨State.initial sz, []⟩ ops t)
    (hsmall : t.heap.sz < 2 ^ 34) {e : ℕ × ℕ} (he : e ∈ t.live)
    (hn : nbytes < 2 ^ 32) (hle : nbytes ≤ e.2) :
    ∃ s₁ s₂ ap N, ap ≠ 0 ∧ s₂.calls = t.heap.calls ∧ ∀ fuel ≥ N,
      t.heap.free fuel e.1 = some s₁ ∧
      s₁.malloc base mmapBase room fuel nbytes = some (s₂, ap) := by
  obtain ⟨blocks, free, h⟩ := run.invariant
    (I := fun t => ∃ blocks free, Inv base t blocks free)
    (by rintro t op t' ⟨blocks, free, h⟩; exact h.step)
    ⟨_, _, inv_initial hbase hsz⟩
  obtain ⟨hq, hqf⟩ := h.live_of_mem he
  have hs := h.heap.resolve_left fun hnew => hqf (hnew.2.2 ▸ hnew.2.1 ▸ hq)
  have hsize : ∀ q ∈ blocks, t.heap.size q < 2 ^ 30 := by
    intro q hq
    by_contra hbig
    have hne : q ≠ base := by
      rintro rfl
      exact hbig (hs.layout.base_size ▸ Nat.two_pow_pos 30)
    -- the last byte of the block is memory of the process
    have hlast := hs.layout.granted q hq hne (stop t.heap.size q - 1)
    grind [stop, headerSize, State.Granted]
  obtain ⟨s₁, N₁, _, _, hfree, hfreed⟩ := hs.free_spec hq hqf
  obtain ⟨q, hqfree, hfit⟩ :=
    hfreed.fit (fun q hq => hsize q (hs.sub hq)) (hsize _ hq)
  have hunits := (nunits_le_iff hn).mpr
    ((Nat.add_le_add_right hle _).trans (h.bytes e he))
  obtain ⟨s₂, ap, N₂, hmalloc, hap, hcalls⟩ :=
    malloc_of_fit hfreed.sound hn hqfree (hunits.trans hfit) mmapBase room
  refine ⟨s₁, s₂, ap, N₁ + N₂, hap, hcalls.trans hfreed.calls, ?_⟩
  intro fuel hfuel
  obtain ⟨k, rfl⟩ := Nat.exists_eq_add_of_le hfuel
  rw [Nat.sub_add_cancel (h.ge e he)] at hfree
  constructor
  · rw [add_assoc, hfree]
  · rw [add_comm N₁, add_assoc, hmalloc]

theorem freed_memory_reused_hundred : ∃ t s₁ s₂ ap fuel,
    Run (step 4096 (2 ^ 37) 16) Ok ⟨State.initial 8192, []⟩
      [.malloc 100 true] t ∧
    t.heap.free fuel 73616 = some s₁ ∧ s₂.calls = t.heap.calls ∧
    s₁.malloc 4096 (2 ^ 37) false fuel 64 = some (s₂, ap) := by
  obtain ⟨t, hrun, ht⟩ := exists_some_of_any
    (show (Run.checked (step 4096 (2 ^ 37) 16) Ok ⟨State.initial 8192, []⟩
      [.malloc 100 true]).any (fun t => t.heap.sz < 2 ^ 34 &&
        (73616, 100) ∈ t.live) = true by decide +kernel)
  have run := Run.of_checked hrun
  simp only [Bool.and_eq_true, decide_eq_true_eq] at ht
  obtain ⟨s₁, s₂, ap, N, -, hcalls, hall⟩ := freed_memory_reused (by decide)
    (by decide) run ht.1 ht.2 (show 64 < 2 ^ 32 by decide) (by decide)
  exact ⟨t, s₁, s₂, ap, N, run, (hall N le_rfl).1, hcalls, (hall N le_rfl).2⟩

end Program

end Xv6.Malloc
