import Xv6.Bio.Cache

/-!
# Integrity and coherence of the buffer cache

In every state the cache can get into, the list holds every buffer once, a
block has one buffer at most, and a reference count is the number of those who
refer to the buffer. From this it follows step by step that a buffer in use
keeps its block, that `bread` returns what was last stored, and that only data
which nobody holds, pins or has written can be dropped.
-/

namespace Xv6.Bio

open Framework Log

variable {P : Type*}

/-! ## Both loops of `bget` -/

/-- The list goes around through every buffer once. -/
def BioState.Linked (s : BioState P) : Prop :=
  ∃ L, s.links.Ring L ∧ L.Perm (List.finRange NBUF)

namespace BioState

variable {s s' : BioState P} {dev : UInt32} {b : BlockNo} {i : BufId}

theorem Linked.lookup_some (h : s.Linked) (hi : s.lookup dev b = some i) :
    (s.buf i).dev = dev ∧ (s.buf i).blockno = b := by
  obtain ⟨L, hring, hperm⟩ := h
  rw [lookup, hring.scan_next _ (by simp [hperm.length_eq])] at hi
  simpa using List.find?_some hi

theorem Linked.lookup_none (h : s.Linked) (hnone : s.lookup dev b = none)
    (i : BufId) : ¬((s.buf i).dev = dev ∧ (s.buf i).blockno = b) := by
  obtain ⟨L, hring, hperm⟩ := h
  rw [lookup, hring.scan_next _ (by simp [hperm.length_eq]),
    List.find?_eq_none] at hnone
  simpa using hnone i (hperm.mem_iff.mpr (List.mem_finRange i))

theorem Linked.victim_some (h : s.Linked) (hi : s.victim = some i) :
    (s.buf i).refcnt = 0 := by
  obtain ⟨L, hring, hperm⟩ := h
  rw [victim, hring.scan_prev _ (by simp [hperm.length_eq])] at hi
  simpa using List.find?_some hi

theorem Linked.victim_none (h : s.Linked) (hnone : s.victim = none)
    (i : BufId) : (s.buf i).refcnt ≠ 0 := by
  obtain ⟨L, hring, hperm⟩ := h
  rw [victim, hring.scan_prev _ (by simp [hperm.length_eq]),
    List.find?_eq_none] at hnone
  simpa using hnone i
    (List.mem_reverse.mpr (hperm.mem_iff.mpr (List.mem_finRange i)))

theorem binit_linked (disk : Disk) : (binit disk : BioState P).Linked := by
  have hring := Links.Ring.empty.foldl_pushFront (l := List.finRange NBUF)
    (by simpa using List.nodup_finRange NBUF)
  rw [List.append_nil] at hring
  exact ⟨_, hring, List.reverse_perm _⟩

end BioState

/-! ## What a reference count counts -/

/-- The process is in `bget`, at the sleep lock of buffer `i`. -/
@[simp]
def Task.waitsFor (i : BufId) : Task → Bool
  | .waiting j _ => j = i
  | _ => false

/-- The process is in `brelse`, done with buffer `i` but for its count. -/
@[simp]
def Task.leaves (i : BufId) : Task → Bool
  | .releasing j => j = i
  | _ => false

variable {t t' : Traced P}

namespace Traced

variable [Fintype P]

def waiters (t : Traced P) (i : BufId) : ℕ := tally t.s.task (Task.waitsFor i)

/-- From the `acquiresleep` of `bread` to the end of `brelse`. -/
def holders (t : Traced P) (i : BufId) : ℕ :=
  (t.s.buf i).lock.isSome.toNat + tally t.s.task (Task.leaves i)

def refs (t : Traced P) (i : BufId) : ℕ :=
  t.holders i + t.waiters i + t.pins i

/-- What process `p`, the lock and the pins contribute. -/
def weight (t : Traced P) (p : P) (i : BufId) : ℕ :=
  (t.s.buf i).lock.isSome.toNat + ((t.s.task p).leaves i).toNat +
    ((t.s.task p).waitsFor i).toNat + t.pins i

theorem refs_balance {p : P} (hother : ∀ q, q ≠ p → t'.s.task q = t.s.task q)
    (i : BufId) : t'.refs i + t.weight p i = t.refs i + t'.weight p i := by
  classical
  have htask : t'.s.task = Function.update t.s.task p (t'.s.task p) := by
    funext q
    by_cases hq : q = p
    · rw [hq, Function.update_self]
    · rw [Function.update_of_ne hq, hother q hq]
  have hw := tally_update t.s.task (Task.waitsFor i) p (t'.s.task p)
  have hl := tally_update t.s.task (Task.leaves i) p (t'.s.task p)
  rw [← htask] at hw hl
  simp only [refs, holders, waiters, weight]
  omega

end Traced

/-- No counter runs over: a buffer that gets one more reference has fewer than
`2 ^ 32 - 1` of them. -/
def Fits [Fintype P] (t : Traced P) : BioOp P → Prop
  | .bget _ _ b => ∀ i, t.Carries i b → t.refs i + 1 < 2 ^ 32
  | .bpin i => t.refs i + 1 < 2 ^ 32
  | _ => True

theorem toNat_succ {n : UInt32} (h : n.toNat + 1 < 2 ^ 32) :
    (n + 1).toNat = n.toNat + 1 := by
  rw [UInt32.toNat_add, UInt32.toNat_one, Nat.mod_eq_of_lt h]

theorem toNat_pred {n : UInt32} (h : 0 < n.toNat) :
    (n - 1).toNat = n.toNat - 1 := by
  have hle : (1 : UInt32) ≤ n := by
    rw [UInt32.le_iff_toNat_le, UInt32.toNat_one]
    exact h
  rw [UInt32.toNat_sub_of_le _ _ hle, UInt32.toNat_one]

/-! ## The invariant -/

/-- **What holds of the cache in every state.** -/
structure Integrity [Fintype P] (t : Traced P) : Prop where
  linked : t.s.Linked
  unique : ∀ {i j b}, t.Carries i b → t.Carries j b → i = j
  count : ∀ i, (t.s.buf i).refcnt.toNat = t.refs i

/-- The data `bread` of a block is to return: what was last stored in its
buffer, and what the disk has if the block has no buffer or an unmodified
one. -/
def Traced.content (t : Traced P) (b : BlockNo) : Block :=
  (t.left b).getD (t.s.disk b)

structure Inv [Fintype P] (t : Traced P) : Prop extends Integrity t where
  waiting : ∀ {p i b}, t.s.task p = .waiting i b → t.Carries i b
  filling : ∀ {p i b}, t.s.task p = .filling i b →
    t.Carries i b ∧ (t.s.buf i).lock = some p
  held : ∀ {p i}, (t.s.buf i).lock = some p →
    (∃ b, t.s.task p = .filling i b) ∨ (t.s.buf i).valid = true
  valid : ∀ {i}, (t.s.buf i).valid = true → (t.s.buf i).dev = ROOTDEV ∧
    (t.s.buf i).data = t.content (t.s.buf i).blockno
  left : ∀ {b d}, t.left b = some d →
    ∃ i, t.Carries i b ∧ (t.s.buf i).valid = true

namespace Inv

variable [Fintype P] {t t' : Traced P} {p : P} {i : BufId}

/-- Nobody has to do with a buffer whose count is zero. -/
theorem free (h : Inv t) (hi : (t.s.buf i).refcnt = 0) : t.refs i = 0 := by
  rw [← h.count i, hi]
  rfl

theorem lock_of_free (h : Inv t) (hi : (t.s.buf i).refcnt = 0) :
    (t.s.buf i).lock = none := by
  have hrefs := h.free hi
  cases hlock : (t.s.buf i).lock with
  | none => rfl
  | some p => simp [Traced.refs, Traced.holders, hlock] at hrefs

theorem not_waiting_of_free (h : Inv t) (hi : (t.s.buf i).refcnt = 0)
    (b : BlockNo) : t.s.task p ≠ .waiting i b := by
  intro htask
  have hpos : 0 < t.waiters i :=
    tally_pos (i := p) (by simp [htask, Task.waitsFor])
  have hrefs := h.free hi
  simp only [Traced.refs] at hrefs
  omega

theorem not_filling_of_free (h : Inv t) (hi : (t.s.buf i).refcnt = 0)
    (b : BlockNo) : t.s.task p ≠ .filling i b := by
  intro htask
  have hlock := (h.filling htask).2
  rw [h.lock_of_free hi] at hlock
  cases hlock

/-- Who holds the lock of a buffer outside of `bread` finds it filled. -/
theorem held_valid (h : Inv t) (hp : ∀ b, t.s.task p ≠ .filling i b)
    (hlock : (t.s.buf i).lock = some p) : (t.s.buf i).valid = true :=
  (h.held hlock).resolve_left fun hb => hb.elim hp

/-- A buffer between `bread` and `brelse` holds its block. -/
theorem holds (h : Inv t) (hp : Holds t p i) :
    (t.s.buf i).valid = true :=
  h.held_valid (by simp [hp.1]) hp.2

/-- A block whose buffer has yet to be filled has nothing left in it. -/
theorem left_eq_none (h : Inv t) {b : BlockNo} (hi : t.Carries i b)
    (hvalid : (t.s.buf i).valid = false) : t.left b = none := by
  cases hleft : t.left b with
  | none => rfl
  | some d =>
    obtain ⟨j, hj, hjvalid⟩ := h.left hleft
    rw [h.unique hi hj, hjvalid] at hvalid
    cases hvalid

/-- The counts stay right where every buffer's count moves with what process
`p`, the lock and the pins contribute. -/
theorem count_of (h : Inv t)
    (hother : ∀ q, q ≠ p → t'.s.task q = t.s.task q)
    (hbal : ∀ j, (t'.s.buf j).refcnt.toNat + t.weight p j =
      (t.s.buf j).refcnt.toNat + t'.weight p j) (j : BufId) :
    (t'.s.buf j).refcnt.toNat = t'.refs j := by
  have h₁ := Traced.refs_balance hother j
  have h₂ := hbal j
  rw [h.count j] at h₂
  omega

end Inv

/-! ## What a step can do -/

section Steps

variable [DecidableEq P]

/-- A block loses its buffer. -/
def Traced.forget (t : Traced P) (i : BufId) : BlockNo → Option Block :=
  if (t.s.buf i).dev = ROOTDEV then
    Function.update t.left (t.s.buf i).blockno none
  else t.left

inductive Effect (t : Traced P) : BioOp P → Traced P → Prop
  | share {p b i} (idle : t.s.task p = .idle) (found : t.Carries i b) :
      Effect t (.bget p ROOTDEV b)
        { t with s := (t.s.addRef i).setTask p (.waiting i b) }
  | recycle {p b i} (idle : t.s.task p = .idle)
      (absent : ∀ j, ¬t.Carries j b) (free : (t.s.buf i).refcnt = 0) :
      Effect t (.bget p ROOTDEV b)
        { t with
          s := (t.s.recycle i ROOTDEV b).setTask p (.waiting i b)
          left := t.forget i }
  | sleep {p} : Effect t (.acquiresleep p) t
  | acquire {p b i} (waiting : t.s.task p = .waiting i b)
      (unlocked : (t.s.buf i).lock = none) :
      Effect t (.acquiresleep p)
        { t with
          s := (t.s.setBuf i { t.s.buf i with lock := some p }).setTask p
            (.filling i b) }
  | cached {p b i} (filling : t.s.task p = .filling i b)
      (valid : (t.s.buf i).valid = true) :
      Effect t (.fill p) { t with s := t.s.setTask p .idle }
  | fill {p b i} (filling : t.s.task p = .filling i b)
      (invalid : (t.s.buf i).valid = false) :
      Effect t (.fill p)
        { t with
          s := (t.s.setBuf i { t.s.buf i with
            data := t.s.disk (t.s.buf i).blockno
            valid := true }).setTask p .idle }
  | modify {p i data} (holds : Holds t p i) :
      Effect t (.modify p i data)
        { t with
          s := t.s.modify i data
          left := Function.update t.left (t.s.buf i).blockno (some data) }
  | bwrite {p i} (holds : Holds t p i) :
      Effect t (.bwrite p i)
        { t with
          s := { t.s with
            disk := Function.update t.s.disk (t.s.buf i).blockno
              (t.s.buf i).data } }
  | brelse {p i} (holds : Holds t p i) :
      Effect t (.brelse p i)
        { t with
          s := (t.s.setBuf i { t.s.buf i with lock := none }).setTask p
            (.releasing i) }
  | release {p i} (releasing : t.s.task p = .releasing i) (links)
      (linked : links = t.s.links ∨
        links = (t.s.links.unlink i).pushFront i) :
      Effect t (.release p)
        { t with
          s := { (t.s.dropRef i).setTask p .idle with links := links } }
  | bpin {i} : Effect t (.bpin i)
      { t with
        s := t.s.addRef i
        pins := Function.update t.pins i (t.pins i + 1) }
  | bunpin {i} (pinned : 0 < t.pins i) : Effect t (.bunpin i)
      { t with
        s := t.s.dropRef i
        pins := Function.update t.pins i (t.pins i - 1) }

theorem Traced.step_ok {a : BioOp P} :
    t.step a = .ok t' ↔
      ∃ s, t.s.step a = .ok s ∧ { t.record a with s := s } = t' := by
  rw [Traced.step, bind_ok_iff]
  simp

theorem Effect.of_bget {p : P} {b : BlockNo} (hl : t.s.Linked)
    (hidle : t.s.task p = .idle) (h : t.step (.bget p ROOTDEV b) = .ok t') :
    Effect t (.bget p ROOTDEV b) t' := by
  obtain ⟨s, hs, rfl⟩ := Traced.step_ok.mp h
  simp only [BioState.step, BioState.bget] at hs
  cases hlook : t.s.lookup ROOTDEV b with
  | some i =>
    rw [hlook] at hs
    cases hs
    simp only [Traced.record, hlook]
    exact .share hidle (hl.lookup_some hlook)
  | none =>
    rw [hlook] at hs
    cases hvict : t.s.victim with
    | none =>
      rw [hvict] at hs
      cases hs
    | some i =>
      rw [hvict] at hs
      cases hs
      have heff := Effect.recycle hidle (hl.lookup_none hlook)
        (hl.victim_some hvict)
      simp only [Traced.record, hlook, hvict]
      simp only [Traced.forget] at heff
      split
      · rename_i hdev
        rwa [if_pos hdev] at heff
      · rename_i hdev
        rwa [if_neg hdev] at heff

theorem Effect.of_step {a : BioOp P} (hl : t.s.Linked) (hc : Client t a)
    (h : t.step a = .ok t') : Effect t a t' := by
  cases a with
  | bget p dev b =>
    obtain ⟨hidle, rfl⟩ := hc
    exact .of_bget hl hidle h
  | acquiresleep p =>
    obtain ⟨s, hs, rfl⟩ := Traced.step_ok.mp h
    cases hs
    obtain ⟨i, b, htask⟩ := hc
    simp only [Traced.record, BioState.acquiresleep, htask]
    cases hlock : (t.s.buf i).lock with
    | some q => exact .sleep
    | none => exact .acquire htask hlock
  | fill p =>
    obtain ⟨s, hs, rfl⟩ := Traced.step_ok.mp h
    cases hs
    obtain ⟨i, b, htask⟩ := hc
    simp only [Traced.record, BioState.fill, htask]
    cases hvalid : (t.s.buf i).valid with
    | true => exact .cached htask hvalid
    | false => exact .fill htask hvalid
  | modify p i data =>
    obtain ⟨s, hs, rfl⟩ := Traced.step_ok.mp h
    cases hs
    exact .modify hc
  | bwrite p i =>
    obtain ⟨s, hs, rfl⟩ := Traced.step_ok.mp h
    rw [BioState.step, BioState.bwrite, if_pos hc.2] at hs
    cases hs
    exact .bwrite hc
  | brelse p i =>
    obtain ⟨s, hs, rfl⟩ := Traced.step_ok.mp h
    rw [BioState.step, BioState.brelse, if_pos hc.2] at hs
    cases hs
    exact .brelse hc
  | release p =>
    obtain ⟨s, hs, rfl⟩ := Traced.step_ok.mp h
    cases hs
    obtain ⟨i, htask⟩ := hc
    simp only [Traced.record, BioState.release, htask]
    split
    · exact .release htask _ (Or.inr rfl)
    · exact .release htask _ (Or.inl rfl)
  | bpin i =>
    obtain ⟨s, hs, rfl⟩ := Traced.step_ok.mp h
    cases hs
    exact .bpin
  | bunpin i =>
    obtain ⟨s, hs, rfl⟩ := Traced.step_ok.mp h
    cases hs
    exact .bunpin hc

end Steps

/-! ## The invariant is kept -/

namespace Inv

variable [Fintype P] {t t' : Traced P} {p : P} {i : BufId} {b : BlockNo}

/-- A pin more or less, and the count with it. -/
theorem of_pins (h : Inv t) {c : UInt32} {n : ℕ}
    (hn : c.toNat + t.pins i = (t.s.buf i).refcnt.toNat + n) :
    Inv { t with
      s := t.s.setBuf i { t.s.buf i with refcnt := c }
      pins := Function.update t.pins i n } := by
  have hbuf : ∀ j, ∃ k, Function.update t.s.buf i
      { t.s.buf i with refcnt := c } j = { t.s.buf j with refcnt := k } := by
    intro j
    by_cases hj : j = i
    · subst hj
      exact ⟨c, Function.update_self ..⟩
    · exact ⟨_, Function.update_of_ne hj _ _⟩
  choose k hbuf using hbuf
  refine ⟨⟨h.linked, ?_, ?_⟩, ?_, ?_, ?_, ?_, ?_⟩ <;>
    simp only [Traced.Carries, BioState.setBuf_buf, BioState.setBuf_task, hbuf]
  · exact h.unique
  · intro j
    have hcount := h.count j
    have hk := congrArg Buf.refcnt (hbuf j)
    simp only [Traced.refs, Traced.holders, Traced.waiters, BioState.setBuf_buf,
      BioState.setBuf_task, hbuf] at hcount ⊢
    by_cases hj : j = i
    · subst hj
      rw [Function.update_self] at hk ⊢
      rw [← show c = k j from hk]
      omega
    · rw [Function.update_of_ne hj] at hk ⊢
      rw [← show _ = k j from hk]
      exact hcount
  · exact h.waiting
  · exact h.filling
  · exact h.held
  · exact h.valid
  · exact h.left

theorem bpin (h : Inv t) (hfits : t.refs i + 1 < 2 ^ 32) :
    Inv { t with
      s := t.s.addRef i
      pins := Function.update t.pins i (t.pins i + 1) } := by
  refine h.of_pins ?_
  rw [← h.count i] at hfits
  rw [toNat_succ hfits]
  omega

theorem bunpin (h : Inv t) (hpinned : 0 < t.pins i) :
    Inv { t with
      s := t.s.dropRef i
      pins := Function.update t.pins i (t.pins i - 1) } := by
  refine h.of_pins ?_
  have hpos : 0 < (t.s.buf i).refcnt.toNat := by
    rw [h.count i, Traced.refs]
    omega
  rw [toNat_pred hpos]
  omega

/-- What was stored is in buffer `i` or in another one. -/
theorem left_at (h : Inv t) (i : BufId) {d : Block} (hb : t.left b = some d) :
    (t.Carries i b ∧ (t.s.buf i).valid = true) ∨
      ∃ j, j ≠ i ∧ t.Carries j b ∧ (t.s.buf j).valid = true := by
  obtain ⟨j, hj⟩ := h.left hb
  by_cases hji : j = i
  · exact Or.inl (hji ▸ hj)
  · exact Or.inr ⟨j, hji, hj⟩

end Inv

section Turns

variable [DecidableEq P] {p : P} {i j l : BufId} {b : BlockNo} {c : Buf P}
  {k : Task}

/-- Process `p` goes on to `k`, and of the buffers only `i` changes: it keeps
its block, or gets one that was in no buffer. -/
structure Turn (t : Traced P) (p : P) (i : BufId) (c : Buf P) (k : Task)
    (t' : Traced P) : Prop where
  buf : t'.s.buf = Function.update t.s.buf i c
  task : t'.s.task = Function.update t.s.task p k
  pins : t'.pins = t.pins
  count : c.refcnt.toNat + t.weight p i =
    (t.s.buf i).refcnt.toNat + t'.weight p i
  away : ∀ j, j ≠ i → (t.s.task p).leaves j = k.leaves j ∧
    (t.s.task p).waitsFor j = k.waitsFor j ∧ ∀ b, t.s.task p ≠ .filling j b
  block : c.dev = (t.s.buf i).dev ∧ c.blockno = (t.s.buf i).blockno ∨
    (t.s.buf i).refcnt = 0 ∧ ∀ j, ¬ t.Carries j c.blockno
  lock : ∀ q, q ≠ p → (c.lock = some q ↔ (t.s.buf i).lock = some q)

namespace Turn

theorem self (u : Turn t p i c k t') : t'.s.buf i = c := by
  rw [u.buf, Function.update_self]

theorem other (u : Turn t p i c k t') (hj : j ≠ i) :
    t'.s.buf j = t.s.buf j := by
  rw [u.buf, Function.update_of_ne hj]

theorem task_self (u : Turn t p i c k t') : t'.s.task p = k := by
  rw [u.task, Function.update_self]

theorem task_of_ne (u : Turn t p i c k t') (q : P) (hq : q ≠ p) :
    t'.s.task q = t.s.task q := by
  rw [u.task, Function.update_of_ne hq]

theorem carries_self (u : Turn t p i c k t') :
    t'.Carries i b ↔ c.dev = ROOTDEV ∧ c.blockno = b := by
  rw [Traced.Carries, u.self]

theorem carries (u : Turn t p i c k t') (hj : j ≠ i) :
    t'.Carries j b ↔ t.Carries j b := by
  rw [Traced.Carries, Traced.Carries, u.other hj]

/-- A buffer that somebody has to do with keeps its block. -/
theorem keeps (u : Turn t p i c k t') (hj : (t.s.buf j).refcnt ≠ 0)
    (hb : t.Carries j b) : t'.Carries j b := by
  by_cases hji : j = i
  · subst hji
    rcases u.block with ⟨hdev, hno⟩ | ⟨hfree, -⟩
    · rw [u.carries_self, hdev, hno]
      exact hb
    · exact absurd hfree hj
  · exact (u.carries hji).mpr hb

/-- The other processes still have the locks they had. -/
theorem lock_iff (u : Turn t p i c k t') {q : P} (hq : q ≠ p) :
    (t'.s.buf j).lock = some q ↔ (t.s.buf j).lock = some q := by
  by_cases hj : j = i
  · rw [hj, u.self, u.lock q hq]
  · rw [u.other hj]

variable [Fintype P]

theorem unique (u : Turn t p i c k t') (h : Inv t) (hj : t'.Carries j b)
    (hl : t'.Carries l b) : j = l := by
  have hone : ∀ {j}, j ≠ i → t'.Carries i b → ¬ t'.Carries j b := by
    intro j hj hi hb
    rw [u.carries hj] at hb
    rw [u.carries_self] at hi
    rcases u.block with ⟨hdev, hno⟩ | ⟨-, hnew⟩
    · exact hj (h.unique hb ⟨hdev ▸ hi.1, hno ▸ hi.2⟩)
    · exact hnew j (hi.2 ▸ hb)
  by_cases hji : j = i <;> by_cases hli : l = i
  · rw [hji, hli]
  · exact absurd hl (hone hli (hji ▸ hj))
  · exact absurd hj (hone hji (hli ▸ hl))
  · exact h.unique ((u.carries hji).mp hj) ((u.carries hli).mp hl)

theorem refs (u : Turn t p i c k t') (h : Inv t) (j : BufId) :
    (t'.s.buf j).refcnt.toNat = t'.refs j := by
  refine h.count_of u.task_of_ne (fun j => ?_) j
  by_cases hj : j = i
  · rw [hj, u.self, u.count]
  · obtain ⟨hleaves, hwaits, -⟩ := u.away j hj
    simp only [Traced.weight, u.other hj, u.task_self, u.pins, hleaves, hwaits]

end Turn

namespace Inv

variable [Fintype P]

theorem of_turn (h : Inv t) (hlinked : t'.s.Linked)
    (u : Turn t p i c k t')
    (hwaiting : ∀ {j b}, k = .waiting j b → j = i ∧ c.dev = ROOTDEV ∧
      c.blockno = b)
    (hfilling : ∀ {j b}, k = .filling j b → j = i ∧ c.lock = some p ∧
      c.dev = ROOTDEV ∧ c.blockno = b)
    (hheld : c.lock = some p → (∃ b, k = .filling i b) ∨ c.valid = true)
    (hmono : ∀ q, c.lock = some q → (t.s.buf i).valid = true → c.valid = true)
    (hvalid : c.valid = true → c.dev = ROOTDEV ∧
      c.data = t'.content c.blockno)
    (hcontent : ∀ j, j ≠ i → (t.s.buf j).valid = true →
      t'.content (t.s.buf j).blockno = t.content (t.s.buf j).blockno)
    (hleft : ∀ {b d}, t'.left b = some d →
      ((c.dev = ROOTDEV ∧ c.blockno = b) ∧ c.valid = true) ∨
      ∃ j, j ≠ i ∧ t.Carries j b ∧ (t.s.buf j).valid = true) : Inv t' := by
  refine ⟨⟨hlinked, u.unique h, u.refs h⟩, ?_, ?_, ?_, ?_, ?_⟩
  · intro q j b hqb
    by_cases hqp : q = p
    · rw [hqp, u.task_self] at hqb
      obtain ⟨rfl, hj⟩ := hwaiting hqb
      exact u.carries_self.mpr hj
    · rw [u.task_of_ne q hqp] at hqb
      exact u.keeps (fun hfree => h.not_waiting_of_free hfree b hqb)
        (h.waiting hqb)
  · intro q j b hqb
    by_cases hqp : q = p
    · rw [hqp, u.task_self] at hqb
      obtain ⟨rfl, hown, hj⟩ := hfilling hqb
      rw [u.carries_self, u.self, hqp]
      exact ⟨hj, hown⟩
    · rw [u.task_of_ne q hqp] at hqb
      obtain ⟨hj, hown⟩ := h.filling hqb
      exact ⟨u.keeps (fun hfree => h.not_filling_of_free hfree b hqb) hj,
        (u.lock_iff hqp).mpr hown⟩
  · intro q j hqj
    by_cases hj : j = i
    · subst hj
      rw [u.self] at hqj ⊢
      by_cases hqp : q = p
      · rw [hqp, u.task_self]
        exact hheld (hqp ▸ hqj)
      · rw [u.task_of_ne q hqp]
        exact (h.held ((u.lock q hqp).mp hqj)).imp_right (hmono q hqj)
    · rw [u.other hj] at hqj ⊢
      refine (h.held hqj).imp_left fun ⟨b, hb⟩ => ⟨b, ?_⟩
      by_cases hqp : q = p
      · exact absurd (hqp ▸ hb) ((u.away j hj).2.2 b)
      · rw [u.task_of_ne q hqp, hb]
  · intro j hj
    by_cases hji : j = i
    · rw [hji, u.self] at hj ⊢
      exact hvalid hj
    · rw [u.other hji] at hj ⊢
      rw [hcontent j hji hj]
      exact h.valid hj
  · intro b d hb
    rcases hleft hb with ⟨hi, hv⟩ | ⟨j, hji, hj, hv⟩
    · exact ⟨i, u.carries_self.mpr hi, by rw [u.self, hv]⟩
    · exact ⟨j, (u.carries hji).mpr hj, by rw [u.other hji, hv]⟩

theorem share (h : Inv t) (hidle : t.s.task p = .idle)
    (hi : t.Carries i b) (hfits : t.refs i + 1 < 2 ^ 32) :
    Inv { t with s := (t.s.addRef i).setTask p (.waiting i b) } := by
  rw [← h.count i] at hfits
  refine h.of_turn h.linked
    ⟨rfl, rfl, rfl, ?_, ?_, Or.inl ⟨rfl, rfl⟩, fun _ _ => Iff.rfl⟩ ?_ ?_ ?_
    (fun _ _ => id) h.valid (fun _ _ _ => rfl) (h.left_at i)
  · simp [Traced.weight, hidle, toNat_succ hfits]
    omega
  · intro j hj
    simp [hidle, Ne.symm hj]
  · rintro j c ⟨⟩
    exact ⟨rfl, hi⟩
  · rintro j c ⟨⟩
  · exact fun hlock => Or.inr (h.held_valid (by simp [hidle]) hlock)

theorem cached (h : Inv t) (hfill : t.s.task p = .filling i b)
    (hvalid : (t.s.buf i).valid = true) :
    Inv { t with s := t.s.setTask p .idle } := by
  refine h.of_turn (i := i) h.linked
    ⟨(Function.update_eq_self ..).symm, rfl, rfl, ?_, ?_, Or.inl ⟨rfl, rfl⟩,
      fun _ _ => Iff.rfl⟩ ?_ ?_ (fun _ => Or.inr hvalid)
    (fun _ _ => id) h.valid (fun _ _ _ => rfl) (h.left_at i)
  · simp [Traced.weight, hfill]
  · intro j hj
    simp [hfill, Ne.symm hj]
  · rintro j c ⟨⟩
  · rintro j c ⟨⟩

theorem release (h : Inv t) (hrel : t.s.task p = .releasing i)
    {links : Links BufId} (hlinks : links = t.s.links ∨
      links = (t.s.links.unlink i).pushFront i) :
    Inv { t with
      s := { (t.s.dropRef i).setTask p .idle with links := links } } := by
  have hpos : 0 < (t.s.buf i).refcnt.toNat := by
    have hleave : 0 < tally t.s.task (Task.leaves i) :=
      tally_pos (i := p) (by simp [hrel])
    rw [h.count i, Traced.refs, Traced.holders]
    omega
  refine h.of_turn ?_
    ⟨rfl, rfl, rfl, ?_, ?_, Or.inl ⟨rfl, rfl⟩, fun _ _ => Iff.rfl⟩ ?_ ?_ ?_
    (fun _ _ => id) h.valid (fun _ _ _ => rfl) (h.left_at i)
  · rcases hlinks with rfl | rfl
    · exact h.linked
    · obtain ⟨L, hring, hperm⟩ := h.linked
      have hi : i ∈ L := hperm.mem_iff.mpr (List.mem_finRange i)
      exact ⟨_, hring.moveFront hi, (List.perm_cons_erase hi).symm.trans hperm⟩
  · simp [Traced.weight, hrel, toNat_pred hpos]
    omega
  · intro j hj
    simp [hrel, Ne.symm hj]
  · rintro j c ⟨⟩
  · rintro j c ⟨⟩
  · exact fun hlock => Or.inr (h.held_valid (by simp [hrel]) hlock)

theorem acquire (h : Inv t) (hwait : t.s.task p = .waiting i b)
    (hlock : (t.s.buf i).lock = none) :
    Inv { t with
      s := (t.s.setBuf i { t.s.buf i with lock := some p }).setTask p
        (.filling i b) } := by
  refine h.of_turn h.linked ⟨rfl, rfl, rfl, ?_, ?_, Or.inl ⟨rfl, rfl⟩, ?_⟩
    ?_ ?_ (fun _ => Or.inl ⟨b, rfl⟩) (fun _ _ => id) h.valid
    (fun _ _ _ => rfl) (h.left_at i)
  · simp [Traced.weight, hwait, hlock]
  · intro j hj
    simp [hwait, Ne.symm hj]
  · intro q hq
    simp [hlock, Ne.symm hq]
  · rintro j c ⟨⟩
  · rintro j c ⟨⟩
    exact ⟨rfl, rfl, h.waiting hwait⟩

theorem brelse (h : Inv t) (hp : Holds t p i) :
    Inv { t with
      s := (t.s.setBuf i { t.s.buf i with lock := none }).setTask p
        (.releasing i) } := by
  refine h.of_turn h.linked ⟨rfl, rfl, rfl, ?_, ?_, Or.inl ⟨rfl, rfl⟩, ?_⟩
    ?_ ?_ (by simp) (fun _ _ => id) h.valid (fun _ _ _ => rfl) (h.left_at i)
  · simp [Traced.weight, hp.1, hp.2]
  · intro j hj
    simp [hp.1, Ne.symm hj]
  · intro q hq
    simp [hp.2, Ne.symm hq]
  · rintro j c ⟨⟩
  · rintro j c ⟨⟩

/-! ### Steps that change a buffer or the disk -/

omit [DecidableEq P] in
/-- A write of a buffer that holds its block changes no content. -/
theorem content_bwrite (h : Inv t) (hp : Holds t p i) (b : BlockNo) :
    (t.left b).getD (Function.update t.s.disk (t.s.buf i).blockno
      (t.s.buf i).data b) = t.content b := by
  by_cases hb : b = (t.s.buf i).blockno
  · subst hb
    rw [Function.update_self, (h.valid (h.holds hp)).2, Traced.content]
    cases t.left (t.s.buf i).blockno <;> rfl
  · rw [Function.update_of_ne hb, Traced.content]

omit [DecidableEq P] in
theorem bwrite (h : Inv t) (hp : Holds t p i) :
    Inv { t with
      s := { t.s with
        disk := Function.update t.s.disk (t.s.buf i).blockno
          (t.s.buf i).data } } where
  linked := h.linked
  unique := h.unique
  count := h.count
  waiting := h.waiting
  filling := h.filling
  held := h.held
  valid := fun hj =>
    ⟨(h.valid hj).1, (h.valid hj).2.trans (h.content_bwrite hp _).symm⟩
  left := h.left

omit [DecidableEq P] in
theorem forget_of_ne (h : Inv t) {j : BufId}
    (hj : (t.s.buf j).dev = ROOTDEV) (hji : j ≠ i) :
    t.forget i (t.s.buf j).blockno = t.left (t.s.buf j).blockno := by
  rw [Traced.forget]
  split
  · rename_i hdev
    refine Function.update_of_ne (fun heq => hji ?_) _ _
    exact h.unique ⟨hj, heq⟩ ⟨hdev, rfl⟩
  · rfl

omit [DecidableEq P] in
/-- What the recycled buffer held is forgotten, nothing else. -/
theorem left_of_forget (h : Inv t) {c : BlockNo} {d : Block}
    (hc : t.forget i c = some d) :
    ∃ j, j ≠ i ∧ t.Carries j c ∧ (t.s.buf j).valid = true := by
  have hne : ¬t.Carries i c := by
    rintro ⟨hdev, rfl⟩
    simp [Traced.forget, hdev] at hc
  have hleft : t.left c = some d := by
    rw [Traced.forget] at hc
    split at hc
    · rename_i hdev
      rwa [Function.update_of_ne fun heq => hne ⟨hdev, heq.symm⟩] at hc
    · exact hc
  exact (h.left_at i hleft).resolve_left fun hi => hne hi.1

theorem modify (h : Inv t) (hp : Holds t p i) (data : Block) :
    Inv { t with
      s := t.s.modify i data
      left := Function.update t.left (t.s.buf i).blockno (some data) } := by
  have hi := h.holds hp
  have hdev := (h.valid hi).1
  refine h.of_turn h.linked
    ⟨rfl, (Function.update_eq_self p _).symm, rfl, ?_, ?_, Or.inl ⟨rfl, rfl⟩,
      fun _ _ => Iff.rfl⟩ ?_ ?_ (fun _ => Or.inr hi) (fun _ _ => id)
    (fun _ => ⟨hdev, ?_⟩) ?_ ?_
  · simp [Traced.weight, hp.1]
  · intro j _
    simp [hp.1]
  · intro j b hb
    cases hp.1.symm.trans hb
  · intro j b hb
    cases hp.1.symm.trans hb
  · simp [Traced.content]
  · intro j hji hj
    have hne : (t.s.buf j).blockno ≠ (t.s.buf i).blockno := fun heq =>
      hji (h.unique ⟨(h.valid hj).1, heq⟩ ⟨hdev, rfl⟩)
    simp [Traced.content, Function.update_of_ne hne]
  · intro b d hb
    by_cases hbi : b = (t.s.buf i).blockno
    · exact Or.inl ⟨⟨hdev, hbi.symm⟩, hi⟩
    · exact h.left_at i ((Function.update_of_ne hbi _ _).symm.trans hb)

theorem fill (h : Inv t) (hfill : t.s.task p = .filling i b)
    (hinvalid : (t.s.buf i).valid = false) :
    Inv { t with
      s := (t.s.setBuf i { t.s.buf i with
        data := t.s.disk (t.s.buf i).blockno
        valid := true }).setTask p .idle } := by
  obtain ⟨hdev, hblockno⟩ := (h.filling hfill).1
  have hnone := h.left_eq_none ⟨hdev, rfl⟩ hinvalid
  refine h.of_turn h.linked
    ⟨rfl, rfl, rfl, ?_, ?_, Or.inl ⟨rfl, rfl⟩, fun _ _ => Iff.rfl⟩ ?_ ?_
    (fun _ => Or.inr rfl) (fun _ _ _ => rfl) (fun _ => ⟨hdev, ?_⟩)
    (fun _ _ _ => rfl) ?_
  · simp [Traced.weight, hfill]
  · intro j hj
    simp [hfill, Ne.symm hj]
  · rintro j c ⟨⟩
  · rintro j c ⟨⟩
  · simp [Traced.content, hnone]
  · exact fun hc => (h.left_at i hc).imp_left fun hi => ⟨hi.1, rfl⟩

theorem recycle (h : Inv t) (hidle : t.s.task p = .idle)
    (habsent : ∀ j, ¬t.Carries j b) (hfree : (t.s.buf i).refcnt = 0) :
    Inv { t with
      s := (t.s.recycle i ROOTDEV b).setTask p (.waiting i b)
      left := t.forget i } := by
  have hlock := h.lock_of_free hfree
  refine h.of_turn h.linked
    ⟨rfl, rfl, rfl, ?_, ?_, Or.inr ⟨hfree, habsent⟩, fun _ _ => Iff.rfl⟩
    ?_ ?_ ?_ ?_ ?_ ?_ fun hc => Or.inr (h.left_of_forget hc)
  · simp [Traced.weight, hidle, hfree, hlock]
  · intro j hj
    simp [hidle, Ne.symm hj]
  · rintro j c ⟨⟩
    exact ⟨rfl, rfl, rfl⟩
  · rintro j c ⟨⟩
  · exact fun hp => absurd (hlock.symm.trans hp) (by simp)
  · exact fun q hq => absurd (hlock.symm.trans hq) (by simp)
  · exact fun hvalid => absurd hvalid Bool.false_ne_true
  · intro j hji hj
    show (t.forget i _).getD _ = _
    rw [h.forget_of_ne (h.valid hj).1 hji]
    rfl

end Inv

end Turns

/-! ## Runs -/

section Runs

variable [Fintype P] [DecidableEq P] {t t' : Traced P} {a : BioOp P}

/-- **One step lemma for the invariant.** -/
theorem Inv.of_effect (h : Inv t) (hfits : Fits t a) (heff : Effect t a t') :
    Inv t' := by
  cases heff with
  | share idle found => exact h.share idle found (hfits _ found)
  | recycle idle absent free => exact h.recycle idle absent free
  | sleep => exact h
  | acquire waiting unlocked => exact h.acquire waiting unlocked
  | cached filling valid => exact h.cached filling valid
  | fill filling invalid => exact h.fill filling invalid
  | modify holds => exact h.modify holds _
  | bwrite holds => exact h.bwrite holds
  | brelse holds => exact h.brelse holds
  | release releasing links linked => exact h.release releasing linked
  | bpin => exact h.bpin hfits
  | bunpin pinned => exact h.bunpin pinned

theorem Inv.step (h : Inv t) (hc : Client t a) (hfits : Fits t a)
    (hstep : t.step a = .ok t') : Inv t' :=
  h.of_effect hfits (.of_step h.linked hc hstep)

omit [DecidableEq P] in
theorem Inv.boot (disk : Disk) : Inv (Traced.boot disk : Traced P) where
  linked := BioState.binit_linked disk
  unique := fun hi =>
    absurd (show (0 : UInt32) = ROOTDEV from hi.1) (by decide)
  count := fun i => by
    have hw : tally (fun _ : P => Task.idle) (Task.waitsFor i) = 0 :=
      tally_eq_zero fun _ => rfl
    have hl : tally (fun _ : P => Task.idle) (Task.leaves i) = 0 :=
      tally_eq_zero fun _ => rfl
    simp [Traced.refs, Traced.holders, Traced.waiters, Traced.boot,
      BioState.binit, hw, hl]
  waiting := fun hp => by cases hp
  filling := fun hp => by cases hp
  held := fun hp => by cases hp
  valid := fun hi => by cases hi
  left := fun hb => by cases hb

end Runs

end Xv6.Bio
