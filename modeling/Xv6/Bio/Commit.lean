import Xv6.Bio.Coherence
import Xv6.Log.CrashAtomic

/-!
# `commit` on the buffer cache

`log_write` pins every block of the group, and `commit` reads log blocks and
home blocks through the same cache. The operations of a group run interleaved;
`commit` runs alone, when nobody holds a buffer. Each of its calls is followed
here through the cache: which buffer it gets, and what is pinned afterwards.
-/

namespace Xv6.Bio

open Framework Log

/-! ## The model -/

/-- The cache, and the list `log.lh` of the group. -/
structure Group (P : Type*) where
  t : Traced P
  lh : List BlockNo

inductive GroupOp (P : Type*)
  | bio (a : BioOp P)
  | logWrite (p : P) (i : BufId)

section Model

variable {P : Type*} [DecidableEq P]

namespace Traced

/-- `bread` by a process that nobody else runs beside. -/
def bread (t : Traced P) (p : P) (b : BlockNo) :
    Except Stop (Traced P × BufId) := do
  let t ← t.step (.bget p ROOTDEV b)
  let t ← t.step (.acquiresleep p)
  match t.s.task p with
  | .filling i _ =>
      let t ← t.step (.fill p)
      .ok (t, i)
  | _ => .error .asleep

def brelse (t : Traced P) (p : P) (i : BufId) : Except Stop (Traced P) := do
  let t ← t.step (.brelse p i)
  t.step (.release p)

/-- One round of `write_log`. -/
def writeLogEntry (start : BlockNo) (p : P) (tail : ℕ) (b : BlockNo)
    (t : Traced P) : Except Stop (Traced P) := do
  let log ← t.bread p (logBlock start tail)
  let home ← log.1.bread p b
  let t ← home.1.step (.modify p log.2 (home.1.s.buf home.2).data)
  let t ← t.step (.bwrite p log.2)
  let t ← t.brelse p home.2
  t.brelse p log.2

def writeLog (start : BlockNo) (p : P) :
    ℕ → List BlockNo → Traced P → Except Stop (Traced P)
  | _, [], t => .ok t
  | tail, b :: lh, t => do
      let t ← t.writeLogEntry start p tail b
      t.writeLog start p (tail + 1) lh

def writeHead (start : BlockNo) (p : P) (lh : List BlockNo) (t : Traced P) :
    Except Stop (Traced P) := do
  let head ← t.bread p start
  let t ← head.1.step
    (.modify p head.2 (setHead (head.1.s.buf head.2).data lh))
  let t ← t.step (.bwrite p head.2)
  t.brelse p head.2

/-- One round of `install_trans(0)`. -/
def installEntry (start : BlockNo) (p : P) (tail : ℕ) (b : BlockNo)
    (t : Traced P) : Except Stop (Traced P) := do
  let log ← t.bread p (logBlock start tail)
  let home ← log.1.bread p b
  let t ← home.1.step (.modify p home.2 (home.1.s.buf log.2).data)
  let t ← t.step (.bwrite p home.2)
  let t ← t.step (.bunpin home.2)
  let t ← t.brelse p log.2
  t.brelse p home.2

def installTrans (start : BlockNo) (p : P) :
    ℕ → List BlockNo → Traced P → Except Stop (Traced P)
  | _, [], t => .ok t
  | tail, b :: lh, t => do
      let t ← t.installEntry start p tail b
      t.installTrans start p (tail + 1) lh

end Traced

namespace Group

/-- `log_write` of a buffer, as the list and the cache see it. -/
def logWrite (g : Group P) (i : BufId) : Except Stop (Group P) :=
  let b := (g.t.s.buf i).blockno
  if g.lh.length ≥ LOGBLOCKS then .error .tooBig
  else if b ∈ g.lh then .ok g
  else do
    let t ← g.t.step (.bpin i)
    .ok ⟨t, g.lh ++ [b]⟩

def step (g : Group P) : GroupOp P → Except Stop (Group P)
  | .bio a => do
      let t ← g.t.step a
      .ok { g with t := t }
  | .logWrite _ i => g.logWrite i

/-- `commit`. -/
def commit (g : Group P) (start : BlockNo) (p : P) :
    Except Stop (Group P) :=
  if 0 < g.lh.length then do
    let t ← g.t.writeLog start p 0 g.lh
    let t ← t.writeHead start p g.lh
    let t ← t.installTrans start p 0 g.lh
    let t ← t.writeHead start p []
    .ok ⟨t, []⟩
  else .ok g

end Group

/-- Pinning is left to `log_write`, which gets buffers that its caller holds
and whose blocks are not the log's own. -/
def InGroup (start : BlockNo) (g : Group P) : GroupOp P → Prop
  | .bio (.bpin _) => False
  | .bio (.bunpin _) => False
  | .bio a => Client g.t a
  | .logWrite p i => Holds g.t p i ∧ OutsideLog start (g.t.s.buf i).blockno

end Model

/-! ## One process alone -/

section Alone

variable {P : Type*} [Fintype P]

/-- The pinned buffers are those of the given blocks, each pinned once. -/
structure PinnedOnce (t : Traced P) (pinned : Finset BlockNo) : Prop where
  pins : ∀ i, t.pins i = if (t.s.buf i).dev = ROOTDEV ∧
    (t.s.buf i).blockno ∈ pinned then 1 else 0
  cached : ∀ b ∈ pinned, ∃ i, t.Carries i b

/-- Buffers in use keep their blocks; an unused one may get block `b`. -/
def Moved (t : Traced P) (b : BlockNo) (t' : Traced P) : Prop :=
  ∀ j, ((t'.s.buf j).dev = (t.s.buf j).dev ∧
      (t'.s.buf j).blockno = (t.s.buf j).blockno) ∨
    (t.refs j = 0 ∧ t'.Carries j b ∧ ∀ k, ¬t.Carries k b)

theorem Moved.carries {t t' : Traced P} {b c : BlockNo} {j : BufId}
    (h : Moved t b t') (hj : t.Carries j c) (hpos : 0 < t.refs j) :
    t'.Carries j c := by
  rcases h j with ⟨hdev, hblockno⟩ | ⟨hfree, -⟩
  · exact ⟨hdev.trans hj.1, hblockno.trans hj.2⟩
  · rw [hfree] at hpos
    exact absurd hpos (Nat.lt_irrefl 0)

namespace PinnedOnce

variable {t t' : Traced P} {pinned : Finset BlockNo} {i : BufId} {b : BlockNo}

omit [Fintype P] in
theorem pins_le (h : PinnedOnce t pinned) (i : BufId) : t.pins i ≤ 1 := by
  rw [h.pins]
  split <;> simp

omit [Fintype P] in
theorem pins_eq_one (h : PinnedOnce t pinned) (hi : t.Carries i b)
    (hb : b ∈ pinned) : t.pins i = 1 := by
  rw [h.pins, if_pos ⟨hi.1, hi.2.symm ▸ hb⟩]

theorem of_moved (h : PinnedOnce t pinned) (hpins : t'.pins = t.pins)
    (hmoved : Moved t b t') : PinnedOnce t' pinned := by
  constructor
  · intro j
    rw [hpins]
    rcases hmoved j with ⟨hdev, hblockno⟩ | ⟨hfree, hj, habsent⟩
    · rw [hdev, hblockno, h.pins]
    · have hb : b ∉ pinned := fun hb =>
        (h.cached b hb).elim fun k hk => habsent k hk
      rw [Traced.refs] at hfree
      rw [hj.2, if_neg fun hc => hb hc.2]
      omega
  · intro c hc
    obtain ⟨j, hj⟩ := h.cached c hc
    refine ⟨j, hmoved.carries hj ?_⟩
    rw [Traced.refs, h.pins_eq_one hj hc]
    omega

/-- One block more or less has its buffer pinned. -/
theorem of_pinned (h : PinnedOnce t pinned) {pinned' : Finset BlockNo}
    {c : UInt32} {n : ℕ} (hinv : Inv t) (hi : t.Carries i b)
    (hn : n = if b ∈ pinned' then 1 else 0)
    (hother : ∀ d, d ≠ b → (d ∈ pinned' ↔ d ∈ pinned)) :
    PinnedOnce { t with
      s := t.s.setBuf i { t.s.buf i with refcnt := c }
      pins := Function.update t.pins i n } pinned' := by
  have hbuf : ∀ j, (Function.update t.s.buf i
      { t.s.buf i with refcnt := c } j).dev = (t.s.buf j).dev ∧
      (Function.update t.s.buf i { t.s.buf i with refcnt := c } j).blockno =
        (t.s.buf j).blockno := by
    intro j
    by_cases hj : j = i
    · subst hj
      simp
    · simp [hj]
  constructor
  · intro j
    simp only [BioState.setBuf_buf, (hbuf j).1, (hbuf j).2]
    by_cases hj : j = i
    · subst hj
      simp [hi.1, hi.2, hn]
    · rw [Function.update_of_ne hj, h.pins]
      -- no other buffer has block `b`
      have hne : (t.s.buf j).dev = ROOTDEV → (t.s.buf j).blockno ≠ b :=
        fun hdev heq => hj (hinv.unique ⟨hdev, heq⟩ hi)
      refine if_congr ?_ rfl rfl
      exact and_congr_right fun hdev => (hother _ (hne hdev)).symm
  · intro d hd
    by_cases hdb : d = b
    · refine ⟨i, (hbuf i).1.trans hi.1, (hbuf i).2.trans ?_⟩
      rw [hi.2, hdb]
    · obtain ⟨j, hj⟩ := h.cached d ((hother d hdb).mp hd)
      exact ⟨j, (hbuf j).1.trans hj.1, (hbuf j).2.trans hj.2⟩

theorem unpin (h : PinnedOnce t pinned) (hinv : Inv t) (hi : t.Carries i b)
    (hb : b ∈ pinned) :
    PinnedOnce { t with
      s := t.s.dropRef i
      pins := Function.update t.pins i (t.pins i - 1) }
      (pinned.erase b) := by
  refine h.of_pinned hinv hi ?_ ?_
  · simp [h.pins_eq_one hi hb]
  · intro d hd
    simp [hd]

theorem pin (h : PinnedOnce t pinned) (hinv : Inv t) (hi : t.Carries i b)
    (hb : b ∉ pinned) :
    PinnedOnce { t with
      s := t.s.addRef i
      pins := Function.update t.pins i (t.pins i + 1) }
      (insert b pinned) := by
  refine h.of_pinned hinv hi ?_ ?_
  · rw [h.pins, if_neg fun hc => hb (hi.2 ▸ hc.2)]
    simp
  · intro d hd
    simp [hd]

end PinnedOnce

/-- Nobody is in a call, and process `p` holds the buffers in `held`. -/
structure Calm (t : Traced P) (p : P) (held : Finset BufId)
    (pinned : Finset BlockNo) : Prop extends PinnedOnce t pinned where
  inv : Inv t
  idle : ∀ q, t.s.task q = .idle
  locked : ∀ i, (t.s.buf i).lock = if i ∈ held then some p else none

namespace Calm

variable {t t' : Traced P} {p : P} {held : Finset BufId}
variable {pinned : Finset BlockNo} {i : BufId} {b : BlockNo}

theorem refs (h : Calm t p held pinned) (i : BufId) :
    t.refs i = (if i ∈ held then 1 else 0) + t.pins i := by
  have hw : t.waiters i = 0 := tally_eq_zero fun q => by simp [h.idle q]
  have hl : tally t.s.task (Task.leaves i) = 0 :=
    tally_eq_zero fun q => by simp [h.idle q]
  rw [Traced.refs, Traced.holders, hw, hl, h.locked]
  split <;> rfl

/-- No counter is near its end. -/
theorem fits (h : Calm t p held pinned) (i : BufId) :
    t.refs i + 1 < 2 ^ 32 := by
  have hpins := h.pins_le i
  rw [h.refs]
  split <;> omega

/-- The buffers in use are held or pinned, and a block is pinned in one of
them: there are no more than blocks and held buffers together. -/
theorem exists_free (h : Calm t p held pinned)
    (hroom : held.card + pinned.card < NBUF) :
    ∃ i, (t.s.buf i).refcnt = 0 := by
  by_contra hnone
  have hused : ∀ i, i ∉ held → (t.s.buf i).dev = ROOTDEV ∧
      (t.s.buf i).blockno ∈ pinned := by
    intro i hi
    by_contra hpin
    apply hnone
    refine ⟨i, UInt32.toNat_inj.mp ?_⟩
    rw [h.inv.count, h.refs, if_neg hi, h.pins, if_neg hpin]
    rfl
  have hcard : (Finset.univ \ held).card ≤ pinned.card := by
    apply Finset.card_le_card_of_injOn (fun i => (t.s.buf i).blockno)
    · intro i hi
      exact (hused i (Finset.mem_sdiff.mp hi).2).2
    · intro i hi j hj heq
      have hdev := fun k (hk : k ∈ (Finset.univ \ held : Finset BufId)) =>
        (hused k (Finset.mem_sdiff.mp hk).2).1
      exact h.inv.unique ⟨hdev i hi, rfl⟩ ⟨hdev j hj, heq.symm⟩
  rw [Finset.card_univ_sdiff, Fintype.card_fin] at hcard
  omega

/-- When as many blocks are pinned as there are buffers, every buffer is that
of a pinned block. -/
theorem all_pinned (h : Calm t p ∅ pinned) (hfull : NBUF ≤ pinned.card)
    (i : BufId) : (t.s.buf i).blockno ∈ pinned ∧ t.pins i = 1 := by
  choose! f hf using h.cached
  have hinj : Set.InjOn f pinned := by
    intro b hb c hc heq
    have hfb := hf b hb
    rw [heq] at hfb
    exact hfb.2.symm.trans (hf c hc).2
  have himage : pinned.image f = Finset.univ := by
    apply Finset.eq_univ_of_card
    apply Nat.le_antisymm (Finset.card_le_univ _)
    rw [Finset.card_image_of_injOn hinj, Fintype.card_fin]
    exact hfull
  obtain ⟨b, hb, rfl⟩ := Finset.mem_image.mp
    (himage ▸ Finset.mem_univ i : i ∈ pinned.image f)
  constructor
  · rw [(hf b hb).2]
    exact hb
  · exact h.pins_eq_one (hf b hb) hb

theorem of_moved (h : Calm t p held pinned) {held' : Finset BufId}
    (hinv : Inv t') (hidle : ∀ q, t'.s.task q = .idle)
    (hlocked : ∀ i, (t'.s.buf i).lock = if i ∈ held' then some p else none)
    (hpins : t'.pins = t.pins) (hmoved : Moved t b t') :
    Calm t' p held' pinned :=
  ⟨h.toPinnedOnce.of_moved hpins hmoved, hinv, hidle, hlocked⟩

/-- Steps that leave every block where it is. -/
theorem of_same (h : Calm t p held pinned) {held' : Finset BufId}
    (hinv : Inv t') (hidle : ∀ q, t'.s.task q = .idle)
    (hlocked : ∀ i, (t'.s.buf i).lock = if i ∈ held' then some p else none)
    (hpins : t'.pins = t.pins)
    (hsame : ∀ j, (t'.s.buf j).dev = (t.s.buf j).dev ∧
      (t'.s.buf j).blockno = (t.s.buf j).blockno) :
    Calm t' p held' pinned :=
  h.of_moved (b := 0) hinv hidle hlocked hpins fun j => Or.inl (hsame j)

theorem holds (h : Calm t p held pinned) (hi : i ∈ held) : Holds t p i :=
  ⟨h.idle p, by rw [h.locked, if_pos hi]⟩

variable [DecidableEq P]

omit [Fintype P] in
theorem bget_ok {s : BioState P} (hl : s.Linked)
    (h : (∃ i, (s.buf i).dev = ROOTDEV ∧ (s.buf i).blockno = b) ∨
      ∃ i, (s.buf i).refcnt = 0) : ∃ s', s.bget p ROOTDEV b = .ok s' := by
  rw [BioState.bget]
  cases hlook : s.lookup ROOTDEV b with
  | some i => exact ⟨_, rfl⟩
  | none =>
    cases hvict : s.victim with
    | some i => exact ⟨_, rfl⟩
    | none =>
      rcases h with ⟨i, hi⟩ | ⟨i, hi⟩
      · exact absurd hi (hl.lookup_none hlook i)
      · exact absurd hi (hl.victim_none hvict i)

omit [Fintype P] in
theorem step_acquiresleep (hw : t.s.task p = .waiting i b)
    (hlock : (t.s.buf i).lock = none) :
    t.step (.acquiresleep p) = .ok { t with
      s := (t.s.setBuf i { t.s.buf i with lock := some p }).setTask p
        (.filling i b) } := by
  refine Traced.step_ok.mpr ⟨_, rfl, ?_⟩
  simp [Traced.record, BioState.acquiresleep, hw, hlock]

omit [Fintype P] in
theorem step_fill (hf : t.s.task p = .filling i b) :
    ∃ data, t.step (.fill p) = .ok { t with
      s := (t.s.setBuf i { t.s.buf i with
        valid := true, data := data }).setTask p .idle } := by
  cases hv : (t.s.buf i).valid with
  | false =>
    refine ⟨t.s.disk (t.s.buf i).blockno,
      Traced.step_ok.mpr ⟨_, rfl, ?_⟩⟩
    simp [Traced.record, BioState.fill, hf, hv]
  | true =>
    refine ⟨(t.s.buf i).data, Traced.step_ok.mpr ⟨_, rfl, ?_⟩⟩
    have hsame : t.s.setBuf i { t.s.buf i with
        valid := true, data := (t.s.buf i).data } = t.s := by
      rw [BioState.setBuf, ← hv, Function.update_eq_self]
    rw [hsame]
    simp [Traced.record, BioState.fill, hf, hv]

/-- The first part of `bread`: process `p` is at the lock of a buffer that it
does not hold. -/
theorem bget (h : Calm t p held pinned)
    (hroom : (∃ i, t.Carries i b) ∨ held.card + pinned.card < NBUF)
    (hfresh : ∀ i ∈ held, ¬t.Carries i b) :
    ∃ i t', t.step (.bget p ROOTDEV b) = .ok t' ∧ Inv t' ∧ i ∉ held ∧
      t'.s.task = Function.update t.s.task p (.waiting i b) ∧
      (∀ j, (t'.s.buf j).lock = (t.s.buf j).lock) ∧ t'.pins = t.pins ∧
      t'.Carries i b ∧ Moved t b t' := by
  obtain ⟨s, hs⟩ := bget_ok (p := p) h.inv.linked
    (hroom.imp_right h.exists_free)
  have hstep := Traced.step_ok (a := .bget p ROOTDEV b) |>.mpr ⟨s, hs, rfl⟩
  have hinv := h.inv.step (a := .bget p ROOTDEV b) ⟨h.idle p, rfl⟩
    (fun i _ => h.fits i) hstep
  revert hstep hinv
  generalize ({ t.record (.bget p ROOTDEV b) with s := s } : Traced P) = t'
  intro hstep hinv
  have heff := Effect.of_bget h.inv.linked (h.idle p) hstep
  cases heff with
  | @share _ _ i idle found =>
    refine ⟨i, _, hstep, hinv, fun hi => hfresh i hi found, rfl, ?_, rfl,
      ?_, ?_⟩
    · intro j
      by_cases hj : j = i
      · subst hj
        simp
      · simp [hj]
    · simpa [Traced.Carries] using found
    · intro j
      refine Or.inl ?_
      by_cases hj : j = i
      · subst hj
        simp
      · simp [hj]
  | @recycle _ _ i idle absent free =>
    have hrefs := h.inv.free free
    refine ⟨i, _, hstep, hinv, ?_, rfl, ?_, rfl, ?_, ?_⟩
    · intro hi
      rw [h.refs, if_pos hi] at hrefs
      omega
    · intro j
      by_cases hj : j = i
      · subst hj
        simp
      · simp [hj]
    · simp [Traced.Carries]
    · intro j
      by_cases hj : j = i
      · subst hj
        exact Or.inr ⟨hrefs, by simp [Traced.Carries], absent⟩
      · exact Or.inl (by simp [hj])

/-- The rest of `bread`: the lock is free, and the buffer is filled. -/
theorem acquired (hinv : Inv t) (hw : t.s.task p = .waiting i b)
    (hlock : (t.s.buf i).lock = none) :
    ∃ t₁ t', t.step (.acquiresleep p) = .ok t₁ ∧
      t₁.s.task p = .filling i b ∧ t₁.step (.fill p) = .ok t' ∧ Inv t' ∧
      t'.s.task = Function.update t.s.task p .idle ∧ t'.pins = t.pins ∧
      ∀ j, (t'.s.buf j).dev = (t.s.buf j).dev ∧
        (t'.s.buf j).blockno = (t.s.buf j).blockno ∧
        (t'.s.buf j).lock = if j = i then some p else (t.s.buf j).lock := by
  have hstep₁ := step_acquiresleep hw hlock
  have hinv₁ := hinv.step (a := .acquiresleep p) ⟨i, b, hw⟩ trivial hstep₁
  have hf : ((t.s.setBuf i { t.s.buf i with lock := some p }).setTask p
      (.filling i b)).task p = .filling i b := BioState.setTask_self ..
  obtain ⟨data, hstep₂⟩ := step_fill
    (t := { t with s := (t.s.setBuf i { t.s.buf i with
      lock := some p }).setTask p (.filling i b) }) hf
  have hinv₂ := hinv₁.step (a := .fill p) ⟨i, b, hf⟩ trivial hstep₂
  refine ⟨_, _, hstep₁, hf, hstep₂, hinv₂, ?_, rfl, ?_⟩
  · simp [BioState.setTask]
  · intro j
    by_cases hj : j = i
    · subst hj
      simp
    · simp [hj]

/-- **`bread` alone**: it returns if the block has a buffer or some buffer is
unused, and `p` does not hold the block's buffer already. -/
theorem bread (h : Calm t p held pinned)
    (hroom : (∃ i, t.Carries i b) ∨ held.card + pinned.card < NBUF)
    (hfresh : ∀ i ∈ held, ¬t.Carries i b) :
    ∃ i t', t.bread p b = .ok (t', i) ∧
      Run Traced.step Client t
        [.bget p ROOTDEV b, .acquiresleep p, .fill p] t' ∧
      i ∉ held ∧ Calm t' p (insert i held) pinned ∧ t'.Carries i b := by
  obtain ⟨i, t₁, hstep₁, hinv₁, hi, htask₁, hlock, hpins₁, hcarries,
    hmoved₁⟩ := h.bget hroom hfresh
  have hw : t₁.s.task p = .waiting i b := by
    rw [htask₁, Function.update_self]
  obtain ⟨t₂, t', hstep₂, hf, hstep₃, hinv', htask', hpins', hbuf⟩ :=
    acquired hinv₁ hw (by rw [hlock, h.locked, if_neg hi])
  have hmoved : Moved t b t' := by
    intro j
    rw [Traced.Carries, (hbuf j).1, (hbuf j).2.1]
    exact hmoved₁ j
  refine ⟨i, t', ?_, ?_, hi, ?_, ?_⟩
  · simp only [Traced.bread, hstep₁, hstep₂, bind, Except.bind, hf, hstep₃]
  · exact .cons ⟨h.idle p, rfl⟩ hstep₁
      (.cons ⟨i, b, hw⟩ hstep₂ (.cons ⟨i, b, hf⟩ hstep₃ (.nil t')))
  · refine h.of_moved hinv' ?_ ?_ (hpins'.trans hpins₁) hmoved
    · intro q
      rw [htask', htask₁, Function.update_idem]
      by_cases hq : q = p
      · rw [hq, Function.update_self]
      · rw [Function.update_of_ne hq]
        exact h.idle q
    · intro j
      rw [(hbuf j).2.2, hlock, h.locked]
      by_cases hj : j = i
      · simp [hj]
      · simp [hj]
  · rw [Traced.Carries, (hbuf i).1, (hbuf i).2.1]
    exact hcarries

theorem step_ok (h : Calm t p held pinned) {a : BioOp P}
    (hc : Client t a) (hfits : Fits t a) {s : BioState P}
    (hs : t.s.step a = .ok s) :
    t.step a = .ok { t.record a with s := s } ∧
      Inv { t.record a with s := s } := by
  have hstep := Traced.step_ok.mpr ⟨s, hs, rfl⟩
  exact ⟨hstep, h.inv.step hc hfits hstep⟩

/-- A held buffer is stored into and written. -/
theorem modify (h : Calm t p held pinned) (hi : i ∈ held) (data : Block) :
    ∃ t', t.step (.modify p i data) = .ok t' ∧ Calm t' p held pinned ∧
      ∀ j c, t'.Carries j c ↔ t.Carries j c := by
  obtain ⟨hstep, hinv⟩ := h.step_ok (a := .modify p i data) (h.holds hi)
    trivial rfl
  have hbuf : ∀ j, (Function.update t.s.buf i
      { t.s.buf i with data := data } j).dev = (t.s.buf j).dev ∧
      (Function.update t.s.buf i { t.s.buf i with data := data } j).blockno =
        (t.s.buf j).blockno ∧
      (Function.update t.s.buf i { t.s.buf i with data := data } j).lock =
        (t.s.buf j).lock := by
    intro j
    by_cases hj : j = i
    · subst hj
      simp
    · simp [hj]
  refine ⟨_, hstep, h.of_same hinv h.idle ?_ rfl ?_, ?_⟩
  · intro j
    exact (hbuf j).2.2.trans (h.locked j)
  · intro j
    exact ⟨(hbuf j).1, (hbuf j).2.1⟩
  · intro j c
    exact and_congr (by rw [← (hbuf j).1]; rfl) (by rw [← (hbuf j).2.1]; rfl)

theorem bwrite (h : Calm t p held pinned) (hi : i ∈ held) :
    ∃ t', t.step (.bwrite p i) = .ok t' ∧ Calm t' p held pinned ∧
      ∀ j c, t'.Carries j c ↔ t.Carries j c := by
  obtain ⟨hstep, hinv⟩ := h.step_ok (a := .bwrite p i) (h.holds hi) trivial
    (if_pos (h.holds hi).2)
  exact ⟨_, hstep, h.of_same hinv h.idle h.locked rfl fun _ => ⟨rfl, rfl⟩,
    fun _ _ => Iff.rfl⟩

/-- The critical section of `brelse`. -/
theorem released (hinv : Inv t) (hrel : t.s.task p = .releasing i) :
    ∃ t', t.step (.release p) = .ok t' ∧ Inv t' ∧
      t'.s.task = Function.update t.s.task p .idle ∧ t'.pins = t.pins ∧
      ∀ j, (t'.s.buf j).dev = (t.s.buf j).dev ∧
        (t'.s.buf j).blockno = (t.s.buf j).blockno ∧
        (t'.s.buf j).lock = (t.s.buf j).lock := by
  obtain ⟨t', hstep⟩ : ∃ t', t.step (.release p) = .ok t' := ⟨_, rfl⟩
  have heff := Effect.of_step (a := .release p) hinv.linked ⟨i, hrel⟩ hstep
  refine ⟨t', hstep, hinv.of_effect (a := .release p) trivial heff, ?_⟩
  cases heff with
  | @release _ k releasing links linked =>
    refine ⟨rfl, rfl, ?_⟩
    intro j
    by_cases hj : j = k
    · subst hj
      simp
    · simp [hj]

/-- A held buffer is released. -/
theorem brelse (h : Calm t p held pinned) (hi : i ∈ held) :
    ∃ t', t.brelse p i = .ok t' ∧
      Run Traced.step Client t [.brelse p i, .release p] t' ∧
      Calm t' p (held.erase i) pinned := by
  obtain ⟨hstep₁, hinv₁⟩ := h.step_ok (a := .brelse p i) (h.holds hi) trivial
    (if_pos (h.holds hi).2)
  obtain ⟨t', hstep₂, hinv', htask, hpins, hbuf⟩ := released hinv₁
    (BioState.setTask_self ..)
  have hsame : ∀ j, (t'.s.buf j).dev = (t.s.buf j).dev ∧
      (t'.s.buf j).blockno = (t.s.buf j).blockno := by
    intro j
    rw [(hbuf j).1, (hbuf j).2.1]
    by_cases hj : j = i
    · subst hj
      simp
    · simp [hj]
  refine ⟨t', ?_, ?_, h.of_same hinv' ?_ ?_ hpins hsame⟩
  · simp only [Traced.brelse, hstep₁, bind, Except.bind, hstep₂]
  · exact .cons (h.holds hi) hstep₁
      (.cons ⟨i, BioState.setTask_self ..⟩ hstep₂ (.nil t'))
  · intro q
    rw [htask]
    by_cases hq : q = p
    · rw [hq, Function.update_self]
    · rw [Function.update_of_ne hq, BioState.setTask_of_ne _ _ _ hq]
      exact h.idle q
  · intro j
    rw [(hbuf j).2.2]
    by_cases hj : j = i
    · subst hj
      simp
    · simp [hj, h.locked]

omit [DecidableEq P] in
theorem lock_of_refcnt (h : Calm t p held pinned) (c : UInt32) (j : BufId) :
    (Function.update t.s.buf i { t.s.buf i with refcnt := c } j).lock =
      if j ∈ held then some p else none := by
  rw [← h.locked]
  by_cases hj : j = i
  · subst hj
    simp
  · simp [hj]

/-- The pin of a block is given back. -/
theorem bunpin (h : Calm t p held pinned) (hi : t.Carries i b)
    (hb : b ∈ pinned) :
    ∃ t', t.step (.bunpin i) = .ok t' ∧
      Calm t' p held (pinned.erase b) := by
  obtain ⟨hstep, hinv⟩ := h.step_ok (a := .bunpin i)
    (by rw [Client, h.pins_eq_one hi hb]; exact Nat.one_pos) trivial rfl
  exact ⟨_, hstep, h.toPinnedOnce.unpin h.inv hi hb, hinv, h.idle,
    h.lock_of_refcnt _⟩

/-- A block is pinned that was not. -/
theorem bpin (h : Calm t p held pinned) (hi : t.Carries i b)
    (hb : b ∉ pinned) :
    ∃ t', t.step (.bpin i) = .ok t' ∧
      Calm t' p held (insert b pinned) := by
  obtain ⟨hstep, hinv⟩ := h.step_ok (a := .bpin i) trivial (h.fits i) rfl
  exact ⟨_, hstep, h.toPinnedOnce.pin h.inv hi hb, hinv, h.idle,
    h.lock_of_refcnt _⟩

end Calm

/-! ## The phases of `commit` -/

namespace Calm

variable {t : Traced P} {p : P} {pinned : Finset BlockNo} {b : BlockNo}
variable [DecidableEq P] {start : BlockNo} {tail : ℕ} {lh : List BlockNo}

/-- A log block and a pinned home block are read: the log block may need a
buffer of its own, the home block has one. -/
theorem breadBoth (h : Calm t p ∅ pinned) (hroom : pinned.card < NBUF)
    (htail : tail < LOGBLOCKS) (hb : b ∈ pinned) (hout : OutsideLog start b) :
    ∃ i j t₁ t', t.bread p (logBlock start tail) = .ok (t₁, i) ∧
      t₁.bread p b = .ok (t', j) ∧ i ≠ j ∧ Calm t' p {j, i} pinned ∧
      t'.Carries j b := by
  obtain ⟨i, t₁, hread₁, -, -, h₁, hi⟩ := h.bread (b := logBlock start tail)
    (Or.inr (by simpa using hroom)) (by simp)
  rw [insert_empty_eq] at h₁
  have hfresh : ∀ k ∈ ({i} : Finset BufId), ¬t₁.Carries k b := by
    intro k hk hkb
    rw [Finset.mem_singleton] at hk
    subst hk
    exact hout.ne_logBlock htail (hkb.2.symm.trans hi.2)
  obtain ⟨j, t', hread₂, -, hj, h₂, hjb⟩ :=
    h₁.bread (Or.inl (h₁.cached b hb)) hfresh
  refine ⟨i, j, t₁, t', hread₁, hread₂, ?_, h₂, hjb⟩
  rintro rfl
  exact hj (Finset.mem_singleton_self i)

theorem writeLogEntry (h : Calm t p ∅ pinned) (hroom : pinned.card < NBUF)
    (htail : tail < LOGBLOCKS) (hb : b ∈ pinned) (hout : OutsideLog start b) :
    ∃ t', t.writeLogEntry start p tail b = .ok t' ∧ Calm t' p ∅ pinned := by
  obtain ⟨i, j, t₁, t₂, hread₁, hread₂, hij, h₂, -⟩ :=
    h.breadBoth hroom htail hb hout
  obtain ⟨t₃, hstep₃, h₃, -⟩ := h₂.modify (i := i) (by simp)
    (t₂.s.buf j).data
  obtain ⟨t₄, hstep₄, h₄, -⟩ := h₃.bwrite (i := i) (by simp)
  obtain ⟨t₅, hstep₅, -, h₅⟩ := h₄.brelse (i := j) (by simp)
  obtain ⟨t₆, hstep₆, -, h₆⟩ := h₅.brelse (i := i) (by simp [hij])
  refine ⟨t₆, ?_, ?_⟩
  · simp only [Traced.writeLogEntry, hread₁, hread₂, hstep₃, hstep₄, hstep₅,
      hstep₆, bind, Except.bind]
  · have hnone : (({j, i} : Finset BufId).erase j).erase i = ∅ := by
      ext k
      simp only [Finset.mem_erase, Finset.mem_insert, Finset.mem_singleton,
        Finset.notMem_empty, iff_false]
      rintro ⟨hki, hkj, hk | hk⟩
      · exact hkj hk
      · exact hki hk
    rwa [hnone] at h₆

theorem installEntry (h : Calm t p ∅ pinned) (hroom : pinned.card < NBUF)
    (htail : tail < LOGBLOCKS) (hb : b ∈ pinned) (hout : OutsideLog start b) :
    ∃ t', t.installEntry start p tail b = .ok t' ∧
      Calm t' p ∅ (pinned.erase b) := by
  obtain ⟨i, j, t₁, t₂, hread₁, hread₂, hij, h₂, hjb⟩ :=
    h.breadBoth hroom htail hb hout
  obtain ⟨t₃, hstep₃, h₃, hsame₃⟩ := h₂.modify (i := j) (by simp)
    (t₂.s.buf i).data
  obtain ⟨t₄, hstep₄, h₄, hsame₄⟩ := h₃.bwrite (i := j) (by simp)
  obtain ⟨t₅, hstep₅, h₅⟩ := h₄.bunpin
    ((hsame₄ j b).mpr ((hsame₃ j b).mpr hjb)) hb
  obtain ⟨t₆, hstep₆, -, h₆⟩ := h₅.brelse (i := i) (by simp)
  obtain ⟨t₇, hstep₇, -, h₇⟩ := h₆.brelse (i := j) (by simp [hij.symm])
  refine ⟨t₇, ?_, ?_⟩
  · simp only [Traced.installEntry, hread₁, hread₂, hstep₃, hstep₄, hstep₅,
      hstep₆, hstep₇, bind, Except.bind]
  · have hnone : (({j, i} : Finset BufId).erase i).erase j = ∅ := by
      ext k
      simp only [Finset.mem_erase, Finset.mem_insert, Finset.mem_singleton,
        Finset.notMem_empty, iff_false]
      rintro ⟨hkj, hki, hk | hk⟩
      · exact hkj hk
      · exact hki hk
    rwa [hnone] at h₇

theorem writeHead (h : Calm t p ∅ pinned) (hroom : pinned.card < NBUF)
    (start : BlockNo) (lh : List BlockNo) :
    ∃ t', t.writeHead start p lh = .ok t' ∧ Calm t' p ∅ pinned := by
  obtain ⟨i, t₁, hread, -, -, h₁, -⟩ := h.bread (b := start)
    (Or.inr (by simpa using hroom)) (by simp)
  obtain ⟨t₂, hstep₂, h₂, -⟩ := h₁.modify (i := i) (by simp)
    (setHead (t₁.s.buf i).data lh)
  obtain ⟨t₃, hstep₃, h₃, -⟩ := h₂.bwrite (i := i) (by simp)
  obtain ⟨t₄, hstep₄, -, h₄⟩ := h₃.brelse (i := i) (by simp)
  refine ⟨t₄, ?_, ?_⟩
  · simp only [Traced.writeHead, hread, hstep₂, hstep₃, hstep₄, bind,
      Except.bind]
  · rwa [Finset.erase_insert (Finset.notMem_empty i)] at h₄

theorem writeLog (h : Calm t p ∅ pinned) (hroom : pinned.card < NBUF)
    (hlen : tail + lh.length ≤ LOGBLOCKS)
    (hlh : ∀ b ∈ lh, b ∈ pinned ∧ OutsideLog start b) :
    ∃ t', t.writeLog start p tail lh = .ok t' ∧ Calm t' p ∅ pinned := by
  induction lh generalizing t tail with
  | nil => exact ⟨t, rfl, h⟩
  | cons b lh ih =>
    rw [List.length_cons] at hlen
    obtain ⟨hb, hout⟩ := hlh b (List.mem_cons_self ..)
    obtain ⟨t₁, hround, h₁⟩ := h.writeLogEntry hroom
      (show tail < LOGBLOCKS by omega) hb hout
    obtain ⟨t', hrest, h'⟩ := ih h₁
      (show tail + 1 + lh.length ≤ LOGBLOCKS by omega)
      fun c hc => hlh c (List.mem_cons_of_mem b hc)
    refine ⟨t', ?_, h'⟩
    simp only [Traced.writeLog, hround, bind, Except.bind, hrest]

/-- Each round of `install_trans` gives one pin back. -/
theorem installTrans (h : Calm t p ∅ lh.toFinset) (hnodup : lh.Nodup)
    (hroom : lh.length < NBUF) (hlen : tail + lh.length ≤ LOGBLOCKS)
    (hlh : ∀ b ∈ lh, OutsideLog start b) :
    ∃ t', t.installTrans start p tail lh = .ok t' ∧ Calm t' p ∅ ∅ := by
  induction lh generalizing t tail with
  | nil => exact ⟨t, rfl, h⟩
  | cons b lh ih =>
    rw [List.length_cons] at hlen hroom
    have hcard : (b :: lh).toFinset.card < NBUF := by
      rw [List.toFinset_card_of_nodup hnodup]
      exact hroom
    obtain ⟨t₁, hround, h₁⟩ := h.installEntry hcard
      (show tail < LOGBLOCKS by omega) (by simp) (hlh b (List.mem_cons_self ..))
    have herase : (b :: lh).toFinset.erase b = lh.toFinset := by
      rw [List.toFinset_cons, Finset.erase_insert]
      rw [List.mem_toFinset]
      exact (List.nodup_cons.mp hnodup).1
    rw [herase] at h₁
    obtain ⟨t', hrest, h'⟩ := ih h₁ (List.nodup_cons.mp hnodup).2
      (by omega) (show tail + 1 + lh.length ≤ LOGBLOCKS by omega)
      fun c hc => hlh c (List.mem_cons_of_mem b hc)
    refine ⟨t', ?_, h'⟩
    simp only [Traced.installTrans, hround, bind, Except.bind, hrest]

end Calm

end Alone

end Xv6.Bio
