import Xv6.Bio.Integrity

/-!
# What the buffer cache guarantees its clients

Over any interleaving of calls: the structure of the cache is intact, a buffer
in use keeps its block, `bread` returns the content of the block, and the
content is lost only if nobody holds, pins or has written it. The one thing
the clients must see to is that no buffer gets `2 ^ 32` references, since
`refcnt` has 32 bits and is not checked.
-/

namespace Xv6.Bio

open Framework Log

variable {P : Type*}

/-- The step stores into the buffer of block `b`. -/
def Modifies (t : Traced P) (b : BlockNo) : BioOp P → Prop
  | .modify _ i _ => t.Carries i b
  | _ => False

/-- The content of block `b` is held, waited for, pinned or on the disk. -/
def Kept [Fintype P] (t : Traced P) (b : BlockNo) : Prop :=
  (∃ i, t.Carries i b ∧ 0 < t.refs i) ∨ t.s.disk b = t.content b

/-- **What one step guarantees.** -/
structure Guarantee [Fintype P] (t : Traced P) (a : BioOp P)
    (t' : Traced P) : Prop where
  identity : ∀ i, 0 < t.refs i → (t'.s.buf i).dev = (t.s.buf i).dev ∧
    (t'.s.buf i).blockno = (t.s.buf i).blockno
  returns : ∀ p i b, a = .fill p → t.s.task p = .filling i b →
    Holds t' p i ∧ t'.Carries i b ∧ (t'.s.buf i).data = t.content b
  stored : ∀ p i b data, a = .modify p i data → t.Carries i b →
    t'.content b = data
  written : ∀ p i b, a = .bwrite p i → t.Carries i b →
    t'.s.disk b = t'.content b
  kept : ∀ b, Kept t b → ¬Modifies t b a → t'.content b = t.content b

variable {b : BlockNo}

section Step

variable [Fintype P] [DecidableEq P] {t t' : Traced P} {a : BioOp P}

theorem Effect.identity (h : Inv t) (heff : Effect t a t') {i : BufId}
    (hi : 0 < t.refs i) : (t'.s.buf i).dev = (t.s.buf i).dev ∧
      (t'.s.buf i).blockno = (t.s.buf i).blockno := by
  have hset : ∀ (j : BufId) (c : Buf P), c.dev = (t.s.buf j).dev →
      c.blockno = (t.s.buf j).blockno →
      (Function.update t.s.buf j c i).dev = (t.s.buf i).dev ∧
        (Function.update t.s.buf j c i).blockno = (t.s.buf i).blockno := by
    intro j c hdev hblockno
    by_cases hij : i = j
    · subst hij
      rw [Function.update_self]
      exact ⟨hdev, hblockno⟩
    · rw [Function.update_of_ne hij]
      exact ⟨rfl, rfl⟩
  cases heff with
  | share | acquire | fill | modify | brelse | release | bpin | bunpin =>
    exact hset _ _ rfl rfl
  | sleep | cached | bwrite => exact ⟨rfl, rfl⟩
  | @recycle p b j idle absent free =>
    have hij : i ≠ j := by
      rintro rfl
      rw [h.free free] at hi
      exact Nat.lt_irrefl 0 hi
    simp [hij]

theorem Effect.returns (h : Inv t) (heff : Effect t a t') {p : P} {i : BufId}
    (ha : a = .fill p) (hfill : t.s.task p = .filling i b) :
    Holds t' p i ∧ t'.Carries i b ∧ (t'.s.buf i).data = t.content b := by
  subst ha
  obtain ⟨hcarries, hlock⟩ := h.filling hfill
  cases heff with
  | @cached _ c j filling valid =>
    rw [hfill, Task.filling.injEq] at filling
    obtain ⟨rfl, rfl⟩ := filling
    refine ⟨⟨BioState.setTask_self .., hlock⟩, hcarries, ?_⟩
    rw [← hcarries.2]
    exact (h.valid valid).2
  | @fill _ c j filling invalid =>
    rw [hfill, Task.filling.injEq] at filling
    obtain ⟨rfl, rfl⟩ := filling
    have hnone := h.left_eq_none hcarries invalid
    refine ⟨⟨BioState.setTask_self .., ?_⟩, ⟨?_, ?_⟩, ?_⟩
    · simpa using hlock
    · simpa using hcarries.1
    · simpa using hcarries.2
    · simp [Traced.content, hnone, hcarries.2]

/-- Only a store into the buffer changes the content of a block, or the loss
of a buffer that nobody refers to. -/
theorem Effect.content (h : Inv t) (heff : Effect t a t') (hb : ¬Modifies t b a) :
    t'.content b = t.content b ∨
      ∃ i, t.Carries i b ∧ t.refs i = 0 ∧ t'.content b = t.s.disk b := by
  cases heff with
  | share | sleep | acquire | cached | fill | brelse | release | bpin
  | bunpin => exact Or.inl rfl
  | @recycle p c i idle absent free =>
    by_cases hi : t.Carries i b
    · refine Or.inr ⟨i, hi, h.free free, ?_⟩
      simp [Traced.content, Traced.forget, hi.1, hi.2]
    · refine Or.inl ?_
      by_cases hdev : (t.s.buf i).dev = ROOTDEV
      · have hne : b ≠ (t.s.buf i).blockno := fun heq =>
          hi ⟨hdev, heq.symm⟩
        simp [Traced.content, Traced.forget, hdev, hne]
      · simp [Traced.content, Traced.forget, hdev]
  | @modify p i data holds =>
    have hne : b ≠ (t.s.buf i).blockno := fun heq =>
      hb ⟨(h.valid (h.holds holds)).1, heq.symm⟩
    refine Or.inl ?_
    simp [Traced.content, hne]
  | bwrite holds => exact Or.inl (h.content_bwrite holds b)

theorem Inv.guarantee (h : Inv t) (heff : Effect t a t') :
    Guarantee t a t' where
  identity := fun _ hi => heff.identity h hi
  returns := fun _ _ _ ha hfill => heff.returns h ha hfill
  stored := by
    rintro p i b data rfl hi
    cases heff
    simp [Traced.content, hi.2]
  written := by
    rintro p i b rfl hi
    cases heff with
    | bwrite holds =>
      have hdata := (h.valid (h.holds holds)).2
      rw [hi.2] at hdata
      have hcontent := h.content_bwrite holds b
      rw [hi.2] at hcontent
      rw [Traced.content]
      simp only [hi.2]
      rw [hcontent, Function.update_self, hdata]
  kept := by
    intro b hkept hb
    rcases heff.content h hb with heq | ⟨i, hi, hfree, heq⟩
    · exact heq
    · rcases hkept with ⟨j, hj, hpos⟩ | hdisk
      · rw [h.unique hj hi, hfree] at hpos
        exact absurd hpos (Nat.lt_irrefl 0)
      · rw [heq, hdisk]

end Step

/-! ## Over a run -/

section Runs

variable [Fintype P] [DecidableEq P]

/-- Calls by clients that keep to the interface and to the counters. -/
def Obeys (t : Traced P) (a : BioOp P) : Prop := Client t a ∧ Fits t a

theorem Inv.run {t t' : Traced P} {as : List (BioOp P)}
    (run : Run Traced.step Obeys t as t') (h : Inv t) : Inv t' :=
  run.invariant (fun _ _ _ hs hok hstep => hs.step hok.1 hok.2 hstep) h

/-- While a block is kept and nobody stores into its buffer, its content does
not change. -/
theorem Inv.content_run {t t' : Traced P} {as : List (BioOp P)}
    (run : Run Traced.step
      (fun t a => Obeys t a ∧ Kept t b ∧ ¬Modifies t b a) t as t') (h : Inv t) :
    t'.content b = t.content b := by
  have hboth : Inv t' ∧ t'.content b = t.content b := by
    refine run.invariant (I := fun u => Inv u ∧ u.content b = t.content b) ?_
      ⟨h, rfl⟩
    rintro u a u' ⟨hu, heq⟩ ⟨hok, hkept, hmod⟩ hstep
    have heff := Effect.of_step hu.linked hok.1 hstep
    exact ⟨hu.of_effect hok.2 heff,
      ((hu.guarantee heff).kept b hkept hmod).trans heq⟩
  exact hboth.2

/-- **Integrity and coherence of the buffer cache.** After any interleaving of
calls by clients that keep to the interface the cache is intact, every further
step gives the guarantees, and so does every further run for a block that is
kept. -/
theorem cache_coherent (disk : Disk) {as : List (BioOp P)} {t : Traced P}
    (run : Run Traced.step Obeys (.boot disk) as t) :
    Integrity t ∧
    (∀ a t', Obeys t a → t.step a = .ok t' → Guarantee t a t') ∧
    ∀ b bs t', Run Traced.step
      (fun t a => Obeys t a ∧ Kept t b ∧ ¬Modifies t b a) t bs t' →
      t'.content b = t.content b := by
  have h := Inv.run run (Inv.boot disk)
  refine ⟨h.toIntegrity, ?_, ?_⟩
  · intro a t' hok hstep
    exact h.guarantee (.of_step h.linked hok.1 hstep)
  · intro b bs t' hrun
    exact h.content_run hrun

end Runs

/-! ### Two runs -/

section Examples

/-- A block is read, changed, pinned and released by one process and read
again by another. -/
def sharedBlock : List (BioOp (Fin 2)) :=
  [.bget 0 ROOTDEV 46, .acquiresleep 0, .fill 0, .modify 0 0 fun _ => 7,
    .bget 1 ROOTDEV 46, .acquiresleep 1, .bpin 0, .brelse 0 0, .release 0,
    .acquiresleep 1, .fill 1, .bwrite 1 0, .bunpin 0, .brelse 1 0,
    .release 1]

instance Fits.decidable [Fintype P] (t : Traced P) : (a : BioOp P) →
    Decidable (Fits t a)
  | .bget _ _ b =>
      inferInstanceAs (Decidable (∀ i, t.Carries i b → t.refs i + 1 < 2 ^ 32))
  | .bpin i => inferInstanceAs (Decidable (t.refs i + 1 < 2 ^ 32))
  | .acquiresleep _ | .fill _ | .modify _ _ _ | .bwrite _ _ | .brelse _ _
  | .release _ | .bunpin _ => isTrue trivial

instance Obeys.decidable [Fintype P] [DecidableEq P] (t : Traced P)
    (a : BioOp P) : Decidable (Obeys t a) :=
  inferInstanceAs (Decidable (_ ∧ _))

theorem cache_coherent_shared :
    ∃ t, Run Traced.step Obeys (.boot fun _ _ => 0) sharedBlock t ∧
      Integrity t ∧ (t.s.buf 0).data = (fun _ => 7) ∧
      t.s.disk 46 = (fun _ => 7) := by
  obtain ⟨t, ht, htest⟩ := exists_some_of_any
    (o := Run.checked Traced.step Obeys (.boot fun _ _ => 0) sharedBlock)
    (p := fun t => decide ((t.s.buf 0).data = (fun _ => 7) ∧
      t.s.disk 46 = (fun _ => 7))) (by decide +kernel)
  have hrun := Run.of_checked ht
  exact ⟨t, hrun, (cache_coherent _ hrun).1, of_decide_eq_true htest⟩

variable [DecidableEq P]

/-- Pins can be taken without end. -/
theorem run_bpin (i : BufId) : ∀ (n : ℕ) (t : Traced P), ∃ t',
    Run Traced.step Client t (List.replicate n (.bpin i)) t' ∧
      t'.s.task = t.s.task ∧ (t'.s.buf i).lock = (t.s.buf i).lock ∧
      (t'.s.buf i).refcnt = (t.s.buf i).refcnt + UInt32.ofNat n
  | 0, t => ⟨t, .nil t, rfl, rfl, by simp⟩
  | n + 1, t => by
    obtain ⟨t', hrun, htask, hlock, hrefcnt⟩ := run_bpin i n { t with
      s := t.s.addRef i
      pins := Function.update t.pins i (t.pins i + 1) }
    refine ⟨t', .cons trivial rfl hrun, htask, ?_, ?_⟩
    · rw [hlock]
      simp
    · rw [hrefcnt, UInt32.ofNat_add, UInt32.add_comm (UInt32.ofNat n),
        ← UInt32.add_assoc]
      simp

/-- The holder of a block pins it `2 ^ 32 - 1` times: the count of the buffer
is back at zero while it is still held and pinned. -/
theorem refcnt_wraps :
    ∃ as t, Run Traced.step Client (.boot fun _ _ => 0) as t ∧
      Holds t (0 : Fin 1) 0 ∧ (t.s.buf 0).refcnt = 0 ∧ ¬Integrity t := by
  obtain ⟨t, ht, htest⟩ := exists_some_of_any
    (o := Run.checked Traced.step Client (.boot fun _ _ => 0)
      [.bget (0 : Fin 1) ROOTDEV 46, .acquiresleep 0, .fill 0])
    (p := fun t => decide (Holds t (0 : Fin 1) 0 ∧ (t.s.buf 0).refcnt = 1))
    (by decide +kernel)
  obtain ⟨hholds, hone⟩ := of_decide_eq_true htest
  obtain ⟨t', hrun, htask, hlock, hrefcnt⟩ := run_bpin 0 (2 ^ 32 - 1) t
  have hholds' : Holds t' (0 : Fin 1) 0 :=
    ⟨htask ▸ hholds.1, hlock.trans hholds.2⟩
  have hzero : (t'.s.buf 0).refcnt = 0 := by
    rw [hrefcnt, hone]
    decide
  refine ⟨_, t', (Run.of_checked ht).append hrun, hholds', hzero, ?_⟩
  intro hint
  have hcount := hint.count 0
  rw [hzero, Traced.refs, Traced.holders, hholds'.2, Option.isSome_some,
    Bool.toNat_true, UInt32.toNat_zero] at hcount
  omega

end Examples

end Xv6.Bio
