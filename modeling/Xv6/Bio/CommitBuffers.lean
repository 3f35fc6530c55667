import Xv6.Bio.Commit
import Xv6.Log.Reserve

/-!
# A commit and the buffers it needs

Beside the buffers that its group has pinned, a commit needs one more, for the
log block or the header. `LOGBLOCKS` is as large as `NBUF`, so that a group may
pin them all.
-/

namespace Xv6.Bio

open Framework Log

/-- The number of processes there can be. -/
def NPROC : ℕ := 64

section Groups

variable {P : Type*} [Fintype P] {start : BlockNo}

structure GroupInv (start : BlockNo) (g : Group P) : Prop
    extends PinnedOnce g.t g.lh.toFinset where
  inv : Inv g.t
  nodup : g.lh.Nodup
  fits : g.lh.length ≤ LOGBLOCKS
  outside : ∀ b ∈ g.lh, OutsideLog start b

/-- A group has not begun: nothing is pinned. -/
structure Fresh (g : Group P) : Prop where
  inv : Inv g.t
  pins : ∀ i, g.t.pins i = 0
  lh : g.lh = []

theorem Fresh.groupInv {g : Group P} (h : Fresh g) : GroupInv start g where
  pins := fun i => by simp [h.pins, h.lh]
  cached := fun b hb => by simp [h.lh] at hb
  inv := h.inv
  nodup := by simp [h.lh]
  fits := by simp [h.lh]
  outside := fun b hb => by simp [h.lh] at hb

/-- Nobody holds a buffer or waits for one. -/
def Quiet (t : Traced P) : Prop :=
  (∀ q, t.s.task q = .idle) ∧ ∀ i, (t.s.buf i).lock = none

namespace GroupInv

variable {g g' : Group P}

theorem calm (h : GroupInv start g) (hquiet : Quiet g.t) (p : P) :
    Calm g.t p ∅ g.lh.toFinset :=
  ⟨h.toPinnedOnce, h.inv, hquiet.1, by simpa using hquiet.2⟩

/-- Each process is in one call at most, so there are not many references. -/
theorem refs_fit (h : GroupInv start g) (hP : Fintype.card P ≤ NPROC)
    (i : BufId) : g.t.refs i + 1 < 2 ^ 32 := by
  have hpins := h.pins_le i
  have hcalls : tally g.t.s.task (Task.waitsFor i) +
      tally g.t.s.task (Task.leaves i) ≤ Fintype.card P := by
    apply tally_add_le_card
    intro τ hτ
    cases τ with
    | waiting j b => rfl
    | idle | filling | releasing => cases hτ
  have hlock := Bool.toNat_le (g.t.s.buf i).lock.isSome
  simp only [Traced.refs, Traced.holders, Traced.waiters, NPROC] at hP ⊢
  omega

variable [DecidableEq P]

/-- The steps of the cache, pins apart, leave the pinned buffers alone. -/
theorem moved {t t' : Traced P} {a : BioOp P} (hinv : Inv t)
    (heff : Effect t a t') (hpin : ∀ i, a ≠ .bpin i ∧ a ≠ .bunpin i) :
    t'.pins = t.pins ∧ ∃ b, Moved t b t' := by
  have hset : ∀ (j k : BufId) (c : Buf P), c.dev = (t.s.buf j).dev →
      c.blockno = (t.s.buf j).blockno →
      (Function.update t.s.buf j c k).dev = (t.s.buf k).dev ∧
        (Function.update t.s.buf j c k).blockno = (t.s.buf k).blockno := by
    intro j k c hdev hblockno
    by_cases hkj : k = j
    · subst hkj
      rw [Function.update_self]
      exact ⟨hdev, hblockno⟩
    · rw [Function.update_of_ne hkj]
      exact ⟨rfl, rfl⟩
  cases heff with
  | share | acquire | fill | modify | brelse | release =>
    exact ⟨rfl, 0, fun k => Or.inl (hset _ k _ rfl rfl)⟩
  | sleep | cached | bwrite => exact ⟨rfl, 0, fun k => Or.inl ⟨rfl, rfl⟩⟩
  | bpin => exact absurd rfl (hpin _).1
  | bunpin => exact absurd rfl (hpin _).2
  | @recycle p b i idle absent free =>
    refine ⟨rfl, b, fun k => ?_⟩
    by_cases hk : k = i
    · subst hk
      exact Or.inr ⟨hinv.free free, by simp [Traced.Carries], absent⟩
    · exact Or.inl (by simp [hk])

theorem logWrite (h : GroupInv start g) (hP : Fintype.card P ≤ NPROC)
    {p : P} {i : BufId} (hholds : Holds g.t p i)
    (hout : OutsideLog start (g.t.s.buf i).blockno)
    (hstep : g.logWrite i = .ok g') : GroupInv start g' := by
  have hcarries : g.t.Carries i (g.t.s.buf i).blockno :=
    ⟨(h.inv.valid (h.inv.holds hholds)).1, rfl⟩
  rw [Group.logWrite] at hstep
  split at hstep
  · cases hstep
  · rename_i hlen
    split at hstep
    · cases hstep
      exact h
    · rename_i hnew
      obtain ⟨t, hpin, hg⟩ := bind_ok_iff.mp hstep
      cases hg
      have heff := Effect.of_step (a := .bpin i) h.inv.linked trivial hpin
      have hinv := h.inv.of_effect (a := .bpin i) (h.refs_fit hP i) heff
      cases heff
      have hset : (g.lh ++ [(g.t.s.buf i).blockno]).toFinset =
          insert (g.t.s.buf i).blockno g.lh.toFinset := by
        ext b
        simp [or_comm]
      have hpinned := h.toPinnedOnce.pin h.inv hcarries
        (by rwa [List.mem_toFinset])
      refine ⟨hset ▸ hpinned, hinv, ?_, ?_, ?_⟩
      · rw [← List.concat_eq_append]
        exact h.nodup.concat hnew
      · rw [List.length_append, List.length_singleton]
        omega
      · intro b hb
        rcases List.mem_append.mp hb with hb | hb
        · exact h.outside b hb
        · rw [List.mem_singleton.mp hb]
          exact hout

theorem step (h : GroupInv start g) (hP : Fintype.card P ≤ NPROC)
    {a : GroupOp P} (hc : InGroup start g a) (hstep : g.step a = .ok g') :
    GroupInv start g' := by
  cases a with
  | logWrite p i => exact h.logWrite hP hc.1 hc.2 hstep
  | bio a =>
    obtain ⟨t, ht, hg⟩ := bind_ok_iff.mp hstep
    cases hg
    have hclient : Client g.t a ∧ ∀ i, a ≠ .bpin i ∧ a ≠ .bunpin i := by
      cases a with
      | bpin i => exact absurd hc id
      | bunpin i => exact absurd hc id
      | bget | acquiresleep | fill | modify | bwrite | brelse | release =>
        exact ⟨hc, fun i => ⟨nofun, nofun⟩⟩
    have hfits : Fits g.t a := by
      cases a with
      | bget p dev b => exact fun i _ => h.refs_fit hP i
      | bpin i => exact h.refs_fit hP i
      | acquiresleep | fill | modify | bwrite | brelse | release | bunpin =>
        exact trivial
    have heff := Effect.of_step h.inv.linked hclient.1 ht
    obtain ⟨hpins, b, hmoved⟩ := moved h.inv heff hclient.2
    exact ⟨h.toPinnedOnce.of_moved hpins hmoved, h.inv.of_effect hfits heff,
      h.nodup, h.fits, h.outside⟩

theorem run (h : GroupInv start g) (hP : Fintype.card P ≤ NPROC)
    {as : List (GroupOp P)} (run : Run Group.step (InGroup start) g as g') :
    GroupInv start g' :=
  run.invariant (fun _ _ _ hs hok hstep => hs.step hP hok hstep) h

/-! ### The outcome of a commit -/

theorem commit_ok (h : GroupInv start g) (hquiet : Quiet g.t) (p : P)
    (hroom : g.lh.length < NBUF) : ∃ g', g.commit start p = .ok g' := by
  rw [Group.commit]
  split
  · have h₀ := h.calm hquiet p
    have hcard : g.lh.toFinset.card < NBUF := by
      rw [List.toFinset_card_of_nodup h.nodup]
      exact hroom
    have hlen : 0 + g.lh.length ≤ LOGBLOCKS := by
      rw [Nat.zero_add]
      exact h.fits
    obtain ⟨t₁, hlog, h₁⟩ := h₀.writeLog hcard hlen
      fun b hb => ⟨List.mem_toFinset.mpr hb, h.outside b hb⟩
    obtain ⟨t₂, hhead, h₂⟩ := h₁.writeHead hcard start g.lh
    obtain ⟨t₃, hinstall, h₃⟩ := h₂.installTrans h.nodup hroom hlen h.outside
    obtain ⟨t₄, herase, -⟩ := h₃.writeHead (by decide) start []
    refine ⟨⟨t₄, []⟩, ?_⟩
    simp only [hlog, hhead, hinstall, herase, bind, Except.bind]
  · exact ⟨g, rfl⟩

/-- Every buffer is that of a pinned block, so there is none for the first
log block. -/
theorem commit_full (h : GroupInv start g) (hquiet : Quiet g.t) (p : P)
    (hfull : NBUF ≤ g.lh.length) :
    g.commit start p = .error .noBuffers := by
  have h₀ := h.calm hquiet p
  have hpinned := h₀.all_pinned (by
    rw [List.toFinset_card_of_nodup h.nodup]
    exact hfull)
  have hlook : g.t.s.lookup ROOTDEV (logBlock start 0) = none := by
    cases hlook : g.t.s.lookup ROOTDEV (logBlock start 0) with
    | none => rfl
    | some i =>
      have hi := (h.inv.linked.lookup_some hlook).2
      have hout := h.outside _ (List.mem_toFinset.mp (hpinned i).1)
      exact absurd hi (hout.ne_logBlock (by decide))
  have hvict : g.t.s.victim = none := by
    cases hvict : g.t.s.victim with
    | none => rfl
    | some i =>
      have hrefs := h.inv.free (h.inv.linked.victim_some hvict)
      rw [h₀.refs, (hpinned i).2] at hrefs
      omega
  have hread : g.t.bread p (logBlock start 0) = .error .noBuffers := by
    simp only [Traced.bread, Traced.step, BioState.step, BioState.bget,
      hlook, hvict, bind, Except.bind]
  have hpos : 0 < g.lh.length := Nat.lt_of_lt_of_le (by decide) hfull
  rw [Group.commit, if_pos hpos]
  cases hlh : g.lh with
  | nil =>
    rw [hlh] at hpos
    cases hpos
  | cons b lh =>
    simp only [Traced.writeLog, Traced.writeLogEntry, hread, bind,
      Except.bind]

end GroupInv

variable [DecidableEq P]

/-- **When a commit gets its buffers.** After the operations of any group, with
no buffer held, `commit` runs to its end exactly if the group logged fewer
blocks than there are buffers. -/
theorem commit_completes_iff (hP : Fintype.card P ≤ NPROC) {g₀ g : Group P}
    {as : List (GroupOp P)} (hfresh : Fresh g₀)
    (run : Run Group.step (InGroup start) g₀ as g) (hquiet : Quiet g.t)
    (p : P) :
    (∃ g', g.commit start p = .ok g') ↔ g.lh.length < NBUF := by
  have h := hfresh.groupInv.run hP run
  constructor
  · rintro ⟨g', hcommit⟩
    by_contra hfull
    rw [h.commit_full hquiet p (Nat.le_of_not_lt hfull)] at hcommit
    cases hcommit
  · exact h.commit_ok hquiet p

/-! ### Groups of any given blocks -/

omit [Fintype P] in
theorem run_bio {t t' : Traced P} {as : List (BioOp P)} (lh : List BlockNo)
    (run : Run Traced.step Client t as t')
    (hpin : ∀ a ∈ as, ∀ i, a ≠ .bpin i ∧ a ≠ .bunpin i) :
    Run Group.step (InGroup start) ⟨t, lh⟩ (as.map .bio) ⟨t', lh⟩ := by
  induction run with
  | nil t => exact .nil _
  | @cons t t₁ t₂ a as hc hstep rest ih =>
    have hne := hpin a (List.mem_cons_self ..)
    have htaken : Group.step ⟨t, lh⟩ (.bio a) = .ok ⟨t₁, lh⟩ := by
      simp only [Group.step, hstep, bind, Except.bind]
    refine .cons ?_ htaken
      (ih fun c hc => hpin c (List.mem_cons_of_mem a hc))
    cases a with
    | bpin i => exact absurd rfl (hne i).1
    | bunpin i => exact absurd rfl (hne i).2
    | bget | acquiresleep | fill | modify | bwrite | brelse | release =>
      exact hc

/-- One process reads a block, logs it and releases it. -/
theorem GroupInv.exists_logged {g : Group P} (h : GroupInv start g)
    (hquiet : Quiet g.t) (p : P) {b : BlockNo} (hb : b ∉ g.lh)
    (hout : OutsideLog start b) (hlen : g.lh.length < LOGBLOCKS) :
    ∃ as t, Run Group.step (InGroup start) g as ⟨t, g.lh ++ [b]⟩ ∧
      Quiet t := by
  have hroom : (∅ : Finset BufId).card + g.lh.toFinset.card < NBUF := by
    rw [Finset.card_empty, Nat.zero_add, List.toFinset_card_of_nodup h.nodup]
    exact hlen
  obtain ⟨i, t₁, -, run₁, -, h₁, hi⟩ :=
    (h.calm hquiet p).bread (b := b) (Or.inr hroom) (by simp)
  obtain ⟨t₂, hpin, h₂⟩ := h₁.bpin hi (by rwa [List.mem_toFinset])
  obtain ⟨t₃, -, run₃, h₃⟩ := h₂.brelse (i := i) (by simp)
  rw [Finset.erase_insert (Finset.notMem_empty i)] at h₃
  have hlog : Group.step ⟨t₁, g.lh⟩ (.logWrite p i) =
      .ok ⟨t₂, g.lh ++ [b]⟩ := by
    simp only [Group.step, Group.logWrite, hi.2, if_neg hb,
      if_neg (Nat.not_le.mpr hlen), hpin, bind, Except.bind]
  have hholds : InGroup start ⟨t₁, g.lh⟩ (.logWrite p i) :=
    ⟨h₁.holds (by simp), by rw [hi.2]; exact hout⟩
  refine ⟨_, t₃, (run_bio g.lh run₁ (by simp)).append
    (.cons hholds hlog (run_bio (g.lh ++ [b]) run₃ (by simp))), h₃.idle, ?_⟩
  simpa using h₃.locked

theorem GroupInv.exists_group (hP : Fintype.card P ≤ NPROC) (p : P)
    (start : BlockNo) (bs : List BlockNo) :
    ∀ {g : Group P}, GroupInv start g → Quiet g.t →
    (g.lh ++ bs).Nodup → (g.lh ++ bs).length ≤ LOGBLOCKS →
    (∀ b ∈ bs, OutsideLog start b) →
    ∃ as g', Run Group.step (InGroup start) g as g' ∧ Quiet g'.t ∧
      g'.lh = g.lh ++ bs := by
  induction bs with
  | nil =>
    intro g h hquiet _ _ _
    exact ⟨[], g, .nil g, hquiet, (List.append_nil _).symm⟩
  | cons b bs ih =>
    intro g h hquiet hnodup hlen hout
    rw [List.append_cons] at hnodup hlen ⊢
    have hb : b ∉ g.lh := by
      intro hb
      rw [List.append_assoc, List.singleton_append, List.nodup_middle,
        List.nodup_cons] at hnodup
      exact hnodup.1 (List.mem_append_left bs hb)
    have hlen₁ : g.lh.length < LOGBLOCKS := by
      rw [List.length_append, List.length_append,
        List.length_singleton] at hlen
      omega
    obtain ⟨as, t, run₁, hquiet₁⟩ := h.exists_logged hquiet p hb
      (hout b (List.mem_cons_self ..)) hlen₁
    obtain ⟨cs, g', run₂, hquiet₂, hlh⟩ := ih (h.run hP run₁) hquiet₁
      hnodup hlen fun c hc => hout c (List.mem_cons_of_mem b hc)
    exact ⟨as ++ cs, g', run₁.append run₂, hquiet₂, hlh⟩

end Groups

/-! ### The smallest and the largest group -/

theorem boot_fresh {P : Type*} [Fintype P] (disk : Disk) :
    Fresh (⟨.boot disk, []⟩ : Group P) :=
  ⟨Inv.boot disk, fun _ => rfl, rfl⟩

theorem boot_quiet {P : Type*} (disk : Disk) :
    Quiet (Traced.boot disk : Traced P) :=
  ⟨fun _ => rfl, fun _ => rfl⟩

/-- The blocks of the three operations that fill the log. -/
def groupBlocks : List BlockNo :=
  (List.range LOGBLOCKS).map fun i => UInt32.ofNat (100 + i)

theorem outside_of_lt {n : ℕ} (hlo : 32 < n) (hhi : n < 1000) :
    OutsideLog 2 (UInt32.ofNat n) := by
  intro i hi heq
  have heq := congrArg UInt32.toNat heq
  simp only [UInt32.toNat_add, UInt32.toNat_ofNat', UInt32.toNat_ofNat] at heq
  simp only [LOGBLOCKS, MAXOPBLOCKS] at hi
  omega

theorem groupBlocks_outside : ∀ b ∈ groupBlocks, OutsideLog 2 b := by
  intro b hb
  obtain ⟨i, hi, rfl⟩ := List.mem_map.mp hb
  have hi : i < LOGBLOCKS := List.mem_range.mp hi
  simp only [LOGBLOCKS, MAXOPBLOCKS] at hi
  exact outside_of_lt (by omega) (by omega)

theorem commit_completes_one : ∃ as g g',
    Run Group.step (InGroup 2) (⟨.boot fun _ _ => 0, []⟩ : Group (Fin 3))
      as g ∧ g.lh = [100] ∧ Quiet g.t ∧ g.commit 2 0 = .ok g' := by
  obtain ⟨as, g, run, hquiet, hlh⟩ := GroupInv.exists_group
    (by decide) (0 : Fin 3) 2 [100] (boot_fresh fun _ _ => 0).groupInv
    (boot_quiet _) (by decide) (by decide)
    (by simpa using outside_of_lt (n := 100) (by decide) (by decide))
  obtain ⟨g', hcommit⟩ := (commit_completes_iff (by decide) (boot_fresh _) run
    hquiet 0).mpr (by rw [hlh]; decide)
  exact ⟨as, g, g', run, hlh, hquiet, hcommit⟩

/-- The log admits three operations of ten blocks each, and the commit finds
no buffer. -/
theorem commit_no_buffers :
    (∃ l, Run Logged.step Limited threeLog
      (fillLog ++ [.endOp 0, .endOp 1, .endOp 2]) l ∧
      l.s.phase 2 = .commit .start ∧ l.s.lh = groupBlocks) ∧
    ∃ as g, Run Group.step (InGroup 2)
      (⟨.boot fun _ _ => 0, []⟩ : Group (Fin 3)) as g ∧
      g.lh = groupBlocks ∧ Quiet g.t ∧
      g.commit 2 2 = .error .noBuffers := by
  constructor
  · obtain ⟨l, hrun, hl⟩ := exists_some_of_any
      (show ((Run.checked Logged.step Limited threeLog
        (fillLog ++ [.endOp 0, .endOp 1, .endOp 2])).any fun l =>
          decide (l.s.phase 2 = .commit .start ∧ l.s.lh = groupBlocks)) = true
        by decide +kernel)
    exact ⟨l, Run.of_checked hrun, of_decide_eq_true hl⟩
  · obtain ⟨as, g, run, hquiet, hlh⟩ := GroupInv.exists_group
      (by decide) (0 : Fin 3) 2 groupBlocks
      (boot_fresh fun _ _ => 0).groupInv (boot_quiet _) (by decide +kernel)
      (by decide +kernel) groupBlocks_outside
    have h := (boot_fresh fun _ _ => 0).groupInv.run (by decide) run
    exact ⟨as, g, run, hlh, hquiet,
      h.commit_full hquiet 2 (by rw [hlh]; decide)⟩

end Xv6.Bio
