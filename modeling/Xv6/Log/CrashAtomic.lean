import Xv6.Log.Model

/-!
# The redo log is crash-atomic

A disk *represents* contents `c` (`Repr`) when installing what its header
lists, from the log copies it holds, yields `c` outside the log area. The
header block is the only thing that decides which contents are represented:
recovery keeps the represented contents at every crash point, and a commit
changes them in the one write of its header.
-/

namespace Xv6.Log

open Framework

variable {start : BlockNo}

/-! ## Addresses of the log area -/

theorem logBlock_eq (start : BlockNo) (i : ℕ) :
    logBlock start i = start + UInt32.ofNat (i + 1) := by
  rw [logBlock, UInt32.ofNat_add, UInt32.add_assoc]
  rfl

variable {i : ℕ}

private theorem ofNat_inj_of_le {j : ℕ} (hi : i ≤ LOGBLOCKS)
    (hj : j ≤ LOGBLOCKS) (h : start + UInt32.ofNat i = start + UInt32.ofNat j) :
    i = j := by
  have hij := congrArg UInt32.toNat ((UInt32.add_right_inj start).mp h)
  simp only [UInt32.toNat_ofNat', LOGBLOCKS, MAXOPBLOCKS] at hij hi hj
  omega

theorem logBlock_inj {j : ℕ} (hi : i < LOGBLOCKS) (hj : j < LOGBLOCKS)
    (h : logBlock start i = logBlock start j) : i = j := by
  rw [logBlock_eq, logBlock_eq] at h
  exact Nat.succ.inj (ofNat_inj_of_le hi hj h)

theorem logBlock_ne_start (hi : i < LOGBLOCKS) : logBlock start i ≠ start := by
  intro h
  rw [logBlock_eq] at h
  have h0 : start + UInt32.ofNat (i + 1) = start + UInt32.ofNat 0 := by
    rw [h]
    exact (UInt32.add_zero start).symm
  exact absurd (ofNat_inj_of_le hi (Nat.zero_le _) h0) (Nat.succ_ne_zero i)

theorem OutsideLog.ne_start {b : BlockNo} (h : OutsideLog start b) :
    b ≠ start := by
  have := h 0 (Nat.zero_le _)
  rwa [show start + UInt32.ofNat 0 = start from UInt32.add_zero start] at this

theorem OutsideLog.ne_logBlock {b : BlockNo} (h : OutsideLog start b)
    (hi : i < LOGBLOCKS) : b ≠ logBlock start i := by
  rw [logBlock_eq]
  exact h (i + 1) hi

/-! ## The header block read back -/

private theorem toNat_ofNat_of_le :
    ∀ n ≤ LOGBLOCKS, (UInt32.ofNat n).toInt32.toInt.toNat = n := by decide

variable {lh : List BlockNo}

theorem headN_setHead (old : Block) (h : lh.length ≤ LOGBLOCKS) :
    headN (setHead old lh) = lh.length := by
  rw [headN, word, dif_pos (by decide), setHead, if_pos rfl]
  exact toNat_ofNat_of_le _ h

theorem word_setHead (old : Block) (h : lh.length ≤ LOGBLOCKS)
    (hi : i < lh.length) : word (setHead old lh) (i + 1) = lh.get ⟨i, hi⟩ := by
  have hb : i + 1 < 256 := by
    simp only [LOGBLOCKS, MAXOPBLOCKS] at h
    omega
  rw [word, dif_pos hb, setHead, if_neg (Nat.succ_ne_zero i)]
  simp [hi]

variable {d : Disk}

theorem readHead_of_setHead {old : Block} (h : lh.length ≤ LOGBLOCKS)
    (hd : d start = setHead old lh) : readHead start d = lh := by
  rw [readHead, hd, headN_setHead old h]
  apply List.ext_get
  · simp
  · intro i hi hi'
    simpa using word_setHead old h hi'

theorem word_setHead_nil (old : Block) : word (setHead old []) 0 = 0 := by
  rw [word, dif_pos (by decide), setHead, if_pos rfl]
  rfl

theorem readHead_of_word_zero (h : word (d start) 0 = 0) :
    readHead start d = [] := by
  rw [readHead, headN, h]
  rfl

variable {e : Disk}

theorem readHead_congr (h : d start = e start) :
    readHead start d = readHead start e := by
  rw [readHead, readHead, h]

/-! ## The log copies -/

/-- The log's copies of the `n` entries from `tail` on. -/
def copies (start : BlockNo) (d : Disk) (tail n : ℕ) : List Block :=
  (List.range' tail n).map fun i => d (logBlock start i)

theorem copies_succ (d : Disk) (tail n : ℕ) :
    copies start d tail (n + 1) =
      d (logBlock start tail) :: copies start d (tail + 1) n := by
  simp [copies, List.range'_succ]

theorem copies_congr {tail n : ℕ} (hn : tail + n ≤ LOGBLOCKS)
    (h : ∀ i < LOGBLOCKS, d (logBlock start i) = e (logBlock start i)) :
    copies start d tail n = copies start e tail n := by
  refine List.map_congr_left fun i hi => h i ?_
  rw [List.mem_range'_1] at hi
  omega

/-- Installing copies each listed block from the log, since no listed block
is itself a log block. -/
theorem installTrans_eq : ∀ {lh : List BlockNo} {tail : ℕ} {d : Disk},
    (∀ b ∈ lh, OutsideLog start b) → tail + lh.length ≤ LOGBLOCKS →
    installTrans start tail lh d = lh.zip (copies start d tail lh.length)
  | [], _, _, _, _ => rfl
  | b :: lh, tail, d, hout, hlen => by
    rw [List.length_cons] at hlen ⊢
    have hb := hout b List.mem_cons_self
    rw [installTrans, copies_succ, List.zip_cons_cons,
      installTrans_eq (fun c hc => hout c (List.mem_cons_of_mem _ hc))
        (by omega)]
    congr 2
    refine copies_congr (by omega) fun i hi => ?_
    exact Function.update_of_ne (Ne.symm (hb.ne_logBlock hi)) _ _

/-- `write_log` writes log copies only. -/
theorem writeLog_mem {pinned : List (BlockNo × Block)} :
    ∀ {lh : List BlockNo} {tail : ℕ} {d : Disk} {w : BlockNo × Block},
      w ∈ writeLog start pinned tail lh d →
        ∃ i, tail ≤ i ∧ i < tail + lh.length ∧ w.1 = logBlock start i
  | b :: lh, tail, d, w, h => by
    rw [writeLog] at h
    rcases List.mem_cons.mp h with rfl | h
    · exact ⟨tail, Nat.le_refl _, by simp, rfl⟩
    · obtain ⟨i, hi, hlt, hw⟩ := writeLog_mem h
      rw [List.length_cons]
      exact ⟨i, by omega, by omega, hw⟩

/-- After `write_log` the copies are the transaction's new contents. -/
theorem copies_writeLog {pinned : List (BlockNo × Block)} :
    ∀ {ws : List (BlockNo × Block)} {tail : ℕ} {d : Disk},
      (∀ w ∈ ws, pinned.lookup w.1 = some w.2) →
      tail + ws.length ≤ LOGBLOCKS →
      copies start (applyWrites d (writeLog start pinned tail
        (ws.map Prod.fst) d)) tail ws.length = ws.map Prod.snd
  | [], _, _, _, _ => rfl
  | w :: ws, tail, d, hp, hlen => by
    rw [List.length_cons] at hlen ⊢
    rw [List.map_cons, List.map_cons, writeLog, copies_succ,
      applyWrites_cons]
    have hw : bread pinned d w.1 = w.2 := by
      rw [bread, hp w List.mem_cons_self]
      rfl
    congr 1
    · rw [applyWrites_of_notMem, Function.update_self, hw]
      intro v hv heq
      obtain ⟨i, hi, hlt, hvi⟩ := writeLog_mem hv
      rw [List.length_map] at hlt
      have := logBlock_inj (by omega) (by omega) (hvi.symm.trans heq)
      omega
    · exact copies_writeLog (fun v hv => hp v (List.mem_cons_of_mem _ hv))
        (by omega)

/-! ## Represented contents -/

/-- The contents a disk stands for: its header's entries installed. -/
structure Repr (start : BlockNo) (d c : Disk) : Prop where
  fits : (readHead start d).length ≤ LOGBLOCKS
  outside : ∀ b ∈ readHead start d, OutsideLog start b
  data : ∀ x, OutsideLog start x →
    applyWrites d ((readHead start d).zip
      (copies start d 0 (readHead start d).length)) x = c x

/-- An empty log, with the contents in place. -/
structure Clean (start : BlockNo) (d c : Disk) : Prop where
  empty : word (d start) 0 = 0
  data : ∀ x, OutsideLog start x → d x = c x

variable {c : Disk}

theorem Clean.repr (h : Clean start d c) : Repr start d c := by
  have hnil := readHead_of_word_zero h.empty
  refine ⟨?_, ?_, ?_⟩
  · simp [hnil]
  · simp [hnil]
  · intro x hx
    rw [hnil]
    exact h.data x hx

theorem Clean.congr (h : Clean start d c) (hhead : e start = d start)
    (hdata : ∀ x, OutsideLog start x → e x = d x) : Clean start e c :=
  ⟨by rw [hhead]; exact h.empty, fun x hx => by rw [hdata x hx, h.data x hx]⟩

/-! ## Recovery -/

theorem installTrans_readHead (h : Repr start d c) :
    installTrans start 0 (readHead start d) d =
      (readHead start d).zip
        (copies start d 0 (readHead start d).length) :=
  installTrans_eq h.outside (by simpa using h.fits)

/-- Installing some of the entries changes neither the header nor the log
copies, and installing all of them afterwards gives the same contents. -/
theorem Repr.install_take (h : Repr start d c) (k : ℕ) :
    Repr start (applyWrites d
      ((installTrans start 0 (readHead start d) d).take k)) c := by
  rw [installTrans_readHead h]
  generalize hws : (readHead start d).zip
    (copies start d 0 (readHead start d).length) = ws
  have hkey : ∀ w ∈ ws.take k, OutsideLog start w.1 := by
    intro w hw
    have hmem : (w.1, w.2) ∈ ws := List.mem_of_mem_take hw
    rw [← hws] at hmem
    exact h.outside _ (List.of_mem_zip hmem).1
  have hstart : applyWrites d (ws.take k) start = d start :=
    applyWrites_of_notMem fun w hw => (hkey w hw).ne_start
  have hlog : ∀ i < LOGBLOCKS,
      applyWrites d (ws.take k) (logBlock start i) = d (logBlock start i) :=
    fun i hi => applyWrites_of_notMem fun w hw => (hkey w hw).ne_logBlock hi
  have hread := readHead_congr hstart
  refine ⟨by rw [hread]; exact h.fits, by rw [hread]; exact h.outside, ?_⟩
  intro x hx
  rw [hread, copies_congr (by simpa using h.fits) hlog, hws,
    applyWrites_take_replay]
  have := h.data x hx
  rwa [hws] at this

theorem Repr.installed (h : Repr start d c) :
    Repr start (applyWrites d
      (installTrans start 0 (readHead start d) d)) c := by
  have := h.install_take (installTrans start 0 (readHead start d) d).length
  rwa [List.take_length] at this

/-- Erasing the header of an installed disk leaves the contents in place. -/
theorem recovered_clean (h : Repr start d c) :
    Clean start (recovered start d) c := by
  rw [recovered, recoverFromLog]
  simp only [applyWrites_append, applyWrites_cons, applyWrites_nil, writeHead]
  refine ⟨?_, fun x hx => ?_⟩
  · rw [Function.update_self]
    exact word_setHead_nil _
  · rw [Function.update_of_ne hx.ne_start, installTrans_readHead h]
    exact h.data x hx

variable {d' : Disk}

/-- **Recovery may crash anywhere.** Every crash point of a recovery leaves a
disk that represents the same contents, so recovering again is safe. -/
theorem Repr.recover_crash (h : Repr start d c)
    (hc : CrashOf d (recoverFromLog start d) d') : Repr start d' c := by
  rw [recoverFromLog] at hc
  rcases hc.append_cases with ⟨k, rfl⟩ | hc
  · exact h.install_take k
  · rcases hc.singleton_cases with rfl | rfl
    · exact h.installed
    · have := (recovered_clean h).repr
      simpa [recovered, recoverFromLog] using this

theorem retried_repr (e : Epoch start) (h : Repr start d c) :
    Repr start (e.retried d) c := by
  rw [Epoch.retried]
  induction e.interrupted generalizing d with
  | nil => exact h
  | cons k ks ih => exact ih (h.recover_crash (.take _ _ k))

/-! ## Commit -/

theorem Txn.lookup_writes (t : Txn start) {w : BlockNo × Block}
    (hw : w ∈ t.writes) : t.writes.lookup w.1 = some w.2 :=
  lookup_of_mem t.nodup hw

theorem Txn.blocks_outside (t : Txn start) :
    ∀ b ∈ t.blocks, OutsideLog start b := by
  intro b hb
  obtain ⟨w, hw, rfl⟩ := List.mem_map.mp hb
  exact t.outside w hw

theorem Txn.length_blocks (t : Txn start) : t.blocks.length ≤ LOGBLOCKS := by
  rw [Txn.blocks, List.length_map]
  exact t.fits

theorem Txn.writeLog_mem (t : Txn start) {w : BlockNo × Block}
    (hw : w ∈ writeLog start t.writes 0 t.blocks d) :
    ∃ i < LOGBLOCKS, w.1 = logBlock start i := by
  obtain ⟨i, -, hi, hwi⟩ := Log.writeLog_mem hw
  exact ⟨i, by have := t.length_blocks; omega, hwi⟩

/-- A crash while the log copies are being written: the header still lists
nothing and no home block has been touched. -/
theorem Clean.log_crash {t : Txn start} (h : Clean start d c)
    (hc : CrashOf d (writeLog start t.writes 0 t.blocks d) d') :
    Clean start d' c := by
  obtain ⟨k, rfl⟩ := hc
  apply h.congr
  · apply applyWrites_of_notMem
    intro w hw
    obtain ⟨i, hi, hwi⟩ := t.writeLog_mem (List.mem_of_mem_take hw)
    rw [hwi]
    exact logBlock_ne_start hi
  · intro x hx
    apply applyWrites_of_notMem
    intro w hw
    obtain ⟨i, hi, hwi⟩ := t.writeLog_mem (List.mem_of_mem_take hw)
    rw [hwi]
    exact (hx.ne_logBlock hi).symm

/-- The disk right after the header write, the commit point. -/
def atCommitPoint (t : Txn start) (d : Disk) : Disk :=
  let d₁ := applyWrites d (writeLog start t.writes 0 t.blocks d)
  applyWrites d₁ [writeHead start t.blocks d₁]

theorem readHead_atCommitPoint (t : Txn start) (d : Disk) :
    readHead start (atCommitPoint t d) = t.blocks := by
  apply readHead_of_setHead t.length_blocks
  simp only [atCommitPoint, writeHead, applyWrites_cons, applyWrites_nil]
  exact Function.update_self ..

/-- At the commit point the disk stands for the transaction applied. -/
theorem atCommitPoint_repr (t : Txn start) (h : Clean start d c) :
    Repr start (atCommitPoint t d) (t.apply c) := by
  have hread := readHead_atCommitPoint t d
  have hlogged := h.log_crash (t := t)
    (CrashOf.take d _ (writeLog start t.writes 0 t.blocks d).length)
  rw [List.take_length] at hlogged
  refine ⟨by rw [hread]; exact t.length_blocks,
    by rw [hread]; exact t.blocks_outside, ?_⟩
  intro x hx
  have hcopies : copies start (atCommitPoint t d) 0 t.blocks.length =
      t.writes.map Prod.snd := by
    have hwritten := @copies_writeLog start t.writes t.writes 0 d
      (fun w hw => t.lookup_writes hw) (by simpa using t.fits)
    rw [← hwritten, Txn.blocks, List.length_map]
    refine copies_congr (by simpa using t.fits) fun i hi => ?_
    simp only [atCommitPoint, writeHead, applyWrites_cons, applyWrites_nil]
    exact Function.update_of_ne (logBlock_ne_start hi) _ _
  have hzip : t.blocks.zip (t.writes.map Prod.snd) = t.writes := by
    rw [Txn.blocks, List.zip_map']
    simp
  rw [hread, hcopies, hzip, Txn.apply]
  apply applyWrites_congr
  right
  simp only [atCommitPoint, writeHead, applyWrites_cons, applyWrites_nil]
  rw [Function.update_of_ne hx.ne_start]
  exact hlogged.data x hx

/-- From the commit point on, `commit` makes the writes of a recovery. -/
theorem commit_eq (t : Txn start) (d : Disk) (h : 0 < t.blocks.length) :
    commit start t d = writeLog start t.writes 0 t.blocks d ++
      ([writeHead start t.blocks
          (applyWrites d (writeLog start t.writes 0 t.blocks d))] ++
        recoverFromLog start (atCommitPoint t d)) := by
  rw [commit, if_pos h, recoverFromLog, readHead_atCommitPoint]
  rfl

theorem commit_nil (t : Txn start) (d : Disk) (h : ¬ 0 < t.blocks.length) :
    commit start t d = [] ∧ t.writes = [] := by
  refine ⟨by rw [commit, if_neg h], ?_⟩
  have hlen : t.writes.length = 0 := by
    rw [Txn.blocks, List.length_map] at h
    omega
  exact List.eq_nil_of_length_eq_zero hlen

/-- **The header write is the commit point.** A crash anywhere in a commit
leaves a disk that stands for the contents before the transaction or for the
contents after it. -/
theorem Clean.commit_crash {t : Txn start} (h : Clean start d c)
    (hc : CrashOf d (commit start t d) d') :
    Repr start d' c ∨ Repr start d' (t.apply c) := by
  by_cases hlen : 0 < t.blocks.length
  · rw [commit_eq t d hlen] at hc
    rcases hc.append_cases with hc | hc
    · exact Or.inl (h.log_crash hc).repr
    · rcases hc.append_cases with hc | hc
      · rcases hc.singleton_cases with rfl | rfl
        · left
          have := h.log_crash (t := t) (CrashOf.take d _
            (writeLog start t.writes 0 t.blocks d).length)
          rw [List.take_length] at this
          exact this.repr
        · exact Or.inr (atCommitPoint_repr t h)
      · exact Or.inr ((atCommitPoint_repr t h).recover_crash hc)
  · rw [(commit_nil t d hlen).1] at hc
    obtain ⟨k, rfl⟩ := hc
    exact Or.inl (by simpa using h.repr)

theorem committed_clean (t : Txn start) (h : Clean start d c) :
    Clean start (committed d t) (t.apply c) := by
  rw [committed]
  by_cases hlen : 0 < t.blocks.length
  · rw [commit_eq t d hlen, applyWrites_append, applyWrites_append]
    exact recovered_clean (atCommitPoint_repr t h)
  · obtain ⟨hnil, hws⟩ := commit_nil t d hlen
    rw [hnil, applyWrites_nil, Txn.apply, hws]
    exact h

theorem foldl_committed_clean : ∀ (ts : List (Txn start)) {d c : Disk},
    Clean start d c →
    Clean start (ts.foldl committed d) (ts.foldl Txn.apply c)
  | [], _, _, h => h
  | t :: ts, _, _, h => foldl_committed_clean ts (committed_clean t h)

/-! ## Epochs -/

/-- The crash that ends an epoch leaves a disk that stands for one of the
epoch's outcomes. -/
theorem crashed_repr (e : Epoch start) (h : Clean start d c) :
    ∃ ts, e.Outcome ts ∧ Repr start (e.crashed d) (ts.foldl Txn.apply c) := by
  have hdone := foldl_committed_clean (e.txns.take e.returned) h
  rw [Epoch.crashed]
  cases hnext : e.txns[e.returned]? with
  | none => exact ⟨_, ⟨_, Nat.le_refl _, Nat.le_succ _, rfl⟩, hdone.repr⟩
  | some t =>
    rcases hdone.commit_crash (.take _ (commit start t _) e.reached)
      with hold | hnew
    · exact ⟨_, ⟨_, Nat.le_refl _, Nat.le_succ _, rfl⟩, hold⟩
    · refine ⟨_, ⟨_, Nat.le_succ _, Nat.le_refl _, rfl⟩, ?_⟩
      rw [List.take_add_one, hnext, List.foldl_append]
      exact hnew

theorem run_clean (e : Epoch start) (h : Clean start d c) :
    ∃ ts, e.Outcome ts ∧ Clean start (e.run d) (ts.foldl Txn.apply c) := by
  obtain ⟨ts, hts, hrepr⟩ := crashed_repr e h
  exact ⟨ts, hts, recovered_clean (retried_repr e hrepr)⟩

theorem runs_clean : ∀ (es : List (Epoch start)) {d c : Disk},
    Clean start d c →
    ∃ tss, List.Forall₂ Epoch.Outcome es tss ∧
      Clean start (es.foldl Epoch.run d) (tss.flatten.foldl Txn.apply c)
  | [], _, _, h => ⟨[], .nil, h⟩
  | e :: es, _, _, h => by
    obtain ⟨ts, hts, hclean⟩ := run_clean e h
    obtain ⟨tss, htss, hrest⟩ := runs_clean es hclean
    refine ⟨ts :: tss, .cons hts htss, ?_⟩
    rw [List.flatten_cons, List.foldl_append]
    exact hrest

/-- **Crash atomicity over whole runs.** Start from any image whose header has
`n = 0` and go through any number of epochs, each ending in a crash at any
block write of a commit, any number of recoveries crashing at any of their
block writes, and one that completes. The header then has `n = 0` again, and
the blocks outside the log area hold exactly what the epochs' transactions
give when each epoch keeps a prefix of its own: at least those whose `commit`
returned, each applied entirely or not at all. -/
theorem crash_atomic (start : BlockNo) (d : Disk) (hd : word (d start) 0 = 0)
    (es : List (Epoch start)) :
    word (es.foldl Epoch.run d start) 0 = 0 ∧
    ∃ tss, List.Forall₂ Epoch.Outcome es tss ∧
      ∀ x, OutsideLog start x →
        es.foldl Epoch.run d x = tss.flatten.foldl Txn.apply d x := by
  obtain ⟨tss, htss, hclean⟩ :=
    runs_clean es (d := d) (c := d) ⟨hd, fun _ _ => rfl⟩
  exact ⟨hclean.empty, tss, htss, hclean.data⟩

/-- A transaction that fills block 50 with ones. -/
def onesTxn : Txn 2 where
  writes := [(50, fun _ => 1)]
  nodup := by simp
  fits := by decide
  outside := by
    intro w hw
    obtain rfl := List.mem_singleton.mp hw
    unfold OutsideLog
    decide

/-- The crash falls right after the header write of the only commit, and the
first recovery crashes after installing the block. -/
def onesEpoch : Epoch 2 where
  txns := [onesTxn]
  returned := 0
  reached := 2
  interrupted := [1]
  returned_le := by decide

theorem crash_atomic_ones :
    word ([onesEpoch].foldl Epoch.run (fun _ _ => 0) 2) 0 = 0 ∧
    ∃ tss, List.Forall₂ Epoch.Outcome [onesEpoch] tss ∧
      ∀ x, OutsideLog 2 x →
        [onesEpoch].foldl Epoch.run (fun _ _ => 0) x =
          tss.flatten.foldl Txn.apply (fun _ _ => 0) x :=
  crash_atomic 2 (fun _ _ => 0) rfl [onesEpoch]

end Xv6.Log
