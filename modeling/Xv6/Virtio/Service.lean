import Xv6.Virtio.Requests

/-!
# Every step keeps track of the requests

The device moves requests on, performs them and reports them; the handler of
its interrupts takes them out of the used ring. Each step moves one request or
none.
-/

namespace Xv6.Virtio

open Framework Framework.Fifo

variable {T B : Type}

namespace State

variable {s s' : State T B} {t : T} {p : Point B} {c : Call B} {x : Chain}

/-! ## The two ends of the rings -/

theorem span_eq_zero_iff {lo hi : UInt16} :
    span (2 ^ 16) lo.toNat hi.toNat = 0 ↔ lo = hi := by
  have hlo := lo.toNat_lt
  have hhi := hi.toNat_lt
  rw [← UInt16.toNat_inj, span]
  omega

theorem pendingUsed_ne_nil_iff : s.pendingUsed ≠ [] ↔ s.usedIdx ≠ s.used.idx := by
  rw [← List.length_pos_iff, ← span_used, Nat.pos_iff_ne_zero, Ne,
    span_eq_zero_iff]

theorem pendingUsed_cons (h : s.usedIdx ≠ s.used.idx) :
    s.pendingUsed = (s.used.ring (Fin.ofNat NUM s.usedIdx.toNat)).toNat ::
      { s with usedIdx := s.usedIdx + 1 }.pendingUsed := by
  have hadd : (s.usedIdx + 1).toNat = (s.usedIdx.toNat + 1) % 2 ^ 16 :=
    UInt16.toNat_add ..
  have hne : s.usedIdx.toNat ≠ s.used.idx.toNat := fun heq =>
    h (UInt16.toNat_inj.mp heq)
  simp only [pendingUsed, hadd]
  rw [window_succ_left (by decide) s.usedIdx.toNat_lt s.used.idx.toNat_lt hne,
    List.map_cons]

theorem pendingAvail_cons (h : s.dev.seen ≠ s.avail.idx) :
    s.pendingAvail = (s.avail.ring (Fin.ofNat NUM s.dev.seen.toNat)).toNat ::
      { s with dev := { s.dev with seen := s.dev.seen + 1 } }.pendingAvail := by
  have hadd : (s.dev.seen + 1).toNat = (s.dev.seen.toNat + 1) % 2 ^ 16 :=
    UInt16.toNat_add ..
  have hne : s.dev.seen.toNat ≠ s.avail.idx.toNat := fun heq =>
    h (UInt16.toNat_inj.mp heq)
  simp only [pendingAvail, hadd]
  rw [window_succ_left (by decide) s.dev.seen.toNat_lt s.avail.idx.toNat_lt hne,
    List.map_cons]

/-! ## The device -/

/-- The device finds in a chain what the call asked for. -/
theorem Written.request (hw : s.Written c x 5) (hd : x.data < NUM)
    (hs : x.status < NUM) : s.request x.head = some (c.transfer, x.head) := by
  have hhead := hw.head (by decide)
  have hdata := hw.data (by decide)
  have hstatus := hw.status (by decide)
  have hheader := hw.header (by decide)
  have hnext : (x.headDesc (B := B)).next.toNat = x.data := toNat_next hd
  have hnext' : (c.dataDesc x).next.toNat = x.status := toNat_next hs
  have hflags : ¬ ((x.headDesc (B := B)).flags &&& VRING_DESC_F_NEXT = 0 ∨
      (c.dataDesc x).flags &&& VRING_DESC_F_NEXT = 0 ∨
      (x.statusDesc (B := B)).flags &&& VRING_DESC_F_WRITE = 0) := by
    rintro (h | h | h)
    · exact absurd h
        (by decide : VRING_DESC_F_NEXT &&& VRING_DESC_F_NEXT ≠ 0)
    · exact dataDesc_flags c x h
    · exact absurd h
        (by decide : VRING_DESC_F_WRITE &&& VRING_DESC_F_WRITE ≠ 0)
  have hwrite : (c.dataDesc x).flags &&& VRING_DESC_F_WRITE ≠ 0 ↔
      c.write = false := by
    simp only [Call.dataDesc]
    cases c.write <;> decide
  simp only [State.request, hhead, hnext, hdata, hnext', hstatus]
  rw [if_neg hflags]
  simp only [Chain.headDesc, Call.dataDesc, Chain.statusDesc, hheader,
    Call.header, Call.transfer]
  simp only [Call.dataDesc] at hwrite
  simp only [hwrite, Bool.decide_eq_false]

section Device

variable [DecidableEq B] {l : List (Event B)} {k : ℕ}

/-- The device moves requests on, and performs none. -/
theorem Served.shift (h : s.Served l) (hpoint : s'.point = s.point)
    (hdisk : s'.disk = s.disk) (hinfo : s'.info = s.info)
    (hun : s'.unperformed.Perm s.unperformed)
    (hper : s'.performed.Perm s.performed)
    (hposted : ∀ i, s'.dev.posted = some i → i ∈ s'.dev.done ∧
      (s'.used.ring (Fin.ofNat NUM s'.used.idx.toNat)).toNat = i)
    (hat : ∀ p, s.AtPoint p → s'.AtPoint p) : s'.Served l := by
  have hhands : s'.hands.Perm s.hands := hun.append hper
  constructor
  · exact hhands.nodup_iff.mpr h.nodup
  · intro i
    rw [hhands.mem_iff, h.mem_hands i, hpoint, hdisk]
  · rw [hpoint, hdisk]
    exact h.marked
  · intro i hi
    rw [hinfo]
    exact h.status i (hper.mem_iff.mp hi)
  · exact hposted
  · intro u
    rw [hpoint]
    exact hat _ (h.atPoint u)
  · intro u c x hu hx
    rw [hpoint] at hu
    exact h.submitted u c x hu (hun.mem_iff.mp hx)
  · intro u c x hu hx
    rw [hpoint] at hu
    exact h.finished u c x hu (hper.mem_iff.mp hx)
  · rw [hpoint, hdisk]
    exact h.quiet
  · exact h.orderly

theorem Served.fetch (h : s.Served l) (hstep : s.fetch = .ok s') :
    s'.Served l ∧ ∃ k, s.pendingAvail = k :: s'.pendingAvail := by
  unfold State.fetch at hstep
  split at hstep
  · cases hstep
  · rename_i hne
    cases hstep
    have hcons := pendingAvail_cons hne
    refine ⟨h.shift rfl rfl rfl ?_ (.refl _) h.posted fun p hp =>
      hp.congr rfl rfl, _, hcons⟩
    rw [unperformed, unperformed, hcons]
    exact List.perm_middle

theorem Served.perform (h : s.Served l) (hc : s.Chains)
    (hstep : s.perform k = .ok s') : ∃ u c x,
    (s.point u).sent = some (c, x) ∧ x.head = k ∧
      s.request k = some (c.transfer, k) ∧
      s'.Served (.finish c.transfer :: l) := by
  unfold State.perform at hstep
  split at hstep
  · rename_i hk
    have hkun : k ∈ s.unperformed := List.mem_append_right _ hk
    obtain ⟨u, c, x, hu, rfl, hon⟩ :=
      (h.mem_hands k).mp (List.mem_append_left _ hkun)
    have hlt : ∀ i ∈ x.toList, i < NUM := by
      intro i hi
      rw [← (Point.own_sent hu).1] at hi
      exact hc.slots.lt hi
    have hreq := (hc.sent_written hu).request
      (hlt x.data (by simp [Chain.toList]))
      (hlt x.status (by simp [Chain.toList]))
    rw [hreq] at hstep
    cases hstep
    refine ⟨u, c, x, hu, rfl, hreq, ?_⟩
    have hun : s.unperformed.Perm
        (x.head :: (s.pendingAvail ++ s.dev.todo.erase x.head)) :=
      ((List.perm_cons_erase hk).append_left _).trans List.perm_middle
    have hnodup := h.nodup
    rw [hands, (hun.append_right _).nodup_iff, List.cons_append,
      List.nodup_cons, List.mem_append, not_or] at hnodup
    have hperm : (s.pendingAvail ++ s.dev.todo.erase x.head ++
        (x.head :: s.dev.done ++ s.pendingUsed)).Perm s.hands := by
      refine List.perm_middle.trans ?_
      exact (hun.append_right _).symm
    -- requests of other buffers
    have hlast : ∀ {v c' x'}, (s.point v).sent = some (c', x') →
        x'.head ≠ x.head → lastAbout c'.b (.finish c.transfer :: l) =
          lastAbout c'.b l := by
      intro v c' x' hv hx
      refine lastAbout_cons_of_ne fun hb => hx ?_
      have hvu := hc.sent_of_buf hu hv hb.symm
      rw [hvu, hu] at hv
      cases hv
      rfl
    constructor
    · exact hperm.nodup_iff.mpr h.nodup
    · intro i
      exact hperm.mem_iff.trans (h.mem_hands i)
    · exact h.marked
    · intro i hi
      show (Function.update s.info x.head _ i).status = 0
      by_cases hix : i = x.head
      · rw [hix, Function.update_self]
      · rw [Function.update_of_ne hix]
        exact h.status i ((List.mem_cons.mp hi).resolve_left hix)
    · intro i hi
      obtain ⟨hdone, hcell⟩ := h.posted i hi
      exact ⟨List.mem_cons_of_mem _ hdone, hcell⟩
    · exact fun v => (h.atPoint v).congr rfl rfl
    · intro v c' x' hv hx
      have hne : x'.head ≠ x.head := fun heq => hnodup.1.1 (heq ▸ hx)
      rw [hlast hv hne]
      exact h.submitted v c' x' hv
        (hun.mem_iff.mpr (List.mem_cons_of_mem _ hx))
    · intro v c' x' hv hx
      have hv : (s.point v).sent = some (c', x') := hv
      rcases List.mem_cons.mp hx with heq | hx
      · have hvu := hc.sent_of_head hu hv heq
        rw [hvu, hu] at hv
        cases hv
        exact lastAbout_cons_self rfl
      · have hne : x'.head ≠ x.head := fun heq => hnodup.1.2 (heq ▸ hx)
        rw [hlast hv hne]
        exact h.finished v c' x' hv hx
    · intro b hoff
      have hb : c.b ≠ b := by
        rintro rfl
        have hoff : s.disk c.b = false := hoff u c x hu rfl
        rw [hon] at hoff
        cases hoff
      rw [lastAbout_cons_of_ne (e := .finish c.transfer) hb]
      exact h.quiet b hoff
    · exact .finish h.orderly (h.submitted u c x hu hkun)
  · cases hstep

/-- The used ring has room for a request that the device has performed. -/
theorem Served.room_used (h : s.Served l) (hc : s.Chains)
    (hk : k ∈ s.dev.done) : s.pendingUsed.length < NUM := by
  have hle := length_le_of_nodup h.nodup fun _ hj => h.lt hc hj
  rw [length_hands] at hle
  have hpos := List.length_pos_of_mem hk
  omega

/-- The device stores a head behind the entries of the used ring. -/
theorem Served.post (h : s.Served l) (hc : s.Chains)
    (hstep : s.post k = .ok s') : s'.Served l := by
  unfold State.post at hstep
  split at hstep
  · rename_i hk
    cases hstep
    have hmem : k ∈ s.hands :=
      List.mem_append_right _ (List.mem_append_left _ hk.1)
    have hlt : k < NUM := h.lt hc hmem
    have hroom := h.room_used hc hk.1
    rw [← span_used] at hroom
    have hring : (window (2 ^ 16) (Function.update s.used.ring
        (Fin.ofNat NUM s.used.idx.toNat) k.toUInt32) s.usedIdx.toNat
        s.used.idx.toNat).map UInt32.toNat = s.pendingUsed := by
      rw [window_update (by decide) s.usedIdx.toNat_lt hroom]
      rfl
    refine h.shift rfl rfl rfl (.refl _) ?_ ?_ fun p hp => hp.congr rfl hring
    · rw [performed, performed]
      exact List.Perm.append_left _ (List.Perm.of_eq hring)
    · intro i hi
      cases hi
      refine ⟨hk.1, ?_⟩
      show (Function.update s.used.ring _ k.toUInt32 _).toNat = k
      rw [Function.update_self]
      show k % 2 ^ 32 = k
      unfold NUM at hlt
      omega
  · cases hstep

theorem Served.advance (h : s.Served l) (hc : s.Chains)
    (hstep : s.advance = .ok s') : s'.Served l := by
  unfold State.advance at hstep
  split at hstep
  · cases hstep
  · rename_i k hposted
    cases hstep
    obtain ⟨hk, hcell⟩ := h.posted k hposted
    have hroom := h.room_used hc hk
    rw [← span_used] at hroom
    unfold NUM at hroom
    have hadd : (s.used.idx + 1).toNat = (s.used.idx.toNat + 1) % 2 ^ 16 :=
      UInt16.toNat_add ..
    have hring : (window (2 ^ 16) s.used.ring s.usedIdx.toNat
        (s.used.idx + 1).toNat).map UInt32.toNat = s.pendingUsed ++ [k] := by
      rw [hadd, window_succ_right (by decide) s.usedIdx.toNat_lt (by omega),
        List.map_append, List.map_singleton, hcell]
      rfl
    refine h.shift rfl rfl rfl (.refl _) ?_ (fun i hi => ?_) fun p hp => ?_
    · show (s.dev.done.erase k ++ _).Perm _
      rw [pendingUsed, hring, ← List.append_assoc]
      refine (List.perm_append_singleton k _).trans ?_
      rw [← List.cons_append]
      exact (List.perm_cons_erase hk).symm.append_right _
    · cases hi
    · cases p with
      | intrRead =>
        show (window _ _ _ _).map UInt32.toNat ≠ []
        rw [hring]
        simp
      | intrStatus id | intrDone id =>
        show ((window _ _ _ _).map UInt32.toNat).head? = some id
        rw [hring, List.head?_append, hp]
        rfl
      | panicked p => exact hp
      | busy c x st =>
        cases st with
        | publish => exact hp
        | header | head | data | status | record | ring | notify | wait
        | sleep | clear => trivial
      | idle | enter c | alloc c idx | undo c idx | starved c
      | freeing c x i | leave c | intrEnter | intrTest
      | intrLeave => trivial

/-- What `virtio_disk_intr` finds: a request that the device has performed,
and the buffer it was for. -/
theorem Served.found {id : ℕ} (h : s.Served l) (hc : s.Chains)
    (hid : s.pendingUsed.head? = some id) : ∃ u c x,
    (s.point u).sent = some (c, x) ∧ x.head = id ∧ s.disk c.b = true ∧
      (s.info id).b = some c.b ∧ (s.info id).status = 0 ∧
      lastAbout c.b l = some (.finish c.transfer) := by
  have hmem : id ∈ s.performed :=
    List.mem_append_right _ (List.mem_of_mem_head? hid)
  obtain ⟨u, c, x, hu, rfl, hon⟩ :=
    (h.mem_hands id).mp (List.mem_append_right _ hmem)
  exact ⟨u, c, x, hu, rfl, hon, (hc.sent_written hu).buf le_rfl,
    h.status _ hmem, h.finished u c x hu hmem⟩

end Device

/-! ## The interrupt handler -/

variable [DecidableEq T] [DecidableEq B] {l : List (Event B)} {id : ℕ}

/-- A request leaves the used ring, and its buffer is given back. -/
theorem Served.complete (h : s.Served l) (hc : s.Chains)
    (hpt : s.point t = .intrDone id) {u : T}
    (hu : (s.point u).sent = some (c, x)) (hx : x.head = id) :
    (({ s with
      disk := Function.update s.disk c.b false
      usedIdx := s.usedIdx + 1 }.wakeup (.buf c.b)).setPoint t
        .intrTest).Served (.complete c.b :: l) := by
  have hid := h.atPoint t
  rw [hpt] at hid
  have hid : s.pendingUsed.head? = some id := hid
  have hne : s.usedIdx ≠ s.used.idx := by
    rw [← pendingUsed_ne_nil_iff]
    intro hnil
    rw [hnil] at hid
    cases hid
  have hcons := pendingUsed_cons hne
  set s' := ({ s with
    disk := Function.update s.disk c.b false
    usedIdx := s.usedIdx + 1 }.wakeup (.buf c.b)).setPoint t .intrTest with hs'
  have hused : s.pendingUsed = id :: s'.pendingUsed := by
    rw [hcons] at hid
    cases hid
    exact hcons
  have hperm : s.hands.Perm (id :: s'.hands) := by
    rw [hands, performed, hused, ← List.append_assoc]
    refine List.perm_middle.trans ?_
    rw [List.append_assoc]
    exact .refl _
  have hnodup := h.nodup
  rw [hperm.nodup_iff, List.nodup_cons] at hnodup
  have hsent : ∀ v, (s'.point v).sent = (s.point v).sent := by
    intro v
    show (Function.update s.point t .intrTest v).sent = _
    rw [sent_update]
    split
    · rename_i hv
      rw [hv, hpt]
      rfl
    · rfl
  have hid_mem : id ∈ s.performed :=
    List.mem_append_right _ (List.mem_of_mem_head? hid)
  have hlast := h.finished u c x hu (hx ▸ hid_mem)
  -- a request that is still under way is about another buffer
  have hother : ∀ {v c' x'}, (s.point v).sent = some (c', x') →
      x'.head ≠ id → c.b ≠ c'.b := by
    intro v c' x' hv hx' hb
    have hvu := hc.sent_of_buf hu hv hb.symm
    rw [hvu, hu] at hv
    cases hv
    exact hx' hx
  have hdisk : ∀ {v c' x'}, (s.point v).sent = some (c', x') →
      x'.head ≠ id → s'.disk c'.b = s.disk c'.b :=
    fun hv hx' => Function.update_of_ne (Ne.symm (hother hv hx')) ..
  have hoff : s'.disk c.b = false := Function.update_self ..
  have hmem : ∀ i, i ∈ s'.hands → i ≠ id := by
    rintro i hi rfl
    exact hnodup.1 hi
  have hold : ∀ {i}, i ∈ s'.performed → i ∈ s.performed := by
    intro i hi
    rw [performed, hused]
    rcases List.mem_append.mp hi with hi | hi
    · exact List.mem_append_left _ hi
    · exact List.mem_append_right _ (List.mem_cons_of_mem _ hi)
  have hevent : ∀ {b}, c.b ≠ b →
      lastAbout b (.complete c.b :: l) = lastAbout b l :=
    fun hb => lastAbout_cons_of_ne hb
  constructor
  · exact hnodup.2
  · intro i
    constructor
    · intro hi
      obtain ⟨v, c', x', hv, hx', hon⟩ := (h.mem_hands i).mp
        (hperm.mem_iff.mpr (List.mem_cons_of_mem _ hi))
      refine ⟨v, c', x', (hsent v).trans hv, hx', ?_⟩
      rw [hdisk hv (hx' ▸ hmem i hi)]
      exact hon
    · rintro ⟨v, c', x', hv, rfl, hon⟩
      rw [hsent] at hv
      have hne : x'.head ≠ id := by
        intro heq
        have hvu := hc.sent_of_head hu hv (heq.trans hx.symm)
        rw [hvu, hu] at hv
        cases hv
        rw [hoff] at hon
        cases hon
      rw [hdisk hv hne] at hon
      have hi := (h.mem_hands x'.head).mpr ⟨v, c', x', hv, rfl, hon⟩
      exact (List.mem_cons.mp (hperm.mem_iff.mp hi)).resolve_left hne
  · refine (Function.forall_update_iff s.point fun _ q =>
      ∀ c', q.marked = some c' → s'.disk c'.b = true).mpr ⟨?_, ?_⟩
    · intro c' hc'
      cases hc'
    · intro v hv c' hc'
      -- a thread that has marked a buffer and not sent it has the lock
      refine absurd (held_unique hc.lock (Point.holding_marked hc') ?_) hv
      rw [hpt]
      rfl
  · exact fun i hi => h.status i (hold hi)
  · exact h.posted
  · refine (Function.forall_update_iff s.point fun _ q => s'.AtPoint q).mpr
      ⟨trivial, fun v hv => hc.others_atPoint ?_ hv⟩
    rw [hpt]
    rfl
  · intro v c' x' hv hi
    rw [hsent] at hv
    have hne := hmem _ (List.mem_append_left _ hi)
    rw [hevent (hother hv hne)]
    exact h.submitted v c' x' hv hi
  · intro v c' x' hv hi
    rw [hsent] at hv
    have hne := hmem _ (List.mem_append_right _ hi)
    rw [hevent (hother hv hne)]
    exact h.finished v c' x' hv (hold hi)
  · intro b hall
    by_cases hb : c.b = b
    · right
      rw [← hb]
      exact lastAbout_cons_self rfl
    · rw [hevent hb]
      refine h.quiet b fun v c' x' hv hb' => ?_
      have hoff' := hall v c' x' ((hsent v).trans hv) hb'
      rw [← hoff']
      exact (Function.update_of_ne (Ne.symm hb) ..).symm
  · show Orderly (.complete c.transfer.b :: l)
    exact .complete h.orderly hlast

/-! ## The steps of a thread -/

/-- What a step adds to the history. -/
def emits (s : State T B) : Op T B → List (Event B)
  | .run t =>
      match s.point t with
      | .busy c _ .publish => [.submit c.transfer]
      | .intrDone id => (s.info id).b.toList.map .complete
      | _ => []
  | .perform h => (s.request h).toList.map fun r => .finish r.1
  | _ => []

/-- The entry that the driver stores is behind those that the device has not
read. -/
theorem Served.pendingAvail_ring (h : s.Served l) (hc : s.Chains)
    (hpt : s.point t = .busy c x .ring) (hwork : s.work t c x .ring = .ok s') :
    s'.pendingAvail = s.pendingAvail := by
  cases hwork
  have hmem : x.head ∈ (s.point t).own := by
    rw [hpt]
    simp [Point.own, Chain.toList]
  have hroom := h.room hc (hc.slots.lt hmem)
    (h.not_mem hc hmem (by rw [hpt]; rfl))
  rw [length_hands, ← span_avail] at hroom
  show (window (2 ^ 16) (Function.update s.avail.ring _ _) s.dev.seen.toNat
    s.avail.idx.toNat).map UInt16.toNat = _
  rw [window_update (by decide) s.dev.seen.toNat_lt (by omega)]
  rfl

theorem Served.ring (h : s.Served l) (hc : s.Chains)
    (hpt : s.point t = .busy c x .ring) (hwork : s.work t c x .ring = .ok s') :
    s'.Served l := by
  have hring := h.pendingAvail_ring hc hpt hwork
  have hlt : x.head < NUM := by
    refine hc.slots.lt (u := t) ?_
    rw [hpt]
    simp [Point.own, Chain.toList]
  cases hwork
  refine h.keep (t := t) rfl rfl hring rfl rfl rfl (fun _ _ => rfl) ?_ ?_ ?_
    fun u hu => hc.others_atPoint ?_ hu
  · rw [hpt]
    rfl
  · intro c' hc'
    rw [hpt]
    exact hc'
  · show (Function.update s.avail.ring (Fin.ofNat NUM s.avail.idx.toNat)
      x.head.toUInt16 (Fin.ofNat NUM s.avail.idx.toNat)).toNat = x.head
    rw [Function.update_self]
    exact toNat_next hlt
  · rw [hpt]
    rfl

theorem Served.acquire (h : s.Served l) (hacq : s.acquire t p = .ok s')
    (hsent : p.sent = (s.point t).sent) (hmarked : p.marked = none)
    (hat : s.AtPoint p) : s'.Served l := by
  unfold State.acquire at hacq
  split at hacq
  · cases hacq
    refine h.goto rfl rfl rfl rfl rfl rfl (fun _ _ => rfl) hsent ?_ hat
    rw [hmarked]
    exact fun c hc => absurd hc (Option.some_ne_none c).symm
  · cases hacq

theorem Served.wake (h : s.Served l) (hwake : s.wake t p = .ok s')
    (hsent : p.sent = (s.point t).sent) (hmarked : p.marked = none)
    (hat : s.AtPoint p) : s'.Served l := by
  unfold State.wake at hwake
  split at hwake
  · cases hwake
  · exact h.acquire hwake hsent hmarked hat

theorem Served.work (h : s.Served l) (hc : s.Chains) {st : Stage}
    (hpt : s.point t = .busy c x st) (hwork : s.work t c x st = .ok s') :
    s'.Served (s.emits (.run t) ++ l) := by
  have hemits : st ≠ .publish → s.emits (.run t) ++ l = l := by
    intro hst
    simp only [emits, hpt]
    cases st <;> first | rfl | exact absurd rfl hst
  -- entries of the info table change for descriptors that are not sent
  have hstatus : ∀ {f : Info B}, (s.point t).sent = none → ∀ i ∈ s.performed,
      (Function.update s.info x.head f i).status = (s.info i).status := by
    intro f hsent i hi
    rw [Function.update_of_ne]
    rintro rfl
    refine h.not_mem hc (t := t) ?_ hsent (List.mem_append_right _ hi)
    rw [hpt]
    simp [Point.own, Chain.toList]
  cases st with
  | publish =>
    have hemits : s.emits (.run t) = [.submit c.transfer] := by
      simp only [emits, hpt]
    rw [hemits]
    exact h.publish hc hpt hwork
  | record =>
    rw [hemits (by decide)]
    exact h.record hc hpt hwork
  | ring =>
    rw [hemits (by decide)]
    exact h.ring hc hpt hwork
  | wait =>
    rw [hemits (by decide)]
    simp only [State.work] at hwork
    split at hwork
    · cases hwork
      refine h.goto rfl rfl rfl rfl rfl rfl (fun _ _ => rfl) ?_ ?_ trivial
      · rw [hpt]
        rfl
      · intro c' hc'
        cases hc'
    · rename_i hoff
      cases hwork
      exact h.awake hpt (by simpa using hoff)
  | sleep =>
    rw [hemits (by decide)]
    refine h.wake hwork ?_ rfl trivial
    rw [hpt]
    rfl
  | header | head | data | notify =>
    rw [hemits (by decide)]
    cases hwork
    refine h.goto rfl rfl rfl rfl rfl rfl (fun _ _ => rfl) ?_ ?_ trivial
    · rw [hpt]
      rfl
    · intro c' hc'
      cases hc'
  | status | clear =>
    rw [hemits (by decide)]
    cases hwork
    refine h.goto rfl rfl rfl rfl rfl rfl (hstatus ?_) ?_ ?_ trivial
    · rw [hpt]
      rfl
    · rw [hpt]
      rfl
    · intro c' hc'
      cases hc'

theorem Served.run (h : s.Served l) (hc : s.Chains) (hrun : s.run t = .ok s') :
    s'.Served (s.emits (.run t) ++ l) := by
  have hquiet : ∀ {c : Call B}, (none : Option (Call B)) = some c →
      (s.point t).marked = some c := fun hc => by cases hc
  cases hpt : s.point t with
  | busy c x st =>
    simp only [State.run, hpt] at hrun
    exact h.work hc hpt hrun
  | intrDone id =>
    have hid := h.atPoint t
    rw [hpt] at hid
    obtain ⟨u, c, x, hu, hx, -, hb, -, -⟩ := h.found hc hid
    simp only [State.run, hpt, hb] at hrun
    cases hrun
    simp only [emits, hpt, hb]
    exact h.complete hc hpt hu hx
  | idle =>
    simp only [State.run, hpt] at hrun
    cases hrun
  | panicked p =>
    simp only [State.run, hpt] at hrun
    cases hrun
  | enter c =>
    simp only [State.run, hpt] at hrun
    simp only [emits, hpt]
    refine h.acquire hrun ?_ rfl trivial
    rw [hpt]
    rfl
  | intrEnter =>
    simp only [State.run, hpt] at hrun
    simp only [emits, hpt]
    refine h.acquire hrun ?_ rfl trivial
    rw [hpt]
    rfl
  | starved c =>
    simp only [State.run, hpt] at hrun
    simp only [emits, hpt]
    refine h.wake hrun ?_ rfl trivial
    rw [hpt]
    rfl
  | alloc c idx =>
    simp only [State.run, hpt] at hrun
    simp only [emits, hpt]
    cases halloc : s.allocDesc with
    | none =>
      rw [halloc] at hrun
      cases hrun
      refine h.goto rfl rfl rfl rfl rfl rfl (fun _ _ => rfl) ?_
        (fun _ => hquiet) trivial
      rw [hpt]
      rfl
    | some r =>
      obtain ⟨s₁, i⟩ := r
      rw [halloc] at hrun
      obtain ⟨-, -, rfl⟩ := allocDesc_some halloc
      cases hrun
      refine h.goto rfl rfl rfl rfl rfl rfl (fun _ _ => rfl) ?_ ?_ ?_
      · rw [hpt]
        unfold Point.allocNext
        split <;> rfl
      · unfold Point.allocNext
        split <;> exact fun _ => hquiet
      · unfold Point.allocNext
        split <;> trivial
  | undo c idx =>
    simp only [emits, hpt]
    cases idx with
    | nil =>
      simp only [State.run, hpt] at hrun
      cases hrun
      refine h.goto rfl rfl rfl rfl rfl rfl (fun _ _ => rfl) ?_
        (fun _ => hquiet) trivial
      rw [hpt]
      rfl
    | cons i idx =>
      have hfree := hc.freeDesc_eq (t := t) (i := i)
        (by rw [hpt]; simp [Point.own])
      simp only [State.run, hpt, hfree] at hrun
      cases hrun
      refine h.goto rfl rfl rfl rfl rfl rfl (fun _ _ => rfl) ?_
        (fun _ => hquiet) trivial
      rw [hpt]
      rfl
  | freeing c x i =>
    simp only [emits, hpt]
    rw [run_freeing hpt (hc.freeDesc_eq (hc.freeing_mem hpt))] at hrun
    split at hrun <;> cases hrun
    · refine h.goto rfl rfl rfl rfl rfl rfl (fun _ _ => rfl) ?_
        (fun _ => hquiet) trivial
      rw [hpt]
      rfl
    · refine h.goto rfl rfl rfl rfl rfl rfl (fun _ _ => rfl) ?_
        (fun _ => hquiet) trivial
      rw [hpt]
      rfl
  | leave c | intrLeave =>
    simp only [State.run, hpt] at hrun
    simp only [emits, hpt]
    cases hrun
    refine h.goto rfl rfl rfl rfl rfl rfl (fun _ _ => rfl) ?_
      (fun _ => hquiet) trivial
    rw [hpt]
    rfl
  | intrTest =>
    simp only [State.run, hpt] at hrun
    simp only [emits, hpt]
    split at hrun
    · rename_i hne
      cases hrun
      refine h.goto rfl rfl rfl rfl rfl rfl (fun _ _ => rfl) ?_
        (fun _ => hquiet) (pendingUsed_ne_nil_iff.mpr hne)
      rw [hpt]
      rfl
    · cases hrun
      refine h.goto rfl rfl rfl rfl rfl rfl (fun _ _ => rfl) ?_
        (fun _ => hquiet) trivial
      rw [hpt]
      rfl
  | intrRead =>
    have hne := h.atPoint t
    rw [hpt] at hne
    simp only [State.run, hpt] at hrun
    simp only [emits, hpt]
    cases hrun
    refine h.goto rfl rfl rfl rfl rfl rfl (fun _ _ => rfl) ?_
      (fun _ => hquiet) ?_
    · rw [hpt]
      rfl
    · show s.pendingUsed.head? = _
      rw [pendingUsed_cons (pendingUsed_ne_nil_iff.mp hne)]
      rfl
  | intrStatus id =>
    have hid := h.atPoint t
    rw [hpt] at hid
    obtain ⟨-, -, -, -, -, -, -, hzero, -⟩ := h.found hc hid
    simp only [State.run, hpt, hzero, ne_eq, not_true_eq_false,
      if_false] at hrun
    simp only [emits, hpt]
    cases hrun
    refine h.goto rfl rfl rfl rfl rfl rfl (fun _ _ => rfl) ?_
      (fun _ => hquiet) hid
    rw [hpt]
    rfl

theorem Served.step (h : s.Served l) (hc : s.Chains) {op : Op T B}
    (hstep : s.step op = .ok s') : s'.Served (s.emits op ++ l) := by
  cases op with
  | rw t c =>
    obtain ⟨hidle, rfl⟩ := call_ok hstep
    refine h.goto rfl rfl rfl rfl rfl rfl (fun _ _ => rfl) ?_ ?_ trivial
    · rw [hidle]
      rfl
    · intro c' hc'
      cases hc'
  | intr t =>
    obtain ⟨hidle, rfl⟩ := call_ok hstep
    refine h.goto rfl rfl rfl rfl rfl rfl (fun _ _ => rfl) ?_ ?_ trivial
    · rw [hidle]
      rfl
    · intro c' hc'
      cases hc'
  | run t => exact h.run hc hstep
  | kkill t =>
    cases hstep
    exact h.shift rfl rfl rfl (.refl _) (.refl _) h.posted fun p hp =>
      hp.congr rfl rfl
  | fetch => exact (h.fetch hstep).1
  | perform k =>
    obtain ⟨u, c, x, -, -, hreq, hserved⟩ := h.perform hc hstep
    simp only [emits, hreq]
    exact hserved
  | post k => exact h.post hc hstep
  | advance => exact h.advance hc hstep

omit [DecidableEq T] in
theorem Served.start : (({} : State T B)).Served [] := by
  have hhands : (({} : State T B)).hands = [] := by
    have havail : (({} : State T B)).pendingAvail = [] := by
      rw [pendingAvail]
      exact congrArg _ (window_self (Nat.zero_le _) _)
    have hused : (({} : State T B)).pendingUsed = [] := by
      rw [pendingUsed]
      exact congrArg _ (window_self (Nat.zero_le _) _)
    rw [hands, unperformed, performed, havail, hused]
    rfl
  have hnone : ∀ {i}, i ∉ (({} : State T B)).hands := by
    intro i
    rw [hhands]
    exact List.not_mem_nil
  constructor
  · rw [hhands]
    exact List.nodup_nil
  · intro i
    refine iff_of_false hnone ?_
    rintro ⟨u, c, x, hu, -⟩
    cases hu
  · intro u c hu
    cases hu
  · exact fun i hi => absurd (List.mem_append_right _ hi) hnone
  · intro i hi
    cases hi
  · exact fun u => trivial
  · intro u c x hu
    cases hu
  · intro u c x hu
    cases hu
  · exact fun b _ => Or.inl rfl
  · exact .nil

end State

end Xv6.Virtio
