import Xv6.Framework.Fifo
import Xv6.Virtio.Chains

/-!
# Where the requests are

A request that the driver has published is in the avail ring, with the device
or in the used ring, until `virtio_disk_intr` takes it out. The counters of
the rings may wrap any number of times: the size of the rings divides
`2 ^ 16`, and there are never more requests than descriptors.
-/

namespace Xv6.Virtio

open Framework Framework.Fifo

variable {T B : Type}

/-! ## What happens to a buffer -/

inductive Event (B : Type)
  /-- The driver publishes a request. -/
  | submit (tr : Transfer B)
  /-- The device has performed a request. -/
  | finish (tr : Transfer B)
  /-- `virtio_disk_intr` clears `b->disk`. -/
  | complete (b : B)
deriving DecidableEq

def Event.buf : Event B → B
  | .submit tr | .finish tr => tr.b
  | .complete b => b

/-- The last event about a buffer; the latest event comes first. -/
def lastAbout [DecidableEq B] (b : B) (l : List (Event B)) :
    Option (Event B) :=
  l.find? fun e => decide (e.buf = b)

/-- For every buffer, requests are submitted, then performed by the device as
they were submitted, and then completed, each once. -/
inductive Orderly [DecidableEq B] : List (Event B) → Prop
  | nil : Orderly []
  | submit {tr : Transfer B} {l : List (Event B)} (rest : Orderly l)
      (quiet : lastAbout tr.b l = none ∨
        lastAbout tr.b l = some (.complete tr.b)) : Orderly (.submit tr :: l)
  | finish {tr : Transfer B} {l : List (Event B)} (rest : Orderly l)
      (asked : lastAbout tr.b l = some (.submit tr)) :
      Orderly (.finish tr :: l)
  | complete {tr : Transfer B} {l : List (Event B)} (rest : Orderly l)
      (done : lastAbout tr.b l = some (.finish tr)) :
      Orderly (.complete tr.b :: l)

section Last

variable [DecidableEq B]

theorem lastAbout_cons_self {e : Event B} {l : List (Event B)} {b : B}
    (h : e.buf = b) : lastAbout b (e :: l) = some e := by
  rw [lastAbout, List.find?_cons_of_pos]
  exact decide_eq_true h

theorem lastAbout_cons_of_ne {e : Event B} {l : List (Event B)} {b : B}
    (h : e.buf ≠ b) : lastAbout b (e :: l) = lastAbout b l := by
  rw [lastAbout, List.find?_cons_of_neg]
  · rfl
  · simp [h]

end Last

/-! ## Where a request is -/

/-- The request that a thread has published and waits for. -/
def Point.sent : Point B → Option (Call B × Chain)
  | .busy c x .notify | .busy c x .wait | .busy c x .sleep => some (c, x)
  | _ => none

/-- The thread has set `b->disk` and not published the request yet. -/
def Point.marked : Point B → Option (Call B)
  | .busy c _ .ring | .busy c _ .publish => some c
  | _ => none

variable {p : Point B} {c : Call B}

theorem Point.own_sent {x : Chain} (h : p.sent = some (c, x)) :
    p.own = x.toList ∧ p.buf = some c.b := by
  unfold Point.sent at h
  split at h <;> cases h <;> exact ⟨rfl, rfl⟩

theorem Point.head_sent {x : Chain} (h : p.sent = some (c, x)) :
    x.head ∈ p.own := by
  rw [(Point.own_sent h).1]
  simp [Chain.toList]

theorem Point.holding_marked (h : p.marked = some c) : p.holding = true := by
  unfold Point.marked at h
  split at h <;> first | rfl | cases h

namespace State

/-- The entries of the avail ring that the device has not read. -/
def pendingAvail (s : State T B) : List ℕ :=
  (window (2 ^ 16) s.avail.ring s.dev.seen.toNat s.avail.idx.toNat).map
    UInt16.toNat

/-- The entries of the used ring that the driver has not read. -/
def pendingUsed (s : State T B) : List ℕ :=
  (window (2 ^ 16) s.used.ring s.usedIdx.toNat s.used.idx.toNat).map
    UInt32.toNat

def unperformed (s : State T B) : List ℕ := s.pendingAvail ++ s.dev.todo

def performed (s : State T B) : List ℕ := s.dev.done ++ s.pendingUsed

/-- The heads of all requests under way. -/
def hands (s : State T B) : List ℕ := s.unperformed ++ s.performed

/-- What a thread that holds the lock relies on. -/
def AtPoint (s : State T B) : Point B → Prop
  | .busy _ x .publish =>
      (s.avail.ring (Fin.ofNat NUM s.avail.idx.toNat)).toNat = x.head
  | .intrRead => s.pendingUsed ≠ []
  | .intrStatus id | .intrDone id => s.pendingUsed.head? = some id
  | .panicked _ => False
  | _ => True

/-- Invariant of the requests, with the history `l`. -/
structure Served [DecidableEq B] (s : State T B) (l : List (Event B)) :
    Prop where
  nodup : s.hands.Nodup
  mem_hands : ∀ h, h ∈ s.hands ↔ ∃ u c x, (s.point u).sent = some (c, x) ∧
    x.head = h ∧ s.disk c.b = true
  marked : ∀ u c, (s.point u).marked = some c → s.disk c.b = true
  status : ∀ h ∈ s.performed, (s.info h).status = 0
  posted : ∀ h, s.dev.posted = some h → h ∈ s.dev.done ∧
    (s.used.ring (Fin.ofNat NUM s.used.idx.toNat)).toNat = h
  atPoint : ∀ u, s.AtPoint (s.point u)
  submitted : ∀ u c x, (s.point u).sent = some (c, x) →
    x.head ∈ s.unperformed → lastAbout c.b l = some (.submit c.transfer)
  finished : ∀ u c x, (s.point u).sent = some (c, x) →
    x.head ∈ s.performed → lastAbout c.b l = some (.finish c.transfer)
  quiet : ∀ b, (∀ u c x, (s.point u).sent = some (c, x) → c.b = b →
    s.disk b = false) → lastAbout b l = none ∨
      lastAbout b l = some (.complete b)
  orderly : Orderly l

variable {s s' : State T B} {t : T} {p : Point B} {c : Call B} {x : Chain}

/-! ## Consequences of the two invariants -/

variable {u : T}

section Facts

theorem length_hands (s : State T B) : s.hands.length =
    s.pendingAvail.length + s.dev.todo.length + s.dev.done.length +
      s.pendingUsed.length := by
  simp only [hands, unperformed, performed, List.length_append]
  omega

theorem span_avail (s : State T B) :
    span (2 ^ 16) s.dev.seen.toNat s.avail.idx.toNat =
      s.pendingAvail.length := by
  rw [pendingAvail, List.length_map, length_window]

theorem span_used (s : State T B) :
    span (2 ^ 16) s.usedIdx.toNat s.used.idx.toNat = s.pendingUsed.length := by
  rw [pendingUsed, List.length_map, length_window]

theorem Chains.sent_lt (hc : s.Chains) (h : (s.point t).sent = some (c, x)) :
    x.head < NUM :=
  hc.slots.lt (Point.head_sent h)

theorem Chains.sent_written (hc : s.Chains)
    (h : (s.point t).sent = some (c, x)) : s.Written c x 5 := by
  have hshaped := hc.shaped t
  unfold Point.sent at h
  split at h
  · rename_i hpt
    cases h
    rwa [hpt] at hshaped
  · rename_i hpt
    cases h
    rwa [hpt] at hshaped
  · rename_i hpt
    cases h
    rwa [hpt] at hshaped
  · cases h

theorem Chains.sent_of_buf (hc : s.Chains) {c' : Call B} {x' : Chain}
    (h : (s.point t).sent = some (c, x)) (h' : (s.point u).sent = some (c', x'))
    (hb : c'.b = c.b) : u = t :=
  hc.bufs u t c.b (by rw [(Point.own_sent h').2, hb]) (Point.own_sent h).2

theorem Chains.sent_of_head (hc : s.Chains) {c' : Call B} {x' : Chain}
    (h : (s.point t).sent = some (c, x)) (h' : (s.point u).sent = some (c', x'))
    (hx : x'.head = x.head) : u = t :=
  hc.slots.unique (hx ▸ Point.head_sent h') (Point.head_sent h)

variable [DecidableEq B] {l : List (Event B)}

theorem Served.lt (h : s.Served l) (hc : s.Chains) {i : ℕ} (hi : i ∈ s.hands) :
    i < NUM := by
  obtain ⟨u, c, x, hu, rfl, -⟩ := (h.mem_hands i).mp hi
  exact hc.sent_lt hu

/-- A descriptor of a thread that has not sent its request is no head of a
request under way. -/
theorem Served.not_mem (h : s.Served l) (hc : s.Chains) {i : ℕ}
    (hi : i ∈ (s.point t).own) (hsent : (s.point t).sent = none) :
    i ∉ s.hands := by
  intro hmem
  obtain ⟨u, c, x, hu, rfl, -⟩ := (h.mem_hands i).mp hmem
  have hut := hc.slots.unique (Point.head_sent hu) hi
  rw [hut, hsent] at hu
  cases hu

/-- The rings have room. -/
theorem Served.room (h : s.Served l) (hc : s.Chains) {i : ℕ} (hlt : i < NUM)
    (hi : i ∉ s.hands) : s.hands.length < NUM :=
  length_lt_of_nodup h.nodup (fun _ hj => h.lt hc hj) hlt hi

end Facts

/-! ## Steps that leave the requests where they are -/

theorem AtPoint.congr (h : s.AtPoint p) (havail : s'.avail = s.avail)
    (hused : s'.pendingUsed = s.pendingUsed) : s'.AtPoint p := by
  unfold AtPoint at h ⊢
  rw [havail, hused]
  exact h

/-- A thread without the lock relies on nothing. -/
theorem AtPoint.of_not_holding (h : p.holding = false) : s.AtPoint p := by
  unfold Point.holding at h
  split at h <;> trivial

/-- While one thread holds the lock, the others rely on nothing. -/
theorem Chains.others_atPoint (hc : s.Chains)
    (hold : (s.point t).holding = true) (hu : u ≠ t) :
    s'.AtPoint (s.point u) := by
  apply AtPoint.of_not_holding
  by_contra hheld
  exact hu (held_unique hc.lock (by simpa using hheld) hold)

variable [DecidableEq T] [DecidableEq B] {l : List (Event B)}

/-- A thread moves, and the requests stay where they are. -/
theorem Served.keep (h : s.Served l)
    (hpoint : s'.point = Function.update s.point t p)
    (hdev : s'.dev = s.dev) (havail : s'.pendingAvail = s.pendingAvail)
    (hused : s'.used = s.used) (hpending : s'.pendingUsed = s.pendingUsed)
    (hdisk : s'.disk = s.disk)
    (hstatus : ∀ i ∈ s.performed, (s'.info i).status = (s.info i).status)
    (hsent : p.sent = (s.point t).sent)
    (hmarked : ∀ c, p.marked = some c → (s.point t).marked = some c)
    (hat : s'.AtPoint p)
    (hothers : ∀ u, u ≠ t → s'.AtPoint (s.point u)) : s'.Served l := by
  have hun : s'.unperformed = s.unperformed := by
    rw [unperformed, unperformed, havail, hdev]
  have hper : s'.performed = s.performed := by
    rw [performed, performed, hpending, hdev]
  have hhands : s'.hands = s.hands := by
    rw [hands, hands, hun, hper]
  have hsent' : ∀ u, (s'.point u).sent = (s.point u).sent := by
    intro u
    rw [hpoint]
    by_cases hu : u = t
    · rw [hu, Function.update_self, hsent]
    · rw [Function.update_of_ne hu]
  constructor
  · rw [hhands]
    exact h.nodup
  · simp only [hhands, hsent', hdisk]
    exact h.mem_hands
  · intro u c hu
    rw [hdisk]
    rw [hpoint] at hu
    by_cases hut : u = t
    · rw [hut, Function.update_self] at hu
      exact h.marked t c (hmarked c hu)
    · rw [Function.update_of_ne hut] at hu
      exact h.marked u c hu
  · intro i hi
    rw [hper] at hi
    rw [hstatus i hi]
    exact h.status i hi
  · rw [hdev, hused]
    exact h.posted
  · intro u
    rw [hpoint]
    by_cases hut : u = t
    · rw [hut, Function.update_self]
      exact hat
    · rw [Function.update_of_ne hut]
      exact hothers u hut
  · simp only [hun, hsent']
    exact h.submitted
  · simp only [hper, hsent']
    exact h.finished
  · simp only [hsent', hdisk]
    exact h.quiet
  · exact h.orderly

/-- The same, when the rings are not touched at all. -/
theorem Served.goto (h : s.Served l)
    (hpoint : s'.point = Function.update s.point t p)
    (hdev : s'.dev = s.dev) (havail : s'.avail = s.avail)
    (hused : s'.used = s.used) (hidx : s'.usedIdx = s.usedIdx)
    (hdisk : s'.disk = s.disk)
    (hstatus : ∀ i ∈ s.performed, (s'.info i).status = (s.info i).status)
    (hsent : p.sent = (s.point t).sent)
    (hmarked : ∀ c, p.marked = some c → (s.point t).marked = some c)
    (hat : s.AtPoint p) : s'.Served l := by
  have hpending : s'.pendingUsed = s.pendingUsed := by
    rw [pendingUsed, pendingUsed, hused, hidx]
  refine h.keep hpoint hdev ?_ hused hpending hdisk hstatus hsent hmarked
    (hat.congr havail hpending) fun u _ => (h.atPoint u).congr havail hpending
  rw [pendingAvail, pendingAvail, havail, hdev]

/-! ## The life of a request -/

omit [DecidableEq B] in
theorem sent_update (s : State T B) (t : T) (p : Point B) :
    (Function.update s.point t p u).sent =
      if u = t then p.sent else (s.point u).sent := by
  by_cases hu : u = t
  · rw [hu, Function.update_self, if_pos rfl]
  · rw [Function.update_of_ne hu, if_neg hu]

/-- `b->disk` is set for the buffer of a request that is not sent yet. -/
theorem Served.record (h : s.Served l) (hc : s.Chains)
    (hpt : s.point t = .busy c x .record) (hwork : s.work t c x .record = .ok s') :
    s'.Served l := by
  cases hwork
  have hbuf : (s.point t).buf = some c.b := by
    rw [hpt]
    rfl
  have hnone : (s.point t).sent = none := by
    rw [hpt]
    rfl
  have hsent : ∀ u, (Function.update s.point t (.busy c x .ring) u).sent =
      (s.point u).sent := by
    intro u
    rw [sent_update]
    split
    · rename_i hu
      rw [hu, hnone]
      rfl
    · rfl
  -- the flags of the buffers of other requests are not touched
  have hdisk : ∀ {u c' x'}, (s.point u).sent = some (c', x') →
      Function.update s.disk c.b true c'.b = s.disk c'.b := by
    intro u c' x' hu
    refine Function.update_of_ne (fun heq => ?_) ..
    have hut := hc.bufs u t c.b (by rw [(Point.own_sent hu).2, heq]) hbuf
    rw [hut, hnone] at hu
    cases hu
  constructor
  · exact h.nodup
  · intro i
    refine (h.mem_hands i).trans ⟨?_, ?_⟩
    · rintro ⟨u, c', x', hu, hx, hon⟩
      exact ⟨u, c', x', (hsent u).trans hu, hx, (hdisk hu).trans hon⟩
    · rintro ⟨u, c', x', hu, hx, hon⟩
      have hu' := (hsent u).symm.trans hu
      exact ⟨u, c', x', hu', hx, (hdisk hu').symm.trans hon⟩
  · intro u c' hu
    show Function.update s.disk c.b true c'.b = true
    by_cases hb : c'.b = c.b
    · rw [hb, Function.update_self]
    · rw [Function.update_of_ne hb]
      have hut : u ≠ t := by
        rintro rfl
        have hu : (Function.update s.point u (.busy c x .ring) u).marked =
          some c' := hu
        rw [Function.update_self] at hu
        cases hu
        exact hb rfl
      have hu : (Function.update s.point t (.busy c x .ring) u).marked =
        some c' := hu
      rw [Function.update_of_ne hut] at hu
      exact h.marked u c' hu
  · intro i hi
    show (Function.update s.info x.head _ i).status = 0
    by_cases hix : i = x.head
    · rw [hix, Function.update_self]
      exact h.status x.head (hix ▸ hi)
    · rw [Function.update_of_ne hix]
      exact h.status i hi
  · exact h.posted
  · intro u
    show AtPoint _ (Function.update s.point t (.busy c x .ring) u)
    by_cases hu : u = t
    · rw [hu, Function.update_self]
      trivial
    · rw [Function.update_of_ne hu]
      exact (h.atPoint u).congr rfl rfl
  · intro u c' x' hu
    exact h.submitted u c' x' ((hsent u).symm.trans hu)
  · intro u c' x' hu
    exact h.finished u c' x' ((hsent u).symm.trans hu)
  · intro b hoff
    refine h.quiet b fun u c' x' hu hb => ?_
    have hoff : Function.update s.disk c.b true b = false :=
      hoff u c' x' ((hsent u).trans hu) hb
    rwa [← hb, hdisk hu, hb] at hoff
  · exact h.orderly

/-- The waiting loop ends: the request is done. -/
theorem Served.awake (h : s.Served l) (hpt : s.point t = .busy c x .wait)
    (hoff : s.disk c.b = false) :
    (s.setPoint t (.busy c x .clear)).Served l := by
  have hsent : ∀ {u c' x'},
      (Function.update s.point t (.busy c x .clear) u).sent = some (c', x') →
      (s.point u).sent = some (c', x') := by
    intro u c' x' hu
    rw [sent_update] at hu
    split at hu
    · cases hu
    · exact hu
  constructor
  · exact h.nodup
  · intro i
    refine (h.mem_hands i).trans ⟨?_, ?_⟩
    · rintro ⟨u, c', x', hu, hx, hon⟩
      refine ⟨u, c', x', ?_, hx, hon⟩
      show (Function.update s.point t (.busy c x .clear) u).sent = _
      rw [sent_update, if_neg]
      · exact hu
      · rintro rfl
        rw [hpt] at hu
        cases hu
        rw [hoff] at hon
        cases hon
    · rintro ⟨u, c', x', hu, hx, hon⟩
      exact ⟨u, c', x', hsent hu, hx, hon⟩
  · intro u c' hu
    have hu : (Function.update s.point t (.busy c x .clear) u).marked =
      some c' := hu
    by_cases hut : u = t
    · rw [hut, Function.update_self] at hu
      cases hu
    · rw [Function.update_of_ne hut] at hu
      exact h.marked u c' hu
  · exact h.status
  · exact h.posted
  · intro u
    show AtPoint _ (Function.update s.point t (.busy c x .clear) u)
    by_cases hu : u = t
    · rw [hu, Function.update_self]
      trivial
    · rw [Function.update_of_ne hu]
      exact (h.atPoint u).congr rfl rfl
  · intro u c' x' hu
    exact h.submitted u c' x' (hsent hu)
  · intro u c' x' hu
    exact h.finished u c' x' (hsent hu)
  · intro b hall
    refine h.quiet b fun u c' x' hu hb => ?_
    by_cases hut : u = t
    · rw [hut, hpt] at hu
      cases hu
      rw [← hb, hoff]
    · refine hall u c' x' ?_ hb
      show (Function.update s.point t (.busy c x .clear) u).sent = _
      rw [sent_update, if_neg hut, hu]
  · exact h.orderly

/-- What a lock holder sees of the avail ring when it publishes. -/
theorem Served.pendingAvail_publish (h : s.Served l) (hc : s.Chains)
    (hpt : s.point t = .busy c x .publish) (hwork : s.work t c x .publish = .ok s') :
    s'.pendingAvail = s.pendingAvail ++ [x.head] := by
  cases hwork
  have hcell := h.atPoint t
  rw [hpt] at hcell
  have hmem : x.head ∈ (s.point t).own := by
    rw [hpt]
    simp [Point.own, Chain.toList]
  have hroom := h.room hc (hc.slots.lt hmem) (h.not_mem hc hmem (by rw [hpt]; rfl))
  rw [length_hands, ← span_avail] at hroom
  have hadd : (s.avail.idx + 1).toNat = (s.avail.idx.toNat + 1) % 2 ^ 16 :=
    UInt16.toNat_add ..
  show (window (2 ^ 16) s.avail.ring s.dev.seen.toNat
    (s.avail.idx + 1).toNat).map UInt16.toNat = _
  unfold NUM at hroom
  rw [hadd, window_succ_right (by decide) s.dev.seen.toNat_lt (by omega),
    List.map_append, List.map_singleton, hcell]
  rfl

/-- The request of `t` is put into the avail ring. -/
theorem Served.publish (h : s.Served l) (hc : s.Chains)
    (hpt : s.point t = .busy c x .publish)
    (hwork : s.work t c x .publish = .ok s') :
    s'.Served (.submit c.transfer :: l) := by
  have hring := h.pendingAvail_publish hc hpt hwork
  have hnone : (s.point t).sent = none := by
    rw [hpt]
    rfl
  have hon : s.disk c.b = true := h.marked t c (by rw [hpt]; rfl)
  have hmem : x.head ∈ (s.point t).own := by
    rw [hpt]
    simp [Point.own, Chain.toList]
  have hnew := h.not_mem hc hmem hnone
  cases hwork
  set s' := ({ s with avail := { s.avail with
    idx := s.avail.idx + 1 } } : State T B).setPoint t (.busy c x .notify)
    with hs'
  have hsent : ∀ u, (s'.point u).sent =
      if u = t then some (c, x) else (s.point u).sent :=
    fun u => sent_update s t (.busy c x .notify)
  have hperm : s'.hands.Perm (x.head :: s.hands) := by
    rw [hands, unperformed, hring]
    show (s.pendingAvail ++ [x.head] ++ s.dev.todo ++ s.performed).Perm _
    rw [List.append_assoc, List.append_assoc, List.singleton_append]
    refine List.perm_middle.trans ?_
    rw [hands, unperformed, List.append_assoc]
  have hbuf : (s.point t).buf = some c.b := by
    rw [hpt]
    rfl
  -- the requests of the other threads are about other buffers
  have hne : ∀ {u c' x'}, (s.point u).sent = some (c', x') → c.b ≠ c'.b := by
    intro u c' x' hu heq
    have hut := hc.bufs u t c.b (by rw [(Point.own_sent hu).2, heq]) hbuf
    rw [hut, hnone] at hu
    cases hu
  have hlast : ∀ {b}, c.b ≠ b →
      lastAbout b (.submit c.transfer :: l) = lastAbout b l :=
    fun hb => lastAbout_cons_of_ne hb
  have hold : ∀ {u c' x'}, (s.point u).sent = some (c', x') →
      (s'.point u).sent = some (c', x') := by
    intro u c' x' hu
    rw [hsent, if_neg]
    · exact hu
    · rintro rfl
      rw [hnone] at hu
      cases hu
  have hun : ∀ i, i ∈ s'.unperformed ↔ i = x.head ∨ i ∈ s.unperformed := by
    intro i
    rw [unperformed, hring]
    show i ∈ s.pendingAvail ++ [x.head] ++ s.dev.todo ↔ _
    simp only [unperformed, List.mem_append, List.mem_singleton]
    tauto
  constructor
  · rw [hperm.nodup_iff, List.nodup_cons]
    exact ⟨hnew, h.nodup⟩
  · intro i
    rw [hperm.mem_iff, List.mem_cons, h.mem_hands i]
    constructor
    · rintro (rfl | ⟨u, c', x', hu, hx, hon'⟩)
      · exact ⟨t, c, x, by rw [hsent, if_pos rfl], rfl, hon⟩
      · exact ⟨u, c', x', hold hu, hx, hon'⟩
    · rintro ⟨u, c', x', hu, hx, hon'⟩
      rw [hsent] at hu
      split at hu
      · cases hu
        exact Or.inl hx.symm
      · exact Or.inr ⟨u, c', x', hu, hx, hon'⟩
  · refine (Function.forall_update_iff s.point fun _ q =>
      ∀ c', q.marked = some c' → s.disk c'.b = true).mpr ⟨?_, fun u _ =>
        h.marked u⟩
    intro c' hc'
    cases hc'
  · exact h.status
  · exact h.posted
  · refine (Function.forall_update_iff s.point fun _ q => s'.AtPoint q).mpr
      ⟨trivial, fun u hu => hc.others_atPoint ?_ hu⟩
    rw [hpt]
    rfl
  · intro u c' x' hu hx
    rw [hsent] at hu
    split at hu
    · cases hu
      exact lastAbout_cons_self rfl
    · rename_i hut
      rw [hlast (hne hu)]
      refine h.submitted u c' x' hu (((hun x'.head).mp hx).resolve_left ?_)
      intro heq
      exact hut (hc.slots.unique (heq ▸ Point.head_sent hu) hmem)
  · intro u c' x' hu hx
    rw [hsent] at hu
    split at hu
    · cases hu
      exact absurd (List.mem_append_right _ hx) hnew
    · rw [hlast (hne hu)]
      exact h.finished u c' x' hu hx
  · intro b hoff
    have hb : c.b ≠ b := by
      rintro rfl
      have hoff : s.disk c.b = false :=
        hoff t c x (by rw [hsent, if_pos rfl]) rfl
      rw [hon] at hoff
      cases hoff
    rw [hlast hb]
    exact h.quiet b fun u c' x' hu => hoff u c' x' (hold hu)
  · refine .submit h.orderly (h.quiet c.b fun u c' x' hu hb => ?_)
    exact absurd hb.symm (hne hu)

end State

end Xv6.Virtio
