import Xv6.Framework.Locks
import Xv6.Framework.Slots
import Xv6.Virtio.Disk

/-!
# Who has which descriptors

Every descriptor is free or belongs to one call. A call writes only to the
entries of the tables that belong to its own descriptors, so what it has
formatted stays until it frees it, and `free_chain` finds the chain as it was
built. Nothing here depends on what the device does.
-/

namespace Xv6.Virtio

open Framework

variable {T B : Type}

namespace Chain

def toList (x : Chain) : List ℕ := [x.head, x.data, x.status]

end Chain

/-- How much of the request has been written. -/
def Stage.rank : Stage → ℕ
  | .header => 0
  | .head => 1
  | .data => 2
  | .status => 3
  | .record => 4
  | _ => 5

/-- The descriptors of a thread. -/
def Point.own : Point B → List ℕ
  | .alloc _ idx | .undo _ idx => idx
  | .busy _ x _ => x.toList
  | .freeing _ x i =>
      if i = x.head then x.toList
      else if i = x.data then [x.data, x.status]
      else if i = x.status then [x.status]
      else []
  | _ => []

theorem Point.own_allocNext (c : Call B) (i : ℕ) (idx : List ℕ) :
    (Point.allocNext c i idx).own = idx ++ [i] := by
  unfold Point.allocNext
  split <;> rfl

theorem Point.buf_allocNext (c : Call B) (i : ℕ) (idx : List ℕ) :
    (Point.allocNext c i idx).buf = some c.b := by
  unfold Point.allocNext
  split <;> rfl

theorem Point.holding_allocNext (c : Call B) (i : ℕ) (idx : List ℕ) :
    (Point.allocNext c i idx).holding = true := by
  unfold Point.allocNext
  split <;> rfl

namespace State

/-- The first `n` pieces of a request are written. -/
structure Written (s : State T B) (c : Call B) (x : Chain) (n : ℕ) :
    Prop where
  header : 1 ≤ n → s.ops x.head = c.header
  head : 2 ≤ n → s.desc x.head = x.headDesc
  data : 3 ≤ n → s.desc x.data = c.dataDesc x
  status : 4 ≤ n → s.desc x.status = x.statusDesc
  buf : 5 ≤ n → (s.info x.head).b = some c.b

/-- What is left of the chain when `free_chain` is at descriptor `i`. -/
inductive Linked (s : State T B) (c : Call B) (x : Chain) : ℕ → Prop
  | head (head : s.desc x.head = x.headDesc) (data : s.desc x.data = c.dataDesc x)
      (status : s.desc x.status = x.statusDesc) : Linked s c x x.head
  | data (data : s.desc x.data = c.dataDesc x)
      (status : s.desc x.status = x.statusDesc) : Linked s c x x.data
  | status (status : s.desc x.status = x.statusDesc) : Linked s c x x.status

/-- The tables are as far filled in as the thread is, and the checks of
`free_desc` have not stopped it. -/
def Shaped (s : State T B) : Point B → Prop
  | .busy c x st => s.Written c x st.rank
  | .freeing c x i => x.toList.Nodup ∧ s.Linked c x i
  | .panicked p => p ≠ .freeDesc1 ∧ p ≠ .freeDesc2
  | _ => True

/-- The entries with index `i` are the same, the status apart. -/
structure SameAt (s s' : State T B) (i : ℕ) : Prop where
  desc : s'.desc i = s.desc i
  ops : s'.ops i = s.ops i
  buf : (s'.info i).b = (s.info i).b

/-- Invariant of the descriptors. -/
structure Chains (s : State T B) : Prop where
  lock : ∀ u, s.lock = some u ↔ (s.point u).holding = true
  slots : Slots NUM s.free fun u => (s.point u).own
  bufs : ∀ u v b, (s.point u).buf = some b → (s.point v).buf = some b → u = v
  shaped : ∀ u, s.Shaped (s.point u)

variable {s s' : State T B} {c : Call B} {x : Chain}

theorem Written.congr {n : ℕ} (h : s.Written c x n)
    (hsame : ∀ i ∈ x.toList, SameAt s s' i) : s'.Written c x n := by
  have hhead := hsame x.head (by simp [Chain.toList])
  have hdata := hsame x.data (by simp [Chain.toList])
  have hstatus := hsame x.status (by simp [Chain.toList])
  constructor
  · intro hn
    rw [hhead.ops]
    exact h.header hn
  · intro hn
    rw [hhead.desc]
    exact h.head hn
  · intro hn
    rw [hdata.desc]
    exact h.data hn
  · intro hn
    rw [hstatus.desc]
    exact h.status hn
  · intro hn
    rw [hhead.buf]
    exact h.buf hn

/-- Whether a point fits depends on the entries of the thread's own
descriptors. -/
theorem Shaped.congr {p : Point B} (h : s.Shaped p)
    (hsame : ∀ i ∈ p.own, SameAt s s' i) : s'.Shaped p := by
  cases p with
  | busy c x st => exact Written.congr h hsame
  | freeing c x i =>
    have hdesc : ∀ j ∈ (Point.freeing c x i).own, s'.desc j = s.desc j :=
      fun j hj => (hsame j hj).desc
    refine ⟨h.1, ?_⟩
    cases h.2 with
    | head hhead hdata hstatus =>
      simp only [Point.own, if_true, Chain.toList, List.mem_cons,
        List.not_mem_nil, or_false] at hdesc
      refine .head ?_ ?_ ?_
      · rw [hdesc _ (Or.inl rfl), hhead]
      · rw [hdesc _ (Or.inr (Or.inl rfl)), hdata]
      · rw [hdesc _ (Or.inr (Or.inr rfl)), hstatus]
    | data hdata hstatus =>
      refine .data ?_ ?_
      · rw [hdesc, hdata]
        simp only [Point.own]
        split_ifs <;> simp [Chain.toList]
      · rw [hdesc, hstatus]
        simp only [Point.own]
        split_ifs <;> simp [Chain.toList]
    | status hstatus =>
      refine .status ?_
      rw [hdesc, hstatus]
      simp only [Point.own]
      split_ifs <;> simp [Chain.toList]
  | panicked p => exact h
  | idle | enter c | alloc c idx | undo c idx | starved c | leave c
  | intrEnter | intrTest | intrRead | intrStatus id | intrDone id
  | intrLeave => trivial

variable {s₁ : State T B} {st : Stage}

section Plain

variable {t : T} {i : ℕ}

/-- Descriptor numbers fit into the `next` field. -/
theorem toNat_next (hi : i < NUM) : i.toUInt16.toNat = i := by
  unfold NUM at hi
  show i % 2 ^ 16 = i
  omega

theorem dataDesc_flags (c : Call B) (x : Chain) :
    (c.dataDesc x).flags &&& VRING_DESC_F_NEXT ≠ 0 := by
  simp only [Call.dataDesc]
  cases c.write <;> decide

theorem Chains.asleep (h : s.Chains) (f : T → Bool) :
    { s with asleep := f }.Chains :=
  ⟨h.lock, h.slots, h.bufs, fun u =>
    (h.shaped u).congr fun _ _ => ⟨rfl, rfl, rfl⟩⟩

theorem allocDesc_some (h : s.allocDesc = some (s₁, i)) :
    i < NUM ∧ s.free i = true ∧
      s₁ = { s with free := Function.update s.free i false } := by
  unfold allocDesc at h
  obtain ⟨j, hj, heq⟩ := Option.map_eq_some_iff.mp h
  cases heq
  exact ⟨List.mem_range.mp (List.mem_of_find?_eq_some hj),
    List.find?_some hj, rfl⟩

/-- The three descriptors of a call are different. -/
theorem Chains.chain_ne (h : s.Chains) (hpt : s.point t = .busy c x st) :
    x.head ≠ x.data ∧ x.head ≠ x.status ∧ x.data ≠ x.status := by
  have hnodup := h.slots.nodup t
  rw [hpt] at hnodup
  simpa [Point.own, Chain.toList, and_assoc] using hnodup

theorem Chains.written (h : s.Chains) (hpt : s.point t = .busy c x st) :
    s.Written c x st.rank := by
  have hshaped := h.shaped t
  rwa [hpt] at hshaped

/-- The threads stay where they are, and the tables are the same but for
status bytes. -/
theorem Chains.device (h : s.Chains) (hpoint : s'.point = s.point)
    (hlock : s'.lock = s.lock) (hfree : s'.free = s.free)
    (hsame : ∀ i, SameAt s s' i) : s'.Chains := by
  refine ⟨?_, ?_, ?_, ?_⟩
  · rw [hpoint, hlock]
    exact h.lock
  · rw [hpoint, hfree]
    exact h.slots
  · rw [hpoint]
    exact h.bufs
  · rw [hpoint]
    exact fun u => (h.shaped u).congr fun i _ => hsame i

theorem Chains.perform (h : s.Chains) {k : ℕ} (hstep : s.perform k = .ok s') :
    s'.Chains := by
  unfold State.perform at hstep
  split at hstep
  · split at hstep
    · cases hstep
    · rename_i j _
      cases hstep
      refine h.device rfl rfl rfl fun i => ⟨rfl, rfl, ?_⟩
      show (Function.update s.info j _ i).b = _
      by_cases hij : i = j
      · rw [hij, Function.update_self]
      · rw [Function.update_of_ne hij]
  · cases hstep

theorem Chains.start : (({} : State T B)).Chains where
  lock u := by simp [Point.holding]
  slots := Slots.empty
  bufs u v b hu := by cases hu
  shaped u := trivial

/-- `free_chain` is at a descriptor of the call. -/
theorem Chains.freeing_mem (h : s.Chains)
    (hpt : s.point t = .freeing c x i) : i ∈ (s.point t).own := by
  have hlinked := h.shaped t
  rw [hpt] at hlinked ⊢
  simp only [Point.own]
  cases hlinked.2 with
  | head => simp [Chain.toList]
  | data =>
    rw [if_pos (rfl : x.data = x.data)]
    split_ifs <;> simp [Chain.toList]
  | status =>
    rw [if_pos (rfl : x.status = x.status)]
    split_ifs <;> simp [Chain.toList]

end Plain

/-! ## One thread moves -/

section Move

variable [DecidableEq T] {t : T} {p : Point B}

theorem own_update (s : State T B) (t : T) (p : Point B) :
    (fun u => (Function.update s.point t p u).own) =
      Function.update (fun u => (s.point u).own) t p.own := by
  funext u
  by_cases hu : u = t
  · subst hu
    simp
  · simp [hu]

/-- A thread goes to point `p` and writes only to entries of its own. -/
theorem Chains.move (h : s.Chains)
    (hpoint : s'.point = Function.update s.point t p)
    (hlock : ∀ u, s'.lock = some u ↔ (s'.point u).holding = true)
    (hslots : Slots NUM s'.free
      (Function.update (fun u => (s.point u).own) t p.own))
    (hbuf : p.buf = none ∨ p.buf = (s.point t).buf)
    (hsame : ∀ i, i ∉ (s.point t).own → SameAt s s' i)
    (hshaped : s'.Shaped p) : s'.Chains := by
  have hbuf' : ∀ u b, (s'.point u).buf = some b → (s.point u).buf = some b := by
    intro u b hu
    rw [hpoint] at hu
    by_cases hut : u = t
    · subst hut
      rw [Function.update_self] at hu
      rcases hbuf with hnone | heq
      · rw [hnone] at hu
        cases hu
      · rwa [← heq]
    · rwa [Function.update_of_ne hut] at hu
  refine ⟨hlock, ?_, ?_, ?_⟩
  · rw [hpoint, own_update]
    exact hslots
  · intro u v b hu hv
    exact h.bufs u v b (hbuf' u b hu) (hbuf' v b hv)
  · intro u
    rw [hpoint]
    by_cases hut : u = t
    · subst hut
      rw [Function.update_self]
      exact hshaped
    · rw [Function.update_of_ne hut]
      refine (h.shaped u).congr fun i hi => hsame i fun hit => hut ?_
      exact h.slots.unique hi hit

theorem Chains.slots_same (h : s.Chains) (hown : p.own = (s.point t).own) :
    Slots NUM s.free (Function.update (fun u => (s.point u).own) t p.own) := by
  rw [hown, Function.update_eq_self]
  exact h.slots

theorem Chains.goto (h : s.Chains) (hown : p.own = (s.point t).own)
    (hhold : p.holding = (s.point t).holding)
    (hbuf : p.buf = none ∨ p.buf = (s.point t).buf) (hshaped : s.Shaped p) :
    (s.setPoint t p).Chains :=
  h.move rfl (held_update h.lock hhold) (h.slots_same hown) hbuf
    (fun _ _ => ⟨rfl, rfl, rfl⟩) (hshaped.congr fun _ _ => ⟨rfl, rfl, rfl⟩)

theorem Chains.acquire (h : s.Chains) (hacq : s.acquire t p = .ok s')
    (hown : p.own = (s.point t).own) (hhold : p.holding = true)
    (hbuf : p.buf = none ∨ p.buf = (s.point t).buf) (hshaped : s.Shaped p) :
    s'.Chains := by
  unfold State.acquire at hacq
  split at hacq
  · rename_i hfree
    cases hacq
    exact h.move rfl (held_acquire h.lock hfree hhold) (h.slots_same hown)
      hbuf (fun _ _ => ⟨rfl, rfl, rfl⟩)
      (hshaped.congr fun _ _ => ⟨rfl, rfl, rfl⟩)
  · cases hacq

theorem Chains.wake (h : s.Chains) (hwake : s.wake t p = .ok s')
    (hown : p.own = (s.point t).own) (hhold : p.holding = true)
    (hbuf : p.buf = none ∨ p.buf = (s.point t).buf) (hshaped : s.Shaped p) :
    s'.Chains := by
  unfold State.wake at hwake
  split at hwake
  · cases hwake
  · exact h.acquire hwake hown hhold hbuf hshaped

theorem Chains.release (h : s.Chains) (hold : (s.point t).holding = true)
    (hown : p.own = (s.point t).own) (hhold : p.holding = false)
    (hbuf : p.buf = none ∨ p.buf = (s.point t).buf) (hshaped : s.Shaped p) :
    (s.release t p).Chains :=
  h.move rfl (held_release h.lock hold hhold) (h.slots_same hown) hbuf
    (fun _ _ => ⟨rfl, rfl, rfl⟩) (hshaped.congr fun _ _ => ⟨rfl, rfl, rfl⟩)

theorem Chains.sleep (h : s.Chains) (hold : (s.point t).holding = true)
    (hown : p.own = (s.point t).own) (hhold : p.holding = false)
    (hbuf : p.buf = none ∨ p.buf = (s.point t).buf) (hshaped : s.Shaped p) :
    (s.sleep t p).Chains :=
  (h.release hold hown hhold hbuf hshaped).asleep _

/-- A step that formats a piece of the request of `t`. -/
theorem Chains.format (h : s.Chains) {st' : Stage}
    (hpt : s.point t = .busy c x st)
    (hpoint : s'.point = Function.update s.point t (.busy c x st'))
    (hlock : s'.lock = s.lock) (hfree : s'.free = s.free)
    (hhold : (Point.busy c x st').holding = (Point.busy c x st).holding)
    (hsame : ∀ i, i ∉ x.toList → SameAt s s' i)
    (hwritten : s'.Written c x st'.rank) : s'.Chains := by
  refine h.move hpoint ?_ ?_ (Or.inr ?_) ?_ hwritten
  · rw [hpoint, hlock]
    exact held_update h.lock (by rw [hpt, hhold])
  · rw [hfree]
    refine h.slots_same ?_
    rw [hpt]
    rfl
  · rw [hpt]
    rfl
  · rw [hpt]
    exact hsame

theorem call_ok (hcall : s.call t p = .ok s') :
    s.point t = .idle ∧ s' = s.setPoint t p := by
  unfold call at hcall
  split at hcall
  · rename_i hpt
    exact ⟨hpt, (Except.ok.inj hcall).symm⟩
  · cases hcall

/-- A new call on a buffer that no other call is about. -/
theorem Chains.rw (h : s.Chains) (hidle : s.point t = .idle)
    (hfresh : ∀ u, (s.point u).buf ≠ some c.b) :
    (s.setPoint t (.enter c)).Chains := by
  have hother : ∀ u b, (Function.update s.point t (.enter c) u).buf = some b →
      u = t ∧ b = c.b ∨ u ≠ t ∧ (s.point u).buf = some b := by
    intro u b hu
    by_cases hut : u = t
    · rw [hut, Function.update_self] at hu
      exact Or.inl ⟨hut, (Option.some.inj hu).symm⟩
    · rw [Function.update_of_ne hut] at hu
      exact Or.inr ⟨hut, hu⟩
  refine ⟨held_update h.lock ?_, ?_, ?_, ?_⟩
  · rw [hidle]
    rfl
  · show Slots NUM s.free fun u => (Function.update s.point t (.enter c) u).own
    rw [own_update]
    refine h.slots_same ?_
    rw [hidle]
    rfl
  · intro u v b hu hv
    rcases hother u b hu with ⟨rfl, rfl⟩ | ⟨-, hu⟩
    · rcases hother v c.b hv with ⟨rfl, -⟩ | ⟨-, hv⟩
      · rfl
      · exact absurd hv (hfresh v)
    · rcases hother v b hv with ⟨-, rfl⟩ | ⟨-, hv⟩
      · exact absurd hu (hfresh u)
      · exact h.bufs u v b hu hv
  · intro u
    show Shaped _ (Function.update s.point t (.enter c) u)
    by_cases hut : u = t
    · rw [hut, Function.update_self]
      trivial
    · rw [Function.update_of_ne hut]
      exact (h.shaped u).congr fun _ _ => ⟨rfl, rfl, rfl⟩

end Move

/-! ## The steps -/

variable [DecidableEq T] [DecidableEq B] {t : T} {p : Point B} {i : ℕ}

omit [DecidableEq T] in
/-- The checks of `free_desc` pass for a descriptor that somebody has. -/
theorem Chains.freeDesc_eq (h : s.Chains) (hi : i ∈ (s.point t).own) :
    s.freeDesc i = .ok ({ s.setDesc i {} with
      free := Function.update s.free i true }.wakeup .free) := by
  have hlt : i < NUM := h.slots.lt hi
  rw [freeDesc, if_neg (by omega), if_neg]
  rw [h.slots.taken hi]
  exact Bool.false_ne_true

/-- A thread gives its first descriptor back. -/
theorem Chains.give (h : s.Chains) {rest : List ℕ}
    (hown : (s.point t).own = i :: rest) (hrest : p.own = rest)
    (hhold : p.holding = (s.point t).holding)
    (hbuf : p.buf = none ∨ p.buf = (s.point t).buf)
    (hshaped : (s.setDesc i {}).Shaped p) :
    (({ s.setDesc i {} with
      free := Function.update s.free i true }.wakeup .free).setPoint
        t p).Chains := by
  refine h.move rfl (held_update h.lock hhold) ?_ hbuf ?_
    (hshaped.congr fun _ _ => ⟨rfl, rfl, rfl⟩)
  · rw [hrest]
    exact h.slots.give hown
  · intro j hj
    refine ⟨Function.update_of_ne ?_ .., rfl, rfl⟩
    rintro rfl
    rw [hown] at hj
    exact hj List.mem_cons_self

omit [DecidableEq B] in
theorem Chains.alloc (h : s.Chains) {idx : List ℕ}
    (hpt : s.point t = .alloc c idx) (halloc : s.allocDesc = some (s₁, i)) :
    (s₁.setPoint t (.allocNext c i idx)).Chains := by
  obtain ⟨hlt, hfree, rfl⟩ := allocDesc_some halloc
  refine h.move rfl (held_update (f := s.point) h.lock ?_) ?_ (Or.inr ?_)
    (fun _ _ => ⟨rfl, rfl, rfl⟩) ?_
  · rw [Point.holding_allocNext, hpt]
    rfl
  · rw [Point.own_allocNext]
    have htake := h.slots.take (u := t) hlt hfree
    rw [hpt] at htake
    exact htake
  · rw [Point.buf_allocNext, hpt]
    rfl
  · unfold Point.allocNext
    split
    · constructor <;> intro hn <;> cases hn
    · trivial

theorem Chains.work (h : s.Chains) (hpt : s.point t = .busy c x st)
    (hwork : s.work t c x st = .ok s') : s'.Chains := by
  obtain ⟨hd, hs, hds⟩ := h.chain_ne hpt
  have hw := h.written hpt
  have hmem : ∀ {i}, i ∉ x.toList → i ≠ x.head ∧ i ≠ x.data ∧ i ≠ x.status := by
    intro i hi
    simpa [Chain.toList] using hi
  cases st with
  | header =>
    cases hwork
    refine h.format hpt rfl rfl rfl rfl (fun i hi => ?_) ?_
    · exact ⟨rfl, Function.update_of_ne (hmem hi).1 .., rfl⟩
    · refine ⟨fun _ => Function.update_self .., ?_, ?_, ?_, ?_⟩ <;>
        simp [Stage.rank]
  | head =>
    cases hwork
    refine h.format hpt rfl rfl rfl rfl (fun i hi => ?_) ?_
    · exact ⟨Function.update_of_ne (hmem hi).1 .., rfl, rfl⟩
    · refine ⟨fun _ => hw.header le_rfl, fun _ => Function.update_self .., ?_,
        ?_, ?_⟩ <;> simp [Stage.rank]
  | data =>
    cases hwork
    refine h.format hpt rfl rfl rfl rfl (fun i hi => ?_) ?_
    · exact ⟨Function.update_of_ne (hmem hi).2.1 .., rfl, rfl⟩
    · refine ⟨fun _ => hw.header (by decide), fun _ => ?_,
        fun _ => Function.update_self .., ?_, ?_⟩
      · exact (Function.update_of_ne hd ..).trans (hw.head le_rfl)
      · simp [Stage.rank]
      · simp [Stage.rank]
  | status =>
    cases hwork
    refine h.format hpt rfl rfl rfl rfl (fun i hi => ?_) ?_
    · refine ⟨Function.update_of_ne (hmem hi).2.2 .., rfl, ?_⟩
      exact congrArg Info.b (Function.update_of_ne (hmem hi).1 ..)
    · refine ⟨fun _ => hw.header (by decide), fun _ => ?_, fun _ => ?_,
        fun _ => Function.update_self .., ?_⟩
      · exact (Function.update_of_ne hs ..).trans (hw.head (by decide))
      · exact (Function.update_of_ne hds ..).trans (hw.data le_rfl)
      · simp [Stage.rank]
  | record =>
    cases hwork
    refine h.format hpt rfl rfl rfl rfl (fun i hi => ?_) ?_
    · refine ⟨rfl, rfl, ?_⟩
      exact congrArg Info.b (Function.update_of_ne (hmem hi).1 ..)
    · refine ⟨fun _ => hw.header (by decide), fun _ => hw.head (by decide),
        fun _ => hw.data (by decide), fun _ => hw.status le_rfl, fun _ => ?_⟩
      show (Function.update s.info x.head _ x.head).b = some c.b
      rw [Function.update_self]
  | ring | publish | notify =>
    cases hwork
    exact h.format hpt rfl rfl rfl rfl (fun _ _ => ⟨rfl, rfl, rfl⟩)
      (hw.congr fun _ _ => ⟨rfl, rfl, rfl⟩)
  | wait =>
    simp only [State.work] at hwork
    split at hwork
    · cases hwork
      refine h.sleep ?_ ?_ rfl (Or.inr ?_) hw <;> rw [hpt] <;> rfl
    · cases hwork
      refine h.goto ?_ ?_ (Or.inr ?_) hw <;> rw [hpt] <;> rfl
  | sleep =>
    refine h.wake hwork ?_ rfl (Or.inr ?_) hw <;> rw [hpt] <;> rfl
  | clear =>
    cases hwork
    refine h.move rfl (held_update (f := s.point) h.lock ?_) (h.slots_same ?_)
      (Or.inr ?_) (fun i hi => ?_) ?_
    · rw [hpt]
      rfl
    · rw [hpt]
      simp [Point.own]
    · rw [hpt]
      rfl
    · refine ⟨rfl, rfl, congrArg Info.b (Function.update_of_ne ?_ ..)⟩
      rw [hpt] at hi
      exact (hmem hi).1
    · refine ⟨?_, .head (hw.head (by decide)) (hw.data (by decide))
        (hw.status (by decide))⟩
      have hnodup := h.slots.nodup t
      rwa [hpt] at hnodup

/-- The rounds of `free_chain`. -/
inductive Freed (s' : State T B) (t : T) (c : Call B) (x : Chain) : ℕ → Prop
  | head (next : s'.point t = .freeing c x x.data) : Freed s' t c x x.head
  | data (next : s'.point t = .freeing c x x.status) : Freed s' t c x x.data
  | status (next : s'.point t = .leave c) : Freed s' t c x x.status

theorem run_freeing (hpt : s.point t = .freeing c x i)
    (hfree : s.freeDesc i = .ok s₁) :
    s.run t = if (s.desc i).flags &&& VRING_DESC_F_NEXT ≠ 0 then
        .ok (s₁.setPoint t (.freeing c x (s.desc i).next.toNat))
      else .ok (s₁.setPoint t (.leave c)) := by
  simp only [run, hpt, hfree]

/-- A round of `free_chain` frees one descriptor of the chain and goes on to
the next one. -/
theorem Chains.freeing (h : s.Chains) (hpt : s.point t = .freeing c x i)
    (hrun : s.run t = .ok s') :
    s'.Chains ∧ Freed s' t c x i ∧ s'.free = Function.update s.free i true := by
  have hlt := @h.slots.lt t
  have hshaped := h.shaped t
  rw [hpt] at hshaped hlt
  obtain ⟨hnodup, hlinked⟩ := hshaped
  have hhold : ∀ j, (Point.freeing c x j).holding = (s.point t).holding := by
    intro j
    rw [hpt]
    rfl
  have hbuf : ∀ j, (Point.freeing c x j).buf = (s.point t).buf := by
    intro j
    rw [hpt]
    rfl
  obtain ⟨⟨hd, hs⟩, hds⟩ : (x.head ≠ x.data ∧ x.head ≠ x.status) ∧
      x.data ≠ x.status := by
    simpa [Chain.toList] using hnodup
  cases hlinked with
  | head hhead hdata hstatus =>
    have hown : (s.point t).own = x.head :: [x.data, x.status] := by
      rw [hpt]
      simp [Point.own, Chain.toList]
    have hflags : (s.desc x.head).flags &&& VRING_DESC_F_NEXT ≠ 0 := by
      rw [hhead]
      exact (by decide : VRING_DESC_F_NEXT &&& VRING_DESC_F_NEXT ≠ 0)
    have hnext : (s.desc x.head).next.toNat = x.data := by
      rw [hhead]
      exact toNat_next (hlt (by simp [Point.own, Chain.toList]))
    rw [run_freeing hpt (h.freeDesc_eq (t := t) (by rw [hown]; simp)),
      if_pos hflags, hnext] at hrun
    rw [Except.ok.inj hrun.symm]
    refine ⟨h.give hown ?_ (hhold _) (Or.inr (hbuf _)) ⟨hnodup, ?_⟩,
      .head (Function.update_self ..), rfl⟩
    · simp [Point.own, Ne.symm hd]
    · refine .data ?_ ?_
      · exact (Function.update_of_ne (Ne.symm hd) ..).trans hdata
      · exact (Function.update_of_ne (Ne.symm hs) ..).trans hstatus
  | data hdata hstatus =>
    have hown : (s.point t).own = x.data :: [x.status] := by
      rw [hpt]
      simp [Point.own, Ne.symm hd]
    have hflags : (s.desc x.data).flags &&& VRING_DESC_F_NEXT ≠ 0 := by
      rw [hdata]
      exact dataDesc_flags c x
    have hnext : (s.desc x.data).next.toNat = x.status := by
      rw [hdata]
      exact toNat_next (hlt (by simp [Point.own, Ne.symm hd]))
    rw [run_freeing hpt (h.freeDesc_eq (t := t) (by rw [hown]; simp)),
      if_pos hflags, hnext] at hrun
    rw [Except.ok.inj hrun.symm]
    refine ⟨h.give hown ?_ (hhold _) (Or.inr (hbuf _)) ⟨hnodup, ?_⟩,
      .data (Function.update_self ..), rfl⟩
    · simp [Point.own, Ne.symm hs, Ne.symm hds]
    · exact .status ((Function.update_of_ne (Ne.symm hds) ..).trans hstatus)
  | status hstatus =>
    have hown : (s.point t).own = x.status :: [] := by
      rw [hpt]
      simp [Point.own, Ne.symm hs, Ne.symm hds]
    have hflags : ¬ (s.desc x.status).flags &&& VRING_DESC_F_NEXT ≠ 0 := by
      rw [hstatus]
      exact (by decide : ¬ VRING_DESC_F_WRITE &&& VRING_DESC_F_NEXT ≠ 0)
    rw [run_freeing hpt (h.freeDesc_eq (t := t) (by rw [hown]; simp)),
      if_neg hflags] at hrun
    rw [Except.ok.inj hrun.symm]
    refine ⟨h.give hown rfl ?_ (Or.inr ?_) trivial,
      .status (Function.update_self ..), rfl⟩
    · rw [hpt]
      rfl
    · rw [hpt]
      rfl

theorem Chains.run (h : s.Chains) (hrun : s.run t = .ok s') : s'.Chains := by
  cases hpt : s.point t with
  | freeing c x i => exact (h.freeing hpt hrun).1
  | busy c x st =>
    simp only [State.run, hpt] at hrun
    exact h.work hpt hrun
  | idle =>
    simp only [State.run, hpt] at hrun
    cases hrun
  | panicked p =>
    simp only [State.run, hpt] at hrun
    cases hrun
  | enter c =>
    simp only [State.run, hpt] at hrun
    refine h.acquire hrun ?_ rfl (Or.inr ?_) trivial <;> rw [hpt] <;> rfl
  | intrEnter =>
    simp only [State.run, hpt] at hrun
    refine h.acquire hrun ?_ rfl (Or.inl rfl) trivial
    rw [hpt]
    rfl
  | alloc c idx =>
    simp only [State.run, hpt] at hrun
    cases halloc : s.allocDesc with
    | none =>
      rw [halloc] at hrun
      cases hrun
      refine h.goto ?_ ?_ (Or.inr ?_) trivial <;> rw [hpt] <;> rfl
    | some r =>
      obtain ⟨s₁, i⟩ := r
      rw [halloc] at hrun
      cases hrun
      exact h.alloc hpt halloc
  | undo c idx =>
    cases idx with
    | nil =>
      simp only [State.run, hpt] at hrun
      cases hrun
      refine h.sleep ?_ ?_ rfl (Or.inr ?_) trivial <;> rw [hpt] <;> rfl
    | cons i idx =>
      have hown : (s.point t).own = i :: idx := by
        rw [hpt]
        rfl
      have hfree := h.freeDesc_eq (t := t) (i := i) (by rw [hown]; simp)
      simp only [State.run, hpt, hfree] at hrun
      cases hrun
      refine h.give hown rfl ?_ (Or.inr ?_) trivial <;> rw [hpt] <;> rfl
  | starved c =>
    simp only [State.run, hpt] at hrun
    refine h.wake hrun ?_ rfl (Or.inr ?_) trivial <;> rw [hpt] <;> rfl
  | leave c =>
    simp only [State.run, hpt] at hrun
    cases hrun
    refine h.release ?_ ?_ rfl (Or.inl rfl) trivial <;> rw [hpt] <;> rfl
  | intrLeave =>
    simp only [State.run, hpt] at hrun
    cases hrun
    refine h.release ?_ ?_ rfl (Or.inl rfl) trivial <;> rw [hpt] <;> rfl
  | intrTest =>
    simp only [State.run, hpt] at hrun
    split at hrun <;> cases hrun <;>
      refine h.goto ?_ ?_ (Or.inl rfl) trivial <;> rw [hpt] <;> rfl
  | intrRead =>
    simp only [State.run, hpt] at hrun
    cases hrun
    refine h.goto ?_ ?_ (Or.inl rfl) trivial <;> rw [hpt] <;> rfl
  | intrStatus id =>
    simp only [State.run, hpt] at hrun
    split at hrun
    · cases hrun
      refine h.goto ?_ ?_ (Or.inl rfl) (by simp [Shaped]) <;>
        rw [hpt] <;> rfl
    · cases hrun
      refine h.goto ?_ ?_ (Or.inl rfl) trivial <;> rw [hpt] <;> rfl
  | intrDone id =>
    simp only [State.run, hpt] at hrun
    split at hrun
    · cases hrun
      refine h.goto ?_ ?_ (Or.inl rfl) (by simp [Shaped]) <;>
        rw [hpt] <;> rfl
    · cases hrun
      refine h.move rfl (held_update (f := s.point) h.lock ?_) (h.slots_same ?_)
        (Or.inl rfl) (fun _ _ => ⟨rfl, rfl, rfl⟩) trivial <;>
        rw [hpt] <;> rfl

/-! ## The system -/

theorem Chains.step (h : s.Chains) {op : Op T B} (hcallers : s.Callers op)
    (hstep : s.step op = .ok s') : s'.Chains := by
  cases op with
  | rw t c =>
    obtain ⟨hidle, rfl⟩ := call_ok hstep
    exact h.rw hidle hcallers
  | intr t =>
    obtain ⟨hidle, rfl⟩ := call_ok hstep
    refine h.goto ?_ ?_ (Or.inl rfl) trivial <;> rw [hidle] <;> rfl
  | run t => exact h.run hstep
  | kkill t =>
    cases hstep
    exact h.asleep _
  | fetch =>
    simp only [State.step, State.fetch] at hstep
    split at hstep
    · cases hstep
    · cases hstep
      exact h.device rfl rfl rfl fun _ => ⟨rfl, rfl, rfl⟩
  | perform k => exact h.perform hstep
  | post k =>
    simp only [State.step, State.post] at hstep
    split at hstep
    · cases hstep
      exact h.device rfl rfl rfl fun _ => ⟨rfl, rfl, rfl⟩
    · cases hstep
  | advance =>
    simp only [State.step, State.advance] at hstep
    split at hstep
    · cases hstep
    · cases hstep
      exact h.device rfl rfl rfl fun _ => ⟨rfl, rfl, rfl⟩

end State

end Xv6.Virtio
