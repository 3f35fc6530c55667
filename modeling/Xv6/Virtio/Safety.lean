import Xv6.Virtio.Service

/-!
# The disk driver is safe in any completion order

The device may take as long as it likes and finish requests in any order, and
interrupts may come at any time: no request is lost, mixed up with another one
or completed before the device has performed it, and no descriptor is used by
two requests at a time.
-/

namespace Xv6.Virtio

open Framework Framework.Fifo

variable {T B : Type}

namespace State

/-! ## Which steps touch the avail ring and the flags -/

variable {s s' : State T B} {t : T} {p : Point B} {i : ℕ}

/-- The avail ring and the flags of the buffers are the same, and the device
has read as much of the ring. -/
structure Quiet (s s' : State T B) : Prop where
  avail : s'.avail = s.avail
  seen : s'.dev.seen = s.dev.seen
  disk : s'.disk = s.disk

/-- The steps that are not quiet. -/
def loud : Point B → Bool
  | .busy _ _ .record | .busy _ _ .ring | .busy _ _ .publish
  | .intrDone _ => true
  | _ => false

theorem Quiet.pendingAvail (h : Quiet s s') :
    s'.pendingAvail = s.pendingAvail := by
  rw [State.pendingAvail, State.pendingAvail, h.avail, h.seen]

section Parts

variable [DecidableEq B]

theorem Quiet.freeDesc {s₁ : State T B} (h : s.freeDesc i = .ok s₁) :
    Quiet s s₁ := by
  unfold State.freeDesc at h
  split at h
  · cases h
  · split at h
    · cases h
    · cases h
      exact ⟨rfl, rfl, rfl⟩

end Parts

section Parts

variable [DecidableEq T]

theorem Quiet.acquire (h : s.acquire t p = .ok s') : Quiet s s' := by
  unfold State.acquire at h
  split at h
  · cases h
    exact ⟨rfl, rfl, rfl⟩
  · cases h

theorem Quiet.wake (h : s.wake t p = .ok s') : Quiet s s' := by
  unfold State.wake at h
  split at h
  · cases h
  · exact Quiet.acquire h

theorem Quiet.setPoint {s₁ : State T B} (h : Quiet s s₁) :
    Quiet s (s₁.setPoint t p) :=
  ⟨h.avail, h.seen, h.disk⟩

end Parts

variable [DecidableEq T] [DecidableEq B]

theorem Quiet.run (hrun : s.run t = .ok s')
    (hquiet : loud (s.point t) = false) : Quiet s s' := by
  cases hpt : s.point t with
  | busy c x st =>
    rw [hpt] at hquiet
    simp only [State.run, hpt] at hrun
    cases st with
    | record | ring | publish => cases hquiet
    | wait =>
      simp only [State.work] at hrun
      split at hrun <;> cases hrun <;> exact ⟨rfl, rfl, rfl⟩
    | sleep => exact Quiet.wake hrun
    | header | head | data | status | notify | clear =>
      cases hrun
      exact ⟨rfl, rfl, rfl⟩
  | intrDone id =>
    rw [hpt] at hquiet
    cases hquiet
  | idle | panicked p =>
    simp only [State.run, hpt] at hrun
    cases hrun
  | enter c | intrEnter =>
    simp only [State.run, hpt] at hrun
    exact Quiet.acquire hrun
  | starved c =>
    simp only [State.run, hpt] at hrun
    exact Quiet.wake hrun
  | alloc c idx =>
    simp only [State.run, hpt] at hrun
    cases halloc : s.allocDesc with
    | none =>
      rw [halloc] at hrun
      cases hrun
      exact ⟨rfl, rfl, rfl⟩
    | some r =>
      obtain ⟨s₁, i⟩ := r
      rw [halloc] at hrun
      obtain ⟨-, -, rfl⟩ := allocDesc_some halloc
      cases hrun
      exact ⟨rfl, rfl, rfl⟩
  | undo c idx =>
    cases idx with
    | nil =>
      simp only [State.run, hpt] at hrun
      cases hrun
      exact ⟨rfl, rfl, rfl⟩
    | cons i idx =>
      simp only [State.run, hpt] at hrun
      cases hfree : s.freeDesc i with
      | error e =>
        rw [hfree] at hrun
        cases hrun
        exact ⟨rfl, rfl, rfl⟩
      | ok s₁ =>
        rw [hfree] at hrun
        cases hrun
        exact (Quiet.freeDesc hfree).setPoint
  | freeing c x i =>
    cases hfree : s.freeDesc i with
    | error e =>
      simp only [State.run, hpt, hfree] at hrun
      cases hrun
      exact ⟨rfl, rfl, rfl⟩
    | ok s₁ =>
      rw [run_freeing hpt hfree] at hrun
      split at hrun <;> cases hrun <;>
        exact (Quiet.freeDesc hfree).setPoint
  | leave c | intrLeave | intrRead =>
    simp only [State.run, hpt] at hrun
    cases hrun
    exact ⟨rfl, rfl, rfl⟩
  | intrTest =>
    simp only [State.run, hpt] at hrun
    split at hrun <;> cases hrun <;> exact ⟨rfl, rfl, rfl⟩
  | intrStatus id =>
    simp only [State.run, hpt] at hrun
    split at hrun <;> cases hrun <;> exact ⟨rfl, rfl, rfl⟩

/-- The other steps are those of the device. -/
theorem Quiet.step {op : Op T B} (hstep : s.step op = .ok s') :
    (∃ t, op = .run t ∧ loud (s.point t) = true) ∨ op = .fetch ∨
      Quiet s s' := by
  cases op with
  | rw t c =>
    obtain ⟨-, rfl⟩ := call_ok hstep
    exact Or.inr (Or.inr ⟨rfl, rfl, rfl⟩)
  | intr t =>
    obtain ⟨-, rfl⟩ := call_ok hstep
    exact Or.inr (Or.inr ⟨rfl, rfl, rfl⟩)
  | kkill t =>
    cases hstep
    exact Or.inr (Or.inr ⟨rfl, rfl, rfl⟩)
  | run t =>
    cases hloud : loud (s.point t) with
    | true => exact Or.inl ⟨t, rfl, hloud⟩
    | false => exact Or.inr (Or.inr (Quiet.run hstep hloud))
  | fetch => exact Or.inr (Or.inl rfl)
  | perform k =>
    simp only [State.step, State.perform] at hstep
    split at hstep
    · split at hstep
      · cases hstep
      · cases hstep
        exact Or.inr (Or.inr ⟨rfl, rfl, rfl⟩)
    · cases hstep
  | post k =>
    simp only [State.step, State.post] at hstep
    split at hstep
    · cases hstep
      exact Or.inr (Or.inr ⟨rfl, rfl, rfl⟩)
    · cases hstep
  | advance =>
    simp only [State.step, State.advance] at hstep
    split at hstep
    · cases hstep
    · cases hstep
      exact Or.inr (Or.inr ⟨rfl, rfl, rfl⟩)

end State

/-! ## The theorem -/

/-- The system with its history. -/
structure Traced (T B : Type) where
  s : State T B := {}
  trace : List (Event B) := []

def Traced.step [DecidableEq T] [DecidableEq B] (w : Traced T B)
    (op : Op T B) : Except Blocked (Traced T B) := do
  let s ← w.s.step op
  .ok ⟨s, w.s.emits op ++ w.trace⟩

/-- What is promised in every state, and of the next step from there. -/
structure Safe [DecidableEq T] [DecidableEq B] (s : State T B)
    (l : List (Event B)) : Prop where
  /-- Nobody uses a descriptor twice or together with somebody else, and the
  other descriptors are free. -/
  nodup : ∀ u, (s.point u).own.Nodup
  disjoint : ∀ u v, u ≠ v → (s.point u).own.Disjoint (s.point v).own
  bounded : ∀ u, ∀ i ∈ (s.point u).own, i < NUM
  free_iff : ∀ i < NUM, s.free i = true ↔ ∀ u, i ∉ (s.point u).own
  /-- When the lock is free, these are the chains of the requests in flight,
  of three descriptors each. -/
  whole : s.lock = none → ∀ u, (s.point u).own = [] ∨
    ∃ c x, (s.point u).sent = some (c, x) ∧ (s.point u).own = x.toList
  /-- The device has nothing to do with the other descriptors. -/
  returned : ∀ u, (s.point u).sent = none → ∀ i ∈ (s.point u).own, i ∉ s.hands
  /-- The device finds in a chain what the call asked for. -/
  intact : ∀ u c x, (s.point u).sent = some (c, x) →
    s.request x.head = some (c.transfer, x.head)
  /-- The entries of the avail ring stay until the device reads them. -/
  avail : ∀ op s', s.step op = .ok s' →
    s'.pendingAvail = s.pendingAvail ∨
    (∃ t c x, op = .run t ∧ s.point t = .busy c x .publish ∧
      s'.pendingAvail = s.pendingAvail ++ [x.head]) ∨
    (op = .fetch ∧ ∃ k, s.pendingAvail = k :: s'.pendingAvail ∧
      s'.dev.todo = k :: s.dev.todo)
  /-- For each buffer, requests are submitted, performed as submitted and
  completed, in this order. -/
  orderly : Orderly l
  /-- Only a completion clears a flag `b->disk`, and only the one of the
  buffer whose request the device has performed. -/
  complete : ∀ op s', s.step op = .ok s' →
    (∀ b, s.disk b = true → s'.disk b = true) ∨
    ∃ t id u c x, op = .run t ∧ s.point t = .intrDone id ∧
      (s.point u).sent = some (c, x) ∧ x.head = id ∧
      lastAbout c.b l = some (.finish c.transfer) ∧
      s'.disk = Function.update s.disk c.b false
  /-- `free_chain` frees the descriptors of the call, one after the other. -/
  frees : ∀ t c x i s', s.point t = .freeing c x i → s.run t = .ok s' →
    State.Freed s' t c x i ∧ s'.free = Function.update s.free i true
  noPanic : ∀ u p, s.point u ≠ .panicked p

namespace State

variable [DecidableEq T] [DecidableEq B]
variable {s s' : State T B} {l : List (Event B)} {op : Op T B}

/-- The avail ring is a queue from the driver to the device. -/
theorem Served.step_avail (h : s.Served l) (hc : s.Chains)
    (hstep : s.step op = .ok s') :
    s'.pendingAvail = s.pendingAvail ∨
    (∃ t c x, op = .run t ∧ s.point t = .busy c x .publish ∧
      s'.pendingAvail = s.pendingAvail ++ [x.head]) ∨
    (op = .fetch ∧ ∃ k, s.pendingAvail = k :: s'.pendingAvail ∧
      s'.dev.todo = k :: s.dev.todo) := by
  rcases Quiet.step hstep with ⟨t, rfl, hloud⟩ | rfl | hquiet
  · have hrun : s.run t = .ok s' := hstep
    unfold loud at hloud
    split at hloud
    · rename_i c x hpt
      simp only [State.run, hpt] at hrun
      cases hrun
      exact Or.inl rfl
    · rename_i c x hpt
      simp only [State.run, hpt] at hrun
      exact Or.inl (h.pendingAvail_ring hc hpt hrun)
    · rename_i c x hpt
      simp only [State.run, hpt] at hrun
      exact Or.inr (Or.inl ⟨t, c, x, rfl, hpt,
        h.pendingAvail_publish hc hpt hrun⟩)
    · rename_i id hpt
      simp only [State.run, hpt] at hrun
      split at hrun <;> cases hrun <;> exact Or.inl rfl
    · cases hloud
  · simp only [State.step, State.fetch] at hstep
    split at hstep
    · cases hstep
    · rename_i hne
      cases hstep
      exact Or.inr (Or.inr ⟨rfl, _, pendingAvail_cons hne, rfl⟩)
  · exact Or.inl hquiet.pendingAvail

theorem Served.step_complete (h : s.Served l) (hc : s.Chains)
    (hstep : s.step op = .ok s') :
    (∀ b, s.disk b = true → s'.disk b = true) ∨
    ∃ t id u c x, op = .run t ∧ s.point t = .intrDone id ∧
      (s.point u).sent = some (c, x) ∧ x.head = id ∧
      lastAbout c.b l = some (.finish c.transfer) ∧
      s'.disk = Function.update s.disk c.b false := by
  rcases Quiet.step hstep with ⟨t, rfl, hloud⟩ | rfl | hquiet
  · have hrun : s.run t = .ok s' := hstep
    unfold loud at hloud
    split at hloud
    · rename_i c x hpt
      simp only [State.run, hpt] at hrun
      cases hrun
      left
      intro b hb
      show Function.update s.disk c.b true b = true
      by_cases hbc : b = c.b
      · rw [hbc, Function.update_self]
      · rwa [Function.update_of_ne hbc]
    · rename_i c x hpt
      simp only [State.run, hpt] at hrun
      cases hrun
      exact Or.inl fun _ => id
    · rename_i c x hpt
      simp only [State.run, hpt] at hrun
      cases hrun
      exact Or.inl fun _ => id
    · rename_i id hpt
      have hid := h.atPoint t
      rw [hpt] at hid
      obtain ⟨u, c, x, hu, hx, -, hb, -, hlast⟩ := h.found hc hid
      simp only [State.run, hpt, hb] at hrun
      cases hrun
      exact Or.inr ⟨t, id, u, c, x, rfl, hpt, hu, hx, hlast, rfl⟩
    · cases hloud
  · simp only [State.step, State.fetch] at hstep
    split at hstep
    · cases hstep
    · cases hstep
      exact Or.inl fun _ => id
  · left
    rw [hquiet.disk]
    exact fun _ => id

theorem Served.safe (h : s.Served l) (hc : s.Chains) : Safe s l where
  nodup := hc.slots.nodup
  disjoint u v huv i hu hv := huv (hc.slots.unique hu hv)
  bounded u i hi := hc.slots.lt hi
  free_iff i hi := hc.slots.free_iff hi
  whole hlock u := by
    have hheld : (s.point u).holding ≠ true := by
      intro hheld
      rw [(hc.lock u).mpr hheld] at hlock
      cases hlock
    cases hpt : s.point u with
    | busy c x st =>
      rw [hpt] at hheld
      cases st with
      | sleep => exact Or.inr ⟨c, x, rfl, rfl⟩
      | header | head | data | status | record | ring | publish | notify
      | wait | clear => exact absurd rfl hheld
    | idle | enter c | starved c | intrEnter => exact Or.inl rfl
    | alloc c idx | undo c idx | freeing c x i | leave c | intrTest
    | intrRead | intrStatus id | intrDone id | intrLeave | panicked p =>
      rw [hpt] at hheld
      exact absurd rfl hheld
  returned u hu i hi := h.not_mem hc hi hu
  intact u c x hu := by
    have hlt : ∀ i ∈ x.toList, i < NUM := by
      intro i hi
      rw [← (Point.own_sent hu).1] at hi
      exact hc.slots.lt hi
    exact (hc.sent_written hu).request (hlt _ (by simp [Chain.toList]))
      (hlt _ (by simp [Chain.toList]))
  avail op s' hstep := h.step_avail hc hstep
  orderly := h.orderly
  complete op s' hstep := h.step_complete hc hstep
  frees t c x i s' hpt hrun := (hc.freeing hpt hrun).2
  noPanic u p hp := by
    have hat := h.atPoint u
    rw [hp] at hat
    exact hat

end State

/-- **The disk driver is safe in any completion order**: for any number of
calls and interrupts on any number of threads, any order in which the device
performs and reports requests, and however often the 16-bit counters of the
rings wrap. -/
theorem virtio_safe [DecidableEq T] [DecidableEq B] {ops : List (Op T B)}
    {w : Traced T B}
    (h : Run Traced.step (fun w op => w.s.Callers op) {} ops w) :
    Safe w.s w.trace := by
  have hinv : w.s.Chains ∧ w.s.Served w.trace := by
    refine h.invariant (I := fun w => w.s.Chains ∧ w.s.Served w.trace) ?_
      ⟨.start, .start⟩
    rintro w op w' ⟨hc, hs⟩ hcallers hstep
    obtain ⟨s, hs', hstep⟩ := bind_ok_iff.mp hstep
    cases hstep
    exact ⟨hc.step hcallers hs', hs.step hc hs'⟩
  exact hinv.2.safe hinv.1

/-- Two threads read a block each; the device performs the second request
first, and one interrupt reports both to the third thread. -/
def reverseOps : List (Op (Option Bool) Bool) :=
  [.rw none ⟨false, false, 7⟩, .rw (some false) ⟨true, false, 9⟩] ++
    List.replicate 13 (.run none) ++ List.replicate 13 (.run (some false)) ++
    [.fetch, .fetch, .perform 3, .perform 0, .post 3, .advance,
      .intr (some true)] ++
    List.replicate 5 (.run (some true)) ++ [.post 0, .advance] ++
    List.replicate 6 (.run (some true)) ++ List.replicate 7 (.run (some false))

theorem virtio_safe_reverse : ∃ w : Traced (Option Bool) Bool,
    Run Traced.step (fun w op => w.s.Callers op) {} reverseOps w ∧
      w.trace.map Event.buf = [false, true, false, true, true, false] ∧
      Safe w.s w.trace := by
  obtain ⟨w, hw, htrace⟩ := exists_some_of_any
    (o := Run.checked Traced.step (fun w op => w.s.Callers op) {} reverseOps)
    (p := fun w => decide (w.trace.map Event.buf =
      [false, true, false, true, true, false])) (by decide +kernel)
  have hrun := Run.of_checked hw
  exact ⟨w, hrun, of_decide_eq_true htrace, virtio_safe hrun⟩

end Xv6.Virtio
