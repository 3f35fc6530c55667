import Xv6.Console.Line

/-!
# `consoleread` delivers the committed input

Beside the console we keep the input as its users see it, what has been
delivered, and what the calls that have returned got. The character that a
reader has taken out of the buffer and not decided about still counts as
unread.
-/

namespace Xv6.Console

open Framework Framework.Fifo

variable {P : Type}

/-- A call of `consoleread` that has returned. -/
structure Result (P : Type) where
  p : P
  n : ℤ
  ret : ℤ
  bytes : List UInt8

namespace Cons

/-- The character that a step uses up. -/
def takes (s : Cons P) : Op P → List UInt8
  | .run p _ =>
      match s.phase p with
      | .got target n c => if c = EOF ∧ n < target then [] else [c]
      | _ => []
  | _ => []

/-- The character that a step hands to the caller. -/
def delivers (s : Cons P) : Op P → List UInt8
  | .run p copied =>
      match s.phase p with
      | .got _ _ c => if c ≠ EOF ∧ copied = true then [c] else []
      | _ => []
  | _ => []

/-- The call that returns in a step; `got` is what the processes have been
handed in their calls. -/
def returns (s : Cons P) (got : P → List UInt8) : Op P → List (Result P)
  | .run p _ =>
      match s.phase p with
      | .leave target n => [⟨p, target, target - n, got p⟩]
      | .wait target _ =>
          if s.r = s.w ∧ s.killed p = true then [⟨p, target, -1, got p⟩] else []
      | _ => []
  | _ => []

end Cons

/-- The console with its history. -/
structure Traced (P : Type) where
  s : Cons P := {}
  tty : Tty := {}
  delivered : List UInt8 := []
  got : P → List UInt8 := fun _ => []
  results : List (Result P) := []

namespace Traced

variable [DecidableEq P]

def nextTty (w : Traced P) : Op P → Tty
  | .intr c => w.tty.type c
  | op => { w.tty with taken := w.tty.taken ++ w.s.takes op }

def nextGot (w : Traced P) : Op P → P → List UInt8
  | .read p _ => Function.update w.got p []
  | .run p copied =>
      Function.update w.got p (w.got p ++ w.s.delivers (.run p copied))
  | _ => w.got

def step (w : Traced P) (op : Op P) : Except Blocked (Traced P) := do
  let s ← w.s.step op
  .ok {
    s := s
    tty := w.nextTty op
    delivered := w.delivered ++ w.s.delivers op
    got := w.nextGot op
    results := w.results ++ w.s.returns w.got op }

end Traced

/-- Every `either_copyout` of the step succeeds. -/
def Op.Copies : Op P → Prop
  | .run _ copied => copied = true
  | _ => True

/-! ## The invariant -/

namespace Cons

/-- The first unread character. -/
def base (s : Cons P) : UInt32 :=
  match s.lock with
  | none => s.r
  | some p =>
      match s.phase p with
      | .got _ _ _ => s.r - 1
      | _ => s.r

/-- A call for some bytes that is about to return none. -/
def Phase.empty : Phase → Bool
  | .leave target n => decide (0 < target ∧ target = n)
  | _ => false

/-- Whether the holder of the lock is about to return nothing. -/
def ending (s : Cons P) : ℕ :=
  match s.lock with
  | none => 0
  | some p => (Phase.empty (s.phase p)).toNat

/-- What a process has been handed, against where it is. -/
def Fits (s : Cons P) (l : List UInt8) : Phase → Prop
  | .returned _ => True
  | .enter _ => l = []
  | .loop target n => (l.length : ℤ) = target - n ∧ NL ∉ l ∧ EOF ∉ l
  | .wait target n | .sleep target n =>
      (l.length : ℤ) = target - n ∧ NL ∉ l ∧ EOF ∉ l ∧ 0 < n
  | .fetch target n =>
      (l.length : ℤ) = target - n ∧ NL ∉ l ∧ EOF ∉ l ∧ 0 < n ∧ s.r ≠ s.w
  | .got target n c =>
      (l.length : ℤ) = target - n ∧ NL ∉ l ∧ EOF ∉ l ∧ 0 < n ∧
        s.char (s.r - 1) = c ∧ s.r - 1 ≠ s.w
  | .leave target n =>
      (l.length : ℤ) = target - n ∧ NL ∉ l.dropLast ∧ EOF ∉ l

end Cons

/-- A finished call returned the number of bytes it was handed, or was
killed; no byte follows a newline, and none is a control-D. -/
structure Result.Ok (s : Cons P) (x : Result P) : Prop where
  ret : (x.bytes.length : ℤ) = x.ret ∨ x.ret = -1 ∧ s.killed x.p = true
  line : NL ∉ x.bytes.dropLast
  eof : EOF ∉ x.bytes

/-- The result of a read of some bytes that got none. -/
def Result.zero (x : Result P) : Bool := decide (0 < x.n ∧ x.ret = 0)

structure Traced.Inv (w : Traced P) : Prop where
  lock : ∀ p, w.s.lock = some p ↔ (w.s.phase p).holding = true
  holds : w.s.Holds w.s.base w.tty
  fits : ∀ p, w.s.Fits (w.got p) (w.s.phase p)
  delivered : w.delivered = w.tty.taken.filter (· ≠ EOF)
  results : ∀ x ∈ w.results, x.Ok w.s
  zero : w.results.countP Result.zero + w.s.ending = w.tty.taken.count EOF

variable {n : ℤ} {c : UInt8}

namespace Cons

variable {s s' : Cons P} {p : P} {ph : Phase} {l : List UInt8}

/-- `base` and `ending`, read off from where the holder of the lock is. -/
theorem base_none (h : s.lock = none) : s.base = s.r := by
  rw [base, h]

theorem base_held (h : s.lock = some p) (hph : s.phase p = ph)
    (hgot : ∀ target n c, ph ≠ .got target n c) : s.base = s.r := by
  simp only [base, h, hph]

theorem base_got {target : ℤ} (h : s.lock = some p)
    (hph : s.phase p = .got target n c) : s.base = s.r - 1 := by
  simp only [base, h, hph]

theorem ending_none (h : s.lock = none) : s.ending = 0 := by
  rw [ending, h]

theorem ending_held (h : s.lock = some p) (hph : s.phase p = ph) :
    s.ending = (Phase.empty ph).toNat := by
  simp only [ending, h, hph]

/-- Who does not hold the lock does not look at the buffer. -/
theorem Fits.of_not_holding (h : s.Fits l ph) (hph : ph.holding = false) :
    s'.Fits l ph := by
  unfold Phase.holding at hph
  split at hph
  · exact h
  · exact h
  · exact h
  · cases hph

theorem Fits.congr (h : s.Fits l ph) (hbuf : s'.buf = s.buf) (hr : s'.r = s.r)
    (hw : s'.w = s.w) : s'.Fits l ph := by
  cases ph with
  | fetch target n =>
    unfold Fits at h ⊢
    rw [hr, hw]
    exact h
  | got target n c =>
    unfold Fits char at h ⊢
    rw [hr, hw, hbuf]
    exact h
  | returned ret | enter n | loop target n | wait target n | sleep target n
  | leave target n => exact h

/-- A reader uses a character up. -/
theorem Holds.pop {b : UInt32} {t : Tty} (h : s.Holds b t) (hne : b ≠ s.w) :
    s.Holds (b + 1) { t with taken := t.taken ++ [s.char b] } := by
  have hsucc := s.chars_succ hne
  have hlen := congrArg List.length hsucc
  rw [length_chars, List.length_cons, length_chars] at hlen
  have hroom := h.room
  constructor
  · show t.log = t.taken ++ [s.char b] ++ s.chars (b + 1) s.w
    rw [h.log, hsucc, List.append_assoc]
    rfl
  · exact h.line
  · omega
  · exact h.open_

/-- `consoleintr` leaves the readers alone. -/
theorem consoleintr_frame (s : Cons P) (c : UInt8) :
    (s.consoleintr c).lock = s.lock ∧ (s.consoleintr c).phase = s.phase ∧
      (s.consoleintr c).r = s.r ∧ (s.consoleintr c).killed = s.killed := by
  unfold consoleintr store commit
  dsimp only
  split_ifs <;> exact ⟨rfl, rfl, rfl, rfl⟩

end Cons

namespace Traced

variable {w : Traced P} {s' : Cons P} {p : P} {op : Op P}
  {taken given : List UInt8} {rets : List (Result P)}

/-- What a step uses up, hands to its caller and returns. -/
structure Effect (w : Traced P) (op : Op P) (taken given : List UInt8)
    (rets : List (Result P)) : Prop where
  takes : w.s.takes op = taken
  delivers : w.s.delivers op = given
  returns : w.s.returns w.got op = rets

variable [DecidableEq P]

/-- The state after a step of the console to `s'`. -/
def after (w : Traced P) (s' : Cons P) (op : Op P) : Traced P where
  s := s'
  tty := w.nextTty op
  delivered := w.delivered ++ w.s.delivers op
  got := w.nextGot op
  results := w.results ++ w.s.returns w.got op

omit [DecidableEq P] in
theorem taken_nextTty (w : Traced P) (op : Op P) :
    (w.nextTty op).taken = w.tty.taken ++ w.s.takes op := by
  cases op with
  | intr c => exact (Tty.taken_type ..).trans (List.append_nil _).symm
  | read | run | kkill => rfl

/-- What a step has to show, and what its effect settles. -/
theorem Inv.of_effect (h : w.Inv) (heff : w.Effect op taken given rets)
    (hlock : ∀ q, s'.lock = some q ↔ (s'.phase q).holding = true)
    (hholds : s'.Holds s'.base (w.nextTty op))
    (hfits : ∀ q, s'.Fits (w.nextGot op q) (s'.phase q))
    (hkilled : ∀ q, w.s.killed q = true → s'.killed q = true)
    (hgiven : given = taken.filter (· ≠ EOF)) (hrets : ∀ x ∈ rets, x.Ok w.s)
    (hzero : rets.countP Result.zero + s'.ending =
      w.s.ending + taken.count EOF) : (w.after s' op).Inv := by
  refine ⟨hlock, hholds, hfits, ?_, ?_, ?_⟩
  · show w.delivered ++ w.s.delivers op = (w.nextTty op).taken.filter _
    rw [taken_nextTty, heff.takes, heff.delivers, List.filter_append,
      ← h.delivered, hgiven]
  · intro x hx
    have hx : x ∈ w.results ++ w.s.returns w.got op := hx
    rw [heff.returns] at hx
    have hok : x.Ok w.s := (List.mem_append.mp hx).elim (h.results x) (hrets x)
    exact ⟨hok.ret.imp_right fun hret => ⟨hret.1, hkilled x.p hret.2⟩, hok.line,
      hok.eof⟩
  · show (w.results ++ w.s.returns w.got op).countP Result.zero + s'.ending =
      (w.nextTty op).taken.count EOF
    have hcount := h.zero
    rw [taken_nextTty, heff.takes, heff.returns, List.countP_append,
      List.count_append]
    omega

variable {ph : Phase} {copied : Bool}

/-- A step of one reader, which holds the lock or takes it. -/
theorem Inv.move (h : w.Inv) (heff : w.Effect (.run p copied) taken given rets)
    (hp : w.s.lock = none ∨ w.s.lock = some p)
    (hphase : s'.phase = Function.update w.s.phase p ph)
    (hlock : ∀ q, s'.lock = some q ↔
      (Function.update w.s.phase p ph q).holding = true)
    (hbuf : s'.buf = w.s.buf ∧ s'.w = w.s.w ∧ s'.e = w.s.e)
    (hkilled : s'.killed = w.s.killed)
    (hholds : w.s.Holds s'.base { w.tty with taken := w.tty.taken ++ taken })
    (hfits : s'.Fits (w.got p ++ given) ph)
    (hgiven : given = taken.filter (· ≠ EOF)) (hrets : ∀ x ∈ rets, x.Ok w.s)
    (hzero : rets.countP Result.zero + s'.ending =
      w.s.ending + taken.count EOF) : (w.after s' (.run p copied)).Inv := by
  refine h.of_effect heff (fun q => hphase ▸ hlock q) ?_ ?_
    (fun q => hkilled ▸ id) hgiven hrets hzero
  · rw [← heff.takes] at hholds
    exact hholds.congr hbuf.1 hbuf.2.1 hbuf.2.2
  · intro q
    rw [nextGot, heff.delivers, hphase]
    by_cases hq : q = p
    · rw [hq, Function.update_self, Function.update_self]
      exact hfits
    · -- nobody but the process that runs holds the lock
      rw [Function.update_of_ne hq, Function.update_of_ne hq]
      refine (h.fits q).of_not_holding ?_
      by_contra hheld
      have hq' := (h.lock q).mpr (by simpa using hheld)
      rcases hp with hp | hp
      · rw [hp] at hq'
        cases hq'
      · rw [hp] at hq'
        exact hq (Option.some.inj hq').symm

/-- A step that uses up no character and does not return. -/
theorem Inv.quiet (h : w.Inv) (heff : w.Effect (.run p copied) [] [] [])
    (hp : w.s.lock = none ∨ w.s.lock = some p)
    (hphase : s'.phase = Function.update w.s.phase p ph)
    (hlock : ∀ q, s'.lock = some q ↔
      (Function.update w.s.phase p ph q).holding = true)
    (hbuf : s'.buf = w.s.buf ∧ s'.w = w.s.w ∧ s'.e = w.s.e)
    (hkilled : s'.killed = w.s.killed) (hbase : s'.base = w.s.base)
    (hending : s'.ending = w.s.ending) (hfits : s'.Fits (w.got p) ph) :
    (w.after s' (.run p copied)).Inv := by
  refine h.move heff hp hphase hlock hbuf hkilled ?_ ?_ rfl ?_ ?_
  · rw [hbase, List.append_nil]
    exact h.holds
  · rw [List.append_nil]
    exact hfits
  · intro x hx
    cases hx
  · rw [hending]
    exact Nat.zero_add _

/-- The holder of the lock goes on. -/
theorem Inv.goto (h : w.Inv) {ph₀ : Phase} (hph : w.s.phase p = ph₀)
    (hhold : ph₀.holding = true) (hhold' : ph.holding = true)
    (hgot₀ : ∀ target n c, ph₀ ≠ .got target n c)
    (hgot : ∀ target n c, ph ≠ .got target n c)
    (heff : w.Effect (.run p copied) [] [] [])
    (hempty : Cons.Phase.empty ph = Cons.Phase.empty ph₀)
    (hfits : w.s.Fits (w.got p) ph) :
    (w.after (w.s.setPhase p ph) (.run p copied)).Inv := by
  have hlock : w.s.lock = some p := (h.lock p).mpr (by rw [hph, hhold])
  have hphase : (w.s.setPhase p ph).phase p = ph := Function.update_self ..
  refine h.quiet heff (Or.inr hlock) rfl (held_update h.lock ?_) ⟨rfl, rfl, rfl⟩
    rfl ?_ ?_ (hfits.congr rfl rfl rfl)
  · rw [hph, hhold, hhold']
  · rw [Cons.base_held hlock hph hgot₀]
    exact Cons.base_held hlock hphase hgot
  · rw [Cons.ending_held hlock hph]
    rw [Cons.ending_held (s := w.s.setPhase p ph) hlock hphase, hempty]

/-- A process acquires the lock. -/
theorem Inv.acquire (h : w.Inv) (hacq : w.s.acquire p ph = .ok s')
    (hhold' : ph.holding = true) (hgot : ∀ target n c, ph ≠ .got target n c)
    (heff : w.Effect (.run p copied) [] [] [])
    (hempty : Cons.Phase.empty ph = false) (hfits : w.s.Fits (w.got p) ph) :
    (w.after s' (.run p copied)).Inv := by
  unfold Cons.acquire at hacq
  split at hacq
  · rename_i hfree
    cases hacq
    have hphase : (Function.update w.s.phase p ph) p = ph :=
      Function.update_self ..
    refine h.quiet heff (Or.inl hfree) rfl (held_acquire h.lock hfree hhold')
      ⟨rfl, rfl, rfl⟩ rfl ?_ ?_ (hfits.congr rfl rfl rfl)
    · rw [Cons.base_none hfree]
      exact Cons.base_held rfl hphase hgot
    · rw [Cons.ending_none hfree]
      refine (Cons.ending_held rfl hphase).trans ?_
      rw [hempty]
      rfl
  · cases hacq

/-- A reader uses up the character it has taken out of the buffer. -/
theorem Inv.consume (h : w.Inv) {target : ℤ}
    (hph : w.s.phase p = .got target n c)
    (heff : w.Effect (.run p true) [c] given [])
    (hgot : ∀ target n c, ph ≠ .got target n c) (hhold : ph.holding = true)
    (hgiven : given = if c = EOF then [] else [c])
    (hempty : Cons.Phase.empty ph = decide (c = EOF))
    (hfits : w.s.Fits (w.got p ++ given) ph) :
    (w.after (w.s.setPhase p ph) (.run p true)).Inv := by
  have hlock : w.s.lock = some p := (h.lock p).mpr (by rw [hph]; rfl)
  have hphase : (w.s.setPhase p ph).phase p = ph := Function.update_self ..
  have hfits₀ := h.fits p
  rw [hph] at hfits₀
  obtain ⟨-, -, -, -, hchar, hne⟩ := hfits₀
  have hback : w.s.r - 1 + 1 = w.s.r := UInt32.sub_add_cancel ..
  refine h.move heff (Or.inr hlock) rfl
    (held_update h.lock (by rw [hph, hhold]; rfl)) ⟨rfl, rfl, rfl⟩ rfl ?_
    (hfits.congr rfl rfl rfl) ?_ (fun x hx => by cases hx) ?_
  · have hpop := h.holds
    rw [Cons.base_got hlock hph] at hpop
    have hpop := hpop.pop hne
    rw [hback, hchar] at hpop
    rwa [Cons.base_held (s := w.s.setPhase p ph) hlock hphase hgot]
  · rw [hgiven]
    by_cases hc : c = EOF <;> simp [hc]
  · rw [Cons.ending_held hlock hph,
      Cons.ending_held (s := w.s.setPhase p ph) hlock hphase, hempty]
    by_cases hc : c = EOF <;> simp [hc, Cons.Phase.empty]

/-- The holder of the lock returns. -/
theorem Inv.finish (h : w.Inv) {x : Result P} (hph : w.s.phase p = ph)
    (hhold : ph.holding = true) (hgot : ∀ target n c, ph ≠ .got target n c)
    (heff : w.Effect (.run p copied) [] [] [x])
    (hzero : x.zero = Cons.Phase.empty ph) (hok : x.Ok w.s) (ret : ℤ) :
    (w.after (w.s.release p (.returned ret)) (.run p copied)).Inv := by
  have hlock : w.s.lock = some p := (h.lock p).mpr (by rw [hph, hhold])
  refine h.move heff (Or.inr hlock) rfl
    (held_release h.lock (by rw [hph, hhold]) rfl) ⟨rfl, rfl, rfl⟩ rfl ?_ trivial
    rfl (fun y hy => List.mem_singleton.mp hy ▸ hok) ?_
  · rw [Cons.base_none rfl, List.append_nil]
    have hholds := h.holds
    rwa [Cons.base_held hlock hph hgot] at hholds
  · rw [Cons.ending_held hlock hph, Cons.ending_none rfl,
      List.countP_singleton, hzero]
    cases Cons.Phase.empty ph <;> rfl

/-- A reader takes a character out, or puts a control-D back. -/
theorem Inv.shift (h : w.Inv) {ph₀ : Phase} {r : UInt32}
    (hph : w.s.phase p = ph₀) (hhold : ph₀.holding = true)
    (hhold' : ph.holding = true)
    (hbase : ({ w.s with r := r }.setPhase p ph).base = w.s.base)
    (heff : w.Effect (.run p copied) [] [] [])
    (hempty : Cons.Phase.empty ph = Cons.Phase.empty ph₀)
    (hfits : { w.s with r := r }.Fits (w.got p) ph) :
    (w.after ({ w.s with r := r }.setPhase p ph) (.run p copied)).Inv := by
  have hlock : w.s.lock = some p := (h.lock p).mpr (by rw [hph, hhold])
  refine h.quiet heff (Or.inr hlock) rfl (held_update h.lock ?_) ⟨rfl, rfl, rfl⟩
    rfl hbase ?_ (hfits.congr rfl rfl rfl)
  · rw [hph, hhold, hhold']
  · rw [Cons.ending_held hlock hph, ← hempty]
    exact Cons.ending_held (s := { w.s with r := r }.setPhase p ph) hlock
      (Function.update_self ..)

omit [DecidableEq P] in
/-- Away from the decision about a character, and from the return, nothing is
used up. -/
theorem effect_nil (hph : w.s.phase p = ph)
    (hgot : ∀ target n c, ph ≠ .got target n c)
    (hleave : ∀ target n, ph ≠ .leave target n)
    (hwait : ∀ target n, ph = .wait target n →
      ¬ (w.s.r = w.s.w ∧ w.s.killed p = true)) :
    w.Effect (.run p copied) [] [] [] := by
  constructor <;> cases ph <;>
    simp_all [Cons.takes, Cons.delivers, Cons.returns]

/-- The loop of `consoleread`, after it has taken a character. -/
theorem Inv.got {target n : ℤ} {c : UInt8} (h : w.Inv)
    (hph : w.s.phase p = .got target n c) (hrun : w.s.run p true = .ok s') :
    (w.after s' (.run p true)).Inv := by
  have hfits := h.fits p
  simp only [Cons.run, hph] at hrun hfits
  obtain ⟨hlen, hnl, heof, hn, hchar, hne⟩ := hfits
  have hlock : w.s.lock = some p := (h.lock p).mpr (by rw [hph]; rfl)
  split at hrun
  · rename_i hc
    split at hrun
    · rename_i hlt
      cases hrun
      refine h.shift hph rfl rfl ?_ ?_ ?_
        ⟨hlen, mt List.mem_of_mem_dropLast hnl, heof⟩
      · rw [Cons.base_got hlock hph]
        exact Cons.base_held (s := { w.s with r := w.s.r - 1 }.setPhase p
          (.leave target n)) hlock (Function.update_self ..) (by simp)
      · constructor <;> simp [Cons.takes, Cons.delivers, Cons.returns, hph, hc,
          hlt]
      · simp only [Cons.Phase.empty, decide_eq_false_iff_not]
        omega
    · rename_i hlt
      cases hrun
      have heff : w.Effect (.run p true) [c] [] [] := by
        constructor <;> simp [Cons.takes, Cons.delivers, Cons.returns, hph, hc,
          hlt]
      refine h.consume hph heff (by simp) rfl (by rw [if_pos hc]) ?_ ?_
      · have hall : 0 < target ∧ target = n := by omega
        simp only [Cons.Phase.empty]
        rw [decide_eq_true hall, decide_eq_true hc]
      · rw [List.append_nil]
        exact ⟨hlen, mt List.mem_of_mem_dropLast hnl, heof⟩
  · rename_i hc
    have heff : w.Effect (.run p true) [c] [c] [] := by
      constructor <;> simp [Cons.takes, Cons.delivers, Cons.returns, hph, hc]
    have hlen' : ((w.got p ++ [c]).length : ℤ) = target - (n - 1) := by
      rw [List.length_append, List.length_singleton]
      push_cast
      omega
    have heof' : EOF ∉ w.got p ++ [c] := by
      rw [List.mem_append, List.mem_singleton, not_or]
      exact ⟨heof, Ne.symm hc⟩
    rw [if_pos trivial] at hrun
    split at hrun
    · cases hrun
      refine h.consume hph heff (by simp) rfl (by rw [if_neg hc]) ?_
        ⟨hlen', ?_, heof'⟩
      · simp only [Cons.Phase.empty]
        rw [decide_eq_false hc, decide_eq_false_iff_not]
        rw [List.length_append, List.length_singleton] at hlen'
        push_cast at hlen'
        omega
      · rw [List.dropLast_concat]
        exact hnl
    · rename_i hnl'
      cases hrun
      refine h.consume hph heff (by simp) rfl (by rw [if_neg hc])
        (by simp [Cons.Phase.empty, hc]) ⟨hlen', ?_, heof'⟩
      rw [List.mem_append, List.mem_singleton, not_or]
      exact ⟨hnl, Ne.symm hnl'⟩

theorem Inv.run (h : w.Inv) (hrun : w.s.run p true = .ok s') :
    (w.after s' (.run p true)).Inv := by
  have hfits := h.fits p
  cases hph : w.s.phase p
  case got target n c => exact h.got hph hrun
  all_goals simp only [Cons.run, hph] at hrun hfits
  case returned => cases hrun
  case enter n =>
    obtain hfits : w.got p = [] := hfits
    refine h.acquire hrun rfl (by simp) (effect_nil hph ?_ ?_ ?_) rfl ?_
    all_goals simp [Cons.Fits, hfits]
  case loop target n =>
    obtain ⟨hlen, hnl, heof⟩ := hfits
    have heff : w.Effect (.run p true) [] [] [] := by
      refine effect_nil hph ?_ ?_ ?_ <;> simp
    split at hrun
    · rename_i hn
      cases hrun
      exact h.goto hph rfl rfl (by simp) (by simp) heff rfl ⟨hlen, hnl, heof, hn⟩
    · rename_i hn
      cases hrun
      refine h.goto hph rfl rfl (by simp) (by simp) heff ?_
        ⟨hlen, mt List.mem_of_mem_dropLast hnl, heof⟩
      simp only [Cons.Phase.empty, decide_eq_false_iff_not]
      omega
  case wait target n =>
    obtain ⟨hlen, hnl, heof, hn⟩ := hfits
    split at hrun
    · rename_i hrw
      split at hrun
      · rename_i hkilled
        cases hrun
        refine h.finish (x := ⟨p, target, -1, w.got p⟩) hph rfl (by simp) ?_
          (by simp [Result.zero, Cons.Phase.empty])
          ⟨Or.inr ⟨rfl, hkilled⟩, mt List.mem_of_mem_dropLast hnl, heof⟩ (-1)
        constructor <;> simp [Cons.takes, Cons.delivers, Cons.returns, hph, hrw,
          hkilled]
      · rename_i hkilled
        cases hrun
        have hlock : w.s.lock = some p := (h.lock p).mpr (by rw [hph]; rfl)
        refine h.quiet
          (effect_nil hph (by simp) (by simp) (by simp [hkilled])) (Or.inr hlock)
          rfl (held_release h.lock (by rw [hph]; rfl) rfl) ⟨rfl, rfl, rfl⟩ rfl
          ?_ ?_ ⟨hlen, hnl, heof, hn⟩
        · rw [Cons.base_held hlock hph (by simp)]
          exact Cons.base_none rfl
        · rw [Cons.ending_held hlock hph]
          exact Cons.ending_none rfl
    · rename_i hrw
      cases hrun
      exact h.goto hph rfl rfl (by simp) (by simp)
        (effect_nil hph (by simp) (by simp) (by simp [hrw])) rfl
        ⟨hlen, hnl, heof, hn, hrw⟩
  case sleep target n =>
    split at hrun
    · cases hrun
    · exact h.acquire hrun rfl (by simp)
        (effect_nil hph (by simp) (by simp) (by simp)) rfl hfits
  case fetch target n =>
    obtain ⟨hlen, hnl, heof, hn, hne⟩ := hfits
    cases hrun
    have hlock : w.s.lock = some p := (h.lock p).mpr (by rw [hph]; rfl)
    have hback : w.s.r + 1 - 1 = w.s.r := UInt32.add_sub_cancel ..
    refine h.shift hph rfl rfl ?_ (effect_nil hph (by simp) (by simp) (by simp))
      rfl ⟨hlen, hnl, heof, hn, ?_, ?_⟩
    · rw [Cons.base_held hlock hph (by simp)]
      exact (Cons.base_got (s := { w.s with r := w.s.r + 1 }.setPhase p
        (.got target n (w.s.char w.s.r))) hlock
          (Function.update_self ..)).trans hback
    · show w.s.char (w.s.r + 1 - 1) = w.s.char w.s.r
      rw [hback]
    · show w.s.r + 1 - 1 ≠ w.s.w
      rwa [hback]
  case leave target n =>
    obtain ⟨hlen, hnl, heof⟩ := hfits
    cases hrun
    refine h.finish (x := ⟨p, target, target - n, w.got p⟩) hph rfl (by simp) ?_
      ?_ ⟨Or.inl hlen, hnl, heof⟩ _
    · constructor <;> simp [Cons.takes, Cons.delivers, Cons.returns, hph]
    · simp only [Result.zero, Cons.Phase.empty, decide_eq_decide]
      omega

theorem Inv.intr (h : w.Inv) (hlock : w.s.lock = none) (c : UInt8) :
    (w.after (w.s.consoleintr c) (.intr c)).Inv := by
  obtain ⟨hlock', hphase, hr, hkilled⟩ := w.s.consoleintr_frame c
  have hholds := h.holds
  rw [Cons.base_none hlock] at hholds
  refine h.of_effect ⟨rfl, rfl, rfl⟩ ?_ ?_ ?_ (fun q => hkilled ▸ id) rfl
    (fun x hx => by cases hx) ?_
  · intro p
    rw [hlock', hphase]
    exact h.lock p
  · rw [Cons.base_none (hlock'.trans hlock), hr]
    exact hholds.consoleintr c
  · intro p
    rw [hphase]
    refine (h.fits p).of_not_holding ?_
    by_contra hheld
    have hp := (h.lock p).mpr (by simpa using hheld)
    rw [hlock] at hp
    cases hp
  · rw [Cons.ending_none hlock, Cons.ending_none (hlock'.trans hlock)]
    rfl

theorem Inv.read (h : w.Inv) (hread : w.s.read p n = .ok s') :
    (w.after s' (.read p n)).Inv := by
  unfold Cons.read at hread
  split at hread
  · rename_i ret hph
    cases hread
    have hsame : ∀ q, w.s.lock = some q →
        (w.s.setPhase p (.enter n)).phase q = w.s.phase q := by
      refine fun q hq => Function.update_of_ne ?_ ..
      rintro rfl
      rw [h.lock, hph] at hq
      cases hq
    have hheld : (w.s.setPhase p (.enter n)).base = w.s.base ∧
        (w.s.setPhase p (.enter n)).ending = w.s.ending := by
      unfold Cons.base Cons.ending
      rw [show (w.s.setPhase p (.enter n)).lock = w.s.lock from rfl]
      cases hl : w.s.lock with
      | none => exact ⟨rfl, rfl⟩
      | some q =>
        simp only [hsame q hl]
        exact ⟨rfl, trivial⟩
    refine h.of_effect ⟨rfl, rfl, rfl⟩ (held_update h.lock (by rw [hph]; rfl)) ?_
      ?_ (fun _ => id) rfl (fun x hx => by cases hx) ?_
    · show Cons.Holds _ _ { w.tty with taken := w.tty.taken ++ [] }
      rw [hheld.1, List.append_nil]
      exact h.holds.congr rfl rfl rfl
    · intro q
      show (w.s.setPhase p (.enter n)).Fits (Function.update w.got p [] q)
        (Function.update w.s.phase p (.enter n) q)
      by_cases hq : q = p
      · rw [hq, Function.update_self, Function.update_self]
        rfl
      · rw [Function.update_of_ne hq, Function.update_of_ne hq]
        exact (h.fits q).congr rfl rfl rfl
    · rw [hheld.2]
      exact Nat.zero_add _
  · cases hread

theorem Inv.step (h : w.Inv) {w' : Traced P} (hcopies : op.Copies)
    (hstep : w.step op = .ok w') : w'.Inv := by
  obtain ⟨s', hs, hstep⟩ := bind_ok_iff.mp hstep
  cases hstep
  show (w.after s' op).Inv
  cases op with
  | intr c =>
    simp only [Cons.step] at hs
    split at hs
    · rename_i hlock
      cases hs
      exact h.intr hlock c
    · cases hs
  | read p n => exact h.read hs
  | run p copied =>
    obtain rfl : copied = true := hcopies
    exact h.run hs
  | kkill p =>
    cases hs
    refine h.of_effect ⟨rfl, rfl, rfl⟩ h.lock ?_
      (fun q => (h.fits q).congr rfl rfl rfl) ?_ rfl (fun x hx => by cases hx)
      (Nat.zero_add _)
    · show Cons.Holds _ w.s.base { w.tty with taken := w.tty.taken ++ [] }
      rw [List.append_nil]
      exact h.holds.congr rfl rfl rfl
    · intro q hkilled
      show Function.update w.s.killed p true q = true
      by_cases hq : q = p
      · rw [hq, Function.update_self]
      · rwa [Function.update_of_ne hq]

omit [DecidableEq P] in
theorem Inv.start : ({} : Traced P).Inv where
  lock p := by simp [Phase.holding]
  holds := by
    refine ⟨?_, ?_, ?_, List.not_mem_nil⟩
    · show [] = [] ++ Cons.chars _ 0 0
      rw [Cons.chars_self]
      rfl
    · exact (Cons.chars_self _ 0).symm
    · show ((0 : UInt32) - 0).toNat + ((0 : UInt32) - 0).toNat ≤ INPUT_BUF_SIZE
      decide
  fits p := trivial
  delivered := rfl
  results x hx := by cases hx
  zero := rfl

end Traced

/-! ## The theorem -/

/-- What the console promises in every state. -/
structure Disciplined [DecidableEq P] (w : Traced P) : Prop where
  room : (w.s.e - w.s.r).toNat ≤ INPUT_BUF_SIZE
  between : (w.s.w - w.s.r).toNat ≤ (w.s.e - w.s.r).toNat
  /-- Only the line that is not committed can be erased. -/
  erases : ∀ c s', c = BACKSPACE ∨ c = DELETE ∨ c = KILL →
    w.s.step (.intr c) = .ok s' →
    s'.r = w.s.r ∧ s'.w = w.s.w ∧ s'.buf = w.s.buf ∧
      s'.chars s'.w s'.e <+: w.s.chars w.s.w w.s.e
  /-- The buffer holds the committed input that is not used up, and the
  line. -/
  refines : w.s.lock = none →
    w.tty.log = w.tty.taken ++ w.s.chars w.s.r w.s.w ∧
      w.tty.line = w.s.chars w.s.w w.s.e
  /-- Reads use up the committed input in order, each character once, and
  hand out all of it but the control-Ds. -/
  order : w.tty.taken <+: w.tty.log
  delivered : w.delivered = w.tty.taken.filter (· ≠ EOF)
  results : ∀ x ∈ w.results, x.Ok w.s
  /-- A control-D ends the read that reaches it. -/
  eofEnds : ∀ p target n copied s', w.s.phase p = .got target n EOF →
    w.s.run p copied = .ok s' → s'.phase p = .leave target n
  /-- A control-D that is used up is one read of some bytes that gets none. -/
  zero : w.s.lock = none →
    w.results.countP Result.zero = w.tty.taken.count EOF

namespace Cons

variable {s : Cons P} {b : UInt32} {t : Tty}

theorem Holds.bounds (h : s.Holds b t) :
    (s.e - b).toNat ≤ INPUT_BUF_SIZE ∧ (s.w - b).toNat ≤ (s.e - b).toNat := by
  have hspan := h.span_eq
  have hroom := h.room
  omega

/-- The same, when a character has been taken out. -/
theorem Holds.bounds_succ (h : s.Holds b t) (hne : b ≠ s.w) :
    (s.e - (b + 1)).toNat ≤ INPUT_BUF_SIZE ∧
      (s.w - (b + 1)).toNat ≤ (s.e - (b + 1)).toNat := by
  have hspan := h.span_eq
  have hroom := h.room
  have hw := congrArg List.length (s.chars_succ hne)
  rw [length_chars, List.length_cons, length_chars] at hw
  have hne' : b ≠ s.e := by
    intro heq
    rw [← heq, UInt32.sub_self] at hspan
    have hzero : (0 : UInt32).toNat = 0 := rfl
    omega
  have he := congrArg List.length (s.chars_succ hne')
  rw [length_chars, List.length_cons, length_chars] at he
  omega

/-- The keys that erase leave the committed part of the buffer alone. -/
theorem Holds.erases (h : s.Holds s.r t)
    (hc : c = BACKSPACE ∨ c = DELETE ∨ c = KILL) :
    (s.consoleintr c).r = s.r ∧ (s.consoleintr c).w = s.w ∧
      (s.consoleintr c).buf = s.buf ∧
      (s.consoleintr c).chars (s.consoleintr c).w (s.consoleintr c).e <+:
        s.chars s.w s.e := by
  have hline := (h.consoleintr c).line
  have hparts : (s.consoleintr c).r = s.r ∧ (s.consoleintr c).w = s.w ∧
      (s.consoleintr c).buf = s.buf := by
    unfold Cons.consoleintr
    rcases hc with rfl | rfl | rfl
    · rw [if_neg (by decide), if_neg (by decide), if_pos (by decide)]
      split_ifs <;> exact ⟨rfl, rfl, rfl⟩
    · rw [if_neg (by decide), if_neg (by decide), if_pos (by decide)]
      split_ifs <;> exact ⟨rfl, rfl, rfl⟩
    · rw [if_neg (by decide), if_pos rfl]
      exact ⟨rfl, rfl, rfl⟩
  refine ⟨hparts.1, hparts.2.1, hparts.2.2, ?_⟩
  rw [← hline, ← h.line]
  unfold Tty.type
  rcases hc with rfl | rfl | rfl
  · rw [if_neg (by decide), if_neg (by decide), if_pos (by decide)]
    exact List.dropLast_prefix _
  · rw [if_neg (by decide), if_neg (by decide), if_pos (by decide)]
    exact List.dropLast_prefix _
  · rw [if_neg (by decide), if_pos rfl]
    exact List.nil_prefix

end Cons

theorem Traced.Inv.disciplined [DecidableEq P] {w : Traced P} (h : w.Inv) :
    Disciplined w := by
  have hbounds : (w.s.e - w.s.r).toNat ≤ INPUT_BUF_SIZE ∧
      (w.s.w - w.s.r).toNat ≤ (w.s.e - w.s.r).toNat := by
    have hholds := h.holds
    cases hlock : w.s.lock with
    | none =>
      rw [Cons.base_none hlock] at hholds
      exact hholds.bounds
    | some p =>
      cases hph : w.s.phase p with
      | got target n c =>
        have hfits := h.fits p
        rw [hph] at hfits
        rw [Cons.base_got hlock hph] at hholds
        have hnext := hholds.bounds_succ hfits.2.2.2.2.2
        rwa [UInt32.sub_add_cancel] at hnext
      | returned ret | enter n | loop target n | wait target n
      | sleep target n | fetch target n | leave target n =>
        rw [Cons.base_held hlock hph (by simp)] at hholds
        exact hholds.bounds
  refine ⟨hbounds.1, hbounds.2, ?_, ?_, ?_, h.delivered, h.results, ?_, ?_⟩
  · intro c s' hc hstep
    simp only [Cons.step] at hstep
    split at hstep
    · rename_i hlock
      cases hstep
      have hholds := h.holds
      rw [Cons.base_none hlock] at hholds
      exact hholds.erases hc
    · cases hstep
  · intro hlock
    have hholds := h.holds
    rw [Cons.base_none hlock] at hholds
    exact ⟨hholds.log, hholds.line⟩
  · rw [h.holds.log]
    exact List.prefix_append _ _
  · intro p target n copied s' hph hrun
    simp only [Cons.run, hph] at hrun
    rw [if_pos trivial] at hrun
    split at hrun <;> cases hrun <;> exact Function.update_self ..
  · intro hlock
    have hzero := h.zero
    rwa [Cons.ending_none hlock, Nat.add_zero] at hzero

/-- **The console implements its line discipline**, for any characters that
arrive at any times between the steps of any number of readers, and however
often its counters wrap. -/
theorem console_disciplined [DecidableEq P] {ops : List (Op P)} {w : Traced P}
    (h : Run Traced.step (fun _ op => op.Copies) {} ops w) :
    Disciplined w := by
  have hinv : w.Inv := h.invariant (I := Traced.Inv)
    (fun w op w' hw hcopies hstep => hw.step hcopies hstep) .start
  exact hinv.disciplined

/-- `ab`, backspace and return are typed and read, then `x` and control-D,
and read with two more calls. -/
def session : List (Op (Fin 1)) :=
  [.intr 97, .intr 98, .intr BACKSPACE, .intr CR, .read 0 10] ++
    List.replicate 10 (.run 0 true) ++ [.intr 120, .intr EOF, .read 0 5] ++
    List.replicate 10 (.run 0 true) ++ [.read 0 5] ++
    List.replicate 6 (.run 0 true)

theorem console_disciplined_session : ∃ w : Traced (Fin 1),
    Run Traced.step (fun _ op => op.Copies) {} session w ∧
      w.delivered = [97, NL, 120] ∧ w.results.map Result.ret = [2, 1, 0] ∧
      Disciplined w := by
  obtain ⟨w, hw, htest⟩ := exists_ok_of_any
    (show ((session.foldlM Traced.step {}).toOption.any
      fun w : Traced (Fin 1) => decide (w.delivered = [97, NL, 120] ∧
        w.results.map Result.ret = [2, 1, 0])) = true by decide +kernel)
  have hcopies : ∀ op ∈ session, op.Copies := by
    simp [session, Op.Copies]
  have hrun : Run Traced.step (fun _ op => op.Copies) {} session w :=
    Run.of_foldlM (fun _ op hop => hcopies op hop) hw
  obtain ⟨hdelivered, hrets⟩ := of_decide_eq_true htest
  exact ⟨w, hrun, hdelivered, hrets, console_disciplined hrun⟩

end Xv6.Console
