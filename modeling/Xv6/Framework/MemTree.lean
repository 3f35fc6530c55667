import Mathlib

/-!
# Trees of pages in a memory

A memory gives each page address a row of `n` words. A word may point to a
page below. The tree of depth `l` at a page consists of the pages its words
reach in `l` steps; the words of the lowest pages are data. One index for
each level leads to a slot of a lowest page.

What a tree looks like depends only on its upper pages, so writing a slot
changes no path; and when no page occurs twice, different indices lead to
different slots.
-/

namespace Xv6.Framework.MemTree

variable {α ω : Type*} {n : ℕ} (child : ω → Option α)

/-- The pages of the tree of depth `l` at `p`. -/
def pages (m : α → Fin n → ω) : ℕ → α → List α
  | 0, p => [p]
  | l + 1, p => p :: (List.finRange n).flatMap fun i =>
      ((child (m p i)).map (pages m l)).getD []

/-- The slot of a lowest page that the indices lead to. -/
def slot (m : α → Fin n → ω) (ix : ℕ → Fin n) : ℕ → α → Option (α × Fin n)
  | 0, p => some (p, ix 0)
  | l + 1, p => (child (m p (ix (l + 1)))).bind (slot m ix l)

/-- The word in that slot, and `w` if there is none. -/
def value (w : ω) (m : α → Fin n → ω) (ix : ℕ → Fin n) (l : ℕ) (p : α) : ω :=
  ((slot child m ix l p).map fun s => m s.1 s.2).getD w

/-- `q` is a page of the tree that is not a lowest one. -/
def Upper (m : α → Fin n → ω) : ℕ → α → α → Prop
  | 0, _, _ => False
  | l + 1, p, q => q = p ∨ ∃ i c, child (m p i) = some c ∧ Upper m l c q

/-- Every pointer of an upper page is `good`. -/
def Pointers (good : ω → Prop) (m : α → Fin n → ω) : ℕ → α → Prop
  | 0, _ => True
  | l + 1, p => ∀ i c, child (m p i) = some c →
      good (m p i) ∧ Pointers good m l c

variable {child} {m m' : α → Fin n → ω} {l : ℕ} {p q c : α} {w : ω}

theorem mem_pages_succ : q ∈ pages child m (l + 1) p ↔
    q = p ∨ ∃ i c, child (m p i) = some c ∧ q ∈ pages child m l c := by
  rw [pages, List.mem_cons]
  apply or_congr_right
  rw [List.mem_flatMap]
  constructor
  · rintro ⟨i, -, hi⟩
    cases hc : child (m p i) with
    | none =>
      rw [hc] at hi
      exact absurd hi List.not_mem_nil
    | some c =>
      rw [hc] at hi
      exact ⟨i, c, hc, hi⟩
  · rintro ⟨i, c, hc, hq⟩
    refine ⟨i, List.mem_finRange i, ?_⟩
    rw [hc]
    exact hq

theorem self_mem_pages : p ∈ pages child m l p := by
  cases l with
  | zero => exact List.mem_singleton_self p
  | succ l => exact List.mem_cons_self

theorem mem_pages_of_child {i : Fin n} (hc : child (m p i) = some c)
    (hq : q ∈ pages child m l c) : q ∈ pages child m (l + 1) p :=
  mem_pages_succ.mpr (Or.inr ⟨i, c, hc, hq⟩)

theorem Upper.mem_pages : ∀ {l : ℕ} {p : α}, Upper child m l p q →
    q ∈ pages child m l p
  | l + 1, p, h => by
    rcases h with rfl | ⟨i, c, hc, h⟩
    · exact self_mem_pages
    · exact mem_pages_of_child hc h.mem_pages

variable {ix : ℕ → Fin n}

theorem slot_mem {k : Fin n} : ∀ {l : ℕ} {p : α},
    slot child m ix l p = some (q, k) → q ∈ pages child m l p ∧ k = ix 0
  | 0, p, h => by
    cases h
    exact ⟨self_mem_pages, rfl⟩
  | l + 1, p, h => by
    rw [slot, Option.bind_eq_some_iff] at h
    obtain ⟨c, hc, h⟩ := h
    obtain ⟨hq, hk⟩ := slot_mem h
    exact ⟨mem_pages_of_child hc hq, hk⟩

/-! ## No page twice -/

/-- The trees below a page are apart from it and from each other. -/
structure Apart (child : ω → Option α) (m : α → Fin n → ω) (l : ℕ)
    (p : α) : Prop where
  self : ∀ i c, child (m p i) = some c → p ∉ pages child m l c
  nodup : ∀ i c, child (m p i) = some c → (pages child m l c).Nodup
  disjoint : ∀ i j c d, i ≠ j → child (m p i) = some c →
    child (m p j) = some d → ∀ q ∈ pages child m l c, q ∉ pages child m l d

theorem Apart.of_nodup (h : (pages child m (l + 1) p).Nodup) :
    Apart child m l p := by
  rw [pages, List.nodup_cons, List.nodup_flatMap] at h
  obtain ⟨hself, hnodup, hpair⟩ := h
  have hrow : ∀ {i c}, child (m p i) = some c →
      ((child (m p i)).map (pages child m l)).getD [] = pages child m l c := by
    intro i c hc
    rw [hc]
    rfl
  constructor
  · intro i c hc hp
    apply hself
    rw [List.mem_flatMap]
    exact ⟨i, List.mem_finRange i, by rw [hrow hc]; exact hp⟩
  · intro i c hc
    rw [← hrow hc]
    exact hnodup i (List.mem_finRange i)
  · intro i j c d hij hc hd q hq hq'
    have hsymm : Std.Symm (Function.onFun List.Disjoint fun i =>
        ((child (m p i)).map (pages child m l)).getD []) :=
      ⟨fun _ _ h => List.Disjoint.symm h⟩
    have hdis := hpair.forall (List.mem_finRange i) (List.mem_finRange j) hij
    rw [Function.onFun, hrow hc, hrow hd] at hdis
    exact hdis hq hq'

/-- A slot lies in a lowest page. -/
theorem not_upper_of_slot {k : Fin n} : ∀ {l : ℕ} {p : α},
    (pages child m l p).Nodup → slot child m ix l p = some (q, k) →
      ¬ Upper child m l p q
  | 0, _, _, _, hup => hup
  | l + 1, p, hnodup, hslot, hup => by
    have hapart := Apart.of_nodup hnodup
    rw [slot, Option.bind_eq_some_iff] at hslot
    obtain ⟨c, hc, hslot⟩ := hslot
    have hq := (slot_mem hslot).1
    rcases hup with rfl | ⟨i, d, hd, hup⟩
    · exact hapart.self _ c hc hq
    · by_cases hi : i = ix (l + 1)
      · subst hi
        rw [hc] at hd
        cases hd
        exact not_upper_of_slot (hapart.nodup _ c hc) hslot hup
      · exact hapart.disjoint _ _ d c hi hd hc q hup.mem_pages hq

/-- Different indices lead to different slots. -/
theorem slot_inj {ix' : ℕ → Fin n} {s : α × Fin n} : ∀ {l : ℕ} {p : α},
    (pages child m l p).Nodup → slot child m ix l p = some s →
      slot child m ix' l p = some s → ∀ j ≤ l, ix j = ix' j
  | 0, p, _, h, h', j, hj => by
    cases Nat.le_zero.mp hj
    cases h
    injection h' with h'
    exact (congrArg Prod.snd h').symm
  | l + 1, p, hnodup, h, h', j, hj => by
    have hapart := Apart.of_nodup hnodup
    rw [slot, Option.bind_eq_some_iff] at h h'
    obtain ⟨c, hc, h⟩ := h
    obtain ⟨d, hd, h'⟩ := h'
    obtain ⟨q, k⟩ := s
    -- both paths enter the tree that the page of the slot is in
    have htop : ix (l + 1) = ix' (l + 1) := by
      by_contra hne
      exact hapart.disjoint _ _ c d hne hc hd q (slot_mem h).1 (slot_mem h').1
    rw [← htop, hc] at hd
    cases hd
    rcases Nat.lt_or_eq_of_le hj with hj | rfl
    · exact slot_inj (hapart.nodup _ c hc) h h' j (Nat.le_of_lt_succ hj)
    · exact htop

theorem slot_congr_index {ix' : ℕ → Fin n} : ∀ {l : ℕ} {p : α},
    (∀ j ≤ l, ix j = ix' j) → slot child m ix l p = slot child m ix' l p
  | 0, p, h => by rw [slot, slot, h 0 le_rfl]
  | l + 1, p, h => by
    rw [slot, slot, h (l + 1) le_rfl]
    apply Option.bind_congr
    intro c _
    exact slot_congr_index fun j hj => h j (Nat.le_succ_of_le hj)

/-! ## Memories that agree -/

section Agree

theorem pages_congr : ∀ {l : ℕ} {p : α},
    (∀ q, Upper child m l p q → m' q = m q) →
      pages child m' l p = pages child m l p
  | 0, _, _ => rfl
  | l + 1, p, h => by
    rw [pages, pages, h p (Or.inl rfl)]
    congr 1
    apply List.flatMap_congr
    intro i _
    cases hc : child (m p i) with
    | none => rfl
    | some c =>
      exact pages_congr fun q hq => h q (Or.inr ⟨i, c, hc, hq⟩)

theorem slot_congr : ∀ {l : ℕ} {p : α},
    (∀ q, Upper child m l p q → m' q = m q) →
      slot child m' ix l p = slot child m ix l p
  | 0, _, _ => rfl
  | l + 1, p, h => by
    rw [slot, slot, h p (Or.inl rfl)]
    apply Option.bind_congr
    intro c hc
    exact slot_congr fun q hq => h q (Or.inr ⟨ix (l + 1), c, hc, hq⟩)

theorem pointers_congr {good : ω → Prop} : ∀ {l : ℕ} {p : α},
    (∀ q, Upper child m l p q → m' q = m q) →
      Pointers child good m l p → Pointers child good m' l p
  | 0, _, _, _ => trivial
  | l + 1, p, h, hgood => by
    intro i c hc
    rw [h p (Or.inl rfl)] at hc ⊢
    obtain ⟨hi, hsub⟩ := hgood i c hc
    exact ⟨hi, pointers_congr (fun q hq => h q (Or.inr ⟨i, c, hc, hq⟩)) hsub⟩

theorem value_congr (h : ∀ q ∈ pages child m l p, m' q = m q) :
    value child w m' ix l p = value child w m ix l p := by
  rw [value, value, slot_congr fun q hq => h q hq.mem_pages]
  cases hs : slot child m ix l p with
  | none => rfl
  | some s =>
    obtain ⟨q, k⟩ := s
    show m' q k = m q k
    rw [h q (slot_mem hs).1]

end Agree

/-! ## Writing a slot -/

section Write

variable [DecidableEq α] {ix : ℕ → Fin n} {k : Fin n} {a : ω}

/-- One word is written. -/
def put (m : α → Fin n → ω) (q : α) (k : Fin n) (a : ω) : α → Fin n → ω :=
  Function.update m q (Function.update (m q) k a)

theorem put_self (m : α → Fin n → ω) (q : α) (k : Fin n) (a : ω) :
    put m q k a q k = a := by
  rw [put, Function.update_self, Function.update_self]

theorem put_page_of_ne {r : α} (hr : r ≠ q) : put m q k a r = m r :=
  Function.update_of_ne hr ..

theorem put_of_ne {s : α × Fin n} (hs : s ≠ (q, k)) :
    put m q k a s.1 s.2 = m s.1 s.2 := by
  obtain ⟨r, j⟩ := s
  by_cases hr : r = q
  · subst hr
    rw [put, Function.update_self, Function.update_of_ne]
    rintro rfl
    exact hs rfl
  · rw [put_page_of_ne hr]

theorem put_upper (hnodup : (pages child m l p).Nodup)
    (hs : slot child m ix l p = some (q, k)) (a : ω) (r : α)
    (hr : Upper child m l p r) : put m q k a r = m r := by
  apply put_page_of_ne
  rintro rfl
  exact not_upper_of_slot hnodup hs hr

/-- **Writing a slot changes the value at its indices and no other.** -/
theorem value_put (hnodup : (pages child m l p).Nodup)
    (hs : slot child m ix l p = some (q, k)) (ix' : ℕ → Fin n) :
    ((∀ j ≤ l, ix j = ix' j) →
      value child w (put m q k a) ix' l p = a) ∧
    ((∃ j ≤ l, ix j ≠ ix' j) →
      value child w (put m q k a) ix' l p = value child w m ix' l p) := by
  have hslot : slot child (put m q k a) ix' l p = slot child m ix' l p :=
    slot_congr (put_upper hnodup hs a)
  constructor
  · intro hix
    rw [value, hslot, ← slot_congr_index hix, hs]
    exact put_self m q k a
  · rintro ⟨j, hj, hne⟩
    rw [value, value, hslot]
    cases hs' : slot child m ix' l p with
    | none => rfl
    | some s =>
      refine put_of_ne ?_
      rintro rfl
      exact hne (slot_inj hnodup hs hs' j hj)

end Write

/-! ## Adding pages -/

/-- A page without pointers. -/
theorem pages_of_blank (h : ∀ i, child (m p i) = none) :
    pages child m l p = [p] := by
  cases l with
  | zero => rfl
  | succ l =>
    rw [pages, List.cons_inj_right, List.flatMap_eq_nil_iff]
    intro i _
    rw [h i]
    rfl

theorem value_of_blank (hc : child w = none) (h : ∀ i, m p i = w) :
    value child w m ix l p = w := by
  cases l with
  | zero => exact h _
  | succ l =>
    rw [value, slot, h, hc]
    rfl

theorem pointers_of_blank {good : ω → Prop} (h : ∀ i, child (m p i) = none) :
    Pointers child good m l p := by
  cases l with
  | zero => trivial
  | succ l =>
    intro i c hc
    rw [h i] at hc
    cases hc

/-- One part of a concatenation gets longer. -/
theorem flatMap_perm_append {ι : Type*} {g g' : ι → List α} {i : ι}
    {new : List α} (hi : (g' i).Perm (g i ++ new))
    (hother : ∀ j, j ≠ i → g' j = g j) : ∀ {as : List ι}, i ∈ as →
      as.Nodup → (as.flatMap g').Perm (as.flatMap g ++ new) := by
  intro as
  induction as with
  | nil => exact nofun
  | cons a as ih =>
    intro hmem hnodup
    rw [List.nodup_cons] at hnodup
    rw [List.flatMap_cons, List.flatMap_cons]
    by_cases ha : i = a
    · subst ha
      have hrest : as.flatMap g' = as.flatMap g := by
        apply List.flatMap_congr
        intro j hj
        apply hother
        rintro rfl
        exact hnodup.1 hj
      rw [hrest]
      refine (hi.append_right _).trans ?_
      rw [List.append_assoc, List.append_assoc]
      exact List.perm_append_comm.append_left _
    · rw [hother a (Ne.symm ha), List.append_assoc]
      have hmem := (List.mem_cons.mp hmem).resolve_left ha
      exact (ih hmem hnodup.2).append_left _

/-- The tree below one word of a page gets more pages. -/
theorem pages_extend {i : Fin n} {new : List α}
    (hrow : ∀ j, j ≠ i → m' p j = m p j)
    (hrest : ∀ j d, j ≠ i → child (m p j) = some d →
      ∀ q ∈ pages child m l d, m' q = m q)
    (hi : (((child (m' p i)).map (pages child m' l)).getD []).Perm
      (((child (m p i)).map (pages child m l)).getD [] ++ new)) :
    (pages child m' (l + 1) p).Perm (pages child m (l + 1) p ++ new) := by
  rw [pages, pages, List.cons_append]
  apply List.Perm.cons
  refine flatMap_perm_append (i := i) hi ?_ (List.mem_finRange i)
    (List.nodup_finRange n)
  intro j hj
  rw [hrow j hj]
  cases hd : child (m p j) with
  | none => rfl
  | some d =>
    exact pages_congr fun q hq => hrest j d hj hd q hq.mem_pages

end Xv6.Framework.MemTree
