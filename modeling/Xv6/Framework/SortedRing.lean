import Mathlib.Data.Finset.Max
import Mathlib.Order.WellFoundedSet
import Mathlib.Logic.Function.Iterate
import Mathlib.Tactic.Common

/-!
# Sorted rings

A finite set of nodes that are linked in a circle: each node to the next
larger one, and the largest back to the smallest. From any node every other is
reached, so a search that goes round finds what there is to find.
-/

namespace Xv6.Framework

variable {α : Type*} [LinearOrder α]

structure SortedRing (nodes : Finset α) (first : α) (next : α → α) :
    Prop where
  first_mem : first ∈ nodes
  first_le : ∀ p ∈ nodes, first ≤ p
  next_mem : ∀ p ∈ nodes, next p ∈ nodes
  up : ∀ p ∈ nodes, ∀ q ∈ nodes, p < q → p < next p ∧ next p ≤ q
  wrap : ∀ p ∈ nodes, (∀ q ∈ nodes, q ≤ p) → next p = first

namespace SortedRing

variable {nodes : Finset α} {first p q b : α} {next next' : α → α}

theorem singleton (h : next first = first) : SortedRing {first} first next where
  first_mem := Finset.mem_singleton_self first
  first_le := fun p hp => (Finset.mem_singleton.mp hp).ge
  next_mem := fun p hp => by
    rw [Finset.mem_singleton.mp hp, h]
    exact Finset.mem_singleton_self first
  up := fun p hp q hq hpq => by
    rw [Finset.mem_singleton.mp hp, Finset.mem_singleton.mp hq] at hpq
    exact absurd hpq (lt_irrefl first)
  wrap := fun p hp _ => by rw [Finset.mem_singleton.mp hp, h]

/-- A link goes up to the next node or from the last node to the first. -/
theorem next_cases (h : SortedRing nodes first next) (hp : p ∈ nodes) :
    (p < next p ∧ ∀ q ∈ nodes, p < q → next p ≤ q) ∨
      (next p = first ∧ ∀ q ∈ nodes, q ≤ p) := by
  by_cases hlast : ∀ q ∈ nodes, q ≤ p
  · exact Or.inr ⟨h.wrap p hp hlast, hlast⟩
  · push Not at hlast
    obtain ⟨q, hq, hpq⟩ := hlast
    exact Or.inl ⟨(h.up p hp q hq hpq).1, fun r hr hpr => (h.up p hp r hr hpr).2⟩

theorem lt_next (h : SortedRing nodes first next) (hp : p ∈ nodes)
    (hne : next p ≠ first) : p < next p := by
  rcases h.next_cases hp with ⟨hlt, -⟩ | ⟨heq, -⟩
  · exact hlt
  · exact absurd heq hne

theorem next_injOn (h : SortedRing nodes first next) :
    Set.InjOn next nodes := by
  have hnot : ∀ p ∈ nodes, ∀ q ∈ nodes, p < q → next p ≠ next q := by
    intro p hp q hq hpq heq
    obtain ⟨hlt, hle⟩ := h.up p hp q hq hpq
    rcases h.next_cases hq with ⟨hlt', -⟩ | ⟨hfirst, -⟩
    · rw [heq] at hle
      exact absurd hlt' (not_lt_of_ge hle)
    · rw [heq, hfirst] at hlt
      exact absurd hlt (not_lt_of_ge (h.first_le p hp))
  intro p hp q hq heq
  rcases lt_trichotomy p q with hlt | heq' | hgt
  · exact absurd heq (hnot p hp q hq hlt)
  · exact heq'
  · exact absurd heq.symm (hnot q hq p hp hgt)

/-- A node is put in behind the one it has to follow. -/
theorem insert (h : SortedRing nodes first next) (hp : p ∈ nodes)
    (hpb : p < b) (hgap : ∀ q ∈ nodes, p < q → b < q) (hnb : next' b = next p)
    (hnp : next' p = b) (hsame : ∀ q, q ≠ p → q ≠ b → next' q = next q) :
    SortedRing (insert b nodes) first next' := by
  have hnot : b ∉ nodes := fun hb => lt_irrefl b (hgap b hb hpb)
  have hother : ∀ q ∈ nodes, q ≠ p → next' q = next q := by
    intro q hq hqp
    refine hsame q hqp ?_
    rintro rfl
    exact hnot hq
  refine ⟨?_, ?_, ?_, ?_, ?_⟩
  · exact Finset.mem_insert_of_mem h.first_mem
  · intro q hq
    rcases Finset.mem_insert.mp hq with rfl | hq
    · exact (h.first_le p hp).trans hpb.le
    · exact h.first_le q hq
  · intro q hq
    rcases Finset.mem_insert.mp hq with rfl | hq
    · rw [hnb]
      exact Finset.mem_insert_of_mem (h.next_mem p hp)
    · by_cases hqp : q = p
      · rw [hqp, hnp]
        exact Finset.mem_insert_self b nodes
      · rw [hother q hq hqp]
        exact Finset.mem_insert_of_mem (h.next_mem q hq)
  · intro x hx y hy hxy
    rcases Finset.mem_insert.mp hx with rfl | hxn
    · have hyn : y ∈ nodes :=
        (Finset.mem_insert.mp hy).resolve_left hxy.ne'
      obtain ⟨hlt, hle⟩ := h.up p hp y hyn (hpb.trans hxy)
      rw [hnb]
      exact ⟨hgap _ (h.next_mem p hp) hlt, hle⟩
    · by_cases hxp : x = p
      · rw [hxp] at hxy ⊢
        rw [hnp]
        refine ⟨hpb, ?_⟩
        rcases Finset.mem_insert.mp hy with rfl | hyn
        · exact le_rfl
        · exact (hgap y hyn hxy).le
      · rw [hother x hxn hxp]
        rcases Finset.mem_insert.mp hy with rfl | hyn
        · have hlt : x < p := by
            refine lt_of_le_of_ne (le_of_not_gt ?_) hxp
            intro hpx
            exact lt_asymm hxy (hgap x hxn hpx)
          obtain ⟨hup, hle⟩ := h.up x hxn p hp hlt
          exact ⟨hup, hle.trans hpb.le⟩
        · exact h.up x hxn y hyn hxy
  · intro x hx hlast
    have hlast' : ∀ q ∈ nodes, q ≤ x := fun q hq =>
      hlast q (Finset.mem_insert_of_mem hq)
    rcases Finset.mem_insert.mp hx with rfl | hx
    · rw [hnb]
      refine h.wrap p hp fun q hq => le_of_not_gt fun hpq => ?_
      exact absurd (hgap q hq hpq) (not_lt_of_ge (hlast' q hq))
    · have hxp : x ≠ p := by
        rintro rfl
        exact absurd hpb (not_lt_of_ge (hlast b (Finset.mem_insert_self ..)))
      rw [hother x hx hxp]
      exact h.wrap x hx hlast'

/-- The node behind `p` is taken out. -/
theorem erase (h : SortedRing nodes first next) (next' : α → α)
    (hp : p ∈ nodes) (hne : next p ≠ first) (hnp : next' p = next (next p))
    (hsame : ∀ q ∈ nodes, q ≠ p → q ≠ next p → next' q = next q) :
    SortedRing (nodes.erase (next p)) first next' := by
  have hlt := h.lt_next hp hne
  have hmem := h.next_mem p hp
  have hother : ∀ q ∈ nodes.erase (next p), q ≠ p → next' q = next q := by
    intro q hq hqp
    obtain ⟨hqn, hq⟩ := Finset.mem_erase.mp hq
    exact hsame q hq hqp hqn
  refine ⟨?_, ?_, ?_, ?_, ?_⟩
  · exact Finset.mem_erase.mpr ⟨hne.symm, h.first_mem⟩
  · intro q hq
    exact h.first_le q (Finset.mem_of_mem_erase hq)
  · intro q hq
    by_cases hqp : q = p
    · rw [hqp, hnp]
      refine Finset.mem_erase.mpr ⟨?_, h.next_mem _ hmem⟩
      intro heq
      exact hlt.ne (h.next_injOn hmem hp heq).symm
    · rw [hother q hq hqp]
      have hqm := Finset.mem_of_mem_erase hq
      refine Finset.mem_erase.mpr ⟨?_, h.next_mem q hqm⟩
      intro heq
      exact hqp (h.next_injOn hqm hp heq)
  · intro x hx y hy hxy
    obtain ⟨hyn, hym⟩ := Finset.mem_erase.mp hy
    by_cases hxp : x = p
    · rw [hxp] at hxy ⊢
      have hny : next p < y :=
        lt_of_le_of_ne (h.up p hp y hym hxy).2 (Ne.symm hyn)
      obtain ⟨hup, hle⟩ := h.up _ hmem y hym hny
      rw [hnp]
      exact ⟨hlt.trans hup, hle⟩
    · rw [hother x hx hxp]
      exact h.up x (Finset.mem_of_mem_erase hx) y hym hxy
  · intro x hx hlast
    have hxm := Finset.mem_of_mem_erase hx
    by_cases hxp : x = p
    · rw [hxp, hnp]
      refine h.wrap _ hmem fun q hq => ?_
      by_cases hqn : q = next p
      · exact hqn.le
      · exact (hxp ▸ hlast q (Finset.mem_erase.mpr ⟨hqn, hq⟩)).trans hlt.le
    · rw [hother x hx hxp]
      refine h.wrap x hxm fun q hq => ?_
      by_cases hqn : q = next p
      · -- the last node is above `p`, so it is not below the next one
        have hpx : p < x := lt_of_le_of_ne
          (hlast p (Finset.mem_erase.mpr ⟨hlt.ne, hp⟩)) (Ne.symm hxp)
        rw [hqn]
        exact (h.up p hp x hxm hpx).2
      · exact hlast q (Finset.mem_erase.mpr ⟨hqn, hq⟩)

/-! ## Going round -/

/-- The way up ends at the first node. -/
theorem reaches_first (h : SortedRing nodes first next) (hp : p ∈ nodes) :
    ∃ n, next^[n] p = first := by
  have hwf : Set.WellFoundedOn (nodes : Set α) (· > ·) :=
    nodes.finite_toSet.wellFoundedOn
  refine hwf.induction (P := fun p => ∃ n, next^[n] p = first) hp ?_
  intro p hp ih
  rcases h.next_cases hp with ⟨hlt, -⟩ | ⟨heq, -⟩
  · obtain ⟨n, hn⟩ := ih _ (h.next_mem p hp) hlt
    exact ⟨n + 1, hn⟩
  · exact ⟨1, heq⟩

/-- The node before a node that is not the first. -/
theorem exists_prev (h : SortedRing nodes first next) (hq : q ∈ nodes)
    (hne : q ≠ first) : ∃ p ∈ nodes, p < q ∧ next p = q := by
  have hbelow : (nodes.filter (· < q)).Nonempty :=
    ⟨first, Finset.mem_filter.mpr ⟨h.first_mem,
      lt_of_le_of_ne (h.first_le q hq) (Ne.symm hne)⟩⟩
  obtain ⟨hp, hpq⟩ := Finset.mem_filter.mp (Finset.max'_mem _ hbelow)
  refine ⟨_, hp, hpq, ?_⟩
  obtain ⟨hlt, hle⟩ := h.up _ hp q hq hpq
  refine le_antisymm hle (le_of_not_gt fun hbefore => ?_)
  exact absurd hlt (not_lt_of_ge (Finset.le_max' _ _
    (Finset.mem_filter.mpr ⟨h.next_mem _ hp, hbefore⟩)))

theorem reached_from_first (h : SortedRing nodes first next)
    (hq : q ∈ nodes) : ∃ n, next^[n] first = q := by
  have hwf : Set.WellFoundedOn (nodes : Set α) (· < ·) :=
    nodes.finite_toSet.wellFoundedOn
  refine hwf.induction (P := fun q => ∃ n, next^[n] first = q) hq ?_
  intro q hq ih
  by_cases hfirst : q = first
  · exact ⟨0, hfirst.symm⟩
  · obtain ⟨p, hp, hpq, hnext⟩ := h.exists_prev hq hfirst
    obtain ⟨n, hn⟩ := ih p hp hpq
    refine ⟨n + 1, ?_⟩
    rw [Function.iterate_succ_apply', hn, hnext]

theorem reaches (h : SortedRing nodes first next) (hp : p ∈ nodes)
    (hq : q ∈ nodes) : ∃ n, next^[n] p = q := by
  obtain ⟨m, hm⟩ := h.reaches_first hp
  obtain ⟨n, hn⟩ := h.reached_from_first hq
  refine ⟨n + m, ?_⟩
  rw [Function.iterate_add_apply, hm, hn]

theorem iterate_mem (h : SortedRing nodes first next) (hp : p ∈ nodes) :
    ∀ n, next^[n] p ∈ nodes
  | 0 => hp
  | n + 1 => by
    rw [Function.iterate_succ_apply']
    exact h.next_mem _ (h.iterate_mem hp n)

/-- **A search around the ring stops** at the first node it is looking for, if
there is one. -/
theorem exists_first_stop (h : SortedRing nodes first next) (stop : α → Prop)
    (hp : p ∈ nodes) (hq : q ∈ nodes) (hstop : stop q) :
    ∃ n, stop (next^[n] p) ∧ ∀ m < n, ¬ stop (next^[m] p) := by
  classical
  obtain ⟨n, hn⟩ := h.reaches hp hq
  have hex : ∃ n, stop (next^[n] p) := ⟨n, hn ▸ hstop⟩
  exact ⟨Nat.find hex, Nat.find_spec hex, fun m => Nat.find_min hex⟩

end SortedRing

end Xv6.Framework
