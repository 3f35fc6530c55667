import Mathlib

/-!
# Circular doubly linked lists with a sentinel

The nodes are the members of `ι` and the sentinel `none`. Such a list is in
order when, going around from the sentinel, each node's `next` is the node
that follows and the `prev` of that one points back. A node can be unlinked
wherever it is and linked in again at the front; a search along either of the
pointers is a search in the list or in its reverse.
-/

namespace Xv6.Framework

variable {ι : Type*}

/-- The pointers of the nodes. -/
structure Links (ι : Type*) where
  next : Option ι → Option ι
  prev : Option ι → Option ι

namespace Links

/-- Two neighbours. -/
def Joined (k : Links ι) (u v : Option ι) : Prop := k.next u = v ∧ k.prev v = u

/-- The nodes from the sentinel around to it. -/
def around (L : List ι) : List (Option ι) := none :: (L.map some ++ [none])

/-- The pointers make a ring of the nodes of `L`, in this order. -/
structure Ring (k : Links ι) (L : List ι) : Prop where
  nodup : L.Nodup
  chain : (around L).IsChain k.Joined

/-- The first node that passes the test, from `u` on along `nx`. -/
def scan (nx : Option ι → Option ι) (test : ι → Bool) :
    ℕ → Option ι → Option ι
  | 0, _ => none
  | _ + 1, none => none
  | n + 1, some i => if test i then some i else scan nx test n (nx (some i))

section Ops

variable [DecidableEq ι]

/-- Take a node out. -/
def unlink (k : Links ι) (i : ι) : Links ι :=
  let prev := Function.update k.prev (k.next (some i)) (k.prev (some i))
  { next := Function.update k.next (prev (some i)) (k.next (some i))
    prev := prev }

/-- Put a node in behind the sentinel. -/
def pushFront (k : Links ι) (i : ι) : Links ι :=
  let next := Function.update k.next (some i) (k.next none)
  let prev := Function.update k.prev (some i) none
  { next := Function.update next none (some i)
    prev := Function.update prev (next none) (some i) }

end Ops

/-! ## Chains -/

/-- A chain stays one if its links do; the last node is the source of none of
them, the first the target of none. -/
theorem isChain_congr {α : Type*} {R R' : α → α → Prop} : ∀ {l : List α},
    l.IsChain R → (∀ u ∈ l.dropLast, ∀ v ∈ l.tail, R u v → R' u v) →
    l.IsChain R'
  | [], _, _ => .nil
  | [a], _, _ => .singleton a
  | a :: b :: l, h, hR => by
    rw [List.isChain_cons_cons] at h ⊢
    refine ⟨hR a (by simp) b (by simp) h.1, ?_⟩
    refine isChain_congr h.2 fun u hu v hv huv => hR u ?_ v ?_ huv
    · rw [List.dropLast_cons_cons]
      exact List.mem_cons_of_mem a hu
    · exact List.mem_cons_of_mem b hv

theorem nodup_tail_around {L : List ι} (h : L.Nodup) :
    (L.map some ++ [none]).Nodup := by
  refine (h.map (Option.some_injective ι)).append (List.nodup_singleton none) ?_
  simp

theorem Ring.symm {k : Links ι} {L : List ι} (h : k.Ring L) :
    Ring ⟨k.prev, k.next⟩ L.reverse where
  nodup := List.nodup_reverse.mpr h.nodup
  chain := by
    have hrev : around L.reverse = (around L).reverse := by
      simp [around, List.map_reverse]
    rw [hrev, List.isChain_reverse]
    exact h.chain.imp fun u v huv => ⟨huv.2, huv.1⟩

theorem scan_eq_find? {k : Links ι} {test : ι → Bool} : ∀ {L : List ι}
    {u : Option ι} {n : ℕ}, (u :: (L.map some ++ [none])).IsChain k.Joined →
    L.length ≤ n → scan k.next test n (k.next u) = L.find? test
  | [], u, n, h, _ => by
    rw [List.map_nil, List.nil_append, List.isChain_cons_cons] at h
    rw [h.1.1]
    cases n <;> rfl
  | i :: L, u, n, h, hn => by
    rw [List.map_cons, List.cons_append, List.isChain_cons_cons] at h
    obtain ⟨m, rfl⟩ := Nat.exists_eq_succ_of_ne_zero
      (Nat.ne_of_gt (Nat.lt_of_lt_of_le (Nat.succ_pos L.length) hn))
    rw [h.1.1, scan, List.find?_cons]
    cases test i with
    | true => rfl
    | false => exact scan_eq_find? h.2 (Nat.le_of_succ_le_succ hn)

namespace Ring

variable {k : Links ι} {L : List ι}

theorem scan_next (h : k.Ring L) (test : ι → Bool) {n : ℕ}
    (hn : L.length ≤ n) : scan k.next test n (k.next none) = L.find? test :=
  scan_eq_find? h.chain hn

theorem scan_prev (h : k.Ring L) (test : ι → Bool) {n : ℕ}
    (hn : L.length ≤ n) :
    scan k.prev test n (k.prev none) = L.reverse.find? test :=
  h.symm.scan_next test (by rwa [List.length_reverse])

theorem empty : Ring (⟨fun _ => none, fun _ => none⟩ : Links ι) [] where
  nodup := List.nodup_nil
  chain := List.isChain_pair.mpr ⟨rfl, rfl⟩

variable [DecidableEq ι]

variable {i : ι}

theorem pushFront (h : k.Ring L) (hi : i ∉ L) :
    (k.pushFront i).Ring (i :: L) := by
  refine ⟨List.nodup_cons.mpr ⟨hi, h.nodup⟩, ?_⟩
  have hchain := h.chain
  have hnd := nodup_tail_around h.nodup
  have hmem : some i ∉ L.map some ++ [none] := by simp [hi]
  rw [around, List.map_cons, List.cons_append]
  rw [around] at hchain
  obtain ⟨t, T, hT⟩ : ∃ t T, L.map some ++ [none] = t :: T := by
    cases L <;> simp
  have hlast : ∀ u ∈ (t :: T).dropLast, ∃ j ∈ L, u = some j := by
    intro u hu
    rw [← hT, List.dropLast_concat] at hu
    obtain ⟨j, hj, rfl⟩ := List.mem_map.mp hu
    exact ⟨j, hj, rfl⟩
  rw [hT] at hchain hnd hmem ⊢
  rw [List.isChain_cons_cons] at hchain
  obtain ⟨⟨hnext, hprev⟩, hrest⟩ := hchain
  rw [List.mem_cons, not_or] at hmem
  rw [List.isChain_cons_cons, List.isChain_cons_cons]
  unfold Links.pushFront
  refine ⟨⟨?_, ?_⟩, ⟨?_, ?_⟩, ?_⟩
  · simp
  · simp [hnext, hmem.1]
  · simp [hnext]
  · simp [hnext]
  · refine isChain_congr hrest ?_
    rintro u hu v hv ⟨huv, hvu⟩
    obtain ⟨j, hj, rfl⟩ := hlast u hu
    have hji : j ≠ i := fun e => hi (e ▸ hj)
    have hvt : v ≠ t := fun e => (List.nodup_cons.mp hnd).1 (e ▸ hv)
    have hvi : v ≠ some i := fun e => hmem.2 (e ▸ hv)
    constructor
    · simp [hji, huv]
    · simp [hnext, hvt, hvi, hvu]

theorem unlink {xs ys : List ι} (h : k.Ring (xs ++ i :: ys)) :
    (k.unlink i).Ring (xs ++ ys) := by
  have hnd := h.nodup
  rw [List.nodup_middle, List.nodup_cons, List.mem_append, not_or] at hnd
  obtain ⟨⟨hix, hiy⟩, hxy⟩ := hnd
  obtain ⟨hx, hy, hdisj⟩ := List.nodup_append.mp hxy
  refine ⟨hxy, ?_⟩
  -- the ring is cut at the node: `u` stands before it and `v` after it
  obtain ⟨A, u, hAu⟩ : ∃ A u, none :: xs.map some = A ++ [u] :=
    ⟨_, _, (List.dropLast_append_getLast (List.cons_ne_nil _ _)).symm⟩
  obtain ⟨v, B, hBv⟩ : ∃ v B, ys.map some ++ [none] = v :: B := by
    cases ys <;> simp
  have huA : u ∉ A := by
    have hA : (none :: xs.map some).Nodup :=
      List.nodup_cons.mpr ⟨by simp, hx.map (Option.some_injective ι)⟩
    rw [hAu, List.nodup_append] at hA
    exact fun hu => hA.2.2 u hu u (by simp) rfl
  have hvB : v ∉ B := by
    have hB := nodup_tail_around hy
    rw [hBv] at hB
    exact (List.nodup_cons.mp hB).1
  have hu : u = none ∨ ∃ j ∈ xs, some j = u := by
    rw [← List.mem_map, ← List.mem_cons, hAu]
    simp
  have hv : (∃ j ∈ ys, some j = v) ∨ v = none := by
    rw [← List.mem_map, ← List.mem_singleton, ← List.mem_append, hBv]
    simp
  have hvi : v ≠ some i := by
    rintro rfl
    rcases hv with ⟨j, hj, hji⟩ | hv
    · exact hiy (Option.some_injective ι hji ▸ hj)
    · cases hv
  have hcut : around (xs ++ i :: ys) = (A ++ [u]) ++ some i :: v :: B := by
    rw [← hAu, ← hBv]
    simp [around]
  have hjoin : around (xs ++ ys) = (A ++ [u]) ++ v :: B := by
    rw [← hAu, ← hBv]
    simp [around]
  have hchain := h.chain
  rw [hcut, List.isChain_append, List.isChain_cons_cons] at hchain
  obtain ⟨hcA, ⟨⟨hnext, -⟩, hcB⟩, hlink⟩ := hchain
  obtain ⟨-, hprev⟩ := hlink u (by simp) (some i) (by simp)
  have hk : k.unlink i = ⟨Function.update k.next u v,
      Function.update k.prev v u⟩ := by
    simp [Links.unlink, hnext, hprev, hvi.symm]
  rw [hk, hjoin, List.isChain_append]
  refine ⟨isChain_congr hcA ?_, isChain_congr hcB ?_, ?_⟩
  · rintro a ha c hc ⟨hac, hca⟩
    rw [List.dropLast_concat] at ha
    rw [← hAu, List.tail_cons] at hc
    obtain ⟨j, hj, rfl⟩ := List.mem_map.mp hc
    have hau : a ≠ u := fun e => huA (e ▸ ha)
    have hjv : some j ≠ v := by
      rintro rfl
      rcases hv with ⟨j', hj', e⟩ | e
      · exact hdisj j hj j' hj' (Option.some_injective ι e).symm
      · cases e
    exact ⟨by simp [hau, hac], by simp [hjv, hca]⟩
  · rintro a ha c hc ⟨hac, hca⟩
    rw [← hBv, List.dropLast_concat] at ha
    obtain ⟨j, hj, rfl⟩ := List.mem_map.mp ha
    have hcv : c ≠ v := fun e => hvB (e ▸ hc)
    have hju : some j ≠ u := by
      rintro rfl
      rcases hu with e | ⟨j', hj', e⟩
      · cases e
      · exact hdisj j' hj' j hj (Option.some_injective ι e)
    exact ⟨by simp [hju, hac], by simp [hcv, hca]⟩
  · intro a ha c hc
    rw [List.getLast?_concat, Option.mem_some_iff] at ha
    rw [List.head?_cons, Option.mem_some_iff] at hc
    subst ha hc
    exact ⟨by simp, by simp⟩

/-- Nodes put in one after the other. -/
theorem foldl_pushFront : ∀ {l : List ι} {k : Links ι} {L : List ι},
    k.Ring L → (l ++ L).Nodup →
    (l.foldl Links.pushFront k).Ring (l.reverse ++ L)
  | [], _, _, h, _ => h
  | i :: l, k, L, h, hnd => by
    have hnd' : (l ++ i :: L).Nodup := List.nodup_middle.mpr hnd
    have hi : i ∉ L := fun hi =>
      (List.nodup_cons.mp hnd).1 (List.mem_append_right l hi)
    have := foldl_pushFront (h.pushFront hi) hnd'
    rwa [List.reverse_cons, List.append_assoc, List.singleton_append]

/-- A node moved to the front. -/
theorem moveFront (h : k.Ring L) (hi : i ∈ L) :
    ((k.unlink i).pushFront i).Ring (i :: L.erase i) := by
  obtain ⟨xs, ys, hix, hL, herase⟩ := List.exists_erase_eq hi
  have hnd := h.nodup
  rw [hL, List.nodup_middle, List.nodup_cons] at hnd
  rw [hL] at h
  rw [herase]
  exact h.unlink.pushFront hnd.1

end Ring

end Links

end Xv6.Framework
