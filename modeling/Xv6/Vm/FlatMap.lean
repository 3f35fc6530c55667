import Xv6.Framework.Run
import Xv6.Vm.Sv39

/-!
# The three-level page table is a flat map

Seen through `lookup`, the functions on the words of a page table act on a map
from pages to PTEs: growing the tree changes nothing, `mappages` sets the
pages of its range one after the other, and `uvmunmap` clears them.
-/

namespace Xv6.Vm.Sv39

open Framework

/-! ## PTE words -/

theorem toNat_pa2pte (pa : UInt64) :
    (pa2pte pa).toNat = pa.toNat / 4096 * 1024 := by
  have h12 : (12 : UInt64).toNat % 64 = 12 := rfl
  have h10 : (10 : UInt64).toNat % 64 = 10 := rfl
  rw [pa2pte, UInt64.toNat_shiftLeft, UInt64.toNat_shiftRight, h12, h10,
    Nat.shiftRight_eq_div_pow, Nat.shiftLeft_eq]
  have := pa.toNat_lt
  omega

theorem toNat_pte2pa (pte : UInt64) :
    (pte2pa pte).toNat = pte.toNat / 1024 * 4096 % 2 ^ 64 := by
  have h12 : (12 : UInt64).toNat % 64 = 12 := rfl
  have h10 : (10 : UInt64).toNat % 64 = 10 := rfl
  rw [pte2pa, UInt64.toNat_shiftLeft, UInt64.toNat_shiftRight, h12, h10,
    Nat.shiftRight_eq_div_pow, Nat.shiftLeft_eq]

theorem pte2pa_mod (pte : UInt64) : (pte2pa pte).toNat % PGSIZE = 0 := by
  rw [toNat_pte2pa, PGSIZE]
  omega

theorem toNat_link (p : UInt64) :
    (pa2pte p ||| PTE_V).toNat = p.toNat / 4096 * 1024 + 1 := by
  have h := Nat.two_pow_add_eq_or_of_lt (i := 10) (b := 1) (by decide)
    (p.toNat / 4096)
  rw [UInt64.toNat_or, toNat_pa2pte, show PTE_V.toNat = 1 from rfl,
    Nat.mul_comm, ← h]

theorem and_valid_eq_zero (w : UInt64) :
    w &&& PTE_V = 0 ↔ w.toNat % 2 = 0 := by
  rw [← UInt64.toNat_inj, UInt64.toNat_and, show PTE_V.toNat = 1 from rfl,
    Nat.and_one_is_mod]
  rfl

theorem next_zero : next 0 = none := rfl

theorem next_of_valid {w : UInt64} (h : w &&& PTE_V ≠ 0) :
    next w = some (pte2pa w) := if_neg h

theorem next_of_invalid {w : UInt64} (h : w &&& PTE_V = 0) :
    next w = none := if_pos h

variable {p : UInt64}

/-- The word that `walk` stores for a new page points to it. -/
theorem next_link (h : p.toNat % PGSIZE = 0) :
    next (pa2pte p ||| PTE_V) = some p := by
  rw [next_of_valid]
  · congr 1
    apply UInt64.toNat_inj.mp
    rw [toNat_pte2pa, toNat_link]
    have := p.toNat_lt
    rw [PGSIZE] at h
    omega
  · rw [Ne, and_valid_eq_zero, toNat_link]
    omega

theorem link_pointer (p : UInt64) :
    (pa2pte p ||| PTE_V) &&& (PTE_R ||| PTE_W ||| PTE_X) = 0 := by
  have hmask : (PTE_R ||| PTE_W ||| PTE_X).toNat = 15 &&& 14 := rfl
  have hlow : (p.toNat / 4096 * 1024 + 1) % 2 ^ 4 = 1 := by omega
  apply UInt64.toNat_inj.mp
  rw [UInt64.toNat_and, toNat_link, hmask, ← Nat.and_assoc,
    show 15 = 2 ^ 4 - 1 from rfl, Nat.and_two_pow_sub_one_eq_mod, hlow]
  rfl

/-! ## Memory -/

variable {q : UInt64}

@[simp] theorem page_store (m : Phys) (p : UInt64) (i : Fin 512)
    (w : UInt64) : (m.store p i w).page = MemTree.put m.page p i w := rfl

@[simp] theorem freelist_store (m : Phys) (p : UInt64) (i : Fin 512)
    (w : UInt64) : (m.store p i w).freelist = m.freelist := rfl

theorem page_memset_of_ne (m : Phys) (c : UInt8) (h : q ≠ p) :
    (m.memset p c).page q = m.page q :=
  Function.update_of_ne h ..

theorem page_memset_zero (m : Phys) (p : UInt64) (j : Fin 512) :
    (m.memset p 0).page p j = 0 := by
  show Function.update m.page p _ p j = 0
  rw [Function.update_self]
  rfl

/-! ## Trees -/

/-- The index of an address at each level. -/
def ix (va : ℕ) : ℕ → Fin 512 := fun level => px level va

theorem ix_eq_iff {va vb : ℕ} (ha : va < MAXVA) (hb : vb < MAXVA) :
    (∀ j ≤ 2, ix va j = ix vb j) ↔ pgrounddown va = pgrounddown vb := by
  constructor
  · intro h
    apply px_inj ha hb
    rw [show px 2 va = px 2 vb from h 2 le_rfl,
      show px 1 va = px 1 vb from h 1 (by decide),
      show px 0 va = px 0 vb from h 0 (by decide)]
  · exact fun h j _ => px_congr h j

abbrev pages (m : Phys) (l : ℕ) (p : UInt64) : List UInt64 :=
  MemTree.pages next m.page l p

abbrev value (m : Phys) (ix : ℕ → Fin 512) (l : ℕ) (p : UInt64) : UInt64 :=
  MemTree.value next 0 m.page ix l p

theorem value_succ (m : Phys) (ix : ℕ → Fin 512) (l : ℕ) (p : UInt64) :
    value m ix (l + 1) p =
      ((next (m.page p (ix (l + 1)))).map (value m ix l)).getD 0 := by
  rw [value, MemTree.value, MemTree.slot]
  cases next (m.page p (ix (l + 1))) <;> rfl

variable {m : Phys}

/-- In a tree the MMU descends to the lowest level. -/
theorem translate_eq_value (va : ℕ) : ∀ {l : ℕ} {p : UInt64},
    MemTree.Pointers next (· &&& (PTE_R ||| PTE_W ||| PTE_X) = 0) m.page l p →
      translate m va l p = value m (ix va) l p
  | 0, _, _ => rfl
  | l + 1, p, h => by
    rw [value_succ, translate]
    by_cases hv : m.page p (px (l + 1) va) &&& PTE_V = 0
    · rw [if_pos hv, ix, next_of_invalid hv]
      rfl
    · obtain ⟨hptr, hsub⟩ := h _ _ (next_of_valid hv)
      rw [if_neg hv, if_neg (not_not_intro hptr), ix, next_of_valid hv,
        translate_eq_value va hsub]
      rfl

variable {i : Fin 512} {c : UInt64}

namespace Tree

variable {m m' : Phys} {l : ℕ} {p : UInt64}

theorem lookup_eq (h : Tree m 2 p) (va : ℕ) :
    lookup m p va = value m (ix va) 2 p := translate_eq_value va h.pointers

theorem pages_nodup (h : Tree m l p) : (pages m l p).Nodup :=
  (List.nodup_append.mp h.nodup).1

theorem not_free (h : Tree m l p) (hq : q ∈ pages m l p) :
    q ∉ m.freelist :=
  fun hf => (List.nodup_append.mp h.nodup).2.2 q hq q hf rfl

theorem below (h : Tree m (l + 1) p) (hc : next (m.page p i) = some c) :
    Tree m l c := by
  have hapart := MemTree.Apart.of_nodup h.pages_nodup
  refine ⟨?_, (h.pointers i c hc).2, h.aligned⟩
  rw [List.nodup_append]
  refine ⟨hapart.nodup i c hc, (List.nodup_append.mp h.nodup).2.1, ?_⟩
  rintro q hq _ hf rfl
  exact h.not_free (MemTree.mem_pages_of_child hc hq) hf

end Tree

/-! ## Growing a tree -/

/-- The tree got pages from the free list, and nothing else changed. -/
structure Grown (m m' : Phys) (l : ℕ) (p : UInt64) : Prop where
  pages : ∃ new, m.freelist = new ++ m'.freelist ∧
    (pages m' l p).Perm (pages m l p ++ new)
  value : ∀ ix, value m' ix l p = value m ix l p
  pointers : MemTree.Pointers next (· &&& (PTE_R ||| PTE_W ||| PTE_X) = 0)
    m'.page l p
  outside : ∀ q, q ∉ Sv39.pages m l p → q ∉ m.freelist →
    m'.page q = m.page q

namespace Grown

variable {m m' : Phys} {l : ℕ} {p : UInt64}

theorem refl (h : Tree m l p) : Grown m m l p :=
  ⟨⟨[], rfl, by rw [List.append_nil]⟩, fun _ => rfl, h.pointers,
    fun _ _ _ => rfl⟩

theorem tree (h : Tree m l p) (hg : Grown m m' l p) : Tree m' l p := by
  obtain ⟨new, hfree, hperm⟩ := hg.pages
  refine ⟨?_, hg.pointers, ?_⟩
  · have hp := hperm.append_right m'.freelist
    rw [List.append_assoc, ← hfree] at hp
    exact hp.nodup_iff.mpr h.nodup
  · intro q hq
    apply h.aligned
    rw [hfree]
    exact List.mem_append_right new hq

/-- The tree grew below one word of its top page. -/
theorem of_row {new : List UInt64} (h : Tree m (l + 1) p)
    (hfree : m.freelist = new ++ m'.freelist)
    (hrow : ∀ j, j ≠ i → m'.page p j = m.page p j)
    (hrest : ∀ j d, j ≠ i → next (m.page p j) = some d →
      ∀ q ∈ Sv39.pages m l d, m'.page q = m.page q)
    (hi : (((next (m'.page p i)).map (Sv39.pages m' l)).getD []).Perm
      (((next (m.page p i)).map (Sv39.pages m l)).getD [] ++ new))
    (hvalue : ∀ ix, ((next (m'.page p i)).map (Sv39.value m' ix l)).getD 0 =
      ((next (m.page p i)).map (Sv39.value m ix l)).getD 0)
    (hptr : ∀ c, next (m'.page p i) = some c →
      m'.page p i &&& (PTE_R ||| PTE_W ||| PTE_X) = 0 ∧
        MemTree.Pointers next (· &&& (PTE_R ||| PTE_W ||| PTE_X) = 0)
          m'.page l c)
    (hout : ∀ q, q ∉ Sv39.pages m (l + 1) p → q ∉ m.freelist →
      m'.page q = m.page q) : Grown m m' (l + 1) p := by
  refine ⟨⟨new, hfree, MemTree.pages_extend hrow hrest hi⟩, ?_, ?_, hout⟩
  · intro ix
    rw [value_succ, value_succ]
    by_cases hix : ix (l + 1) = i
    · rw [hix]
      exact hvalue ix
    · rw [hrow _ hix]
      cases hd : next (m.page p (ix (l + 1))) with
      | none => rfl
      | some d => exact MemTree.value_congr (hrest _ d hix hd)
  · intro j c hc
    by_cases hj : j = i
    · subst hj
      exact hptr c hc
    · rw [hrow j hj] at hc ⊢
      obtain ⟨hgood, hsub⟩ := h.pointers j c hc
      refine ⟨hgood, MemTree.pointers_congr (fun q hq => ?_) hsub⟩
      exact hrest j c hj hc q hq.mem_pages

/-- The tree below a pointer grew. -/
theorem descend (h : Tree m (l + 1) p) (hc : next (m.page p i) = some c)
    (hg : Grown m m' l c) : Grown m m' (l + 1) p := by
  have hapart := MemTree.Apart.of_nodup h.pages_nodup
  obtain ⟨new, hfree, hperm⟩ := hg.pages
  have hself : m'.page p = m.page p :=
    hg.outside p (hapart.self i c hc) (h.not_free MemTree.self_mem_pages)
  have hc' : next (m'.page p i) = some c := by rw [hself, hc]
  apply of_row (i := i) h hfree
  · exact fun j _ => by rw [hself]
  · intro j d hj hd q hq
    exact hg.outside q (hapart.disjoint j i d c hj hd hc q hq)
      (h.not_free (MemTree.mem_pages_of_child hd hq))
  · rw [hc, hc']
    exact hperm
  · intro ix
    rw [hc, hc']
    exact hg.value ix
  · intro d hd
    rw [hc'] at hd
    cases hd
    rw [hself]
    exact ⟨(h.pointers i c hc).1, hg.pointers⟩
  · exact fun q hq hf =>
      hg.outside q (fun hqc => hq (MemTree.mem_pages_of_child hc hqc)) hf

end Grown

/-- `kalloc`, `memset` and the store of the new pointer. -/
structure Added (m m' : Phys) (p : UInt64) (i : Fin 512) (c : UInt64) :
    Prop where
  free : m.freelist = c :: m'.freelist
  blank : ∀ j, m'.page c j = 0
  link : m'.page p i = pa2pte c ||| PTE_V
  row : ∀ j, j ≠ i → m'.page p j = m.page p j
  rest : ∀ q, q ≠ c → q ≠ p → m'.page q = m.page q

theorem Added.of_kalloc {m₁ : Phys} (h : kalloc m = some (c, m₁))
    (hp : p ∉ m.freelist) :
    Added m ((m₁.memset c 0).store p i (pa2pte c ||| PTE_V)) p i c := by
  rw [kalloc] at h
  split at h
  case h_1 => cases h
  case h_2 r rest hfree =>
    cases h
    have hne : c ≠ p := by
      rintro rfl
      apply hp
      rw [hfree]
      exact List.mem_cons_self
    constructor
    · exact hfree
    · intro j
      rw [page_store, MemTree.put_page_of_ne hne, page_memset_zero]
    · exact MemTree.put_self ..
    · intro j hj
      rw [page_store]
      refine (MemTree.put_of_ne (s := (p, j)) ?_).trans ?_
      · exact fun heq => hj (congrArg Prod.snd heq)
      · rw [page_memset_of_ne _ _ hne.symm, page_memset_of_ne _ _ hne.symm]
    · intro q hqc hqp
      rw [page_store, MemTree.put_page_of_ne hqp, page_memset_of_ne _ _ hqc,
        page_memset_of_ne _ _ hqc]

namespace Added

variable {m m₁ m' : Phys} {l : ℕ} {p c : UInt64} {i : Fin 512}

theorem next_blank (ha : Added m m₁ p i c) (j : Fin 512) :
    next (m₁.page c j) = none := by
  rw [ha.blank j]
  rfl

theorem tree (h : Tree m (l + 1) p) (ha : Added m m₁ p i c) : Tree m₁ l c := by
  have hblank := ha.next_blank
  have hnodup := (List.nodup_append.mp h.nodup).2.1
  rw [ha.free] at hnodup
  refine ⟨?_, MemTree.pointers_of_blank hblank, ?_⟩
  · rw [MemTree.pages_of_blank hblank]
    exact hnodup
  · intro q hq
    apply h.aligned
    rw [ha.free]
    exact List.mem_cons_of_mem c hq

/-- Pages that were not free are left alone while the tree below the new page
grows. -/
theorem keep (ha : Added m m₁ p i c) (hg : Grown m₁ m' l c)
    (hq : q ∉ m.freelist) : m'.page q = m₁.page q := by
  rw [ha.free, List.mem_cons, not_or] at hq
  apply hg.outside q _ hq.2
  rw [pages, MemTree.pages_of_blank ha.next_blank, List.mem_singleton]
  exact hq.1

theorem next_eq (h : Tree m (l + 1) p) (ha : Added m m₁ p i c)
    (hg : Grown m₁ m' l c) : next (m'.page p i) = some c := by
  rw [ha.keep hg (h.not_free MemTree.self_mem_pages), ha.link]
  apply next_link
  apply h.aligned
  rw [ha.free]
  exact List.mem_cons_self

/-- A page is hung below a word that pointed nowhere, and the tree below it
grows. -/
theorem grown (h : Tree m (l + 1) p) (hnone : next (m.page p i) = none)
    (ha : Added m m₁ p i c) (hg : Grown m₁ m' l c) :
    Grown m m' (l + 1) p := by
  have hpages : pages m₁ l c = [c] := MemTree.pages_of_blank ha.next_blank
  have hne : ∀ q, q ∉ m.freelist → q ≠ c := by
    rintro q hq rfl
    apply hq
    rw [ha.free]
    exact List.mem_cons_self
  obtain ⟨new, hfree, hperm⟩ := hg.pages
  have hself := ha.keep hg (h.not_free MemTree.self_mem_pages)
  have hc' := ha.next_eq h hg
  have hfree' : m.freelist = (c :: new) ++ m'.freelist := by
    rw [ha.free, hfree, List.cons_append]
  apply Grown.of_row (i := i) h hfree'
  · intro j hj
    rw [hself, ha.row j hj]
  · intro j d hj hd q hq
    have hnot := h.not_free (MemTree.mem_pages_of_child hd hq)
    rw [ha.keep hg hnot]
    apply ha.rest q (hne q hnot)
    rintro rfl
    exact (MemTree.Apart.of_nodup h.pages_nodup).self j d hd hq
  · rw [hc', hnone]
    refine hperm.trans ?_
    rw [hpages]
    rfl
  · intro ix
    rw [hc', hnone]
    exact (hg.value ix).trans (MemTree.value_of_blank next_zero ha.blank)
  · intro d hd
    rw [hc'] at hd
    cases hd
    rw [hself, ha.link]
    exact ⟨link_pointer c, hg.pointers⟩
  · intro q hq hf
    rw [ha.keep hg hf]
    apply ha.rest q (hne q hf)
    rintro rfl
    exact hq MemTree.self_mem_pages

end Added

/-! ## `walk` -/

theorem walkFrom_false (m : Phys) (va : UInt64) : ∀ (l : ℕ) (p : UInt64),
    walkFrom false va l m p =
      (m, MemTree.slot next m.page (ix va.toNat) l p)
  | 0, _ => rfl
  | l + 1, p => by
    rw [walkFrom, MemTree.slot, ix]
    cases next (m.page p (px (l + 1) va.toNat)) with
    | none => rfl
    | some c => exact walkFrom_false m va l c

variable {va : UInt64}

theorem walk_false (h : va.toNat < MAXVA) :
    walk false m p va =
      .ok (m, MemTree.slot next m.page (ix va.toNat) 2 p) := by
  rw [walk, if_neg (Nat.not_le.mpr h), walkFrom_false]

variable {m' : Phys}

/-- `walk` with `alloc` set, from a level down. -/
theorem walkFrom_true {r : Option (UInt64 × Fin 512)} :
    ∀ {l : ℕ} {m : Phys} {p : UInt64},
    Tree m l p → walkFrom true va l m p = (m', r) →
      Grown m m' l p ∧
        (∀ s, r = some s →
          MemTree.slot next m'.page (ix va.toNat) l p = some s)
  | 0, m, p, h, hwalk => by
    cases hwalk
    exact ⟨.refl h, fun s hs => hs⟩
  | l + 1, m, p, h, hwalk => by
    have hslot : ∀ {m' : Phys} {c s}, next (m'.page p (ix va.toNat (l + 1))) =
        some c → MemTree.slot next m'.page (ix va.toNat) l c = some s →
          MemTree.slot next m'.page (ix va.toNat) (l + 1) p = some s := by
      intro m' c s hc hs
      rw [MemTree.slot, hc]
      exact hs
    rw [walkFrom] at hwalk
    cases hc : next (m.page p (px (l + 1) va.toNat)) with
    | some c =>
      simp only [hc] at hwalk
      obtain ⟨hg, hs⟩ := walkFrom_true (h.below hc) hwalk
      have hg' := Grown.descend h hc hg
      refine ⟨hg', fun s hr => hslot (c := c) ?_ (hs s hr)⟩
      have hself := hg.outside p
        ((MemTree.Apart.of_nodup h.pages_nodup).self _ c hc)
        (h.not_free MemTree.self_mem_pages)
      rw [hself]
      exact hc
    | none =>
      simp only [hc, if_true] at hwalk
      cases hk : kalloc m with
      | none =>
        simp only [hk] at hwalk
        cases hwalk
        exact ⟨.refl h, (by simp)⟩
      | some r =>
        obtain ⟨c, m₁⟩ := r
        simp only [hk] at hwalk
        have ha : Added m _ p (px (l + 1) va.toNat) c :=
          Added.of_kalloc hk (h.not_free MemTree.self_mem_pages)
        obtain ⟨hg, hs⟩ := walkFrom_true (Added.tree h ha) hwalk
        exact ⟨ha.grown h hc hg,
          fun s hr => hslot (ha.next_eq h hg) (hs s hr)⟩

theorem walk_true {r : Option (UInt64 × Fin 512)} (h : Tree m 2 p)
    (hwalk : walk true m p va = .ok (m', r)) :
    va.toNat < MAXVA ∧ Tree m' 2 p ∧ (∀ v, lookup m' p v = lookup m p v) ∧
      ∀ s, r = some s →
        MemTree.slot next m'.page (ix va.toNat) 2 p = some s := by
  rw [walk] at hwalk
  split at hwalk
  case isTrue => cases hwalk
  case isFalse hva =>
    injection hwalk with hwalk
    obtain ⟨hg, hs⟩ := walkFrom_true h hwalk
    refine ⟨Nat.not_le.mp hva, hg.tree h, fun v => ?_, hs⟩
    rw [(hg.tree h).lookup_eq, h.lookup_eq, hg.value]

/-! ## Writing a PTE -/

section Store

variable {m : Phys} {p q : UInt64} {va : ℕ} {k : Fin 512}

theorem Tree.store (h : Tree m 2 p)
    (hs : MemTree.slot next m.page (ix va) 2 p = some (q, k)) (w : UInt64) :
    Tree (m.store q k w) 2 p ∧ pages (m.store q k w) 2 p = pages m 2 p := by
  have hup := MemTree.put_upper h.pages_nodup hs w
  have hpages : pages (m.store q k w) 2 p = pages m 2 p :=
    MemTree.pages_congr hup
  refine ⟨⟨?_, MemTree.pointers_congr hup h.pointers, h.aligned⟩, hpages⟩
  rw [show MemTree.pages next (m.store q k w).page 2 p = _ from hpages]
  exact h.nodup

theorem lookup_store (h : Tree m 2 p) (hva : va < MAXVA)
    (hs : MemTree.slot next m.page (ix va) 2 p = some (q, k)) (w : UInt64)
    {v : ℕ} (hv : v < MAXVA) :
    lookup (m.store q k w) p v =
      if pgrounddown v = pgrounddown va then w else lookup m p v := by
  rw [(h.store hs w).1.lookup_eq, h.lookup_eq]
  obtain ⟨hin, hout⟩ := MemTree.value_put (w := 0) (a := w) h.pages_nodup hs
    (ix v)
  split
  case isTrue hpage => exact hin ((ix_eq_iff hva hv).mpr hpage.symm)
  case isFalse hpage =>
    apply hout
    by_contra hno
    apply hpage
    rw [eq_comm, ← ix_eq_iff hva hv]
    intro j hj
    by_contra hne
    exact hno ⟨j, hj, hne⟩

theorem lookup_slot (h : Tree m 2 p)
    (hs : MemTree.slot next m.page (ix va) 2 p = some (q, k)) :
    lookup m p va = m.page q k := by
  rw [h.lookup_eq, value, MemTree.value, hs]
  rfl

theorem lookup_no_slot (h : Tree m 2 p)
    (hs : MemTree.slot next m.page (ix va) 2 p = none) :
    lookup m p va = 0 := by
  rw [h.lookup_eq, value, MemTree.value, hs]
  rfl

theorem lookup_page (h : Tree m 2 p) {v : ℕ}
    (hpage : pgrounddown v = pgrounddown va) : lookup m p v = lookup m p va := by
  rw [h.lookup_eq, h.lookup_eq]
  have hix : ix v = ix va := funext fun j => px_congr hpage j
  rw [hix]

end Store

/-! ## `mappages` -/

/-- The first `k` pages of a range are mapped, and nothing else changed. -/
structure Maps (m m' : Phys) (p a pa : UInt64) (perm : Int32) (k : ℕ) :
    Prop where
  inside : ∀ i < k, ∀ v, pgrounddown v = a.toNat + i * PGSIZE →
    lookup m' p v = mkPte (pa + UInt64.ofNat (i * PGSIZE)) perm
  outside : ∀ v < MAXVA, v < a.toNat ∨ a.toNat + k * PGSIZE ≤ v →
    lookup m' p v = lookup m p v

variable {a : UInt64} {n : ℕ}

/-- The next page of a range below `MAXVA`. -/
theorem toNat_add_page (h : a.toNat + (n + 1) * PGSIZE ≤ MAXVA) :
    (a + 4096).toNat = a.toNat + PGSIZE := by
  rw [UInt64.toNat_add, show (4096 : UInt64).toNat = PGSIZE from rfl]
  apply Nat.mod_eq_of_lt
  unfold PGSIZE MAXVA at *
  omega

theorem add_pages (pa : UInt64) (i : ℕ) :
    pa + 4096 + UInt64.ofNat (i * PGSIZE) =
      pa + UInt64.ofNat ((i + 1) * PGSIZE) := by
  apply UInt64.toNat_inj.mp
  rw [UInt64.toNat_add, UInt64.toNat_add, UInt64.toNat_add,
    UInt64.toNat_ofNat', UInt64.toNat_ofNat',
    show (4096 : UInt64).toNat = 4096 from rfl, PGSIZE]
  omega

variable {perm : Int32}

theorem Maps.none {pa : UInt64} (h : ∀ v, lookup m' p v = lookup m p v) :
    Maps m m' p a pa perm 0 :=
  ⟨nofun, fun v _ _ => h v⟩

/-- One page, and then the others. -/
theorem Maps.cons {m m₁ m' : Phys} {p a pa : UInt64} {perm : Int32} {k : ℕ}
    (ht : Tree m' 2 p) (ha : a.toNat % PGSIZE = 0)
    (hnext : (a + 4096).toNat = a.toNat + PGSIZE) (hrange : a.toNat < MAXVA)
    (hfirst : ∀ v < MAXVA, lookup m₁ p v =
      if pgrounddown v = a.toNat then mkPte pa perm else lookup m p v)
    (hrest : Maps m₁ m' p (a + 4096) (pa + 4096) perm k) :
    Maps m m' p a pa perm (k + 1) := by
  constructor
  · intro i hi v hv
    cases i with
    | zero =>
      rw [Nat.zero_mul, Nat.add_zero] at hv
      have hpage : pgrounddown v = pgrounddown a.toNat := by
        rw [hv, pgrounddown_of_mod ha]
      rw [lookup_page ht hpage, hrest.outside _ hrange, hfirst _ hrange,
        pgrounddown_of_mod ha, if_pos rfl]
      · rw [Nat.zero_mul, show UInt64.ofNat 0 = 0 from rfl,
          UInt64.add_zero]
      · left
        rw [hnext, PGSIZE]
        omega
    | succ i =>
      have hv' : pgrounddown v = (a + 4096).toNat + i * PGSIZE := by
        rw [hv, hnext, Nat.succ_mul]
        omega
      rw [hrest.inside i (Nat.lt_of_succ_lt_succ hi) v hv', add_pages]
  · intro v hv hout
    have hne : pgrounddown v ≠ a.toNat := by
      intro heq
      have h₁ := pgrounddown_le v
      have h₂ := lt_pgrounddown_add v
      rw [heq] at h₁ h₂
      rw [Nat.succ_mul] at hout
      omega
    rw [hrest.outside v hv, hfirst v hv, if_neg hne]
    rw [hnext]
    rw [Nat.succ_mul] at hout
    omega

theorem mapLoop_spec {r : Int32} :
    ∀ {n : ℕ} {m : Phys} {a pa : UInt64}, Tree m 2 p →
      a.toNat % PGSIZE = 0 → a.toNat + n * PGSIZE ≤ MAXVA →
      mapLoop p perm n m a pa = .ok (m', r) →
      Tree m' 2 p ∧ ∃ k, Maps m m' p a pa perm k ∧
        (r = 0 ∧ k = n ∨ r = -1 ∧ k < n)
  | 0, m, a, pa, ht, _, _, h => by
    cases h
    exact ⟨ht, 0, .none fun _ => rfl, Or.inl ⟨rfl, rfl⟩⟩
  | n + 1, m, a, pa, ht, ha, hrange, h => by
    rw [mapLoop] at h
    split at h
    case h_1 => cases h
    case h_2 m₁ hwalk =>
      cases h
      obtain ⟨-, ht₁, hsame, -⟩ := walk_true ht hwalk
      exact ⟨ht₁, 0, .none hsame, Or.inr ⟨rfl, Nat.succ_pos n⟩⟩
    case h_3 m₁ q i hwalk =>
      obtain ⟨hva, ht₁, hsame, hslot⟩ := walk_true ht hwalk
      have hs := hslot _ rfl
      split at h
      case isTrue => cases h
      case isFalse =>
        have hnext := toNat_add_page hrange
        have ha' : (a + 4096).toNat % PGSIZE = 0 := by
          rw [hnext, Nat.add_mod_right, ha]
        have hrange' : (a + 4096).toNat + n * PGSIZE ≤ MAXVA := by
          rw [hnext]
          rw [Nat.succ_mul] at hrange
          omega
        obtain ⟨ht', k, hk, hr⟩ := mapLoop_spec (ht₁.store hs _).1 ha'
          hrange' h
        refine ⟨ht', k + 1, Maps.cons ht' ha hnext hva ?_ hk, ?_⟩
        · intro v hv
          rw [lookup_store ht₁ hva hs _ hv, pgrounddown_of_mod ha, hsame]
        · rcases hr with ⟨hr, hk⟩ | ⟨hr, hk⟩
          · exact Or.inl ⟨hr, by rw [hk]⟩
          · exact Or.inr ⟨hr, Nat.succ_lt_succ hk⟩

/-- On unmapped pages the loop does not panic. -/
theorem mapLoop_ok :
    ∀ {n : ℕ} {m : Phys} {a pa : UInt64}, Tree m 2 p →
      a.toNat % PGSIZE = 0 → a.toNat + n * PGSIZE ≤ MAXVA →
      (∀ i < n, lookup m p (a.toNat + i * PGSIZE) &&& PTE_V = 0) →
      ∃ m' r, mapLoop p perm n m a pa = .ok (m', r)
  | 0, m, a, pa, _, _, _, _ => ⟨m, 0, rfl⟩
  | n + 1, m, a, pa, ht, ha, hrange, hfree => by
    have hnext := toNat_add_page hrange
    rw [mapLoop]
    cases hwalk : walk true m p a with
    | error e =>
      rw [walk, if_neg] at hwalk
      · cases hwalk
      · unfold PGSIZE at hrange
        omega
    | ok res =>
      obtain ⟨m₁, s⟩ := res
      obtain ⟨hva, ht₁, hsame, hslot⟩ := walk_true ht hwalk
      cases s with
      | none => exact ⟨m₁, -1, rfl⟩
      | some s =>
        obtain ⟨q, i⟩ := s
        have hs := hslot _ rfl
        have hpte : m₁.page q i &&& PTE_V = 0 := by
          rw [← lookup_slot ht₁ hs, hsame]
          simpa using hfree 0 (Nat.succ_pos n)
        simp only [hpte, ne_eq, not_true_eq_false, if_false]
        apply mapLoop_ok (ht₁.store hs _).1
        · rw [hnext, Nat.add_mod_right, ha]
        · rw [hnext]
          rw [Nat.succ_mul] at hrange
          omega
        · intro j hj
          have hv : (a + 4096).toNat + j * PGSIZE =
              a.toNat + (j + 1) * PGSIZE := by
            rw [hnext, Nat.succ_mul]
            omega
          rw [hv, lookup_store ht₁ hva hs, if_neg, hsame]
          · exact hfree (j + 1) (Nat.succ_lt_succ hj)
          · rw [pgrounddown_of_mod ha, pgrounddown_of_mod]
            · rw [Nat.succ_mul, PGSIZE]
              omega
            · rw [Nat.add_mul_mod_self_right, ha]
          · have hle : (j + 1) * PGSIZE < (n + 1) * PGSIZE :=
              Nat.mul_lt_mul_of_pos_right (Nat.succ_lt_succ hj)
                (by decide)
            omega

/-! ## `uvmunmap` -/

/-- A page that is not part of the tree is freed. -/
theorem kfree_spec {pa : UInt64} (h : Tree m 2 p)
    (halign : pa.toNat % PGSIZE = 0) (hlow : kernelEnd ≤ pa.toNat)
    (hhigh : pa.toNat < PHYSTOP) (hp : pa ∉ pages m 2 p) (hf : pa ∉ m.freelist) :
    ∃ m', kfree m pa = .ok m' ∧ Tree m' 2 p ∧
      pages m' 2 p = pages m 2 p ∧ m'.freelist = pa :: m.freelist ∧
      ∀ q ∈ pages m 2 p, m'.page q = m.page q := by
  generalize hm' : ({ (m.memset pa 1).store pa 0 (m.freelist.headD 0) with
    freelist := pa :: m.freelist } : Phys) = m'
  have hpage : ∀ q, q ≠ pa → m'.page q = m.page q := by
    intro q hq
    rw [← hm']
    show MemTree.put _ pa 0 _ q = _
    rw [MemTree.put_page_of_ne hq, page_memset_of_ne _ _ hq]
  have hkeep : ∀ q ∈ pages m 2 p, m'.page q = m.page q := by
    intro q hq
    apply hpage
    rintro rfl
    exact hp hq
  have hpages : pages m' 2 p = pages m 2 p :=
    MemTree.pages_congr fun q hq => hkeep q hq.mem_pages
  have hfree : m'.freelist = pa :: m.freelist := by rw [← hm']
  refine ⟨m', ?_, ⟨?_, ?_, ?_⟩, hpages, hfree, hkeep⟩
  · rw [kfree, if_neg, hm']
    omega
  · rw [show MemTree.pages next m'.page 2 p = _ from hpages, hfree]
    apply List.perm_middle.nodup_iff.mpr
    rw [List.nodup_cons, List.mem_append, not_or]
    exact ⟨⟨hp, hf⟩, h.nodup⟩
  · exact MemTree.pointers_congr (fun q hq => hkeep q hq.mem_pages) h.pointers
  · rw [hfree]
    intro q hq
    rcases List.mem_cons.mp hq with rfl | hq
    · exact halign
    · exact h.aligned q hq

/-- The frames mapped in a range can be given to `kfree`: they come from the
allocator, and nothing else uses them. -/
structure Freeable (m : Phys) (p a : UInt64) (n : ℕ) : Prop where
  usable : ∀ i < n, lookup m p (a.toNat + i * PGSIZE) &&& PTE_V ≠ 0 →
    kernelEnd ≤ (pte2pa (lookup m p (a.toNat + i * PGSIZE))).toNat ∧
    (pte2pa (lookup m p (a.toNat + i * PGSIZE))).toNat < PHYSTOP ∧
    pte2pa (lookup m p (a.toNat + i * PGSIZE)) ∉ pages m 2 p ∧
    pte2pa (lookup m p (a.toNat + i * PGSIZE)) ∉ m.freelist
  distinct : ∀ i < n, ∀ j < n,
    lookup m p (a.toNat + i * PGSIZE) &&& PTE_V ≠ 0 →
    lookup m p (a.toNat + j * PGSIZE) &&& PTE_V ≠ 0 →
    pte2pa (lookup m p (a.toNat + i * PGSIZE)) =
      pte2pa (lookup m p (a.toNat + j * PGSIZE)) → i = j

theorem Freeable.tail {m₁ : Phys} (h : Freeable m p a (n + 1))
    (hnext : (a + 4096).toNat = a.toNat + PGSIZE)
    (hpages : pages m₁ 2 p = pages m 2 p)
    (hfree : ∀ q ∈ m₁.freelist, q ∈ m.freelist ∨
      lookup m p a.toNat &&& PTE_V ≠ 0 ∧ q = pte2pa (lookup m p a.toNat))
    (hlook : ∀ i < n, lookup m₁ p (a.toNat + (i + 1) * PGSIZE) =
      lookup m p (a.toNat + (i + 1) * PGSIZE)) :
    Freeable m₁ p (a + 4096) n := by
  have hv : ∀ i, (a + 4096).toNat + i * PGSIZE =
      a.toNat + (i + 1) * PGSIZE := by
    intro i
    rw [hnext, Nat.succ_mul]
    omega
  constructor
  · intro i hi hvalid
    rw [hv, hlook i hi] at hvalid ⊢
    obtain ⟨hlow, hhigh, hnp, hnf⟩ := h.usable (i + 1) (Nat.succ_lt_succ hi)
      hvalid
    refine ⟨hlow, hhigh, by rwa [hpages], fun hmem => ?_⟩
    rcases hfree _ hmem with hmem | ⟨hvalid', heq⟩
    · exact hnf hmem
    · have hzero : a.toNat + 0 * PGSIZE = a.toNat := by
        rw [Nat.zero_mul, Nat.add_zero]
      rw [← hzero] at hvalid' heq
      exact absurd (h.distinct (i + 1) (Nat.succ_lt_succ hi) 0
        (Nat.succ_pos n) hvalid hvalid' heq) (Nat.succ_ne_zero i)
  · intro i hi j hj hvi hvj heq
    rw [hv, hlook i hi] at hvi
    rw [hv, hlook j hj] at hvj
    rw [hv, hv, hlook i hi, hlook j hj] at heq
    have hij := h.distinct (i + 1) (Nat.succ_lt_succ hi) (j + 1)
      (Nat.succ_lt_succ hj) hvi hvj heq
    omega

/-- The valid PTEs of a range are cleared. -/
def Clears (m m' : Phys) (p a : UInt64) (n : ℕ) : Prop :=
  ∀ v < MAXVA, lookup m' p v =
    if a.toNat ≤ v ∧ v < a.toNat + n * PGSIZE ∧
        lookup m p v &&& PTE_V ≠ 0 then 0
    else lookup m p v

/-- What one round of the loop does. -/
structure Round (doFree : Bool) (m m₁ : Phys) (p a : UInt64) : Prop where
  tree : Tree m₁ 2 p
  pages : pages m₁ 2 p = pages m 2 p
  free : ∀ q ∈ m₁.freelist, q ∈ m.freelist ∨
    lookup m p a.toNat &&& PTE_V ≠ 0 ∧ q = pte2pa (lookup m p a.toNat)
  look : ∀ v < MAXVA, lookup m₁ p v =
    if pgrounddown v = a.toNat ∧ lookup m p v &&& PTE_V ≠ 0 then 0
    else lookup m p v

theorem Clears.cons {doFree : Bool} {m m₁ m' : Phys} {p a : UInt64} {n : ℕ}
    (ha : a.toNat % PGSIZE = 0)
    (hnext : (a + 4096).toNat = a.toNat + PGSIZE)
    (hround : Round doFree m m₁ p a) (hrest : Clears m₁ m' p (a + 4096) n) :
    Clears m m' p a (n + 1) := by
  intro v hv
  have h₁ := pgrounddown_le v
  have h₂ := lt_pgrounddown_add v
  by_cases hfirst : pgrounddown v = a.toNat ∧ lookup m p v &&& PTE_V ≠ 0
  · have hzero : lookup m₁ p v = 0 := by
      rw [hround.look v hv, if_pos hfirst]
    rw [hrest v hv, hzero, ite_self, if_pos]
    rw [Nat.succ_mul]
    exact ⟨by omega, by omega, hfirst.2⟩
  · have hsame : lookup m₁ p v = lookup m p v := by
      rw [hround.look v hv, if_neg hfirst]
    rw [hrest v hv, hsame, hnext, Nat.succ_mul]
    refine if_congr ⟨?_, ?_⟩ rfl rfl
    · rintro ⟨hlow, hhigh, hvalid⟩
      exact ⟨by omega, by omega, hvalid⟩
    · rintro ⟨hlow, hhigh, hvalid⟩
      refine ⟨?_, by omega, hvalid⟩
      -- `v` is not in the first page, so it is in a later one
      by_contra hlt
      refine hfirst ⟨?_, hvalid⟩
      unfold pgrounddown PGSIZE at *
      omega

/-- One round finds no page table, no valid PTE, or a PTE to clear. -/
theorem unmapLoop_round {doFree : Bool} (ht : Tree m 2 p)
    (ha : a.toNat % PGSIZE = 0) (hva : a.toNat < MAXVA)
    (hfree : doFree = true → Freeable m p a (n + 1)) :
    ∃ m₁, Round doFree m m₁ p a ∧ unmapLoop p doFree (n + 1) m a =
      unmapLoop p doFree n m₁ (a + 4096) := by
  have hpage : ∀ v, pgrounddown v = a.toNat →
      lookup m p v = lookup m p a.toNat := by
    intro v hv
    apply lookup_page ht
    rw [hv, pgrounddown_of_mod ha]
  have hsame : lookup m p a.toNat &&& PTE_V = 0 → Round doFree m m p a := by
    intro hvalid
    refine ⟨ht, rfl, fun q hq => Or.inl hq, fun v _ => ?_⟩
    rw [if_neg]
    rintro ⟨hv, hno⟩
    apply hno
    rw [hpage v hv, hvalid]
  rw [unmapLoop, walk_false hva]
  cases hs : MemTree.slot next m.page (ix a.toNat) 2 p with
  | none =>
    refine ⟨m, hsame ?_, rfl⟩
    rw [lookup_no_slot ht hs]
    rfl
  | some s =>
    obtain ⟨q, k⟩ := s
    have hlook := lookup_slot ht hs
    by_cases hvalid : m.page q k &&& PTE_V = 0
    · refine ⟨m, hsame (by rw [hlook, hvalid]), ?_⟩
      simp only [hvalid, if_true]
    -- the frame is freed or not, then the PTE is cleared
    have hclear : ∀ m₂, Tree m₂ 2 p → pages m₂ 2 p = pages m 2 p →
        (∀ r ∈ pages m 2 p, m₂.page r = m.page r) →
        (∀ r ∈ m₂.freelist, r ∈ m.freelist ∨ r = pte2pa (m.page q k)) →
        Round doFree m (m₂.store q k 0) p a := by
      intro m₂ ht₂ hpages hkeep hfree₂
      have hs₂ : MemTree.slot next m₂.page (ix a.toNat) 2 p = some (q, k) := by
        rw [← hs]
        exact MemTree.slot_congr fun r hr => hkeep r hr.mem_pages
      obtain ⟨ht₁, hpages₁⟩ := ht₂.store hs₂ 0
      refine ⟨ht₁, hpages₁.trans hpages, fun r hr => ?_, fun v hv => ?_⟩
      · rw [hlook]
        exact (hfree₂ r hr).imp id fun heq => ⟨hvalid, heq⟩
      · have heq : lookup m₂ p v = lookup m p v := by
          rw [ht₂.lookup_eq, ht.lookup_eq]
          exact MemTree.value_congr hkeep
        rw [lookup_store ht₂ hva hs₂ 0 hv, pgrounddown_of_mod ha, heq]
        refine if_congr ⟨fun hv => ⟨hv, ?_⟩, And.left⟩ rfl rfl
        rw [hpage v hv, hlook]
        exact hvalid
    simp only [hvalid, if_false]
    cases doFree with
    | false =>
      exact ⟨m.store q k 0, hclear m ht rfl (fun _ _ => rfl)
        fun r hr => Or.inl hr, rfl⟩
    | true =>
      have hzero : a.toNat + 0 * PGSIZE = a.toNat := by
        rw [Nat.zero_mul, Nat.add_zero]
      have huse := (hfree rfl).usable 0 (Nat.succ_pos n)
      rw [hzero, hlook] at huse
      obtain ⟨hlow, hhigh, hnp, hnf⟩ := huse hvalid
      obtain ⟨m₂, hk, ht₂, hpages, hlist, hkeep⟩ :=
        kfree_spec ht (pte2pa_mod _) hlow hhigh hnp hnf
      refine ⟨m₂.store q k 0, hclear m₂ ht₂ hpages hkeep fun r hr => ?_, ?_⟩
      · rw [hlist, List.mem_cons] at hr
        exact hr.symm
      · rw [if_pos rfl, hk]

theorem unmapLoop_spec {doFree : Bool} :
    ∀ {n : ℕ} {m : Phys} {a : UInt64}, Tree m 2 p → a.toNat % PGSIZE = 0 →
      a.toNat + n * PGSIZE ≤ MAXVA →
      (doFree = true → Freeable m p a n) →
      ∃ m', unmapLoop p doFree n m a = .ok m' ∧ Tree m' 2 p ∧
        Clears m m' p a n
  | 0, m, a, ht, _, _, _ => by
    refine ⟨m, rfl, ht, fun v _ => ?_⟩
    rw [if_neg]
    rintro ⟨hlow, hhigh, -⟩
    omega
  | n + 1, m, a, ht, ha, hrange, hfree => by
    have hnext := toNat_add_page hrange
    have hva : a.toNat < MAXVA := by
      rw [Nat.succ_mul, PGSIZE] at hrange
      omega
    obtain ⟨m₁, hround, hloop⟩ := unmapLoop_round ht ha hva hfree
    have hrange' : (a + 4096).toNat + n * PGSIZE ≤ MAXVA := by
      rw [hnext]
      rw [Nat.succ_mul] at hrange
      omega
    obtain ⟨m', hok, ht', hrest⟩ := unmapLoop_spec (n := n) hround.tree
      (by rw [hnext, Nat.add_mod_right, ha]) hrange' fun hd =>
        (hfree hd).tail hnext hround.pages hround.free fun i hi => by
          rw [hround.look, if_neg]
          · rintro ⟨hpage, -⟩
            rw [pgrounddown_of_mod, Nat.succ_mul, PGSIZE] at hpage
            · omega
            · rw [Nat.add_mul_mod_self_right, ha]
          · have hle : (i + 1) * PGSIZE < (n + 1) * PGSIZE :=
              Nat.mul_lt_mul_of_pos_right (Nat.succ_lt_succ hi) (by decide)
            omega
    exact ⟨m', hloop.trans hok, ht', Clears.cons ha hnext hround hrest⟩

theorem uvmunmap_rounds {npages : UInt64}
    (h : va.toNat + npages.toNat * PGSIZE ≤ MAXVA) :
    ((va + npages * 4096).toNat - va.toNat) / PGSIZE = npages.toNat := by
  have hsum : (va + npages * 4096).toNat =
      va.toNat + npages.toNat * PGSIZE := by
    rw [UInt64.toNat_add, UInt64.toNat_mul,
      show (4096 : UInt64).toNat = PGSIZE from rfl]
    unfold PGSIZE MAXVA at *
    omega
  rw [hsum, Nat.add_sub_cancel_left, Nat.mul_div_cancel _ (by decide)]

/-! ## Everything together -/

theorem walkaddr_eq (h : Tree m 2 p) (hva : va.toNat < MAXVA) :
    walkaddr m p va = .ok (if lookup m p va.toNat &&& PTE_V ≠ 0 ∧
      lookup m p va.toNat &&& PTE_U ≠ 0 then pte2pa (lookup m p va.toNat)
        else 0) := by
  rw [walkaddr, if_neg (Nat.not_le.mpr hva), walk_false hva]
  cases hs : MemTree.slot next m.page (ix va.toNat) 2 p with
  | none =>
    rw [lookup_no_slot h hs]
    rfl
  | some s =>
    obtain ⟨q, k⟩ := s
    rw [lookup_slot h hs]
    by_cases hv : m.page q k &&& PTE_V = 0
    · simp [hv]
    · by_cases hu : m.page q k &&& PTE_U = 0 <;> simp [hv, hu]

/-- **The three-level page table refines a flat map.** For every tree:

* `walk` with `alloc` set changes no lookup;
* when `mappages` returns 0 it has set the PTE of every page of its range, when
  it returns -1 those of a prefix, and it panics on no range of unmapped pages;
* `uvmunmap` clears the valid PTEs of its range;
* `walkaddr` is the physical page of a PTE with `PTE_V` and `PTE_U`;
* addresses that share a slot are in one page.

The result is a tree again. Frames that are to be freed have to come from the
allocator, one for each page. -/
theorem page_table_flat_map {m : Phys} {p : UInt64} (h : Tree m 2 p) :
    (∀ va m' r, walk true m p va = .ok (m', r) →
      Tree m' 2 p ∧ ∀ v, lookup m' p v = lookup m p v) ∧
    (∀ va size pa perm, va.toNat % PGSIZE = 0 → size.toNat % PGSIZE = 0 →
      va.toNat + size.toNat ≤ MAXVA →
      (∀ m' r, mappages m p va size pa perm = .ok (m', r) →
        Tree m' 2 p ∧
        (r = 0 ∧ Maps m m' p va pa perm (size.toNat / PGSIZE) ∨
          r = -1 ∧ ∃ k < size.toNat / PGSIZE, Maps m m' p va pa perm k)) ∧
      (size ≠ 0 → (∀ i < size.toNat / PGSIZE,
        lookup m p (va.toNat + i * PGSIZE) &&& PTE_V = 0) →
        ∃ m' r, mappages m p va size pa perm = .ok (m', r))) ∧
    (∀ va npages doFree, va.toNat % PGSIZE = 0 →
      va.toNat + npages.toNat * PGSIZE ≤ MAXVA →
      (doFree = true → Freeable m p va npages.toNat) →
      ∃ m', uvmunmap m p va npages doFree = .ok m' ∧ Tree m' 2 p ∧
        Clears m m' p va npages.toNat) ∧
    (∀ va, va.toNat < MAXVA →
      walkaddr m p va = .ok (if lookup m p va.toNat &&& PTE_V ≠ 0 ∧
        lookup m p va.toNat &&& PTE_U ≠ 0 then pte2pa (lookup m p va.toNat)
          else 0)) ∧
    ∀ va vb s, walk false m p va = .ok (m, some s) →
      walk false m p vb = .ok (m, some s) →
      pgrounddown va.toNat = pgrounddown vb.toNat := by
  refine ⟨?_, ?_, ?_, fun va hva => walkaddr_eq h hva, ?_⟩
  · intro va m' r hwalk
    obtain ⟨-, ht, hsame, -⟩ := walk_true h hwalk
    exact ⟨ht, hsame⟩
  · intro va size pa perm hva hsize hrange
    have hpages : size.toNat / PGSIZE * PGSIZE = size.toNat :=
      Nat.div_mul_cancel (Nat.dvd_of_mod_eq_zero hsize)
    have hrange' : va.toNat + size.toNat / PGSIZE * PGSIZE ≤ MAXVA := by
      rwa [hpages]
    constructor
    · intro m' r hmap
      rw [mappages, if_neg (not_not_intro hva), if_neg (not_not_intro hsize)]
        at hmap
      split at hmap
      case isTrue => cases hmap
      case isFalse =>
        obtain ⟨ht, k, hk, hr⟩ := mapLoop_spec h hva hrange' hmap
        refine ⟨ht, ?_⟩
        rcases hr with ⟨hr, rfl⟩ | ⟨hr, hlt⟩
        · exact Or.inl ⟨hr, hk⟩
        · exact Or.inr ⟨hr, k, hlt, hk⟩
    · intro hne hfree
      rw [mappages, if_neg (not_not_intro hva), if_neg (not_not_intro hsize),
        if_neg hne]
      exact mapLoop_ok h hva hrange' hfree
  · intro va npages doFree hva hrange hfree
    rw [uvmunmap, if_neg (not_not_intro hva), uvmunmap_rounds hrange]
    exact unmapLoop_spec h hva hrange hfree
  · intro va vb s ha hb
    have hlt : ∀ v : UInt64, walk false m p v = .ok (m, some s) →
        v.toNat < MAXVA := by
      intro v hv
      rw [walk] at hv
      split at hv
      case isTrue => cases hv
      case isFalse hlt => exact Nat.not_le.mp hlt
    have hva := hlt va ha
    have hvb := hlt vb hb
    rw [walk_false hva] at ha
    rw [walk_false hvb] at hb
    injection ha with ha
    injection hb with hb
    apply (ix_eq_iff hva hvb).mp
    exact MemTree.slot_inj h.pages_nodup (congrArg Prod.snd ha)
      (congrArg Prod.snd hb)

/-- An empty page table and two free pages. -/
def emptyTable : Phys where
  page := fun _ _ => 0
  freelist := [0x80101000, 0x80102000]

theorem emptyTable_tree : Tree emptyTable 2 0x80100000 := by
  have hblank : ∀ i, next (emptyTable.page 0x80100000 i) = none :=
    fun _ => next_zero
  refine ⟨?_, MemTree.pointers_of_blank hblank, ?_⟩
  · rw [MemTree.pages_of_blank hblank]
    decide
  · intro q hq
    rcases List.mem_cons.mp hq with rfl | hq
    · rfl
    · cases List.mem_singleton.mp hq
      rfl

theorem page_table_flat_map_emptyTable :
    ∃ m', mappages emptyTable 0x80100000 0x5000 4096 0x80200000 22 =
      .ok (m', 0) ∧
      lookup m' 0x80100000 0x5000 = mkPte 0x80200000 22 ∧
      lookup m' 0x80100000 0x6000 = lookup emptyTable 0x80100000 0x6000 := by
  obtain ⟨⟨m', r⟩, hok, hr⟩ := exists_ok_of_any
    (x := mappages emptyTable 0x80100000 0x5000 4096 0x80200000 22)
    (p := fun res => decide (res.2 = 0)) (by decide +kernel)
  have hr : r = 0 := of_decide_eq_true hr
  subst hr
  obtain ⟨-, hmaps⟩ := ((page_table_flat_map emptyTable_tree).2.1 0x5000 4096
    0x80200000 22 rfl rfl (by decide)).1 m' 0 hok
  rcases hmaps with ⟨-, hmaps⟩ | ⟨hr, -⟩
  · refine ⟨m', hok, ?_, hmaps.outside 0x6000 (by decide) (Or.inr ?_)⟩
    · have hin := hmaps.inside 0 (by decide) 0x5000 (by decide)
      rwa [Nat.zero_mul, show UInt64.ofNat 0 = 0 from rfl,
        UInt64.add_zero] at hin
    · decide
  · exact absurd hr (by decide)

end Xv6.Vm.Sv39
