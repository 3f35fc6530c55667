import Xv6.Framework.Pool
import Xv6.Vm.Checked

/-!
# The frames in use

The frames of the free list, of the pages of a page table and of the user
pages it maps are counted together. Mapping and unmapping user pages move
frames between the three, and give none back that is on the free list
already.
-/

namespace Xv6.Vm

open Framework

/-! ## What a page table owns -/

variable {va : ℕ}

namespace PageTable

/-- The frames mapped below `TRAPFRAME`. -/
def pages (pt : PageTable) : Multiset Frame :=
  ∑ k ∈ Finset.range (TRAPFRAME / PGSIZE),
    (((pt.leaf (k * PGSIZE)).map Leaf.frame).toList : Multiset Frame)

def owned (pt : PageTable) : Multiset Frame := pt.frames + pt.pages

variable {pt pt' : PageTable}

theorem page_lt {k : ℕ} (hk : k ∈ Finset.range (TRAPFRAME / PGSIZE)) :
    k * PGSIZE < TRAPFRAME := by
  rw [Finset.mem_range, Nat.lt_div_iff_mul_lt (by decide)] at hk
  exact Nat.lt_of_lt_of_le hk (Nat.sub_le ..)

theorem mem_range_of_lt (hva : va < TRAPFRAME) :
    va / PGSIZE ∈ Finset.range (TRAPFRAME / PGSIZE) := by
  rw [Finset.mem_range]
  exact Nat.div_lt_div_of_lt_of_dvd (by decide) hva

theorem pages_congr (h : ∀ va < TRAPFRAME, pt'.leaf va = pt.leaf va) :
    pt'.pages = pt.pages := by
  apply Finset.sum_congr rfl
  intro k hk
  rw [h _ (page_lt hk)]

/-- One page more is mapped. -/
theorem pages_cons {l : Leaf} (ha : va % PGSIZE = 0) (hlt : va < TRAPFRAME)
    (hfresh : pt.leaf va = none) (hself : pt'.leaf va = some l)
    (hother : ∀ vb < TRAPFRAME, pgrounddown vb ≠ va →
      pt'.leaf vb = pt.leaf vb) : pt'.pages = l.frame ::ₘ pt.pages := by
  have hva : va / PGSIZE * PGSIZE = va :=
    Nat.div_mul_cancel (Nat.dvd_of_mod_eq_zero ha)
  have hmem := mem_range_of_lt hlt
  refine sum_eq_cons hmem ?_ ?_ ?_
  · rw [hva, hself]
    rfl
  · rw [hva, hfresh]
    rfl
  · intro k hk hne
    rw [hother _ (page_lt hk)]
    rw [pgrounddown_of_mod (Nat.mul_mod_left ..), ← hva]
    intro heq
    exact hne (Nat.eq_of_mul_eq_mul_right (by decide) heq)

/-- One page less is mapped. -/
theorem pages_setPte_none {l : Leaf} (ha : va % PGSIZE = 0)
    (hlt : va < TRAPFRAME) (hl : pt.leaf va = some l) :
    pt.pages = l.frame ::ₘ (pt.setPte va none).pages := by
  have hpage := pgrounddown_of_mod ha
  refine pages_cons ha hlt (leaf_clear_self pt rfl) hl ?_
  intro vb hvb hne
  have hlow : ∀ {v}, v < TRAPFRAME → v < MAXVA := fun h =>
    Nat.lt_trans h TRAPFRAME_lt_MAXVA
  rw [leaf_setPte_of_ne pt none (hlow hlt) (hlow hvb) (by rwa [hpage])]

theorem pages_eq_zero (h : ∀ va < TRAPFRAME, pt.leaf va = none) :
    pt.pages = 0 := by
  apply Finset.sum_eq_zero
  intro k hk
  rw [h _ (page_lt hk)]
  rfl

theorem pages_eq (pt : PageTable) :
    pt.pages = ∑ k ∈ Finset.range (TRAPFRAME / PGSIZE),
      (((pt.leaf (k * PGSIZE)).map Leaf.frame).toList : Multiset Frame) := by
  rw [pages]

-- the sum has 2 ^ 26 terms, nothing should evaluate it
attribute [irreducible] pages

end PageTable

/-! ## What `mappages` takes from the free list -/

/-- The free list and the pages of a page table together. -/
def tables (km : Kmem) (pt : PageTable) : Multiset Frame :=
  km.freelist + pt.frames

variable {km km' : Kmem}

theorem kalloc_tables {f : Frame} (h : kalloc km = some (f, km')) :
    (km.freelist : Multiset Frame) = f ::ₘ km'.freelist := by
  rw [kalloc_some h]
  rfl

variable {pt : PageTable}

theorem walkAllocMid_tables {pt' : PageTable} {m : Mid Frame 512 (Option Leaf)}
    {found : Bool} (hva : va < MAXVA) (hmid : pt.root.entry (px 2 va) = some m)
    (h : walkAllocMid km pt hva m = (km', pt', found)) :
    tables km' pt' = tables km pt := by
  unfold walkAllocMid at h
  cases hj : m.entry (px 1 va) with
  | some l =>
    simp only [hj, Prod.mk.injEq] at h
    obtain ⟨rfl, rfl, rfl⟩ := h
    rfl
  | none =>
    cases halloc : kalloc km with
    | none =>
      simp only [hj, halloc, Prod.mk.injEq] at h
      obtain ⟨rfl, rfl, rfl⟩ := h
      rfl
    | some fk =>
      obtain ⟨f, km₁⟩ := fk
      simp only [hj, halloc, Prod.mk.injEq] at h
      obtain ⟨rfl, rfl, rfl⟩ := h
      have hframes := Multiset.coe_eq_coe.mpr
        (Root.frames_setLeafPage (Table.blank f none) hmid hj)
      rw [tables, tables, kalloc_tables halloc, Kmem.freelist_memset,
        PageTable.frames, PageTable.setMid, hframes, Multiset.cons_add,
        ← Multiset.add_cons]
      rfl

theorem walkAlloc_tables {pt' : PageTable} {found : Bool}
    (h : walkAlloc km pt va = .ok (km', pt', found)) :
    tables km' pt' = tables km pt := by
  unfold walkAlloc at h
  split at h
  · rename_i hva
    cases hmid : pt.root.entry (px 2 va) with
    | some m =>
      simp only [hmid, Except.ok.injEq] at h
      exact walkAllocMid_tables hva hmid h
    | none =>
      cases halloc : kalloc km with
      | none =>
        simp only [hmid, halloc, Except.ok.injEq, Prod.mk.injEq] at h
        obtain ⟨rfl, rfl, rfl⟩ := h
        rfl
      | some fk =>
        obtain ⟨f, km₁⟩ := fk
        simp only [hmid, halloc, Except.ok.injEq] at h
        have hroot : (pt.setMid hva (Table.blank f none)).root.entry
            (px 2 va) = some (Table.blank f none) :=
          Table.entry_set_self ..
        rw [walkAllocMid_tables hva hroot h]
        have hframes := Multiset.coe_eq_coe.mpr
          (Root.frames_setMid_blank f hmid)
        rw [tables, tables, kalloc_tables halloc, Kmem.freelist_memset,
          PageTable.frames, PageTable.setMid, hframes, Multiset.cons_add,
          ← Multiset.add_cons]
        rfl
  · cases h

theorem walkAlloc_ok (km : Kmem) (pt : PageTable) (hva : va < MAXVA) :
    ∃ r, walkAlloc km pt va = .ok r := by
  rw [walkAlloc, dif_pos hva]
  cases pt.root.entry (px 2 va) with
  | some m => exact ⟨_, rfl⟩
  | none =>
    cases kalloc km with
    | none => exact ⟨_, rfl⟩
    | some fk => exact ⟨_, rfl⟩

/-- `mappages` over an empty leaf returns, and takes for the tables what is
missing from the free list afterwards. -/
theorem mappages_tables (km : Kmem) (f : Frame) (perm : Perm)
    (ha : va % PGSIZE = 0) (hva : va < MAXVA) (hleaf : pt.leaf va = none) :
    ∃ km' pt' done, mappages km pt va f perm = .ok (km', pt', done) ∧
      tables km' pt' = tables km pt := by
  obtain ⟨⟨km₁, pt₁, found⟩, hwalk⟩ := walkAlloc_ok km pt hva
  have htables := walkAlloc_tables hwalk
  have hnone : pt₁.leaf va = none := by
    rw [(walkAlloc_spec hwalk).2.1.leaf, hleaf]
  rw [mappages, if_neg (not_not.mpr ha)]
  simp only [hwalk, bind, Except.bind]
  cases found with
  | false => exact ⟨km₁, pt₁, false, rfl, htables⟩
  | true =>
    simp only [if_true, hnone]
    refine ⟨km₁, pt₁.setPte va (some ⟨f, perm⟩), true, rfl, ?_⟩
    rw [tables, PageTable.frames_setPte]
    exact htables

/-! ## The ledger -/

/-- The call returns `r` whatever `kfree` does on a page of the free list, so
it never meets that case. -/
def Always {α : Type} (call : Free → Except Panic α) (r : α) : Prop :=
  ∀ free, StandsIn free → call free = .ok r

theorem Always.bind {α β : Type} {x : Free → Except Panic α}
    {f : Free → α → Except Panic β} {a : α} {b : β} (hx : Always x a)
    (hf : Always (fun free => f free a) b) :
    Always (fun free => x free >>= f free) b := fun free hstands =>
  bind_ok_iff.mpr ⟨a, hx free hstands, hf free hstands⟩

/-- The frames of `pool` are the ones on the free list and the ones in
use. -/
structure Ledger (pool : Multiset Frame) (km : Kmem)
    (used : Multiset Frame) : Prop where
  nodup : pool.Nodup
  usable : ∀ f ∈ pool, f.Usable
  sum : (km.freelist : Multiset Frame) + used = pool

namespace Ledger

variable {pool used : Multiset Frame} {km km' : Kmem} {f : Frame}

theorem congr (h : Ledger pool km used) (hkm : km'.freelist = km.freelist) :
    Ledger pool km' used :=
  ⟨h.nodup, h.usable, by rw [hkm, h.sum]⟩

theorem alloc (h : Ledger pool km used) (halloc : kalloc km = some (f, km')) :
    Ledger pool km' (f ::ₘ used) := by
  refine ⟨h.nodup, h.usable, ?_⟩
  rw [← h.sum, kalloc_tables halloc, Multiset.add_cons, Multiset.cons_add]

/-- A frame in use can be given back. -/
theorem free (h : Ledger pool km (f ::ₘ used)) :
    ∃ km', Always (fun free => free km f) km' ∧ Ledger pool km' used := by
  have hsum := h.sum
  rw [Multiset.add_cons] at hsum
  have husable := h.usable f (hsum ▸ Multiset.mem_cons_self ..)
  have hnot : f ∉ km.freelist := by
    have hnodup := h.nodup
    rw [← hsum, Multiset.nodup_cons] at hnodup
    intro hf
    exact hnodup.1 (Multiset.mem_add.mpr (Or.inl (Multiset.mem_coe.mpr hf)))
  obtain ⟨km', hfree, hlist⟩ := kfree_of_usable km husable
  refine ⟨km', ?_, h.nodup, h.usable, ?_⟩
  · intro free hstands
    exact (hstands km f hnot).trans hfree
  · rw [hlist, ← hsum, ← Multiset.cons_coe, Multiset.cons_add]

end Ledger

variable {pool rest : Multiset Frame} {km : Kmem} {pt : PageTable}

/-- Mapping a fresh frame below `TRAPFRAME`: either it is in the page table
afterwards or it is still to be given back. -/
theorem mappages_ledger {f : Frame} (perm : Perm)
    (h : Ledger pool km (f ::ₘ (pt.owned + rest))) (ha : va % PGSIZE = 0)
    (hva : va < TRAPFRAME) (hleaf : pt.leaf va = none) :
    ∃ km' pt' done, mappages km pt va f perm = .ok (km', pt', done) ∧
      Ledger pool km' (if done then pt'.owned + rest
        else f ::ₘ (pt'.owned + rest)) := by
  obtain ⟨km', pt', done, hmap, htables⟩ := mappages_tables km f perm ha
    (Nat.lt_trans hva TRAPFRAME_lt_MAXVA) hleaf
  refine ⟨km', pt', done, hmap, h.nodup, h.usable, ?_⟩
  have hsum : (tables km pt + pt.pages + rest) + {f} = pool := by
    rw [← h.sum, tables, PageTable.owned, ← Multiset.singleton_add]
    abel
  rw [← htables] at hsum
  rcases mappages_spec hmap with ⟨rfl, hm⟩ | ⟨rfl, hext⟩
  · have hother : ∀ vb < TRAPFRAME, pgrounddown vb ≠ va →
        pt'.leaf vb = pt.leaf vb := fun vb hvb =>
      hm.other vb (Nat.lt_trans hvb TRAPFRAME_lt_MAXVA)
    have hpages := PageTable.pages_cons ha hva hleaf
      (hm.self va (pgrounddown_of_mod ha)) hother
    rw [if_pos rfl, ← hsum, tables, PageTable.owned, hpages,
      ← Multiset.singleton_add]
    abel
  · have hpages : pt'.pages = pt.pages :=
      PageTable.pages_congr fun va _ => hext.leaf va
    rw [if_neg Bool.false_ne_true, ← hsum, tables, PageTable.owned, hpages,
      ← Multiset.singleton_add]
    abel

/-- The trap pages are no user pages: only page-table pages are taken. -/
theorem mappages_ledger_trap (f : Frame) (perm : Perm)
    (h : Ledger pool km (pt.owned + rest)) (ha : va % PGSIZE = 0)
    (htrap : TRAPFRAME ≤ va) (hva : va < MAXVA) (hleaf : pt.leaf va = none) :
    ∃ km' pt' done, mappages km pt va f perm = .ok (km', pt', done) ∧
      Ledger pool km' (pt'.owned + rest) := by
  obtain ⟨km', pt', done, hmap, htables⟩ :=
    mappages_tables km f perm ha hva hleaf
  refine ⟨km', pt', done, hmap, h.nodup, h.usable, ?_⟩
  have hpages : pt'.pages = pt.pages := by
    apply PageTable.pages_congr
    intro vb hvb
    rcases mappages_spec hmap with ⟨-, hm⟩ | ⟨-, hext⟩
    · refine hm.other vb (Nat.lt_trans hvb TRAPFRAME_lt_MAXVA) ?_
      rintro rfl
      exact absurd (Nat.le_trans htrap (pgrounddown_le vb))
        (Nat.not_le.mpr hvb)
    · exact hext.leaf vb
  have hsum : tables km pt + pt.pages + rest = pool := by
    rw [← h.sum, tables, PageTable.owned]
    abel
  rw [← hsum, ← htables, tables, PageTable.owned, hpages]
  abel

/-! ## Unmapping -/

theorem uvmunmapLoopWith_ledger (n : ℕ) : ∀ {a : ℕ} {km : Kmem}
    {pt : PageTable}, a % PGSIZE = 0 → a + n * PGSIZE ≤ TRAPFRAME →
    Ledger pool km (pt.owned + rest) → ∃ km' pt',
      Always (fun free => uvmunmapLoopWith free n a km pt) (km', pt') ∧
      Ledger pool km' (pt'.owned + rest) := by
  induction n with
  | zero =>
    intro a km pt _ _ h
    exact ⟨km, pt, fun _ _ => rfl, h⟩
  | succ n ih =>
    intro a km pt ha hb h
    rw [Nat.succ_mul] at hb
    have hnext : (a + PGSIZE) % PGSIZE = 0 := by simpa using ha
    have hlt : a < TRAPFRAME := by
      unfold PGSIZE at hb
      omega
    have hwalk : walk pt a = .ok (pt.pte a) := by
      rw [walk, if_pos (Nat.lt_trans hlt TRAPFRAME_lt_MAXVA)]
    have hempty : pt.leaf a = none → ∃ km' pt',
        Always (fun free => uvmunmapLoopWith free (n + 1) a km pt)
          (km', pt') ∧ Ledger pool km' (pt'.owned + rest) := by
      intro hnone
      obtain ⟨km', pt', hrest, hled⟩ := ih hnext (by omega) h
      refine ⟨km', pt', ?_, hled⟩
      intro free hstands
      simp only [uvmunmapLoopWith]
      rw [← hrest free hstands, hwalk]
      rw [PageTable.leaf_eq_join] at hnone
      rcases hpte : pt.pte a with _ | _ | l
      · rfl
      · rfl
      · rw [hpte] at hnone
        cases hnone
    cases hl : pt.leaf a with
    | none => exact hempty hl
    | some l =>
      -- the frame of this leaf is in use, so it is not free
      have hcons : Ledger pool km
          (l.frame ::ₘ ((pt.setPte a none).owned + rest)) := by
        refine ⟨h.nodup, h.usable, ?_⟩
        rw [← h.sum, PageTable.owned, PageTable.owned,
          PageTable.pages_setPte_none ha hlt hl,
          PageTable.frames_setPte, ← Multiset.singleton_add,
          ← Multiset.singleton_add]
        abel
      obtain ⟨km₁, hfree, hled₁⟩ := hcons.free
      obtain ⟨km', pt', hrest, hled⟩ := ih hnext (by omega) hled₁
      refine ⟨km', pt', ?_, hled⟩
      rw [PageTable.leaf_eq_join, Option.join_eq_some_iff] at hl
      rw [hl] at hwalk
      simp only [uvmunmapLoopWith]
      exact Always.bind (fun _ _ => hwalk) (hfree.bind hrest)

theorem uvmunmapWith_ledger {npages : ℕ} (ha : va % PGSIZE = 0)
    (hb : va + npages * PGSIZE ≤ TRAPFRAME)
    (h : Ledger pool km (pt.owned + rest)) : ∃ km' pt',
      Always (fun free => uvmunmapWith free km pt va npages) (km', pt') ∧
      Ledger pool km' (pt'.owned + rest) ∧
      Unmapped true npages va km pt km' pt' := by
  have hwrap : va + npages * PGSIZE < 2 ^ 64 :=
    Nat.lt_of_le_of_lt hb (by decide)
  obtain ⟨km', pt', hloop, hled⟩ := uvmunmapLoopWith_ledger npages ha hb h
  have hcall : Always (fun free => uvmunmapWith free km pt va npages)
      (km', pt') := by
    intro free hstands
    simp only [uvmunmapWith]
    rw [if_neg (not_not.mpr ha), uvmunmap_rounds hwrap]
    exact hloop free hstands
  refine ⟨km', pt', hcall, hled, uvmunmap_spec hwrap ?_⟩
  rw [← uvmunmapWith_kfree]
  exact hcall kfree standsIn_kfree

end Xv6.Vm
