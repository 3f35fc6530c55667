import Xv6.Vm.Conserve
import Xv6.Vm.Contents

/-!
# Growing and copying are all or nothing

`uvmalloc` and `uvmcopy` can run out of memory in any round, for the page
itself or for a page of the page table that holds its entry. Either all pages
are there at the end, in fresh frames with the right bytes, or none of them
is and the frames that were taken for them are free again. The pages of the
page table that were added stay.
-/

namespace Xv6.Vm

open Framework

variable {km km' : Kmem} {pt pt' : PageTable} {g : Frame}

variable {vb : ℕ}

/-- Past the page at `a` comes the next one. -/
theorem next_page_le {a : ℕ} (ha : a % PGSIZE = 0) (hlo : a ≤ vb)
    (hpage : pgrounddown vb ≠ a) : a + PGSIZE ≤ vb := by
  unfold pgrounddown PGSIZE at *
  omega

/-! ## Bytes that stay -/

variable {n : ℕ}

theorem mem_memset (km : Kmem) (a : ℕ) (c : UInt8) {k : ℕ} (hk : k < n) :
    (km.memset a c n).mem (a + k) = c :=
  if_pos ⟨Nat.le_add_right a k, Nat.add_lt_add_left hk a⟩

theorem mem_memmove (km : Kmem) (a : ℕ) (src : ℕ → UInt8) {k : ℕ} (hk : k < n) :
    (km.memmove a src n).mem (a + k) = src k := by
  refine (if_pos ⟨Nat.le_add_right a k, Nat.add_lt_add_left hk a⟩).trans ?_
  rw [Nat.add_sub_cancel_left]

variable {f : Frame}

theorem kfree_sameIn (h : kfree km f = .ok km') (hne : f ≠ g) :
    km.SameIn km' g := by
  unfold kfree at h
  split at h
  · cases h
  · cases h
    exact @sameIn_memset ⟨f :: km.freelist, km.mem⟩ f g hne 1 f.pa PGSIZE
      (Nat.le_refl _) (Nat.le_refl _)

/-- Pages were given back, and nothing else was written. -/
structure Frees (km km' : Kmem) : Prop where
  free : km.freelist ⊆ km'.freelist
  same : ∀ g ∉ km'.freelist, km.SameIn km' g

theorem Frees.refl (km : Kmem) : Frees km km :=
  ⟨List.Subset.refl _, fun _ _ _ _ => rfl⟩

theorem Frees.trans {km₁ : Kmem} (h : Frees km km₁) (h' : Frees km₁ km') :
    Frees km km' where
  free := List.Subset.trans h.free h'.free
  same := fun g hg =>
    (h.same g fun hmem => hg (h'.free hmem)).trans (h'.same g hg)

theorem kfree_frees (h : kfree km f = .ok km') : Frees km km' := by
  have hlist := (kfree_ok h).2
  refine ⟨?_, ?_⟩
  · rw [hlist]
    exact List.subset_cons_self ..
  · intro g hg
    apply kfree_sameIn h
    rintro rfl
    rw [hlist] at hg
    exact hg List.mem_cons_self

theorem uvmunmapLoop_frees {doFree : Bool} : ∀ {n a : ℕ} {km km' : Kmem}
    {pt pt' : PageTable},
    uvmunmapLoop doFree n a km pt = .ok (km', pt') → Frees km km'
  | 0, a, km, km', pt, pt', h => by
    cases h
    exact .refl km
  | n + 1, a, km, km', pt, pt', h => by
    rw [uvmunmapLoop] at h
    obtain ⟨e, -, h⟩ := bind_ok_iff.mp h
    rcases e with _ | _ | l
    · exact uvmunmapLoop_frees h
    · exact uvmunmapLoop_frees h
    · obtain ⟨km₁, hfree, h⟩ := bind_ok_iff.mp h
      refine Frees.trans ?_ (uvmunmapLoop_frees h)
      cases doFree with
      | true => exact kfree_frees hfree
      | false =>
        cases hfree
        exact .refl km

variable {va : ℕ}

theorem uvmunmap_frees {npages : ℕ} {doFree : Bool}
    (h : uvmunmap km pt va npages doFree = .ok (km', pt')) : Frees km km' := by
  unfold uvmunmap at h
  split at h
  · cases h
  · exact uvmunmapLoop_frees h

theorem freewalkLeafPage_frees {t : Table Frame 512 (Option Leaf)}
    (h : freewalkLeafPage km t = .ok km') : Frees km km' := by
  unfold freewalkLeafPage at h
  split at h
  · cases h
  · exact kfree_frees h

theorem freewalkMid_frees {m : Mid Frame 512 (Option Leaf)}
    (h : freewalkMid km m = .ok km') : Frees km km' := by
  obtain ⟨km₁, hloop, hfree⟩ := bind_ok_iff.mp h
  refine Frees.trans (foldlM_invariant ?_ (Frees.refl km) hloop)
    (kfree_frees hfree)
  intro km₂ j km₃ hkm hround
  refine hkm.trans ?_
  cases hj : m.entry j with
  | none =>
    rw [hj] at hround
    cases hround
    exact .refl km₂
  | some t =>
    rw [hj] at hround
    exact freewalkLeafPage_frees hround

theorem freewalk_frees (h : freewalk km pt = .ok km') : Frees km km' := by
  obtain ⟨km₁, hloop, hfree⟩ := bind_ok_iff.mp h
  refine Frees.trans (foldlM_invariant ?_ (Frees.refl km) hloop)
    (kfree_frees hfree)
  intro km₂ i km₃ hkm hround
  refine hkm.trans ?_
  cases hi : pt.root.entry i with
  | none =>
    rw [hi] at hround
    cases hround
    exact .refl km₂
  | some m =>
    rw [hi] at hround
    exact freewalkMid_frees hround

variable {sz : ℕ}

theorem uvmfree_frees (h : uvmfree km pt sz = .ok km') : Frees km km' := by
  unfold uvmfree at h
  split at h
  · obtain ⟨⟨km₁, pt₁⟩, hun, h⟩ := bind_ok_iff.mp h
    exact (uvmunmap_frees hun).trans (freewalk_frees h)
  · exact freewalk_frees h

/-- Discarding a page table writes to nothing that stays in use. -/
theorem procFreepagetable_frees (h : procFreepagetable km pt sz = .ok km') :
    Frees km km' := by
  obtain ⟨⟨km₁, pt₁⟩, hun₁, h⟩ := bind_ok_iff.mp h
  obtain ⟨⟨km₂, pt₂⟩, hun₂, h⟩ := bind_ok_iff.mp h
  exact ((uvmunmap_frees hun₁).trans (uvmunmap_frees hun₂)).trans
    (uvmfree_frees h)

/-- Unmapping writes to the frames it gives back. -/
theorem uvmunmapLoop_sameIn : ∀ {n a : ℕ} {km km' : Kmem}
    {pt pt' : PageTable}, a % PGSIZE = 0 → a + n * PGSIZE ≤ MAXVA →
    uvmunmapLoop true n a km pt = .ok (km', pt') →
    g ∉ leafFrames pt n a → km.SameIn km' g
  | 0, a, km, km', pt, pt', _, _, h, _ => by
    cases h
    exact fun _ _ => rfl
  | n + 1, a, km, km', pt, pt', ha, hb, h, hg => by
    rw [Nat.succ_mul] at hb
    have hnext : (a + PGSIZE) % PGSIZE = 0 := by simpa using ha
    rw [leafFrames, List.mem_append, not_or] at hg
    rw [uvmunmapLoop] at h
    obtain ⟨e, hwalk, h⟩ := bind_ok_iff.mp h
    have hleaf : pt.leaf a = e.join := by
      unfold walk at hwalk
      split at hwalk
      · cases hwalk
        rfl
      · cases hwalk
    rcases e with _ | _ | l
    · exact uvmunmapLoop_sameIn hnext (by omega) h hg.2
    · exact uvmunmapLoop_sameIn hnext (by omega) h hg.2
    · obtain ⟨km₁, hfree, h⟩ := bind_ok_iff.mp h
      have hne : l.frame ≠ g := by
        rintro rfl
        apply hg.1
        rw [hleaf]
        exact List.mem_singleton.mpr rfl
      refine (kfree_sameIn hfree hne).trans
        (uvmunmapLoop_sameIn hnext (by omega) h ?_)
      rw [leafFrames_setPte pt none ha (by omega)]
      exact hg.2

theorem uvmunmap_sameIn {npages : ℕ} (hb : va + npages * PGSIZE ≤ MAXVA)
    (h : uvmunmap km pt va npages true = .ok (km', pt'))
    (hg : ∀ vb, va ≤ vb → vb < va + npages * PGSIZE → ∀ l,
      pt.leaf vb = some l → l.frame ≠ g) : km.SameIn km' g := by
  have hb' : va + npages * PGSIZE < 2 ^ 64 := by
    unfold MAXVA at hb
    omega
  unfold uvmunmap at h
  split at h
  · cases h
  · rename_i ha
    rw [uvmunmap_rounds hb'] at h
    refine uvmunmapLoop_sameIn (not_not.mp ha) hb h ?_
    intro hmem
    obtain ⟨k, hk, l, hl, hframe⟩ := mem_leafFrames.mp hmem
    refine hg (va + k * PGSIZE) (Nat.le_add_right ..) ?_ l hl hframe
    unfold PGSIZE
    omega

variable {oldsz newsz : ℕ}

theorem uvmdealloc_sameIn {r : ℕ} (hold : oldsz ≤ TRAPFRAME)
    (h : uvmdealloc km pt oldsz newsz = .ok (km', pt', r))
    (hg : ∀ vb, pgroundup newsz ≤ vb → vb < pgroundup oldsz → ∀ l,
      pt.leaf vb = some l → l.frame ≠ g) : km.SameIn km' g := by
  have hup := pgroundup_le_TRAPFRAME hold
  unfold uvmdealloc at h
  split at h
  · cases h
    exact fun _ _ => rfl
  · split at h
    · rename_i hround
      obtain ⟨⟨km₁, pt₁⟩, hun, h⟩ := bind_ok_iff.mp h
      cases h
      have hcount : pgroundup newsz +
          (pgroundup oldsz - pgroundup newsz) / PGSIZE * PGSIZE =
            pgroundup oldsz := by
        have h₁ := pgroundup_mod oldsz
        have h₂ := pgroundup_mod newsz
        unfold PGSIZE at *
        omega
      have hpages : (pgroundup oldsz - pgroundup newsz) / PGSIZE < 2 ^ 31 := by
        have htrap : TRAPFRAME < 2 ^ 38 := by decide
        unfold PGSIZE
        omega
      rw [toUint64_toInt32 hpages] at hun
      refine uvmunmap_sameIn ?_ hun ?_
      · rw [hcount]
        exact Nat.le_trans hup (Nat.le_of_lt TRAPFRAME_lt_MAXVA)
      · rw [hcount]
        exact hg
    · cases h
      exact fun _ _ => rfl

/-! ## Fresh pages -/

/-- The page at `va` is in a frame that was free before and is not any
more. -/
structure FreshPage (km km' : Kmem) (pt' : PageTable) (va : ℕ) (perm : Perm)
    (bytes : ℕ → UInt8) (f : Frame) : Prop where
  leaf : pt'.leaf va = some ⟨f, perm⟩
  was_free : f ∈ km.freelist
  taken : f ∉ km'.freelist
  bytes : ∀ k < PGSIZE, km'.mem (f.pa + k) = bytes k

section FreshPage

variable {km₁ km₂ : Kmem} {pt₁ pt₂ : PageTable} {va : ℕ} {perm : Perm}
  {bytes : ℕ → UInt8} {f : Frame}

/-- What comes after the mapping of a page does not touch it. -/
theorem FreshPage.later (h : FreshPage km km₁ pt₁ va perm bytes f)
    (hspares : Spares km₁ km') (hleaf : pt'.leaf va = pt₁.leaf va) :
    FreshPage km km' pt' va perm bytes f where
  leaf := hleaf.trans h.leaf
  was_free := h.was_free
  taken := fun hmem => h.taken (hspares.free.subset hmem)
  bytes := fun k hk => (hspares.same f h.taken k hk).trans (h.bytes k hk)

/-- What came before the mapping of a page took other frames. -/
theorem FreshPage.earlier (h : FreshPage km₁ km' pt' va perm bytes f)
    (hspares : Spares km km₁) {bytes' : ℕ → UInt8}
    (hbytes : ∀ k < PGSIZE, bytes k = bytes' k) :
    FreshPage km km' pt' va perm bytes' f where
  leaf := h.leaf
  was_free := hspares.free.subset h.was_free
  taken := h.taken
  bytes := fun k hk => (h.bytes k hk).trans (hbytes k hk)

/-- A frame from `kalloc` that was filled and then mapped. -/
theorem freshPage_of_mappages (hnodup : km.freelist.Nodup)
    (halloc : kalloc km = some (f, km₁))
    (hmap : mappages km₂ pt va f perm = .ok (km', pt', true))
    (hlist : km₂.freelist = km₁.freelist)
    (hbytes : ∀ k < PGSIZE, km₂.mem (f.pa + k) = bytes k)
    (hpage : pgrounddown vb = va) : FreshPage km km' pt' vb perm bytes f := by
  have hspares := mappages_spares hmap
  have hnot : f ∉ km₂.freelist := by
    rw [kalloc_some halloc] at hnodup
    rw [hlist]
    exact (List.nodup_cons.mp hnodup).1
  rcases mappages_spec hmap with ⟨-, hm⟩ | ⟨hfalse, -⟩
  · refine ⟨hm.self vb hpage, mem_of_kalloc halloc,
      fun hmem => hnot (hspares.free.subset hmem), ?_⟩
    intro k hk
    rw [hspares.same f hnot k hk, hbytes k hk]
  · cases hfalse

end FreshPage

/-! ## Growing -/

variable {lo : ℕ} {perm : Perm}

/-- A round of `uvmalloc` maps a page, or memory has run out and only the
pages mapped so far are left to give back. -/
theorem uvmallocLoop_cases {a : ℕ} {done : Bool}
    (h : uvmallocLoop lo perm (n + 1) a km pt = .ok (km', pt', done)) :
    (∃ f km₁ km₂ pt₂, kalloc km = some (f, km₁) ∧
      mappages (km₁.memset f.pa 0 PGSIZE) pt a f perm =
        .ok (km₂, pt₂, true) ∧
      uvmallocLoop lo perm n (a + PGSIZE) km₂ pt₂ = .ok (km', pt', done)) ∨
    (done = false ∧ ∃ km₁ pt₁ r, (∀ vb, pt₁.leaf vb = pt.leaf vb) ∧
      (∀ g ∉ km.freelist, km.SameIn km₁ g) ∧
      uvmdealloc km₁ pt₁ a lo = .ok (km', pt', r)) := by
  unfold uvmallocLoop at h
  cases halloc : kalloc km with
  | none =>
    simp only [halloc] at h
    obtain ⟨⟨km₁, pt₁, r⟩, hde, h⟩ := bind_ok_iff.mp h
    cases h
    exact Or.inr ⟨rfl, km, pt, r, fun _ => rfl, fun _ _ _ _ => rfl, hde⟩
  | some fk =>
    obtain ⟨f, km₁⟩ := fk
    simp only [halloc] at h
    obtain ⟨⟨km₂, pt₂, mapped⟩, hmap, h⟩ := bind_ok_iff.mp h
    rcases mappages_spec hmap with ⟨rfl, -⟩ | ⟨rfl, hext⟩
    · exact Or.inl ⟨f, km₁, km₂, pt₂, rfl, hmap, h⟩
    · simp only [Bool.false_eq_true, if_false] at h
      obtain ⟨km₃, hgive, h⟩ := bind_ok_iff.mp h
      obtain ⟨⟨km₄, pt₄, r⟩, hde, h⟩ := bind_ok_iff.mp h
      cases h
      refine Or.inr ⟨rfl, km₃, pt₂, r, hext.leaf, ?_, hde⟩
      intro g hg
      have hne : f ≠ g := by
        rintro rfl
        exact hg (mem_of_kalloc halloc)
      exact (((kalloc_zero_spares halloc).trans
        (mappages_spares hmap)).same g hg).trans (kfree_sameIn hgive hne)

/-- Growing writes only to frames that were free and to those it mapped
itself. -/
theorem uvmallocLoop_sameIn (hlo : lo % PGSIZE = 0) (n : ℕ) :
    ∀ {a : ℕ} {km km' : Kmem} {pt pt' : PageTable} {done : Bool},
    a % PGSIZE = 0 → a + n * PGSIZE ≤ TRAPFRAME → lo ≤ a →
    g ∉ km.freelist →
    (∀ vb, lo ≤ vb → vb < a → ∀ l, pt.leaf vb = some l → l.frame ≠ g) →
    uvmallocLoop lo perm n a km pt = .ok (km', pt', done) →
    km.SameIn km' g := by
  induction n with
  | zero =>
    intro a km km' pt pt' done _ _ _ _ _ h
    cases h
    exact fun _ _ => rfl
  | succ n ih =>
    intro a km km' pt pt' done ha hb hle hfree hg h
    rw [Nat.succ_mul] at hb
    rcases uvmallocLoop_cases h with
      ⟨f, km₁, km₂, pt₂, halloc, hmap, h⟩ | ⟨rfl, km₁, pt₁, r, hsame, hkept, h⟩
    · have hspares := (kalloc_zero_spares halloc).trans (mappages_spares hmap)
      refine (hspares.same g hfree).trans (ih (by simpa using ha) (by omega)
        (by omega) (fun hmem => hfree (hspares.free.subset hmem)) ?_ h)
      intro vb hl hh l hleaf
      rcases mappages_spec hmap with ⟨-, hm⟩ | ⟨hfalse, -⟩
      · by_cases hpage : pgrounddown vb = a
        · rw [hm.self vb hpage] at hleaf
          cases hleaf
          rintro rfl
          exact hfree (mem_of_kalloc halloc)
        · have hmax : vb < MAXVA := by
            have := TRAPFRAME_lt_MAXVA
            omega
          rw [hm.other vb hmax hpage] at hleaf
          refine hg vb hl ?_ l hleaf
          by_contra hge
          have := next_page_le ha (Nat.not_lt.mp hge) hpage
          omega
      · cases hfalse
    · have hbound : a < 2 ^ 63 :=
        Nat.lt_of_le_of_lt (by omega : a ≤ TRAPFRAME) (by decide)
      refine (hkept g hfree).trans (uvmdealloc_sameIn (by omega) h ?_)
      rw [pgroundup_of_mod (by omega) hlo, pgroundup_of_mod hbound ha]
      intro vb hl hh l hleaf
      exact hg vb hl hh l (by rw [← hsame, hleaf])

/-- When it goes through, every page of the range is fresh and zero. -/
theorem uvmallocLoop_fresh (n : ℕ) : ∀ {a : ℕ}
    {km km' : Kmem} {pt pt' : PageTable}, a % PGSIZE = 0 →
    a + n * PGSIZE ≤ TRAPFRAME → km.freelist.Nodup →
    uvmallocLoop lo perm n a km pt = .ok (km', pt', true) →
    Spares km km' ∧
      (∀ vb < MAXVA, ¬ (a ≤ vb ∧ vb < a + n * PGSIZE) →
        pt'.leaf vb = pt.leaf vb) ∧
      ∀ vb, a ≤ vb → vb < a + n * PGSIZE → ∃ f,
        FreshPage km km' pt' vb perm (fun _ => 0) f := by
  induction n with
  | zero =>
    intro a km km' pt pt' _ _ _ h
    cases h
    exact ⟨.refl _, fun _ _ _ => rfl, fun vb hlo hhi => by omega⟩
  | succ n ih =>
    intro a km km' pt pt' ha hb hnodup h
    rw [Nat.succ_mul] at hb ⊢
    rcases uvmallocLoop_cases h with
      ⟨f, km₁, km₂, pt₂, halloc, hmap, h⟩ | ⟨hfalse, -⟩
    · have hspares := (kalloc_zero_spares halloc).trans (mappages_spares hmap)
      obtain ⟨hrest, hout, hin⟩ := ih (by simpa using ha) (by omega)
        (hnodup.sublist hspares.free) h
      refine ⟨hspares.trans hrest, ?_, ?_⟩
      · intro vb hvb hnot
        rcases mappages_spec hmap with ⟨-, hm⟩ | ⟨hfalse, -⟩
        · rw [hout vb hvb (by omega), hm.other vb hvb]
          rintro rfl
          have := pgrounddown_le vb
          have := lt_pgrounddown_add vb
          omega
        · cases hfalse
      · intro vb hlo hhi
        by_cases hpage : pgrounddown vb = a
        · have hfresh := freshPage_of_mappages hnodup halloc hmap rfl
            (fun k hk => mem_memset km₁ f.pa 0 hk) hpage
          refine ⟨f, hfresh.later hrest (hout vb ?_ ?_)⟩
          · have := TRAPFRAME_lt_MAXVA
            omega
          · have := lt_pgrounddown_add vb
            omega
        · have hhi' : vb < a + PGSIZE + n * PGSIZE := by omega
          obtain ⟨f', hf'⟩ := hin vb (next_page_le ha hlo hpage) hhi'
          exact ⟨f', hf'.earlier hspares fun _ _ => rfl⟩
    · cases hfalse

/-! ## Copying -/

/-- `memmove` of a page into the frame that `kalloc` returned. -/
def copyPage (km : Kmem) (f src : Frame) : Kmem :=
  km.memmove f.pa (fun k => km.mem (src.pa + k)) PGSIZE

theorem kalloc_copy_spares {src : Frame} {km₁ : Kmem}
    (halloc : kalloc km = some (f, km₁)) : Spares km (copyPage km₁ f src) where
  free := (kalloc_spares halloc).free
  same := by
    intro g hg
    refine (kalloc_sameIn halloc hg).trans ?_
    intro k hk
    refine if_neg ?_
    rintro ⟨hlo, hhi⟩
    have hne : f ≠ g := by
      rintro rfl
      exact hg (mem_of_kalloc halloc)
    exact Frame.add_ne hne hk (g.pa + k) ⟨hlo, hhi⟩ rfl

variable {old : PageTable}

/-- A round of `uvmcopy` finds nothing, copies a page, or memory has run out
and only the pages copied so far are left to give back. -/
theorem uvmcopyLoop_cases {new new' : PageTable} {i : ℕ} {done : Bool}
    (hlt : i < TRAPFRAME)
    (h : uvmcopyLoop old (n + 1) i km new = .ok (km', new', done)) :
    (old.leaf i = none ∧
      uvmcopyLoop old n (i + PGSIZE) km new = .ok (km', new', done)) ∨
    (∃ l f km₁ km₂ new₂, old.leaf i = some l ∧ kalloc km = some (f, km₁) ∧
      mappages (copyPage km₁ f l.frame) new i f l.perm =
        .ok (km₂, new₂, true) ∧
      uvmcopyLoop old n (i + PGSIZE) km₂ new₂ = .ok (km', new', done)) ∨
    (done = false ∧ ∃ km₁ new₁, (∀ vb, new₁.leaf vb = new.leaf vb) ∧
      (∀ g ∉ km.freelist, km.SameIn km₁ g) ∧
      uvmunmap km₁ new₁ 0 (i / PGSIZE) true = .ok (km', new')) := by
  have hwalk : walk old i = .ok (old.pte i) :=
    if_pos (Nat.lt_trans hlt TRAPFRAME_lt_MAXVA)
  rw [uvmcopyLoop, hwalk] at h
  rw [PageTable.leaf_eq_join]
  rcases hpte : old.pte i with _ | _ | l
  · rw [hpte] at h
    exact Or.inl ⟨rfl, h⟩
  · rw [hpte] at h
    exact Or.inl ⟨rfl, h⟩
  · rw [hpte] at h
    refine Or.inr ?_
    simp only [bind, Except.bind] at h
    cases halloc : kalloc km with
    | none =>
      simp only [halloc] at h
      obtain ⟨⟨km₁, pt₁⟩, hun, h⟩ := bind_ok_iff.mp h
      cases h
      exact Or.inr ⟨rfl, km, new, fun _ => rfl, fun _ _ _ _ => rfl, hun⟩
    | some fk =>
      obtain ⟨f, km₁⟩ := fk
      simp only [halloc] at h
      obtain ⟨⟨km₂, new₂, mapped⟩, hmap, h⟩ := bind_ok_iff.mp h
      rcases mappages_spec hmap with ⟨rfl, -⟩ | ⟨rfl, hext⟩
      · exact Or.inl ⟨l, f, km₁, km₂, new₂, rfl, rfl, hmap, h⟩
      · simp only [Bool.false_eq_true, if_false] at h
        obtain ⟨km₃, hgive, h⟩ := bind_ok_iff.mp h
        obtain ⟨⟨km₄, new₄⟩, hun, h⟩ := bind_ok_iff.mp h
        cases h
        refine Or.inr ⟨rfl, km₃, new₂, hext.leaf, ?_, hun⟩
        intro g hg
        have hne : f ≠ g := by
          rintro rfl
          exact hg (mem_of_kalloc halloc)
        exact (((kalloc_copy_spares halloc).trans
          (mappages_spares hmap)).same g hg).trans (kfree_sameIn hgive hne)

/-- The pages that `uvmcopy` gives back are the ones below `i`. -/
theorem span_div_mul {i : ℕ} (hi : i % PGSIZE = 0) :
    0 + i / PGSIZE * PGSIZE = i := by
  unfold PGSIZE at *
  omega

/-- Copying writes only to frames that were free and to those it mapped
itself. -/
theorem uvmcopyLoop_sameIn (n : ℕ) : ∀ {i : ℕ}
    {km km' : Kmem} {new new' : PageTable} {done : Bool}, i % PGSIZE = 0 →
    i + n * PGSIZE ≤ TRAPFRAME → g ∉ km.freelist →
    (∀ vb < i + n * PGSIZE, ∀ l, new.leaf vb = some l → l.frame ≠ g) →
    uvmcopyLoop old n i km new = .ok (km', new', done) →
    km.SameIn km' g := by
  induction n with
  | zero =>
    intro i km km' new new' done _ _ _ _ h
    cases h
    exact fun _ _ => rfl
  | succ n ih =>
    intro i km km' new new' done hi hb hfree hg h
    rw [Nat.succ_mul, Nat.add_comm (n * PGSIZE), ← Nat.add_assoc] at hb hg
    have hnext : (i + PGSIZE) % PGSIZE = 0 := by simpa using hi
    have hlt : i < TRAPFRAME := by
      unfold PGSIZE at hb
      omega
    rcases uvmcopyLoop_cases hlt h with ⟨-, h⟩ |
      ⟨l, f, km₁, km₂, new₂, -, halloc, hmap, h⟩ |
      ⟨rfl, km₁, new₁, hsame, hkept, h⟩
    · exact ih hnext hb hfree hg h
    · have hspares := (kalloc_copy_spares halloc).trans (mappages_spares hmap)
      refine (hspares.same g hfree).trans (ih hnext hb
        (fun hmem => hfree (hspares.free.subset hmem)) ?_ h)
      intro vb hvb l' hleaf
      rcases mappages_spec hmap with ⟨-, hm⟩ | ⟨hfalse, -⟩
      · by_cases hpage : pgrounddown vb = i
        · rw [hm.self vb hpage] at hleaf
          cases hleaf
          rintro rfl
          exact hfree (mem_of_kalloc halloc)
        · have hmax : vb < MAXVA := Nat.lt_trans
            (Nat.lt_of_lt_of_le hvb hb) TRAPFRAME_lt_MAXVA
          rw [hm.other vb hmax hpage] at hleaf
          exact hg vb hvb l' hleaf
      · cases hfalse
    · refine (hkept g hfree).trans (uvmunmap_sameIn ?_ h ?_)
      · rw [span_div_mul hi]
        exact Nat.le_of_lt (Nat.lt_trans hlt TRAPFRAME_lt_MAXVA)
      · rw [span_div_mul hi]
        intro vb _ hvb l hleaf
        exact hg vb (by omega) l (by rw [← hsame, hleaf])

/-- When it goes through, the pages that the parent has in the range are
copied to fresh frames. -/
theorem uvmcopyLoop_fresh (n : ℕ) : ∀ {i : ℕ}
    {km km' : Kmem} {new new' : PageTable}, i % PGSIZE = 0 →
    i + n * PGSIZE ≤ TRAPFRAME → km.freelist.Nodup →
    (∀ vb < i + n * PGSIZE, ∀ l, old.leaf vb = some l →
      l.frame ∉ km.freelist) →
    uvmcopyLoop old n i km new = .ok (km', new', true) →
    Spares km km' ∧
      (∀ vb < MAXVA, (i ≤ vb ∧ vb < i + n * PGSIZE → old.leaf vb = none) →
        new'.leaf vb = new.leaf vb) ∧
      ∀ vb, i ≤ vb → vb < i + n * PGSIZE → ∀ l, old.leaf vb = some l → ∃ f,
        FreshPage km km' new' vb l.perm
          (fun k => km.mem (l.frame.pa + k)) f := by
  induction n with
  | zero =>
    intro i km km' new new' _ _ _ _ h
    cases h
    exact ⟨.refl _, fun _ _ _ => rfl, fun vb hlo hhi => by omega⟩
  | succ n ih =>
    intro i km km' new new' hi hb hnodup hused h
    rw [Nat.succ_mul, Nat.add_comm (n * PGSIZE), ← Nat.add_assoc]
      at hb hused ⊢
    have hnext : (i + PGSIZE) % PGSIZE = 0 := by simpa using hi
    have hlt : i < TRAPFRAME := by
      unfold PGSIZE at hb
      omega
    rcases uvmcopyLoop_cases hlt h with ⟨hnone, h⟩ |
      ⟨l, f, km₁, km₂, new₂, hl, halloc, hmap, h⟩ | ⟨hfalse, -⟩
    · obtain ⟨hrest, hout, hin⟩ := ih hnext hb hnodup hused h
      refine ⟨hrest, ?_, ?_⟩
      · intro vb hvb hrange
        exact hout vb hvb fun hr => hrange ⟨by omega, hr.2⟩
      · intro vb hlo hhi l hl
        by_cases hpage : pgrounddown vb = i
        · rw [← old.leaf_pgrounddown, hpage, hnone] at hl
          cases hl
        · exact hin vb (next_page_le hi hlo hpage) hhi l hl
    · have hspares := (kalloc_copy_spares halloc).trans (mappages_spares hmap)
      obtain ⟨hrest, hout, hin⟩ := ih hnext hb (hnodup.sublist hspares.free)
        (fun vb hvb l hl hmem => hused vb hvb l hl (hspares.free.subset hmem))
        h
      have hself : l.frame ∉ km.freelist :=
        hused i (by unfold PGSIZE; omega) l hl
      refine ⟨hspares.trans hrest, ?_, ?_⟩
      · intro vb hvb hrange
        have hpage : pgrounddown vb ≠ i := by
          rintro rfl
          have hle := pgrounddown_le vb
          have hgt := lt_pgrounddown_add vb
          have hnone := hrange ⟨hle, by omega⟩
          rw [old.leaf_pgrounddown, hnone] at hl
          cases hl
        rcases mappages_spec hmap with ⟨-, hm⟩ | ⟨hfalse, -⟩
        · rw [hout vb hvb fun hr => hrange ⟨by omega, hr.2⟩,
            hm.other vb hvb hpage]
        · cases hfalse
      · intro vb hlo hhi l' hl'
        by_cases hpage : pgrounddown vb = i
        · rw [← old.leaf_pgrounddown, hpage, hl] at hl'
          cases hl'
          have hbytes : ∀ k < PGSIZE, (copyPage km₁ f l.frame).mem (f.pa + k) =
              km.mem (l.frame.pa + k) := by
            intro k hk
            rw [copyPage, mem_memmove _ _ _ hk]
            exact kalloc_sameIn halloc hself k hk
          have hfresh := freshPage_of_mappages hnodup halloc hmap rfl hbytes
            hpage
          refine ⟨f, hfresh.later hrest (hout vb ?_ ?_)⟩
          · exact Nat.lt_trans (Nat.lt_of_lt_of_le hhi hb) TRAPFRAME_lt_MAXVA
          · have := lt_pgrounddown_add vb
            omega
        · obtain ⟨f', hf'⟩ :=
            hin vb (next_page_le hi hlo hpage) hhi l' hl'
          exact ⟨f', hf'.earlier hspares
            (hspares.same l'.frame (hused vb hhi l' hl'))⟩
    · cases hfalse

/-- When it fails, every leaf is as it was before the first round. -/
theorem uvmcopyLoop_undone {new₀ : PageTable} (n : ℕ) : ∀ {i : ℕ}
    {km km' : Kmem} {new new' : PageTable}, i % PGSIZE = 0 →
    i + n * PGSIZE ≤ TRAPFRAME →
    (∀ vb < i + n * PGSIZE, new₀.leaf vb = none) →
    (∀ vb < MAXVA, i ≤ vb → new.leaf vb = new₀.leaf vb) →
    uvmcopyLoop old n i km new = .ok (km', new', false) →
    ∀ vb < MAXVA, new'.leaf vb = new₀.leaf vb := by
  induction n with
  | zero =>
    intro i km km' new new' _ _ _ _ h
    cases h
  | succ n ih =>
    intro i km km' new new' hi hb hempty hsame h
    rw [Nat.succ_mul, Nat.add_comm (n * PGSIZE), ← Nat.add_assoc]
      at hb hempty
    have hnext : (i + PGSIZE) % PGSIZE = 0 := by simpa using hi
    have hlt : i < TRAPFRAME := by
      unfold PGSIZE at hb
      omega
    rcases uvmcopyLoop_cases hlt h with ⟨-, h⟩ |
      ⟨l, f, km₁, km₂, new₂, -, -, hmap, h⟩ |
      ⟨-, km₁, new₁, hleaf, -, h⟩
    · exact ih hnext hb hempty (fun vb hvb hle => hsame vb hvb (by omega)) h
    · refine ih hnext hb hempty ?_ h
      intro vb hvb hle
      rcases mappages_spec hmap with ⟨-, hm⟩ | ⟨hfalse, -⟩
      · rw [hm.other vb hvb, hsame vb hvb (by omega)]
        have := lt_pgrounddown_add vb
        omega
      · cases hfalse
    · have hspan := span_div_mul hi
      have hspec := uvmunmap_spec (hspan.symm ▸ Nat.lt_trans hlt (by decide))
        h
      intro vb hvb
      by_cases hin : vb < i
      · rw [hspec.inside vb hvb (Nat.zero_le vb) (hspan.symm ▸ hin)]
        exact (hempty vb (by omega)).symm
      · rw [hspec.outside vb hvb (by rw [hspan]; omega), hleaf]
        exact hsame vb hvb (Nat.not_lt.mp hin)

/-! ## What the ledger says about single frames -/

section Ledger

variable {pool used : Multiset Frame} {f : Frame}

theorem Ledger.freelist_nodup (h : Ledger pool km used) :
    km.freelist.Nodup := by
  have hnodup := h.nodup
  rw [← h.sum, Multiset.nodup_add] at hnodup
  exact Multiset.coe_nodup.mp hnodup.1

theorem Ledger.used_nodup (h : Ledger pool km used) : used.Nodup := by
  have hnodup := h.nodup
  rw [← h.sum, Multiset.nodup_add] at hnodup
  exact hnodup.2.1

/-- A frame in use is not on the free list. -/
theorem Ledger.not_free (h : Ledger pool km used) (hf : f ∈ used) :
    f ∉ km.freelist := by
  have hnodup := h.nodup
  rw [← h.sum, Multiset.nodup_add] at hnodup
  intro hfree
  exact Multiset.disjoint_left.mp hnodup.2.2 (Multiset.mem_coe.mpr hfree) hf

end Ledger

namespace PageTable

variable {va vb : ℕ} {l l' : Leaf}

theorem mem_share (hl : pt.leaf va = some l) :
    l.frame ∈ (((pt.leaf (va / PGSIZE * PGSIZE)).map Leaf.frame).toList :
      Multiset Frame) := by
  have hpage : pt.leaf (va / PGSIZE * PGSIZE) = some l :=
    (pt.leaf_pgrounddown va).trans hl
  rw [hpage, Multiset.mem_coe]
  exact List.mem_singleton.mpr rfl

theorem mem_pages (hva : va < TRAPFRAME) (hl : pt.leaf va = some l) :
    l.frame ∈ pt.pages := by
  rw [pages, Multiset.mem_sum]
  exact ⟨va / PGSIZE, mem_range_of_lt hva, mem_share hl⟩

theorem mem_owned (hva : va < TRAPFRAME) (hl : pt.leaf va = some l) :
    l.frame ∈ pt.owned :=
  Multiset.mem_add.mpr (Or.inr (mem_pages hva hl))

/-- Different pages are in different frames. -/
theorem page_of_frame (h : pt.pages.Nodup) (hva : va < TRAPFRAME)
    (hvb : vb < TRAPFRAME) (hl : pt.leaf va = some l)
    (hl' : pt.leaf vb = some l') (heq : l.frame = l'.frame) :
    pgrounddown va = pgrounddown vb := by
  have hmem := mem_pages hva hl
  have ha := mem_range_of_lt hva
  have hb := mem_range_of_lt hvb
  rw [pages] at h hmem
  -- the sum is not to be unfolded
  generalize Finset.range (TRAPFRAME / PGSIZE) = pages at h hmem ha hb
  have hunique := existsUnique_share h hmem
  have hdiv : va / PGSIZE = vb / PGSIZE :=
    hunique.unique ⟨ha, mem_share hl⟩ ⟨hb, heq ▸ mem_share hl'⟩
  rw [pgrounddown, pgrounddown, hdiv]

end PageTable

/-! ## All or nothing -/

/-- `PTE_R|PTE_U|xperm`. -/
def userPerm (xperm : Perm) : Perm := { xperm with r := true, u := true }

/-- The pages of `[lo, hi)` are in fresh zeroed frames, each in its own, and
no other leaf changed. -/
structure AllocDone (lo hi : ℕ) (perm : Perm) (km : Kmem) (pt : PageTable)
    (km' : Kmem) (pt' : PageTable) : Prop where
  fresh : ∀ va, lo ≤ va → va < hi → ∃ f,
    FreshPage km km' pt' va perm (fun _ => 0) f
  distinct : ∀ va vb l l', lo ≤ va → va < hi → lo ≤ vb → vb < hi →
    pt'.leaf va = some l → pt'.leaf vb = some l' → l.frame = l'.frame →
    pgrounddown va = pgrounddown vb
  other : ∀ va < MAXVA, ¬ (lo ≤ va ∧ va < hi) → pt'.leaf va = pt.leaf va

/-- The pages that `old` has below `hi` are copied to fresh frames, each to
its own, and no other leaf changed. -/
structure CopyDone (old : PageTable) (hi : ℕ) (km : Kmem) (pt : PageTable)
    (km' : Kmem) (pt' : PageTable) : Prop where
  fresh : ∀ va < hi, ∀ l, old.leaf va = some l → ∃ f,
    FreshPage km km' pt' va l.perm (fun k => km.mem (l.frame.pa + k)) f
  hole : ∀ va < hi, old.leaf va = none → pt'.leaf va = none
  distinct : ∀ va < hi, ∀ vb < hi, ∀ l l', pt'.leaf va = some l →
    pt'.leaf vb = some l' → l.frame = l'.frame →
    pgrounddown va = pgrounddown vb
  other : ∀ va < MAXVA, hi ≤ va → pt'.leaf va = pt.leaf va

/-- No leaf changed, and a frame that is missing from the free list is a page
of the page table now. -/
structure Undone (km : Kmem) (pt : PageTable) (km' : Kmem)
    (pt' : PageTable) : Prop where
  leaf : ∀ va < MAXVA, pt'.leaf va = pt.leaf va
  free : (km.freelist + pt.frames : Multiset Frame) =
    km'.freelist + pt'.frames

section Ledger

variable {pool rest : Multiset Frame}

theorem undone_of_ledger (h : Ledger pool km (pt.owned + rest))
    (h' : Ledger pool km' (pt'.owned + rest))
    (hleaf : ∀ va < MAXVA, pt'.leaf va = pt.leaf va) :
    Undone km pt km' pt' := by
  refine ⟨hleaf, ?_⟩
  have hpages : pt'.pages = pt.pages := PageTable.pages_congr fun va hva =>
    hleaf va (Nat.lt_trans hva TRAPFRAME_lt_MAXVA)
  have hsum := h.sum.trans h'.sum.symm
  rw [PageTable.owned, PageTable.owned, hpages] at hsum
  have hleft : (km.freelist : Multiset Frame) + (pt.frames + pt.pages + rest) =
      km.freelist + pt.frames + (pt.pages + rest) := by abel
  have hright : (km'.freelist : Multiset Frame) +
      (pt'.frames + pt.pages + rest) =
      km'.freelist + pt'.frames + (pt.pages + rest) := by abel
  rw [hleft, hright] at hsum
  exact add_right_cancel hsum

theorem distinct_of_ledger (h : Ledger pool km (pt.owned + rest)) {l l' : Leaf}
    (hva : va < TRAPFRAME) (hvb : vb < TRAPFRAME) (hl : pt.leaf va = some l)
    (hl' : pt.leaf vb = some l') (heq : l.frame = l'.frame) :
    pgrounddown va = pgrounddown vb := by
  have hused := h.used_nodup
  rw [PageTable.owned, Multiset.nodup_add, Multiset.nodup_add] at hused
  exact PageTable.page_of_frame hused.1.2.1 hva hvb hl hl' heq

/-- The number of rounds of `uvmalloc`. -/
theorem uvmalloc_rounds (hnew : newsz ≤ TRAPFRAME) (hle : oldsz ≤ newsz) :
    pgroundup oldsz +
      (newsz - pgroundup oldsz + PGSIZE - 1) / PGSIZE * PGSIZE =
        pgroundup newsz := by
  have htrap : TRAPFRAME < 2 ^ 38 := by decide
  unfold pgroundup PGSIZE
  omega

/-- **`uvmalloc` is all or nothing.** -/
theorem uvmalloc_done_or_undone (h : Ledger pool km (pt.owned + rest))
    (perm : Perm) (hlt : oldsz < newsz) (hnew : newsz ≤ TRAPFRAME)
    (hempty : ∀ va, pgroundup oldsz ≤ va → va < pgroundup newsz →
      pt.leaf va = none) :
    ∃ km' pt' r, uvmalloc km pt oldsz newsz perm = .ok (km', pt', r) ∧
      (∀ f ∈ pt.owned + rest, km.SameIn km' f) ∧
      ((r = newsz ∧ AllocDone (pgroundup oldsz) (pgroundup newsz) perm
          km pt km' pt') ∨
        (r = 0 ∧ Undone km pt km' pt')) ∧
      Ledger pool km' (pt'.owned + rest) := by
  have hup := pgroundup_le_TRAPFRAME hnew
  have hcount := uvmalloc_rounds hnew (Nat.le_of_lt hlt)
  have hmod := pgroundup_mod oldsz
  obtain ⟨km', pt', done, halways, hled⟩ := uvmallocLoopWith_ledger
    (pgroundup oldsz) perm _ hmod (hcount.symm ▸ hup)
    (by rw [hcount]; exact hempty) h
  have hloop := halways kfree standsIn_kfree
  simp only [uvmallocLoopWith_kfree] at hloop
  have hcall : uvmalloc km pt oldsz newsz perm =
      .ok (km', pt', if done then newsz else 0) := by
    rw [uvmalloc, if_neg (Nat.not_lt.mpr (Nat.le_of_lt hlt))]
    exact bind_ok_iff.mpr ⟨_, hloop, rfl⟩
  refine ⟨km', pt', _, hcall, ?_, ?_, hled⟩
  · intro f hf
    refine uvmallocLoop_sameIn hmod _ hmod (hcount.symm ▸ hup)
      (Nat.le_refl _) (h.not_free hf) ?_ hloop
    intro vb hlo hhi
    omega
  · cases done with
    | true =>
      obtain ⟨-, hout, hin⟩ := uvmallocLoop_fresh _ hmod
        (hcount.symm ▸ hup) h.freelist_nodup hloop
      rw [hcount] at hout hin
      refine Or.inl ⟨rfl, hin, ?_, hout⟩
      intro va vb l l' _ hva _ hvb hl hl' heq
      exact distinct_of_ledger hled (by omega) (by omega) hl hl' heq
    | false =>
      refine Or.inr ⟨rfl, undone_of_ledger h hled ?_⟩
      rcases uvmalloc_spec (Nat.lt_of_le_of_lt hnew (by decide))
        (Nat.le_of_lt hlt) (by omega) hcall with ⟨hr, -⟩ | ⟨-, hsame⟩
      · simp only [Bool.false_eq_true, if_false] at hr
        omega
      · exact hsame

/-- **`uvmcopy` is all or nothing.** -/
theorem uvmcopy_done_or_undone (h : Ledger pool km (pt.owned + rest))
    (hold : old.owned ≤ rest) (hsz : sz ≤ TRAPFRAME)
    (hempty : ∀ va < pgroundup sz, pt.leaf va = none) :
    ∃ km' pt' done, uvmcopy km old pt sz = .ok (km', pt', done) ∧
      (∀ f ∈ pt.owned + rest, km.SameIn km' f) ∧
      (if done then CopyDone old (pgroundup sz) km pt km' pt'
        else Undone km pt km' pt') ∧
      Ledger pool km' (pt'.owned + rest) := by
  have hup := pgroundup_le_TRAPFRAME hsz
  have hcount : 0 + (sz + PGSIZE - 1) / PGSIZE * PGSIZE = pgroundup sz := by
    have htrap : TRAPFRAME < 2 ^ 38 := by decide
    unfold pgroundup PGSIZE
    omega
  have hused : ∀ va < pgroundup sz, ∀ l, old.leaf va = some l →
      l.frame ∉ km.freelist := by
    intro va hva l hl
    apply h.not_free
    refine Multiset.mem_add.mpr (Or.inr (Multiset.mem_of_le hold ?_))
    exact PageTable.mem_owned (by omega) hl
  obtain ⟨km', pt', done, halways, hled, -, -⟩ := uvmcopyLoopWith_ledger old _
    (Nat.zero_mod PGSIZE) (hcount.symm ▸ hup) (by
      rw [hcount]
      exact fun vb _ hvb _ => hempty vb hvb) h
  have hloop := halways kfree standsIn_kfree
  simp only [uvmcopyLoopWith_kfree] at hloop
  refine ⟨km', pt', done, hloop, ?_, ?_, hled⟩
  · intro f hf
    refine uvmcopyLoop_sameIn _ (Nat.zero_mod _) (hcount.symm ▸ hup)
      (h.not_free hf) ?_ hloop
    rw [hcount]
    intro vb hvb l hl
    rw [hempty vb hvb] at hl
    cases hl
  · cases done with
    | true =>
      obtain ⟨-, hout, hin⟩ := uvmcopyLoop_fresh _ (Nat.zero_mod _)
        (hcount.symm ▸ hup) h.freelist_nodup (by rw [hcount]; exact hused)
        hloop
      rw [hcount] at hout hin
      refine ⟨fun va hva => hin va (Nat.zero_le va) hva, ?_, ?_, ?_⟩
      · intro va hva hnone
        have hmax : va < MAXVA := by
          have := TRAPFRAME_lt_MAXVA
          omega
        rw [hout va hmax fun _ => hnone]
        exact hempty va hva
      · intro va hva vb hvb l l' hl hl' heq
        exact distinct_of_ledger hled (by omega) (by omega) hl hl' heq
      · intro va hva hle
        exact hout va hva fun hrange => by omega
    | false =>
      refine undone_of_ledger h hled (uvmcopyLoop_undone _ (Nat.zero_mod _)
        (hcount.symm ▸ hup) ?_ (fun _ _ _ => rfl) hloop)
      rw [hcount]
      exact hempty

/-- **`uvmalloc` and `uvmcopy` are all or nothing**, wherever the free list
runs out, and no frame that was in use before loses a byte. -/
theorem all_or_nothing (h : Ledger pool km (pt.owned + rest)) :
    (∀ oldsz newsz xperm, oldsz < newsz → newsz ≤ TRAPFRAME →
      (∀ va, pgroundup oldsz ≤ va → va < pgroundup newsz →
        pt.leaf va = none) →
      ∃ km' pt' r,
        uvmalloc km pt oldsz newsz (userPerm xperm) = .ok (km', pt', r) ∧
        (∀ f ∈ pt.owned + rest, km.SameIn km' f) ∧
        ((r = newsz ∧ AllocDone (pgroundup oldsz) (pgroundup newsz)
            (userPerm xperm) km pt km' pt') ∨
          (r = 0 ∧ Undone km pt km' pt'))) ∧
    (∀ old sz, old.owned ≤ rest → sz ≤ TRAPFRAME →
      (∀ va < pgroundup sz, pt.leaf va = none) →
      ∃ km' pt' done, uvmcopy km old pt sz = .ok (km', pt', done) ∧
        (∀ f ∈ pt.owned + rest, km.SameIn km' f) ∧
        if done then CopyDone old (pgroundup sz) km pt km' pt'
        else Undone km pt km' pt') := by
  constructor
  · intro oldsz newsz xperm hlt hnew hempty
    obtain ⟨km', pt', r, hcall, hsame, hcases, -⟩ :=
      uvmalloc_done_or_undone h (userPerm xperm) hlt hnew hempty
    exact ⟨km', pt', r, hcall, hsame, hcases⟩
  · intro old sz hold hsz hempty
    obtain ⟨km', pt', done, hcall, hsame, hcases, -⟩ :=
      uvmcopy_done_or_undone h hold hsz hempty
    exact ⟨km', pt', done, hcall, hsame, hcases⟩

end Ledger

/-- Frames for two address spaces of two pages each. -/
def eightFrames : List Frame := [102, 103, 104, 105, 106, 107, 108, 109]

/-- The pages of a parent with an address space of two pages are copied. -/
theorem all_or_nothing_parent : ∃ km old pt km' pt',
    (∃ f, FreshPage ⟨eightFrames, fun _ => 0⟩ km old 4096 heapPerm
      (fun _ => 0) f) ∧
    uvmcopy km old pt 8192 = .ok (km', pt', true) ∧
    CopyDone old (pgroundup 8192) km pt km' pt' := by
  have hled : Ledger (eightFrames ++ [100, 101] : List Frame)
      ⟨eightFrames, fun _ => 0⟩
      ((PageTable.empty 100).owned + (PageTable.empty 101).owned) := by
    rw [PageTable.owned_empty, PageTable.owned_empty]
    refine ⟨Multiset.coe_nodup.mpr (by decide), ?_, rfl⟩
    have hall : ((eightFrames ++ [100, 101] : List Frame).all
        fun f => decide f.Usable) = true := by decide
    intro f hf
    exact of_decide_eq_true (List.all_eq_true.mp hall f hf)
  obtain ⟨km, old, r, hcall, -, hcases, hled'⟩ := uvmalloc_done_or_undone hled
    heapPerm (show 0 < 8192 by decide) (by decide) (fun _ _ _ => rfl)
  obtain ⟨x, hx, hr⟩ := exists_ok_of_any (show ((uvmalloc
    ⟨eightFrames, fun _ => 0⟩ (PageTable.empty 100) 0 8192
      heapPerm).toOption.any fun x : Kmem × PageTable × ℕ =>
        decide (x.2.2 = 8192) && (uvmcopy x.1 x.2.1 (PageTable.empty 101)
          8192).toOption.any fun y => y.2.2) = true by decide +kernel)
  rw [hcall] at hx
  cases hx
  rw [Bool.and_eq_true, decide_eq_true_eq] at hr
  obtain ⟨⟨km₁, pt₁, done₁⟩, hcopied, hok⟩ := exists_ok_of_any hr.2
  rw [add_comm] at hled'
  obtain ⟨km', pt', done, hcopy, -, hdone⟩ := (all_or_nothing hled').2 old 8192
    (le_refl _) (by decide) (fun _ _ => rfl)
  cases hcopied.symm.trans hcopy
  obtain rfl : done₁ = true := hok
  refine ⟨km, old, PageTable.empty 101, _, _, ?_, hcopy, hdone⟩
  rcases hcases with ⟨-, hdone⟩ | ⟨hzero, -⟩
  · exact hdone.fresh 4096 (by decide +kernel) (by decide +kernel)
  · exact absurd (hzero.symm.trans hr.1) (by decide)

end Xv6.Vm
