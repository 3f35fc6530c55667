import Xv6.Vm.Ledger

/-!
# The memory functions conserve frames

What `uvmalloc`, `uvmdealloc`, `uvmcopy`, the heap fault and the functions
that make and discard a page table do to the ledger, wherever the free list
runs out. None of them gives back a frame that is free already, and none ends
in a panic.
-/

namespace Xv6.Vm

open Framework

variable {pool rest : Multiset Frame} {km : Kmem} {pt : PageTable}

theorem TRAMPOLINE_lt_MAXVA : TRAMPOLINE < MAXVA := by decide

theorem TRAPFRAME_lt_TRAMPOLINE : TRAPFRAME < TRAMPOLINE := by decide

variable {va : ℕ}

/-- Mapping a page leaves what lies below it alone. -/
theorem Mapped.leaf_below {km' : Kmem} {pt' : PageTable} {vb : ℕ} {f : Frame}
    {perm : Perm} (h : Mapped km pt va f perm km' pt') (hvb : vb < va) :
    pt'.leaf vb = pt.leaf vb := by
  apply h.other vb (Nat.lt_trans hvb h.lt)
  exact Nat.ne_of_lt (Nat.lt_of_le_of_lt (pgrounddown_le vb) hvb)

/-- No user page is mapped at or above `sz`. -/
def Below (pt : PageTable) (sz : ℕ) : Prop :=
  ∀ va < TRAPFRAME, pgroundup sz ≤ va → pt.leaf va = none

variable {sz : ℕ}

theorem pgroundup_le_TRAPFRAME (h : sz ≤ TRAPFRAME) :
    pgroundup sz ≤ TRAPFRAME :=
  (pgroundup_le_iff (Nat.lt_of_le_of_lt h (by decide)) TRAPFRAME_mod).mpr h

theorem pgroundup_mono {x y : ℕ} (hy : y ≤ TRAPFRAME) (h : x ≤ y) :
    pgroundup x ≤ pgroundup y := by
  have hbound : y < 2 ^ 63 := Nat.lt_of_le_of_lt hy (by decide)
  rw [pgroundup_le_iff (Nat.lt_of_le_of_lt h hbound) (pgroundup_mod y)]
  exact Nat.le_trans h (le_pgroundup hbound)

theorem Below.mono {x y : ℕ} (h : Below pt x) (hy : y ≤ TRAPFRAME) (hle : x ≤ y) :
    Below pt y := fun va hva hup =>
  h va hva (Nat.le_trans (pgroundup_mono hy hle) hup)

/-! ## Shrinking -/

theorem uvmdeallocWith_ledger {oldsz newsz : ℕ} (hold : oldsz ≤ TRAPFRAME)
    (h : Ledger pool km (pt.owned + rest)) : ∃ km' pt',
      Always (fun free => uvmdeallocWith free km pt oldsz newsz)
        (km', pt', min oldsz newsz) ∧
      Ledger pool km' (pt'.owned + rest) ∧
      (Below pt oldsz → Below pt' (min oldsz newsz)) := by
  rcases Nat.lt_or_ge newsz oldsz with hlt | hge
  · rw [Nat.min_eq_right (Nat.le_of_lt hlt)]
    have hup := pgroundup_le_TRAPFRAME hold
    by_cases hround : pgroundup newsz < pgroundup oldsz
    · have hcount : pgroundup newsz +
          (pgroundup oldsz - pgroundup newsz) / PGSIZE * PGSIZE =
            pgroundup oldsz := by
        have h₁ := pgroundup_mod oldsz
        have h₂ := pgroundup_mod newsz
        unfold PGSIZE at *
        omega
      have hpages : (pgroundup oldsz - pgroundup newsz) / PGSIZE < 2 ^ 31 := by
        have htrap : TRAPFRAME < 2 ^ 38 := by decide
        unfold PGSIZE
        omega
      obtain ⟨km', pt', hun, hled, hspec⟩ :=
        uvmunmapWith_ledger (pgroundup_mod newsz) (hcount ▸ hup) h
      refine ⟨km', pt', ?_, hled, ?_⟩
      · simp only [uvmdeallocWith, if_neg (Nat.not_le.mpr hlt), hround,
          if_true, toUint64_toInt32 hpages]
        exact hun.bind fun _ _ => rfl
      · intro hbelow va hva hle
        have hmax : va < MAXVA := Nat.lt_trans hva TRAPFRAME_lt_MAXVA
        rcases Nat.lt_or_ge va (pgroundup oldsz) with hin | hout
        · exact hspec.inside va hmax hle (hcount.symm ▸ hin)
        · rw [hspec.outside va hmax (by rw [hcount]; omega)]
          exact hbelow va hva hout
    · refine ⟨km, pt, ?_, h, ?_⟩
      · intro free _
        simp only [uvmdeallocWith]
        rw [if_neg (Nat.not_le.mpr hlt), if_neg hround]
      · intro hbelow va hva hle
        exact hbelow va hva (Nat.le_trans (Nat.not_lt.mp hround) hle)
  · rw [Nat.min_eq_left hge]
    refine ⟨km, pt, ?_, h, id⟩
    intro free _
    exact if_pos hge

/-! ## Growing -/

theorem uvmallocLoopWith_ledger (lo : ℕ) (perm : Perm) (n : ℕ) :
    ∀ {a : ℕ} {km : Kmem} {pt : PageTable}, a % PGSIZE = 0 →
    a + n * PGSIZE ≤ TRAPFRAME →
    (∀ vb, a ≤ vb → vb < a + n * PGSIZE → pt.leaf vb = none) →
    Ledger pool km (pt.owned + rest) → ∃ km' pt' done,
      Always (fun free => uvmallocLoopWith free lo perm n a km pt)
        (km', pt', done) ∧ Ledger pool km' (pt'.owned + rest) := by
  induction n with
  | zero =>
    intro a km pt _ _ _ h
    exact ⟨km, pt, true, fun _ _ => rfl, h⟩
  | succ n ih =>
    intro a km pt ha hb hfresh h
    rw [Nat.succ_mul] at hb hfresh
    have hlt : a < TRAPFRAME := by
      unfold PGSIZE at hb
      omega
    cases halloc : kalloc km with
    | none =>
      obtain ⟨km', pt', hde, hled, -⟩ :=
        uvmdeallocWith_ledger (Nat.le_of_lt hlt) h
      refine ⟨km', pt', false, ?_, hled⟩
      simp only [uvmallocLoopWith, halloc]
      exact hde.bind fun _ _ => rfl
    | some fk =>
      obtain ⟨f, km₁⟩ := fk
      have hled₁ := (h.alloc halloc).congr
        (km₁.freelist_memset f.pa 0 PGSIZE)
      obtain ⟨km₂, pt₂, done, hmap, hled₂⟩ := mappages_ledger perm hled₁
        ha hlt (hfresh a (Nat.le_refl _) (by unfold PGSIZE; omega))
      rcases mappages_spec hmap with ⟨rfl, hm⟩ | ⟨rfl, -⟩
      · rw [if_pos rfl] at hled₂
        obtain ⟨km', pt', done, hloop, hled⟩ := ih
          (a := a + PGSIZE) (by simpa using ha) (by omega) (by
            intro vb hlo hhi
            rw [hm.other vb ?_ ?_]
            · exact hfresh vb (by omega) (by omega)
            · have := TRAPFRAME_lt_MAXVA
              omega
            · have := lt_pgrounddown_add vb
              omega) hled₂
        refine ⟨km', pt', done, ?_, hled⟩
        simp only [uvmallocLoopWith, halloc]
        exact Always.bind (fun _ _ => hmap) hloop
      · -- out of memory for the page table: the new frame goes back
        rw [if_neg Bool.false_ne_true] at hled₂
        obtain ⟨km₃, hfree, hled₃⟩ := hled₂.free
        obtain ⟨km', pt', hde, hled, -⟩ :=
          uvmdeallocWith_ledger (Nat.le_of_lt hlt) hled₃
        refine ⟨km', pt', false, ?_, hled⟩
        simp only [uvmallocLoopWith, halloc]
        exact Always.bind (fun _ _ => hmap)
          (hfree.bind (hde.bind fun _ _ => rfl))

/-- The size of an address space after `uvmalloc` returned `r`. -/
def resized (sz r : ℕ) : ℕ := if r = 0 then sz else r

theorem uvmallocWith_ledger {oldsz newsz : ℕ} (perm : Perm)
    (hnew : newsz ≤ TRAPFRAME) (hold : oldsz ≤ TRAPFRAME)
    (hbelow : Below pt oldsz) (h : Ledger pool km (pt.owned + rest)) :
    ∃ km' pt' r,
      Always (fun free => uvmallocWith free km pt oldsz newsz perm)
        (km', pt', r) ∧ Ledger pool km' (pt'.owned + rest) ∧
      resized oldsz r ≤ TRAPFRAME ∧ Below pt' (resized oldsz r) := by
  rcases Nat.lt_or_ge newsz oldsz with hlt | hge
  · refine ⟨km, pt, oldsz, fun free _ => if_pos hlt, h, ?_⟩
    rw [resized, ite_self]
    exact ⟨hold, hbelow⟩
  · have hup := pgroundup_le_TRAPFRAME hnew
    have hcount : pgroundup oldsz +
        (newsz - pgroundup oldsz + PGSIZE - 1) / PGSIZE * PGSIZE =
          pgroundup newsz := by
      have htrap : TRAPFRAME < 2 ^ 38 := by decide
      unfold pgroundup PGSIZE
      omega
    obtain ⟨km', pt', done, hloop, hled⟩ := uvmallocLoopWith_ledger
      (pgroundup oldsz) perm _ (pgroundup_mod oldsz) (hcount ▸ hup) (by
        intro vb hlo hhi
        rw [hcount] at hhi
        exact hbelow vb (Nat.lt_of_lt_of_le hhi hup) hlo) h
    have hcall : Always
        (fun free => uvmallocWith free km pt oldsz newsz perm)
        (km', pt', if done then newsz else 0) := by
      simp only [uvmallocWith, if_neg (Nat.not_lt.mpr hge)]
      exact hloop.bind fun _ _ => rfl
    refine ⟨km', pt', _, hcall, hled, ?_⟩
    have hkernel := hcall kfree standsIn_kfree
    simp only [uvmallocWith_kfree] at hkernel
    by_cases hzero : newsz = 0
    · -- nothing was asked for and nothing happened
      obtain rfl : oldsz = 0 := by omega
      subst hzero
      have hnothing : uvmalloc km pt 0 0 perm = .ok (km, pt, 0) := rfl
      rw [hnothing] at hkernel
      rw [ite_self] at hkernel ⊢
      cases hkernel
      exact ⟨hold, hbelow⟩
    · have hbound : newsz < 2 ^ 39 := Nat.lt_of_le_of_lt hnew (by decide)
      rcases uvmalloc_spec hbound hge (Nat.pos_of_ne_zero hzero) hkernel
        with ⟨hr, hgrown⟩ | ⟨hr, hsame⟩
      · rw [hr, resized, if_neg hzero]
        refine ⟨hnew, ?_⟩
        intro va hva hle
        rw [hgrown.outside va (Nat.lt_trans hva TRAPFRAME_lt_MAXVA)
          (by omega)]
        exact hbelow va hva (Nat.le_trans (pgroundup_mono hnew hge) hle)
      · rw [hr, resized, if_pos rfl]
        refine ⟨hold, ?_⟩
        intro va hva hle
        rw [hsame va (Nat.lt_trans hva TRAPFRAME_lt_MAXVA)]
        exact hbelow va hva hle

/-- A fresh page is mapped, or nothing changes for the user. -/
theorem mapFreshWith_ledger (perm : Perm) (ha : va % PGSIZE = 0)
    (hva : va < TRAPFRAME) (hleaf : pt.leaf va = none)
    (h : Ledger pool km (pt.owned + rest)) : ∃ km' pt' r,
      Always (fun free => mapFreshWith free km pt va perm) (km', pt', r) ∧
      Ledger pool km' (pt'.owned + rest) ∧
      (∀ vb < TRAPFRAME, va + PGSIZE ≤ vb → pt'.leaf vb = pt.leaf vb) ∧
      (r = 0 → ∀ vb, pt'.leaf vb = pt.leaf vb) := by
  cases halloc : kalloc km with
  | none =>
    refine ⟨km, pt, 0, ?_, h, fun _ _ _ => rfl, fun _ _ => rfl⟩
    intro free _
    simp only [mapFreshWith, halloc]
  | some fk =>
    obtain ⟨f, km₁⟩ := fk
    have hled₁ := (h.alloc halloc).congr
      (km₁.freelist_memset f.pa 0 PGSIZE)
    obtain ⟨km₂, pt₂, done, hmap, hled₂⟩ :=
      mappages_ledger perm hled₁ ha hva hleaf
    rcases mappages_spec hmap with ⟨rfl, hm⟩ | ⟨rfl, hext⟩
    · rw [if_pos rfl] at hled₂
      refine ⟨km₂, pt₂, f.pa, ?_, hled₂, ?_,
        fun hzero => absurd hzero f.pa_ne_zero⟩
      · simp only [mapFreshWith, halloc]
        exact Always.bind (fun _ _ => hmap) fun _ _ => rfl
      · intro vb hvb hle
        refine hm.other vb (Nat.lt_trans hvb TRAPFRAME_lt_MAXVA) ?_
        have := lt_pgrounddown_add vb
        omega
    · rw [if_neg Bool.false_ne_true] at hled₂
      obtain ⟨km₃, hfree, hled₃⟩ := hled₂.free
      refine ⟨km₃, pt₂, 0, ?_, hled₃, fun vb _ _ => hext.leaf vb,
        fun _ => hext.leaf⟩
      simp only [mapFreshWith, halloc]
      exact Always.bind (fun _ _ => hmap) (hfree.bind fun _ _ => rfl)

/-- A fault below `sz`. -/
theorem heapFaultWith_ledger (hsz : sz ≤ TRAPFRAME) (hva : va < sz)
    (hbelow : Below pt sz) (h : Ledger pool km (pt.owned + rest)) : ∃ km' pt' r,
      Always (fun free => heapFaultWith free km pt va) (km', pt', r) ∧
      Ledger pool km' (pt'.owned + rest) ∧ Below pt' sz := by
  have hpage := pgrounddown_le va
  have hlt : pgrounddown va < TRAPFRAME := by omega
  have hismapped : ismapped pt (pgrounddown va) =
      .ok (pt.leaf (pgrounddown va)).isSome := by
    rw [ismapped, if_pos (Nat.lt_trans hlt TRAPFRAME_lt_MAXVA)]
  cases hl : pt.leaf (pgrounddown va) with
  | some l =>
    rw [hl] at hismapped
    refine ⟨km, pt, 0, ?_, h, hbelow⟩
    exact Always.bind (fun _ _ => hismapped) fun _ _ => rfl
  | none =>
    rw [hl] at hismapped
    obtain ⟨km', pt', r, hmap, hled, hother, -⟩ := mapFreshWith_ledger
      heapPerm (pgrounddown_mod va) hlt hl h
    refine ⟨km', pt', r, ?_, hled, ?_⟩
    · exact Always.bind (fun _ _ => hismapped) hmap
    · intro vb hvb hle
      rw [hother vb hvb]
      · exact hbelow vb hvb hle
      · have hup := le_pgroundup
          (Nat.lt_of_le_of_lt hsz (by decide : TRAPFRAME < 2 ^ 63))
        have hmod := pgrounddown_mod va
        have hmod' := pgroundup_mod sz
        unfold PGSIZE at *
        omega

/-! ## Copying -/

theorem uvmcopyLoopWith_ledger (old : PageTable) (n : ℕ) : ∀ {i : ℕ}
    {km : Kmem} {new : PageTable}, i % PGSIZE = 0 →
    i + n * PGSIZE ≤ TRAPFRAME →
    (∀ vb, i ≤ vb → vb < i + n * PGSIZE → old.leaf vb ≠ none →
      new.leaf vb = none) →
    Ledger pool km (new.owned + rest) → ∃ km' new' done,
      Always (fun free => uvmcopyLoopWith free old n i km new)
        (km', new', done) ∧ Ledger pool km' (new'.owned + rest) ∧
      (∀ vb < TRAPFRAME, (done = true → i + n * PGSIZE ≤ vb) →
        new.leaf vb = none → new'.leaf vb = none) ∧
      (done = false → ∀ vb < i, new'.leaf vb = none) := by
  induction n with
  | zero =>
    intro i km new _ _ _ h
    exact ⟨km, new, true, fun _ _ => rfl, h, fun _ _ _ hvb => hvb,
      fun hdone => by cases hdone⟩
  | succ n ih =>
    intro i km new hi hb hfresh h
    rw [Nat.succ_mul] at hb hfresh ⊢
    have hnext : (i + PGSIZE) % PGSIZE = 0 := by simpa using hi
    have hlt : i < TRAPFRAME := by
      unfold PGSIZE at hb
      omega
    have hwalk : walk old i = .ok (old.pte i) := by
      rw [walk, if_pos (Nat.lt_trans hlt TRAPFRAME_lt_MAXVA)]
    -- what is left to do when memory runs out at this page
    have hundo : ∀ {km : Kmem} {pt : PageTable},
        Ledger pool km (pt.owned + rest) →
        (∀ vb, pt.leaf vb = new.leaf vb) → ∃ km' new',
        Always (fun free => uvmunmapWith free km pt 0 (i / PGSIZE))
          (km', new') ∧ Ledger pool km' (new'.owned + rest) ∧
        (∀ vb < TRAPFRAME, new.leaf vb = none → new'.leaf vb = none) ∧
        (∀ vb < i, new'.leaf vb = none) := by
      intro km pt h hsame
      have hspan : 0 + i / PGSIZE * PGSIZE = i := by
        unfold PGSIZE at *
        omega
      obtain ⟨km', new', hun, hled, hspec⟩ := uvmunmapWith_ledger
        (Nat.zero_mod _) (hspan.symm ▸ Nat.le_of_lt hlt) h
      refine ⟨km', new', hun, hled, ?_, ?_⟩
      · intro vb hvb hnone
        have hmax : vb < MAXVA := Nat.lt_trans hvb TRAPFRAME_lt_MAXVA
        by_cases hin : 0 ≤ vb ∧ vb < 0 + i / PGSIZE * PGSIZE
        · exact hspec.inside vb hmax hin.1 hin.2
        · rw [hspec.outside vb hmax hin, hsame, hnone]
      · intro vb hvb
        refine hspec.inside vb ?_ (Nat.zero_le vb) (hspan.symm ▸ hvb)
        exact Nat.lt_trans (Nat.lt_trans hvb hlt) TRAPFRAME_lt_MAXVA
    have hskip : (∀ free, uvmcopyLoopWith free old (n + 1) i km new =
        uvmcopyLoopWith free old n (i + PGSIZE) km new) → ∃ km' new' done,
        Always (fun free => uvmcopyLoopWith free old (n + 1) i km new)
          (km', new', done) ∧ Ledger pool km' (new'.owned + rest) ∧
        (∀ vb < TRAPFRAME, (done = true → i + (n * PGSIZE + PGSIZE) ≤ vb) →
          new.leaf vb = none → new'.leaf vb = none) ∧
        (done = false → ∀ vb < i, new'.leaf vb = none) := by
      intro hround
      obtain ⟨km', new', done, hloop, hled, hkept, hlow⟩ := ih hnext
        (by omega) (fun vb hlo hhi => hfresh vb (by omega) (by omega)) h
      refine ⟨km', new', done, ?_, hled, ?_, ?_⟩
      · simp only [hround]
        exact hloop
      · intro vb hvb hpast
        exact hkept vb hvb fun hdone => by
          have := hpast hdone
          omega
      · intro hdone vb hvb
        exact hlow hdone vb (by omega)
    rcases hpte : old.pte i with _ | _ | l
    · apply hskip
      intro free
      rw [uvmcopyLoopWith, hwalk, hpte]
      rfl
    · apply hskip
      intro free
      rw [uvmcopyLoopWith, hwalk, hpte]
      rfl
    · have hleaf : new.leaf i = none := by
        refine hfresh i (Nat.le_refl i) (by unfold PGSIZE; omega) ?_
        rw [PageTable.leaf_eq_join, hpte]
        exact Option.some_ne_none l
      rw [hpte] at hwalk
      cases halloc : kalloc km with
      | none =>
        obtain ⟨km', new', hun, hled, hkept, hlow⟩ :=
          hundo h fun _ => rfl
        refine ⟨km', new', false, ?_, hled,
          fun vb hvb _ => hkept vb hvb, fun _ => hlow⟩
        simp only [uvmcopyLoopWith, halloc]
        exact Always.bind (fun _ _ => hwalk) (hun.bind fun _ _ => rfl)
      | some fk =>
        obtain ⟨f, km₁⟩ := fk
        have hled₁ := (h.alloc halloc).congr (km₁.freelist_memmove f.pa
          (fun k => km₁.mem (l.frame.pa + k)) PGSIZE)
        obtain ⟨km₂, pt₂, done, hmap, hled₂⟩ :=
          mappages_ledger l.perm hled₁ hi hlt hleaf
        rcases mappages_spec hmap with ⟨rfl, hm⟩ | ⟨rfl, hext⟩
        · rw [if_pos rfl] at hled₂
          have hother : ∀ vb < TRAPFRAME, i + PGSIZE ≤ vb →
              pt₂.leaf vb = new.leaf vb := by
            intro vb hvb hle
            refine hm.other vb (Nat.lt_trans hvb TRAPFRAME_lt_MAXVA) ?_
            have := lt_pgrounddown_add vb
            omega
          obtain ⟨km', new', done, hloop, hled, hkept, hlow⟩ :=
            ih hnext (by omega) (fun vb hlo hhi hne => by
              rw [hother vb (by omega) hlo]
              exact hfresh vb (by omega) (by omega) hne) hled₂
          refine ⟨km', new', done, ?_, hled, ?_, ?_⟩
          · simp only [uvmcopyLoopWith, halloc]
            exact Always.bind (fun _ _ => hwalk)
              (Always.bind (fun _ _ => hmap) hloop)
          · intro vb hvb hpast hnone
            rcases Nat.lt_or_ge vb (i + PGSIZE) with hin | hout
            · cases done with
              | true =>
                have := hpast rfl
                omega
              | false => exact hlow rfl vb hin
            · refine hkept vb hvb ?_ (by rw [hother vb hvb hout, hnone])
              intro hdone
              have := hpast hdone
              omega
          · intro hdone vb hvb
            exact hlow hdone vb (by omega)
        · rw [if_neg Bool.false_ne_true] at hled₂
          obtain ⟨km₃, hfree, hled₃⟩ := hled₂.free
          obtain ⟨km', new', hun, hled, hkept, hlow⟩ :=
            hundo hled₃ hext.leaf
          refine ⟨km', new', false, ?_, hled,
            fun vb hvb _ => hkept vb hvb, fun _ => hlow⟩
          simp only [uvmcopyLoopWith, halloc]
          exact Always.bind (fun _ _ => hwalk)
            (Always.bind (fun _ _ => hmap)
              (hfree.bind (hun.bind fun _ _ => rfl)))

/-- The pages of `old` are copied next to those of `new`, or `new` keeps at
most what it had. -/
theorem uvmcopyWith_ledger {old new : PageTable} {sz' : ℕ}
    (hsz : sz ≤ TRAPFRAME) (hsz' : sz' ≤ TRAPFRAME)
    (hfresh : ∀ vb < pgroundup sz, old.leaf vb ≠ none → new.leaf vb = none)
    (hbelow : Below new sz') (h : Ledger pool km (new.owned + rest)) :
    ∃ km' new' done,
      Always (fun free => uvmcopyWith free km old new sz)
        (km', new', done) ∧ Ledger pool km' (new'.owned + rest) ∧
      Below new' (if done then max sz sz' else sz') := by
  have hup := pgroundup_le_TRAPFRAME hsz
  have hcount : 0 + (sz + PGSIZE - 1) / PGSIZE * PGSIZE = pgroundup sz := by
    have htrap : TRAPFRAME < 2 ^ 38 := by decide
    unfold pgroundup PGSIZE
    omega
  obtain ⟨km', new', done, hloop, hled, hkept, -⟩ :=
    uvmcopyLoopWith_ledger old _ (Nat.zero_mod PGSIZE)
      (hcount.symm ▸ hup) (by
        intro vb _ hhi
        rw [hcount] at hhi
        exact hfresh vb hhi) h
  refine ⟨km', new', done, hloop, hled, ?_⟩
  intro va hva hle
  have hmax : max sz sz' ≤ TRAPFRAME := max_le hsz hsz'
  cases done with
  | true =>
    rw [if_pos rfl] at hle
    apply hkept va hva
    · intro _
      rw [hcount]
      exact Nat.le_trans (pgroundup_mono hmax (le_max_left ..)) hle
    · exact hbelow va hva
        (Nat.le_trans (pgroundup_mono hmax (le_max_right ..)) hle)
  | false =>
    rw [if_neg Bool.false_ne_true] at hle
    apply hkept va hva
    · intro hdone
      cases hdone
    · exact hbelow va hva hle

/-! ## Discarding -/

/-- A loop that gives back the frames `frames a` in the round of `a`. -/
theorem foldlM_ledger {α : Type} (round : Free → Kmem → α → Except Panic Kmem)
    (frames : α → List Frame) : ∀ {as : List α} {km : Kmem},
    (∀ a ∈ as, ∀ {km : Kmem} {rest : Multiset Frame},
      Ledger pool km (frames a + rest) → ∃ km',
        Always (fun free => round free km a) km' ∧ Ledger pool km' rest) →
    Ledger pool km (as.flatMap frames + rest) → ∃ km',
      Always (fun free => as.foldlM (round free) km) km' ∧
      Ledger pool km' rest := by
  intro as
  induction as with
  | nil =>
    intro km _ h
    rw [List.flatMap_nil, Multiset.coe_nil, zero_add] at h
    exact ⟨km, fun _ _ => rfl, h⟩
  | cons a as ih =>
    intro km hround h
    rw [List.flatMap_cons, ← Multiset.coe_add, add_assoc] at h
    obtain ⟨km₁, hfirst, hled₁⟩ := hround a (List.mem_cons_self ..) h
    obtain ⟨km', hrest, hled⟩ :=
      ih (fun b hb => hround b (List.mem_cons_of_mem a hb)) hled₁
    refine ⟨km', ?_, hled⟩
    simp only [List.foldlM_cons]
    exact hfirst.bind hrest

/-- A page of the tree: first what hangs below it, then the page itself. -/
theorem foldlM_free_ledger {α : Type}
    (round : Free → Kmem → α → Except Panic Kmem) (frames : α → List Frame)
    {as : List α} {f : Frame}
    (hround : ∀ a ∈ as, ∀ {km : Kmem} {rest : Multiset Frame},
      Ledger pool km (frames a + rest) → ∃ km',
        Always (fun free => round free km a) km' ∧ Ledger pool km' rest)
    (h : Ledger pool km ((as.flatMap frames ++ [f] : List Frame) + rest)) :
    ∃ km', Always
        (fun free => as.foldlM (round free) km >>= fun km => free km f) km' ∧
      Ledger pool km' rest := by
  rw [← Multiset.coe_add, add_assoc, Multiset.coe_singleton,
    Multiset.singleton_add] at h
  obtain ⟨km₁, hloop, hled₁⟩ := foldlM_ledger round frames hround h
  obtain ⟨km', hfree, hled⟩ := hled₁.free
  exact ⟨km', hloop.bind hfree, hled⟩

theorem freewalkLeafPageWith_ledger {t : Table Frame 512 (Option Leaf)}
    (hnone : ∀ k, t.entry k = none) (h : Ledger pool km (t.frame ::ₘ rest)) :
    ∃ km', Always (fun free => freewalkLeafPageWith free km t) km' ∧
      Ledger pool km' rest := by
  have hfind : (List.finRange 512).findSome? t.entry = none := by
    rw [List.findSome?_eq_none_iff]
    intro k _
    exact hnone k
  obtain ⟨km', hfree, hled⟩ := h.free
  refine ⟨km', ?_, hled⟩
  intro free hstands
  unfold freewalkLeafPageWith
  rw [hfind]
  exact hfree free hstands

theorem freewalkMidWith_ledger {m : Mid Frame 512 (Option Leaf)}
    (hnone : ∀ j t, m.entry j = some t → ∀ k, t.entry k = none)
    (h : Ledger pool km (Root.midFrames m + rest)) :
    ∃ km', Always (fun free => freewalkMidWith free km m) km' ∧
      Ledger pool km' rest := by
  refine foldlM_free_ledger _ _ ?_ h
  intro j _ km rest h
  cases hj : m.entry j with
  | none =>
    rw [hj, Option.map_none, Option.toList_none, Multiset.coe_nil,
      zero_add] at h
    exact ⟨km, fun _ _ => rfl, h⟩
  | some t =>
    rw [hj, Option.map_some, Option.toList_some, Multiset.coe_singleton,
      Multiset.singleton_add] at h
    exact freewalkLeafPageWith_ledger (hnone j t hj) h

/-- **`freewalk` of a table without leaves gives back its pages.** -/
theorem freewalkWith_ledger (hnone : ∀ va < MAXVA, pt.leaf va = none)
    (h : Ledger pool km (pt.frames + rest)) :
    ∃ km', Always (fun free => freewalkWith free km pt) km' ∧
      Ledger pool km' rest := by
  refine foldlM_free_ledger _ _ ?_ h
  intro i _ km rest h
  cases hi : pt.root.entry i with
  | none =>
    rw [hi, Option.map_none, Option.getD_none, Multiset.coe_nil,
      zero_add] at h
    exact ⟨km, fun _ _ => rfl, h⟩
  | some m =>
    rw [hi, Option.map_some, Option.getD_some] at h
    refine freewalkMidWith_ledger ?_ h
    intro j t hj k
    exact pt.entry_of_leaf hnone hi hj k

theorem uvmfreeWith_ledger (hsz : sz ≤ TRAPFRAME)
    (hnone : ∀ va < MAXVA, pgroundup sz ≤ va → pt.leaf va = none)
    (h : Ledger pool km (pt.owned + rest)) :
    ∃ km', Always (fun free => uvmfreeWith free km pt sz) km' ∧
      Ledger pool km' rest := by
  -- without user pages, only the tables are left
  have hwalk : ∀ {km : Kmem} {pt : PageTable},
      (∀ va < MAXVA, pt.leaf va = none) → Ledger pool km (pt.owned + rest) →
      ∃ km', Always (fun free => freewalkWith free km pt) km' ∧
        Ledger pool km' rest := by
    intro km pt hnone h
    have hpages : pt.pages = 0 := PageTable.pages_eq_zero fun va hva =>
      hnone va (Nat.lt_trans hva TRAPFRAME_lt_MAXVA)
    rw [PageTable.owned, hpages, add_zero] at h
    exact freewalkWith_ledger hnone h
  rcases Nat.eq_zero_or_pos sz with rfl | hpos
  · obtain ⟨km', hfree, hled⟩ :=
      hwalk (fun va hva => hnone va hva (Nat.zero_le va)) h
    exact ⟨km', hfree, hled⟩
  · have hmod := pgroundup_mod sz
    have hspan : 0 + pgroundup sz / PGSIZE * PGSIZE = pgroundup sz := by
      unfold PGSIZE at *
      omega
    obtain ⟨km₁, pt₁, hun, hled₁, hspec⟩ := uvmunmapWith_ledger
      (Nat.zero_mod _) (hspan.symm ▸ pgroundup_le_TRAPFRAME hsz) h
    obtain ⟨km', hfree, hled⟩ := hwalk (by
      intro va hva
      by_cases hin : va < pgroundup sz
      · exact hspec.inside va hva (Nat.zero_le va) (hspan.symm ▸ hin)
      · rw [hspec.outside va hva (by omega)]
        exact hnone va hva (Nat.not_lt.mp hin)) hled₁
    refine ⟨km', ?_, hled⟩
    simp only [uvmfreeWith, hpos, if_true]
    exact hun.bind hfree

/-- **A page table goes back to the free list with all its user pages.** -/
theorem procFreepagetableWith_ledger (hsz : sz ≤ TRAPFRAME)
    (hbelow : Below pt sz) (h : Ledger pool km (pt.owned + rest)) :
    ∃ km', Always (fun free => procFreepagetableWith free km pt sz) km' ∧
      Ledger pool km' rest := by
  obtain ⟨km₁, pt₁, km₂, pt₂, hun₁, hun₂, hlist, hframes, hlow, hhigh⟩ :=
    uvmunmap_trap km pt
  have hled : Ledger pool km₂ (pt₂.owned + rest) := by
    rw [PageTable.owned, hframes, PageTable.pages_congr hlow]
    exact h.congr hlist
  obtain ⟨km', hfree, hled'⟩ := uvmfreeWith_ledger hsz (by
    intro va hva hle
    rcases Nat.lt_or_ge va TRAPFRAME with hbelowTrap | habove
    · rw [hlow va hbelowTrap]
      exact hbelow va hbelowTrap hle
    · exact hhigh va hva habove) hled
  refine ⟨km', ?_, hled'⟩
  exact Always.bind (fun _ _ => hun₁) (Always.bind (fun _ _ => hun₂) hfree)

/-! ## Making a page table -/

theorem PageTable.owned_empty (f : Frame) :
    (PageTable.empty f).owned = {f} := by
  have hpages : (PageTable.empty f).pages = 0 :=
    PageTable.pages_eq_zero fun _ _ => rfl
  rw [PageTable.owned, hpages, add_zero, PageTable.frames, PageTable.empty,
    Root.frames_blank, Multiset.coe_singleton]

theorem uvmcreate_ledger {km' : Kmem} (h : Ledger pool km rest)
    (hcreate : uvmcreate km = some (pt, km')) :
    Ledger pool km' (pt.owned + rest) ∧ ∀ va, pt.leaf va = none := by
  unfold uvmcreate at hcreate
  cases halloc : kalloc km with
  | none =>
    rw [halloc] at hcreate
    cases hcreate
  | some fk =>
    obtain ⟨f, km₁⟩ := fk
    rw [halloc] at hcreate
    cases hcreate
    refine ⟨?_, fun _ => rfl⟩
    rw [PageTable.owned_empty, Multiset.singleton_add]
    exact (h.alloc halloc).congr (km₁.freelist_memset f.pa 0 PGSIZE)

/-- The frames of a page table that may not have been made. -/
def ownedOf (made : Option PageTable) : Multiset Frame :=
  (made.map PageTable.owned).getD 0

theorem ownedOf_some (pt : PageTable) : ownedOf (some pt) = pt.owned := by
  rw [ownedOf, Option.map_some, Option.getD_some]

theorem ownedOf_none : ownedOf none = 0 := by
  rw [ownedOf, Option.map_none, Option.getD_none]

/-- A new page table has no user page; one that could not be finished is
given back. -/
theorem procPagetableWith_ledger (trapframe : Frame)
    (h : Ledger pool km rest) : ∃ km' made,
      Always (fun free => procPagetableWith free km trapframe) (km', made) ∧
      Ledger pool km' (ownedOf made + rest) ∧
      ∀ pt ∈ made, ∀ va < TRAPFRAME, pt.leaf va = none := by
  cases hcreate : uvmcreate km with
  | none =>
    refine ⟨km, none, ?_, ?_, fun pt hpt => by cases hpt⟩
    · intro free _
      simp only [procPagetableWith, hcreate]
    · rw [ownedOf_none, zero_add]
      exact h
  | some r =>
    obtain ⟨pt₀, km₀⟩ := r
    obtain ⟨hled₀, hnone₀⟩ := uvmcreate_ledger h hcreate
    obtain ⟨km₁, pt₁, done₁, hmap₁, hled₁⟩ := mappages_ledger_trap
      trampolineFrame { r := true, x := true } hled₀
      (by decide) (Nat.le_of_lt TRAPFRAME_lt_TRAMPOLINE) TRAMPOLINE_lt_MAXVA
      (hnone₀ _)
    simp only [procPagetableWith, hcreate]
    rcases mappages_spec hmap₁ with ⟨rfl, hm₁⟩ | ⟨rfl, hext₁⟩
    · have hbelow₁ : ∀ vb < TRAMPOLINE, pt₁.leaf vb = none := by
        intro vb hvb
        rw [hm₁.leaf_below hvb, hnone₀]
      obtain ⟨km₂, pt₂, done₂, hmap₂, hled₂⟩ := mappages_ledger_trap
        trapframe { r := true, w := true } hled₁
        (by decide) (Nat.le_refl _) TRAPFRAME_lt_MAXVA
        (hbelow₁ _ TRAPFRAME_lt_TRAMPOLINE)
      rcases mappages_spec hmap₂ with ⟨rfl, hm₂⟩ | ⟨rfl, hext₂⟩
      · rw [← ownedOf_some pt₂] at hled₂
        refine ⟨km₂, some pt₂, ?_, hled₂, ?_⟩
        · exact Always.bind (fun _ _ => hmap₁)
            (Always.bind (fun _ _ => hmap₂) fun _ _ => rfl)
        · rintro pt ⟨⟩ va hva
          rw [hm₂.leaf_below hva]
          exact hbelow₁ va (Nat.lt_trans hva TRAPFRAME_lt_TRAMPOLINE)
      · -- the second mapping has no memory: the first one is undone
        obtain ⟨km₃, pt₃, hun⟩ := @uvmunmap_ok km₂ pt₂ TRAMPOLINE 1 false
          (by decide) (by decide) (fun hd => by cases hd)
        have hspec := uvmunmap_spec (by decide) hun
        have hnone₃ : ∀ va < MAXVA, pt₃.leaf va = none := by
          intro va hva
          by_cases hin : TRAMPOLINE ≤ va ∧ va < TRAMPOLINE + 1 * PGSIZE
          · exact hspec.inside va hva hin.1 hin.2
          · rw [hspec.outside va hva hin, hext₂.leaf]
            apply hbelow₁
            unfold TRAMPOLINE PGSIZE MAXVA at *
            omega
        have hpages : pt₃.pages = pt₂.pages := by
          apply PageTable.pages_congr
          intro va hva
          have hlow := Nat.lt_trans hva TRAPFRAME_lt_TRAMPOLINE
          apply hspec.outside va (Nat.lt_trans hlow TRAMPOLINE_lt_MAXVA)
          omega
        have hled₃ : Ledger pool km₃ (pt₃.owned + rest) := by
          rw [PageTable.owned, hspec.frames, hpages]
          exact hled₂.congr hspec.freed
        obtain ⟨km', hfree, hled⟩ := uvmfreeWith_ledger (Nat.zero_le _)
          (fun va hva _ => hnone₃ va hva) hled₃
        refine ⟨km', none, ?_, ?_, fun pt hpt => by cases hpt⟩
        · exact Always.bind (fun _ _ => hmap₁)
            (Always.bind (fun _ _ => hmap₂)
              (Always.bind (fun _ _ => hun)
                (hfree.bind fun _ _ => rfl)))
        · rw [ownedOf_none, zero_add]
          exact hled
    · obtain ⟨km', hfree, hled⟩ := uvmfreeWith_ledger (Nat.zero_le _)
        (fun va _ _ => (hext₁.leaf va).trans (hnone₀ va)) hled₁
      refine ⟨km', none, ?_, ?_, fun pt hpt => by cases hpt⟩
      · exact Always.bind (fun _ _ => hmap₁) (hfree.bind fun _ _ => rfl)
      · rw [ownedOf_none, zero_add]
        exact hled

end Xv6.Vm
