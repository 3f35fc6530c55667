import Xv6.Vm.FlatMap
import Xv6.Vm.PageTable

/-!
# The words and the tree

`PageTable` and the words of `Sv39` model one page table. What `walk` finds is
the same in both, and after `mappages` and `uvmunmap` they map the same pages
again.
-/

namespace Xv6.Vm.Sv39

open Framework

def PTE_D : UInt64 := 128

/-- The permission bits of a word. -/
def permOf (w : UInt64) : Perm where
  r := w &&& PTE_R ≠ 0
  w := w &&& PTE_W ≠ 0
  x := w &&& PTE_X ≠ 0
  u := w &&& PTE_U ≠ 0
  d := w &&& PTE_D ≠ 0

/-- The leaf that a PTE describes. -/
def leafOf (pte : UInt64) : Option Leaf :=
  if pte &&& PTE_V = 0 then none
  else some ⟨Frame.ofPa (pte2pa pte).toNat, permOf pte⟩

theorem mkPte_and (pa : UInt64) (perm : Int32) {mask : UInt64}
    (hmask : mask.toNat < 1024) (hv : PTE_V &&& mask = 0) :
    mkPte pa perm &&& mask = perm.toInt64.toUInt64 &&& mask := by
  have hlow : pa.toNat / 4096 * 1024 &&& mask.toNat = 0 := by
    have hmod := Nat.and_two_pow_sub_one_eq_mod mask.toNat 10
    rw [Nat.mod_eq_of_lt hmask] at hmod
    rw [← hmod, Nat.and_comm mask.toNat, ← Nat.and_assoc,
      Nat.and_two_pow_sub_one_eq_mod, Nat.mul_mod_left, Nat.zero_and]
  have hv : PTE_V.toNat &&& mask.toNat = 0 := by
    rw [← UInt64.toNat_and, hv]
    rfl
  apply UInt64.toNat_inj.mp
  rw [mkPte, UInt64.toNat_and, UInt64.toNat_or, UInt64.toNat_or, toNat_pa2pte,
    Nat.and_or_distrib_right, Nat.and_or_distrib_right, hlow, hv, Nat.zero_or,
    Nat.or_zero, UInt64.toNat_and]

/-- The PTE that `mappages` writes. -/
theorem leafOf_mkPte (f : Frame) {perm : Int32}
    (hperm : perm.toInt64.toUInt64.toNat < 1024) :
    leafOf (mkPte (UInt64.ofNat f.pa) perm) =
      some ⟨f, permOf perm.toInt64.toUInt64⟩ := by
  have hpa : f.pa < 2 ^ 64 := by
    have := f.pa_add_le
    unfold PHYSTOP KERNBASE at this
    omega
  have hword : (mkPte (UInt64.ofNat f.pa) perm).toNat / 1024 = f.pa / 4096 := by
    rw [mkPte, UInt64.toNat_or, UInt64.toNat_or, toNat_pa2pte,
      show 1024 = 2 ^ 10 from rfl, ← Nat.shiftRight_eq_div_pow,
      Nat.shiftRight_or_distrib, Nat.shiftRight_or_distrib,
      Nat.shiftRight_eq_div_pow, Nat.shiftRight_eq_div_pow,
      Nat.div_eq_of_lt hperm, Nat.mul_div_cancel _ (by decide),
      UInt64.toNat_ofNat_of_lt' hpa]
    exact (Nat.or_zero _).trans (Nat.or_zero _)
  have hframe : Frame.ofPa (pte2pa (mkPte (UInt64.ofNat f.pa) perm)).toNat =
      f := by
    rw [toNat_pte2pa, hword]
    apply Fin.ext
    rw [Frame.ofPa, Fin.val_ofNat]
    have := f.isLt
    unfold Frame.pa PGSIZE KERNBASE
    omega
  have hvalid : mkPte (UInt64.ofNat f.pa) perm &&& PTE_V ≠ 0 := by
    rw [Ne, and_valid_eq_zero, mkPte, UInt64.toNat_or,
      show PTE_V.toNat = 1 from rfl, ← Nat.and_one_is_mod,
      Nat.and_or_distrib_right]
    simp
  have hbit := fun {mask} => @mkPte_and (UInt64.ofNat f.pa) perm mask
  rw [leafOf, if_neg hvalid, hframe, permOf, hbit (by decide) (by decide),
    hbit (by decide) (by decide), hbit (by decide) (by decide),
    hbit (by decide) (by decide), hbit (by decide) (by decide), permOf]

/-- The words at `p` and the tree map the same pages. -/
structure Shows (m : Phys) (p : UInt64) (pt : PageTable) : Prop where
  tree : Tree m 2 p
  leaf : ∀ va < MAXVA, leafOf (lookup m p va) = pt.leaf va

namespace Shows

variable {m m' : Phys} {p va : UInt64} {pt pt' : PageTable} {km km' : Kmem}

/-- A page of zeroes is the empty tree. -/
theorem blank (h : Tree m 2 p) (hblank : ∀ j, m.page p j = 0) (f : Frame) :
    Shows m p ⟨Table.blank f none, fun _ _ => rfl⟩ := by
  refine ⟨h, fun va _ => ?_⟩
  rw [h.lookup_eq, value, MemTree.value_of_blank next_zero hblank]
  rfl

/-- **`walk` finds the same PTE**, and panics for the same addresses. -/
theorem walk (h : Shows m p pt) (va : UInt64) :
    (va.toNat < MAXVA → ∃ s e, walk false m p va = .ok (m, s) ∧
      Vm.walk pt va.toNat = .ok e ∧
      s.bind (fun s => leafOf (m.page s.1 s.2)) = e.join) ∧
    (MAXVA ≤ va.toNat → walk false m p va = .error .walk ∧
      Vm.walk pt va.toNat = .error .walk) := by
  refine ⟨fun hva => ?_, fun hva => ⟨if_pos hva, if_neg (Nat.not_lt.mpr hva)⟩⟩
  refine ⟨_, _, walk_false hva, if_pos hva, ?_⟩
  rw [← PageTable.leaf_eq_join, ← h.leaf _ hva]
  cases hs : MemTree.slot next m.page (ix va.toNat) 2 p with
  | none =>
    rw [lookup_no_slot h.tree hs]
    rfl
  | some s =>
    rw [lookup_slot h.tree hs]
    rfl

/-- The pages that `walk` adds to the words, or to the tree, map nothing. -/
theorem walk_alloc (h : Shows m p pt) {r : Option (UInt64 × Fin 512)}
    {found : Bool} (hw : Sv39.walk true m p va = .ok (m', r))
    (ht : walkAlloc km pt va.toNat = .ok (km', pt', found)) :
    Shows m' p pt' := by
  obtain ⟨-, htree, hsame, -⟩ := walk_true h.tree hw
  refine ⟨htree, fun v hv => ?_⟩
  rw [hsame, (walkAlloc_spec ht).2.1.leaf, h.leaf v hv]

/-- **`mappages` sets the same PTE** where both return the same. -/
theorem mappages (h : Shows m p pt) {f : Frame} {perm r : Int32} {done : Bool}
    (hperm : perm.toInt64.toUInt64.toNat < 1024) (hva : va.toNat < MAXVA)
    (hw : mappages m p va 4096 (UInt64.ofNat f.pa) perm = .ok (m', r))
    (ht : Vm.mappages km pt va.toNat f (permOf perm.toInt64.toUInt64) =
      .ok (km', pt', done))
    (hr : r = 0 ↔ done = true) : Shows m' p pt' := by
  rw [Sv39.mappages] at hw
  split at hw
  · cases hw
  · rename_i haligned
    have haligned := not_not.mp haligned
    have hrange : va.toNat + 1 * PGSIZE ≤ MAXVA := by
      unfold PGSIZE MAXVA at *
      omega
    obtain ⟨htree, k, hk, hcase⟩ := mapLoop_spec h.tree haligned hrange hw
    refine ⟨htree, fun v hv => ?_⟩
    rcases mappages_spec ht with ⟨hdone, hmapped⟩ | ⟨hdone, hext⟩
    · obtain ⟨-, rfl⟩ | ⟨hminus, -⟩ := hcase
      · by_cases hpage : pgrounddown v = va.toNat
        · have hpte := hk.inside 0 Nat.one_pos v (by rw [hpage]; rfl)
          rw [Nat.zero_mul, show UInt64.ofNat 0 = 0 from rfl, UInt64.add_zero]
            at hpte
          rw [hpte, leafOf_mkPte f hperm, hmapped.self v hpage]
        · rw [hk.outside v hv, hmapped.other v hv hpage, h.leaf v hv]
          unfold pgrounddown PGSIZE at *
          omega
      · rw [hr.mpr hdone] at hminus
        cases hminus
    · have hk0 : k = 0 := by
        rcases hcase with ⟨hzero, -⟩ | ⟨-, hlt⟩
        · rw [hr.mp hzero] at hdone
          cases hdone
        · exact Nat.lt_one_iff.mp hlt
      rw [hk.outside v hv, hext.leaf, h.leaf v hv]
      rw [hk0, Nat.zero_mul, Nat.add_zero]
      exact Nat.lt_or_ge v va.toNat

/-- **`uvmunmap` clears the same PTEs**, and returns in both. -/
theorem uvmunmap (h : Shows m p pt) {npages : UInt64} {doFree : Bool}
    (hva : va.toNat % PGSIZE = 0)
    (hrange : va.toNat + npages.toNat * PGSIZE ≤ MAXVA)
    (hfree : doFree = true → Freeable m p va npages.toNat) (km : Kmem) :
    ∃ m' km' pt', uvmunmap m p va npages doFree = .ok m' ∧
      Vm.uvmunmap km pt va.toNat npages.toNat doFree = .ok (km', pt') ∧
      Shows m' p pt' := by
  have husable : doFree = true →
      ∀ f ∈ leafFrames pt npages.toNat va.toNat, f.Usable := by
    intro hd f hf
    obtain ⟨i, hi, l, hl, rfl⟩ := mem_leafFrames.mp hf
    have hlt : va.toNat + i * PGSIZE < MAXVA := by
      have := Nat.mul_lt_mul_of_pos_right hi (show 0 < PGSIZE by decide)
      omega
    rw [← h.leaf _ hlt, leafOf] at hl
    split at hl
    · cases hl
    · rename_i hvalid
      cases hl
      obtain ⟨hlow, hhigh, -⟩ := (hfree hd).usable i hi hvalid
      rw [Frame.Usable, Frame.pa_ofPa (pte2pa_mod _)
        (Nat.le_trans (by decide) hlow) hhigh]
      exact hlow
  obtain ⟨m', hw, htree, hclears⟩ := unmapLoop_spec h.tree hva hrange hfree
  obtain ⟨km', pt', ht⟩ := @uvmunmap_ok km _ _ _ _ hva hrange husable
  have hnowrap : va.toNat + npages.toNat * PGSIZE < 2 ^ 64 :=
    Nat.lt_of_le_of_lt hrange (by decide)
  have hun := uvmunmap_spec hnowrap ht
  refine ⟨m', km', pt', ?_, ht, htree, fun v hv => ?_⟩
  · rw [Sv39.uvmunmap, if_neg (not_not_intro hva), uvmunmap_rounds hrange, hw]
  · rw [hclears v hv]
    by_cases hin : va.toNat ≤ v ∧ v < va.toNat + npages.toNat * PGSIZE
    · rw [hun.inside v hv hin.1 hin.2]
      split
      · rfl
      · rename_i hno
        exact if_pos (not_not.mp fun hvalid => hno ⟨hin.1, hin.2, hvalid⟩)
    · rw [hun.outside v hv hin, if_neg fun hall => hin ⟨hall.1, hall.2.1⟩,
        h.leaf v hv]

end Shows

end Xv6.Vm.Sv39
