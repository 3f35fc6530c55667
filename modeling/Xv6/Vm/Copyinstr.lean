import Xv6.Framework.Scan
import Xv6.Vm.Copyin

/-!
# `copyinstr` against `copyin`

Both read user memory page by page. `copyin` brings in a page that is not
there, `copyinstr` gives up on it. So `copyinstr` finds the string that
`copyin` would read just when all of it lies on pages that are present.
-/

namespace Xv6.Vm

open Framework

variable {s : State} {srcva max : ℕ}

/-! ## `copyinstr` -/

/-- The inner loop of `copyinstr`, with the bytes left on the page: the bytes
it stores to `dst` and `got_null`. -/
def copyinstrPage (km : Kmem) : ℕ → ℕ → List UInt8 × Bool
  | 0, _ => ([], false)
  | n + 1, p =>
      if km.mem p = 0 then ([0], true)
      else
        let r := copyinstrPage km n (p + 1)
        (km.mem p :: r.1, r.2)

/-- `copyinstr(p->pagetable, dst, srcva, max)`: the bytes it stores to `dst`,
and whether it returns 0. -/
def copyinstr (s : State) (srcva max : ℕ) : List UInt8 × Bool :=
  if max = 0 then ([], false)
  else
    let va0 := pgrounddown srcva
    let pa0 := walkaddr s.p.pagetable va0
    if pa0 = 0 then ([], false)
    else
      let n := min (PGSIZE - (srcva - va0)) max
      let r := copyinstrPage s.kmem n (pa0 + (srcva - va0))
      if r.2 then r
      else
        let r' := copyinstr s ((va0 + PGSIZE) % 2 ^ 64) (max - n)
        (r.1 ++ r'.1, r'.2)
termination_by max
decreasing_by
  have := pgrounddown_le srcva
  have := lt_pgrounddown_add srcva
  omega

/-! ## Bytes on present pages -/

/-- The byte at a user address whose page is present. -/
def presentByte (s : State) (va : ℕ) : Option UInt8 :=
  if walkaddr s.p.pagetable (pgrounddown va) = 0 then none
  else some (s.kmem.mem
    (walkaddr s.p.pagetable (pgrounddown va) + va % PGSIZE))

/-- The bytes from `srcva` on. -/
def bytesFrom (s : State) (srcva : ℕ) (i : ℕ) : Option UInt8 :=
  presentByte s ((srcva + i) % 2 ^ 64)

theorem presentByte_ne_none {va : ℕ} : presentByte s va ≠ none ↔
    walkaddr s.p.pagetable (pgrounddown va) ≠ 0 := by
  unfold presentByte
  split <;> simp_all

/-- Inside the page of `srcva`. -/
theorem page_offset {i : ℕ} (hsrc : srcva < 2 ^ 64)
    (hi : i < PGSIZE - srcva % PGSIZE) :
    (srcva + i) % 2 ^ 64 = srcva + i ∧
      pgrounddown (srcva + i) = pgrounddown srcva ∧
      (srcva + i) % PGSIZE = srcva % PGSIZE + i := by
  unfold pgrounddown PGSIZE at *
  omega

/-- Behind it. -/
theorem next_page (srcva i : ℕ) :
    ((pgrounddown srcva + PGSIZE) % 2 ^ 64 + i) % 2 ^ 64 =
      (srcva + (PGSIZE - srcva % PGSIZE + i)) % 2 ^ 64 := by
  unfold pgrounddown PGSIZE
  omega

theorem copyinstrPage_eq_scan (km : Kmem) : ∀ (n p : ℕ),
    copyinstrPage km n p = scan 0 n fun i => some (km.mem (p + i)) := by
  intro n
  induction n with
  | zero => exact fun _ => rfl
  | succ n ih =>
    intro p
    have hshift : (fun i => some (km.mem (p + 1 + i))) =
        fun i => some (km.mem (p + (i + 1))) := by
      funext i
      rw [Nat.add_assoc, Nat.add_comm 1 i]
    rw [copyinstrPage, ih, hshift]
    by_cases hnul : km.mem p = 0
    · have hread : some (km.mem (p + 0)) = some 0 := congrArg some hnul
      rw [if_pos hnul, scan_stop n hread]
    · have hread : some (km.mem (p + 0)) = some (km.mem p) := rfl
      rw [if_neg hnul, scan_cons n hread hnul]

/-- On its first page the inner loop reads the bytes from `srcva` on. -/
theorem copyinstrPage_first {n : ℕ} (hsrc : srcva < 2 ^ 64)
    (hpa : walkaddr s.p.pagetable (pgrounddown srcva) ≠ 0)
    (hn : n ≤ PGSIZE - srcva % PGSIZE) :
    (∀ i < n, bytesFrom s srcva i ≠ none) ∧
      copyinstrPage s.kmem n (walkaddr s.p.pagetable (pgrounddown srcva) +
        srcva % PGSIZE) = scan 0 n (bytesFrom s srcva) := by
  have hbyte : ∀ i < n, bytesFrom s srcva i = some (s.kmem.mem
      (walkaddr s.p.pagetable (pgrounddown srcva) + srcva % PGSIZE + i)) := by
    intro i hi
    obtain ⟨hwrap, hpage, hoff⟩ := page_offset hsrc (Nat.lt_of_lt_of_le hi hn)
    rw [bytesFrom, hwrap, presentByte, hpage, if_neg hpa, hoff, Nat.add_assoc]
  refine ⟨fun i hi => by rw [hbyte i hi]; nofun, ?_⟩
  rw [copyinstrPage_eq_scan]
  exact scan_congr fun i hi => (hbyte i hi).symm

/-- **`copyinstr` is a scan over the bytes of present pages.** -/
theorem copyinstr_eq_scan (s : State) (srcva max : ℕ) (hsrc : srcva < 2 ^ 64) :
    copyinstr s srcva max = scan 0 max (bytesFrom s srcva) := by
  fun_induction copyinstr s srcva max with
  | case1 srcva => rfl
  | case2 srcva max hmax va0 pa0 hpa =>
    obtain ⟨m, rfl⟩ := Nat.exists_eq_succ_of_ne_zero hmax
    have hnone : bytesFrom s srcva 0 = none := by
      rw [bytesFrom, Nat.add_zero, Nat.mod_eq_of_lt hsrc, presentByte,
        if_pos hpa]
    rw [scan, hnone]
  | case3 srcva max hmax va0 pa0 hpa n r hgot =>
    have hoff : srcva - va0 = srcva % PGSIZE := sub_pgrounddown srcva
    have hr : r = copyinstrPage s.kmem n (pa0 + srcva % PGSIZE) := by
      rw [← hoff]
    obtain ⟨hreads, hfirst⟩ := copyinstrPage_first (n := n) hsrc hpa
      (by omega)
    have hmax : max = n + (max - n) := by omega
    rw [hmax, scan_add hreads, ← hfirst, ← show r = _ from hr, if_pos hgot]
  | case4 srcva max hmax va0 pa0 hpa n r hgot r' ih =>
    have hoff : srcva - va0 = srcva % PGSIZE := sub_pgrounddown srcva
    have hr : r = copyinstrPage s.kmem n (pa0 + srcva % PGSIZE) := by
      rw [← hoff]
    obtain ⟨hreads, hfirst⟩ := copyinstrPage_first (n := n) hsrc hpa
      (by omega)
    -- the next page follows, unless this was the last byte allowed
    have hrest : scan 0 (max - n) (bytesFrom s ((va0 + PGSIZE) % 2 ^ 64)) =
        scan 0 (max - n) fun i => bytesFrom s srcva (n + i) := by
      apply scan_congr
      intro i hi
      have hn : n = PGSIZE - srcva % PGSIZE := by omega
      rw [bytesFrom, bytesFrom, next_page _ i, hn]
    have hmax : max = n + (max - n) := by omega
    have hr' : r' = scan 0 (max - n) fun i => bytesFrom s srcva (n + i) :=
      (ih (Nat.mod_lt _ (by decide))).trans hrest
    rw [hr']
    conv_rhs => rw [hmax, scan_add hreads, ← hfirst, ← show r = _ from hr,
      if_neg hgot]

/-! ## Strings that `copyin` reads -/

/-- `copyin` of `k + 1` bytes goes through and brings `k` bytes that are not
zero and then a zero. -/
def StringAt (s : State) (srcva k : ℕ) : Prop :=
  (copyin s srcva (k + 1)).ret = .ok true ∧
    ∃ bs, bs.length = k ∧ (∀ b ∈ bs, b ≠ 0) ∧
      (copyin s srcva (k + 1)).dst = bs ++ [0]

/-- The first `n` bytes are on pages that are present. -/
def PresentFrom (s : State) (srcva n : ℕ) : Prop :=
  ∀ i < n, walkaddr s.p.pagetable (pgrounddown ((srcva + i) % 2 ^ 64)) ≠ 0

/-- What the two calls have to agree on. -/
structure StringsAgree (s : State) (srcva max : ℕ) : Prop where
  returns : (copyinstr s srcva max).2 = true ↔ ∃ k < max, StringAt s srcva k
  copied : (copyinstr s srcva max).2 = true → ∃ k < max, StringAt s srcva k ∧
    (copyinstr s srcva max).1 = (copyin s srcva (k + 1)).dst
  bounded : (copyinstr s srcva max).1.length ≤ max

theorem exists_frame_of_walkaddr {pt : PageTable} {va : ℕ}
    (h : walkaddr pt va ≠ 0) : ∃ f : Frame, walkaddr pt va = f.pa := by
  by_cases hva : va < MAXVA
  · cases hl : pt.leaf va with
    | none =>
      rw [walkaddr, if_pos hva, hl] at h
      exact absurd rfl h
    | some l =>
      rw [walkaddr_of_leaf hva hl] at h ⊢
      split at h
      · rename_i hu
        exact ⟨l.frame, if_pos hu⟩
      · exact absurd rfl h
  · rw [walkaddr, if_neg hva] at h
    exact absurd rfl h

/-- One round of `copyin` on a page that is present. -/
theorem copyin_present {n : ℕ} (hn : n ≠ 0) (hsrc : srcva < 2 ^ 64)
    (hpa : walkaddr s.p.pagetable (pgrounddown srcva) ≠ 0) :
    (copyin s srcva n).ret = (copyin s ((pgrounddown srcva + PGSIZE) % 2 ^ 64)
        (n - min (PGSIZE - srcva % PGSIZE) n)).ret ∧
      ∃ bs, bs.length = min (PGSIZE - srcva % PGSIZE) n ∧
        (∀ i < bs.length, bytesFrom s srcva i = bs[i]?) ∧
        (copyin s srcva n).dst = bs ++
          (copyin s ((pgrounddown srcva + PGSIZE) % 2 ^ 64)
            (n - min (PGSIZE - srcva % PGSIZE) n)).dst := by
  obtain ⟨f, hf⟩ := exists_frame_of_walkaddr hpa
  have hpage : copyinPage s (pgrounddown srcva) = .ok (s, f.pa) := by
    rw [copyinPage, if_neg hpa, hf]
  rw [copyin_served hn hpage]
  refine ⟨rfl, _, length_pageBytes .., ?_, rfl⟩
  intro i hi
  rw [length_pageBytes] at hi
  obtain ⟨hwrap, hpage', hoff⟩ := page_offset (i := i) hsrc (by omega)
  rw [bytesFrom, hwrap, presentByte, hpage', if_neg hpa, hf, hoff, pageBytes,
    List.getElem?_map, List.getElem?_range hi, ← Nat.add_assoc]
  rfl

/-- What `copyin` brings from the present pages at the beginning. -/
theorem copyin_prefix : ∀ (n : ℕ) {srcva m : ℕ}, srcva < 2 ^ 64 → m ≤ n →
    PresentFrom s srcva m →
    (∀ i < m, (copyin s srcva n).dst[i]? = bytesFrom s srcva i) ∧
      (m = n → (copyin s srcva n).ret = .ok true ∧
        (copyin s srcva n).dst.length = n) := by
  intro n
  induction n using Nat.strong_induction_on with
  | _ n ih =>
    intro srcva m hsrc hm hpresent
    rcases Nat.eq_zero_or_pos m with rfl | hpos
    · refine ⟨nofun, ?_⟩
      rintro rfl
      rw [copyin_zero]
      exact ⟨rfl, rfl⟩
    · have hpa : walkaddr s.p.pagetable (pgrounddown srcva) ≠ 0 := by
        have := hpresent 0 hpos
        rwa [Nat.add_zero, Nat.mod_eq_of_lt hsrc] at this
      have hmod := Nat.mod_lt srcva (show 0 < PGSIZE by decide)
      obtain ⟨hret, bs, hlen, hbytes, hdst⟩ :=
        copyin_present (n := n) (by omega) hsrc hpa
      generalize hc : min (PGSIZE - srcva % PGSIZE) n = c at *
      -- the bytes behind this page, if the range goes that far
      have hshift : ∀ j, c = PGSIZE - srcva % PGSIZE →
          ((pgrounddown srcva + PGSIZE) % 2 ^ 64 + j) % 2 ^ 64 =
            (srcva + (c + j)) % 2 ^ 64 := by
        intro j hcj
        rw [next_page _ j, hcj]
      have hrest := ih (n - c) (by omega)
        (Nat.mod_lt (pgrounddown srcva + PGSIZE) (by decide : 0 < 2 ^ 64))
        (show m - c ≤ n - c by omega) (by
          intro j hj
          rw [hshift j (by omega)]
          exact hpresent (c + j) (by omega))
      rw [hdst, hret]
      refine ⟨?_, ?_⟩
      · intro i hi
        by_cases hic : i < c
        · rw [List.getElem?_append_left (by omega), hbytes i (by omega)]
        · rw [List.getElem?_append_right (by omega), hlen,
            hrest.1 (i - c) (by omega), bytesFrom, bytesFrom,
            hshift (i - c) (by omega), Nat.add_sub_cancel' (by omega)]
      · intro hmn
        obtain ⟨hok, hl⟩ := hrest.2 (by omega)
        refine ⟨hok, ?_⟩
        rw [List.length_append, hl, hlen]
        omega

/-! ## Agreement -/

/-- A string that `copyinstr` finds is one that `copyin` reads, on present
pages. -/
theorem stringAt_of_terminated {bs : List UInt8} (hsrc : srcva < 2 ^ 64)
    (h : Terminated 0 (bytesFrom s srcva) bs) :
    PresentFrom s srcva (bs.length + 1) ∧ StringAt s srcva bs.length ∧
      (copyin s srcva (bs.length + 1)).dst = bs ++ [0] := by
  have hread : ∀ i < bs.length + 1,
      bytesFrom s srcva i = (bs ++ [0])[i]? := by
    intro i hi
    rcases Nat.lt_succ_iff_lt_or_eq.mp hi with hlt | rfl
    · rw [List.getElem?_append_left hlt, h.before i hlt]
    · rw [List.getElem?_concat_length, h.last]
  have hpresent : PresentFrom s srcva (bs.length + 1) := by
    intro i hi
    apply presentByte_ne_none.mp
    rw [← bytesFrom, hread i hi, List.getElem?_eq_getElem (by simpa using hi)]
    nofun
  obtain ⟨hbytes, hdone⟩ := copyin_prefix (bs.length + 1) hsrc (Nat.le_refl _)
    hpresent
  obtain ⟨hret, hlen⟩ := hdone rfl
  have hdst : (copyin s srcva (bs.length + 1)).dst = bs ++ [0] := by
    apply List.ext_getElem?
    intro i
    by_cases hi : i < bs.length + 1
    · rw [hbytes i hi, hread i hi]
    · rw [List.getElem?_eq_none (by omega),
        List.getElem?_eq_none (by simp; omega)]
  exact ⟨hpresent, ⟨hret, bs, rfl, h.ne_stop, hdst⟩, hdst⟩

/-- The string that `copyin` reads from present pages is found. -/
theorem terminated_of_stringAt {k : ℕ} (hsrc : srcva < 2 ^ 64)
    (h : StringAt s srcva k) (hpresent : PresentFrom s srcva (k + 1)) :
    ∃ bs, bs.length = k ∧ Terminated 0 (bytesFrom s srcva) bs := by
  obtain ⟨-, bs, hlen, hne, hdst⟩ := h
  obtain ⟨hbytes, -⟩ := copyin_prefix (k + 1) hsrc (Nat.le_refl _) hpresent
  refine ⟨bs, hlen, ?_, hne, ?_⟩
  · intro i hi
    rw [← hbytes i (by omega), hdst, List.getElem?_append_left hi]
  · rw [← hbytes bs.length (by omega), hdst, List.getElem?_concat_length]

/-- Two strings that start at one address, the one on present pages, end at
the same place. -/
theorem presentFrom_of_terminated {k : ℕ} {bs : List UInt8}
    (hsrc : srcva < 2 ^ 64) (hbs : Terminated 0 (bytesFrom s srcva) bs)
    (h : StringAt s srcva k) : PresentFrom s srcva (k + 1) := by
  obtain ⟨hpresent, -, -⟩ := stringAt_of_terminated hsrc hbs
  have hle : k ≤ bs.length := by
    by_contra hlt
    obtain ⟨-, cs, hlen, hne, hdst⟩ := h
    -- the shorter string ends inside the longer one
    obtain ⟨hbytes, -⟩ := copyin_prefix (k + 1) hsrc
      (show bs.length + 1 ≤ k + 1 by omega) hpresent
    have hzero := hbytes bs.length (Nat.lt_succ_self _)
    rw [hbs.last, hdst, List.getElem?_append_left (by omega)] at hzero
    exact hne 0 (List.mem_of_getElem? hzero) rfl
  intro i hi
  exact hpresent i (by omega)

/-- **`copyinstr` agrees with `copyin` exactly when the string it looks for
lies on present pages.** -/
theorem copyinstr_agrees_iff (s : State) (srcva : UInt64) (max : ℕ) :
    StringsAgree s srcva.toNat max ↔ ∀ k < max,
      StringAt s srcva.toNat k → PresentFrom s srcva.toNat (k + 1) := by
  have hsrc := srcva.toNat_lt
  have hscan := copyinstr_eq_scan s srcva.toNat max hsrc
  have hfound : (copyinstr s srcva.toNat max).2 = true →
      ∃ bs, bs.length < max ∧
        Terminated 0 (bytesFrom s srcva.toNat) bs := by
    intro h
    rw [hscan] at h
    exact exists_terminated_of_scan h
  constructor
  · intro hagree k hk hstring
    obtain ⟨bs, -, hbs⟩ := hfound (hagree.returns.mpr ⟨k, hk, hstring⟩)
    exact presentFrom_of_terminated hsrc hbs hstring
  · intro hpresent
    refine ⟨⟨?_, ?_⟩, ?_, ?_⟩
    · intro h
      obtain ⟨bs, hlen, hbs⟩ := hfound h
      exact ⟨bs.length, hlen, (stringAt_of_terminated hsrc hbs).2.1⟩
    · rintro ⟨k, hk, hstring⟩
      obtain ⟨bs, rfl, hbs⟩ := terminated_of_stringAt hsrc hstring
        (hpresent k hk hstring)
      rw [hscan, scan_of_terminated hk hbs]
    · intro h
      obtain ⟨bs, hlen, hbs⟩ := hfound h
      obtain ⟨-, hstring, hdst⟩ := stringAt_of_terminated hsrc hbs
      refine ⟨bs.length, hlen, hstring, ?_⟩
      rw [hscan, scan_of_terminated hlen hbs, hdst]
    · rw [hscan]
      exact length_scan_le ..

/-- The empty string on a page of the heap that has not been touched:
`copyin` brings the page in, `copyinstr` returns -1. -/
theorem copyinstr_lazy :
    StringAt (bootState [200, 201, 202] rwFile pageInode) 0 0 ∧
      (copyinstr (bootState [200, 201, 202] rwFile pageInode) 0 16).2 =
        false ∧
      ¬ StringsAgree (bootState [200, 201, 202] rwFile pageInode) 0 16 := by
  have hstring : StringAt (bootState [200, 201, 202] rwFile pageInode) 0 0 := by
    obtain ⟨done, hret, hdone⟩ := exists_ok_of_any
      (show ((copyin (bootState [200, 201, 202] rwFile pageInode) 0
        1).ret.toOption.any fun done => done) = true by decide +kernel)
    obtain rfl : done = true := hdone
    exact ⟨hret, [], rfl, nofun, by decide +kernel⟩
  have hnone : (copyinstr (bootState [200, 201, 202] rwFile pageInode) 0
      16).2 = false := by
    decide +kernel
  refine ⟨hstring, hnone, fun hagree => ?_⟩
  have := hagree.returns.mpr ⟨0, by decide, hstring⟩
  rw [hnone] at this
  cases this

end Xv6.Vm
