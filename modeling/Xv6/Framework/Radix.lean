import Mathlib

/-!
# Three-level radix tables

A table page occupies a frame and has `n` entries. Three levels of them map an
index triple to a slot; an entry of the two upper levels is absent until a
page is added for it. Seen through `Root.value`, which reads an absent slot as
an empty one, adding pages changes nothing and writing one slot changes
exactly that slot, so a root behaves as a flat map from index triples.
-/

namespace Xv6.Framework

variable {φ α : Type*} {n : ℕ}

/-- One table page. -/
structure Table (φ : Type*) (n : ℕ) (α : Type*) where
  frame : φ
  entry : Fin n → α

variable {i j : Fin n}

namespace Table

def set (t : Table φ n α) (i : Fin n) (a : α) : Table φ n α :=
  { t with entry := Function.update t.entry i a }

/-- A fresh page, every entry of which is `a`. -/
def blank (f : φ) (a : α) : Table φ n α := ⟨f, fun _ => a⟩

@[simp] theorem frame_set (t : Table φ n α) (i : Fin n) (a : α) :
    (t.set i a).frame = t.frame := rfl

@[simp] theorem entry_set_self (t : Table φ n α) (i : Fin n) (a : α) :
    (t.set i a).entry i = a := Function.update_self ..

theorem entry_set_of_ne (t : Table φ n α) (a : α) (h : j ≠ i) :
    (t.set i a).entry j = t.entry j := Function.update_of_ne h ..

@[simp] theorem entry_blank (f : φ) (a : α) (i : Fin n) :
    (blank f a : Table φ n α).entry i = a := rfl

end Table

abbrev Mid (φ : Type*) (n : ℕ) (α : Type*) := Table φ n (Option (Table φ n α))

abbrev Root (φ : Type*) (n : ℕ) (α : Type*) := Table φ n (Option (Mid φ n α))

namespace Root

/-- The slot at an index triple, if the pages on the way are there. -/
def slot (t : Root φ n α) (i j k : Fin n) : Option α :=
  match t.entry i with
  | none => none
  | some m =>
      match m.entry j with
      | none => none
      | some l => some (l.entry k)

/-- Write a slot; without the pages on the way there is nothing to write. -/
def put (t : Root φ n α) (i j k : Fin n) (a : α) : Root φ n α :=
  match t.entry i with
  | none => t
  | some m =>
      match m.entry j with
      | none => t
      | some l => t.set i (some (m.set j (some (l.set k a))))

/-- Replace the page for `i` at the second level. -/
def setMid (t : Root φ n α) (i : Fin n) (m : Mid φ n α) : Root φ n α :=
  t.set i (some m)

/-! ## Writing a slot -/

variable {t : Root φ n α} {k : Fin n}

theorem slot_put_self {b : α} (a : α) (h : t.slot i j k = some b) :
    (t.put i j k a).slot i j k = some a := by
  unfold slot at h
  cases hi : t.entry i with
  | none => simp [hi] at h
  | some m =>
    cases hj : m.entry j with
    | none => simp [hi, hj] at h
    | some l => simp [put, slot, hi, hj]

variable {i' j' k' : Fin n}

theorem slot_put_of_ne (t : Root φ n α) (a : α) (h : (i', j', k') ≠ (i, j, k)) :
    (t.put i j k a).slot i' j' k' = t.slot i' j' k' := by
  cases hi : t.entry i with
  | none => simp [put, hi]
  | some m =>
    cases hj : m.entry j with
    | none => simp [put, hi, hj]
    | some l =>
      by_cases hii : i' = i
      · subst hii
        by_cases hjj : j' = j
        · subst hjj
          have hkk : k' ≠ k := fun e => h (by rw [e])
          simp [put, slot, hi, hj, Table.entry_set_of_ne _ _ hkk]
        · simp [put, slot, hi, hj, Table.entry_set_of_ne _ _ hjj]
      · simp [put, slot, hi, hj, Table.entry_set_of_ne _ _ hii]

/-- Writing a slot adds no page. -/
theorem entry_put_of_none (a : α) (h : t.entry i' = none) :
    (t.put i j k a).entry i' = none := by
  cases hi : t.entry i with
  | none => simpa [put, hi] using h
  | some m =>
    have hne : i' ≠ i := by
      rintro rfl
      rw [hi] at h
      cases h
    cases hj : m.entry j with
    | none => simpa [put, hi, hj] using h
    | some l => simpa [put, hi, hj, Table.entry_set_of_ne _ _ hne] using h

/-! ## The flat map -/

section Value

variable {β : Type*}

/-- A slot holding nothing and an absent slot read the same. -/
def value (t : Root φ n (Option β)) (i j k : Fin n) : Option β :=
  (t.slot i j k).join

theorem value_put_self {t : Root φ n (Option β)} {b : Option β} (a : Option β)
    (h : t.slot i j k = some b) : (t.put i j k a).value i j k = a := by
  rw [value, slot_put_self a h]
  rfl

theorem value_put_of_ne (t : Root φ n (Option β)) (a : Option β)
    (h : (i', j', k') ≠ (i, j, k)) :
    (t.put i j k a).value i' j' k' = t.value i' j' k' := by
  rw [value, value, slot_put_of_ne t a h]

/-- Clearing a slot, whether or not its pages are there. -/
theorem value_clear (t : Root φ n (Option β)) (i j k : Fin n) :
    (t.put i j k none).value i j k = none := by
  cases h : t.slot i j k with
  | some b => exact value_put_self none h
  | none =>
    have hput : t.put i j k none = t := by
      unfold slot at h
      cases hi : t.entry i with
      | none => simp [put, hi]
      | some m =>
        cases hj : m.entry j with
        | none => simp [put, hi, hj]
        | some l => simp [hi, hj] at h
    rw [hput, value, h]
    rfl

/-- Hanging a blank page below an absent second-level entry adds no value. -/
theorem value_setMid_blank {t : Root φ n (Option β)} (f : φ)
    (h : t.entry i = none) (i' j' k' : Fin n) :
    (t.setMid i (Table.blank f none)).value i' j' k' = t.value i' j' k' := by
  by_cases hii : i' = i
  · subst hii
    simp [value, slot, setMid, h]
  · simp [value, slot, setMid, Table.entry_set_of_ne _ _ hii]

/-- Hanging a blank leaf page below an absent first-level entry adds no
value. -/
theorem value_setLeafPage {t : Root φ n (Option β)} {m : Mid φ n (Option β)}
    (f : φ) (hi : t.entry i = some m) (hj : m.entry j = none) (i' j' k' : Fin n) :
    (t.setMid i (m.set j (some (Table.blank f none)))).value i' j' k' =
      t.value i' j' k' := by
  by_cases hii : i' = i
  · subst hii
    by_cases hjj : j' = j
    · subst hjj
      simp [value, slot, setMid, hi, hj]
    · simp [value, slot, setMid, hi, Table.entry_set_of_ne _ _ hjj]
  · simp [value, slot, setMid, Table.entry_set_of_ne _ _ hii]

end Value

/-! ## The frames of a tree -/

/-- The frames of a second-level page and the leaf pages below it, pages
before their parent. -/
def midFrames (m : Mid φ n α) : List φ :=
  (List.finRange n).flatMap (fun j => ((m.entry j).map Table.frame).toList) ++
    [m.frame]

/-- The frames of a whole tree, pages before their parent. -/
def frames (t : Root φ n α) : List φ :=
  (List.finRange n).flatMap
    (fun i => ((t.entry i).map midFrames).getD []) ++ [t.frame]

variable {m : Mid φ n α} {f : φ}

theorem mem_midFrames :
    f ∈ midFrames m ↔
      f = m.frame ∨ ∃ j l, m.entry j = some l ∧ l.frame = f := by
  simp only [midFrames, List.mem_append, List.mem_flatMap, List.mem_finRange,
    true_and, List.mem_singleton, Option.mem_toList, Option.map_eq_some_iff]
  exact or_comm

theorem mem_frames :
    f ∈ frames t ↔
      f = t.frame ∨ ∃ i m, t.entry i = some m ∧ f ∈ midFrames m := by
  simp only [frames, List.mem_append, List.mem_flatMap, List.mem_finRange,
    true_and, List.mem_singleton]
  constructor
  · rintro (⟨i, hf⟩ | hf)
    · cases hi : t.entry i with
      | none => simp [hi] at hf
      | some m => exact Or.inr ⟨i, m, hi, by simpa [hi] using hf⟩
    · exact Or.inl hf
  · rintro (hf | ⟨i, m, hi, hf⟩)
    · exact Or.inr hf
    · exact Or.inl ⟨i, by simpa [hi] using hf⟩

variable {l : Table φ n α}

theorem midFrames_set (h : m.entry j = some l) (l' : Table φ n α)
    (hl : l'.frame = l.frame) :
    midFrames (m.set j (some l')) = midFrames m := by
  have hentry : (fun j' => (((m.set j (some l')).entry j').map
      Table.frame).toList) = fun j' => ((m.entry j').map Table.frame).toList := by
    funext j'
    by_cases hj : j' = j
    · subst hj
      simp [h, hl]
    · rw [Table.entry_set_of_ne _ _ hj]
  rw [midFrames, hentry]
  rfl

/-- Writing slots moves no frame. -/
theorem frames_put (t : Root φ n α) (i j k : Fin n) (a : α) :
    (t.put i j k a).frames = t.frames := by
  cases hi : t.entry i with
  | none => simp [put, hi]
  | some m =>
    cases hj : m.entry j with
    | none => simp [put, hi, hj]
    | some l =>
      have hentry : (fun i' => (((t.put i j k a).entry i').map
          midFrames).getD []) =
          fun i' => ((t.entry i').map midFrames).getD [] := by
        funext i'
        simp only [put, hi, hj]
        by_cases hii : i' = i
        · subst hii
          simp [hi, midFrames_set hj (l.set k a) rfl]
        · rw [Table.entry_set_of_ne _ _ hii]
      rw [frames, hentry]
      simp [frames, put, hi, hj]

/-- Replacing a second-level page adds no frame beyond the new page's. -/
theorem mem_frames_setMid (h : f ∈ (t.setMid i m).frames) :
    f ∈ t.frames ∨ f ∈ midFrames m := by
  rcases mem_frames.mp h with hf | ⟨i', m', hi', hf⟩
  · exact Or.inl (mem_frames.mpr (Or.inl hf))
  · by_cases hii : i' = i
    · subst hii
      simp only [setMid, Table.entry_set_self, Option.some.injEq] at hi'
      subst hi'
      exact Or.inr hf
    · rw [setMid, Table.entry_set_of_ne _ _ hii] at hi'
      exact Or.inl (mem_frames.mpr (Or.inr ⟨i', m', hi', hf⟩))

theorem two_le_length_midFrames (h : m.entry j ≠ none) :
    2 ≤ (midFrames m).length := by
  have hone : 1 ≤ (((m.entry j).map Table.frame).toList).length := by
    obtain ⟨l, hl⟩ := Option.ne_none_iff_exists'.mp h
    rw [hl]
    exact Nat.le_refl 1
  rw [midFrames, List.length_append, List.length_flatMap,
    List.length_singleton, ← Fin.sum_univ_def]
  have := Finset.single_le_sum
    (f := fun j => (((m.entry j).map Table.frame).toList).length)
    (fun _ _ => Nat.zero_le _) (Finset.mem_univ j)
  omega

/-- Two second-level pages with a page below each, and the root. -/
theorem five_le_length_frames (hne : i ≠ i') (h : t.slot i j k ≠ none)
    (h' : t.slot i' j' k' ≠ none) : 5 ≤ t.frames.length := by
  have hmid : ∀ {i j k : Fin n}, t.slot i j k ≠ none →
      2 ≤ (((t.entry i).map midFrames).getD []).length := by
    intro i j k h
    unfold slot at h
    cases hi : t.entry i with
    | none => simp [hi] at h
    | some m =>
      rw [Option.map_some, Option.getD_some]
      refine two_le_length_midFrames (j := j) fun hj => ?_
      simp [hi, hj] at h
  rw [frames, List.length_append, List.length_flatMap, List.length_singleton,
    ← Fin.sum_univ_def]
  have hsum := Finset.add_le_sum
    (f := fun i => (((t.entry i).map midFrames).getD []).length)
    (fun _ _ => Nat.zero_le _) (Finset.mem_univ i) (Finset.mem_univ i') hne
  have := hmid h
  have := hmid h'
  omega

/-- Hanging a leaf page below a second-level page adds that page's frame. -/
theorem mem_midFrames_set (h : f ∈ midFrames (m.set j (some l))) :
    f ∈ midFrames m ∨ f = l.frame := by
  rcases mem_midFrames.mp h with hf | ⟨j', l', hj', hf⟩
  · exact Or.inl (mem_midFrames.mpr (Or.inl hf))
  · by_cases hjj : j' = j
    · subst hjj
      simp only [Table.entry_set_self, Option.some.injEq] at hj'
      subst hj'
      exact Or.inr hf.symm
    · rw [Table.entry_set_of_ne _ _ hjj] at hj'
      exact Or.inl (mem_midFrames.mpr (Or.inr ⟨j', l', hj', hf⟩))

/-! ### Each frame as often as it occurs -/

/-- One part of a concatenation gets longer. -/
theorem flatMap_perm_cons {ι : Type*} {g g' : ι → List φ} {i : ι}
    (hi : (g' i).Perm (f :: g i)) (hother : ∀ j, j ≠ i → g' j = g j)
    {l : List ι} (hmem : i ∈ l) (hnodup : l.Nodup) :
    (l.flatMap g').Perm (f :: l.flatMap g) := by
  induction l with
  | nil => cases hmem
  | cons a l ih =>
    rw [List.nodup_cons] at hnodup
    rw [List.flatMap_cons, List.flatMap_cons]
    by_cases ha : i = a
    · subst ha
      have hrest : l.flatMap g' = l.flatMap g := by
        apply List.flatMap_congr
        intro j hj
        apply hother
        rintro rfl
        exact hnodup.1 hj
      rw [hrest]
      exact hi.append_right _
    · rw [hother a (Ne.symm ha)]
      have hrest := ih ((List.mem_cons.mp hmem).resolve_left ha) hnodup.2
      exact (hrest.append_left (g a)).trans List.perm_middle

theorem midFrames_set_blank (h : m.entry j = none) :
    (midFrames (m.set j (some l))).Perm (l.frame :: midFrames m) := by
  rw [midFrames, midFrames, Table.frame_set, ← List.cons_append]
  apply List.Perm.append_right
  refine flatMap_perm_cons (i := j) ?_ ?_ (List.mem_finRange j)
    (List.nodup_finRange n)
  · simp [h]
  · intro k hk
    rw [Table.entry_set_of_ne _ _ hk]

theorem midFrames_blank (f : φ) :
    midFrames (Table.blank f none : Mid φ n α) = [f] := by
  have hnone : (List.finRange n).flatMap (fun j =>
      (((Table.blank f none : Mid φ n α).entry j).map Table.frame).toList) =
        [] := List.flatMap_eq_nil_iff.mpr fun _ _ => rfl
  rw [midFrames, hnone]
  rfl

theorem frames_blank (f : φ) :
    frames (Table.blank f none : Root φ n α) = [f] := by
  have hnil : (List.finRange n).flatMap (fun i =>
      (((Table.blank f none : Root φ n α).entry i).map midFrames).getD []) =
      [] := by
    rw [List.flatMap_eq_nil_iff]
    intro i _
    rfl
  rw [frames, hnil]
  rfl

/-- Hanging a new second-level page adds one frame. -/
theorem frames_setMid_blank (f : φ) (h : t.entry i = none) :
    (t.setMid i (Table.blank f none)).frames.Perm (f :: t.frames) := by
  rw [frames, frames, setMid, Table.frame_set, ← List.cons_append]
  apply List.Perm.append_right
  refine flatMap_perm_cons (i := i) ?_ ?_ (List.mem_finRange i)
    (List.nodup_finRange n)
  · simp [h, midFrames_blank]
  · intro k hk
    rw [Table.entry_set_of_ne _ _ hk]

/-- Hanging a new leaf page adds one frame. -/
theorem frames_setLeafPage (l : Table φ n α) (hi : t.entry i = some m)
    (hj : m.entry j = none) :
    (t.setMid i (m.set j (some l))).frames.Perm (l.frame :: t.frames) := by
  rw [frames, frames, setMid, Table.frame_set, ← List.cons_append]
  apply List.Perm.append_right
  refine flatMap_perm_cons (i := i) ?_ ?_ (List.mem_finRange i)
    (List.nodup_finRange n)
  · simpa [hi] using midFrames_set_blank hj
  · intro k hk
    rw [Table.entry_set_of_ne _ _ hk]

end Root

end Xv6.Framework
