import Mathlib.Data.List.Induction
import Mathlib.Data.List.Sort
import Mathlib.Data.List.Forall2

/-!
# Lists picked by position

What some positions of a list hold, and how positions in a picked list are
positions in the list it was picked from.
-/

namespace Parquex

section
variable {α β : Type} {indices positions : List Nat} {l : List α}

/-- What a list holds at some positions. -/
def pick (indices : List Nat) (l : List α) : List α := indices.filterMap fun index => l[index]?

theorem getElem?_pick (h : ∀ index ∈ indices, index < l.length) (i : Nat) :
    (pick indices l)[i]? = indices[i]?.bind fun index => l[index]? := by
  induction indices generalizing i with
  | nil => simp [pick]
  | cons index indices ih =>
    have hlt := h index (by simp)
    have ih := ih (fun index hmem => h index (by simp [hmem]))
    simp only [pick] at ih ⊢
    rw [List.filterMap_cons, List.getElem?_eq_getElem hlt]
    cases i with
    | zero => simp [List.getElem?_eq_getElem hlt]
    | succ i => simpa using ih i

theorem length_pick (h : ∀ index ∈ indices, index < l.length) : (pick indices l).length = indices.length := by
  induction indices with
  | nil => rfl
  | cons index indices ih =>
    have hlt := h index (by simp)
    have ih := ih (fun index hmem => h index (by simp [hmem]))
    simp only [pick] at ih ⊢
    rw [List.filterMap_cons, List.getElem?_eq_getElem hlt, List.length_cons, List.length_cons, ih]

theorem pick_map (indices : List Nat) (l : List α) (f : α → β) : pick indices (l.map f) = (pick indices l).map f := by
  simp [pick, List.map_filterMap]

theorem mapM_pick (h : ∀ index ∈ indices, index < l.length) :
    (indices.mapM fun index => l[index]?) = some (pick indices l) := by
  induction indices with
  | nil => rfl
  | cons index indices ih =>
    have hlt := h index (by simp)
    have ih := ih (fun index hmem => h index (by simp [hmem]))
    simp only [pick] at ih ⊢
    rw [List.mapM_cons, ih, List.filterMap_cons, List.getElem?_eq_getElem hlt]
    rfl

theorem pick_range (l : List α) : pick (List.range l.length) l = l := by
  apply List.ext_getElem?
  intro i
  rw [getElem?_pick (by simp)]
  by_cases hi : i < l.length
  · simp [hi]
  · simp [hi]

/-- Positions in a picked list stand for the positions they hold. -/
theorem pick_pick (h : List.Forall₂ (fun index position => indices[position]? = some index) wanted positions)
    (hlt : ∀ index ∈ indices, index < l.length) : pick positions (pick indices l) = pick wanted l := by
  induction h with
  | nil => rfl
  | @cons index position wanted positions hhead _ ih =>
    simp only [pick] at ih ⊢
    have hget := getElem?_pick hlt position
    simp only [pick, hhead, Option.bind_some] at hget
    rw [List.filterMap_cons, List.filterMap_cons, hget, ih]

/-- Two increasing lists with the same members are the same. -/
theorem eq_of_increasing {l l' : List Nat} (h : l.Pairwise (· < ·)) (h' : l'.Pairwise (· < ·))
    (hmem : ∀ i, i ∈ l ↔ i ∈ l') : l = l' := by
  have hnodup : l.Nodup := h.imp fun hlt => Nat.ne_of_lt hlt
  have hnodup' : l'.Nodup := h'.imp fun hlt => Nat.ne_of_lt hlt
  have hperm : l.Perm l' := (List.perm_ext_iff_of_nodup hnodup hnodup').mpr hmem
  exact hperm.eq_of_pairwise' (h.imp Nat.le_of_lt) (h'.imp Nat.le_of_lt)

/-- An increasing list of positions in the order of the list. -/
theorem eq_filter_range {n : Nat} (h : indices.Pairwise (· < ·)) (hlt : ∀ index ∈ indices, index < n)
    {p : Nat → Bool} (hp : ∀ index < n, p index = true ↔ index ∈ indices) : indices = (List.range n).filter p := by
  apply eq_of_increasing h (List.pairwise_lt_range.filter p)
  intro i
  rw [List.mem_filter, List.mem_range]
  constructor
  · intro hi
    exact ⟨hlt i hi, (hp i (hlt i hi)).mpr hi⟩
  · rintro ⟨hi, hpi⟩
    exact (hp i hi).mp hpi

/-- Picking the positions of the members that satisfy a condition filters the list. -/
theorem pick_filter_range (l : List α) (p : α → Bool) :
    pick ((List.range l.length).filter fun index => l[index]?.any p) l = l.filter p := by
  induction l using List.reverseRecOn with
  | nil => rfl
  | append_singleton l a ih =>
    have hbefore : ((List.range l.length).filter fun index => (l ++ [a])[index]?.any p) =
        (List.range l.length).filter fun index => l[index]?.any p := by
      apply List.filter_congr
      intro index hindex
      rw [List.getElem?_append_left (List.mem_range.mp hindex)]
    have hpick : pick ((List.range l.length).filter fun index => l[index]?.any p) (l ++ [a]) = l.filter p := by
      rw [← ih]
      apply List.filterMap_congr
      intro index hindex
      rw [List.getElem?_append_left (List.mem_range.mp (List.mem_filter.mp hindex).1)]
    rw [List.length_append, List.length_singleton, List.range_succ, List.filter_append, hbefore, List.filter_append]
    rw [pick, List.filterMap_append]
    change pick _ _ ++ _ = _
    rw [hpick]
    cases ha : p a with
    | false => simp [ha]
    | true => simp [ha]

/-- Keeping the members at some positions picks those positions in order. -/
theorem filterMap_zipIdx (l : List α) (p : Nat → Bool) :
    (l.zipIdx.filterMap fun entry => if p entry.2 then some entry.1 else none) =
      pick ((List.range l.length).filter p) l := by
  induction l using List.reverseRecOn with
  | nil => rfl
  | append_singleton l a ih =>
    have hpick : pick ((List.range l.length).filter p) (l ++ [a]) = pick ((List.range l.length).filter p) l := by
      apply List.filterMap_congr
      intro index hindex
      rw [List.getElem?_append_left (List.mem_range.mp (List.mem_filter.mp hindex).1)]
    rw [List.zipIdx_append, List.filterMap_append, ih, List.length_append, List.length_singleton, List.range_succ,
      List.filter_append, ← hpick]
    simp only [pick, List.filterMap_append]
    cases hp : p l.length with
    | false => simp [hp]
    | true => simp [hp]

section
variable {R : α → β → Prop} {as : List α} {bs : List β}

theorem mem_of_forall₂ (h : List.Forall₂ R as bs) (hfun : ∀ a b b', R a b → R a b' → b = b') (b : β) :
    b ∈ bs ↔ ∃ a ∈ as, R a b := by
  induction h with
  | nil => simp
  | @cons a b' as bs hhead _ ih =>
    simp only [List.mem_cons, exists_eq_or_imp, ih]
    constructor
    · rintro (rfl | h)
      · exact .inl hhead
      · exact .inr h
    · rintro (h | h)
      · exact .inl (hfun a b b' h hhead)
      · exact .inr h

theorem nodup_of_forall₂ (h : List.Forall₂ R as bs) (hfun : ∀ a b b', R a b → R a b' → b = b')
    (hinj : ∀ a a' b, R a b → R a' b → a = a') (has : as.Nodup) : bs.Nodup := by
  induction h with
  | nil => exact List.nodup_nil
  | @cons a b as bs hhead htail ih =>
    obtain ⟨hnot, has⟩ := List.nodup_cons.mp has
    refine List.nodup_cons.mpr ⟨fun hb => hnot ?_, ih has⟩
    obtain ⟨a', ha', hab⟩ := (mem_of_forall₂ htail hfun b).mp hb
    rw [hinj a a' b hhead hab]
    exact ha'

end

/-- Sorting a duplicate-free list makes it increasing. -/
theorem increasing_insertionSort {indices : List Nat} (h : indices.Nodup) :
    (indices.insertionSort (· ≤ ·)).Pairwise (· < ·) := by
  have hsorted := indices.pairwise_insertionSort (· ≤ ·)
  have hnodup : (indices.insertionSort (· ≤ ·)).Nodup := (List.perm_insertionSort _ indices).nodup_iff.mpr h
  exact hsorted.imp₂ (fun _ _ hle hne => Nat.lt_of_le_of_ne hle hne) hnodup

end

end Parquex
