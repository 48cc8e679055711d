import Parquex.Fallible
import Mathlib.Data.List.Perm.Basic

/-!
# Lists regrouped by a key

Lists that agree on every group of a key hold the same items. The groups of
blocks with one key each are the blocks of that key.
-/

namespace Parquex

section
variable {α β κ : Type} [DecidableEq κ]

theorem perm_of_filter_eq (key : α → κ) {as bs : List α}
    (h : ∀ k, as.filter (fun a => key a = k) = bs.filter fun b => key b = k) : as.Perm bs := by
  classical
  rw [List.perm_iff_count]
  intro a
  have ha : decide (key a = key a) = true := by simp
  rw [← List.count_filter (p := fun x => decide (key x = key a)) ha,
    ← List.count_filter (p := fun x => decide (key x = key a)) (l := bs) ha, h (key a)]

theorem filter_flatMap_block (block : β → List α) (key : α → κ) (blockKey : β → κ) {blocks : List β}
    (h : ∀ b ∈ blocks, ∀ a ∈ block b, key a = blockKey b) (k : κ) :
    (blocks.flatMap block).filter (fun a => key a = k) = (blocks.filter fun b => blockKey b = k).flatMap block := by
  induction blocks with
  | nil => rfl
  | cons b blocks ih =>
    have hb := h b (by simp)
    rw [List.flatMap_cons, List.filter_append, ih fun b' hb' => h b' (by simp [hb'])]
    by_cases hk : blockKey b = k
    · rw [List.filter_cons_of_pos (by simpa using hk), List.flatMap_cons]
      congr 1
      rw [List.filter_eq_self]
      intro a ha
      simp [hb a ha, hk]
    · rw [List.filter_cons_of_neg (by simpa using hk)]
      have hnone : (block b).filter (fun a => key a = k) = [] := by
        rw [List.filter_eq_nil_iff]
        intro a ha
        simp [hb a ha, hk]
      rw [hnone, List.nil_append]

/-- Groups that include the key of every block with items hold the items of the blocks. -/
theorem perm_flatMap_groups (block : β → List α) (key : β → κ) {groups : List κ} (hnodup : groups.Nodup)
    {blocks : List β} (h : ∀ b ∈ blocks, block b ≠ [] → key b ∈ groups) :
    (groups.flatMap fun k => (blocks.filter fun b => key b = k).flatMap block).Perm (blocks.flatMap block) := by
  induction groups generalizing blocks with
  | nil =>
    have hnone : blocks.flatMap block = [] := by
      rw [List.flatMap_eq_nil_iff]
      intro b hb
      by_contra hne
      cases h b hb hne
    rw [hnone]
    exact List.Perm.nil
  | cons k groups ih =>
    rw [List.nodup_cons] at hnodup
    have hothers : ∀ k' ∈ groups, ((blocks.filter fun b => key b = k').flatMap block).Perm
        (((blocks.filter fun b => !decide (key b = k)).filter fun b => key b = k').flatMap block) := by
      intro k' hk'
      have hne : k' ≠ k := by
        rintro rfl
        exact hnodup.1 hk'
      rw [List.filter_filter]
      refine (List.Perm.of_eq (List.filter_congr fun b _ => ?_)).flatMap_right block
      by_cases hb : key b = k'
      · simp [hb, hne]
      · simp [hb]
    have hrest := @ih hnodup.2 (blocks.filter fun b => !decide (key b = k)) fun b hb hne => by
      rw [List.mem_filter] at hb
      exact (List.mem_cons.mp (h b hb.1 hne)).resolve_left (by simpa using hb.2)
    have hsplit := (List.filter_append_perm (fun b => decide (key b = k)) blocks).flatMap_right block
    rw [List.flatMap_append] at hsplit
    rw [List.flatMap_cons]
    exact (((List.Perm.flatMap_left groups hothers).trans hrest).append_left _).trans hsplit

end

theorem forall₂_filter {α β : Type} {R : α → β → Prop} {as : List α} {bs : List β} {p : α → Bool} {q : β → Bool}
    (h : List.Forall₂ R as bs) (hpq : ∀ a b, R a b → p a = q b) : List.Forall₂ R (as.filter p) (bs.filter q) := by
  induction h with
  | nil => exact .nil
  | @cons a b as bs hhead _ ih =>
    rw [List.filter_cons, List.filter_cons, hpq a b hhead]
    by_cases hq : q b = true
    · rw [if_pos hq, if_pos hq]
      exact .cons hhead ih
    · rw [if_neg hq, if_neg hq]
      exact ih

theorem forall₂_unique {α β : Type} {R : α → β → Prop} (hR : ∀ a b b', R a b → R a b' → b = b') {as : List α}
    {bs bs' : List β} (h : List.Forall₂ R as bs) (h' : List.Forall₂ R as bs') : bs = bs' := by
  induction h generalizing bs' with
  | nil => exact (List.forall₂_nil_left_iff.mp h').symm
  | cons hhead _ ih =>
    obtain ⟨b', bs'', hb, hbs, rfl⟩ := List.forall₂_cons_left_iff.mp h'
    rw [hR _ _ _ hhead hb, ih hbs]

theorem forall₂_pairwise {α β : Type} {R : α → β → Prop} {S : α → α → Prop} {T : β → β → Prop} {as : List α} {bs : List β}
    (h : List.Forall₂ R as bs) (hS : as.Pairwise S) (hT : ∀ a b a' b', R a b → R a' b' → S a a' → T b b') :
    bs.Pairwise T := by
  induction h with
  | nil => exact List.Pairwise.nil
  | cons hhead htail ih =>
    rw [List.pairwise_cons] at hS
    refine List.Pairwise.cons (fun b' hb' => ?_) (ih hS.2)
    obtain ⟨a', ha', hr⟩ := exists_of_forall₂_right htail hb'
    exact hT _ _ _ _ hhead hr (hS.1 a' ha')

theorem exists_forall₂ {α β : Type} {R : α → β → Prop} {as : List α} (h : ∀ a ∈ as, ∃ b, R a b) :
    ∃ bs, List.Forall₂ R as bs := by
  induction as with
  | nil => exact ⟨[], .nil⟩
  | cons a as ih =>
    obtain ⟨b, hb⟩ := h a (by simp)
    obtain ⟨bs, hbs⟩ := ih fun a' ha' => h a' (by simp [ha'])
    exact ⟨b :: bs, .cons hb hbs⟩

theorem forall₂_flatMap {α β γ : Type} {R : α → β → Prop} {as : γ → List α} {bs : γ → List β} {items : List γ}
    (h : ∀ c ∈ items, List.Forall₂ R (as c) (bs c)) : List.Forall₂ R (items.flatMap as) (items.flatMap bs) := by
  induction items with
  | nil => exact .nil
  | cons c items ih =>
    rw [List.flatMap_cons, List.flatMap_cons]
    exact List.rel_append (h c (by simp)) (ih fun c' hc => h c' (by simp [hc]))

end Parquex
