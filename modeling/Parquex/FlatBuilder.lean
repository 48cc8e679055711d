import Parquex.BatchDecode
import Parquex.Fallible

/-!
# Flat builders

Which terms a flat builder takes, alone and as a column.
-/

namespace Parquex

/-! ## What a flat builder takes -/

/-- The terms that a builder of the storage takes. -/
def Storage.takes : Storage → Term → Bool
  | .null, term => term.isNil
  | .boolean, term => term.isNil || term.bool?.isSome
  | .integer type, term => term.isNil || (integer? type term).isSome
  | .float32, term => term.isNil || (term.float?.bind float32?).isSome
  | .float64, term => term.isNil || term.float?.isSome
  | .decimal lower upper, term => term.isNil || (decodeDecimal lower upper term).isOk
  | .string, term => term.isNil || term.string?.isSome
  | .binary, term => term.isNil || term.binary?.isSome
  | .fixedBinary length, term => term.isNil || (decodeFixedBinary length term).isOk
  | .unsupported, _ => false

/-- The slots that a builder of the storage fills. -/
def Storage.fills : Storage → Slots → Bool
  | .null, .nulls _ => true
  | .boolean, .booleans _ => true
  | .integer _, .integers _ => true
  | .decimal _ _, .integers _ => true
  | .float32, .floats _ => true
  | .float64, .floats _ => true
  | .string, .strings _ => true
  | .binary, .binaries _ => true
  | .fixedBinary _, .binaries _ => true
  | .unsupported, _ => true
  | _, _ => false

theorem Storage.fills_empty (storage : Storage) : storage.fills storage.empty = true := by
  cases storage <;> rfl

theorem decodeOr_isOk {α : Type} (value : Option α) (message : String) :
    (decodeOr value message).isOk = value.isSome := by
  cases value <;> rfl

theorem appendPrimitive_isOk {α : Type} (values : List (Option α)) (term : Term)
    (decode : Term → Except NativeFailure α) :
    (appendPrimitive values term decode).isOk = (term.isNil || (decode term).isOk) := by
  unfold appendPrimitive
  by_cases hn : term.isNil = true
  · simp [hn, Except.isOk, Except.toBool]
  · simp only [hn]
    cases decode term <;> rfl

theorem isOk_map {ε α β : Type} (x : Except ε α) (f : α → β) : (x >>= fun a => pure (f a)).isOk = x.isOk := by
  cases x <;> rfl

theorem appendSlots_takes {storage : Storage} {slots : Slots} (h : storage.fills slots = true) (term : Term) :
    (appendSlots storage slots term).isOk = storage.takes term := by
  cases storage with
  | unsupported => cases slots <;> rfl
  | null =>
    cases slots with
    | nulls length =>
      simp only [appendSlots, Storage.takes]
      cases term.isNil <;> rfl
    | _ => cases h
  | _ =>
    cases slots <;> first
      | (cases h; done)
      | simp only [appendSlots, isOk_map, appendPrimitive_isOk, decodeOr_isOk, Option.isSome_map, Storage.takes]

theorem appendSlots_fills {storage : Storage} {slots slots' : Slots} {term : Term}
    (h : appendSlots storage slots term = .ok slots') : storage.fills slots' = true := by
  cases storage <;> cases slots <;> first
    | (obtain ⟨values, -, rfl⟩ := except_map_eq_ok.mp h; rfl)
    | cases h
    | skip
  simp only [appendSlots] at h
  split at h <;> cases h
  rfl

theorem isOk_iff {ε α : Type} {x : Except ε α} : x.isOk = true ↔ ∃ a, x = .ok a := by
  cases x <;> simp [Except.isOk, Except.toBool]

theorem appendValue_flat {type type' : ScalarType} {nullable : Bool} {term : Term} {slots : Slots}
    {builder : ArrowArray} :
    appendValue (.scalar type) nullable term (.flat type' slots) = .ok builder ↔
      (term.isNil = true → nullable = true) ∧
        ∃ slots', appendSlots type.storage slots term = .ok slots' ∧ .flat type' slots' = builder := by
  unfold appendValue
  by_cases hn : (term.isNil && !nullable) = true
  · rw [if_pos hn]
    simp only [Bool.and_eq_true, Bool.not_eq_true'] at hn
    simp [hn]
  · rw [if_neg hn]
    have hnil : term.isNil = true → nullable = true := by
      intro ht
      by_contra hf
      exact hn (by simp [ht, hf])
    rw [and_iff_right hnil]
    exact except_map_eq_ok

/-- A flat builder takes a column exactly when it takes each value, and its nulls are allowed. -/
theorem flat_column_iff {type : ScalarType} (type' : ScalarType) {nullable : Bool} (terms : List Term) {slots : Slots}
    (h : type.storage.fills slots = true) :
    (∃ array, terms.foldlM (fun builder term => appendValue (.scalar type) nullable term builder)
      (.flat type' slots) = .ok array) ↔
    ∀ term ∈ terms, (term.isNil = true → nullable = true) ∧ type.storage.takes term = true := by
  induction terms generalizing slots with
  | nil => simp [pure, Except.pure]
  | cons term terms ih =>
    rw [List.forall_mem_cons, ← appendSlots_takes h term, isOk_iff]
    simp only [List.foldlM_cons, except_bind_eq_ok, appendValue_flat]
    constructor
    · rintro ⟨array, builder, ⟨hnil, slots', hs, rfl⟩, hrest⟩
      exact ⟨⟨hnil, slots', hs⟩, (ih (appendSlots_fills hs)).mp ⟨array, hrest⟩⟩
    · rintro ⟨⟨hnil, slots', hs⟩, hrest⟩
      obtain ⟨array, harray⟩ := (ih (appendSlots_fills hs)).mpr hrest
      exact ⟨array, _, ⟨hnil, slots', hs, rfl⟩, harray⟩

end Parquex
