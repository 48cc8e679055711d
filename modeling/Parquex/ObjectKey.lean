import Parquex.NativeFailure
import Parquex.Text
import Mathlib.Data.List.DropRight

/-!
# Object keys

The keys and prefixes a store accepts, and the path that a key names below the
root of a local store.
-/

namespace Parquex

/-! ## The keys that the library accepts -/

/-- A drive letter, a colon and a separator. -/
def drivePrefix (key : String) : Bool :=
  match key.toList with
  | letter :: ':' :: separator :: _ => letter.isAlpha && (separator == '\\' || separator == '/')
  | _ => false

def relativeSegments (key : String) : Bool :=
  !(hasPrefix key "/" || hasPrefix key "\\") && !drivePrefix key && !key.toList.contains '\\' &&
    (splitSlash key).all fun s => !(["", ".", ".."].contains s)

def normalizeKey (key : String) : Except Error String :=
  if key = "" then .error (.invalid "key" "object key must be a non-empty string")
  else if relativeSegments key then .ok key
  else .error (.invalid "key" "object key must be a normalized relative path")

def trimTrailingSlash (s : String) : String := String.ofList (s.toList.rdropWhile (· == '/'))

def normalizePrefix (text : String) (allowEmpty : Bool) : Except Error String :=
  if text = "" then
    if allowEmpty then .ok "" else .error (.invalid "prefix" "dataset prefix must be a non-empty relative path")
  else do
    let key ← normalizeKey (trimTrailingSlash text)
    return key ++ "/"

def normalizeListPrefix (text : String) : Except Error String :=
  if text = "" then .ok "" else normalizeKey (trimTrailingSlash text)

/-! ## The keys that the native store accepts -/

inductive Component
  | rootDir | curDir | parentDir
  | normal (name : String)
  deriving DecidableEq, Repr

def segmentComponent (s : String) : Option Component :=
  if s = "" ∨ s = "." then none else if s = ".." then some .parentDir else some (.normal s)

/-- Repeated separators and inner dots are dropped. -/
def components (path : String) : List Component :=
  (if hasPrefix path "/" then [.rootDir] else if (splitSlash path).head? = some "." then [.curDir] else []) ++
    (splitSlash path).filterMap segmentComponent

def Component.name? : Component → Option String
  | .normal name => some name
  | _ => none

def validateKey (key : String) (allowEmpty : Bool) : Except NativeFailure Unit :=
  if (key = "" ∧ allowEmpty) ∨
      (key ≠ "" ∧ !(hasPrefix key "/" || hasPrefix key "\\") ∧ !key.toList.contains '\\' ∧
        (components key).all fun component => component.name?.isSome) then .ok ()
  else .error (.invalid .storeOpen "object key must be a normalized relative path")

/-- What joining a key to a root adds to it. -/
def keyPath (key : String) : Path := (components key).filterMap Component.name?

/-! ## Accepted keys -/

/-- A key that the library hands on. -/
def AcceptedKey (key : String) : Prop := normalizeKey key = .ok key

instance (key : String) : Decidable (AcceptedKey key) := inferInstanceAs (Decidable (normalizeKey key = .ok key))

theorem normalizeKey_eq_ok {key k : String} (h : normalizeKey key = .ok k) : k = key ∧ AcceptedKey key := by
  have hk : k = key := by
    unfold normalizeKey at h
    split at h
    · cases h
    · split at h
      · exact (Except.ok.inj h).symm
      · cases h
  exact ⟨hk, by rw [hk] at h; exact h⟩

theorem acceptedKey_iff {key : String} : AcceptedKey key ↔ key ≠ "" ∧ relativeSegments key = true := by
  unfold AcceptedKey normalizeKey
  by_cases h₁ : key = ""
  · simp [h₁]
  · by_cases h₂ : relativeSegments key = true
    · simp [h₁, h₂]
    · simp [h₁, h₂]

/-- A key whose segments are names, and which has no backslash. -/
def RelativeKey (key : String) : Prop :=
  (∀ s ∈ splitSlash key, s ≠ "" ∧ s ≠ "." ∧ s ≠ "..") ∧ '\\' ∉ key.toList

section
variable {key : String} (h : RelativeKey key)
include h

theorem RelativeKey.ne_empty : key ≠ "" := by
  rintro rfl
  exact (h.1 "" (by decide)).1 rfl

theorem RelativeKey.not_hasPrefix_slash : hasPrefix key "/" = false := by
  rw [Bool.eq_false_iff]
  intro hp
  obtain ⟨q, -, hq⟩ := hasPrefix_slash_iff.mp (show hasPrefix key ("" ++ "/") = true from hp)
  exact (h.1 "" (by rw [hq]; exact List.mem_append_left _ (by decide))).1 rfl

theorem RelativeKey.not_hasPrefix_backslash : hasPrefix key "\\" = false := by
  rw [Bool.eq_false_iff, ne_eq, hasPrefix_iff]
  intro hp
  exact h.2 (hp.subset (by decide))

theorem RelativeKey.filterMap_segments {α : Type} (f : Component → Option α) :
    ((splitSlash key).filterMap segmentComponent).filterMap f =
      (splitSlash key).filterMap fun s => f (.normal s) := by
  rw [List.filterMap_filterMap]
  apply List.filterMap_congr
  intro s hs
  obtain ⟨h₁, h₂, h₃⟩ := h.1 s hs
  simp [segmentComponent, h₁, h₂, h₃]

theorem RelativeKey.components_eq : components key = (splitSlash key).filterMap segmentComponent := by
  have hdot : (splitSlash key).head? ≠ some "." := by
    intro hd
    exact (h.1 "." (List.mem_of_mem_head? hd)).2.1 rfl
  unfold components
  rw [h.not_hasPrefix_slash, if_neg (by simp), if_neg hdot, List.nil_append]

/-- The native store takes every such key, also one that begins like a drive. -/
theorem RelativeKey.validateKey (allowEmpty : Bool) : validateKey key allowEmpty = .ok () := by
  unfold Parquex.validateKey
  rw [if_pos]
  refine Or.inr ⟨h.ne_empty, ?_, ?_, ?_⟩
  · rw [h.not_hasPrefix_slash, h.not_hasPrefix_backslash]
    rfl
  · simpa using h.2
  · rw [h.components_eq, List.all_eq_true]
    intro component hc
    obtain ⟨s, hs, he⟩ := List.mem_filterMap.mp hc
    obtain ⟨h₁, h₂, h₃⟩ := h.1 s hs
    simp only [segmentComponent, h₁, h₂, h₃, or_self, if_false, Option.some.injEq] at he
    rw [← he]
    rfl

end

theorem acceptedKey_iff_relative {key : String} : AcceptedKey key ↔ RelativeKey key ∧ drivePrefix key = false := by
  rw [acceptedKey_iff]
  constructor
  · rintro ⟨-, hr⟩
    simp only [relativeSegments, Bool.and_eq_true, List.all_eq_true, Bool.not_eq_true'] at hr
    refine ⟨⟨fun s hs => by simpa using hr.2 s hs, by simpa using hr.1.2⟩, hr.1.1.2⟩
  · rintro ⟨h, hdrive⟩
    refine ⟨h.ne_empty, ?_⟩
    unfold relativeSegments
    rw [h.not_hasPrefix_slash, h.not_hasPrefix_backslash, hdrive]
    simp only [Bool.or_self, Bool.not_false, Bool.and_eq_true, Bool.true_and, Bool.not_eq_true', List.all_eq_true]
    exact ⟨by simpa using h.2, fun s hs => by simpa using h.1 s hs⟩

section
variable {key : String} (h : AcceptedKey key)
include h

theorem AcceptedKey.relative : RelativeKey key := (acceptedKey_iff_relative.mp h).1

theorem AcceptedKey.segment_ne {s : String} (hs : s ∈ splitSlash key) : s ≠ "" ∧ s ≠ "." ∧ s ≠ ".." := h.relative.1 s hs

theorem AcceptedKey.keyPath_eq : keyPath key = splitSlash key := by
  unfold keyPath
  rw [h.relative.components_eq, h.relative.filterMap_segments]
  simp [Component.name?]

theorem AcceptedKey.validateKey (allowEmpty : Bool) : validateKey key allowEmpty = .ok () :=
  h.relative.validateKey allowEmpty

theorem AcceptedKey.joinSlash_keyPath : joinSlash (keyPath key) = key := by
  rw [h.keyPath_eq, joinSlash_splitSlash]

theorem AcceptedKey.keyPath_ne_nil : keyPath key ≠ [] := by
  intro hn
  have := h.joinSlash_keyPath
  rw [hn] at this
  exact (acceptedKey_iff.mp h).1 this.symm

theorem AcceptedKey.plain : FileSystem.Plain (keyPath key) := by
  intro name hn
  rw [h.keyPath_eq] at hn
  exact (h.segment_ne hn).2

end

theorem AcceptedKey.keyPath_inj {k l : String} (hk : AcceptedKey k) (hl : AcceptedKey l)
    (h : keyPath k = keyPath l) : k = l := by
  rw [← hk.joinSlash_keyPath, h, hl.joinSlash_keyPath]

end Parquex
