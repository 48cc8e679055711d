import Mathlib.Data.List.Basic
import Mathlib.Data.String.Basic

/-!
# Decimal integers and slash-separated text

Integers are printed with an optional minus sign and no leading zero. Splitting
at a separator inverts joining pieces that do not hold it, so text built from
named decimal segments determines its names and values.
-/

namespace Parquex

/-! ## Decimal integers -/

/-- The value of a nonempty run of decimal digits. -/
def digitsValue (cs : List Char) : Option Nat :=
  if cs ≠ [] ∧ cs.all Char.isDigit then some (Nat.ofDigitChars 10 cs 0) else none

/-- An optional sign and digits. -/
def parseInt (s : String) : Option Int :=
  match s.toList with
  | '+' :: cs => (digitsValue cs).map Int.ofNat
  | '-' :: cs => (digitsValue cs).map fun n => -(n : Int)
  | cs => (digitsValue cs).map Int.ofNat

theorem digitsValue_toDigits (n : Nat) : digitsValue (Nat.toDigits 10 n) = some n := by
  unfold digitsValue
  rw [if_pos, Nat.ofDigitChars_ten_toDigits]
  refine ⟨Nat.toDigits_ne_nil, List.all_eq_true.mpr fun c hc => ?_⟩
  exact Nat.isDigit_of_mem_toDigits (by decide) (by decide) hc

theorem toList_toString_ofNat (n : Nat) : (toString (n : Int)).toList = Nat.toDigits 10 n := by
  change (Int.repr (Int.ofNat n)).toList = _
  simp [Int.repr]

theorem toList_toString_negSucc (n : Nat) :
    (toString (Int.negSucc n)).toList = '-' :: Nat.toDigits 10 (n + 1) := by
  change (Int.repr (Int.negSucc n)).toList = _
  simp [Int.repr]

theorem toString_natCast (n : Nat) : toString (n : Int) = toString n := by
  apply String.toList_inj.mp
  rw [toList_toString_ofNat]
  simp

theorem parseInt_toString (v : Int) : parseInt (toString v) = some v := by
  unfold parseInt
  cases v with
  | ofNat n =>
    have hl : (toString (Int.ofNat n)).toList = Nat.toDigits 10 n := toList_toString_ofNat n
    rw [hl]
    have hd := digitsValue_toDigits n
    split
    · rename_i cs h
      have := Nat.isDigit_of_mem_toDigits (b := 10) (n := n) (by decide) (by decide) (c := '+') (by rw [h]; simp)
      simp [Char.isDigit] at this
    · rename_i cs h
      have := Nat.isDigit_of_mem_toDigits (b := 10) (n := n) (by decide) (by decide) (c := '-') (by rw [h]; simp)
      simp [Char.isDigit] at this
    · rw [hd]; rfl
  | negSucc n =>
    rw [toList_toString_negSucc]
    simp only [digitsValue_toDigits]
    congr 1

theorem toString_int_inj {v w : Int} (h : toString v = toString w) : v = w := by
  have hv := parseInt_toString v
  rw [h, parseInt_toString] at hv
  exact (Option.some.inj hv).symm

/-- A printed integer holds digits and a minus sign only. -/
theorem mem_toString {v : Int} {c : Char} (h : c ∈ (toString v).toList) : c.isDigit = true ∨ c = '-' := by
  cases v with
  | ofNat n =>
    have hl : (toString (Int.ofNat n)).toList = Nat.toDigits 10 n := toList_toString_ofNat n
    rw [hl] at h
    exact Or.inl (Nat.isDigit_of_mem_toDigits (by decide) (by decide) h)
  | negSucc n =>
    rw [toList_toString_negSucc] at h
    rcases List.mem_cons.mp h with rfl | h
    · exact Or.inr rfl
    · exact Or.inl (Nat.isDigit_of_mem_toDigits (by decide) (by decide) h)

theorem not_mem_toString {c : Char} (hd : c.isDigit = false) (hm : c ≠ '-') (v : Int) :
    c ∉ (toString v).toList := fun h => by
  rcases mem_toString h with h | h
  · rw [hd] at h; cases h
  · exact hm h

/-! ## Pieces separated by a slash -/

def splitSlash (s : String) : List String := (s.toList.splitOn '/').map String.ofList

def joinSlash (l : List String) : String := String.ofList (['/'].intercalate (l.map String.toList))

/-- Text that can stand between two slashes. -/
def SlashFree (s : String) : Prop := '/' ∉ s.toList

instance (s : String) : Decidable (SlashFree s) := by unfold SlashFree; infer_instance

theorem toList_joinSlash (l : List String) : (joinSlash l).toList = ['/'].intercalate (l.map String.toList) := by
  simp [joinSlash]

theorem joinSlash_splitSlash (s : String) : joinSlash (splitSlash s) = s := by
  apply String.toList_inj.mp
  rw [toList_joinSlash, splitSlash, List.map_map]
  have : (String.toList ∘ String.ofList) = id := by funext l; simp
  rw [this, List.map_id, List.intercalate_splitOn]

theorem splitSlash_joinSlash {l : List String} (hne : l ≠ []) (hl : ∀ s ∈ l, SlashFree s) :
    splitSlash (joinSlash l) = l := by
  unfold splitSlash
  rw [toList_joinSlash, List.splitOn_intercalate]
  · simp
  · intro cs hcs
    obtain ⟨s, hs, rfl⟩ := List.mem_map.mp hcs
    exact hl s hs
  · simpa using hne

theorem joinSlash_inj {l m : List String} (hl : l ≠ []) (hm : m ≠ []) (hl' : ∀ s ∈ l, SlashFree s)
    (hm' : ∀ s ∈ m, SlashFree s) (h : joinSlash l = joinSlash m) : l = m := by
  rw [← splitSlash_joinSlash hl hl', h, splitSlash_joinSlash hm hm']

theorem toList_joinSlash_cons (s t : String) (l : List String) :
    (joinSlash (s :: t :: l)).toList = s.toList ++ '/' :: (joinSlash (t :: l)).toList := by
  rw [toList_joinSlash, toList_joinSlash]
  simp [List.intercalate]

theorem joinSlash_singleton (s : String) : joinSlash [s] = s := by
  simp [joinSlash, List.intercalate]

theorem joinSlash_cons (s t : String) (l : List String) :
    joinSlash (s :: t :: l) = s ++ "/" ++ joinSlash (t :: l) := by
  apply String.toList_inj.mp
  rw [toList_joinSlash_cons]
  simp [String.toList_append]

theorem joinSlash_append (l m : List String) (hl : l ≠ []) (hm : m ≠ []) :
    joinSlash (l ++ m) = joinSlash l ++ "/" ++ joinSlash m := by
  induction l with
  | nil => exact absurd rfl hl
  | cons s l ih =>
    cases l with
    | nil =>
      cases m with
      | nil => exact absurd rfl hm
      | cons t m => rw [List.cons_append, List.nil_append, joinSlash_cons, joinSlash_singleton]
    | cons t l =>
      rw [List.cons_append, List.cons_append, joinSlash_cons, joinSlash_cons, ← List.cons_append,
        ih (by simp)]
      simp only [String.append_assoc]

/-! ## Prefixes -/

def hasPrefix (s p : String) : Bool := p.toList.isPrefixOf s.toList

def hasSuffix (s p : String) : Bool := p.toList.isSuffixOf s.toList

theorem hasPrefix_iff {s p : String} : hasPrefix s p = true ↔ p.toList <+: s.toList := by
  unfold hasPrefix; exact List.isPrefixOf_iff_prefix

theorem hasSuffix_iff {s p : String} : hasSuffix s p = true ↔ p.toList <:+ s.toList := by
  unfold hasSuffix; exact List.isSuffixOf_iff_suffix

theorem splitSlash_append (s t : String) : splitSlash (s ++ "/" ++ t) = splitSlash s ++ splitSlash t := by
  unfold splitSlash
  have hl : (s ++ "/" ++ t).toList = s.toList ++ '/' :: t.toList := by simp
  rw [hl, List.splitOn_append_cons_self, List.map_append]

theorem splitSlash_ne_nil (s : String) : splitSlash s ≠ [] := by
  unfold splitSlash
  simp [List.splitOn_ne_nil]

theorem hasPrefix_iff_append {s p : String} : hasPrefix s p = true ↔ ∃ t, s = p ++ t := by
  rw [hasPrefix_iff]
  refine ⟨fun ⟨cs, h⟩ => ⟨String.ofList cs, ?_⟩, fun ⟨t, h⟩ => ⟨t.toList, ?_⟩⟩
  · apply String.toList_inj.mp
    simp [h]
  · rw [h, String.toList_append]

theorem hasPrefix_trans {s p q : String} (h : hasPrefix s p = true) (hq : hasPrefix p q = true) :
    hasPrefix s q = true :=
  hasPrefix_iff.mpr ((hasPrefix_iff.mp hq).trans (hasPrefix_iff.mp h))

/-- What lies beneath a path begins with it and a separator. -/
theorem hasPrefix_slash_iff {s p : String} :
    hasPrefix s (p ++ "/") = true ↔ ∃ q, q ≠ [] ∧ splitSlash s = splitSlash p ++ q := by
  rw [hasPrefix_iff_append]
  constructor
  · rintro ⟨t, rfl⟩
    exact ⟨splitSlash t, splitSlash_ne_nil t, splitSlash_append p t⟩
  · rintro ⟨q, hq, h⟩
    refine ⟨joinSlash q, ?_⟩
    rw [← joinSlash_splitSlash s, h, joinSlash_append _ _ (splitSlash_ne_nil p) hq, joinSlash_splitSlash]

theorem le_of_append_le {a s t : String} (h : a ++ s ≤ a ++ t) : s ≤ t := by
  by_contra hlt
  refine absurd h (not_le.mpr ?_)
  have hlt' := String.lt_iff_toList_lt.mp (not_le.mp hlt)
  rw [String.lt_iff_toList_lt, String.toList_append, String.toList_append]
  exact List.append_left_lt hlt'

theorem slashFree_of_mem_splitSlash {s piece : String} (h : piece ∈ splitSlash s) : SlashFree piece := by
  have hpieces : ∀ (n : Nat) (cs : List Char), cs.length ≤ n → ∀ l ∈ cs.splitOn '/', '/' ∉ l := by
    intro n
    induction n with
    | zero =>
      intro cs hn l hl
      rw [List.length_eq_zero_iff.mp (Nat.le_zero.mp hn), List.splitOn_nil, List.mem_singleton] at hl
      simp [hl]
    | succ n ih =>
      intro cs hn l hl
      by_cases hc : '/' ∈ cs
      · obtain ⟨xs, ys, rfl, hxs⟩ := List.eq_append_cons_of_mem hc
        rw [List.splitOn_append_cons_self_of_not_mem hxs] at hl
        rcases List.mem_cons.mp hl with rfl | hl
        · exact hxs
        · exact ih ys (by simp at hn; omega) l hl
      · rw [List.splitOn_eq_singleton hc, List.mem_singleton] at hl
        rw [hl]
        exact hc
  obtain ⟨cs, hcs, rfl⟩ := List.mem_map.mp h
  unfold SlashFree
  rw [String.toList_ofList]
  exact hpieces _ _ (Nat.le_refl _) cs hcs

theorem hasPrefix_append_left (s t p : String) : hasPrefix (s ++ t) (s ++ p) = hasPrefix t p := by
  rw [Bool.eq_iff_iff, hasPrefix_iff, hasPrefix_iff, String.toList_append, String.toList_append]
  exact List.prefix_append_right_inj _

/-- A path begins with the text of another when it shares its directory and its next name begins with the last. -/
theorem hasPrefix_iff_last {s p name : String} {d : List String} (hp : splitSlash p = d ++ [name]) :
    hasPrefix s p = true ↔ ∃ q, splitSlash s = d ++ q ∧ q ≠ [] ∧ hasPrefix (joinSlash q) name = true := by
  have hfree : ∀ piece ∈ d, SlashFree piece := by
    intro piece hm
    apply slashFree_of_mem_splitSlash (s := p)
    rw [hp]
    exact List.mem_append_left _ hm
  by_cases hd : d = []
  · rw [hd, List.nil_append] at hp
    have hname : p = name := by rw [← joinSlash_splitSlash p, hp, joinSlash_singleton]
    constructor
    · intro h
      exact ⟨splitSlash s, by rw [hd]; rfl, splitSlash_ne_nil s, by rw [joinSlash_splitSlash, ← hname]; exact h⟩
    · rintro ⟨q, hq, -, h⟩
      rw [hd, List.nil_append] at hq
      rw [← hq, joinSlash_splitSlash, ← hname] at h
      exact h
  · have hjoin : p = joinSlash d ++ "/" ++ name := by
      rw [← joinSlash_splitSlash p, hp, joinSlash_append _ _ hd (by simp), joinSlash_singleton]
    constructor
    · intro h
      have hslash : hasPrefix s (joinSlash d ++ "/") = true :=
        hasPrefix_trans h (hasPrefix_iff_append.mpr ⟨name, hjoin⟩)
      obtain ⟨q, hq, hs⟩ := hasPrefix_slash_iff.mp hslash
      rw [splitSlash_joinSlash hd hfree] at hs
      refine ⟨q, hs, hq, ?_⟩
      rw [← joinSlash_splitSlash s, hs, joinSlash_append _ _ hd hq, hjoin, hasPrefix_append_left] at h
      exact h
    · rintro ⟨q, hs, hq, h⟩
      rw [← joinSlash_splitSlash s, hs, joinSlash_append _ _ hd hq, hjoin, hasPrefix_append_left]
      exact h

/-! ## Named decimal segments -/

/-- Split at the first separator. -/
def splitOnce (c : Char) (s : String) : Option (String × String) :=
  if c ∈ s.toList then
    some (String.ofList (s.toList.takeWhile (· ≠ c)), String.ofList ((s.toList.dropWhile (· ≠ c)).drop 1))
  else none

def segment (name : String) (value : Int) : String := name ++ "=" ++ toString value

theorem toList_segment (name : String) (value : Int) :
    (segment name value).toList = name.toList ++ '=' :: (toString value).toList := by
  simp [segment, String.toList_append]

theorem splitOnce_append {name : String} (hn : '=' ∉ name.toList) (t : String) :
    splitOnce '=' (name ++ "=" ++ t) = some (name, t) := by
  have hl : (name ++ "=" ++ t).toList = name.toList ++ '=' :: t.toList := by simp [String.toList_append]
  have hne : ∀ c ∈ name.toList, decide (c ≠ '=') = true := fun c hc => by
    simp only [decide_eq_true_eq]; intro e; subst e; exact hn hc
  unfold splitOnce
  rw [hl, if_pos (by simp), List.takeWhile_append_of_pos hne, List.dropWhile_append_of_pos hne]
  simp

theorem segment_slashFree {name : String} (hn : SlashFree name) (value : Int) : SlashFree (segment name value) := by
  unfold SlashFree at *
  rw [toList_segment]
  intro h
  rcases List.mem_append.mp h with h | h
  · exact hn h
  · rcases List.mem_cons.mp h with h | h
    · exact absurd h (by decide)
    · exact not_mem_toString (by decide) (by decide) value h

theorem segment_inj {n m : String} (hn : '=' ∉ n.toList) (hm : '=' ∉ m.toList) {v w : Int}
    (h : segment n v = segment m w) : n = m ∧ v = w := by
  have h₁ := splitOnce_append hn (toString v)
  have h₂ := splitOnce_append hm (toString w)
  unfold segment at h
  rw [h, h₂] at h₁
  simp only [Option.some.injEq, Prod.mk.injEq] at h₁
  exact ⟨h₁.1.symm, toString_int_inj h₁.2.symm⟩

def segments (names : List String) (values : List Int) : List String := List.zipWith segment names values

theorem segments_slashFree {names : List String} (hn : ∀ n ∈ names, SlashFree n) (values : List Int) :
    ∀ s ∈ segments names values, SlashFree s := by
  induction names generalizing values with
  | nil => intro s hs; cases hs
  | cons n names ih =>
    cases values with
    | nil => intro s hs; cases hs
    | cons v values =>
      intro s hs
      rcases List.mem_cons.mp hs with rfl | hs
      · exact segment_slashFree (hn n List.mem_cons_self) v
      · exact ih (fun m hm => hn m (List.mem_cons_of_mem n hm)) values s hs

theorem segments_inj {names : List String} (hn : ∀ n ∈ names, '=' ∉ n.toList) {vs ws : List Int}
    (hv : vs.length = names.length) (hw : ws.length = names.length) (h : segments names vs = segments names ws) :
    vs = ws := by
  induction names generalizing vs ws with
  | nil => rw [List.length_eq_zero_iff.mp hv, List.length_eq_zero_iff.mp hw]
  | cons n names ih =>
    cases vs with
    | nil => cases hv
    | cons v vs =>
      cases ws with
      | nil => cases hw
      | cons w ws =>
        simp only [segments, List.zipWith_cons_cons, List.cons.injEq] at h
        have hn' := hn n List.mem_cons_self
        rw [(segment_inj hn' hn' h.1).2]
        rw [ih (fun m hm => hn m (List.mem_cons_of_mem n hm)) (by simpa using hv) (by simpa using hw) h.2]

end Parquex
