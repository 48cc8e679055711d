import Mathlib.Data.List.Lex
import Mathlib.Data.String.Basic

/-!
# The order of encoded text

UTF-8 keeps the order of characters, so comparing texts byte by byte is comparing
them character by character.
-/

namespace Parquex

/-- The bytes of a text. -/
def utf8Bytes (text : String) : List UInt8 := text.toList.flatMap String.utf8EncodeChar

theorem ofNat_lt_ofNat {a b : Nat} (ha : a < 256) (hb : b < 256) : UInt8.ofNat a < UInt8.ofNat b ↔ a < b := by
  rw [UInt8.lt_iff_toNat_lt, UInt8.toNat_ofNat', UInt8.toNat_ofNat', Nat.mod_eq_of_lt ha, Nat.mod_eq_of_lt hb]

theorem ofNat_eq_ofNat {a b : Nat} (ha : a < 256) (hb : b < 256) : UInt8.ofNat a = UInt8.ofNat b ↔ a = b := by
  rw [← UInt8.toNat_inj, UInt8.toNat_ofNat', UInt8.toNat_ofNat', Nat.mod_eq_of_lt ha, Nat.mod_eq_of_lt hb]

/-- A first byte decides, or the bytes after it do. -/
theorem ofNat_cons_lt {a b : Nat} {l l' : List UInt8} (ha : a < 256) (hb : b < 256) (h : a ≤ b)
    (hrest : a = b → l < l') : UInt8.ofNat a :: l < UInt8.ofNat b :: l' := by
  rw [List.cons_lt_cons_iff, ofNat_lt_ofNat ha hb, ofNat_eq_ofNat ha hb]
  rcases Nat.lt_or_eq_of_le h with hlt | heq
  · exact .inl hlt
  · exact .inr ⟨heq, hrest heq⟩

/-- A smaller character has a smaller encoding, whatever follows. -/
theorem utf8EncodeChar_lt {c d : Char} (h : c < d) (s t : List UInt8) :
    String.utf8EncodeChar c ++ s < String.utf8EncodeChar d ++ t := by
  have hval : c.val.toNat < d.val.toNat := h
  have hd : d.val.toNat < 1114112 := by
    have := d.valid
    rcases this with h | h <;> omega
  unfold String.utf8EncodeChar
  generalize c.val.toNat = v at hval
  generalize d.val.toNat = w at hval hd
  -- a longer encoding has a larger first byte; encodings of one length differ first at the leading digit that differs
  by_cases h1 : w ≤ 0x7f
  · rw [if_pos (by omega), if_pos h1]
    exact ofNat_cons_lt (by omega) (by omega) (by omega) fun h => absurd h (by omega)
  · rw [if_neg h1]
    by_cases h1' : v ≤ 0x7f
    · rw [if_pos h1']
      split
      · exact ofNat_cons_lt (by omega) (by omega) (by omega) fun h => absurd h (by omega)
      · split
        · exact ofNat_cons_lt (by omega) (by omega) (by omega) fun h => absurd h (by omega)
        · exact ofNat_cons_lt (by omega) (by omega) (by omega) fun h => absurd h (by omega)
    · rw [if_neg h1']
      by_cases h2 : w ≤ 0x7ff
      · rw [if_pos (by omega), if_pos h2]
        exact ofNat_cons_lt (by omega) (by omega) (by omega) fun _ =>
          ofNat_cons_lt (by omega) (by omega) (by omega) fun h => absurd h (by omega)
      · rw [if_neg h2]
        by_cases h2' : v ≤ 0x7ff
        · rw [if_pos h2']
          split
          · exact ofNat_cons_lt (by omega) (by omega) (by omega) fun h => absurd h (by omega)
          · exact ofNat_cons_lt (by omega) (by omega) (by omega) fun h => absurd h (by omega)
        · rw [if_neg h2']
          by_cases h3 : w ≤ 0xffff
          · rw [if_pos (by omega), if_pos h3]
            exact ofNat_cons_lt (by omega) (by omega) (by omega) fun _ =>
              ofNat_cons_lt (by omega) (by omega) (by omega) fun _ =>
                ofNat_cons_lt (by omega) (by omega) (by omega) fun h => absurd h (by omega)
          · rw [if_neg h3]
            by_cases h3' : v ≤ 0xffff
            · rw [if_pos h3']
              exact ofNat_cons_lt (by omega) (by omega) (by omega) fun h => absurd h (by omega)
            · rw [if_neg h3']
              exact ofNat_cons_lt (by omega) (by omega) (by omega) fun _ =>
                ofNat_cons_lt (by omega) (by omega) (by omega) fun _ =>
                  ofNat_cons_lt (by omega) (by omega) (by omega) fun _ =>
                    ofNat_cons_lt (by omega) (by omega) (by omega) fun h => absurd h (by omega)

theorem append_lt_append {l s t : List UInt8} (h : s < t) : l ++ s < l ++ t := by
  induction l with
  | nil => exact h
  | cons a l ih => exact List.cons_lt_cons_iff.mpr (.inr ⟨rfl, ih⟩)

theorem flatMap_utf8EncodeChar_lt {cs ds : List Char} (h : cs < ds) :
    cs.flatMap String.utf8EncodeChar < ds.flatMap String.utf8EncodeChar := by
  induction cs generalizing ds with
  | nil =>
    cases ds with
    | nil => exact absurd h (List.lt_irrefl [])
    | cons d ds =>
      obtain ⟨byte, rest, hcons⟩ := List.exists_cons_of_ne_nil (String.utf8EncodeChar_ne_nil (c := d))
      rw [List.flatMap_cons, hcons]
      exact List.nil_lt_cons _ _
  | cons c cs ih =>
    cases ds with
    | nil => exact absurd h (List.not_lt_nil _)
    | cons d ds =>
      rw [List.flatMap_cons, List.flatMap_cons]
      rcases List.cons_lt_cons_iff.mp h with hlt | ⟨rfl, hlt⟩
      · exact utf8EncodeChar_lt hlt _ _
      · exact append_lt_append (ih hlt)

/-- Texts compare as their encodings do. -/
theorem utf8Bytes_lt_iff (a b : String) : utf8Bytes a < utf8Bytes b ↔ a < b := by
  constructor
  · intro h
    rcases lt_trichotomy a b with hlt | rfl | hgt
    · exact hlt
    · exact absurd h (List.lt_irrefl _)
    · exact absurd h (List.lt_asymm (flatMap_utf8EncodeChar_lt hgt))
  · exact flatMap_utf8EncodeChar_lt

theorem utf8Bytes_inj {a b : String} : utf8Bytes a = utf8Bytes b ↔ a = b := by
  constructor
  · intro h
    rcases lt_trichotomy a b with hlt | rfl | hgt
    · exact absurd (h ▸ (utf8Bytes_lt_iff a b).mpr hlt) (List.lt_irrefl _)
    · rfl
    · exact absurd (h ▸ (utf8Bytes_lt_iff b a).mpr hgt) (List.lt_irrefl _)
  · exact congrArg utf8Bytes

end Parquex
