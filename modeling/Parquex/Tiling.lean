import Mathlib.Order.Interval.Finset.Basic
import Mathlib.Data.Int.ConditionallyCompleteOrder
import Mathlib.Data.Int.Interval
import Mathlib.Data.Set.Card

/-!
# Tilings of a linear order

A strictly increasing family of boundaries indexed by the integers cuts its
order into half-open tiles `[bound k, bound (k + 1))`. A point lies in at most
one tile, and the tiles that meet a half-open range are a run of consecutive
indices.
-/

namespace Parquex

structure Tiling (β : Type*) [LinearOrder β] where
  bound : ℤ → β
  strictMono : StrictMono bound

namespace Tiling

section
variable {β : Type*} [LinearOrder β] (T : Tiling β)

/-- The point `t` lies in tile `k`. -/
def Mem (k : ℤ) (t : β) : Prop := T.bound k ≤ t ∧ t < T.bound (k + 1)

/-- Tile `k` meets the half-open range `[lo, hi)`. -/
def Overlaps (k : ℤ) (lo hi : β) : Prop := T.bound k < hi ∧ lo < T.bound (k + 1)

theorem bound_lt_succ (k : ℤ) : T.bound k < T.bound (k + 1) := T.strictMono (by omega)

theorem mem_bound (k : ℤ) : T.Mem k (T.bound k) := ⟨le_refl _, T.bound_lt_succ k⟩

variable {T}

theorem Mem.mono {k l : ℤ} {s t : β} (hs : T.Mem k s) (ht : T.Mem l t) (h : s ≤ t) : k ≤ l := by
  by_contra hlt
  have hb : T.bound (l + 1) ≤ T.bound k := T.strictMono.monotone (by omega)
  exact absurd (lt_of_lt_of_le ht.2 hb) (not_lt.mpr (le_trans hs.1 h))

theorem Mem.unique {k l : ℤ} {t : β} (hk : T.Mem k t) (hl : T.Mem l t) : k = l :=
  le_antisymm (hk.mono hl (le_refl t)) (hl.mono hk (le_refl t))

theorem Mem.overlaps {k : ℤ} {t lo hi : β} (h : T.Mem k t) (hlo : lo ≤ t) (hhi : t < hi) : T.Overlaps k lo hi :=
  ⟨lt_of_le_of_lt h.1 hhi, lt_of_le_of_lt hlo h.2⟩

/-- From the tile of `lo` to the first boundary at or above `hi`. -/
theorem overlaps_iff_mem_Ico {i j : ℤ} {lo hi : β} (hi' : T.Mem i lo) (hj : hi ≤ T.bound j)
    (hpred : T.bound (j - 1) < hi) (k : ℤ) : T.Overlaps k lo hi ↔ i ≤ k ∧ k < j := by
  constructor
  · rintro ⟨h₁, h₂⟩
    refine ⟨?_, ?_⟩
    · by_contra hk
      have hb : T.bound (k + 1) ≤ T.bound i := T.strictMono.monotone (by omega)
      exact absurd (lt_of_lt_of_le h₂ hb) (not_lt.mpr hi'.1)
    · by_contra hk
      have hb : T.bound j ≤ T.bound k := T.strictMono.monotone (by omega)
      exact absurd (lt_of_lt_of_le h₁ hj) (not_lt.mpr hb)
  · rintro ⟨h₁, h₂⟩
    refine ⟨lt_of_le_of_lt (T.strictMono.monotone (by omega)) hpred, ?_⟩
    exact lt_of_lt_of_le hi'.2 (T.strictMono.monotone (by omega))

theorem ncard_overlaps {i j : ℤ} {lo hi : β} (hi' : T.Mem i lo) (hj : hi ≤ T.bound j)
    (hpred : T.bound (j - 1) < hi) : {k | T.Overlaps k lo hi}.ncard = (j - i).toNat := by
  have hset : {k | T.Overlaps k lo hi} = ↑(Finset.Ico i j) := by
    ext k
    simp only [Set.mem_ofPred_eq, Finset.coe_Ico, Set.mem_Ico]
    exact overlaps_iff_mem_Ico hi' hj hpred k
  rw [hset, Set.ncard_coe_finset, Int.card_Ico]

end

section
variable (T : Tiling ℤ)

theorem add_le_bound (k : ℤ) (n : ℕ) : T.bound k + n ≤ T.bound (k + n) := by
  induction n with
  | zero => simp
  | succ n ih =>
    have h := T.bound_lt_succ (k + n)
    have e : k + ((n + 1 : ℕ) : ℤ) = k + n + 1 := by omega
    rw [e]
    omega

/-- Boundaries on the integers eventually pass any point. -/
theorem exists_bound_ge (k : ℤ) (t : ℤ) : ∃ n : ℕ, t ≤ T.bound (k + n) := by
  refine ⟨(t - T.bound k).toNat, le_trans ?_ (T.add_le_bound k _)⟩
  omega

/-- The first boundary at or above `hi`, counted from a tile that starts below it. -/
theorem exists_first_bound_ge (k : ℤ) (hi : ℤ) (h : T.bound k < hi) :
    ∃ n : ℕ, hi ≤ T.bound (k + (n + 1 : ℕ)) ∧ T.bound (k + n) < hi := by
  obtain ⟨m, hm⟩ := T.exists_bound_ge k hi
  induction m with
  | zero => simp at hm; omega
  | succ m ih =>
    rcases lt_or_ge (T.bound (k + m)) hi with hlt | hge
    · exact ⟨m, hm, hlt⟩
    · exact ih hge

end

end Tiling

end Parquex
