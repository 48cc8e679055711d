import Mathlib.Tactic.IntervalCases
import Mathlib.Tactic.Ring
import Parquex.Tiling

/-!
# The proleptic Gregorian calendar and ISO-8601 weeks

Days are numbered from 1970-01-01. A year, a month and an ISO week are tiles
of the day line, so the civil date of a day is found by searching the tile
that holds it, and a valid civil date names exactly one day.
-/

namespace Parquex.Calendar

/-! ## Years -/

def isLeap (y : Int) : Bool := decide (y % 4 = 0) && (decide (y % 100 ≠ 0) || decide (y % 400 = 0))

def leapDay (y : Int) : Int := if isLeap y then 1 else 0

/-- The number of the first of January of year `y`. -/
def yearStart (y : Int) : Int :=
  365 * (y - 1970) + ((y - 1) / 4 - 492) - ((y - 1) / 100 - 19) + ((y - 1) / 400 - 4)

theorem leapDay_bounds (y : Int) : 0 ≤ leapDay y ∧ leapDay y ≤ 1 := by
  unfold leapDay; split <;> omega

theorem yearStart_succ (y : Int) : yearStart (y + 1) = yearStart y + 365 + leapDay y := by
  have h4 : (y + 1 - 1) / 4 = (y - 1) / 4 + if y % 4 = 0 then 1 else 0 := by split <;> omega
  have h100 : (y + 1 - 1) / 100 = (y - 1) / 100 + if y % 100 = 0 then 1 else 0 := by split <;> omega
  have h400 : (y + 1 - 1) / 400 = (y - 1) / 400 + if y % 400 = 0 then 1 else 0 := by split <;> omega
  unfold yearStart leapDay isLeap
  rw [h4, h100, h400]
  by_cases a : y % 4 = 0 <;> by_cases b : y % 100 = 0 <;> by_cases c : y % 400 = 0 <;> simp [a, b, c] <;> omega

def years : Tiling ℤ where
  bound := yearStart
  strictMono := strictMono_int_of_lt_succ fun y => by
    have h := yearStart_succ y
    have hl := leapDay_bounds y
    omega

/-- Within one of the year that holds day `n`. -/
def yearGuess (n : Int) : Int := 1970 + 400 * n / 146097

def yearOf (n : Int) : Int :=
  if n < yearStart (yearGuess n) then yearGuess n - 1
  else if yearStart (yearGuess n + 1) ≤ n then yearGuess n + 1
  else yearGuess n

theorem yearStart_guess_pred (n : Int) : yearStart (yearGuess n - 1) ≤ n := by
  unfold yearGuess yearStart; omega

theorem yearStart_guess_succ (n : Int) : n < yearStart (yearGuess n + 1 + 1) := by
  unfold yearGuess yearStart; omega

theorem mem_yearOf (n : Int) : years.Mem (yearOf n) n := by
  have hp := yearStart_guess_pred n
  have hs := yearStart_guess_succ n
  unfold yearOf Tiling.Mem years
  simp only
  split
  · rename_i h; rw [Int.sub_add_cancel]; exact ⟨hp, h⟩
  · split
    · rename_i h; exact ⟨h, hs⟩
    · omega

theorem yearOf_eq {n y : Int} (h : yearStart y ≤ n) (h' : n < yearStart (y + 1)) : yearOf n = y :=
  (mem_yearOf n).unique ⟨h, h'⟩

/-! ## Months -/

/-- Days of the year before month `m`, with `m = 13` for the whole year. -/
def daysBeforeMonth (y : Int) : Nat → Int
  | 1 => 0
  | 2 => 31
  | 3 => 59 + leapDay y
  | 4 => 90 + leapDay y
  | 5 => 120 + leapDay y
  | 6 => 151 + leapDay y
  | 7 => 181 + leapDay y
  | 8 => 212 + leapDay y
  | 9 => 243 + leapDay y
  | 10 => 273 + leapDay y
  | 11 => 304 + leapDay y
  | 12 => 334 + leapDay y
  | _ => 365 + leapDay y

def monthLength (y : Int) (m : Nat) : Int := daysBeforeMonth y (m + 1) - daysBeforeMonth y m

theorem daysBeforeMonth_lt_succ (y : Int) {m : Nat} (h : 1 ≤ m) (h' : m ≤ 12) :
    daysBeforeMonth y m < daysBeforeMonth y (m + 1) := by
  have hl := leapDay_bounds y
  interval_cases m <;> simp only [daysBeforeMonth] <;> omega

/-- The last of the months `1, …, m + 1` that starts by day `d` of year `y`, counted from zero. -/
def monthUpTo (y d : Int) : Nat → Nat
  | 0 => 1
  | m + 1 => if daysBeforeMonth y (m + 2) ≤ d then m + 2 else monthUpTo y d m

def monthOfDay (y d : Int) : Nat := monthUpTo y d 11

theorem monthUpTo_spec (y d : Int) (h : 0 ≤ d) : ∀ m : Nat, d < daysBeforeMonth y (m + 2) →
    1 ≤ monthUpTo y d m ∧ monthUpTo y d m ≤ m + 1 ∧
      daysBeforeMonth y (monthUpTo y d m) ≤ d ∧ d < daysBeforeMonth y (monthUpTo y d m + 1)
  | 0, h' => ⟨le_refl _, le_refl _, h, h'⟩
  | m + 1, h' => by
    unfold monthUpTo
    split
    · rename_i hm; exact ⟨by omega, le_refl _, hm, h'⟩
    · rename_i hm
      obtain ⟨h₁, h₂, h₃, h₄⟩ := monthUpTo_spec y d h m (by omega)
      exact ⟨h₁, by omega, h₃, h₄⟩

theorem monthOfDay_spec (y d : Int) (h : 0 ≤ d) (h' : d < 365 + leapDay y) :
    1 ≤ monthOfDay y d ∧ monthOfDay y d ≤ 12 ∧
      daysBeforeMonth y (monthOfDay y d) ≤ d ∧ d < daysBeforeMonth y (monthOfDay y d + 1) :=
  monthUpTo_spec y d h 11 h'

/-- Month `k` counted from January of year zero. -/
def monthStart (k : Int) : Int := yearStart (k / 12) + daysBeforeMonth (k / 12) ((k % 12).toNat + 1)

theorem monthStart_of (y : Int) {m : Nat} (h : 1 ≤ m) (h' : m ≤ 12) :
    monthStart (12 * y + (m - 1)) = yearStart y + daysBeforeMonth y m := by
  unfold monthStart
  have hq : (12 * y + ((m : Int) - 1)) / 12 = y := by omega
  have hr : ((12 * y + ((m : Int) - 1)) % 12).toNat + 1 = m := by omega
  rw [hq, hr]

theorem monthStart_of_succ (y : Int) {m : Nat} (h : 1 ≤ m) (h' : m ≤ 12) :
    monthStart (12 * y + (m - 1) + 1) = yearStart y + daysBeforeMonth y (m + 1) := by
  rcases Nat.lt_or_ge m 12 with hm | hm
  · have h := monthStart_of y (m := m + 1) (by omega) (by omega)
    rw [← h]; congr 1; omega
  · have hm' : m = 12 := by omega
    subst hm'
    have h := monthStart_of (y + 1) (m := 1) (by omega) (by omega)
    have e : 12 * y + (((12 : Nat) : Int) - 1) + 1 = 12 * (y + 1) + (((1 : Nat) : Int) - 1) := by omega
    rw [e, h, yearStart_succ]
    simp only [daysBeforeMonth]
    omega

def months : Tiling ℤ where
  bound := monthStart
  strictMono := strictMono_int_of_lt_succ fun k => by
    have e : k = 12 * (k / 12) + ((((k % 12).toNat + 1 : Nat) : Int) - 1) := by omega
    have hm : (k % 12).toNat + 1 ≤ 12 := by omega
    rw [e, monthStart_of _ (by omega) hm, monthStart_of_succ _ (by omega) hm]
    have := daysBeforeMonth_lt_succ (k / 12) (m := (k % 12).toNat + 1) (by omega) hm
    omega

/-! ## Civil dates -/

def monthOf (n : Int) : Nat := monthOfDay (yearOf n) (n - yearStart (yearOf n))

def dayOf (n : Int) : Int := n - yearStart (yearOf n) - daysBeforeMonth (yearOf n) (monthOf n) + 1

/-- The index of the month that holds day `n`. -/
def monthIndex (n : Int) : Int := 12 * yearOf n + (monthOf n - 1)

def ofYmd (y : Int) (m : Nat) (d : Int) : Int := yearStart y + daysBeforeMonth y m + (d - 1)

def ValidYmd (y : Int) (m : Nat) (d : Int) : Prop := 1 ≤ m ∧ m ≤ 12 ∧ 1 ≤ d ∧ d ≤ monthLength y m

instance (y : Int) (m : Nat) (d : Int) : Decidable (ValidYmd y m d) := by unfold ValidYmd; infer_instance

theorem monthOf_spec (n : Int) : 1 ≤ monthOf n ∧ monthOf n ≤ 12 ∧
    daysBeforeMonth (yearOf n) (monthOf n) ≤ n - yearStart (yearOf n) ∧
      n - yearStart (yearOf n) < daysBeforeMonth (yearOf n) (monthOf n + 1) := by
  obtain ⟨h, h'⟩ := mem_yearOf n
  simp only [years] at h h'
  rw [yearStart_succ] at h'
  exact monthOfDay_spec _ _ (by omega) (by omega)

theorem mem_monthIndex (n : Int) : months.Mem (monthIndex n) n := by
  obtain ⟨h₁, h₂, h₃, h₄⟩ := monthOf_spec n
  unfold Tiling.Mem months monthIndex
  simp only
  rw [monthStart_of _ h₁ h₂, monthStart_of_succ _ h₁ h₂]
  omega

theorem ofYmd_civil (n : Int) : ofYmd (yearOf n) (monthOf n) (dayOf n) = n := by
  unfold ofYmd dayOf; omega

theorem valid_civil (n : Int) : ValidYmd (yearOf n) (monthOf n) (dayOf n) := by
  obtain ⟨h₁, h₂, h₃, h₄⟩ := monthOf_spec n
  unfold ValidYmd dayOf monthLength
  exact ⟨h₁, h₂, by omega, by omega⟩

theorem mem_months_of_valid {y : Int} {m : Nat} {d : Int} (h : ValidYmd y m d) :
    months.Mem (12 * y + (m - 1)) (ofYmd y m d) := by
  obtain ⟨h₁, h₂, h₃, h₄⟩ := h
  unfold Tiling.Mem months ofYmd
  unfold monthLength at h₄
  simp only
  rw [monthStart_of _ h₁ h₂, monthStart_of_succ _ h₁ h₂]
  omega

/-- A valid civil date is the date of its day. -/
theorem civil_ofYmd {y : Int} {m : Nat} {d : Int} (h : ValidYmd y m d) :
    yearOf (ofYmd y m d) = y ∧ monthOf (ofYmd y m d) = m ∧ dayOf (ofYmd y m d) = d := by
  have hidx := (mem_monthIndex (ofYmd y m d)).unique (mem_months_of_valid h)
  obtain ⟨h₁, h₂, _, _⟩ := monthOf_spec (ofYmd y m d)
  obtain ⟨h₃, h₄, _, _⟩ := h
  unfold monthIndex at hidx
  have hy : yearOf (ofYmd y m d) = y := by omega
  have hm : monthOf (ofYmd y m d) = m := by omega
  refine ⟨hy, hm, ?_⟩
  unfold dayOf
  rw [hm, hy]
  unfold ofYmd
  omega

theorem ofYmd_first (y : Int) {m : Nat} (h : 1 ≤ m) (h' : m ≤ 12) : ofYmd y m 1 = monthStart (12 * y + (m - 1)) := by
  rw [monthStart_of y h h']; unfold ofYmd; omega

/-! ## ISO weeks -/

/-- Days since Monday. -/
def weekday (n : Int) : Int := (n + 3) % 7

def mondayOf (n : Int) : Int := n - weekday n

def weeks : Tiling ℤ where
  bound := fun k => 7 * k - 3
  strictMono := strictMono_int_of_lt_succ fun k => by omega

/-- The index of the week that holds day `n`. -/
def weekIndex (n : Int) : Int := (n + 3) / 7

theorem mem_weekIndex (n : Int) : weeks.Mem (weekIndex n) n := by
  unfold Tiling.Mem weeks weekIndex; simp only; omega

theorem mondayOf_eq (n : Int) : mondayOf n = 7 * weekIndex n - 3 := by
  unfold mondayOf weekday weekIndex; omega

/-- The year of the week's Thursday. -/
def isoYearOf (n : Int) : Int := yearOf (mondayOf n + 3)

/-- The Monday of the week of the fourth of January. -/
def isoYearStart (y : Int) : Int := mondayOf (yearStart y + 3)

def isoWeekOf (n : Int) : Int := (mondayOf n - isoYearStart (isoYearOf n)) / 7 + 1

def isoWeeks (y : Int) : Int := (isoYearStart (y + 1) - isoYearStart y) / 7

def ofIsoWeek (y w : Int) : Int := isoYearStart y + 7 * (w - 1)

def ValidIsoWeek (y w : Int) : Prop := 1 ≤ w ∧ w ≤ isoWeeks y

instance (y w : Int) : Decidable (ValidIsoWeek y w) := by unfold ValidIsoWeek; infer_instance

theorem isoYearStart_eq (y : Int) : isoYearStart y = 7 * ((yearStart y + 6) / 7) - 3 := by
  unfold isoYearStart; rw [mondayOf_eq]; unfold weekIndex; omega

theorem isoYearOf_bounds (n : Int) :
    isoYearStart (isoYearOf n) ≤ mondayOf n ∧ mondayOf n < isoYearStart (isoYearOf n + 1) := by
  obtain ⟨h, h'⟩ := mem_yearOf (mondayOf n + 3)
  simp only [years] at h h'
  change yearStart (isoYearOf n) ≤ _ at h
  change _ < yearStart (isoYearOf n + 1) at h'
  rw [isoYearStart_eq, isoYearStart_eq]
  rw [mondayOf_eq] at *
  omega

theorem ofIsoWeek_iso (n : Int) : ofIsoWeek (isoYearOf n) (isoWeekOf n) = mondayOf n := by
  have h := isoYearOf_bounds n
  unfold ofIsoWeek isoWeekOf
  rw [isoYearStart_eq, mondayOf_eq] at *
  omega

theorem valid_iso (n : Int) : ValidIsoWeek (isoYearOf n) (isoWeekOf n) := by
  have h := isoYearOf_bounds n
  unfold ValidIsoWeek isoWeekOf isoWeeks
  rw [isoYearStart_eq, isoYearStart_eq, mondayOf_eq] at *
  omega

theorem weekday_ofIsoWeek (y w : Int) : weekday (ofIsoWeek y w) = 0 := by
  unfold ofIsoWeek weekday; rw [isoYearStart_eq]; omega

theorem mondayOf_ofIsoWeek (y w : Int) : mondayOf (ofIsoWeek y w) = ofIsoWeek y w := by
  unfold mondayOf; rw [weekday_ofIsoWeek]; omega

/-- A valid ISO week is the week of its Monday. -/
theorem iso_ofIsoWeek {y w : Int} (h : ValidIsoWeek y w) :
    isoYearOf (ofIsoWeek y w) = y ∧ isoWeekOf (ofIsoWeek y w) = w := by
  obtain ⟨h₁, h₂⟩ := h
  have hy : isoYearOf (ofIsoWeek y w) = y := by
    unfold isoYearOf
    rw [mondayOf_ofIsoWeek]
    unfold isoWeeks at h₂
    unfold ofIsoWeek
    rw [isoYearStart_eq] at *
    rw [isoYearStart_eq] at h₂
    apply yearOf_eq <;> omega
  refine ⟨hy, ?_⟩
  unfold isoWeekOf
  rw [hy, mondayOf_ofIsoWeek]
  unfold ofIsoWeek
  omega

end Parquex.Calendar
