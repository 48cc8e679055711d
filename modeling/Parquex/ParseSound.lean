import Parquex.TilesSound

/-!
# The parser accepts the canonical paths

A path is accepted exactly when it is the path of a partition that
`buildPartition` returns, and the parsed partition is that one.
-/

namespace Parquex

open Calendar

/-! ## Printed values are in range -/

theorem yearOf_bounds {d lo hi : Int} (h : yearStart lo ≤ d) (h' : d < yearStart (hi + 1)) :
    lo ≤ yearOf d ∧ yearOf d ≤ hi := by
  have hm := mem_yearOf d
  refine ⟨(years.mem_bound lo).mono hm h, ?_⟩
  by_contra hlt
  have hle : years.bound (hi + 1) ≤ years.bound (yearOf d) := years.strictMono.monotone (by omega)
  have := hm.1
  simp only [years] at *
  omega

theorem isoWeeks_le (y : Int) : isoWeeks y ≤ 53 := by
  unfold isoWeeks
  rw [isoYearStart_eq, isoYearStart_eq, yearStart_succ]
  have := leapDay_bounds y
  omega

/-- The days of the instants that chrono can hold. -/
theorem day_bounds {s : Int} (h : minSecond ≤ s) (h' : s ≤ maxSecond) :
    yearStart minYear ≤ s / 86400 ∧ s / 86400 < yearStart (maxYear + 1) := by
  unfold minSecond minDay at h
  unfold maxSecond maxDay at h'
  omega

theorem isoYearOf_i32 {s : Int} (h : minSecond ≤ s) (h' : s ≤ maxSecond) :
    -2147483648 ≤ isoYearOf (s / 86400) ∧ isoYearOf (s / 86400) ≤ 2147483647 := by
  obtain ⟨hlo, hhi⟩ := day_bounds h h'
  have hlo' : yearStart (minYear - 1) ≤ mondayOf (s / 86400) + 3 := by
    have := yearStart_succ (minYear - 1)
    have := leapDay_bounds (minYear - 1)
    rw [mondayOf_eq]; unfold weekIndex
    simp only [sub_add_cancel] at *
    omega
  have hhi' : mondayOf (s / 86400) + 3 < yearStart (maxYear + 1 + 1) := by
    have := yearStart_succ (maxYear + 1)
    have := leapDay_bounds (maxYear + 1)
    rw [mondayOf_eq]; unfold weekIndex
    omega
  have := yearOf_bounds hlo' hhi'
  unfold isoYearOf
  unfold minYear maxYear at this
  omega

theorem yearOf_i32 {s : Int} (h : minSecond ≤ s) (h' : s ≤ maxSecond) :
    -2147483648 ≤ yearOf (s / 86400) ∧ yearOf (s / 86400) ≤ 2147483647 := by
  obtain ⟨hlo, hhi⟩ := day_bounds h h'
  have := yearOf_bounds hlo hhi
  unfold minYear maxYear at this
  omega

theorem dayOf_bounds (d : Int) : 1 ≤ dayOf d ∧ dayOf d ≤ 31 := by
  have h := valid_civil d
  unfold ValidYmd monthLength at h
  refine ⟨h.2.2.1, le_trans h.2.2.2 ?_⟩
  have hl := leapDay_bounds (yearOf d)
  obtain ⟨h₁, h₂, -⟩ := h
  generalize monthOf d = m at *
  interval_cases m <;> simp only [daysBeforeMonth] <;> omega

theorem inI64_of {v : Int} (h : -2147483648 ≤ v) (h' : v ≤ 4294967295) : inI64 v = true := by
  unfold inI64
  simp only [Bool.and_eq_true, decide_eq_true_eq]
  omega

theorem pathValues_inI64 {g : Granularity} {s : Int} (h : minSecond ≤ s) (h' : s ≤ maxSecond) :
    ∀ v ∈ pathValues g s, inI64 v = true := by
  have hy := yearOf_i32 h h'
  have hi := isoYearOf_i32 h h'
  have hm := monthOf_spec (s / 86400)
  have hd := dayOf_bounds (s / 86400)
  have hw := valid_iso (s / 86400)
  have hw' := isoWeeks_le (isoYearOf (s / 86400))
  unfold ValidIsoWeek at hw
  intro v hv
  apply inI64_of
  · cases g <;> simp only [pathValues, List.mem_cons, List.not_mem_nil, or_false] at hv <;> omega
  · cases g <;> simp only [pathValues, List.mem_cons, List.not_mem_nil, or_false] at hv <;> omega

/-! ## Segments -/

theorem canonicalInteger_toString {v : Int} (h : inI64 v = true) : canonicalInteger (toString v) = some v := by
  unfold canonicalInteger
  rw [parseInt_toString]
  simp [h]

/-- The segments of a path parse to its values. -/
theorem parseSegments_segments {names : List String} (hn : ∀ n ∈ names, '=' ∉ n.toList) {values : List Int}
    (hl : values.length = names.length) (hv : ∀ v ∈ values, inI64 v = true) :
    parseSegments (segments names values) names = .ok values := by
  induction names generalizing values with
  | nil => rw [List.length_eq_zero_iff.mp hl]; rfl
  | cons n names ih =>
    cases values with
    | nil => cases hl
    | cons v values =>
      have hs := ih (fun m hm => hn m (List.mem_cons_of_mem n hm)) (by simpa using hl)
        (fun w hw => hv w (List.mem_cons_of_mem v hw))
      have ho : splitOnce '=' (segment n v) = some (n, toString v) := splitOnce_append (hn n List.mem_cons_self) _
      change parseSegments (segment n v :: segments names values) (n :: names) = _
      unfold parseSegments
      simp only [ho, canonicalInteger_toString (hv v List.mem_cons_self), ne_eq, not_true_eq_false, if_false, hs]
      rfl

/-! ## Dates -/

theorem i32Value_of {v : Int} (h : -2147483648 ≤ v ∧ v ≤ 2147483647) (message : String) :
    i32Value v message = .ok v := by
  unfold i32Value; rw [if_pos h]; rfl

theorem u32Of_of {v : Int} (h : 0 ≤ v) (h' : v ≤ 4294967295) (message : String) :
    u32Of v message = .ok v.toNat := by
  unfold u32Of; rw [if_pos ⟨h, h'⟩]; rfl

theorem dayOf_month_bound (k : Int) : dayOf ((tiling .month).bound k / 86400) = 1 := by
  have hb : (tiling .month).bound k / 86400 = months.bound k := by simp only [tiling]; omega
  have hk : monthIndex (months.bound k) = k := (mem_monthIndex _).unique (months.mem_bound k)
  obtain ⟨h₁, h₂, -, -⟩ := monthOf_spec (months.bound k)
  have hs : months.bound k = yearStart (yearOf (months.bound k)) +
      daysBeforeMonth (yearOf (months.bound k)) (monthOf (months.bound k)) := by
    rw [← monthStart_of _ h₁ h₂]
    change monthStart k = monthStart (monthIndex (months.bound k))
    rw [hk]
  rw [hb]
  unfold dayOf
  omega

theorem fromYmdOpt_civil (date : NaiveDate) :
    NaiveDate.fromYmdOpt (yearOf date.day) (monthOf date.day) (dayOf date.day).toNat = some date := by
  have hd := dayOf_bounds date.day
  rw [fromYmdOpt_eq_some, Int.toNat_of_nonneg (by omega), ofYmd_civil]
  exact ⟨valid_civil _, rfl⟩

theorem fromIsoywdOpt_iso (date : NaiveDate) (h : mondayOf date.day = date.day) :
    NaiveDate.fromIsoywdOpt (isoYearOf date.day) (isoWeekOf date.day).toNat = some date := by
  have hw := valid_iso date.day
  have hpos : 0 ≤ isoWeekOf date.day := by unfold ValidIsoWeek at hw; omega
  rw [fromIsoywdOpt_eq_some, Int.toNat_of_nonneg hpos, ofIsoWeek_iso, h]
  exact ⟨hw, rfl⟩

/-- The printed values of a boundary parse to its date. -/
theorem parseDate_pathValues {g : Granularity} {k : Int} {start : UtcDateTime}
    (h : start.timestamp = (tiling g).bound k) :
    parseDate g (pathValues g start.timestamp) = .ok start.dateNaive := by
  have hd := start.dateNaive_day
  have hy := yearOf_i32 start.lower start.upper
  have hiy := isoYearOf_i32 start.lower start.upper
  have hm := monthOf_spec (start.timestamp / 86400)
  have hday := dayOf_bounds (start.timestamp / 86400)
  have hymd := fromYmdOpt_civil start.dateNaive
  have hmv (message : String) :=
    u32Of_of (v := monthOf (start.timestamp / 86400)) (by omega) (by omega) message
  have hdv (message : String) := u32Of_of (v := dayOf (start.timestamp / 86400)) (by omega) (by omega) message
  rw [hd] at hymd
  cases g with
  | week =>
    have hw := valid_iso (start.timestamp / 86400)
    have hw' := isoWeeks_le (isoYearOf (start.timestamp / 86400))
    unfold ValidIsoWeek at hw
    have hwv (message : String) :=
      u32Of_of (v := isoWeekOf (start.timestamp / 86400)) (by omega) (by omega) message
    have hmon : mondayOf start.dateNaive.day = start.dateNaive.day := by
      rw [mondayOf_eq, hd, h]; simp only [tiling, weeks, weekIndex]; omega
    have hiso := fromIsoywdOpt_iso start.dateNaive hmon
    rw [hd] at hiso
    simp [parseDate, pathValues, i32Value_of hiy, hwv, hiso, bind, Except.bind, pure, Except.pure, okOr]
  | month =>
    rw [h, dayOf_month_bound, ← h, Int.toNat_one] at hymd
    simp [parseDate, pathValues, i32Value_of hy, hmv, bind, Except.bind, pure, Except.pure, okOr, hymd]
  | _ => simp [parseDate, pathValues, i32Value_of hy, hmv, hdv, hymd, bind, Except.bind, pure, Except.pure, okOr]

/-- The printed values of a boundary parse to its hour and minute. -/
theorem parseTime_pathValues {g : Granularity} {k : Int} {start : UtcDateTime}
    (h : start.timestamp = (tiling g).bound k) (hn : start.nanosecond = 0) :
    ∃ hour minute : Nat, parseTime g (pathValues g start.timestamp) = .ok (hour, minute) ∧
      start.dateNaive.andHmOpt hour minute = some start := by
  have hd := start.dateNaive_day
  have hhv (message : String) :=
    u32Of_of (v := start.timestamp % 86400 / 3600) (by omega) (by omega) message
  have hmv (message : String) :=
    u32Of_of (v := start.timestamp % 86400 / 60 % 60) (by omega) (by omega) message
  cases g with
  | minute =>
    refine ⟨(start.timestamp % 86400 / 3600).toNat, (start.timestamp % 86400 / 60 % 60).toNat,
      by simp [parseTime, pathValues, u32Value, hhv, hmv, bind, Except.bind, pure, Except.pure], ?_⟩
    rw [andHmOpt_eq_some]
    simp only [tiling] at h
    omega
  | hour =>
    refine ⟨(start.timestamp % 86400 / 3600).toNat, 0,
      by simp [parseTime, pathValues, u32Value, hhv, bind, Except.bind, pure, Except.pure], ?_⟩
    rw [andHmOpt_eq_some]
    simp only [tiling] at h
    omega
  | week =>
    refine ⟨0, 0, rfl, ?_⟩
    rw [andHmOpt_eq_some]
    simp only [tiling, weeks] at h
    omega
  | _ =>
    refine ⟨0, 0, rfl, ?_⟩
    rw [andHmOpt_eq_some]
    simp only [tiling] at h
    omega

theorem parse_tilePath {g : Granularity} {k : Int} (h : Representable g k) :
    parse (tilePath g k) g = .ok (tile g k) := by
  obtain ⟨hlo, hhi⟩ := h
  have hlt := (tiling g).bound_lt_succ k
  obtain ⟨start, hs, hn⟩ := exists_instant hlo (by omega)
  obtain ⟨hour, minute, htime, hstart⟩ := parseTime_pathValues hs hn
  have hdate := parseDate_pathValues hs
  have hsplit : splitSlash (tilePath g k) = segments (expectedNames g) (pathValues g start.timestamp) := by
    rw [hs]
    exact splitSlash_joinSlash (segments_ne_nil g _) (segments_slashFree (expectedNames_slashFree g) _)
  have hlen : (segments (expectedNames g) (pathValues g start.timestamp)).length = (expectedNames g).length := by
    simp [segments, pathValues_length]
  have hseg := parseSegments_segments (expectedNames_no_equals g) (pathValues_length g start.timestamp)
    (pathValues_inI64 start.lower start.upper)
  have hbuild : buildPartition start g = .ok (tile g k) := by
    rw [buildPartition_eq_ok, hs, tileIndex_bound]
    exact ⟨⟨hlo, hhi⟩, rfl⟩
  unfold parse
  simp only [hsplit, hlen, hseg, hdate, htime, hstart, hbuild, okOr, bind, Except.bind, pure, Except.pure, ne_eq,
    not_true_eq_false, if_false]
  exact if_pos rfl

theorem parse_eq_ok {s : String} {g : Granularity} {p : NativePartition} (h : parse s g = .ok p) :
    ∃ start, buildPartition start g = .ok p ∧ p.path = s := by
  unfold parse at h
  simp only at h
  split at h
  · cases h
  · simp only [except_bind_eq_ok] at h
    obtain ⟨values, -, date, -, ⟨hour, minute⟩, -, start, -, p', hp', hend⟩ := h
    split at hend
    · rename_i hpath
      cases hend
      exact ⟨start, hp', hpath⟩
    · cases hend

/-- A string is accepted exactly when it is the path of some partition, which is then returned. -/
theorem parse_accepts_canonical (s : String) (g : Granularity) :
    (∀ p, parse s g = .ok p ↔ ∃ i, buildPartition i g = .ok p ∧ p.path = s) ∧
    ((∃ failure, parse s g = .error failure) ↔ ∀ i p, buildPartition i g = .ok p → p.path ≠ s) := by
  have hiff : ∀ p, parse s g = .ok p ↔ ∃ i, buildPartition i g = .ok p ∧ p.path = s := by
    intro p
    refine ⟨parse_eq_ok, ?_⟩
    rintro ⟨i, hi, rfl⟩
    obtain ⟨hr, rfl⟩ := buildPartition_eq_ok.mp hi
    exact parse_tilePath hr
  refine ⟨hiff, ?_⟩
  constructor
  · rintro ⟨failure, hf⟩ i p hi hp
    have := (hiff p).mpr ⟨i, hi, hp⟩
    rw [hf] at this
    cases this
  · intro hnone
    cases hparse : parse s g with
    | error failure => exact ⟨failure, rfl⟩
    | ok p =>
      obtain ⟨i, hi, hp⟩ := (hiff p).mp hparse
      exact absurd hp (hnone i p hi)

end Parquex
