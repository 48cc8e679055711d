import Parquex.Fallible
import Parquex.TimePartition

/-!
# Partitions are tiles of the time line

Each granularity cuts the line of unix seconds into tiles. `buildPartition`
returns the tile that holds its instant whenever both ends of the tile are
representable, and fails otherwise; the path of a tile determines the tile.
-/

namespace Parquex

open Calendar

theorem okOr_eq_ok {α : Type} {v : Option α} {message : String} {a : α} :
    okOr v message = .ok a ↔ v = some a := by
  cases v <;> simp [okOr]

/-! ## Dates and instants -/

theorem ofDay_eq_some {n : Int} {date : NaiveDate} : NaiveDate.ofDay n = some date ↔ date.day = n := by
  unfold NaiveDate.ofDay
  constructor
  · intro h
    split at h
    · cases h; rfl
    · cases h
  · rintro rfl
    rw [dif_pos ⟨date.lower, date.upper⟩]

theorem fromYmdOpt_eq_some {y : Int} {m d : Nat} {date : NaiveDate} :
    NaiveDate.fromYmdOpt y m d = some date ↔ ValidYmd y m d ∧ date.day = ofYmd y m d := by
  unfold NaiveDate.fromYmdOpt
  split
  · rename_i h; simp [h, ofDay_eq_some]
  · rename_i h; simp [h]

theorem fromIsoywdOpt_eq_some {y : Int} {w : Nat} {date : NaiveDate} :
    NaiveDate.fromIsoywdOpt y w = some date ↔ ValidIsoWeek y w ∧ date.day = ofIsoWeek y w := by
  unfold NaiveDate.fromIsoywdOpt
  split
  · rename_i h; simp [h, ofDay_eq_some]
  · rename_i h; simp [h]

theorem fromTimestamp_eq_some {s : Int} {n : Nat} {i : UtcDateTime} :
    UtcDateTime.fromTimestamp s n = some i ↔ i.timestamp = s ∧ i.nanosecond = n := by
  unfold UtcDateTime.fromTimestamp
  constructor
  · intro h
    split at h
    · cases h; exact ⟨rfl, rfl⟩
    · cases h
  · rintro ⟨rfl, rfl⟩
    rw [dif_pos ⟨i.lower, i.upper, i.nanosecond_lt⟩]

theorem andHmOpt_eq_some {date : NaiveDate} {h m : Nat} {i : UtcDateTime} :
    date.andHmOpt h m = some i ↔
      h < 24 ∧ m < 60 ∧ i.timestamp = 86400 * date.day + 3600 * h + 60 * m ∧ i.nanosecond = 0 := by
  unfold NaiveDate.andHmOpt
  split
  · rename_i hm; simp [hm, fromTimestamp_eq_some]
  · rename_i hm; simp only [reduceCtorEq, false_iff]; intro h'; exact hm ⟨h'.1, h'.2.1⟩

namespace UtcDateTime

theorem dateNaive_day (i : UtcDateTime) : i.dateNaive.day = i.timestamp / 86400 := rfl

theorem hour_lt (i : UtcDateTime) : i.hour < 24 := by
  unfold hour secondOfDay; omega

theorem minute_lt (i : UtcDateTime) : i.minute < 60 := by
  unfold minute; omega

theorem nanos_inj {i j : UtcDateTime} (h : i.nanos = j.nanos) : i = j := by
  have hi := i.nanosecond_lt
  have hj := j.nanosecond_lt
  unfold nanos at h
  ext <;> omega

theorem lt_iff {i j : UtcDateTime} : i.lt j = true ↔ i.nanos < j.nanos := by
  have hi := i.nanosecond_lt
  have hj := j.nanosecond_lt
  unfold lt nanos
  rw [decide_eq_true_eq]
  omega

end UtcDateTime

theorem instant_eq_ok {t : Int} {unit : TimeUnit} {i : UtcDateTime} :
    instant t unit = .ok i ↔ i.nanos = t * unit.factor := by
  have hn := i.nanosecond_lt
  have hl := i.lower
  have hu := i.upper
  have hlo : minSecond = -8334601228800 := by decide
  have hhi : maxSecond = 8210266876799 := by decide
  unfold instant
  simp only [except_bind_eq_ok, okOr_eq_ok, fromTimestamp_eq_some, UtcDateTime.nanos]
  generalize t * unit.factor = n
  unfold checkedI128 inI64
  constructor
  · rintro ⟨a, ha, s, hs, h₁, h₂⟩
    split at ha
    · cases ha
      split at hs
      · cases hs; omega
      · cases hs
    · cases ha
  · intro h
    refine ⟨n, ?_, n / 1000000000, ?_, by omega, by omega⟩
    · rw [if_pos]; norm_num; omega
    · rw [if_pos]; simp only [Bool.and_eq_true, decide_eq_true_eq]; omega

/-! ## Tiles -/

theorem strictMono_minutes : StrictMono fun k : ℤ => 60 * k := strictMono_int_of_lt_succ fun k => by omega

theorem strictMono_hours : StrictMono fun k : ℤ => 3600 * k := strictMono_int_of_lt_succ fun k => by omega

theorem strictMono_days : StrictMono fun k : ℤ => 86400 * k := strictMono_int_of_lt_succ fun k => by omega

theorem strictMono_weeks : StrictMono fun k => 86400 * weeks.bound k := strictMono_days.comp weeks.strictMono

theorem strictMono_months : StrictMono fun k => 86400 * months.bound k := strictMono_days.comp months.strictMono

/-- The boundaries of a granularity, in unix seconds. -/
def tiling : Granularity → Tiling ℤ
  | .minute => ⟨fun k => 60 * k, strictMono_minutes⟩
  | .hour => ⟨fun k => 3600 * k, strictMono_hours⟩
  | .day => ⟨fun k => 86400 * k, strictMono_days⟩
  | .week => ⟨fun k => 86400 * weeks.bound k, strictMono_weeks⟩
  | .month => ⟨fun k => 86400 * months.bound k, strictMono_months⟩

/-- The tile that holds second `s`. -/
def tileIndex (g : Granularity) (s : Int) : Int :=
  match g with
  | .minute => s / 60
  | .hour => s / 3600
  | .day => s / 86400
  | .week => weekIndex (s / 86400)
  | .month => monthIndex (s / 86400)

theorem mem_tileIndex (g : Granularity) (s : Int) : (tiling g).Mem (tileIndex g s) s := by
  cases g with
  | minute => simp only [Tiling.Mem, tiling, tileIndex]; omega
  | hour => simp only [Tiling.Mem, tiling, tileIndex]; omega
  | day => simp only [Tiling.Mem, tiling, tileIndex]; omega
  | week =>
    obtain ⟨h, h'⟩ := mem_weekIndex (s / 86400)
    simp only [Tiling.Mem, tiling, tileIndex]; omega
  | month =>
    obtain ⟨h, h'⟩ := mem_monthIndex (s / 86400)
    simp only [Tiling.Mem, tiling, tileIndex]; omega

/-- The values printed in the path of the tile that starts at second `s`. -/
def pathValues (g : Granularity) (s : Int) : List Int :=
  let d := s / 86400
  match g with
  | .minute => [yearOf d, monthOf d, dayOf d, s % 86400 / 3600, s % 86400 / 60 % 60]
  | .hour => [yearOf d, monthOf d, dayOf d, s % 86400 / 3600]
  | .day => [yearOf d, monthOf d, dayOf d]
  | .week => [isoYearOf d, isoWeekOf d]
  | .month => [yearOf d, monthOf d]

def tilePath (g : Granularity) (k : Int) : String :=
  joinSlash (segments (expectedNames g) (pathValues g ((tiling g).bound k)))

def tile (g : Granularity) (k : Int) : NativePartition where
  path := tilePath g k
  startSeconds := (tiling g).bound k
  startNanosecond := 0
  untilSeconds := (tiling g).bound (k + 1)
  untilNanosecond := 0

/-- Both ends of the tile are instants chrono can hold. -/
def Representable (g : Granularity) (k : Int) : Prop :=
  minSecond ≤ (tiling g).bound k ∧ (tiling g).bound (k + 1) ≤ maxSecond

theorem partitionPath_eq (g : Granularity) (start : UtcDateTime) :
    partitionPath g start = joinSlash (segments (expectedNames g) (pathValues g start.timestamp)) := by
  have hh : ((start.timestamp % 86400 / 3600 : Int)) = ((start.hour : Nat) : Int) := by
    unfold UtcDateTime.hour UtcDateTime.secondOfDay; omega
  have hm : ((start.timestamp % 86400 / 60 % 60 : Int)) = ((start.minute : Nat) : Int) := by
    unfold UtcDateTime.minute UtcDateTime.secondOfDay; omega
  have hd : dayOf (start.timestamp / 86400) = ((start.day : Nat) : Int) := by
    have := (valid_civil (start.timestamp / 86400)).2.2.1
    unfold UtcDateTime.day NaiveDate.dayOfMonth
    rw [UtcDateTime.dateNaive_day]
    omega
  have hmo : monthOf (start.timestamp / 86400) = start.month := rfl
  have hy : yearOf (start.timestamp / 86400) = start.year := rfl
  have hiy : isoYearOf (start.timestamp / 86400) = start.isoYear := rfl
  have hiw : isoWeekOf (start.timestamp / 86400) = start.isoWeek := rfl
  have ht (s : String) : toString s = s := rfl
  have hr (n : Nat) : Int.repr (n : Int) = n.repr := rfl
  apply String.toList_inj.mp
  cases g <;>
    simp [partitionPath, pathValues, expectedNames, segments, joinSlash_cons, joinSlash_singleton, segment,
      hh, hm, hd, hmo, hy, hiy, hiw, ht, hr]

/-! ## The start and the end of a partition -/

theorem checkedAddMonth_eq_some {start i : UtcDateTime} {k : Int} (h : start.timestamp = 86400 * months.bound k)
    (hn : start.nanosecond = 0) :
    start.checkedAddMonth = some i ↔ i.timestamp = 86400 * months.bound (k + 1) ∧ i.nanosecond = 0 := by
  have hday : start.timestamp / 86400 = months.bound k := by omega
  have hk : monthIndex (months.bound k) = k := (mem_monthIndex _).unique (months.mem_bound k)
  obtain ⟨h₁, h₂, h₃, h₄⟩ := monthOf_spec (months.bound k)
  have hy : start.year = yearOf (months.bound k) := by
    unfold UtcDateTime.year NaiveDate.year; rw [UtcDateTime.dateNaive_day, hday]
  have hm : start.month = monthOf (months.bound k) := by
    unfold UtcDateTime.month NaiveDate.month; rw [UtcDateTime.dateNaive_day, hday]
  have hs : start.secondOfDay = 0 := by unfold UtcDateTime.secondOfDay; omega
  have hd1 : start.day = 1 := by
    have hb : months.bound k = yearStart (yearOf (months.bound k)) +
        daysBeforeMonth (yearOf (months.bound k)) (monthOf (months.bound k)) := by
      rw [← monthStart_of _ h₁ h₂]
      change monthStart k = monthStart (monthIndex (months.bound k))
      rw [hk]
    unfold UtcDateTime.day NaiveDate.dayOfMonth
    rw [UtcDateTime.dateNaive_day, hday]
    unfold dayOf
    omega
  have hidx : 12 * start.year + start.month = k + 1 := by
    rw [hy, hm]; unfold monthIndex at hk; omega
  unfold UtcDateTime.checkedAddMonth
  simp only [hidx, hd1, hs, hn]
  have hmr : 1 ≤ ((k + 1) % 12).toNat + 1 ∧ ((k + 1) % 12).toNat + 1 ≤ 12 := by omega
  have hlen := daysBeforeMonth_lt_succ ((k + 1) / 12) hmr.1 hmr.2
  have hmin : min 1 (monthLength ((k + 1) / 12) (((k + 1) % 12).toNat + 1)).toNat = 1 := by
    unfold monthLength; omega
  have hbound : months.bound (k + 1) = ofYmd ((k + 1) / 12) (((k + 1) % 12).toNat + 1) 1 := by
    rw [ofYmd_first _ hmr.1 hmr.2]
    change monthStart (k + 1) = _
    congr 1
    omega
  rw [hmin]
  constructor
  · intro h'
    obtain ⟨date, hd, hi⟩ := Option.bind_eq_some_iff.mp h'
    rw [fromYmdOpt_eq_some] at hd
    rw [fromTimestamp_eq_some] at hi
    have := hd.2
    push_cast at this
    rw [hbound]
    omega
  · rintro ⟨h₁', h₂'⟩
    have hlo := i.lower
    have hhi := i.upper
    unfold minSecond at hlo
    unfold maxSecond at hhi
    refine Option.bind_eq_some_iff.mpr ⟨⟨months.bound (k + 1), by omega, by omega⟩, ?_, ?_⟩
    · rw [fromYmdOpt_eq_some]
      refine ⟨⟨hmr.1, hmr.2, by omega, ?_⟩, ?_⟩
      · unfold monthLength; omega
      · simpa using hbound
    · rw [fromTimestamp_eq_some]; exact ⟨by simpa using h₁', h₂'⟩

/-- Midnight of a day, or a later minute of it. -/
theorem andHmOpt_eq_some_of {date : NaiveDate} {h m : Nat} {b : Int} (hh : h < 24) (hm : m < 60)
    (hb : 86400 * date.day + 3600 * h + 60 * m = b) (start : UtcDateTime) :
    date.andHmOpt h m = some start ↔ start.timestamp = b ∧ start.nanosecond = 0 := by
  rw [andHmOpt_eq_some, ← hb]
  simp [hh, hm]

theorem checkedAddSeconds_eq_some {start i : UtcDateTime} {b : Int} (h : start.timestamp = b)
    (hn : start.nanosecond = 0) (n : Int) :
    start.checkedAddSeconds n = some i ↔ i.timestamp = b + n ∧ i.nanosecond = 0 := by
  unfold UtcDateTime.checkedAddSeconds
  rw [fromTimestamp_eq_some, h, hn]

/-- Midnight of the day `n`, when that day can be held. -/
theorem exists_midnight {n b : Int} {start : UtcDateTime} (hb : 86400 * n = b) :
    (∃ date : NaiveDate, date.day = n ∧ date.andHmOpt 0 0 = some start) ↔
      start.timestamp = b ∧ start.nanosecond = 0 := by
  constructor
  · rintro ⟨date, hd, hs⟩
    exact (andHmOpt_eq_some_of (by decide) (by decide) (by omega) start).mp hs
  · rintro ⟨h, h'⟩
    have hd : start.dateNaive.day = n := by rw [UtcDateTime.dateNaive_day]; omega
    refine ⟨start.dateNaive, hd, ?_⟩
    exact (andHmOpt_eq_some_of (by decide) (by decide) (by omega) start).mpr ⟨h, h'⟩

theorem exists_start_comm {α β : Type} {A : α → Prop} {B : α → β → Prop} {C : β → Prop} :
    (∃ a, A a ∧ ∃ b, B a b ∧ C b) ↔ ∃ b, (∃ a, A a ∧ B a b) ∧ C b := by
  constructor
  · rintro ⟨a, ha, b, hb, hc⟩; exact ⟨b, ⟨a, ha, hb⟩, hc⟩
  · rintro ⟨b, ⟨a, ha, hb⟩, hc⟩; exact ⟨a, ha, b, hb, hc⟩

/-- What `buildPartition` computes: the tile of its instant, when both ends can be held. -/
theorem buildPartition_eq_ok_iff {i : UtcDateTime} {g : Granularity} {p : NativePartition} :
    buildPartition i g = .ok p ↔
      ∃ start next : UtcDateTime,
        (start.timestamp = (tiling g).bound (tileIndex g i.timestamp) ∧ start.nanosecond = 0) ∧
        (next.timestamp = (tiling g).bound (tileIndex g i.timestamp + 1) ∧ next.nanosecond = 0) ∧
        { path := partitionPath g start, startSeconds := start.timestamp, startNanosecond := start.nanosecond,
          untilSeconds := next.timestamp, untilNanosecond := next.nanosecond } = p := by
  have hh := i.hour_lt
  have hm := i.minute_lt
  have hd := i.dateNaive_day
  cases g with
  | minute =>
    have hb : 86400 * i.dateNaive.day + 3600 * i.hour + 60 * i.minute =
        (tiling .minute).bound (tileIndex .minute i.timestamp) := by
      simp only [tiling, tileIndex, UtcDateTime.hour, UtcDateTime.minute, UtcDateTime.secondOfDay, hd]; omega
    have hn : (tiling .minute).bound (tileIndex .minute i.timestamp + 1) =
        (tiling .minute).bound (tileIndex .minute i.timestamp) + 60 := by simp only [tiling]; omega
    simp only [buildPartition, except_bind_eq_ok, okOr_eq_ok, pure, Except.pure, Except.ok.injEq,
      exists_eq_left', andHmOpt_eq_some_of hh hm hb, hn]
    refine exists_congr fun start => ?_
    rw [← exists_and_left]
    refine exists_congr fun next => and_congr_right fun hs => and_congr_left' ?_
    exact checkedAddSeconds_eq_some hs.1 hs.2 60
  | hour =>
    have hb : 86400 * i.dateNaive.day + 3600 * i.hour + 60 * (0 : Nat) =
        (tiling .hour).bound (tileIndex .hour i.timestamp) := by
      simp only [tiling, tileIndex, UtcDateTime.hour, UtcDateTime.secondOfDay, hd]; omega
    have hn : (tiling .hour).bound (tileIndex .hour i.timestamp + 1) =
        (tiling .hour).bound (tileIndex .hour i.timestamp) + 3600 := by simp only [tiling]; omega
    simp only [buildPartition, except_bind_eq_ok, okOr_eq_ok, pure, Except.pure, Except.ok.injEq,
      exists_eq_left', andHmOpt_eq_some_of hh (by decide : 0 < 60) hb, hn]
    refine exists_congr fun start => ?_
    rw [← exists_and_left]
    refine exists_congr fun next => and_congr_right fun hs => and_congr_left' ?_
    exact checkedAddSeconds_eq_some hs.1 hs.2 3600
  | day =>
    have hb : 86400 * i.dateNaive.day + 3600 * (0 : Nat) + 60 * (0 : Nat) =
        (tiling .day).bound (tileIndex .day i.timestamp) := by simp only [tiling, tileIndex, hd]; omega
    have hn : (tiling .day).bound (tileIndex .day i.timestamp + 1) =
        (tiling .day).bound (tileIndex .day i.timestamp) + 86400 := by simp only [tiling]; omega
    simp only [buildPartition, except_bind_eq_ok, okOr_eq_ok, pure, Except.pure, Except.ok.injEq,
      exists_eq_left', andHmOpt_eq_some_of (by decide : 0 < 24) (by decide : 0 < 60) hb, hn]
    refine exists_congr fun start => ?_
    rw [← exists_and_left]
    refine exists_congr fun next => and_congr_right fun hs => and_congr_left' ?_
    exact checkedAddSeconds_eq_some hs.1 hs.2 86400
  | week =>
    have hn : (tiling .week).bound (tileIndex .week i.timestamp + 1) =
        (tiling .week).bound (tileIndex .week i.timestamp) + 604800 := by simp only [tiling, weeks]; omega
    have hb : 86400 * (i.dateNaive.day - i.dateNaive.numDaysFromMonday) =
        (tiling .week).bound (tileIndex .week i.timestamp) := by
      simp only [tiling, tileIndex, weeks, NaiveDate.numDaysFromMonday, weekday, weekIndex, hd]; omega
    simp only [buildPartition, except_bind_eq_ok, okOr_eq_ok, pure, Except.pure, Except.ok.injEq,
      NaiveDate.checkedSubDays, ofDay_eq_some]
    rw [exists_start_comm, hn]
    simp only [exists_midnight hb]
    refine exists_congr fun start => ?_
    rw [← exists_and_left]
    refine exists_congr fun next => and_congr_right fun hs => and_congr_left' ?_
    exact checkedAddSeconds_eq_some hs.1 hs.2 604800
  | month =>
    have hv : ValidYmd i.dateNaive.year i.dateNaive.month (1 : Nat) := by
      have h := valid_civil i.dateNaive.day
      unfold ValidYmd at h ⊢
      exact ⟨h.1, h.2.1, by omega, by simp only [NaiveDate.year, NaiveDate.month]; omega⟩
    have hb : 86400 * ofYmd i.dateNaive.year i.dateNaive.month (1 : Nat) =
        (tiling .month).bound (tileIndex .month i.timestamp) := by
      simp only [tiling, tileIndex, Nat.cast_one]
      rw [ofYmd_first _ hv.1 hv.2.1]
      simp only [months, monthIndex, NaiveDate.year, NaiveDate.month, hd]
    simp only [buildPartition, except_bind_eq_ok, okOr_eq_ok, pure, Except.pure, Except.ok.injEq,
      fromYmdOpt_eq_some, hv, true_and]
    rw [exists_start_comm]
    simp only [exists_midnight hb]
    refine exists_congr fun start => ?_
    rw [← exists_and_left]
    refine exists_congr fun next => and_congr_right fun hs => and_congr_left' ?_
    exact checkedAddMonth_eq_some hs.1 hs.2

theorem exists_instant {s : Int} (h : minSecond ≤ s) (h' : s ≤ maxSecond) :
    ∃ i : UtcDateTime, i.timestamp = s ∧ i.nanosecond = 0 :=
  ⟨⟨s, 0, h, h', by decide⟩, rfl, rfl⟩

theorem buildPartition_eq_ok {i : UtcDateTime} {g : Granularity} {p : NativePartition} :
    buildPartition i g = .ok p ↔
      Representable g (tileIndex g i.timestamp) ∧ p = tile g (tileIndex g i.timestamp) := by
  rw [buildPartition_eq_ok_iff]
  constructor
  · rintro ⟨start, next, ⟨hs, hs'⟩, ⟨hn, hn'⟩, rfl⟩
    have h₁ := start.lower
    have h₂ := next.upper
    refine ⟨⟨by omega, by omega⟩, ?_⟩
    rw [partitionPath_eq, hs, hs', hn, hn']
    rfl
  · rintro ⟨⟨h₁, h₂⟩, rfl⟩
    have hlt := (tiling g).bound_lt_succ (tileIndex g i.timestamp)
    obtain ⟨start, hs⟩ := exists_instant h₁ (by omega)
    obtain ⟨next, hn⟩ := exists_instant (by omega) h₂
    refine ⟨start, next, hs, hn, ?_⟩
    rw [partitionPath_eq, hs.1, hs.2, hn.1, hn.2]
    rfl

theorem partitionFor_eq_ok {t : Int} {unit : TimeUnit} {g : Granularity} {p : NativePartition} :
    partitionFor t unit g = .ok p ↔
      ∃ i : UtcDateTime, i.nanos = t * unit.factor ∧ Representable g (tileIndex g i.timestamp) ∧
        p = tile g (tileIndex g i.timestamp) := by
  unfold partitionFor
  simp only [except_bind_eq_ok, instant_eq_ok, buildPartition_eq_ok]

/-! ## Tiles are told apart by their paths -/

theorem tileIndex_bound (g : Granularity) (k : Int) : tileIndex g ((tiling g).bound k) = k :=
  (mem_tileIndex g _).unique ((tiling g).mem_bound k)

/-- The printed values determine the tile. -/
theorem tileIndex_eq_of_pathValues {g : Granularity} {s s' : Int} (h : pathValues g s = pathValues g s') :
    tileIndex g s = tileIndex g s' := by
  have hday : ∀ {d d' : Int}, yearOf d = yearOf d' → monthOf d = monthOf d' → dayOf d = dayOf d' → d = d' := by
    intro d d' hy hm hd
    rw [← ofYmd_civil d, hy, hm, hd, ofYmd_civil]
  cases g with
  | minute =>
    simp only [pathValues, List.cons.injEq, and_true, Nat.cast_inj] at h
    have := hday h.1 h.2.1 h.2.2.1
    simp only [tileIndex]; omega
  | hour =>
    simp only [pathValues, List.cons.injEq, and_true, Nat.cast_inj] at h
    have := hday h.1 h.2.1 h.2.2.1
    simp only [tileIndex]; omega
  | day =>
    simp only [pathValues, List.cons.injEq, and_true, Nat.cast_inj] at h
    exact hday h.1 h.2.1 h.2.2
  | week =>
    simp only [pathValues, List.cons.injEq, and_true] at h
    have hm : mondayOf (s / 86400) = mondayOf (s' / 86400) := by
      rw [← ofIsoWeek_iso, h.1, h.2, ofIsoWeek_iso]
    rw [mondayOf_eq, mondayOf_eq] at hm
    simp only [tileIndex]; omega
  | month =>
    simp only [pathValues, List.cons.injEq, and_true, Nat.cast_inj] at h
    simp only [tileIndex, monthIndex, h.1, h.2]

theorem expectedNames_ne_nil (g : Granularity) : expectedNames g ≠ [] := by cases g <;> decide

theorem expectedNames_slashFree (g : Granularity) : ∀ n ∈ expectedNames g, SlashFree n := by cases g <;> decide

theorem expectedNames_no_equals (g : Granularity) : ∀ n ∈ expectedNames g, '=' ∉ n.toList := by
  cases g <;> decide

theorem pathValues_length (g : Granularity) (s : Int) : (pathValues g s).length = (expectedNames g).length := by
  cases g <;> rfl

theorem segments_ne_nil (g : Granularity) (s : Int) : segments (expectedNames g) (pathValues g s) ≠ [] := by
  cases g <;> simp [segments, expectedNames, pathValues]

theorem tilePath_inj {g : Granularity} {k l : Int} (h : tilePath g k = tilePath g l) : k = l := by
  unfold tilePath at h
  have hl := joinSlash_inj (segments_ne_nil g _) (segments_ne_nil g _)
    (segments_slashFree (expectedNames_slashFree g) _) (segments_slashFree (expectedNames_slashFree g) _) h
  have hv := segments_inj (expectedNames_no_equals g) (pathValues_length g _) (pathValues_length g _) hl
  rw [← tileIndex_bound g k, tileIndex_eq_of_pathValues hv, tileIndex_bound]

theorem tile_inj {g : Granularity} {k l : Int} : tile g k = tile g l ↔ k = l :=
  ⟨fun h => tilePath_inj (congrArg NativePartition.path h), fun h => h ▸ rfl⟩

/-- The instants of a tile, in nanoseconds. -/
theorem tile_contains {g : Granularity} {k x : Int} :
    ((tile g k).startNanos ≤ x ∧ x < (tile g k).untilNanos) ↔ (tiling g).Mem k (x / 1000000000) := by
  unfold tile NativePartition.startNanos NativePartition.untilNanos Tiling.Mem
  simp only [Nat.cast_zero]
  constructor
  · rintro ⟨h₁, h₂⟩; exact ⟨by omega, by omega⟩
  · rintro ⟨h₁, h₂⟩; exact ⟨by omega, by omega⟩

theorem UtcDateTime.timestamp_eq (i : UtcDateTime) : i.nanos / 1000000000 = i.timestamp := by
  have h := i.nanosecond_lt
  unfold nanos
  omega

/-- A finer instant lies in the same second as its truncation to a unit. -/
theorem second_of_truncated {unit : TimeUnit} {t x : Int} (h : x / unit.factor = t) :
    x / 1000000000 = t * unit.factor / 1000000000 := by
  cases unit <;> simp only [TimeUnit.factor] at * <;> omega

/-- Partitions tile time: a partition holds exactly the instants that resolve to it, and its path names it. -/
theorem partitions_tile {g : Granularity} {unit : TimeUnit} {t : Int} {p : NativePartition}
    (h : partitionFor t unit g = .ok p) :
    (∀ x : Int, x / unit.factor = t → p.startNanos ≤ x ∧ x < p.untilNanos) ∧
    ∀ (unit' : TimeUnit) (t' : Int) (p' : NativePartition), partitionFor t' unit' g = .ok p' →
      (p = p' ↔ p.path = p'.path) ∧
      (p = p' ↔ p.startNanos ≤ t' * unit'.factor ∧ t' * unit'.factor < p.untilNanos) ∧
      (p ≠ p' → p.untilNanos ≤ p'.startNanos ∨ p'.untilNanos ≤ p.startNanos) ∧
      (t * unit.factor = t' * unit'.factor → p = p') := by
  obtain ⟨i, hi, -, rfl⟩ := partitionFor_eq_ok.mp h
  refine ⟨?_, ?_⟩
  · intro x hx
    rw [tile_contains, second_of_truncated hx, ← hi, i.timestamp_eq]
    exact mem_tileIndex g i.timestamp
  · intro unit' t' p' h'
    obtain ⟨i', hi', -, rfl⟩ := partitionFor_eq_ok.mp h'
    refine ⟨⟨fun e => congrArg _ e, fun e => tile_inj.mpr (tilePath_inj e)⟩, ?_, ?_, ?_⟩
    · rw [tile_inj, tile_contains, ← hi', i'.timestamp_eq]
      refine ⟨fun e => ?_, fun hm => hm.unique (mem_tileIndex g i'.timestamp)⟩
      rw [e]
      exact mem_tileIndex g i'.timestamp
    · intro hne
      rw [ne_eq, tile_inj] at hne
      rcases lt_or_gt_of_ne hne with hlt | hgt
      · have := (tiling g).strictMono.monotone (Int.add_one_le_of_lt hlt)
        left
        simp only [tile, NativePartition.startNanos, NativePartition.untilNanos, Nat.cast_zero]
        omega
      · have := (tiling g).strictMono.monotone (Int.add_one_le_of_lt hgt)
        right
        simp only [tile, NativePartition.startNanos, NativePartition.untilNanos, Nat.cast_zero]
        omega
    · intro e
      rw [tile_inj]
      have : i = i' := UtcDateTime.nanos_inj (by rw [hi, hi', e])
      rw [this]

theorem partitions_tile_leap_day :
    ((tile .day 19782).startNanos ≤ 1709164800999999999 ∧
      1709164800999999999 < (tile .day 19782).untilNanos) ∧
    (tile .day 19782 = tile .day 19782 ↔ (tile .day 19782).path = (tile .day 19782).path) := by
  have h : partitionFor 1709164800 .second .day = .ok (tile .day 19782) := by decide
  have h' : partitionFor 1709164800123 .millisecond .day = .ok (tile .day 19782) := by decide
  exact ⟨(partitions_tile h).1 1709164800999999999 (by decide), ((partitions_tile h).2 .millisecond _ _ h').1⟩

end Parquex
