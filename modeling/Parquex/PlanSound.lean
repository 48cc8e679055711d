import Parquex.TilesSound

/-!
# Planning returns the tiles of a range

The loop of `plan` walks the tiles from the one that holds `from` up to the first
boundary at or above `until`, so its output is the run of tiles that overlap the
range, or a failure when one of them or the next cannot be held or the run is
longer than the limit.
-/

namespace Parquex

/-! ## Tiles in nanoseconds -/

def nanoTiling (g : Granularity) : Tiling ℤ where
  bound := fun k => 1000000000 * (tiling g).bound k
  strictMono := fun k l h => by
    have := (tiling g).strictMono h
    simp only
    omega

theorem startNanos_tile (g : Granularity) (k : Int) : (tile g k).startNanos = (nanoTiling g).bound k := by
  simp only [tile, NativePartition.startNanos, nanoTiling]; omega

theorem untilNanos_tile (g : Granularity) (k : Int) : (tile g k).untilNanos = (nanoTiling g).bound (k + 1) := by
  simp only [tile, NativePartition.untilNanos, nanoTiling]; omega

theorem nanoTiling_mem (g : Granularity) (i : UtcDateTime) :
    (nanoTiling g).Mem (tileIndex g i.timestamp) i.nanos := by
  have hm := (tile_contains (x := i.nanos)).mpr (by rw [i.timestamp_eq]; exact mem_tileIndex g i.timestamp)
  rw [startNanos_tile, untilNanos_tile] at hm
  exact hm

theorem partitionStart_tile {g : Granularity} {k : Int} (h : Representable g k) :
    ∃ start, partitionStart (tile g k) = .ok start ∧ start.nanos = (nanoTiling g).bound k := by
  have hlt := (tiling g).bound_lt_succ k
  obtain ⟨start, hs, hn⟩ := exists_instant h.1 (by have := h.2; omega)
  refine ⟨start, ?_, ?_⟩
  · unfold partitionStart
    rw [okOr_eq_ok, fromTimestamp_eq_some]
    exact ⟨hs, hn⟩
  · unfold UtcDateTime.nanos
    rw [hs, hn]
    simp only [nanoTiling]
    omega

theorem partitionUntil_tile {g : Granularity} {k : Int} (h : Representable g k) :
    ∃ next, partitionUntil (tile g k) = .ok next ∧ next.timestamp = (tiling g).bound (k + 1) := by
  have hlt := (tiling g).bound_lt_succ k
  obtain ⟨next, hs, hn⟩ := exists_instant (by have := h.1; omega) h.2
  refine ⟨next, ?_, hs⟩
  unfold partitionUntil
  rw [okOr_eq_ok, fromTimestamp_eq_some]
  exact ⟨hs, hn⟩

/-! ## Runs of tiles -/

def tilesFrom (g : Granularity) (k : Int) : Nat → List NativePartition
  | 0 => []
  | n + 1 => tile g k :: tilesFrom g (k + 1) n

theorem mem_tilesFrom {g : Granularity} {k : Int} {n : Nat} {p : NativePartition} :
    p ∈ tilesFrom g k n ↔ ∃ l, k ≤ l ∧ l < k + n ∧ p = tile g l := by
  induction n generalizing k with
  | zero =>
    simp only [tilesFrom, List.not_mem_nil, false_iff]
    rintro ⟨l, h₁, h₂, -⟩
    omega
  | succ n ih =>
    simp only [tilesFrom, List.mem_cons, ih]
    constructor
    · intro h
      rcases h with rfl | ⟨l, h₁, h₂, rfl⟩
      · exact ⟨k, le_refl k, by omega, rfl⟩
      · exact ⟨l, by omega, by omega, rfl⟩
    · rintro ⟨l, h₁, h₂, rfl⟩
      by_cases hl : l = k
      · exact Or.inl (by rw [hl])
      · exact Or.inr ⟨l, by omega, by omega, rfl⟩

theorem nodup_tilesFrom (g : Granularity) (k : Int) (n : Nat) : (tilesFrom g k n).Nodup := by
  induction n generalizing k with
  | zero => exact List.nodup_nil
  | succ n ih =>
    refine List.nodup_cons.mpr ⟨?_, ih (k + 1)⟩
    rw [mem_tilesFrom]
    rintro ⟨l, h₁, -, h⟩
    have := tile_inj.mp h
    omega

theorem contiguous_tilesFrom (g : Granularity) (k : Int) (n : Nat) :
    (tilesFrom g k n).IsChain fun p q =>
      p.untilSeconds = q.startSeconds ∧ p.untilNanosecond = q.startNanosecond := by
  induction n generalizing k with
  | zero => exact List.IsChain.nil
  | succ n ih =>
    cases n with
    | zero => exact List.IsChain.singleton _
    | succ n => exact List.IsChain.cons_cons ⟨rfl, rfl⟩ (ih (k + 1))

theorem ascending_tilesFrom (g : Granularity) (k : Int) (n : Nat) :
    (tilesFrom g k n).Pairwise fun p q => p.startNanos < q.startNanos := by
  induction n generalizing k with
  | zero => exact List.Pairwise.nil
  | succ n ih =>
    refine List.Pairwise.cons ?_ (ih (k + 1))
    intro q hq
    obtain ⟨l, h, -, rfl⟩ := mem_tilesFrom.mp hq
    rw [startNanos_tile, startNanos_tile]
    exact (nanoTiling g).strictMono (by omega)

/-! ## The loop -/

theorem planLoop_tile {until' : UtcDateTime} {g : Granularity} {limit : Nat} {k : Int} (h : Representable g k) :
    planLoop until' g limit (tile g k) =
      if (nanoTiling g).bound k < until'.nanos then
        match limit with
        | 0 => .error (timePartitionInvalid "partition range exceeds the planning limit")
        | limit + 1 => do
          let next ← partitionUntil (tile g k)
          let following ← buildPartition next g
          let output ← planLoop until' g limit following
          return tile g k :: output
      else .ok [] := by
  obtain ⟨start, hstart, hn⟩ := partitionStart_tile h
  rw [planLoop.eq_def]
  simp only [hstart, bind, Except.bind]
  by_cases hlt : start.lt until' = true
  · rw [if_pos hlt, if_pos (by rw [← hn]; exact UtcDateTime.lt_iff.mp hlt)]
    cases limit <;> rfl
  · rw [if_neg hlt, if_neg (by rw [← hn]; exact fun hc => hlt (UtcDateTime.lt_iff.mpr hc))]
    rfl

/-- The step of the loop: the next tile is built when it can be held. -/
theorem following_eq_ok {g : Granularity} {k : Int} {p : NativePartition} (h : Representable g k) :
    (∃ next, partitionUntil (tile g k) = .ok next ∧ buildPartition next g = .ok p) ↔
      Representable g (k + 1) ∧ p = tile g (k + 1) := by
  obtain ⟨next, hnext, hs⟩ := partitionUntil_tile h
  have hbuild := buildPartition_eq_ok (i := next) (g := g) (p := p)
  rw [hs, tileIndex_bound] at hbuild
  rw [← hbuild]
  constructor
  · rintro ⟨next', hnext', hb⟩
    rw [hnext] at hnext'
    cases hnext'
    exact hb
  · intro hb
    exact ⟨next, hnext, hb⟩

/-- A run of tiles from `k` to the first boundary at or above `until`, with every tile and the one after held. -/
def PlanRun (until' : UtcDateTime) (g : Granularity) (limit : Nat) (k : Int) (out : List NativePartition) : Prop :=
  ∃ n ≤ limit, out = tilesFrom g k n ∧ (∀ l, k ≤ l → l ≤ k + n → Representable g l) ∧
    until'.nanos ≤ (nanoTiling g).bound (k + n) ∧ ∀ l, k ≤ l → l < k + n → (nanoTiling g).bound l < until'.nanos

theorem planRun_stop {until' : UtcDateTime} {g : Granularity} {limit : Nat} {k : Int} {out : List NativePartition}
    (h : Representable g k) (hge : until'.nanos ≤ (nanoTiling g).bound k) :
    PlanRun until' g limit k out ↔ out = [] := by
  constructor
  · rintro ⟨n, -, rfl, -, -, hlts⟩
    cases n with
    | zero => rfl
    | succ n => have := hlts k (le_refl k) (by omega); omega
  · rintro rfl
    refine ⟨0, by omega, rfl, ?_, by simpa using hge, fun l h₁ h₂ => by omega⟩
    intro l h₁ h₂
    have : l = k := by omega
    rw [this]
    exact h

theorem planRun_zero {until' : UtcDateTime} {g : Granularity} {k : Int} {out : List NativePartition}
    (hlt : (nanoTiling g).bound k < until'.nanos) : ¬PlanRun until' g 0 k out := by
  rintro ⟨n, hn, -, -, hge, -⟩
  have hn0 : n = 0 := by omega
  rw [hn0, Nat.cast_zero, add_zero] at hge
  omega

theorem planRun_succ {until' : UtcDateTime} {g : Granularity} {limit : Nat} {k : Int} {out : List NativePartition}
    (h : Representable g k) (hlt : (nanoTiling g).bound k < until'.nanos) :
    PlanRun until' g (limit + 1) k out ↔
      ∃ output, out = tile g k :: output ∧ Representable g (k + 1) ∧ PlanRun until' g limit (k + 1) output := by
  constructor
  · rintro ⟨n, hn, rfl, hrep, hge, hlts⟩
    cases n with
    | zero => rw [Nat.cast_zero, add_zero] at hge; omega
    | succ n =>
      have e : k + ((n + 1 : Nat) : Int) = k + 1 + n := by omega
      rw [e] at hrep hge hlts
      refine ⟨tilesFrom g (k + 1) n, rfl, hrep (k + 1) (by omega) (by omega), n, by omega, rfl, ?_, hge, ?_⟩
      · exact fun l h₁ h₂ => hrep l (by omega) h₂
      · exact fun l h₁ h₂ => hlts l (by omega) h₂
  · rintro ⟨output, rfl, -, n, hn, rfl, hrep, hge, hlts⟩
    have e : k + ((n + 1 : Nat) : Int) = k + 1 + n := by omega
    refine ⟨n + 1, by omega, rfl, ?_, by rw [e]; exact hge, ?_⟩
    · intro l h₁ h₂
      by_cases hl : l = k
      · rw [hl]; exact h
      · exact hrep l (by omega) (by omega)
    · intro l h₁ h₂
      by_cases hl : l = k
      · rw [hl]; exact hlt
      · exact hlts l (by omega) (by omega)

/-- The loop started in tile `k` ends at the first boundary at or above `until`. -/
theorem planLoop_eq_ok {until' : UtcDateTime} {g : Granularity} {limit : Nat} {k : Int}
    {out : List NativePartition} (h : Representable g k) :
    planLoop until' g limit (tile g k) = .ok out ↔ PlanRun until' g limit k out := by
  induction limit generalizing k out with
  | zero =>
    rw [planLoop_tile h]
    by_cases hlt : (nanoTiling g).bound k < until'.nanos
    · rw [if_pos hlt]
      exact ⟨nofun, fun hr => absurd hr (planRun_zero hlt)⟩
    · rw [if_neg hlt, planRun_stop h (not_lt.mp hlt)]
      exact ⟨fun hout => by cases hout; rfl, fun hout => by rw [hout]⟩
  | succ limit ih =>
    rw [planLoop_tile h]
    by_cases hlt : (nanoTiling g).bound k < until'.nanos
    · rw [if_pos hlt, planRun_succ h hlt]
      simp only [except_bind_eq_ok]
      constructor
      · intro hrun
        obtain ⟨next, hnext, following, hf, output, hloop, hout⟩ := hrun
        cases hout
        obtain ⟨hr, rfl⟩ := (following_eq_ok h).mp ⟨next, hnext, hf⟩
        exact ⟨output, rfl, hr, (ih hr).mp hloop⟩
      · intro hrun
        obtain ⟨output, hout, hr, hrun⟩ := hrun
        obtain ⟨next, hnext, hf⟩ := (following_eq_ok h).mpr ⟨hr, rfl⟩
        rw [hout]
        exact ⟨next, hnext, tile g (k + 1), hf, output, (ih hr).mpr hrun, rfl⟩
    · rw [if_neg hlt, planRun_stop h (not_lt.mp hlt)]
      exact ⟨fun hout => by cases hout; rfl, fun hout => by rw [hout]⟩

/-! ## The plan of a range -/

/-- The overlapping tiles, counted on the whole line. -/
def overlapping (g : Granularity) (lo hi : Int) : Set Int := {k | (tile g k).startNanos < hi ∧ lo < (tile g k).untilNanos}

theorem mem_overlapping {g : Granularity} {lo hi k : Int} : k ∈ overlapping g lo hi ↔ (nanoTiling g).Overlaps k lo hi := by
  unfold overlapping Tiling.Overlaps
  rw [Set.mem_ofPred_eq, startNanos_tile, untilNanos_tile]

theorem overlapping_eq (g : Granularity) (lo hi : Int) :
    overlapping g lo hi = {k | (nanoTiling g).Overlaps k lo hi} := by
  ext k
  exact mem_overlapping

/-- The two instants of a plan, then its loop. -/
theorem plan_eq {from' until' : Int} {unit : TimeUnit} {g : Granularity} {limit : Nat} (hl : 1 ≤ limit) :
    plan from' until' unit g limit = (do
      let f ← instant from' unit
      let u ← instant until' unit
      if u.lt f then .error (timePartitionInvalid "partition range must satisfy from <= until")
      else if f = u then .ok []
      else do
        let current ← buildPartition f g
        planLoop u g limit current) := by
  unfold plan
  simp only [if_neg (by omega : ¬limit = 0)]
  refine bind_congr fun f => bind_congr fun u => ?_
  by_cases hlt : u.lt f = true
  · rw [if_pos hlt, if_pos hlt]; rfl
  · rw [if_neg hlt, if_neg hlt]
    by_cases he : f = u
    · rw [if_pos he, if_pos he]; rfl
    · rw [if_neg he, if_neg he]

/-- A plan of two instants is the empty list, or a run of tiles from the tile of the first. -/
theorem plan_eq_ok {from' until' : Int} {unit : TimeUnit} {g : Granularity} {limit : Nat}
    {out : List NativePartition} (hl : 1 ≤ limit) :
    plan from' until' unit g limit = .ok out ↔
      ∃ f u : UtcDateTime, f.nanos = from' * unit.factor ∧ u.nanos = until' * unit.factor ∧
        (f = u ∧ out = [] ∨ f.nanos < u.nanos ∧ Representable g (tileIndex g f.timestamp) ∧
          PlanRun u g limit (tileIndex g f.timestamp) out) := by
  rw [plan_eq hl]
  simp only [except_bind_eq_ok, instant_eq_ok]
  constructor
  · intro h
    obtain ⟨f, hf, u, hu, h⟩ := h
    refine ⟨f, u, hf, hu, ?_⟩
    by_cases hlt : u.lt f = true
    · rw [if_pos hlt] at h; cases h
    · rw [if_neg hlt] at h
      by_cases he : f = u
      · rw [if_pos he] at h
        cases h
        exact Or.inl ⟨he, rfl⟩
      · rw [if_neg he] at h
        obtain ⟨current, hcur, hloop⟩ := except_bind_eq_ok.mp h
        obtain ⟨hr, rfl⟩ := buildPartition_eq_ok.mp hcur
        have hne : f.nanos ≠ u.nanos := fun e => he (UtcDateTime.nanos_inj e)
        rw [UtcDateTime.lt_iff] at hlt
        exact Or.inr ⟨by omega, hr, (planLoop_eq_ok hr).mp hloop⟩
  · intro h
    obtain ⟨f, u, hf, hu, h⟩ := h
    refine ⟨f, hf, u, hu, ?_⟩
    rcases h with ⟨rfl, rfl⟩ | ⟨hlt, hr, hrun⟩
    · rw [if_neg (by rw [UtcDateTime.lt_iff]; omega), if_pos rfl]
    · rw [if_neg (by rw [UtcDateTime.lt_iff]; omega), if_neg (by rintro rfl; omega)]
      exact except_bind_eq_ok.mpr ⟨_, buildPartition_eq_ok.mpr ⟨hr, rfl⟩, (planLoop_eq_ok hr).mpr hrun⟩

/-- The tiles of a plan are the overlapping ones. -/
theorem planRun_overlapping {f u : UtcDateTime} {g : Granularity} {n : Nat}
    (hlts : ∀ l, tileIndex g f.timestamp ≤ l → l < tileIndex g f.timestamp + n → (nanoTiling g).bound l < u.nanos)
    (hge : u.nanos ≤ (nanoTiling g).bound (tileIndex g f.timestamp + n)) (hlt : f.nanos < u.nanos) (k : Int) :
    k ∈ overlapping g f.nanos u.nanos ↔ tileIndex g f.timestamp ≤ k ∧ k < tileIndex g f.timestamp + n := by
  have hm := nanoTiling_mem g f
  have hn : 0 < n := by
    rcases Nat.eq_zero_or_pos n with rfl | hn
    · rw [Nat.cast_zero, add_zero] at hge; have := hm.1; omega
    · exact hn
  rw [mem_overlapping]
  exact Tiling.overlaps_iff_mem_Ico hm hge (hlts _ (by omega) (by omega)) k

theorem partitions_of_plan {from' until' : Int} {unit : TimeUnit} {g : Granularity} {limit : Nat}
    {out : List NativePartition} (hl : 1 ≤ limit) (h : plan from' until' unit g limit = .ok out) :
    ∃ (k : Int) (n : Nat), out = tilesFrom g k n ∧ (∀ l, k ≤ l → l < k + n → Representable g l) ∧
      ∀ l, l ∈ overlapping g (from' * unit.factor) (until' * unit.factor) ∧ from' < until' ↔ k ≤ l ∧ l < k + n := by
  obtain ⟨f, u, hf, hu, h⟩ := (plan_eq_ok hl).mp h
  have hpos : 0 < unit.factor := by cases unit <;> decide
  rcases h with ⟨rfl, rfl⟩ | ⟨hlt, -, n, -, rfl, hrep, hge, hlts⟩
  · refine ⟨0, 0, rfl, fun l h₁ h₂ => by omega, ?_⟩
    intro l
    have he : from' = until' := by
      have : from' * unit.factor = until' * unit.factor := by omega
      exact Int.eq_of_mul_eq_mul_right (by omega) this
    constructor
    · rintro ⟨-, hlt⟩; omega
    · rintro ⟨h₁, h₂⟩; omega
  · refine ⟨tileIndex g f.timestamp, n, rfl, fun l h₁ h₂ => hrep l h₁ (by omega), ?_⟩
    intro l
    have hfu : from' < until' := by
      rw [hf, hu] at hlt
      exact lt_of_mul_lt_mul_right hlt (by omega)
    rw [← hf, ← hu, planRun_overlapping hlts hge hlt]
    exact and_iff_left hfu

theorem exists_instant_nanos {x : Int} (h : minSecond ≤ x / 1000000000) (h' : x / 1000000000 ≤ maxSecond) :
    ∃ i : UtcDateTime, i.nanos = x := by
  refine ⟨⟨x / 1000000000, (x % 1000000000).toNat, h, h', by omega⟩, ?_⟩
  unfold UtcDateTime.nanos
  simp only
  omega

theorem nanoTiling_mem_div (g : Granularity) (x : Int) : (nanoTiling g).Mem (tileIndex g (x / 1000000000)) x := by
  have hm := (tile_contains (x := x)).mpr (mem_tileIndex g (x / 1000000000))
  rw [startNanos_tile, untilNanos_tile] at hm
  exact hm

/-- A range whose overlapping tiles and the one after can be held is planned exactly when they fit the limit. -/
theorem plan_isOk_of_lt {from' until' : Int} {unit : TimeUnit} {g : Granularity} {limit : Nat} (hl : 1 ≤ limit)
    (hlt : from' < until')
    (hrep : ∀ k ∈ overlapping g (from' * unit.factor) (until' * unit.factor),
      Representable g k ∧ Representable g (k + 1)) :
    (∃ out, plan from' until' unit g limit = .ok out) ↔
      (overlapping g (from' * unit.factor) (until' * unit.factor)).ncard ≤ limit := by
  have hpos : 0 < unit.factor := by cases unit <;> decide
  have hfu : from' * unit.factor < until' * unit.factor := mul_lt_mul_of_pos_right hlt hpos
  generalize hF : from' * unit.factor = lo at hrep hfu ⊢
  generalize hU : until' * unit.factor = hi at hrep hfu ⊢
  have hm := nanoTiling_mem_div g lo
  generalize hk : tileIndex g (lo / 1000000000) = k at hm
  obtain ⟨n, hge, hpred⟩ := (nanoTiling g).exists_first_bound_ge k hi (lt_of_le_of_lt hm.1 hfu)
  have hpred' : (nanoTiling g).bound (k + (n + 1 : Nat) - 1) < hi := by
    rw [show k + ((n + 1 : Nat) : Int) - 1 = k + n by omega]
    exact hpred
  have hcard : (overlapping g lo hi).ncard = n + 1 := by
    rw [overlapping_eq, Tiling.ncard_overlaps hm hge hpred']
    omega
  have hover : ∀ l, k ≤ l → l ≤ k + n → l ∈ overlapping g lo hi := by
    intro l h₁ h₂
    rw [mem_overlapping, Tiling.overlaps_iff_mem_Ico hm hge hpred']
    omega
  have hreps : ∀ l, k ≤ l → l ≤ k + (n + 1 : Nat) → Representable g l := by
    intro l h₁ h₂
    by_cases hl : l = k + (n + 1 : Nat)
    · have := (hrep (k + n) (hover _ (by omega) (le_refl _))).2
      rw [hl, Nat.cast_add, Nat.cast_one, ← add_assoc]
      exact this
    · exact (hrep l (hover l h₁ (by omega))).1
  have hfirst := hreps k (le_refl k) (by omega)
  have hlast := hreps (k + (n + 1 : Nat)) (by omega) (le_refl _)
  have hlast' := (tiling g).bound_lt_succ (k + (n + 1 : Nat))
  obtain ⟨h₁, h₂⟩ := hm
  have hkbound := hfirst.1
  have hnbound := hlast.2
  simp only [nanoTiling] at hge h₁ h₂
  obtain ⟨f, hf⟩ := exists_instant_nanos (x := lo) (by omega) (by omega)
  obtain ⟨u, hu⟩ := exists_instant_nanos (x := hi) (by omega) (by omega)
  have hkf : tileIndex g f.timestamp = k := by rw [← f.timestamp_eq, hf, hk]
  rw [hcard]
  constructor
  · intro hex
    obtain ⟨out, hout⟩ := hex
    obtain ⟨f', u', hf', hu', h⟩ := (plan_eq_ok hl).mp hout
    have hff : f' = f := UtcDateTime.nanos_inj (by rw [hf', hF, hf])
    have huu : u' = u := UtcDateTime.nanos_inj (by rw [hu', hU, hu])
    subst hff huu
    rcases h with ⟨he, -⟩ | ⟨-, -, m, hm', -, -, hge', -⟩
    · rw [he] at hf; omega
    · rw [hkf] at hge'
      by_contra hc
      have hle : (nanoTiling g).bound (k + m) ≤ (nanoTiling g).bound (k + n) :=
        (nanoTiling g).strictMono.monotone (by omega)
      omega
  · intro hn
    refine ⟨tilesFrom g k (n + 1), (plan_eq_ok hl).mpr ⟨f, u, by rw [hf, hF], by rw [hu, hU], ?_⟩⟩
    rw [hkf]
    refine Or.inr ⟨by omega, hfirst, n + 1, hn, rfl, hreps, ?_, ?_⟩
    · rw [hu]; simp only [nanoTiling]; exact hge
    · intro l h₃ h₄
      rw [hu]
      exact (mem_overlapping.mp (hover l h₃ (by omega))).1

/-- Every partition of an instant of the range is planned once. -/
theorem count_planned {from' until' : Int} {unit : TimeUnit} {g : Granularity} {limit : Nat}
    {out : List NativePartition} (hl : 1 ≤ limit) (h : plan from' until' unit g limit = .ok out)
    {t : Int} {unit' : TimeUnit} {p : NativePartition} (hp : partitionFor t unit' g = .ok p)
    (hf : from' * unit.factor ≤ t * unit'.factor) (hu : t * unit'.factor < until' * unit.factor) : out.count p = 1 := by
  obtain ⟨k, n, rfl, -, hiff⟩ := partitions_of_plan hl h
  obtain ⟨i, hi, -, rfl⟩ := partitionFor_eq_ok.mp hp
  have hpos : 0 < unit.factor := by cases unit <;> decide
  have hlt : from' < until' := lt_of_mul_lt_mul_right (lt_of_le_of_lt hf hu) (by omega)
  have hm := nanoTiling_mem g i
  rw [hi] at hm
  have hover := (hiff (tileIndex g i.timestamp)).mp ⟨mem_overlapping.mpr (hm.overlaps hf hu), hlt⟩
  refine List.count_eq_one_of_mem (nodup_tilesFrom g k n) (mem_tilesFrom.mpr ⟨_, hover.1, hover.2, rfl⟩)

theorem planned_overlaps {from' until' : Int} {unit : TimeUnit} {g : Granularity} {limit : Nat}
    {out : List NativePartition} (hl : 1 ≤ limit) (h : plan from' until' unit g limit = .ok out)
    {p : NativePartition} (hp : p ∈ out) :
    p.startNanos < until' * unit.factor ∧ from' * unit.factor < p.untilNanos := by
  obtain ⟨k, n, rfl, -, hiff⟩ := partitions_of_plan hl h
  obtain ⟨l, h₁, h₂, rfl⟩ := mem_tilesFrom.mp hp
  exact ((hiff l).mpr ⟨h₁, h₂⟩).1

theorem plan_refl {from' : Int} {unit : TimeUnit} {g : Granularity} {limit : Nat} (hl : 1 ≤ limit) :
    plan from' from' unit g limit = (instant from' unit).map fun _ => [] := by
  rw [plan_eq hl]
  cases instant from' unit with
  | error failure => rfl
  | ok f =>
    simp only [bind, Except.bind, Except.map]
    rw [if_neg (by rw [UtcDateTime.lt_iff]; omega), if_pos trivial]

theorem plan_backward {from' until' : Int} {unit : TimeUnit} {g : Granularity} {limit : Nat} (hl : 1 ≤ limit)
    (h : until' < from') : ∃ failure, plan from' until' unit g limit = .error failure := by
  have hpos : 0 < unit.factor := by cases unit <;> decide
  have hlt := mul_lt_mul_of_pos_right h hpos
  cases hplan : plan from' until' unit g limit with
  | error failure => exact ⟨failure, rfl⟩
  | ok out =>
    obtain ⟨f, u, hf, hu, ⟨he, -⟩ | ⟨hfu, -⟩⟩ := (plan_eq_ok hl).mp hplan
    · rw [he] at hf; omega
    · omega

/-- Range planning is exact. -/
theorem plan_exact {from' until' : Int} {unit : TimeUnit} {g : Granularity} {limit : Nat} (hl : 1 ≤ limit) :
    (∀ out, plan from' until' unit g limit = .ok out →
      (out.Pairwise fun p q => p.startNanos < q.startNanos) ∧
      (out.IsChain fun p q => p.untilSeconds = q.startSeconds ∧ p.untilNanosecond = q.startNanosecond) ∧
      (∀ t unit' p, partitionFor t unit' g = .ok p → from' * unit.factor ≤ t * unit'.factor →
        t * unit'.factor < until' * unit.factor → out.count p = 1) ∧
      ∀ p ∈ out, p.startNanos < until' * unit.factor ∧ from' * unit.factor < p.untilNanos) ∧
    (from' = until' → plan from' until' unit g limit = (instant from' unit).map fun _ => []) ∧
    (until' < from' → ∃ failure, plan from' until' unit g limit = .error failure) ∧
    (from' ≤ until' → (from' = until' → ∃ i, instant from' unit = .ok i) →
      (∀ k ∈ overlapping g (from' * unit.factor) (until' * unit.factor),
        Representable g k ∧ Representable g (k + 1)) →
      ((∃ out, plan from' until' unit g limit = .ok out) ↔
        (overlapping g (from' * unit.factor) (until' * unit.factor)).ncard ≤ limit)) := by
  refine ⟨?_, ?_, plan_backward hl, ?_⟩
  · intro out hout
    obtain ⟨k, n, hkn, -, -⟩ := partitions_of_plan hl hout
    refine ⟨by rw [hkn]; exact ascending_tilesFrom g k n, by rw [hkn]; exact contiguous_tilesFrom g k n, ?_, ?_⟩
    · exact fun t unit' p hp hf hu => count_planned hl hout hp hf hu
    · exact fun p hp => planned_overlaps hl hout hp
  · rintro rfl
    exact plan_refl hl
  · intro hle hinst hrep
    rcases lt_or_eq_of_le hle with hlt | rfl
    · exact plan_isOk_of_lt hl hlt hrep
    · obtain ⟨i, hi⟩ := hinst rfl
      have hm := nanoTiling_mem_div g (from' * unit.factor)
      have hsub : overlapping g (from' * unit.factor) (from' * unit.factor) ⊆
          {tileIndex g (from' * unit.factor / 1000000000)} := by
        intro k hk
        obtain ⟨h₁, h₂⟩ := mem_overlapping.mp hk
        exact Tiling.Mem.unique ⟨le_of_lt h₁, h₂⟩ hm
      have hcard := Set.ncard_le_ncard hsub
      rw [Set.ncard_singleton] at hcard
      rw [plan_refl hl, hi]
      exact ⟨fun _ => by omega, fun _ => ⟨[], rfl⟩⟩

/-- An empty range is refused when chrono cannot hold its instant. -/
theorem plan_empty_range_refused :
    plan 9223372036854775807 9223372036854775807 .second .day 1 =
      .error (timePartitionInvalid "timestamp is out of range") := by decide

theorem plan_exact_two_days :
    plan 86399 86401 .second .day 2 = .ok [tile .day 0, tile .day 1] ∧
      [tile .day 0, tile .day 1].count (tile .day 1) = 1 := by
  have h : plan 86399 86401 .second .day 2 = .ok [tile .day 0, tile .day 1] := by decide +kernel
  have hp : partitionFor 86400 .second .day = .ok (tile .day 1) := by decide +kernel
  exact ⟨h, ((plan_exact (by decide)).1 _ h).2.2.1 86400 .second _ hp (by decide) (by decide)⟩

end Parquex
