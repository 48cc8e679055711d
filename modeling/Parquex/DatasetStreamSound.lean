import Parquex.DatasetStream

/-!
# Readers of a dataset stream

At most one reader is open at any time. An enumeration that has ended leaves none
open, unless it ended in a call that raised over a reader which the same call had
opened: the finaliser is given what the call before had returned.
-/

namespace Parquex

namespace DatasetStream

/-! ## Clauses that lose a reader -/

section
variable (settings : Settings) (source : Source)

/-- The next answer of a reader is a failure, or a batch that cannot be decoded or filtered. -/
def readFails (schema : Schema) (calls : Nat) : Bool :=
  match source.next calls with
  | .error _ => true
  | .ok none => false
  | .ok (some native) => !(receive settings schema native).isOk

/-- A file is opened whose fields the library cannot decode. -/
def openFails (key : String) (calls : Nat) : Bool :=
  match source.openReader calls key with
  | .error _ => false
  | .ok fields => !(Schema.fromNative fields).isOk

/-- The clause fails over an open reader that the call of the next function did not start with. -/
def losesReader (s : Enumeration) (e : Event) : Bool :=
  match e, s.phase with
  | .turn, .running state =>
    match state.current, state.files with
    | some current, _ =>
      s.world.isActive current.handle && readFails settings source current.schema s.world.calls &&
        !(s.accumulator.current.any fun reader => reader.handle == current.handle)
    | none, key :: _ => openFails source key s.world.calls
    | none, [] => false
  | _, _ => false

end

/-! ## Active readers -/

namespace World

variable {w : World} {handle : Nat} {reader : OpenReader}

theorem isActive_iff : w.isActive handle = true ↔ w.active[handle]? = some true := by
  unfold isActive
  rw [List.getD_eq_getElem?_getD]
  cases w.active[handle]? <;> simp

theorem isActive_close : (w.close reader).isActive handle = true ↔ w.isActive handle = true ∧ handle ≠ reader.handle := by
  rw [isActive_iff, isActive_iff]
  show (w.active.set reader.handle false)[handle]? = _ ↔ _
  rw [List.getElem?_set]
  split
  · split <;> simp_all
  · rename_i h
    simp [Ne.symm h]

theorem openReaders_eq_zero : w.openReaders = 0 ↔ ∀ handle, w.isActive handle = false := by
  unfold openReaders
  rw [List.count_eq_zero]
  refine ⟨fun h handle => Bool.eq_false_iff.mpr fun ha => h (List.mem_of_getElem? (isActive_iff.mp ha)), ?_⟩
  intro h hmem
  obtain ⟨handle, hlt, hget⟩ := List.getElem_of_mem hmem
  have := h handle
  rw [Bool.eq_false_iff] at this
  exact this (isActive_iff.mpr (List.getElem?_eq_some_iff.mpr ⟨hlt, hget⟩))

theorem count_le_one {l : List Bool} (h : ∀ i j : Nat, l[i]? = some true → l[j]? = some true → i = j) : l.count true ≤ 1 := by
  induction l with
  | nil => exact Nat.zero_le _
  | cons b l ih =>
    have htail : l.count true ≤ 1 := ih fun i j hi hj => Nat.succ_injective (h (i + 1) (j + 1) hi hj)
    cases b with
    | false => simpa using htail
    | true =>
      have hnone : l.count true = 0 := by
        rw [List.count_eq_zero]
        intro hmem
        obtain ⟨i, hlt, hget⟩ := List.getElem_of_mem hmem
        have := h 0 (i + 1) rfl (List.getElem?_eq_some_iff.mpr ⟨Nat.succ_lt_succ hlt, hget⟩)
        exact absurd this (Nat.succ_ne_zero i).symm
      simp [hnone]

end World

/-- No reader is open but the current one. -/
def Only (w : World) (current : Option OpenReader) : Prop :=
  ∀ handle, w.isActive handle = true → current.map OpenReader.handle = some handle

section
variable {w : World} {current : Option OpenReader} {reader : OpenReader}

theorem Only.le_one (h : Only w current) : w.openReaders ≤ 1 := by
  refine World.count_le_one fun i j hi hj => ?_
  have := (h i (World.isActive_iff.mpr hi)).symm.trans (h j (World.isActive_iff.mpr hj))
  exact Option.some.inj this

theorem Only.closed (h : Only w none) : w.openReaders = 0 := by
  rw [World.openReaders_eq_zero]
  intro handle
  refine Bool.eq_false_iff.mpr fun ha => ?_
  cases h handle ha

theorem Only.close (h : Only w (some reader)) : Only (w.close reader) none := by
  intro handle ha
  obtain ⟨ha, hne⟩ := World.isActive_close.mp ha
  exact absurd (Option.some.inj (h handle ha)).symm hne

theorem Only.closeAny (h : Only w current) : Only (w.closeAny current) none := by
  cases current with
  | none => exact h
  | some reader => exact h.close

/-- Closing any readers leaves at most those that were open. -/
theorem Only.closeOther (h : Only w current) (other : Option OpenReader) : Only (w.closeAny other) current := by
  cases other with
  | none => exact h
  | some reader => exact fun handle ha => h handle (World.isActive_close.mp ha).1

theorem Only.called (h : Only w current) : Only w.called current := h

theorem Only.setCurrent (h : Only w current) (other : Option OpenReader) : Only (w.setCurrent other) current := h

end

/-! ## One turn -/

def Known (w : World) (current : Option OpenReader) : Prop :=
  ∀ reader, current = some reader → reader.handle < w.active.length

/-- The reader that may be open in a state of an enumeration. -/
def Sound (s : Enumeration) : Prop :=
  match s.phase with
  | .idle => Only s.world s.accumulator.current ∧ Known s.world s.accumulator.current
  | .running state =>
    Only s.world state.current ∧ Known s.world state.current ∧ Known s.world s.accumulator.current
  | .ended => s.world.openReaders ≤ 1 ∧ s.world.control = none

theorem Sound.le_one {s : Enumeration} (h : Sound s) : s.world.openReaders ≤ 1 := by
  unfold Sound at h
  split at h
  · exact h.1.le_one
  · exact h.1.le_one
  · exact h.1

/-- What a step does to an enumeration that has not ended, if it loses a reader or not. -/
structure Stepped (s : Enumeration) (loses : Bool) : Prop where
  sound : Sound s
  ended : s.phase = .ended → (s.world.openReaders = 0 ↔ loses = false)
  live : s.phase ≠ .ended → loses = false

theorem Stepped.of_sound {s : Enumeration} (h : Sound s) (hphase : s.phase ≠ .ended) : Stepped s false :=
  ⟨h, fun he => absurd he hphase, fun _ => rfl⟩

section
variable {s : Enumeration} {state : State} {w : World}

/-- An enumeration that ends with no reader open but the one it finalises. -/
theorem stepped_finish (h : Only w state.current) : Stepped (finish s state w) false := by
  have hclosed : (finalize state w).openReaders = 0 := Only.closed h.closeAny
  exact ⟨⟨hclosed ▸ Nat.zero_le _, rfl⟩, fun _ => ⟨fun _ => rfl, fun _ => hclosed⟩, fun he => absurd rfl he⟩

/-- An enumeration that ends with another reader open than the one it finalises. -/
theorem stepped_lose {reader : OpenReader} (h : Only w (some reader)) (hactive : w.isActive reader.handle = true)
    (hother : state.current.any (fun other => other.handle == reader.handle) = false) :
    Stepped (finish s state w) true := by
  have hle : (finalize state w).openReaders ≤ 1 := (h.closeOther state.current).le_one
  have hopen : (w.closeAny state.current).isActive reader.handle = true := by
    cases hc : state.current with
    | none => exact hactive
    | some other =>
      rw [hc] at hother
      refine World.isActive_close.mpr ⟨hactive, fun he => ?_⟩
      rw [Option.any_some, he] at hother
      simp at hother
  refine ⟨⟨hle, rfl⟩, fun _ => ⟨fun h0 => ?_, fun hf => by cases hf⟩, fun he => absurd rfl he⟩
  have hzero : (w.closeAny state.current).isActive reader.handle = false := World.openReaders_eq_zero.mp h0 _
  rw [hopen] at hzero
  cases hzero

/-- A reader that is not open is nobody's. -/
theorem Only.inactive {reader : OpenReader} {current : Option OpenReader} (h : Only w (some reader))
    (hactive : w.isActive reader.handle = false) : Only w current := by
  intro handle ha
  have he : reader.handle = handle := Option.some.inj (h handle ha)
  rw [← he, hactive] at ha
  cases ha

theorem Only.of_none {current : Option OpenReader} (h : Only w none) : Only w current := by
  intro handle ha
  cases h handle ha

end

section
variable {settings : Settings} {source : Source} {s : Enumeration} {state : State}

/-- A turn that raises over the current reader. -/
theorem stepped_raised {current : OpenReader} (h : Only s.world (some current)) :
    Stepped (finish s s.accumulator s.world.called) (s.world.isActive current.handle &&
      !(s.accumulator.current.any fun reader => reader.handle == current.handle)) := by
  cases ha : s.world.isActive current.handle with
  | false => exact stepped_finish (h.inactive ha).called
  | true =>
    cases hother : s.accumulator.current.any fun reader => reader.handle == current.handle with
    | false => exact stepped_lose h.called ha hother
    | true =>
      obtain ⟨reader, hreader, he⟩ := Option.any_eq_true _ _ |>.mp hother
      refine stepped_finish fun handle hactive => ?_
      rw [hreader, Option.map_some, eq_of_beq he]
      exact h handle hactive

theorem turn_read {current : OpenReader} (h : Only s.world (some current)) (hknown : Known s.world state.current)
    (hbefore : Known s.world s.accumulator.current) (hphase : s.phase = .running state)
    (hcurrent : state.current = some current) :
    Stepped (turn settings source s state).2 (losesReader settings source s .turn) := by
  have hloses : losesReader settings source s .turn =
      (s.world.isActive current.handle && readFails settings source current.schema s.world.calls &&
        !(s.accumulator.current.any fun reader => reader.handle == current.handle)) := by
    unfold losesReader
    rw [hphase]
    simp only [hcurrent]
  have hraised := stepped_raised h
  rw [hloses]
  unfold turn next
  simp only [hcurrent]
  unfold read readerNext readFails
  cases ha : s.world.isActive current.handle with
  | false =>
    rw [ha] at hraised
    simpa using hraised
  | true =>
    rw [ha] at hraised
    simp only [if_true, Bool.true_and] at hraised ⊢
    cases hn : source.next s.world.calls with
    | error failure => simpa using hraised
    | ok answer =>
      cases answer with
      | none =>
        simp only [Bool.false_and]
        have hlength : (s.world.active.set current.handle false).length = s.world.active.length := List.length_set
        refine Stepped.of_sound ⟨h.called.close, fun reader hr => (by cases hr), fun reader hr => ?_⟩ (by simp)
        exact hlength ▸ hbefore reader hr
      | some native =>
        simp only
        cases hr : receive settings current.schema native with
        | error error => simpa [Except.isOk, Except.toBool] using hraised
        | ok output =>
          simp only [Except.isOk, Except.toBool, Bool.not_true, Bool.false_and]
          by_cases hempty : output.rowCount = 0
          · rw [if_pos hempty]
            exact Stepped.of_sound ⟨hcurrent ▸ h.called, hknown, hbefore⟩ (by simp)
          · rw [if_neg hempty]
            exact Stepped.of_sound ⟨hcurrent ▸ h.called, hknown⟩ (by simp)

/-- The world after a reader has been opened. -/
theorem opened_only {w : World} (schema : Schema) (h : Only w none) :
    Only { w.called with active := w.active ++ [true] } (some { handle := w.active.length, schema }) := by
  intro handle ha
  have hget : (w.active ++ [true])[handle]? = some true := World.isActive_iff.mp ha
  by_cases hlt : handle < w.active.length
  · rw [List.getElem?_append_left hlt] at hget
    cases h handle (World.isActive_iff.mpr hget)
  · have hle := (List.getElem?_eq_some_iff.mp hget).1
    rw [List.length_append, List.length_singleton] at hle
    have he : w.active.length = handle := by omega
    exact congrArg some he

theorem turn_open {key : String} {files : List String} (h : Only s.world none)
    (hbefore : Known s.world s.accumulator.current) (hphase : s.phase = .running state)
    (hcurrent : state.current = none) (hfiles : state.files = key :: files) :
    Stepped (turn settings source s state).2 (losesReader settings source s .turn) := by
  have hloses : losesReader settings source s .turn = openFails source key s.world.calls := by
    unfold losesReader
    rw [hphase]
    simp only [hcurrent, hfiles]
  have hlength : (s.world.active ++ [true]).length = s.world.active.length + 1 := by simp
  rw [hloses]
  unfold turn next
  simp only [hcurrent, hfiles]
  unfold openStream openFails
  cases ho : source.openReader s.world.calls key with
  | error error => exact stepped_finish h.of_none.called
  | ok fields =>
    simp only
    cases hf : Schema.fromNative fields with
    | error error =>
      simp only [Except.isOk, Except.toBool, Bool.not_false]
      refine stepped_lose (opened_only { fields := [] } h) ?_ ?_
      · rw [World.isActive_iff]
        simp
      · refine Bool.eq_false_iff.mpr fun hany => ?_
        obtain ⟨reader, hreader, he⟩ := Option.any_eq_true _ _ |>.mp hany
        have := hbefore reader hreader
        rw [eq_of_beq he] at this
        exact absurd this (Nat.lt_irrefl _)
    | ok schema =>
      simp only [Except.isOk, Except.toBool, Bool.not_true]
      refine Stepped.of_sound ⟨opened_only schema h, fun reader hr => ?_, fun reader hr => ?_⟩ (by simp)
      · cases hr
        show s.world.active.length < (s.world.active ++ [true]).length
        omega
      · have := hbefore reader hr
        show reader.handle < (s.world.active ++ [true]).length
        omega

theorem turn_list (h : Only s.world none) (hbefore : Known s.world s.accumulator.current)
    (hphase : s.phase = .running state) (hcurrent : state.current = none) (hfiles : state.files = []) :
    Stepped (turn settings source s state).2 (losesReader settings source s .turn) := by
  have hloses : losesReader settings source s .turn = false := by
    unfold losesReader
    rw [hphase]
    simp only [hcurrent, hfiles]
  rw [hloses]
  unfold turn next
  simp only [hcurrent, hfiles]
  cases hplans : state.plans with
  | nil => exact stepped_finish h.of_none
  | cons path plans =>
    simp only
    cases source.list s.world.calls (partitionPrefix settings path) with
    | error error => exact stepped_finish h.of_none.called
    | ok keys => exact Stepped.of_sound ⟨h.called, fun reader hr => (by cases hr), hbefore⟩ (by simp)

variable (settings source) in
theorem turn_stepped (h : Sound s) (hphase : s.phase = .running state) :
    Stepped (turn settings source s state).2 (losesReader settings source s .turn) := by
  unfold Sound at h
  rw [hphase] at h
  obtain ⟨honly, hknown, hbefore⟩ := h
  cases hcurrent : state.current with
  | some current => exact turn_read (hcurrent ▸ honly) hknown hbefore hphase hcurrent
  | none =>
    cases hfiles : state.files with
    | cons key files => exact turn_open (hcurrent ▸ honly) hbefore hphase hcurrent hfiles
    | nil => exact turn_list (hcurrent ▸ honly) hbefore hphase hcurrent hfiles

/-! ## Every run -/

theorem closeStream_sound (h : Sound s) (hphase : s.phase ≠ .ended) :
    Stepped { s with world := closeStream s.world } false := by
  have honly : ∀ current, Only s.world current → Only (closeStream s.world) current := by
    intro current hc
    unfold closeStream
    cases s.world.control with
    | none => exact hc
    | some other => exact hc.closeOther other
  have hknown : ∀ current, Known s.world current → Known (closeStream s.world) current := by
    intro current hc reader hr
    have hlength : (closeStream s.world).active.length = s.world.active.length := by
      unfold closeStream World.closeAny
      cases s.world.control with
      | none => rfl
      | some other => cases other <;> simp [World.close]
    rw [hlength]
    exact hc reader hr
  refine Stepped.of_sound ?_ hphase
  unfold Sound at h ⊢
  cases hp : s.phase with
  | idle =>
    rw [hp] at h
    exact ⟨honly _ h.1, hknown _ h.2⟩
  | running state =>
    rw [hp] at h
    exact ⟨honly _ h.1, hknown _ h.2.1, hknown _ h.2.2⟩
  | ended => exact absurd hp hphase

variable (settings source) in
theorem step_stepped (h : Sound s) (hphase : s.phase ≠ .ended) (e : Event) :
    Stepped (step settings source s e).2 (losesReader settings source s e) := by
  have hsound := h
  unfold Sound at h
  cases hp : s.phase with
  | ended => exact absurd hp hphase
  | idle =>
    rw [hp] at h
    cases e with
    | demand =>
      simp only [step, losesReader, hp]
      exact Stepped.of_sound ⟨h.1, h.2, h.2⟩ (by simp)
    | turn =>
      simp only [step, losesReader, hp]
      exact Stepped.of_sound hsound hphase
    | halt =>
      simp only [step, losesReader, hp]
      exact stepped_finish h.1
    | close =>
      simp only [step, losesReader]
      exact closeStream_sound hsound hphase
  | running state =>
    cases e with
    | turn =>
      have hturn := turn_stepped settings source hsound hp
      simp only [step, hp]
      exact hturn
    | close =>
      simp only [step, losesReader]
      exact closeStream_sound hsound hphase
    | demand =>
      simp only [step, losesReader, hp]
      exact Stepped.of_sound hsound hphase
    | halt =>
      simp only [step, losesReader, hp]
      exact Stepped.of_sound hsound hphase

variable (settings source) in
/-- An enumeration that has ended stays as it is. -/
theorem step_ended (h : Sound s) (hphase : s.phase = .ended) (e : Event) :
    (step settings source s e).2 = s ∧ losesReader settings source s e = false := by
  unfold Sound at h
  rw [hphase] at h
  have hclose : closeStream s.world = s.world := by
    unfold closeStream
    rw [h.2]
  cases e with
  | close =>
    refine ⟨?_, rfl⟩
    show { s with world := closeStream s.world } = s
    rw [hclose]
  | _ => simp [step, losesReader, hphase]

end

variable (settings : Settings) (source : Source)

theorem start_sound (plans : List String) : Sound (start plans) := by
  refine ⟨fun handle ha => ?_, fun reader hr => by cases hr⟩
  have hget := World.isActive_iff.mp ha
  cases hget

/-- The clauses of a run lose no reader. -/
def LosesNone (plans : List String) (events : List Event) : Prop :=
  (machine settings source).Along (fun _ s e => losesReader settings source s e = false) (start plans) events

/-- A state that was reached, and whether the run that led to it lost a reader. -/
structure Released (s : Enumeration) (plans : List String) (events : List Event) : Prop where
  sound : Sound s
  ended : s.phase = .ended → (s.world.openReaders = 0 ↔ LosesNone settings source plans events)
  live : s.phase ≠ .ended → LosesNone settings source plans events

theorem step_released {s : Enumeration} {plans : List String} {events : List Event}
    (hs : (machine settings source).run (start plans) events = s) (h : Released settings source s plans events)
    (e : Event) : Released settings source (step settings source s e).2 plans (events ++ [e]) := by
  have hconcat : LosesNone settings source plans (events ++ [e]) ↔
      LosesNone settings source plans events ∧ losesReader settings source s e = false := by
    unfold LosesNone
    rw [Machine.along_concat, hs]
  by_cases hp : s.phase = .ended
  · obtain ⟨hsame, hloses⟩ := step_ended settings source h.sound hp e
    rw [hsame]
    refine ⟨h.sound, fun _ => ?_, fun he => absurd hp he⟩
    rw [h.ended hp, hconcat, and_iff_left hloses]
  · have hstep := step_stepped settings source h.sound hp e
    refine ⟨hstep.sound, fun he => ?_, fun he => ?_⟩
    · rw [hstep.ended he, hconcat, and_iff_right (h.live hp)]
    · exact hconcat.mpr ⟨h.live hp, hstep.live he⟩

theorem run_released (plans : List String) (events : List Event) :
    Released settings source ((machine settings source).run (start plans) events) plans events := by
  induction events using List.reverseRecOn with
  | nil =>
    refine ⟨start_sound plans, fun he => (by cases he), fun _ before e after he => ?_⟩
    exact absurd he (by simp)
  | append_singleton events e ih =>
    rw [Machine.run_append]
    exact step_released settings source rfl ih e

/-- At any time at most one reader is open; at the end none is, exactly if no clause lost one. -/
theorem readers_released_iff (plans : List String) (events : List Event) :
    let s := (machine settings source).run (start plans) events
    s.world.openReaders ≤ 1 ∧
      (s.phase = .ended → (s.world.openReaders = 0 ↔ LosesNone settings source plans events)) :=
  ⟨(run_released settings source plans events).sound.le_one, (run_released settings source plans events).ended⟩

/-- All rows of the hourly dataset. -/
def allRows : Settings where
  dataset := clockDataset .second
  outputSchema := (clockDataset .second).schema
  from' := 0
  until' := 3600
  predicate := none

/-- One file, which opens and cannot be read. -/
def unreadable : Source where
  list := fun _ pre => .ok [pre ++ "part-0.parquet"]
  openReader := fun _ _ => .ok (clockDataset .second).schema.toNative
  next := fun _ => .error (.new .malformedData .readerNext "Parquet batch decoding failed")

/-- The first demand lists a partition, opens its file and raises over the first batch: the reader stays open. -/
theorem reader_stays_open :
    let events : List Event := [.demand, .turn, .turn, .turn]
    let s := (machine allRows unreadable).run (start ["year=1970/month=1/day=1/hour=0"]) events
    s.phase = .ended ∧ s.world.openReaders = 1 :=
  ⟨rfl, by decide⟩

end DatasetStream

end Parquex
