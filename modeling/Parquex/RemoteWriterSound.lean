import Parquex.RemoteWriter

/-!
# Multipart uploads

What becomes of the upload of a writer, and how much of it the writer holds. An
upload is abandoned when a publish gives it up without a word to the store: the
cancellation overtakes the finish before the completion is answered, or a part
fails. The parts under way are counted once for each write, before its bytes are
put into parts.
-/

namespace Parquex

namespace RemoteState

/-! ## The fate of an upload -/

/-- An inactive writer has completed its upload or asked for its abort. -/
def Settled (s : RemoteState) : Prop := s.writer.active = false → s.completed = true ∨ s.abortRequested = true

/-- A publish is not overtaken before its completion is seen, and none of its parts fails. -/
def Kept (s : RemoteState) (event : RemoteEvent) : Prop :=
  match event, s.phase with
  | .partFailed index _, .finishing upload => upload.tasks.length ≤ index
  | .overtaken _, .finishing _ => s.writer.cancelled = false
  | .overtaken completed, .completing => s.writer.cancelled = true → completed = true
  | _, _ => True

/-- Who holds the upload, and what the store was asked to do with it. -/
def PhaseInv (s : RemoteState) : Prop :=
  let pending := s.completed = false ∧ s.abortRequested = false
  match s.phase with
  | .idle => s.writer.active = s.writer.upload.isSome ∧ (s.writer.active = true → pending)
  | .waiting _ | .filling .. => s.writer.active = true ∧ s.writer.upload.isSome = true ∧ pending
  | .finishing _ | .completing => s.writer.active = true ∧ s.writer.upload = none ∧ pending
  | .undoing _ | .aborting _ => s.writer.active = true ∧ s.writer.upload = none ∧ s.abortRequested = true
  | .heading => s.writer.active = false ∧ s.writer.upload = none ∧ s.completed = true
  | .gone => s.writer.active = false

/-- A step that keeps the invariant, and keeps an upload from being abandoned exactly under a condition. -/
structure StepKeeps (s : RemoteState) (kept : Prop) (s' : RemoteState) : Prop where
  inv : s'.PhaseInv
  settled : s.Settled → (kept ↔ s'.Settled)

section
variable {s : RemoteState} {kept : Prop}

theorem StepKeeps.same (h : s.PhaseInv) : StepKeeps s True s := ⟨h, fun hs => ⟨fun _ => hs, fun _ => trivial⟩⟩

theorem StepKeeps.active {s' : RemoteState} (h : s'.PhaseInv) (ha : s'.writer.active = true) : StepKeeps s True s' := by
  refine ⟨h, fun _ => ⟨fun _ hf => ?_, fun _ => trivial⟩⟩
  rw [ha] at hf
  cases hf

/-- Events that say nothing of a publish under way. -/
theorem kept_of {event : RemoteEvent} (hf : ∀ index kind, event ≠ .partFailed index kind)
    (ho : ∀ completed, event ≠ .overtaken completed) : s.Kept event := by
  unfold Kept
  split
  · exact absurd rfl (hf _ _)
  · exact absurd rfl (ho _)
  · exact absurd rfl (ho _)
  · trivial

/-- A phase in which the invariant says the same. -/
theorem StepKeeps.moved {s' : RemoteState} (h' : s'.PhaseInv) (hw : s'.writer.active = s.writer.active)
    (hf : s'.completed = s.completed ∧ s'.abortRequested = s.abortRequested) : StepKeeps s True s' := by
  refine ⟨h', fun hs => ⟨fun _ ha => ?_, fun _ => trivial⟩⟩
  rw [hf.1, hf.2]
  exact hs (hw.symm.trans ha)

/-- The upload is given up. -/
theorem StepKeeps.lost {s' : RemoteState} (h' : s'.PhaseInv) (hkept : ¬ kept) (ha : s'.writer.active = false)
    (hf : s'.completed = false ∧ s'.abortRequested = false) : StepKeeps s kept s' := by
  refine ⟨h', fun _ => ⟨fun hk => absurd hk hkept, fun hs => ?_⟩⟩
  rcases hs ha with hc | hc
  · rw [hf.1] at hc
    cases hc
  · rw [hf.2] at hc
    cases hc

theorem StepKeeps.of {s' : RemoteState} (hs : StepKeeps s True s') (hkept : kept) : StepKeeps s kept s' :=
  ⟨hs.inv, fun h => ⟨fun _ => (hs.settled h).mp trivial, fun _ => hkept⟩⟩

theorem StepKeeps.asked {s' : RemoteState} (h : s'.PhaseInv) (ha : s'.completed = true ∨ s'.abortRequested = true) :
    StepKeeps s True s' := ⟨h, fun _ => ⟨fun _ _ => ha, fun _ => trivial⟩⟩

end

section
variable {s : RemoteState} (h : s.PhaseInv)
include h

theorem PhaseInv.idle (hp : s.phase = .idle) :
    s.writer.active = s.writer.upload.isSome ∧
      (s.writer.active = true → s.completed = false ∧ s.abortRequested = false) := by
  unfold PhaseInv at h
  rw [hp] at h
  exact h

theorem PhaseInv.writing (hp : (∃ buffer, s.phase = .waiting buffer) ∨ ∃ left length, s.phase = .filling left length) :
    s.writer.active = true ∧ s.writer.upload.isSome = true ∧ s.completed = false ∧ s.abortRequested = false := by
  unfold PhaseInv at h
  rcases hp with ⟨buffer, hp⟩ | ⟨left, length, hp⟩
  all_goals
    rw [hp] at h
    exact h

theorem PhaseInv.publishing (hp : (∃ upload, s.phase = .finishing upload) ∨ s.phase = .completing) :
    s.writer.active = true ∧ s.writer.upload = none ∧ s.completed = false ∧ s.abortRequested = false := by
  unfold PhaseInv at h
  rcases hp with ⟨upload, hp⟩ | hp
  all_goals
    rw [hp] at h
    exact h

theorem PhaseInv.undone (hp : (∃ kind, s.phase = .undoing kind) ∨ ∃ dropping, s.phase = .aborting dropping) :
    s.writer.active = true ∧ s.writer.upload = none ∧ s.abortRequested = true := by
  unfold PhaseInv at h
  rcases hp with ⟨kind, hp⟩ | ⟨dropping, hp⟩
  all_goals
    rw [hp] at h
    exact h

theorem PhaseInv.headed (hp : s.phase = .heading) :
    s.writer.active = false ∧ s.writer.upload = none ∧ s.completed = true := by
  unfold PhaseInv at h
  rw [hp] at h
  exact h

theorem beginWrite_keeps (hp : s.phase = .idle) (buffer : Bytes) : StepKeeps s True (s.beginWrite buffer).2 := by
  have hidle := h.idle hp
  have hfailed : StepKeeps s True s.writeFailed.2 := StepKeeps.moved hidle rfl ⟨rfl, rfl⟩
  unfold beginWrite
  split
  · exact hfailed
  · split
    · exact hfailed
    · rename_i upload hu
      have ha : s.writer.active = true := by rw [hidle.1, hu]; rfl
      exact .active ⟨ha, by simp only [hu, Option.isSome_some], hidle.2 ha⟩ ha

theorem fill_keeps {left : Bytes} {length : Nat} (hp : s.phase = .filling left length) :
    StepKeeps s True (s.fill left length).2 := by
  obtain ⟨ha, hu, hf⟩ := h.writing (Or.inr ⟨left, length, hp⟩)
  unfold fill
  split
  · exact .active ⟨by rw [ha, hu], fun _ => hf⟩ ha
  · exact .same h
  · exact .active ⟨ha, rfl, hf⟩ ha

theorem beginPublish_keeps (hp : s.phase = .idle) : StepKeeps s True s.beginPublish.2 := by
  have hidle := h.idle hp
  unfold beginPublish
  split
  · exact .same h
  · split
    · exact .same h
    · rename_i upload hu
      have ha : s.writer.active = true := by rw [hidle.1, hu]; rfl
      exact .active ⟨ha, rfl, hidle.2 ha⟩ ha

theorem beginAbort_keeps (hp : s.phase = .idle) (dropping : Bool) : StepKeeps s True (s.beginAbort dropping).2 := by
  have hidle := h.idle hp
  unfold beginAbort
  cases ha : s.writer.active with
  | false =>
    simp only [Bool.not_false, if_true]
    cases dropping with
    | false => exact StepKeeps.moved hidle rfl ⟨rfl, rfl⟩
    | true => exact StepKeeps.moved ha rfl ⟨rfl, rfl⟩
  | true =>
    obtain ⟨upload, hu⟩ := Option.isSome_iff_exists.mp (hidle.1.symm.trans ha)
    simp only [hu, Bool.not_true, Bool.false_eq_true, if_false]
    exact .active ⟨ha, rfl, rfl⟩ ha

theorem answer_keeps (result : Except RemoteErrorKind Nat) : StepKeeps s True (s.answer result).2 := by
  unfold answer
  split
  · rename_i hp
    obtain ⟨ha, hu, -⟩ := h.publishing (Or.inr hp)
    split
    · exact .asked ⟨rfl, hu, rfl⟩ (Or.inl rfl)
    · exact .active ⟨ha, hu, rfl⟩ ha
  · rename_i kind hp
    obtain ⟨ha, hu, hf⟩ := h.undone (Or.inl ⟨kind, hp⟩)
    split <;> exact .asked ⟨by simp [hu, finishActive], nofun⟩ (Or.inr hf)
  · rename_i hp
    obtain ⟨ha, hu, hf⟩ := h.headed hp
    split <;> exact .asked ⟨by rw [ha, hu]; rfl, fun hf => absurd hf (by simp [ha])⟩ (Or.inl hf)
  · rename_i dropping hp
    obtain ⟨ha, hu, hf⟩ := h.undone (Or.inr ⟨dropping, hp⟩)
    split
    · exact .asked rfl (Or.inr hf)
    · split <;> exact .asked ⟨by simp [hu, finishActive], nofun⟩ (Or.inr hf)
  · exact .same h

theorem overtake_keeps (completed : Bool) : StepKeeps s (s.Kept (.overtaken completed)) (s.overtake completed).2 := by
  have hkept : (∀ upload, s.phase ≠ .finishing upload) → s.phase ≠ .completing → s.Kept (.overtaken completed) := by
    intro hf hc
    unfold Kept
    split <;> simp_all
  unfold overtake
  cases hc : s.writer.cancelled with
  | false =>
    refine (StepKeeps.same h).of ?_
    unfold Kept
    split <;> simp_all
  | true =>
    simp only [if_true]
    split
    · rename_i buffer hp
      obtain ⟨ha, hu, hf⟩ := h.writing (Or.inl ⟨buffer, hp⟩)
      refine .of ?_ (hkept (by simp [hp]) (by simp [hp]))
      exact .active ⟨ha.trans hu.symm, fun _ => hf⟩ ha
    · rename_i upload hp
      obtain ⟨-, hu, hf⟩ := h.publishing (Or.inl ⟨upload, hp⟩)
      exact .lost ⟨by simp [hu, finishActive], nofun⟩ (by simp [Kept, hp, hc]) rfl hf
    · rename_i hp
      obtain ⟨-, hu, -, hr⟩ := h.publishing (Or.inr hp)
      cases completed with
      | false => exact .lost ⟨by simp [hu, finishActive], nofun⟩ (by simp [Kept, hp, hc]) rfl ⟨rfl, hr⟩
      | true =>
        refine .of ?_ (by simp [Kept, hp])
        exact .asked ⟨by simp [hu, finishActive], nofun⟩ (Or.inl rfl)
    · rename_i kind hp
      obtain ⟨-, hu, hf⟩ := h.undone (Or.inl ⟨kind, hp⟩)
      refine .of ?_ (hkept (by simp [hp]) (by simp [hp]))
      exact .asked ⟨by simp [hu, finishActive], nofun⟩ (Or.inr hf)
    · rename_i hp
      obtain ⟨ha, hu, hf⟩ := h.headed hp
      refine .of ?_ (hkept (by simp [hp]) (by simp [hp]))
      exact .asked ⟨by rw [ha, hu]; rfl, fun hf => absurd hf (by simp [ha])⟩ (Or.inl hf)
    · rename_i hf hc _ _
      exact (StepKeeps.same h).of (hkept hf hc)

theorem joinPart_keeps (index : Nat) : StepKeeps s True (s.joinPart index).2 := by
  have hsome : ∀ f : WriteMultipart → WriteMultipart, (s.writer.upload.map f).isSome = s.writer.upload.isSome :=
    fun f => Option.isSome_map
  have hnone : ∀ f : WriteMultipart → WriteMultipart, s.writer.upload = none → s.writer.upload.map f = none :=
    fun f hu => by rw [hu]; rfl
  unfold joinPart
  cases hp : s.phase with
  | finishing upload => exact StepKeeps.moved (h.publishing (Or.inl ⟨upload, hp⟩)) rfl ⟨rfl, rfl⟩
  | idle =>
    obtain ⟨ha, hf⟩ := h.idle hp
    exact StepKeeps.moved ⟨ha.trans (hsome _).symm, hf⟩ rfl ⟨rfl, rfl⟩
  | waiting buffer =>
    obtain ⟨ha, hu, hf⟩ := h.writing (Or.inl ⟨buffer, hp⟩)
    exact StepKeeps.moved ⟨ha, (hsome _).trans hu, hf⟩ rfl ⟨rfl, rfl⟩
  | filling left length =>
    obtain ⟨ha, hu, hf⟩ := h.writing (Or.inr ⟨left, length, hp⟩)
    exact StepKeeps.moved ⟨ha, (hsome _).trans hu, hf⟩ rfl ⟨rfl, rfl⟩
  | completing =>
    obtain ⟨ha, hu, hf⟩ := h.publishing (Or.inr hp)
    exact StepKeeps.moved ⟨ha, hnone _ hu, hf⟩ rfl ⟨rfl, rfl⟩
  | undoing kind =>
    obtain ⟨ha, hu, hf⟩ := h.undone (Or.inl ⟨kind, hp⟩)
    exact StepKeeps.moved ⟨ha, hnone _ hu, hf⟩ rfl ⟨rfl, rfl⟩
  | aborting dropping =>
    obtain ⟨ha, hu, hf⟩ := h.undone (Or.inr ⟨dropping, hp⟩)
    exact StepKeeps.moved ⟨ha, hnone _ hu, hf⟩ rfl ⟨rfl, rfl⟩
  | heading =>
    obtain ⟨ha, hu, hf⟩ := h.headed hp
    exact StepKeeps.moved ⟨ha, hnone _ hu, hf⟩ rfl ⟨rfl, rfl⟩
  | gone =>
    have ha : s.writer.active = false := by
      unfold PhaseInv at h
      rw [hp] at h
      exact h
    exact StepKeeps.moved ha rfl ⟨rfl, rfl⟩

theorem failPart_keeps (index : Nat) (kind : RemoteErrorKind) :
    StepKeeps s (s.Kept (.partFailed index kind)) (s.failPart index kind).2 := by
  have hsame : (∀ upload, s.phase ≠ .finishing upload) → StepKeeps s (s.Kept (.partFailed index kind)) s := by
    intro hp
    refine (StepKeeps.same h).of ?_
    unfold Kept
    split <;> simp_all
  unfold failPart
  cases hp : s.phase with
  | waiting buffer =>
    simp only
    split
    · obtain ⟨ha, hu, hf⟩ := h.writing (Or.inl ⟨buffer, hp⟩)
      have hjoin : (s.joinPart index).2 = s.put (s.writer.upload.map fun upload =>
          { upload with tasks := upload.tasks.eraseIdx index }) (.waiting buffer) := by
        unfold joinPart
        rw [hp]
      rw [hjoin]
      refine .of ?_ (by simp [Kept, hp])
      exact StepKeeps.moved ⟨ha.trans ((Option.isSome_map).trans hu).symm, fun _ => hf⟩ rfl ⟨rfl, rfl⟩
    · exact hsame (by simp [hp])
  | finishing upload =>
    obtain ⟨-, hu, hf⟩ := h.publishing (Or.inl ⟨upload, hp⟩)
    simp only
    split
    · rename_i hi
      refine .lost ⟨by simp [hu, finishActive], nofun⟩ ?_ rfl hf
      simp [Kept, hp, hi]
    · rename_i hi
      refine .of ?_ (by simp only [Kept, hp]; omega)
      exact StepKeeps.same h
  | _ => exact hsame (by simp [hp])

theorem step_keeps (event : RemoteEvent) : StepKeeps s (s.Kept event) (s.step event).2 := by
  have hsame := StepKeeps.same h
  unfold step
  split
  · rename_i buffer hp
    exact (beginWrite_keeps h hp buffer).of trivial
  · rename_i hp
    exact (beginPublish_keeps h hp).of trivial
  · rename_i hp
    exact (beginAbort_keeps h hp false).of trivial
  · rename_i hp
    exact (beginAbort_keeps h hp true).of trivial
  · -- the death of the owner changes no phase
    refine .of ?_ trivial
    exact .moved h rfl ⟨rfl, rfl⟩
  · rename_i buffer hp
    obtain ⟨ha, hu, hf⟩ := h.writing (Or.inl ⟨buffer, hp⟩)
    split
    · refine .of ?_ trivial
      exact .active ⟨ha, hu, hf⟩ ha
    · exact hsame.of trivial
  · rename_i left length hp
    exact (fill_keeps h hp).of trivial
  · exact (joinPart_keeps h _).of trivial
  · exact failPart_keeps h _ _
  · rename_i upload hp
    obtain ⟨ha, hu, hf⟩ := h.publishing (Or.inl ⟨upload, hp⟩)
    split
    · refine .of ?_ trivial
      exact .active ⟨ha, hu, hf⟩ ha
    · exact hsame.of trivial
  · exact (answer_keeps h _).of trivial
  · exact overtake_keeps h _
  · rename_i hf _ _ ho
    exact hsame.of (kept_of (fun index kind he => by simp_all) fun completed he => by simp_all)

end

theorem opened_inv (limits : S3Limits) (key : String) : (opened limits key).PhaseInv := ⟨rfl, fun _ => ⟨rfl, rfl⟩⟩

end RemoteState

/-- No upload is abandoned exactly as long as no publish gives one up. -/
theorem uploads_settled_iff (limits : S3Limits) (key : String) (events : List RemoteEvent) :
    (∀ before after, events = before ++ after →
      (RemoteState.machine.run (RemoteState.opened limits key) before).Settled) ↔
    RemoteState.machine.Along (fun _ s event => s.Kept event) (RemoteState.opened limits key) events := by
  have hinv : ∀ before, (RemoteState.machine.run (RemoteState.opened limits key) before).PhaseInv := fun before =>
    RemoteState.machine.run_inv (RemoteState.opened_inv limits key)
      (fun _ event h => (RemoteState.step_keeps h event).inv) before
  constructor
  · intro h before event after he
    have hs := h before (event :: after) he
    have hs' := h (before ++ [event]) after (by rw [he, List.append_assoc, List.singleton_append])
    rw [Machine.run_append] at hs'
    exact ((RemoteState.step_keeps (hinv before) event).settled hs).mpr hs'
  · rintro h before after rfl
    refine (h.left.inv (I := fun _ s => s.PhaseInv ∧ s.Settled) ⟨RemoteState.opened_inv limits key, nofun⟩ ?_).2
    rintro - s event hk ⟨hi, hs⟩
    exact ⟨(RemoteState.step_keeps hi event).inv, ((RemoteState.step_keeps hi event).settled hs).mp hk⟩

theorem smallPart_bounds : 5 * 1024 * 1024 ≤ 5 * 1024 * 1024 ∧ 5 * 1024 * 1024 ≤ 512 * 1024 * 1024 := by decide

theorem onePart_bounds : 1 ≤ 1 ∧ 1 ≤ 16 := by decide

/-- The smallest limits of a store. -/
def smallLimits : S3Limits := ⟨5 * 1024 * 1024, 1, smallPart_bounds, onePart_bounds⟩

/-- The owner dies while its publish waits for the part; the abort that follows finds an inactive writer. -/
theorem dead_owner_abandons_upload :
    ¬ (RemoteState.machine.run (RemoteState.opened smallLimits "k")
      [.write [1], .capacity, .copy, .copy, .publish, .cancel, .overtaken false, .abort]).Settled := by
  intro h
  exact absurd (h (by decide)) (by decide)

/-! ## What a writer holds -/

namespace RemoteState

/-- A write that goes on, the progress of a write, or the end of a part. -/
def Uploading : RemoteEvent → Prop
  | .write _ | .capacity | .copy | .partDone _ => True
  | _ => False

/-- The buffers that writes were given. -/
def passed : RemoteEvent × RemoteReply → Option Bytes
  | (.write buffer, .running) => some buffer
  | _ => none

/-- The parts under way and the bytes held with them are within the limits. -/
def Bounded (s : RemoteState) : Prop :=
  ∀ upload, s.writer.upload = some upload →
    upload.tasks.length ≤ s.writer.limits.maxInFlightParts ∧
      upload.tasks.flatten.length + upload.buffer.length ≤ s.writer.limits.multipartBufferLimitBytes

end RemoteState

/-- The length of the partial part, and how many parts may be under way. -/
structure Load where
  rest : Nat
  inFlight : Nat

/-- A write waits until one more part may start, and fills as many as its buffer makes. -/
def Load.write (limits : S3Limits) (load : Load) (length : Nat) : Load where
  rest := (load.rest + length) % limits.multipartPartSize
  inFlight := min load.inFlight (limits.maxInFlightParts - 1) + (load.rest + length) / limits.multipartPartSize

def loadAfter (limits : S3Limits) (lengths : List Nat) : Load := lengths.foldl (Load.write limits) ⟨0, 0⟩

theorem loadAfter_concat (limits : S3Limits) (lengths : List Nat) (length : Nat) :
    loadAfter limits (lengths ++ [length]) = (loadAfter limits lengths).write limits length := by
  simp only [loadAfter, List.foldl_append, List.foldl_cons, List.foldl_nil]

/-- No buffer makes more parts than there is room for when no part finishes before it has to. -/
def Fits (limits : S3Limits) (lengths : List Nat) : Prop :=
  ∀ before after, lengths = before ++ after → (loadAfter limits before).inFlight ≤ limits.maxInFlightParts

theorem Fits.left {limits : S3Limits} {before after : List Nat} (h : Fits limits (before ++ after)) :
    Fits limits before := by
  intro lengths later he
  exact h lengths (later ++ after) (by rw [he, List.append_assoc])

namespace RemoteState

section
variable {limits : S3Limits} {s : RemoteState} {upload : WriteMultipart} {phase : RemotePhase}

/-- A live writer in some phase of a write, with parts of full size under way. -/
structure At (limits : S3Limits) (upload : WriteMultipart) (phase : RemotePhase) (s : RemoteState) : Prop where
  limits_eq : s.writer.limits = limits
  upload_eq : s.writer.upload = some upload
  phase_eq : s.phase = phase
  live : s.writer.cancelled = false
  full : ∀ part ∈ upload.tasks, part.length = limits.multipartPartSize
  open_part : upload.buffer.length < limits.multipartPartSize

theorem partSize_pos (limits : S3Limits) : 0 < limits.multipartPartSize := by
  have := limits.partSize_bounds.1
  omega

theorem At.write (h : At limits upload .idle s) (buffer : Bytes) :
    (s.step (.write buffer)).1 = .running ∧ At limits upload (.waiting buffer) (s.step (.write buffer)).2 := by
  have hs : s.step (.write buffer) = (.running, { s with phase := .waiting buffer }) := by
    unfold step
    simp only [h.phase_eq, beginWrite, h.live, h.upload_eq, Bool.false_eq_true, if_false]
  rw [hs]
  exact ⟨rfl, h.limits_eq, h.upload_eq, rfl, h.live, h.full, h.open_part⟩

theorem At.capacity {buffer : Bytes} (h : At limits upload (.waiting buffer) s)
    (hc : upload.tasks.length < limits.maxInFlightParts) :
    At limits upload (.filling buffer buffer.length) (s.step .capacity).2 := by
  have hs : s.step .capacity = (.running, { s with phase := .filling buffer buffer.length }) := by
    unfold step
    simp only [h.phase_eq, h.upload_eq, h.limits_eq, Option.elim_some, hc, if_true]
  rw [hs]
  exact ⟨h.limits_eq, h.upload_eq, rfl, h.live, h.full, h.open_part⟩

theorem At.copied {length : Nat} (h : At limits upload (.filling [] length) s) :
    At limits upload .idle (s.step .copy).2 := by
  have hs : (s.step .copy).2 =
      { s with writer := { s.writer with bytesWritten := s.writer.bytesWritten + length }, phase := .idle } := by
    unfold step
    simp only [h.phase_eq, fill]
  rw [hs]
  exact ⟨h.limits_eq, h.upload_eq, rfl, h.live, h.full, h.open_part⟩

/-- A round of the loop moves bytes: what is left of the buffer, and the parts it still makes, add up. -/
theorem At.copy {left : Bytes} {length : Nat} (h : At limits upload (.filling left length) s) (hl : left ≠ []) :
    ∃ upload' left', At limits upload' (.filling left' length) (s.step .copy).2 ∧ left'.length < left.length ∧
      (upload'.buffer.length + left'.length) % limits.multipartPartSize =
        (upload.buffer.length + left.length) % limits.multipartPartSize ∧
      upload'.tasks.length + (upload'.buffer.length + left'.length) / limits.multipartPartSize =
        upload.tasks.length + (upload.buffer.length + left.length) / limits.multipartPartSize := by
  have hb := h.open_part
  have hpos := partSize_pos limits
  have hs : (s.step .copy).2 = s.put (some (upload.copy limits.multipartPartSize left).1)
      (.filling (upload.copy limits.multipartPartSize left).2 length) := by
    unfold step
    simp only [h.phase_eq]
    cases left with
    | nil => exact absurd rfl hl
    | cons byte rest =>
      simp only [fill, h.upload_eq, h.limits_eq]
  rw [hs]
  have hlength : 0 < left.length := List.length_pos_iff.mpr hl
  unfold WriteMultipart.copy
  by_cases hc : min left.length (limits.multipartPartSize - upload.buffer.length) =
      limits.multipartPartSize - upload.buffer.length
  · -- a part is full
    have hle : limits.multipartPartSize - upload.buffer.length ≤ left.length := by omega
    have hsum : upload.buffer.length + left.length =
        (left.length - (limits.multipartPartSize - upload.buffer.length)) + limits.multipartPartSize := by omega
    simp only [hc, if_true]
    refine ⟨_, _, ⟨h.limits_eq, rfl, rfl, h.live, ?_, hpos⟩, ?_, ?_, ?_⟩
    · intro part hm
      rcases List.mem_append.mp hm with hm | hm
      · exact h.full part hm
      · rw [List.mem_singleton.mp hm, List.length_append, List.length_take, Nat.min_eq_left hle]
        omega
    · rw [List.length_drop]
      omega
    · rw [hsum, Nat.add_mod_right, List.length_nil, Nat.zero_add, List.length_drop]
    · rw [hsum, Nat.add_div_right _ hpos, List.length_nil, Nat.zero_add, List.length_drop, List.length_append,
        List.length_singleton]
      omega
  · -- the buffer ends within the part
    have hlt : left.length < limits.multipartPartSize - upload.buffer.length := by omega
    have hmin : min left.length (limits.multipartPartSize - upload.buffer.length) = left.length := by omega
    have hne : ¬ left.length = limits.multipartPartSize - upload.buffer.length := by omega
    simp only [hmin, hne, if_false, List.take_length, List.drop_length]
    refine ⟨_, _, ⟨h.limits_eq, rfl, rfl, h.live, h.full, ?_⟩, ?_, ?_, ?_⟩
    · rw [List.length_append]
      omega
    · exact hlength
    · rw [List.length_append, List.length_nil, Nat.add_zero]
    · rw [List.length_append, List.length_nil, Nat.add_zero]

theorem At.partDone (h : At limits upload phase s) (hp : ∀ upload, phase ≠ .finishing upload) (index : Nat) :
    At limits { upload with tasks := upload.tasks.eraseIdx index } phase (s.step (.partDone index)).2 := by
  have hs : (s.step (.partDone index)).2 = s.put (some { upload with tasks := upload.tasks.eraseIdx index }) s.phase := by
    have hn : ∀ upload, s.phase ≠ .finishing upload := fun upload => by rw [h.phase_eq]; exact hp upload
    unfold step
    simp only [joinPart]
    rw [h.upload_eq]
    rfl
  rw [hs]
  exact ⟨h.limits_eq, rfl, h.phase_eq, h.live, fun part hm => h.full part (List.mem_of_mem_eraseIdx hm), h.open_part⟩

/-! ### Every run -/

/-- The writer holds no more than the buffers passed so far make when no part finishes early. -/
inductive Holds (limits : S3Limits) : List Bytes → RemoteState → Prop
  | idle {buffers : List Bytes} {upload : WriteMultipart} {s : RemoteState} (at_idle : At limits upload .idle s)
    (rest : upload.buffer.length = (loadAfter limits (buffers.map List.length)).rest)
    (room : upload.tasks.length ≤ (loadAfter limits (buffers.map List.length)).inFlight) : Holds limits buffers s
  | waiting {buffers : List Bytes} {buffer : Bytes} {upload : WriteMultipart} {s : RemoteState}
    (at_waiting : At limits upload (.waiting buffer) s)
    (rest : upload.buffer.length = (loadAfter limits (buffers.map List.length)).rest)
    (room : upload.tasks.length ≤ (loadAfter limits (buffers.map List.length)).inFlight) :
    Holds limits (buffers ++ [buffer]) s
  | filling {buffers : List Bytes} {left : Bytes} {length : Nat} {upload : WriteMultipart} {s : RemoteState}
    (at_filling : At limits upload (.filling left length) s)
    (rest : (upload.buffer.length + left.length) % limits.multipartPartSize =
      (loadAfter limits (buffers.map List.length)).rest)
    (room : upload.tasks.length + (upload.buffer.length + left.length) / limits.multipartPartSize ≤
      (loadAfter limits (buffers.map List.length)).inFlight) : Holds limits buffers s

theorem loadAfter_buffers (buffers : List Bytes) (buffer : Bytes) :
    loadAfter limits ((buffers ++ [buffer]).map List.length) =
      (loadAfter limits (buffers.map List.length)).write limits buffer.length := by
  rw [List.map_append]
  exact loadAfter_concat limits _ _

/-- A step that is not allowed. -/
theorem Holds.blocked {buffers : List Bytes} {event : RemoteEvent} (h : Holds limits buffers s)
    (hs : s.step event = (.blocked, s)) :
    Holds limits (buffers ++ (passed (event, (s.step event).1)).toList) (s.step event).2 := by
  rw [hs]
  have hn : passed (event, .blocked) = none := by cases event <;> rfl
  rw [hn, Option.toList_none, List.append_nil]
  exact h

theorem Holds.partDone {buffers : List Bytes} (h : Holds limits buffers s) (index : Nat) :
    Holds limits buffers (s.step (.partDone index)).2 := by
  have hle : ∀ upload : WriteMultipart, (upload.tasks.eraseIdx index).length ≤ upload.tasks.length :=
    fun upload => List.length_eraseIdx_le _ _
  cases h with
  | idle h rest room => exact .idle (h.partDone nofun index) rest (Nat.le_trans (hle _) room)
  | waiting h rest room => exact .waiting (h.partDone nofun index) rest (Nat.le_trans (hle _) room)
  | filling h rest room =>
    exact .filling (h.partDone nofun index) rest (Nat.le_trans (Nat.add_le_add_right (hle _) _) room)

theorem Holds.step {buffers : List Bytes} {event : RemoteEvent} (h : Holds limits buffers s) (he : Uploading event) :
    Holds limits (buffers ++ (passed (event, (s.step event).1)).toList) (s.step event).2 := by
  have hnone : ∀ event reply, (∀ buffer, event ≠ .write buffer) → (passed (event, reply)).toList = [] := by
    intro event reply hw
    cases event <;> first | rfl | exact absurd rfl (hw _)
  cases event with
  | partDone index =>
    rw [hnone (.partDone index) _ nofun, List.append_nil]
    exact h.partDone index
  | write buffer =>
    cases h with
    | idle h rest room =>
      obtain ⟨hr, hs⟩ := h.write buffer
      rw [hr]
      exact .waiting hs rest room
    | waiting h' rest room =>
      exact Holds.blocked (.waiting h' rest room) (by unfold RemoteState.step; rw [h'.phase_eq])
    | filling h' rest room =>
      exact Holds.blocked (.filling h' rest room) (by unfold RemoteState.step; rw [h'.phase_eq])
  | capacity =>
    cases h with
    | idle h' rest room =>
      exact Holds.blocked (.idle h' rest room) (by unfold RemoteState.step; rw [h'.phase_eq])
    | filling h' rest room =>
      exact Holds.blocked (.filling h' rest room) (by unfold RemoteState.step; rw [h'.phase_eq])
    | @waiting buffers buffer upload s h' rest room =>
      by_cases hc : upload.tasks.length < limits.maxInFlightParts
      · rw [hnone .capacity _ nofun, List.append_nil]
        refine .filling (h'.capacity hc) ?_ ?_
        · rw [loadAfter_buffers, Load.write, rest]
        · rw [loadAfter_buffers, Load.write, rest]
          exact Nat.add_le_add_right (by omega) _
      · refine Holds.blocked (.waiting h' rest room) ?_
        unfold RemoteState.step
        simp only [h'.phase_eq, h'.upload_eq, h'.limits_eq, Option.elim_some, hc, if_false]
  | copy =>
    cases h with
    | idle h' rest room =>
      exact Holds.blocked (.idle h' rest room) (by unfold RemoteState.step; rw [h'.phase_eq])
    | waiting h' rest room =>
      exact Holds.blocked (.waiting h' rest room) (by unfold RemoteState.step; rw [h'.phase_eq])
    | @filling buffers left length upload s h' rest room =>
      rw [hnone .copy _ nofun, List.append_nil]
      by_cases hl : left = []
      · subst hl
        have hmod := Nat.mod_eq_of_lt h'.open_part
        rw [List.length_nil, Nat.add_zero] at rest room
        exact .idle h'.copied (hmod.symm.trans rest) (Nat.le_trans (Nat.le_add_right _ _) room)
      · obtain ⟨upload', left', hs, -, hmod, hdiv⟩ := h'.copy hl
        exact .filling hs (hmod.trans rest) (Nat.le_trans (Nat.le_of_eq hdiv) room)
  | _ => exact he.elim

theorem At.bounded (h : At limits upload phase s) (hm : upload.tasks.length ≤ limits.maxInFlightParts) : s.Bounded := by
  have hsum : ∀ tasks : List Bytes, (∀ part ∈ tasks, part.length = limits.multipartPartSize) →
      tasks.flatten.length = tasks.length * limits.multipartPartSize := by
    intro tasks hfull
    induction tasks with
    | nil => simp
    | cons part tasks ih =>
      rw [List.flatten_cons, List.length_append, hfull part (by simp), ih fun p hp => hfull p (by simp [hp]),
        List.length_cons, Nat.add_mul, Nat.one_mul, Nat.add_comm]
  intro upload' hu
  rw [h.upload_eq] at hu
  obtain rfl := Option.some.inj hu
  rw [h.limits_eq]
  refine ⟨hm, ?_⟩
  have hmul := Nat.mul_le_mul_right limits.multipartPartSize hm
  have hopen := h.open_part
  rw [limits.multipartBufferLimitBytes_eq, hsum _ h.full, Nat.add_mul, Nat.one_mul]
  omega

theorem Holds.bounded {buffers : List Bytes} (h : Holds limits buffers s) (hf : Fits limits (buffers.map List.length)) :
    s.Bounded := by
  cases h with
  | idle h rest room => exact h.bounded (Nat.le_trans room (hf _ [] (by simp)))
  | waiting h rest room => exact h.bounded (Nat.le_trans room (hf _ _ List.map_append))
  | filling h rest room => exact h.bounded (Nat.le_trans (Nat.le_add_right _ _) (Nat.le_trans room (hf _ [] (by simp))))

/-! ### The run in which no part finishes early -/

theorem passed_none (s : RemoteState) {events : List RemoteEvent} (h : ∀ event ∈ events, ∀ buffer, event ≠ .write buffer) :
    (machine.trace s events).filterMap passed = [] := by
  induction events generalizing s with
  | nil => rfl
  | cons event events ih =>
    have hn : passed (event, (machine.step s event).1) = none := by
      have := h event (by simp)
      cases event <;> first | rfl | exact absurd rfl (this _)
    rw [Machine.trace, List.filterMap_cons, hn]
    exact ih _ fun e he => h e (by simp [he])

/-- Parts finish until there is room. -/
theorem At.drain {buffer : Bytes} (h : At limits upload (.waiting buffer) s) (room : Nat) :
    ∃ n upload', At limits upload' (.waiting buffer) (machine.run s (List.replicate n (.partDone 0))) ∧
      upload'.buffer = upload.buffer ∧ upload'.tasks.length = min upload.tasks.length room := by
  induction hn : upload.tasks.length generalizing upload s with
  | zero => exact ⟨0, upload, h, rfl, by omega⟩
  | succ n ih =>
    by_cases hr : upload.tasks.length ≤ room
    · exact ⟨0, upload, h, rfl, by omega⟩
    · have hlength : (upload.tasks.eraseIdx 0).length = n := by
        rw [List.length_eraseIdx_of_lt (by omega), hn]
        rfl
      obtain ⟨m, upload', hs, hb, ht⟩ := ih (h.partDone nofun 0) hlength
      refine ⟨m + 1, upload', hs, hb, ?_⟩
      rw [ht]
      omega

theorem At.fillAll {left : Bytes} {length : Nat} (h : At limits upload (.filling left length) s) :
    ∃ n upload', At limits upload' .idle (machine.run s (List.replicate n .copy)) ∧
      upload'.buffer.length = (upload.buffer.length + left.length) % limits.multipartPartSize ∧
      upload'.tasks.length =
        upload.tasks.length + (upload.buffer.length + left.length) / limits.multipartPartSize := by
  induction hn : left.length using Nat.strongRecOn generalizing left upload s with
  | ind n ih =>
    by_cases hl : left = []
    · subst hl
      rw [List.length_nil] at hn
      subst hn
      refine ⟨1, upload, h.copied, ?_, ?_⟩
      · rw [Nat.add_zero, Nat.mod_eq_of_lt h.open_part]
      · rw [Nat.add_zero, Nat.div_eq_of_lt h.open_part, Nat.add_zero]
    · obtain ⟨upload₁, left₁, hs, hlt, hmod, hdiv⟩ := h.copy hl
      obtain ⟨m, upload', hs', hb, ht⟩ := ih left₁.length (by omega) hs rfl
      rw [hn] at hmod hdiv
      exact ⟨m + 1, upload', hs', hb.trans hmod, ht.trans hdiv⟩

/-- An idle writer that holds as much as its buffers can make it hold. -/
def Full (limits : S3Limits) (buffers : List Bytes) (s : RemoteState) : Prop :=
  ∃ upload, At limits upload .idle s ∧
    upload.buffer.length = (loadAfter limits (buffers.map List.length)).rest ∧
    upload.tasks.length = (loadAfter limits (buffers.map List.length)).inFlight

theorem Full.write {buffers : List Bytes} (h : Full limits buffers s) (buffer : Bytes) :
    ∃ events, (∀ event ∈ events, Uploading event) ∧ (machine.trace s events).filterMap passed = [buffer] ∧
      Full limits (buffers ++ [buffer]) (machine.run s events) := by
  obtain ⟨upload, h, hrest, hroom⟩ := h
  obtain ⟨hreply, hwaiting⟩ := h.write buffer
  obtain ⟨n, upload₁, hdrained, hbuffer, htasks⟩ := hwaiting.drain (limits.maxInFlightParts - 1)
  have hlt : upload₁.tasks.length < limits.maxInFlightParts := by
    have := limits.inFlight_bounds.1
    omega
  obtain ⟨m, upload₂, hidle, hb, ht⟩ := (hdrained.capacity hlt).fillAll
  refine ⟨.write buffer :: (List.replicate n (.partDone 0) ++ .capacity :: List.replicate m .copy), ?_, ?_, ?_⟩
  · intro event he
    rcases List.mem_cons.mp he with rfl | he
    · trivial
    · rcases List.mem_append.mp he with he | he
      · rw [List.eq_of_mem_replicate he]
        trivial
      · rcases List.mem_cons.mp he with rfl | he
        · trivial
        · rw [List.eq_of_mem_replicate he]
          trivial
  · have hone : passed (.write buffer, (machine.step s (.write buffer)).1) = some buffer := by
      change passed (.write buffer, (s.step (.write buffer)).1) = some buffer
      rw [hreply]
      rfl
    rw [Machine.trace, List.filterMap_cons, hone, passed_none]
    intro event he buffer'
    rcases List.mem_append.mp he with he | he
    · rw [List.eq_of_mem_replicate he]
      exact RemoteEvent.noConfusion
    · rcases List.mem_cons.mp he with rfl | he
      · exact RemoteEvent.noConfusion
      · rw [List.eq_of_mem_replicate he]
        exact RemoteEvent.noConfusion
  · refine ⟨upload₂, ?_, ?_, ?_⟩
    · rw [Machine.run, Machine.run_append]
      exact hidle
    · rw [loadAfter_buffers, Load.write, hb, hbuffer, hrest]
    · rw [loadAfter_buffers, Load.write, ht, htasks, hbuffer, hrest, hroom]

theorem Full.writes {buffers : List Bytes} (h : Full limits buffers s) (later : List Bytes) :
    ∃ events, (∀ event ∈ events, Uploading event) ∧ (machine.trace s events).filterMap passed = later ∧
      Full limits (buffers ++ later) (machine.run s events) := by
  induction later generalizing buffers s with
  | nil => exact ⟨[], nofun, rfl, by rw [List.append_nil]; exact h⟩
  | cons buffer later ih =>
    obtain ⟨events₁, hup₁, hpassed₁, hfull₁⟩ := h.write buffer
    obtain ⟨events₂, hup₂, hpassed₂, hfull₂⟩ := ih hfull₁
    refine ⟨events₁ ++ events₂, ?_, ?_, ?_⟩
    · intro event he
      rcases List.mem_append.mp he with he | he
      · exact hup₁ event he
      · exact hup₂ event he
    · rw [Machine.trace_append, List.filterMap_append, hpassed₁, hpassed₂, List.singleton_append]
    · rw [Machine.run_append]
      rw [List.append_assoc] at hfull₂
      exact hfull₂

end

end RemoteState

/-- A writer stays within its limits, however its parts finish, exactly when each buffer fits. -/
theorem multipart_bounded_iff (limits : S3Limits) (key : String) (buffers : List Bytes) :
    (∀ events, (∀ event ∈ events, RemoteState.Uploading event) →
      (RemoteState.machine.trace (RemoteState.opened limits key) events).filterMap RemoteState.passed = buffers →
      ∀ before after, events = before ++ after →
        (RemoteState.machine.run (RemoteState.opened limits key) before).Bounded) ↔
    Fits limits (buffers.map List.length) := by
  have hopened : RemoteState.At limits ⟨[], []⟩ .idle (RemoteState.opened limits key) :=
    ⟨rfl, rfl, rfl, rfl, nofun, RemoteState.partSize_pos limits⟩
  constructor
  · intro h lengths₁ lengths₂ he
    obtain ⟨before, after, rfl, rfl, rfl⟩ := List.map_eq_append_iff.mp he
    have hempty : RemoteState.Full limits [] (RemoteState.opened limits key) := ⟨_, hopened, rfl, rfl⟩
    obtain ⟨events₁, hup₁, hpassed₁, hfull₁⟩ := hempty.writes before
    obtain ⟨events₂, hup₂, hpassed₂, -⟩ := hfull₁.writes after
    have hbounded := h (events₁ ++ events₂) (fun event hm => (List.mem_append.mp hm).elim (hup₁ event) (hup₂ event))
      (by rw [Machine.trace_append, List.filterMap_append, hpassed₁, hpassed₂]) events₁ events₂ rfl
    obtain ⟨upload, hat, -, htasks⟩ := hfull₁
    have hle := (hbounded upload hat.upload_eq).1
    rw [htasks, hat.limits_eq] at hle
    exact hle
  · intro hfits events hup hpassed before after he
    have hholds : RemoteState.Holds limits
        ((RemoteState.machine.trace (RemoteState.opened limits key) before).filterMap RemoteState.passed)
        (RemoteState.machine.run (RemoteState.opened limits key) before) := by
      refine RemoteState.machine.trace_inv_of (P := RemoteState.Uploading)
        (I := fun history s => RemoteState.Holds limits (history.filterMap RemoteState.passed) s) ?_ ?_ ?_
      · exact .idle hopened rfl (Nat.le_refl 0)
      · intro history s event hevent hs
        have hone : [(event, (RemoteState.machine.step s event).1)].filterMap RemoteState.passed =
            (RemoteState.passed (event, (s.step event).1)).toList := by
          change List.filterMap RemoteState.passed [(event, (s.step event).1)] = _
          rw [List.filterMap_cons]
          cases RemoteState.passed (event, (s.step event).1) <;> rfl
        rw [List.filterMap_append, hone]
        exact hs.step hevent
      · exact fun event hm => hup event (by rw [he]; exact List.mem_append_left _ hm)
    rw [← hpassed, he, Machine.trace_append, List.filterMap_append, List.map_append] at hfits
    exact hholds.bounded hfits.left

/-- Buffers of at most one part always fit. -/
theorem fits_of_parts (limits : S3Limits) {lengths : List Nat}
    (h : ∀ length ∈ lengths, length ≤ limits.multipartPartSize) : Fits limits lengths := by
  have hpos := RemoteState.partSize_pos limits
  have hmin := limits.inFlight_bounds.1
  have hload : ∀ before : List Nat, (∀ length ∈ before, length ≤ limits.multipartPartSize) →
      (loadAfter limits before).rest < limits.multipartPartSize ∧
        (loadAfter limits before).inFlight ≤ limits.maxInFlightParts := by
    intro before hb
    induction before using List.reverseRecOn with
    | nil => exact ⟨hpos, Nat.zero_le _⟩
    | append_singleton before length ih =>
      obtain ⟨hrest, -⟩ := ih fun l hl => hb l (by simp [hl])
      have hlength := hb length (by simp)
      have hone : ((loadAfter limits before).rest + length) / limits.multipartPartSize < 2 :=
        Nat.div_lt_of_lt_mul (by omega)
      rw [loadAfter_concat, Load.write]
      refine ⟨Nat.mod_lt _ hpos, ?_⟩
      dsimp only
      omega
  intro before after he
  exact (hload before fun length hl => h length (by rw [he]; exact List.mem_append_left _ hl)).2

/-- One write of two parts, in a store that allows one in flight. -/
theorem large_buffer_exceeds :
    ∃ events, (∀ event ∈ events, RemoteState.Uploading event) ∧
      (RemoteState.machine.trace (RemoteState.opened smallLimits "k") events).filterMap RemoteState.passed =
        [List.replicate (2 * (5 * 1024 * 1024)) 0] ∧
      ¬ (RemoteState.machine.run (RemoteState.opened smallLimits "k") events).Bounded := by
  have hempty : RemoteState.Full smallLimits [] (RemoteState.opened smallLimits "k") :=
    ⟨_, ⟨rfl, rfl, rfl, rfl, nofun, RemoteState.partSize_pos smallLimits⟩, rfl, rfl⟩
  obtain ⟨events, hup, hpassed, upload, hat, -, htasks⟩ := hempty.writes [List.replicate (2 * (5 * 1024 * 1024)) 0]
  refine ⟨events, hup, hpassed, fun hbounded => ?_⟩
  have hle := (hbounded upload hat.upload_eq).1
  rw [htasks, hat.limits_eq, List.nil_append, List.map_cons, List.length_replicate] at hle
  exact absurd hle (by decide)

end Parquex
