import Parquex.RemotePublication

/-!
# Remote publication

A store that is only written through its multipart writers and deletes behaves as
a map from keys to contents. A completion that the service carries out replaces the
content of one key by the chunks that its writer accepted, however they were cut
into parts and whatever order the parts came in; a delete removes one key; nothing
else changes an object.
-/

namespace Parquex

namespace RemoteState

/-! ## The bytes of one upload -/

/-- The bytes handed over, those of the partial part and those of a running write are the ones that were written. -/
def Carries (accepted chunk : Bytes) (parts : List Bytes) (phase : RemotePhase) (rest : Option Bytes) : Prop :=
  match phase, rest with
  | .waiting buffer, some rest => buffer = chunk ∧ parts.flatten ++ rest = accepted
  | .filling left _, some rest => parts.flatten ++ rest ++ left = accepted ++ chunk
  | .finishing _, _ | .completing, _ => parts.flatten = accepted
  | _, some rest => parts.flatten ++ rest = accepted
  | _, none => True

/-- All parts are full but the last one, which is not empty. -/
def Sized (size : Nat) (parts : List Bytes) (rest : Option Bytes) : Prop :=
  match rest with
  | some rest => (∀ part ∈ parts, part.length = size) ∧ rest.length < size
  | none => (∀ part ∈ parts.dropLast, part.length = size) ∧ ∀ part ∈ parts.getLast?, part ≠ [] ∧ part.length ≤ size

def rest (s : RemoteState) : Option Bytes := s.writer.upload.map WriteMultipart.buffer

structure Uploads (limits : S3Limits) (accepted chunk : Bytes) (parts : List Bytes) (s : RemoteState) : Prop where
  limits_eq : s.writer.limits = limits
  carries : Carries accepted chunk parts s.phase s.rest
  sized : Sized limits.multipartPartSize parts s.rest

/-- What its callers know of a writer after an event. -/
def told (event : RemoteEvent) (reply : RemoteReply) (known : Bytes × Bytes) : Bytes × Bytes :=
  let heard :=
    match event with
    | .write chunk => (known.1, chunk)
    | _ => known
  match reply with
  | .blocked => known
  | .written _ => (heard.1 ++ heard.2, heard.2)
  | _ => heard

/-- The phases of a writer whose upload is at rest or no longer its own. -/
def Quiet : RemotePhase → Prop
  | .waiting _ | .filling .. | .finishing _ | .completing => False
  | _ => True

theorem Carries.quiet {accepted chunk chunk' : Bytes} {parts : List Bytes} {phase : RemotePhase} {rest : Option Bytes}
    (h : Carries accepted chunk parts .idle rest) (hq : Quiet phase) : Carries accepted chunk' parts phase rest := by
  cases rest <;> cases phase <;> first | exact h | trivial

theorem carries_none {accepted chunk : Bytes} {parts : List Bytes} {phase : RemotePhase} (hq : Quiet phase) :
    Carries accepted chunk parts phase none := by
  cases phase <;> trivial

theorem sized_full {size : Nat} (hpos : 0 < size) {parts : List Bytes} (h : ∀ part ∈ parts, part.length = size) :
    Sized size parts none := by
  refine ⟨fun part hm => h part (List.dropLast_subset _ hm), fun part hm => ?_⟩
  have hlength := h part (List.mem_of_mem_getLast? hm)
  refine ⟨fun hnil => ?_, hlength.le⟩
  rw [hnil, List.length_nil] at hlength
  omega

/-- The last part of an upload is what is left in its buffer. -/
theorem Sized.flushed {size : Nat} (hpos : 0 < size) {parts : List Bytes} {upload : WriteMultipart}
    (h : Sized size parts (some upload.buffer)) :
    Sized size (parts ++ upload.flushed.tasks.drop upload.tasks.length) none ∧
      (parts ++ upload.flushed.tasks.drop upload.tasks.length).flatten = parts.flatten ++ upload.buffer := by
  unfold WriteMultipart.flushed
  by_cases hb : upload.buffer = []
  · simp only [hb, if_true, List.drop_length, List.append_nil]
    exact ⟨sized_full hpos h.1, trivial⟩
  · simp only [hb, if_false, List.drop_left]
    refine ⟨⟨fun part hm => h.1 part ?_, fun part hm => ?_⟩, by simp⟩
    · rwa [List.dropLast_concat] at hm
    · rw [List.getLast?_concat, Option.mem_def, Option.some.injEq] at hm
      rw [← hm]
      exact ⟨hb, h.2.le⟩

/-- One round of the loop that fills parts. -/
theorem copy_bytes {size : Nat} {upload : WriteMultipart} (hlt : upload.buffer.length < size) (left : Bytes) :
    (upload.copy size left).1.tasks.take upload.tasks.length = upload.tasks ∧
      (∀ part ∈ (upload.copy size left).1.tasks.drop upload.tasks.length, part.length = size) ∧
      (upload.copy size left).1.buffer.length < size ∧
      ((upload.copy size left).1.tasks.drop upload.tasks.length).flatten ++ (upload.copy size left).1.buffer ++
        (upload.copy size left).2 = upload.buffer ++ left := by
  unfold WriteMultipart.copy
  by_cases hfull : min left.length (size - upload.buffer.length) = size - upload.buffer.length
  · simp only [hfull, if_true, List.take_left, List.drop_left, true_and]
    refine ⟨fun part hm => ?_, by rw [List.length_nil]; omega, by simp⟩
    rw [List.mem_singleton.mp hm, List.length_append, List.length_take]
    omega
  · have hmin : min left.length (size - upload.buffer.length) = left.length := by omega
    have hne : ¬ left.length = size - upload.buffer.length := by omega
    simp only [hmin, hne, if_false, List.take_length, List.drop_length, true_and]
    refine ⟨fun part hm => (List.not_mem_nil hm).elim, ?_, by simp⟩
    rw [List.length_append]
    omega

section
variable {limits : S3Limits} {accepted chunk : Bytes} {parts : List Bytes} {s : RemoteState}
  (h : Uploads limits accepted chunk parts s)
include h

theorem Uploads.withRest {upload : WriteMultipart} (hu : s.writer.upload = some upload) :
    Sized limits.multipartPartSize parts (some upload.buffer) := by
  have hsized := h.sized
  rw [rest, hu] at hsized
  exact hsized

theorem Uploads.dropRest : Sized limits.multipartPartSize parts none := by
  have hsized := h.sized
  cases hrest : s.rest with
  | none => rwa [hrest] at hsized
  | some rest =>
    rw [hrest] at hsized
    exact sized_full (partSize_pos limits) hsized.1

/-- A step to a state that says no less of the bytes. -/
theorem Uploads.to {accepted' chunk' : Bytes} {s' : RemoteState} (hlimits : s'.writer.limits = s.writer.limits)
    (hrest : s'.rest = s.rest) (hcarries : Carries accepted' chunk' parts s'.phase s.rest) :
    Uploads limits accepted' chunk' parts s' :=
  ⟨hlimits.trans h.limits_eq, by rw [hrest]; exact hcarries, by rw [hrest]; exact h.sized⟩

/-- A step that gives the upload up, or has given it up. -/
theorem Uploads.gone {s' : RemoteState} (hlimits : s'.writer.limits = s.writer.limits)
    (hupload : s'.writer.upload = none) (hcarries : Carries accepted chunk parts s'.phase none) :
    Uploads limits accepted chunk parts s' := by
  have hrest : s'.rest = none := by rw [rest, hupload]; rfl
  exact ⟨hlimits.trans h.limits_eq, by rw [hrest]; exact hcarries, by rw [hrest]; exact h.dropRest⟩

/-! ## What each step keeps -/

theorem Uploads.beginWrite (hp : s.phase = .idle) (buffer : Bytes) :
    Uploads limits accepted buffer parts (s.beginWrite buffer).2 ∧
      (s.beginWrite buffer).1 ≠ .blocked ∧ ∀ count, (s.beginWrite buffer).1 ≠ .written count := by
  have hcarries := h.carries
  rw [hp] at hcarries
  have hfailed : Uploads limits accepted buffer parts { s with phase := .idle } :=
    h.to rfl rfl (hcarries.quiet trivial)
  unfold RemoteState.beginWrite
  split
  · exact ⟨hfailed, nofun, nofun⟩
  · split
    · exact ⟨hfailed, nofun, nofun⟩
    · rename_i upload hu
      have hrest : s.rest = some upload.buffer := by rw [rest, hu]; rfl
      rw [hrest] at hcarries
      refine ⟨h.to rfl rfl ?_, nofun, nofun⟩
      rw [hrest]
      exact ⟨rfl, hcarries⟩

theorem Uploads.fill {left : Bytes} {length : Nat} (hu : s.writer.upload.isSome = true)
    (hp : s.phase = .filling left length) :
    (left = [] ∧ (s.fill left length).1 = .written length ∧
      Uploads limits (accepted ++ chunk) chunk parts (s.fill left length).2) ∨
    (s.fill left length).1 = .running ∧
      Uploads limits accepted chunk (parts ++ s.handed .copy) (s.fill left length).2 := by
  obtain ⟨upload, hu⟩ := Option.isSome_iff_exists.mp hu
  have hrest : s.rest = some upload.buffer := by rw [rest, hu]; rfl
  have hcarries := h.carries
  rw [hp, hrest] at hcarries
  change parts.flatten ++ upload.buffer ++ left = accepted ++ chunk at hcarries
  have hsized := h.withRest hu
  unfold RemoteState.fill
  cases left with
  | nil =>
    rw [List.append_nil] at hcarries
    refine Or.inl ⟨rfl, rfl, h.to rfl rfl ?_⟩
    rw [hrest]
    exact hcarries
  | cons byte left =>
    obtain ⟨-, hfull, hlt, hbytes⟩ := copy_bytes hsized.2 (byte :: left)
    right
    simp only [hu, h.limits_eq, handed, hp, List.cons_ne_nil, if_false]
    refine ⟨trivial, h.limits_eq, ?_, fun part hm => ?_, hlt⟩
    · change (parts ++ _).flatten ++ _ ++ _ = _
      rw [← hcarries, List.append_assoc parts.flatten, ← hbytes, List.flatten_append]
      simp only [List.append_assoc]
    · rcases List.mem_append.mp hm with hm | hm
      · exact hsized.1 part hm
      · exact hfull part hm

theorem Uploads.beginPublish (hp : s.phase = .idle) :
    Uploads limits accepted chunk (parts ++ s.handed .publish) s.beginPublish.2 ∧
      ∀ count, s.beginPublish.1 ≠ .written count := by
  unfold RemoteState.beginPublish handed
  rw [hp]
  cases hc : s.writer.cancelled with
  | true =>
    simp only [if_true]
    refine ⟨?_, nofun⟩
    cases s.writer.upload <;> simpa using h
  | false =>
    cases hu : s.writer.upload with
    | none =>
      simp only [Bool.false_eq_true, if_false, List.append_nil]
      exact ⟨h, nofun⟩
    | some upload =>
      simp only [Bool.false_eq_true, if_false]
      obtain ⟨hsized, hbytes⟩ := (h.withRest hu).flushed (partSize_pos limits)
      have hcarries := h.carries
      rw [hp, rest, hu] at hcarries
      exact ⟨⟨h.limits_eq, hbytes.trans hcarries, hsized⟩, nofun⟩

theorem Uploads.beginAbort (hp : s.phase = .idle) (dropping : Bool) :
    Uploads limits accepted chunk parts (s.beginAbort dropping).2 ∧
      ∀ count, (s.beginAbort dropping).1 ≠ .written count := by
  have hcarries := h.carries
  rw [hp] at hcarries
  unfold RemoteState.beginAbort
  cases s.writer.active with
  | false => cases dropping <;> exact ⟨h.to rfl rfl (hcarries.quiet trivial), nofun⟩
  | true =>
    simp only [Bool.not_true, Bool.false_eq_true, if_false]
    cases hu : s.writer.upload with
    | some upload => exact ⟨h.gone rfl rfl trivial, nofun⟩
    | none =>
      cases dropping <;> exact ⟨h.gone rfl rfl (carries_none trivial), nofun⟩

theorem Uploads.answer (hinv : s.PhaseInv) (result : Except RemoteErrorKind Nat) :
    Uploads limits accepted chunk parts (s.answer result).2 ∧ ∀ count, (s.answer result).1 ≠ .written count := by
  have hgone : ∀ {writer : RemoteWriter} {phase completed abortRequested}, writer.limits = s.writer.limits →
      writer.upload = none → Quiet phase →
      Uploads limits accepted chunk parts ⟨writer, phase, completed, abortRequested⟩ :=
    fun hlimits hu hq => h.gone hlimits hu (carries_none hq)
  unfold RemoteState.answer
  split
  · rename_i hp
    have hu := (hinv.publishing (Or.inr hp)).2.1
    split <;> exact ⟨hgone rfl hu trivial, nofun⟩
  · rename_i kind hp
    have hu := (hinv.undone (Or.inl ⟨kind, hp⟩)).2.1
    split <;> exact ⟨hgone rfl hu trivial, nofun⟩
  · rename_i hp
    have hu := (hinv.headed hp).2.1
    split <;> exact ⟨hgone rfl hu trivial, nofun⟩
  · rename_i dropping hp
    have hu := (hinv.undone (Or.inr ⟨dropping, hp⟩)).2.1
    split
    · exact ⟨hgone rfl hu trivial, nofun⟩
    · split <;> exact ⟨hgone rfl hu trivial, nofun⟩
  · exact ⟨h, nofun⟩

theorem Uploads.overtake (hinv : s.PhaseInv) (completed : Bool) :
    Uploads limits accepted chunk parts (s.overtake completed).2 ∧
      ∀ count, (s.overtake completed).1 ≠ .written count := by
  have hgone : ∀ {writer : RemoteWriter} {completed abortRequested}, writer.limits = s.writer.limits →
      writer.upload = none → Uploads limits accepted chunk parts ⟨writer, .idle, completed, abortRequested⟩ :=
    fun hlimits hu => h.gone hlimits hu trivial
  unfold RemoteState.overtake
  split
  · split
    · rename_i buffer hp
      obtain ⟨upload, hu⟩ := Option.isSome_iff_exists.mp (hinv.writing (Or.inl ⟨buffer, hp⟩)).2.1
      have hcarries := h.carries
      rw [hp, rest, hu] at hcarries
      refine ⟨h.to rfl rfl ?_, nofun⟩
      rw [rest, hu]
      exact hcarries.2
    · rename_i upload hp
      exact ⟨hgone rfl (hinv.publishing (Or.inl ⟨upload, hp⟩)).2.1, nofun⟩
    · rename_i hp
      exact ⟨hgone rfl (hinv.publishing (Or.inr hp)).2.1, nofun⟩
    · rename_i kind hp
      exact ⟨hgone rfl (hinv.undone (Or.inl ⟨kind, hp⟩)).2.1, nofun⟩
    · rename_i hp
      exact ⟨hgone rfl (hinv.headed hp).2.1, nofun⟩
    · exact ⟨h, nofun⟩
  · exact ⟨h, nofun⟩

theorem Uploads.joinPart (index : Nat) :
    Uploads limits accepted chunk parts (s.joinPart index).2 ∧ (s.joinPart index).1 = .running := by
  have hcarries := h.carries
  unfold RemoteState.joinPart
  split
  · rename_i upload hp
    rw [hp] at hcarries
    exact ⟨h.to rfl rfl hcarries, rfl⟩
  · refine ⟨h.to rfl ?_ hcarries, rfl⟩
    unfold rest put
    cases s.writer.upload <;> rfl

theorem Uploads.failPart (hinv : s.PhaseInv) (index : Nat) (kind : RemoteErrorKind) :
    Uploads limits accepted chunk parts (s.failPart index kind).2 ∧
      ∀ count, (s.failPart index kind).1 ≠ .written count := by
  unfold RemoteState.failPart
  split
  · rename_i buffer hp
    split
    · -- the failed part is no longer under way; the write gives up before it copies
      obtain ⟨upload, hu⟩ := Option.isSome_iff_exists.mp (hinv.writing (Or.inl ⟨buffer, hp⟩)).2.1
      have hcarries := h.carries
      rw [hp, rest, hu] at hcarries
      have hjoined : (s.joinPart index).2 = s.put (s.writer.upload.map fun upload =>
          { upload with tasks := upload.tasks.eraseIdx index }) (.waiting buffer) := by
        unfold RemoteState.joinPart
        rw [hp]
      refine ⟨h.to ?_ ?_ ?_, nofun⟩
      · rw [hjoined]
        rfl
      · rw [hjoined, hu]
        unfold rest
        rw [hu]
        rfl
      · rw [rest, hu]
        exact hcarries.2
    · exact ⟨h, nofun⟩
  · rename_i upload hp
    split
    · exact ⟨h.gone rfl (hinv.publishing (Or.inl ⟨upload, hp⟩)).2.1 trivial, nofun⟩
    · exact ⟨h, nofun⟩
  · exact ⟨h, nofun⟩

end

theorem told_of {event : RemoteEvent} {reply : RemoteReply} (hw : ∀ chunk, event ≠ .write chunk)
    (hr : ∀ count, reply ≠ .written count) (known : Bytes × Bytes) : told event reply known = known := by
  cases reply with
  | written count => exact absurd rfl (hr count)
  | _ => cases event <;> first | rfl | exact absurd rfl (hw _)

theorem told_fst {event : RemoteEvent} {reply : RemoteReply} (hr : ∀ count, reply ≠ .written count)
    (known : Bytes × Bytes) : (told event reply known).1 = known.1 := by
  cases reply with
  | written count => exact absurd rfl (hr count)
  | _ => cases event <;> rfl

theorem told_write {chunk : Bytes} {reply : RemoteReply} (hb : reply ≠ .blocked) (hr : ∀ count, reply ≠ .written count)
    (known : Bytes × Bytes) : told (.write chunk) reply known = (known.1, chunk) := by
  cases reply with
  | blocked => exact absurd rfl hb
  | written count => exact absurd rfl (hr count)
  | _ => rfl

theorem handed_nil {s : RemoteState} {event : RemoteEvent} (hcopy : event ≠ .copy) (hpublish : event ≠ .publish) :
    s.handed event = [] := by
  cases event <;> first | rfl | exact absurd rfl hcopy | exact absurd rfl hpublish

theorem handed_sealed {s : RemoteState} (hu : s.writer.upload = none) (event : RemoteEvent) : s.handed event = [] := by
  unfold handed
  rw [hu]
  cases event <;> cases s.phase <;> rfl

theorem handed_blocked {s : RemoteState} {event : RemoteEvent} (h : (s.step event).1 = .blocked) :
    s.handed event = [] := by
  unfold handed
  split
  · rename_i left length upload hp hu
    cases left with
    | nil => rfl
    | cons byte left =>
      simp only [RemoteState.step, hp, RemoteState.fill, hu] at h
      cases h
  · rename_i upload hp hu
    cases hc : s.writer.cancelled with
    | true => rfl
    | false =>
      simp only [RemoteState.step, hp, RemoteState.beginPublish, hc, hu, Bool.false_eq_true, if_false] at h
      cases h
  · rfl

/-- A step keeps the bytes of the upload those that the writer accepted, and its parts of full size. -/
theorem Uploads.step {limits : S3Limits} {known : Bytes × Bytes} {parts : List Bytes} {s : RemoteState}
    (h : Uploads limits known.1 known.2 parts s) (hinv : s.PhaseInv) (event : RemoteEvent) :
    Uploads limits (told event (s.step event).1 known).1 (told event (s.step event).1 known).2
      (parts ++ s.handed event) (s.step event).2 := by
  have hstill : ∀ {event : RemoteEvent} {result : RemoteReply × RemoteState}, (∀ chunk, event ≠ .write chunk) →
      (∀ count, result.1 ≠ .written count) → event ≠ .copy → event ≠ .publish →
      Uploads limits known.1 known.2 parts result.2 →
      Uploads limits (told event result.1 known).1 (told event result.1 known).2 (parts ++ s.handed event)
        result.2 := by
    intro event result hw hr hcopy hpublish hto
    rw [told_of hw hr, handed_nil hcopy hpublish, List.append_nil]
    exact hto
  have hblocked := @handed_blocked s event
  revert hblocked
  unfold RemoteState.step
  split <;> intro hblocked
  · rename_i buffer hp
    obtain ⟨hto, hb, hr⟩ := h.beginWrite hp buffer
    rw [told_write hb hr, handed_nil RemoteEvent.noConfusion RemoteEvent.noConfusion, List.append_nil]
    exact hto
  · rename_i hp
    obtain ⟨hto, hr⟩ := h.beginPublish hp
    rw [told_of (fun _ => RemoteEvent.noConfusion) hr]
    exact hto
  · rename_i hp
    obtain ⟨hto, hr⟩ := h.beginAbort hp false
    exact hstill nofun hr nofun nofun hto
  · rename_i hp
    obtain ⟨hto, hr⟩ := h.beginAbort hp true
    exact hstill nofun hr nofun nofun hto
  · exact hstill nofun nofun nofun nofun (h.to rfl rfl h.carries)
  · rename_i buffer hp
    obtain ⟨upload, hu⟩ := Option.isSome_iff_exists.mp (hinv.writing (Or.inl ⟨buffer, hp⟩)).2.1
    have hcarries := h.carries
    rw [hp, rest, hu] at hcarries
    split
    · refine hstill nofun nofun nofun nofun (h.to rfl rfl ?_)
      rw [rest, hu]
      change parts.flatten ++ upload.buffer ++ buffer = known.1 ++ known.2
      rw [hcarries.1, hcarries.2]
    · exact hstill nofun nofun nofun nofun h
  · rename_i left length hp
    rcases h.fill (hinv.writing (Or.inr ⟨left, length, hp⟩)).2.1 hp with ⟨rfl, hr, hto⟩ | ⟨hr, hto⟩
    · have hnone : s.handed .copy = [] := by
        unfold handed
        rw [hp]
        cases s.writer.upload <;> rfl
      rw [hr, hnone, List.append_nil]
      exact hto
    · rw [hr]
      exact hto
  · rename_i index
    obtain ⟨hto, hr⟩ := h.joinPart index
    exact hstill nofun (by rw [hr]; exact nofun) nofun nofun hto
  · rename_i index kind
    obtain ⟨hto, hr⟩ := h.failPart hinv index kind
    exact hstill nofun hr nofun nofun hto
  · rename_i upload hp
    have hcarries := h.carries
    rw [hp] at hcarries
    split
    · exact hstill nofun nofun nofun nofun (h.to rfl rfl hcarries)
    · exact hstill nofun nofun nofun nofun h
  · rename_i result
    obtain ⟨hto, hr⟩ := h.answer hinv result
    exact hstill nofun hr nofun nofun hto
  · rename_i completed
    obtain ⟨hto, hr⟩ := h.overtake hinv completed
    exact hstill nofun hr nofun nofun hto
  · rw [hblocked rfl, List.append_nil]
    exact h

/-! ## The rest of a writer -/

/-- The phases in which no part of the upload is still to come. -/
def Past : RemotePhase → Prop
  | .waiting _ | .filling .. | .finishing _ => False
  | _ => True

/-- The writer has handed its upload over, or has given it up. -/
def Sealed (s : RemoteState) : Prop := s.writer.upload = none ∧ Past s.phase

theorem not_sealed {s : RemoteState} (h : ¬ Past s.phase) : ¬ s.Sealed := fun hs => h hs.2

/-- What a step leaves of the rest of a writer. -/
structure Framed (s : RemoteState) (event : RemoteEvent) (result : RemoteReply × RemoteState) : Prop where
  key : result.2.writer.key = s.writer.key
  completed : result.2.completed = true → s.completed = true ∨
    s.phase = .completing ∧ ((∃ size, event = .answered (.ok size)) ∨ event = .overtaken true)
  sealed : s.Sealed → result.2.Sealed ∧ ∀ count, result.1 ≠ .written count
  published : ∀ metadata, result.1 = .published metadata →
    s.phase = .heading ∧ event = .answered (.ok metadata.size) ∧ metadata.path = s.writer.key

section
variable {s : RemoteState} {event : RemoteEvent}

/-- A step that changes nothing of what the frame speaks of. -/
theorem Framed.of {result : RemoteReply × RemoteState} (hkey : result.2.writer.key = s.writer.key)
    (hcompleted : result.2.completed = s.completed)
    (hsealed : s.Sealed → result.2.Sealed ∧ ∀ count, result.1 ≠ .written count)
    (hpublished : ∀ metadata, result.1 ≠ .published metadata) : Framed s event result :=
  ⟨hkey, fun h => .inl (hcompleted.symm.trans h), hsealed, fun metadata h => absurd h (hpublished metadata)⟩

theorem Framed.same (reply : RemoteReply) (hw : ∀ count, reply ≠ .written count)
    (hp : ∀ metadata, reply ≠ .published metadata) : Framed s event (reply, s) :=
  .of rfl rfl (fun h => ⟨h, hw⟩) hp

theorem framed_beginWrite (buffer : Bytes) : Framed s event (s.beginWrite buffer) := by
  have hfailed : Framed s event s.writeFailed := .of rfl rfl (fun h => ⟨⟨h.1, trivial⟩, nofun⟩) nofun
  unfold beginWrite
  split
  · exact hfailed
  · split
    · exact hfailed
    · rename_i hu
      exact .of rfl rfl (fun h => by rw [h.1] at hu; cases hu) nofun

theorem framed_beginPublish : Framed s event s.beginPublish := by
  unfold beginPublish
  split
  · exact .same _ nofun nofun
  · split
    · exact .same _ nofun nofun
    · rename_i hu
      exact .of rfl rfl (fun h => by rw [h.1] at hu; cases hu) nofun

theorem framed_beginAbort (dropping : Bool) : Framed s event (s.beginAbort dropping) := by
  unfold beginAbort
  cases s.writer.active with
  | false => cases dropping <;> exact .of rfl rfl (fun h => ⟨⟨h.1, trivial⟩, nofun⟩) nofun
  | true =>
    simp only [Bool.not_true, Bool.false_eq_true, if_false]
    cases s.writer.upload with
    | some upload => exact .of rfl rfl (fun h => ⟨⟨rfl, trivial⟩, nofun⟩) nofun
    | none => cases dropping <;> exact .of rfl rfl (fun h => ⟨⟨rfl, trivial⟩, nofun⟩) nofun

theorem framed_fill {left : Bytes} {length : Nat} (hp : s.phase = .filling left length) :
    Framed s event (s.fill left length) := by
  have hopen : ¬ s.Sealed := not_sealed (by rw [hp]; exact id)
  unfold fill
  split
  · exact .of rfl rfl (fun h => absurd h hopen) nofun
  · exact .of rfl rfl (fun h => absurd h hopen) nofun
  · exact .of rfl rfl (fun h => absurd h hopen) nofun

theorem framed_joinPart (index : Nat) : Framed s event (s.joinPart index) := by
  unfold joinPart
  split
  · rename_i upload hp
    refine .of rfl rfl (fun h => ?_) nofun
    have hpast := h.2
    rw [hp] at hpast
    exact hpast.elim
  · refine .of rfl rfl (fun h => ⟨⟨?_, h.2⟩, nofun⟩) nofun
    unfold put
    rw [h.1]
    rfl

theorem framed_failPart (index : Nat) (kind : RemoteErrorKind) : Framed s event (s.failPart index kind) := by
  unfold failPart
  split
  · rename_i buffer hp
    have hopen : ¬ s.Sealed := not_sealed (by rw [hp]; exact id)
    have hjoin : Framed s .cancel (s.joinPart index) := framed_joinPart index
    split
    · refine .of hjoin.key ?_ (fun h => absurd h hopen) nofun
      unfold joinPart
      rw [hp]
      rfl
    · exact .same _ nofun nofun
  · rename_i upload hp
    have hopen : ¬ s.Sealed := not_sealed (by rw [hp]; exact id)
    split
    · exact .of rfl rfl (fun h => absurd h hopen) nofun
    · exact .same _ nofun nofun
  · exact .same _ nofun nofun

theorem framed_answer (result : Except RemoteErrorKind Nat) : Framed s (.answered result) (s.answer result) := by
  have hstay : ∀ {writer : RemoteWriter} {phase completed abortRequested}, writer.upload = s.writer.upload →
      Past phase → s.Sealed → Sealed ⟨writer, phase, completed, abortRequested⟩ :=
    fun hu hpast h => ⟨hu.trans h.1, hpast⟩
  unfold answer
  split
  · rename_i hp
    split
    · exact ⟨rfl, fun _ => .inr ⟨hp, .inl ⟨_, rfl⟩⟩, fun h => ⟨hstay rfl trivial h, nofun⟩, nofun⟩
    · exact .of rfl rfl (fun h => ⟨hstay rfl trivial h, nofun⟩) nofun
  · split <;> exact .of rfl rfl (fun h => ⟨hstay rfl trivial h, nofun⟩) nofun
  · rename_i hp
    split
    · refine ⟨rfl, .inl, fun h => ⟨hstay rfl trivial h, nofun⟩, fun metadata hm => ?_⟩
      cases hm
      exact ⟨hp, rfl, rfl⟩
    · exact .of rfl rfl (fun h => ⟨hstay rfl trivial h, nofun⟩) nofun
  · split
    · exact .of rfl rfl (fun h => ⟨hstay rfl trivial h, nofun⟩) nofun
    · split <;> exact .of rfl rfl (fun h => ⟨hstay rfl trivial h, nofun⟩) nofun
  · exact .same _ nofun nofun

theorem framed_overtake (completed : Bool) : Framed s (.overtaken completed) (s.overtake completed) := by
  have hquiet : ∀ {writer : RemoteWriter} {abortRequested}, writer.upload = s.writer.upload →
      writer.key = s.writer.key →
      Framed s (.overtaken completed) (.failed (.cancelled .s3WriterPublish), ⟨writer, .idle, s.completed, abortRequested⟩) :=
    fun hu hkey => .of hkey rfl (fun h => ⟨⟨hu.trans h.1, trivial⟩, nofun⟩) nofun
  unfold overtake
  split
  · split
    · exact .of rfl rfl (fun h => ⟨⟨h.1, trivial⟩, nofun⟩) nofun
    · exact hquiet rfl rfl
    · rename_i hp
      exact ⟨rfl, fun h => .inr ⟨hp, .inr (congrArg _ h)⟩, fun h => ⟨⟨h.1, trivial⟩, nofun⟩, nofun⟩
    · exact hquiet rfl rfl
    · exact hquiet rfl rfl
    · exact .same _ nofun nofun
  · exact .same _ nofun nofun

theorem framed_step : Framed s event (s.step event) := by
  unfold step
  split
  · exact framed_beginWrite _
  · exact framed_beginPublish
  · exact framed_beginAbort false
  · exact framed_beginAbort true
  · exact .of rfl rfl (fun h => ⟨⟨h.1, h.2⟩, nofun⟩) nofun
  · rename_i hp
    have hopen : ¬ s.Sealed := not_sealed (by rw [hp]; exact id)
    split
    · exact .of rfl rfl (fun h => absurd h hopen) nofun
    · exact .same _ nofun nofun
  · rename_i hp
    exact framed_fill hp
  · exact framed_joinPart _
  · exact framed_failPart _ _
  · rename_i upload hp
    have hopen : ¬ s.Sealed := not_sealed (by rw [hp]; exact id)
    split
    · exact .of rfl rfl (fun h => absurd h hopen) nofun
    · exact .same _ nofun nofun
  · exact framed_answer _
  · exact framed_overtake _
  · exact .same _ nofun nofun

end

end RemoteState

/-! ## The ledger -/

namespace Ledger

variable (l : Ledger) (entry : RemoteStoreEvent × RemoteStoreReply)

theorem noted_concat (history : List (RemoteStoreEvent × RemoteStoreReply)) :
    l.noted (history ++ [entry]) = (l.noted history).note entry := by
  simp only [noted, List.foldl_append, List.foldl_cons, List.foldl_nil]

/-- A step of one task tells nothing about the others. -/
theorem note_other {v : Nat} (hv : v ≠ entry.1.task) :
    (l.note entry).key v = l.key v ∧ (l.note entry).chunk v = l.chunk v ∧
      (l.note entry).accepted v = l.accepted v := by
  have hhear : (l.hear entry.1).key v = l.key v ∧ (l.hear entry.1).chunk v = l.chunk v ∧
      (l.hear entry.1).accepted v = l.accepted v := by
    unfold hear
    split <;> simp [Function.update_of_ne hv]
  unfold note
  split
  · exact ⟨rfl, rfl, rfl⟩
  · exact ⟨rfl, rfl, rfl⟩
  · refine ⟨?_, ?_, ?_⟩
    all_goals
      unfold credit
      split <;> simp [Function.update_of_ne hv, hhear]

/-- What a writer's own steps tell of it. -/
theorem note_writer (n : Nat) (event : RemoteEvent) (reply : RemoteReply) :
    (l.note (⟨n, .writer event⟩, .writer reply)).contents = l.contents ∧
      (l.note (⟨n, .writer event⟩, .writer reply)).key = l.key ∧
      ((l.note (⟨n, .writer event⟩, .writer reply)).accepted n,
        (l.note (⟨n, .writer event⟩, .writer reply)).chunk n) =
        RemoteState.told event reply (l.accepted n, l.chunk n) := by
  unfold note RemoteState.told
  cases reply <;> cases event <;> simp only [hear, credit, Function.update_self, and_self]

end Ledger

/-! ## The invariant -/

section
variable {σ : Type} (remote : RemoteStore σ) (limits : S3Limits) (initial : String → Option Bytes) (l : Ledger)

structure UploadTask.Inv (n : Nat) (t : UploadTask) : Prop where
  key : l.key n = t.key
  accepted : AcceptedKey t.key
  location : t.location = pathOf remote.base t.key
  own : t.state.writer.key = t.key
  phases : t.state.PhaseInv
  uploads : t.state.Uploads limits (l.accepted n) (l.chunk n) t.parts
  requested : t.requested = true → t.state.Sealed ∧ t.parts.flatten = l.accepted n
  completing : t.state.phase = .completing → t.requested = true
  asked : t.served = true → t.requested = true
  completed : t.state.completed = true → t.served = true

def RemoteTask.Inv (n : Nat) : RemoteTask → Prop
  | .absent => l.accepted n = []
  | .opening key location =>
    l.key n = key ∧ AcceptedKey key ∧ location = pathOf remote.base key ∧ l.accepted n = []
  | .writer t => t.Inv remote limits l n
  | .deleting key location _ _ => l.key n = key ∧ AcceptedKey key ∧ location = pathOf remote.base key
  | .done => True

structure RemoteWorld.Inv (s : RemoteWorld) : Prop where
  contents : ∀ key, AcceptedKey key → s.contents (pathOf remote.base key) = l.contents key
  outside : ∀ location, (∀ key, AcceptedKey key → location ≠ pathOf remote.base key) →
    s.contents location = initial location
  tasks : ∀ n, (s.tasks n).Inv remote limits l n

end

section
variable {σ : Type} {remote : RemoteStore σ} {limits : S3Limits} {initial : String → Option Bytes} {l l' : Ledger}
  {n : Nat}

/-- The other tasks do not notice. -/
theorem RemoteTask.Inv.other {t : RemoteTask} (h : t.Inv remote limits l n)
    (hl : l'.key n = l.key n ∧ l'.chunk n = l.chunk n ∧ l'.accepted n = l.accepted n) : t.Inv remote limits l' n := by
  obtain ⟨hk, hc, ha⟩ := hl
  cases t with
  | absent => exact ha.trans h
  | opening key location => exact ⟨hk.trans h.1, h.2.1, h.2.2.1, ha.trans h.2.2.2⟩
  | writer t =>
    exact ⟨hk.trans h.key, h.accepted, h.location, h.own, h.phases, by rw [ha, hc]; exact h.uploads,
      by rw [ha]; exact h.requested, h.completing, h.asked, h.completed⟩
  | deleting key location served answered => exact ⟨hk.trans h.1, h.2⟩
  | done => trivial

/-- A step of a writer keeps what is known of it. -/
theorem UploadTask.Inv.advance {t : UploadTask} (h : t.Inv remote limits l n)
    (contents : String → Option Bytes) (event : RemoteEvent) (hanswer : t.answerable contents event = true) :
    (t.advance event).Inv remote limits (l.note (⟨n, .writer event⟩, .writer (t.state.step event).1)) n := by
  obtain ⟨-, hkey, hknown⟩ := l.note_writer n event (t.state.step event).1
  have hframe : t.state.Framed event (t.state.step event) := RemoteState.framed_step
  have hphases := (RemoteState.step_keeps h.phases event).inv
  have huploads := @RemoteState.Uploads.step limits (l.accepted n, l.chunk n) t.parts t.state h.uploads h.phases event
  rw [← hknown] at huploads
  have hcompleting : (t.state.step event).2.phase.isCompleting = true → (t.state.step event).2.phase = .completing := by
    cases (t.state.step event).2.phase <;> simp [RemotePhase.isCompleting]
  refine ⟨by rw [hkey]; exact h.key, h.accepted, h.location, hframe.key.trans h.own, hphases, huploads, ?_, ?_, ?_, ?_⟩
  · intro hrequested
    rcases Bool.or_eq_true_iff.mp hrequested with hbefore | hafter
    · obtain ⟨hsealed, hparts⟩ := h.requested hbefore
      obtain ⟨hstill, hr⟩ := hframe.sealed hsealed
      refine ⟨hstill, ?_⟩
      have haccepted := congrArg Prod.fst hknown
      rw [RemoteState.told_fst hr] at haccepted
      change (t.parts ++ t.state.handed event).flatten = _
      rw [RemoteState.handed_sealed hsealed.1, List.append_nil, hparts]
      exact haccepted.symm
    · have hp := hcompleting hafter
      have hcarries := huploads.carries
      rw [hp] at hcarries
      refine ⟨⟨(hphases.publishing (Or.inr hp)).2.1, ?_⟩, hcarries⟩
      change RemoteState.Past (t.state.step event).2.phase
      rw [hp]
      trivial
  · intro hp
    refine Bool.or_eq_true_iff.mpr (Or.inr ?_)
    change (t.state.step event).2.phase = _ at hp
    rw [hp]
    rfl
  · exact fun hserved => Bool.or_eq_true_iff.mpr (Or.inl (h.asked hserved))
  · intro hcompleted
    rcases hframe.completed hcompleted with hbefore | ⟨hp, hevent⟩
    · exact h.completed hbefore
    · unfold UploadTask.answerable at hanswer
      rcases hevent with ⟨size, rfl⟩ | rfl
      · simp only [hp] at hanswer
        exact hanswer
      · simp only [hp, beq_iff_eq] at hanswer
        exact hanswer.symm

/-! ## What each step keeps -/

/-- What a task and its step leave behind. -/
structure RemoteTask.Kept (remote : RemoteStore σ) (limits : S3Limits) (initial : String → Option Bytes) (l : Ledger)
    (n : Nat) (objects : String → Option Bytes) (left : RemoteTask) : Prop where
  contents : ∀ key, AcceptedKey key → objects (pathOf remote.base key) = l.contents key
  outside : ∀ location, (∀ key, AcceptedKey key → location ≠ pathOf remote.base key) →
    objects location = initial location
  task : left.Inv remote limits l n

theorem Ledger.note_contents (l : Ledger) (event : RemoteStoreEvent) {reply : RemoteStoreReply}
    (hc : reply ≠ .completed) (hr : reply ≠ .removed) : (l.note (event, reply)).contents = l.contents := by
  have hhear : (l.hear event).contents = l.contents := by
    unfold Ledger.hear
    split <;> rfl
  cases reply with
  | completed => exact absurd rfl hc
  | removed => exact absurd rfl hr
  | blocked => rfl
  | writer reply => cases reply <;> first | rfl | exact hhear
  | _ => exact hhear

namespace RemoteWorld

variable {s : RemoteWorld}

/-- A step that leaves the objects alone. -/
theorem Inv.quiet (h : s.Inv remote limits initial l) {event : RemoteStoreEvent} {reply : RemoteStoreReply}
    {task : RemoteTask} (hc : reply ≠ .completed) (hr : reply ≠ .removed)
    (htask : task.Inv remote limits (l.note (event, reply)) event.task) :
    RemoteTask.Kept remote limits initial (l.note (event, reply)) event.task s.contents task where
  contents key hk := by rw [l.note_contents event hc hr, h.contents key hk]
  outside := h.outside
  task := htask

/-- A step that writes or removes the object of a key. -/
theorem Inv.writes (h : s.Inv remote limits initial l) {key location : String} (hk : AcceptedKey key)
    (hlocation : location = pathOf remote.base key) {content : Option Bytes} {task : RemoteTask}
    (hcontents : l'.contents = Function.update l.contents key content) (htask : task.Inv remote limits l' n) :
    RemoteTask.Kept remote limits initial l' n (Function.update s.contents location content) task where
  contents k hkk := by
    rw [hcontents, hlocation]
    by_cases he : k = key
    · rw [he, Function.update_self, Function.update_self]
    · rw [Function.update_of_ne he, Function.update_of_ne (fun hpath => he (pathOf_inj hpath)), h.contents k hkk]
  outside other hother := by
    rw [Function.update_of_ne (by rw [hlocation]; exact hother key hk), h.outside other hother]
  task := htask

section
variable (hb : remote.base = "" ∨ AcceptedKey remote.base)
  (hparse : ∀ text path, Trimmed text → remote.service.parse text = some path → path = text)
include hb hparse

theorem locate_eq_ok {key k location : String} (h : locate remote key = .ok (k, location)) :
    k = key ∧ AcceptedKey key ∧ location = pathOf remote.base key := by
  unfold locate at h
  cases hn : normalizeKey key with
  | error error => rw [hn] at h; cases h
  | ok normal =>
    obtain ⟨rfl, hk⟩ := normalizeKey_eq_ok hn
    rw [hn] at h
    simp only [hk.validateKey, RemoteStore.object_relative hb hparse hk.relative, RemoteStore.whenPath, bind,
      Except.bind] at h
    cases hpath : (remote.service.parse (pathOf remote.base normal)).isSome with
    | false => simp [hpath] at h
    | true =>
      simp only [hpath, if_true, Except.ok.injEq, Prod.mk.injEq] at h
      exact ⟨h.1.symm, hk, h.2.symm⟩

omit hb hparse in
theorem locate_eq_error {key : String} {reply : RemoteStoreReply} (h : locate remote key = .error reply) :
    (∃ error, reply = .rejected error) ∨ ∃ failure, reply = .failed failure := by
  unfold locate at h
  split at h
  · cases h
    exact .inl ⟨_, rfl⟩
  · split at h
    · cases h
      exact .inr ⟨_, rfl⟩
    · cases h

theorem begin_kept (h : s.Inv remote limits initial l) {event : RemoteStoreEvent} {key : String}
    {task : String → String → RemoteTask}
    (htask : AcceptedKey key → ∀ reply, reply = .running →
      (task key (pathOf remote.base key)).Inv remote limits (l.note (event, reply)) event.task) :
    RemoteTask.Kept remote limits initial (l.note (event, (begin remote s.contents key task).reply)) event.task
      (begin remote s.contents key task).contents (begin remote s.contents key task).task := by
  unfold begin
  split
  · rename_i reply hreply
    rcases locate_eq_error hreply with ⟨error, rfl⟩ | ⟨failure, rfl⟩ <;> exact h.quiet nofun nofun trivial
  · rename_i k location hlocate
    obtain ⟨rfl, hk, rfl⟩ := locate_eq_ok hb hparse hlocate
    exact h.quiet nofun nofun (htask hk _ rfl)

theorem stepTask_kept (h : s.Inv remote limits initial l) (event : RemoteStoreEvent) :
    RemoteTask.Kept remote limits initial (l.note (event, (stepTask remote limits s.contents (s.tasks event.task) event.action).reply))
      event.task (stepTask remote limits s.contents (s.tasks event.task) event.action).contents
      (stepTask remote limits s.contents (s.tasks event.task) event.action).task := by
  obtain ⟨n, action⟩ := event
  have ht := h.tasks n
  simp only
  unfold stepTask
  split
  · rename_i key htask
    rw [htask] at ht
    refine begin_kept hb hparse h fun hk reply hr => ?_
    rw [hr]
    exact ⟨Function.update_self .., hk, rfl, ht⟩
  · rename_i key htask
    refine begin_kept hb hparse h fun hk reply hr => ?_
    rw [hr]
    exact ⟨Function.update_self .., hk, rfl⟩
  · rename_i key location result htask
    rw [htask] at ht
    obtain ⟨hkey, hk, hlocation, haccepted⟩ := ht
    cases result with
    | error kind => exact h.quiet nofun nofun trivial
    | ok =>
      refine h.quiet nofun nofun ⟨hkey, hk, hlocation, rfl, RemoteState.opened_inv limits key, ?_, nofun, nofun, nofun,
        nofun⟩
      exact ⟨rfl, haccepted.symm, fun part hm => (List.not_mem_nil hm).elim, RemoteState.partSize_pos limits⟩
  · rename_i key location served result htask
    rw [htask] at ht
    unfold answerDelete
    split <;> exact h.quiet nofun nofun ht
  · rename_i key location served answered htask
    rw [htask] at ht
    refine h.writes ht.2.1 ht.2.2 ?_ ⟨ht.1, ht.2⟩
    change Function.update l.contents (l.key n) none = _
    rw [ht.1]
  · rename_i t event htask
    rw [htask] at ht
    unfold advanceWriter
    split
    · rename_i hanswer
      exact h.quiet nofun nofun (UploadTask.Inv.advance ht s.contents event hanswer)
    · exact h.quiet nofun nofun ht
  · rename_i t htask
    rw [htask] at ht
    have ht : t.Inv remote limits l n := ht
    unfold serveCompletion
    split
    · rename_i hserve
      have hrequested := (Bool.and_eq_true_iff.mp hserve).1
      refine h.writes ht.accepted ht.location ?_ ⟨ht.key, ht.accepted, ht.location, ht.own, ht.phases, ht.uploads,
        ht.requested, ht.completing, fun _ => hrequested, fun _ => rfl⟩
      change Function.update l.contents (l.key n) (some (l.accepted n)) = _
      rw [ht.key, (ht.requested hrequested).2]
    · exact h.quiet nofun nofun ht
  · exact h.quiet nofun nofun ht

theorem Inv.step (h : s.Inv remote limits initial l) (event : RemoteStoreEvent) :
    ((machine remote limits).step s event).2.Inv remote limits initial
      (l.note (event, ((machine remote limits).step s event).1)) := by
  have hkept := stepTask_kept hb hparse h event
  refine ⟨hkept.contents, hkept.outside, fun v => ?_⟩
  by_cases hv : v = event.task
  · subst hv
    change RemoteTask.Inv remote limits _ _ (Function.update s.tasks event.task _ event.task)
    rw [Function.update_self]
    exact hkept.task
  · change RemoteTask.Inv remote limits _ _ (Function.update s.tasks event.task _ v)
    rw [Function.update_of_ne hv]
    exact (h.tasks v).other (l.note_other _ hv)

end

end RemoteWorld

/-! ## What the service has carried out -/

def RemoteStoreReply.isCompleted : RemoteStoreReply → Bool
  | .completed => true
  | _ => false

def RemoteStoreReply.isRemoved : RemoteStoreReply → Bool
  | .removed => true
  | _ => false

/-- The completions and the removals that the service has carried out for a task. -/
def completions (n : Nat) (history : List (RemoteStoreEvent × RemoteStoreReply)) : Nat :=
  history.countP fun entry => entry.1.task == n && entry.2.isCompleted

def removals (n : Nat) (history : List (RemoteStoreEvent × RemoteStoreReply)) : Nat :=
  history.countP fun entry => entry.1.task == n && entry.2.isRemoved

def RemoteTask.served : RemoteTask → Bool
  | .writer t => t.served
  | _ => false

def RemoteTask.cleared : RemoteTask → Bool
  | .deleting _ _ served _ => served
  | _ => false

/-- The tasks whose requests were carried out are those of the history. -/
structure RemoteWorld.Counted (history : List (RemoteStoreEvent × RemoteStoreReply)) (s : RemoteWorld) : Prop where
  completions : ∀ n, completions n history = if (s.tasks n).served then 1 else 0
  removals : ∀ n, (s.tasks n).cleared = true → 0 < removals n history

namespace RemoteWorld

variable (remote) in
theorem begin_reply (objects : String → Option Bytes) (key : String) (task : String → String → RemoteTask) :
    (begin remote objects key task).reply = .running ∨ (∃ error, (begin remote objects key task).reply = .rejected error) ∨
      ∃ failure, (begin remote objects key task).reply = .failed failure := by
  unfold begin
  split
  · rename_i reply hreply
    exact .inr (locate_eq_error hreply)
  · exact .inl rfl

variable (remote limits) in
/-- A completion is carried out once, by the step that says so. -/
theorem stepTask_served (objects : String → Option Bytes) (task : RemoteTask) (action : RemoteAction) :
    (stepTask remote limits objects task action).task.served =
        (task.served || (stepTask remote limits objects task action).reply.isCompleted) ∧
      ((stepTask remote limits objects task action).reply.isCompleted = true → task.served = false) ∧
      ((stepTask remote limits objects task action).task.cleared = true →
        task.cleared = true ∨ (stepTask remote limits objects task action).reply.isRemoved = true) := by
  have hbegin : ∀ key (task : String → String → RemoteTask), (∀ key location, (task key location).served = false ∧
      (task key location).cleared = false) → (begin remote objects key task).task.served = false ∧
      (begin remote objects key task).reply.isCompleted = false ∧
      (begin remote objects key task).task.cleared = false := by
    intro key task htask
    refine ⟨?_, ?_, ?_⟩
    · unfold begin
      split
      · rfl
      · exact (htask _ _).1
    · rcases begin_reply remote objects key task with hr | ⟨error, hr⟩ | ⟨failure, hr⟩ <;> rw [hr] <;> rfl
    · unfold begin
      split
      · rfl
      · exact (htask _ _).2
  unfold stepTask
  split
  · obtain ⟨hs, hr, hc⟩ := hbegin _ .opening fun _ _ => ⟨rfl, rfl⟩
    rw [hs, hr, hc]
    exact ⟨rfl, nofun, nofun⟩
  · obtain ⟨hs, hr, hc⟩ := hbegin _ (fun key location => .deleting key location false false) fun _ _ => ⟨rfl, rfl⟩
    rw [hs, hr, hc]
    exact ⟨rfl, nofun, nofun⟩
  · rename_i result
    cases result <;> exact ⟨rfl, nofun, nofun⟩
  · unfold answerDelete
    split <;> exact ⟨rfl, nofun, .inl⟩
  · exact ⟨rfl, nofun, fun _ => .inr rfl⟩
  · rename_i t event
    unfold advanceWriter
    split <;> exact ⟨(Bool.or_false _).symm, nofun, nofun⟩
  · rename_i t
    unfold serveCompletion
    split
    · rename_i hserve
      simp only [Bool.and_eq_true, Bool.not_eq_true'] at hserve
      exact ⟨(Bool.or_true _).symm, fun _ => hserve.2, nofun⟩
    · exact ⟨(Bool.or_false _).symm, nofun, nofun⟩
  · exact ⟨(Bool.or_false _).symm, nofun, .inl⟩

theorem Counted.step {s : RemoteWorld} {history : List (RemoteStoreEvent × RemoteStoreReply)} (h : s.Counted history)
    (event : RemoteStoreEvent) :
    ((machine remote limits).step s event).2.Counted (history ++ [(event, ((machine remote limits).step s event).1)]) := by
  obtain ⟨hserved, hfirst, hcleared⟩ :=
    stepTask_served remote limits s.contents (s.tasks event.task) event.action
  have hcompletions := h.completions
  have hremovals := h.removals
  unfold Parquex.completions at hcompletions
  unfold Parquex.removals at hremovals
  refine ⟨fun n => ?_, fun n hn => ?_⟩
  · unfold Parquex.completions
    rw [List.countP_append, List.countP_singleton, hcompletions]
    change _ = if (Function.update s.tasks event.task _ n).served = true then 1 else 0
    by_cases hn : n = event.task
    · subst hn
      rw [Function.update_self, hserved, beq_self_eq_true, Bool.true_and]
      change _ + (if (stepTask remote limits s.contents _ event.action).reply.isCompleted = true then 1 else 0) = _
      cases hr : (stepTask remote limits s.contents (s.tasks event.task) event.action).reply.isCompleted with
      | false => rw [Bool.or_false]; rfl
      | true =>
        rw [hfirst hr]
        rfl
    · rw [Function.update_of_ne hn, beq_eq_false_iff_ne.mpr (Ne.symm hn)]
      rfl
  · unfold Parquex.removals
    rw [List.countP_append, List.countP_singleton]
    change (Function.update s.tasks event.task _ n).cleared = true at hn
    by_cases he : n = event.task
    · subst he
      rw [Function.update_self] at hn
      rcases hcleared hn with hbefore | hr
      · exact Nat.add_pos_left (hremovals _ hbefore) _
      · rw [beq_self_eq_true, Bool.true_and]
        exact Nat.add_pos_right _ (lt_of_lt_of_eq Nat.one_pos (if_pos hr).symm)
    · rw [Function.update_of_ne he] at hn
      exact Nat.add_pos_left (hremovals n hn) _

/-! ## The whole store -/

theorem first_inv (initial : String → Option Bytes) :
    (first initial).Inv remote limits initial (Ledger.first fun key => initial (pathOf remote.base key)) :=
  ⟨fun _ _ => rfl, fun _ _ => rfl, fun _ => rfl⟩

theorem first_counted (initial : String → Option Bytes) : (first initial).Counted [] :=
  ⟨fun _ => rfl, fun _ hn => by cases hn⟩

variable (remote limits) in
/-- Only a writer answers as one. -/
theorem stepTask_writer {objects : String → Option Bytes} {task : RemoteTask} {action : RemoteAction}
    {reply : RemoteReply} (h : (stepTask remote limits objects task action).reply = .writer reply) :
    ∃ t event, task = .writer t ∧ action = .writer event ∧ t.answerable objects event = true ∧
      (t.state.step event).1 = reply := by
  have hbegin : ∀ key (task : String → String → RemoteTask), (begin remote objects key task).reply ≠ .writer reply := by
    intro key task heq
    rcases begin_reply remote objects key task with hr | ⟨error, hr⟩ | ⟨failure, hr⟩ <;> rw [hr] at heq <;>
      cases heq
  unfold stepTask at h
  split at h
  · exact absurd h (hbegin _ _)
  · exact absurd h (hbegin _ _)
  · rename_i result
    cases result <;> cases h
  · unfold answerDelete at h
    split at h <;> cases h
  · cases h
  · rename_i t event
    unfold advanceWriter at h
    split at h
    · rename_i hanswer
      injection h with h
      exact ⟨t, event, rfl, rfl, hanswer, h⟩
    · cases h
  · unfold serveCompletion at h
    split at h <;> cases h
  · cases h

/-- A publish is answered after its object was put in place, with the size that the key has by then. -/
theorem Inv.published {s : RemoteWorld} (h : s.Inv remote limits initial l)
    {history : List (RemoteStoreEvent × RemoteStoreReply)} (hc : s.Counted history) {event : RemoteStoreEvent}
    {metadata : ObjectMetadata}
    (hreply : ((machine remote limits).step s event).1 = .writer (.published metadata)) :
    completions event.task history = 1 ∧ metadata.path = l.key event.task ∧
      (s.contents (pathOf remote.base metadata.path)).map List.length = some metadata.size := by
  obtain ⟨t, action, htask, -, hanswer, hpublished⟩ := stepTask_writer remote limits hreply
  have ht := h.tasks event.task
  rw [htask] at ht
  have ht : t.Inv remote limits l event.task := ht
  have hframe : t.state.Framed action (t.state.step action) := RemoteState.framed_step
  obtain ⟨hp, rfl, hpath⟩ := hframe.published metadata hpublished
  refine ⟨?_, hpath.trans (ht.own.trans ht.key.symm), ?_⟩
  · rw [hc.completions, htask]
    exact if_pos (ht.completed (ht.phases.headed hp).2.2)
  · unfold UploadTask.answerable at hanswer
    simp only [hp, beq_iff_eq] at hanswer
    rw [hpath, ht.own, ← ht.location]
    exact hanswer

/-- A delete is answered after it was carried out. -/
theorem Counted.deleted {s : RemoteWorld} {history : List (RemoteStoreEvent × RemoteStoreReply)} (h : s.Counted history)
    {event : RemoteStoreEvent} (hreply : ((machine remote limits).step s event).1 = .deleted) :
    0 < Parquex.removals event.task history := by
  refine h.removals event.task ?_
  change (stepTask remote limits s.contents (s.tasks event.task) event.action).reply = _ at hreply
  have hbegin : ∀ key (task : String → String → RemoteTask), (begin remote s.contents key task).reply ≠ .deleted := by
    intro key task heq
    rcases begin_reply remote s.contents key task with hr | ⟨error, hr⟩ | ⟨failure, hr⟩ <;>
      rw [hr] at heq <;> cases heq
  unfold stepTask at hreply
  split at hreply
  · exact absurd hreply (hbegin _ _)
  · exact absurd hreply (hbegin _ _)
  · rename_i result _ _
    cases result <;> cases hreply
  · rename_i htask _
    unfold answerDelete at hreply
    split at hreply
    · cases hreply
    · rw [htask]
      rfl
    · cases hreply
  · cases hreply
  · unfold advanceWriter at hreply
    split at hreply <;> cases hreply
  · unfold serveCompletion at hreply
    split at hreply <;> cases hreply
  · cases hreply

/-- Under any writers and deletes, each key of the store holds what the last request that was carried out for it left,
and nothing else changes an object. An upload is completed at most once, with the chunks that its writer accepted, in
parts of full size but for the last; whoever is told of a success is told after it. -/
theorem remote_publication {text : String} (hbase : Store.nativeS3Key text = .ok remote.base)
    (hparse : ∀ text path, Trimmed text → remote.service.parse text = some path → path = text)
    (limits : S3Limits) (initial : String → Option Bytes) (events : List RemoteStoreEvent) :
    let ledger := (Ledger.first fun key => initial (pathOf remote.base key)).noted
    let history := (machine remote limits).trace (first initial) events
    let s := (machine remote limits).run (first initial) events
    (∀ key, AcceptedKey key → s.contents (pathOf remote.base key) = (ledger history).contents key) ∧
    (∀ location, (∀ key, AcceptedKey key → location ≠ pathOf remote.base key) →
      s.contents location = initial location) ∧
    (∀ n, completions n history ≤ 1) ∧
    (∀ n t, s.tasks n = .writer t → t.served = true → completions n history = 1 ∧
      t.parts.flatten = (ledger history).accepted n ∧ RemoteState.Sized limits.multipartPartSize t.parts none) ∧
    (machine remote limits).Along (fun history s event =>
      (∀ metadata, ((machine remote limits).step s event).1 = .writer (.published metadata) →
        completions event.task history = 1 ∧ metadata.path = (ledger history).key event.task ∧
          (s.contents (pathOf remote.base metadata.path)).map List.length = some metadata.size) ∧
      (((machine remote limits).step s event).1 = .deleted → 0 < removals event.task history))
      (first initial) events := by
  intro ledger history s
  have hb := Store.nativeS3Key_eq_ok hbase
  have hstep : ∀ history s event,
      s.Inv remote limits initial (ledger history) ∧ s.Counted history →
      ((machine remote limits).step s event).2.Inv remote limits initial
        (ledger (history ++ [(event, ((machine remote limits).step s event).1)])) ∧
      ((machine remote limits).step s event).2.Counted
        (history ++ [(event, ((machine remote limits).step s event).1)]) := by
    rintro history s event ⟨hinv, hcounted⟩
    refine ⟨?_, hcounted.step event⟩
    rw [show ledger (history ++ [(event, ((machine remote limits).step s event).1)]) =
      (ledger history).note (event, ((machine remote limits).step s event).1) from Ledger.noted_concat _ _ _]
    exact hinv.step hb hparse event
  have hfirst : (first initial).Inv remote limits initial (ledger []) ∧ (first initial).Counted [] :=
    ⟨first_inv initial, first_counted initial⟩
  obtain ⟨hinv, hcounted⟩ := (machine remote limits).trace_inv
    (I := fun history s => s.Inv remote limits initial (ledger history) ∧ s.Counted history) hfirst hstep events
  refine ⟨hinv.contents, hinv.outside, fun n => ?_, fun n t ht hserved => ?_, ?_⟩
  · rw [hcounted.completions]
    split <;> omega
  · have htask := hinv.tasks n
    rw [ht] at htask
    have htask : t.Inv remote limits (ledger history) n := htask
    refine ⟨?_, (htask.requested (htask.asked hserved)).2, htask.uploads.dropRest⟩
    rw [hcounted.completions, ht]
    exact if_pos hserved
  · refine Machine.Along.imp_inv (C := fun _ _ _ => True)
      (I := fun history s => s.Inv remote limits initial (ledger history) ∧ s.Counted history)
      (fun _ _ _ _ => trivial) hfirst (fun history s event _ => hstep history s event) ?_
    rintro history s event - ⟨hinv, hcounted⟩
    exact ⟨fun metadata hreply => hinv.published hcounted hreply, hcounted.deleted⟩

end RemoteWorld

end

namespace RemoteWorld

/-- One chunk is written and published; the service completes the upload before it replies. -/
def oneUpload : List RemoteStoreEvent :=
  [.openWriter "a", .answered (.ok ()), .writer (.write [1]), .writer .capacity, .writer .copy, .writer .copy,
    .writer .publish, .writer (.partDone 0), .writer .uploaded, .serve, .writer (.answered (.ok 0)),
    .writer (.answered (.ok 1))].map fun action => ⟨0, action⟩

theorem remote_publication_one :
    ((machine prodRemote smallLimits).run (first fun _ => none) oneUpload).contents (pathOf prodRemote.base "a") =
        some [1] ∧
      completions 0 ((machine prodRemote smallLimits).trace (first fun _ => none) oneUpload) ≤ 1 := by
  have hparse : ∀ text path, Trimmed text → prodRemote.service.parse text = some path → path = text := by
    intro text path _ h
    change (if hasControl text then none else some text) = some path at h
    split at h
    · cases h
    · exact (Option.some.inj h).symm
  have hbase : Store.nativeS3Key "prod" = .ok prodRemote.base := by decide
  obtain ⟨hcontents, -, hcompletions, -⟩ := remote_publication hbase hparse smallLimits (fun _ => none) oneUpload
  refine ⟨(hcontents "a" (by decide)).trans ?_, hcompletions 0⟩
  decide

end RemoteWorld

end Parquex
