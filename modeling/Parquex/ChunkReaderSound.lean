import Parquex.ChunkReader
import Parquex.StoreReadExact

/-!
# The range reader over an object in memory

A range reader answers as the object itself would: its cursors return the bytes
from their position on, whole ranges are those of the object, and what it counts is
what it has returned.
-/

namespace Parquex

/-! ## Objects of a store -/

/-- A store, local or remote, that has this object under a key. -/
inductive StoredAt : (σ : Type) → NativeStore σ → σ → String → Bytes → Prop
  | localFile (host : LocalHost) (files : FileSystem) {key : String} {content : Bytes}
    (hkey : validateKey key false = .ok ()) (hobject : host.objectAt files key = some content) :
    StoredAt FileSystem host.nativeStore files key content
  | remoteObject {σ : Type} (remote : RemoteStore σ) (state : σ) {contents : σ → String → Option Bytes}
    {choices : ServiceChoices} (hrules : remote.service.Rules contents choices) {key : String} {content : Bytes}
    (hkey : validateKey key false = .ok ()) (hobject : remote.objectAt contents key state = some content) :
    StoredAt σ remote.nativeStore state key content

theorem RemoteStore.readObject_eq_ok {σ : Type} {remote : RemoteStore σ} {state : σ}
    {contents : σ → String → Option Bytes} {choices : ServiceChoices} (hrules : remote.service.Rules contents choices)
    {object : RemoteObject} {content : Bytes} (hcontent : contents state object.path = some content)
    (hword : content.length < 2 ^ 64) {offset length : Nat} (hrange : offset + length ≤ content.length)
    (operation : Operation) :
    remote.readObject state object offset length operation = .ok ((content.drop offset).take length) := by
  unfold readObject
  rw [if_neg (by omega)]
  by_cases hlength : length = 0
  · rw [if_pos hlength, hlength, List.take_zero]
  · have hget := hrules.getRange state object.path content offset (offset + length) hcontent (by omega) (by omega)
    rw [if_neg hlength, hget, Nat.add_sub_cancel_left]
    rfl

/-- Such a store returns every range of the object. -/
theorem StoredAt.readRange_eq_ok {σ : Type} {resource : NativeStore σ} {state : σ} {key : String} {content : Bytes}
    (h : StoredAt σ resource state key content) (hword : content.length < 2 ^ 64) {offset length : Nat}
    (hrange : offset + length ≤ content.length) :
    resource.readRange state key offset length = .ok ((content.drop offset).take length) := by
  cases h with
  | localFile host files hkey hobject =>
    obtain ⟨path, hresolve, hmeta⟩ := host.metadata_of_objectAt hobject
    change host.storeReadRange files key offset length = _
    unfold LocalHost.storeReadRange LocalHost.readObject
    rw [hkey, hresolve]
    simp only [bind, Except.bind, hmeta, LocalHost.readFile]
    rw [if_neg (by omega)]
  | remoteObject remote state hrules hkey hobject =>
    change remote.storeReadRange state key offset length = _
    unfold RemoteStore.storeReadRange
    unfold RemoteStore.objectAt at hobject
    rw [hkey]
    cases hparse : remote.object key with
    | error failure =>
      rw [hparse] at hobject
      cases hobject
    | ok object =>
      rw [hparse] at hobject
      exact RemoteStore.readObject_eq_ok hrules hobject hword hrange _

/-! ## Counting -/

/-- The counters of what has been returned. -/
def RangeMetrics.of (returned : List Bytes) : RangeMetrics where
  requests := returned.length % 2 ^ 64
  bytes := (returned.map List.length).sum % 2 ^ 64
  maxRequestBytes := (returned.map List.length).foldl max 0

def RangeMetrics.recordAll (metrics : RangeMetrics) (returned : List Bytes) : RangeMetrics :=
  returned.foldl (fun metrics bytes => metrics.record bytes.length) metrics

theorem RangeMetrics.record_of (returned : List Bytes) (bytes : Bytes) :
    (RangeMetrics.of returned).record bytes.length = RangeMetrics.of (returned ++ [bytes]) := by
  simp [RangeMetrics.of, RangeMetrics.record]

theorem RangeMetrics.recordAll_of (returned more : List Bytes) :
    (RangeMetrics.of returned).recordAll more = RangeMetrics.of (returned ++ more) := by
  induction more generalizing returned with
  | nil => rw [List.append_nil]; rfl
  | cons bytes more ih =>
    change ((RangeMetrics.of returned).record bytes.length).recordAll more = _
    rw [RangeMetrics.record_of, ih, List.append_assoc]
    rfl

theorem length_le_flatten {pieces : List Bytes} (h : ∀ piece ∈ pieces, piece ≠ []) :
    pieces.length ≤ pieces.flatten.length := by
  induction pieces with
  | nil => simp
  | cons piece pieces ih =>
    have hpiece : 0 < piece.length := List.length_pos_iff.mpr (h piece List.mem_cons_self)
    have hrest := ih fun p hp => h p (List.mem_cons_of_mem _ hp)
    rw [List.length_cons, List.flatten_cons, List.length_append]
    omega

/-- Pieces of less than `2^64` bytes are counted exactly. -/
theorem RangeMetrics.recordAll_exact {pieces : List Bytes} (hpieces : ∀ piece ∈ pieces, piece ≠ [])
    (hword : pieces.flatten.length < 2 ^ 64) :
    RangeMetrics.recordAll {} pieces =
      { requests := pieces.length, bytes := pieces.flatten.length,
        maxRequestBytes := (pieces.map List.length).foldl max 0 } := by
  have hle := length_le_flatten hpieces
  have hnone : ({} : RangeMetrics) = RangeMetrics.of [] := rfl
  rw [hnone, RangeMetrics.recordAll_of, List.nil_append]
  unfold RangeMetrics.of
  rw [← List.length_flatten, Nat.mod_eq_of_lt (by omega), Nat.mod_eq_of_lt hword]

namespace ObjectChunkReader

/-- The reader is one of an object that its store has. -/
structure Over {σ : Type} (reader : ObjectChunkReader σ) (state : σ) (content : Bytes) : Prop where
  stored : StoredAt σ reader.resource state reader.key content
  size : reader.size = content.length
  word : content.length < 2 ^ 64

section
variable {σ : Type} {reader : ObjectChunkReader σ} {state : σ} {content : Bytes} {use : RangeUse}
  (h : reader.Over state content)
include h

theorem Over.readRange_eq (hcancelled : use.cancelled = false) {offset length : Nat}
    (hrange : offset + length ≤ content.length) :
    reader.readRange state offset length use =
      (.ok ((content.drop offset).take length), { use with requests := use.requests ++ [(offset, length)] }) := by
  unfold readRange
  rw [hcancelled, h.stored.readRange_eq_ok h.word hrange]
  simp

/-! ## Whole ranges -/

theorem Over.getBytes_eq_ok (hcancelled : use.cancelled = false) {start length : Nat}
    (hlength : length ≤ reader.maxRangeBytes) (hrange : start + length ≤ content.length) :
    reader.getBytes state start length use =
      (.ok ((content.drop start).take length),
        { use with
          requests := use.requests ++ [(start, length)],
          metrics := use.metrics.record length }) := by
  have hword := h.word
  have htaken : ((content.drop start).take length).length = length := by
    rw [List.length_take, List.length_drop]
    omega
  unfold getBytes
  rw [if_neg (by omega), if_neg (by omega), h.size, if_neg (by omega), h.readRange_eq hcancelled hrange]
  simp only [htaken, ne_eq, not_true_eq_false, if_false, RangeUse.record]

omit h in
theorem getBytes_refused (state : σ) (use : RangeUse) {start length : Nat}
    (hrange : ¬ (length ≤ reader.maxRangeBytes ∧ start + length ≤ reader.size ∧ start + length < 2 ^ 64)) :
    ∃ error, reader.getBytes state start length use = (.error error, use) := by
  unfold getBytes
  by_cases hlength : reader.maxRangeBytes < length
  · rw [if_pos hlength]
    exact ⟨_, rfl⟩
  · rw [if_neg hlength]
    by_cases hword : 2 ^ 64 ≤ start + length
    · rw [if_pos hword]
      exact ⟨_, rfl⟩
    · rw [if_neg hword, if_pos (by omega)]
      exact ⟨_, rfl⟩

/-! ## Cursors -/

theorem Over.read_end (usizeMax bufferLength : Nat) :
    reader.read state usizeMax content.length bufferLength use = (.ok [], content.length, use) := by
  unfold read
  rw [if_pos (Or.inr h.size.symm)]

/-- How much a cursor reads into a buffer before the end. -/
def readLength (reader : ObjectChunkReader σ) (content : Bytes) (usizeMax position bufferLength : Nat) : Nat :=
  min (min bufferLength reader.maxRangeBytes) (min (content.length - position) usizeMax)

theorem Over.read_eq (hcancelled : use.cancelled = false) (usizeMax : Nat) {position bufferLength : Nat}
    (hbuffer : 0 < bufferLength) (hposition : position < content.length) :
    reader.read state usizeMax position bufferLength use =
      (.ok ((content.drop position).take (readLength reader content usizeMax position bufferLength)),
        position + readLength reader content usizeMax position bufferLength,
        { use with
          requests := use.requests ++ [(position, readLength reader content usizeMax position bufferLength)],
          metrics := use.metrics.record (readLength reader content usizeMax position bufferLength) }) := by
  have hword := h.word
  have hle : readLength reader content usizeMax position bufferLength ≤ content.length - position := by
    unfold readLength
    omega
  have hle' : readLength reader content usizeMax position bufferLength ≤ bufferLength := by
    unfold readLength
    omega
  have htaken : ((content.drop position).take (readLength reader content usizeMax position bufferLength)).length =
      readLength reader content usizeMax position bufferLength := by
    rw [List.length_take, List.length_drop]
    omega
  have hread := h.readRange_eq hcancelled
    (by omega : position + readLength reader content usizeMax position bufferLength ≤ content.length)
  unfold read
  rw [h.size, if_neg (by omega), if_neg (by omega)]
  unfold readLength at hread htaken ⊢
  simp only [hread]
  simp only [htaken]
  rw [if_neg (by omega)]
  simp only [RangeUse.record, htaken]

/-! ## Successive reads -/

omit h in
/-- The reads after the first one, from where it ends. -/
theorem after_succ (usizeMax : Nat) (buffers : Nat → Nat) (position : Nat) (reads : Nat) :
    reader.after state usizeMax buffers position use (reads + 1) =
      reader.after state usizeMax (fun index => buffers (index + 1))
        (reader.read state usizeMax position (buffers 0) use).2.1
        (reader.read state usizeMax position (buffers 0) use).2.2 reads := by
  induction reads with
  | zero => rfl
  | succ reads ih =>
    rw [after, ih]
    rfl

omit h in
theorem readAt_succ (usizeMax : Nat) (buffers : Nat → Nat) (position : Nat) (index : Nat) :
    reader.readAt state usizeMax buffers position use (index + 1) =
      reader.readAt state usizeMax (fun index => buffers (index + 1))
        (reader.read state usizeMax position (buffers 0) use).2.1
        (reader.read state usizeMax position (buffers 0) use).2.2 index := by
  unfold readAt
  rw [after_succ]

theorem Over.after_end (usizeMax : Nat) (buffers : Nat → Nat) (reads : Nat) :
    reader.after state usizeMax buffers content.length use reads = (content.length, use) := by
  induction reads with
  | zero => rfl
  | succ reads ih =>
    rw [after, ih]
    simp only [h.read_end]

/-- Reads into any buffers return the rest of the object in pieces, and then nothing. -/
theorem Over.reads {usizeMax : Nat} (hmax : 1 ≤ reader.maxRangeBytes) (husize : reader.maxRangeBytes ≤ usizeMax) :
    ∀ (rest position : Nat), position + rest = content.length → ∀ (buffers : Nat → Nat), (∀ i, 0 < buffers i) →
      ∀ use : RangeUse, use.cancelled = false →
      ∃ pieces : List Bytes, (∀ piece ∈ pieces, piece ≠ []) ∧ pieces.flatten = content.drop position ∧
        ∀ index, reader.readAt state usizeMax buffers position use index = .ok (pieces.getD index []) ∧
          (reader.after state usizeMax buffers position use index).2.metrics =
            use.metrics.recordAll (pieces.take index) := by
  intro rest
  induction rest using Nat.strong_induction_on with
  | _ rest ih =>
  intro position hposition buffers hbuffers use hcancelled
  rcases Nat.eq_zero_or_pos rest with rfl | hrest
  · obtain rfl : position = content.length := by omega
    refine ⟨[], by simp, by simp, fun index => ⟨?_, ?_⟩⟩
    · unfold readAt
      rw [h.after_end]
      simp only [h.read_end]
      rfl
    · rw [h.after_end, List.take_nil]
      rfl
  · have hread := h.read_eq hcancelled usizeMax (hbuffers 0) (show position < content.length by omega)
    generalize hlength : readLength reader content usizeMax position (buffers 0) = length at hread
    have hpos : 0 < length := by
      have := hbuffers 0
      unfold readLength at hlength
      omega
    have hle : length ≤ content.length - position := by
      unfold readLength at hlength
      omega
    have htaken : ((content.drop position).take length).length = length := by
      rw [List.length_take, List.length_drop]
      omega
    obtain ⟨pieces, hpieces, hflat, hreads⟩ := ih (rest - length) (by omega) (position + length) (by omega)
      (fun index => buffers (index + 1)) (fun i => hbuffers (i + 1))
      { use with requests := use.requests ++ [(position, length)], metrics := use.metrics.record length } hcancelled
    refine ⟨(content.drop position).take length :: pieces, ?_, ?_, fun index => ?_⟩
    · refine List.forall_mem_cons.mpr ⟨fun he => ?_, hpieces⟩
      rw [he] at htaken
      exact absurd htaken (by simp; omega)
    · rw [List.flatten_cons, hflat, ← List.drop_drop, List.take_append_drop]
    · cases index with
      | zero =>
        refine ⟨?_, ?_⟩
        · change (reader.read state usizeMax position (buffers 0) use).1 = _
          rw [hread]
          rfl
        · rw [List.take_zero]
          rfl
      | succ index =>
        obtain ⟨hat, hafter⟩ := hreads index
        rw [readAt_succ, after_succ, hread]
        refine ⟨hat, ?_⟩
        rw [hafter, List.take_succ_cons, RangeMetrics.recordAll, RangeMetrics.recordAll, List.foldl_cons, htaken]

/-! ## A reader in use -/

theorem Over.getBytes_cases (start length : Nat) (use : RangeUse) :
    (∃ error, reader.getBytes state start length use = (.error error, use)) ∨
    ∃ data, data.length = length ∧ length ≤ reader.maxRangeBytes ∧ reader.getBytes state start length use =
      (.ok data, { use with
        requests := use.requests ++ [(start, length)], metrics := use.metrics.record data.length }) := by
  by_cases hrange : length ≤ reader.maxRangeBytes ∧ start + length ≤ reader.size ∧ start + length < 2 ^ 64
  · obtain ⟨hlength, hsize, -⟩ := hrange
    have hsize' : start + length ≤ content.length := h.size ▸ hsize
    cases hcancelled : use.cancelled with
    | false =>
      refine Or.inr ⟨(content.drop start).take length, ?_, hlength, ?_⟩
      · rw [List.length_take, List.length_drop]
        omega
      · rw [h.getBytes_eq_ok hcancelled hlength hsize', List.length_take, List.length_drop,
          Nat.min_eq_left (by omega), hcancelled]
    | true =>
      refine Or.inl ⟨.general "bounded object range failed", ?_⟩
      unfold getBytes readRange
      have hword := h.word
      rw [if_neg (by omega), if_neg (by omega), if_neg (by omega), hcancelled]
      rfl
  · exact Or.inl (getBytes_refused state use hrange)

theorem Over.read_cases {usizeMax : Nat} (hmax : 1 ≤ reader.maxRangeBytes) (husize : reader.maxRangeBytes ≤ usizeMax)
    {position : Nat} (hposition : position ≤ content.length) (bufferLength : Nat) (use : RangeUse) :
    reader.read state usizeMax position bufferLength use = (.ok [], position, use) ∨
    reader.read state usizeMax position bufferLength use = (.error .failed, position, use) ∨
    ∃ data, data ≠ [] ∧ data.length ≤ reader.maxRangeBytes ∧ position + data.length ≤ content.length ∧
      reader.read state usizeMax position bufferLength use =
        (.ok data, position + data.length, { use with
          requests := use.requests ++ [(position, data.length)], metrics := use.metrics.record data.length }) := by
  by_cases hbuffer : bufferLength = 0
  · refine Or.inl ?_
    unfold read
    rw [if_pos (Or.inl hbuffer)]
  · by_cases hend : position = content.length
    · rw [hend]
      exact Or.inl (h.read_end _ _)
    · have hlt : position < content.length := by omega
      cases hcancelled : use.cancelled with
      | true =>
        refine Or.inr (Or.inl ?_)
        unfold read readRange
        rw [h.size, if_neg (by omega), if_neg (by omega), hcancelled]
        rfl
      | false =>
        have hread := h.read_eq hcancelled usizeMax (show 0 < bufferLength by omega) hlt
        generalize hlength : readLength reader content usizeMax position bufferLength = length at hread
        have hbounds : 0 < length ∧ length ≤ reader.maxRangeBytes ∧ position + length ≤ content.length := by
          unfold readLength at hlength
          omega
        have htaken : ((content.drop position).take length).length = length := by
          rw [List.length_take, List.length_drop]
          omega
        refine Or.inr (Or.inr ⟨(content.drop position).take length, fun he => ?_, ?_, ?_, ?_⟩)
        · rw [he] at htaken
          exact absurd htaken (by simp; omega)
        · omega
        · omega
        · rw [hread, htaken, hcancelled]

/-- What all calls so far have returned. -/
def returned (history : List (Call × Reply)) : List Bytes := history.filterMap fun entry => entry.2.returned?

/-- Cursors stay within the object, requests within their bound, and the counters are those of what was returned. -/
structure Bounded (reader : ObjectChunkReader σ) (content : Bytes) (history : List (Call × Reply))
    (session : Session) : Prop where
  cursors : ∀ position ∈ session.cursors, position ≤ content.length
  requests : ∀ request ∈ session.use.requests, request.2 ≤ reader.maxRangeBytes
  metrics : session.use.metrics = .of (returned history)
  sound : ∀ entry ∈ history, entry.2 ≠ .read (.error .panicked)

omit h in
theorem returned_append (history : List (Call × Reply)) (entry : Call × Reply) :
    returned (history ++ [entry]) = returned history ++ entry.2.returned?.toList := by
  unfold returned
  rw [List.filterMap_append]
  cases hr : entry.2.returned? <;> simp [hr]

omit h in
/-- A call that returns nothing changes no more than whether the reader is cancelled, and its cursors. -/
theorem Bounded.quiet {history : List (Call × Reply)} {session : Session}
    (hinv : Bounded reader content history session) {call : Call} {reply : Reply}
    (hreturned : reply.returned? = none) (hsound : reply ≠ .read (.error .panicked)) {next : Session}
    (hrequests : next.use.requests = session.use.requests) (hmetrics : next.use.metrics = session.use.metrics)
    (hcursors : ∀ position ∈ next.cursors, position ≤ content.length) :
    Bounded reader content (history ++ [(call, reply)]) next where
  cursors := hcursors
  requests := hrequests ▸ hinv.requests
  metrics := by
    rw [hmetrics, hinv.metrics, returned_append, hreturned]
    simp
  sound entry he := by
    rcases List.mem_append.mp he with he | he
    · exact hinv.sound entry he
    · rw [List.mem_singleton.mp he]
      exact hsound

omit h in
/-- A call that returns a range has asked for it. -/
theorem Bounded.returns {history : List (Call × Reply)} {session : Session}
    (hinv : Bounded reader content history session) {call : Call} {reply : Reply} {data : Bytes}
    (hreturned : reply.returned? = some data) (hlength : data.length ≤ reader.maxRangeBytes) {next : Session}
    {offset : Nat} (hrequests : next.use.requests = session.use.requests ++ [(offset, data.length)])
    (hmetrics : next.use.metrics = session.use.metrics.record data.length)
    (hcursors : ∀ position ∈ next.cursors, position ≤ content.length) :
    Bounded reader content (history ++ [(call, reply)]) next where
  cursors := hcursors
  requests request hr := by
    rw [hrequests] at hr
    rcases List.mem_append.mp hr with hr | hr
    · exact hinv.requests request hr
    · rw [List.mem_singleton.mp hr]
      exact hlength
  metrics := by
    rw [hmetrics, hinv.metrics, RangeMetrics.record_of, returned_append, hreturned]
    rfl
  sound entry he := by
    rcases List.mem_append.mp he with he | he
    · exact hinv.sound entry he
    · rw [List.mem_singleton.mp he]
      intro hpanicked
      simp only at hpanicked
      rw [hpanicked] at hreturned
      cases hreturned

omit h in
theorem mem_set {cursors : List Nat} {index position bound : Nat} (h : ∀ p ∈ cursors, p ≤ bound)
    (hposition : position ≤ bound) : ∀ p ∈ cursors.set index position, p ≤ bound := by
  intro p hp
  rcases List.mem_or_eq_of_mem_set hp with hp | rfl
  · exact h p hp
  · exact hposition

theorem Over.serve_bounded {usizeMax : Nat} (hmax : 1 ≤ reader.maxRangeBytes)
    (husize : reader.maxRangeBytes ≤ usizeMax) (history : List (Call × Reply)) (session : Session) (call : Call)
    (hinv : Bounded reader content history session) :
    Bounded reader content (history ++ [(call, (reader.serve state usizeMax session call).1)])
      (reader.serve state usizeMax session call).2 := by
  cases call with
  | getRead start =>
    unfold serve getRead
    by_cases hstart : reader.size < start
    · simp only [if_pos hstart]
      exact hinv.quiet rfl (by simp) rfl rfl hinv.cursors
    · simp only [if_neg hstart]
      refine hinv.quiet rfl (by simp) rfl rfl fun position hp => ?_
      rcases List.mem_append.mp hp with hp | hp
      · exact hinv.cursors position hp
      · rw [List.mem_singleton.mp hp, ← h.size]
        omega
  | getBytes start length =>
    unfold serve
    rcases h.getBytes_cases start length session.use with ⟨error, he⟩ | ⟨data, rfl, hlength, hd⟩
    · simp only [he]
      exact hinv.quiet rfl (by simp) rfl rfl hinv.cursors
    · simp only [hd]
      exact hinv.returns rfl hlength rfl rfl hinv.cursors
  | read cursor bufferLength =>
    unfold serve
    cases hc : session.cursors[cursor]? with
    | none =>
      simp only [hc]
      exact hinv.quiet rfl (by simp) rfl rfl hinv.cursors
    | some position =>
      have hposition := hinv.cursors position (List.mem_of_getElem? hc)
      rcases h.read_cases hmax husize hposition bufferLength session.use with hr | hr | ⟨data, hne, hlength, hend, hr⟩
      · simp only [hc, hr]
        exact hinv.quiet rfl (by simp) rfl rfl (mem_set hinv.cursors hposition)
      · simp only [hc, hr]
        exact hinv.quiet rfl (by simp) rfl rfl (mem_set hinv.cursors hposition)
      · have hreturned : Reply.returned? (.read (.ok data)) = some data := if_neg hne
        simp only [hc, hr]
        exact hinv.returns hreturned hlength rfl rfl (mem_set hinv.cursors hend)
  | cancel =>
    unfold serve
    exact hinv.quiet rfl (by simp) rfl rfl hinv.cursors

theorem Over.run_bounded {usizeMax : Nat} (hmax : 1 ≤ reader.maxRangeBytes) (husize : reader.maxRangeBytes ≤ usizeMax)
    (calls : List Call) : Bounded reader content ((reader.machine state usizeMax).trace {} calls)
      ((reader.machine state usizeMax).run {} calls) :=
  (reader.machine state usizeMax).trace_inv
    (I := Bounded reader content) ⟨by simp, by simp, rfl, by simp⟩
    (fun history session call hinv => h.serve_bounded hmax husize history session call hinv) calls

/-- The reader answers as the object in memory would, within its bound, and counts what it returns. -/
theorem range_reader_refines (usizeMax : Nat) (hmax : 1 ≤ reader.maxRangeBytes)
    (husize : reader.maxRangeBytes ≤ usizeMax) :
    (∀ start ≤ content.length, reader.getRead start = .ok start ∧
      ∀ use : RangeUse, use.cancelled = false → ∀ buffers : Nat → Nat, (∀ i, 0 < buffers i) →
      ∃ pieces : List Bytes, (∀ piece ∈ pieces, piece ≠ []) ∧ pieces.flatten = content.drop start ∧
        ∀ index, reader.readAt state usizeMax buffers start use index = .ok (pieces.getD index []) ∧
          (use.metrics = {} → (reader.after state usizeMax buffers start use index).2.metrics =
            { requests := (pieces.take index).length, bytes := (pieces.take index).flatten.length,
              maxRequestBytes := ((pieces.take index).map List.length).foldl max 0 })) ∧
    (∀ start length, ∀ use : RangeUse, use.cancelled = false →
      (length ≤ reader.maxRangeBytes ∧ start + length ≤ content.length ∧ start + length < 2 ^ 64 →
        (reader.getBytes state start length use).1 = .ok ((content.drop start).take length)) ∧
      (¬ (length ≤ reader.maxRangeBytes ∧ start + length ≤ content.length ∧ start + length < 2 ^ 64) →
        ∃ error, (reader.getBytes state start length use).1 = .error error)) ∧
    ∀ calls, Bounded reader content ((reader.machine state usizeMax).trace {} calls)
      ((reader.machine state usizeMax).run {} calls) := by
  refine ⟨fun start hstart => ⟨?_, fun use hcancelled buffers hbuffers => ?_⟩,
    fun start length use hcancelled => ⟨?_, ?_⟩, h.run_bounded hmax husize⟩
  · unfold getRead
    rw [h.size, if_neg (by omega)]
  · obtain ⟨pieces, hpieces, hflat, hreads⟩ := h.reads hmax husize (content.length - start) start (by omega) buffers
      hbuffers use hcancelled
    refine ⟨pieces, hpieces, hflat, fun index => ⟨(hreads index).1, fun hfresh => ?_⟩⟩
    rw [(hreads index).2, hfresh]
    apply RangeMetrics.recordAll_exact fun piece hp => hpieces piece (List.mem_of_mem_take hp)
    have hword := h.word
    have htotal : (pieces.take index).flatten.length ≤ pieces.flatten.length := by
      conv_rhs => rw [← List.take_append_drop index pieces]
      rw [List.flatten_append, List.length_append]
      omega
    rw [hflat, List.length_drop] at htotal
    omega
  · intro ⟨hlength, hrange, _⟩
    rw [h.getBytes_eq_ok hcancelled hlength hrange]
  · intro hrange
    rw [← h.size] at hrange
    obtain ⟨error, herror⟩ := getBytes_refused state use hrange
    exact ⟨error, by rw [herror]⟩

end

/-- A reader of two bytes, one at a time. -/
def oneReader : ObjectChunkReader FileSystem where
  resource := oneHost.nativeStore
  key := "a"
  size := 2
  maxRangeBytes := 1

theorem oneReader_over : oneReader.Over oneFile [1, 2] where
  stored := .localFile oneHost oneFile (by decide) (by decide)
  size := rfl
  word := by decide

theorem range_reader_refines_one :
    (oneReader.getRead 0 = .ok 0 ∧ ∃ pieces : List Bytes, pieces.flatten = [1, 2] ∧
      ∀ index, oneReader.readAt oneFile (2 ^ 64 - 1) (fun _ => 8) 0 {} index = .ok (pieces.getD index [])) ∧
    (oneReader.getBytes oneFile 1 1 {}).1 = .ok [2] := by
  have h := range_reader_refines oneReader_over (2 ^ 64 - 1) (by decide) (by decide)
  obtain ⟨hopen, hreads⟩ := h.1 0 (by decide)
  obtain ⟨pieces, -, hflat, hat⟩ := hreads {} rfl (fun _ => 8) fun _ => by decide
  exact ⟨⟨hopen, pieces, hflat, fun index => (hat index).1⟩, (h.2.1 1 1 {} rfl).1 (by decide)⟩

end ObjectChunkReader

end Parquex
