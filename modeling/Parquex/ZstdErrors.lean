import Parquex.ZstdSound

/-!
# Oversized frames and corrupt ones

The bound on the output limits the window too, so a frame that does not fit can be
stopped by either. Stopped by its window it is called malformed, which is why the
size of the frame in which the bound is passed decides the error.
-/

namespace Parquex

/-! ## What the streaming decoder promises -/

/-- What frames hold in a row. -/
def ZstdFrame.contents (frames : List ZstdFrame) : Bytes := (frames.map ZstdFrame.content).flatten

/-- What the streaming decoder does under a bound: it refuses a frame whose window is too large, unless it
decodes it in a single pass, for which what the frame holds must fit the buffer offered. The buffer is never
larger than what is left to read. -/
structure ZstdCodec.StreamRules (codec : ZstdCodec) (wellFormed : ZstdFrame → Prop) (n : Nat)
    (singlePass : List Bytes → Bytes → Prop) : Prop where
  fits : ∀ before frame, (∀ earlier ∈ before, wellFormed earlier) → wellFormed frame →
    singlePass (before.map ZstdFrame.bytes) frame.bytes →
      frame.content.length ≤ n + 1 - (ZstdFrame.contents before).length
  decode : ∀ frames, frames ≠ [] → (∀ frame ∈ frames, wellFormed frame) →
    ∃ accepted rest, frames = accepted ++ rest ∧
      (codec.decode (windowLogMax n) (frames.map ZstdFrame.bytes).flatten).pieces.flatten =
        ZstdFrame.contents accepted ∧
      (codec.decode (windowLogMax n) (frames.map ZstdFrame.bytes).flatten).fails = decide (rest ≠ []) ∧
      (∀ before frame after, accepted = before ++ frame :: after →
        frame.window ≤ 2 ^ windowLogMax n ∨ singlePass (before.map ZstdFrame.bytes) frame.bytes) ∧
      (∀ frame after, rest = frame :: after →
        2 ^ windowLogMax n < frame.window ∧ ¬ singlePass (accepted.map ZstdFrame.bytes) frame.bytes)

/-- A payload of a middle size is one segment, and its frame declares the size as its window. -/
def ZstdCodec.DeclaresSize (codec : ZstdCodec) (wellFormed : ZstdFrame → Prop) : Prop :=
  ∀ data level, codec.minLevel ≤ level → level ≤ codec.maxLevel →
    ∃ frame, wellFormed frame ∧ codec.compress data level = some frame.bytes ∧ frame.content = data ∧
      frame.window ≤ max 1024 (2 ^ Nat.clog 2 data.length) ∧ frame.window ≤ 2 ^ 27 ∧
      (1024 < data.length → data.length ≤ 2 ^ 19 → frame.window = data.length)

namespace ZstdCodec

variable (codec : ZstdCodec)

def exceeded : Error := .invalid "zstd_decompress" "decompressed data exceeds max_output_size"

/-- The answer for input under a bound. -/
def answer (data : Bytes) (n : Nat) : Except Error Bytes :=
  Zstd.decompress codec data [("max_output_size", .int n)]

/-- Frames are never called malformed, and what they hold beyond the bound is refused for its size. -/
def Separates (frames : List ZstdFrame) (n : Nat) : Prop :=
  (∀ error, codec.answer (frames.map ZstdFrame.bytes).flatten n = .error error → error.category ≠ .malformedData) ∧
  (n < (ZstdFrame.contents frames).length →
    codec.answer (frames.map ZstdFrame.bytes).flatten n = .error exceeded)

/-- Every frame that is read from is within the window allowed, or decoded in a single pass. -/
def WithinWindow (n : Nat) (singlePass : List Bytes → Bytes → Prop) (frames : List ZstdFrame) : Prop :=
  ∀ before frame after, frames = before ++ frame :: after → (ZstdFrame.contents before).length ≤ n →
    frame.window ≤ 2 ^ windowLogMax n ∨ singlePass (before.map ZstdFrame.bytes) frame.bytes

end ZstdCodec

theorem ZstdFrame.contents_append (before after : List ZstdFrame) :
    ZstdFrame.contents (before ++ after) = ZstdFrame.contents before ++ ZstdFrame.contents after := by
  simp [ZstdFrame.contents]

theorem ZstdFrame.contents_cons (frame : ZstdFrame) (after : List ZstdFrame) :
    ZstdFrame.contents (frame :: after) = frame.content ++ ZstdFrame.contents after := by
  simp [ZstdFrame.contents]

/-! ## Frames that are valid -/

namespace ZstdCodec

variable {codec : ZstdCodec} {wellFormed : ZstdFrame → Prop} {n : Nat} {singlePass : List Bytes → Bytes → Prop}

theorem answer_eq (h : codec.Rules wellFormed) (hn : n ≤ 4294967295) (data : Bytes) :
    codec.answer data n =
      if (codec.output data n).2 then .error (.fromNative malformedData)
      else if n < (codec.output data n).1.length then .error exceeded
      else .ok (codec.output data n).1 := by
  unfold answer
  rw [Rules.decompress_eq hn, h.decompressNative_eq hn]
  split
  · rfl
  · split <;> rfl

/-- Input is called malformed exactly when its decoder fails before the bound is passed. -/
theorem answer_malformed (h : codec.Rules wellFormed) (hn : n ≤ 4294967295) (data : Bytes) :
    (∀ error, codec.answer data n = .error error → error.category ≠ .malformedData) ↔
      (codec.output data n).2 = false := by
  rw [answer_eq h hn]
  constructor
  · intro hall
    by_contra hfailed
    rw [Bool.not_eq_false] at hfailed
    exact hall _ (by rw [if_pos hfailed]) rfl
  · intro hfailed error herror
    rw [if_neg (by rw [hfailed]; decide)] at herror
    split at herror
    · cases herror
      decide
    · cases herror

/-- The error for the size keeps valid frames apart from malformed input. -/
theorem separates_of_exceeded {frames : List ZstdFrame}
    (h : codec.answer (frames.map ZstdFrame.bytes).flatten n = .error exceeded) : codec.Separates frames n := by
  refine ⟨fun error herror => ?_, fun _ => h⟩
  rw [h] at herror
  cases herror
  decide

/-- The two errors are kept apart exactly when no frame that is read from is stopped by its window. -/
theorem separates_iff (h : codec.Rules wellFormed) (hs : codec.StreamRules wellFormed n singlePass)
    (hn : n ≤ 4294967295) {frames : List ZstdFrame} (hne : frames ≠ [])
    (hall : ∀ frame ∈ frames, wellFormed frame) :
    codec.Separates frames n ↔ WithinWindow n singlePass frames := by
  obtain ⟨accepted, rest, hframes, hpieces, hfails, haccepted, hrest⟩ := hs.decode frames hne hall
  have houtput := codec.output_eq (frames.map ZstdFrame.bytes).flatten n
  rw [hpieces, hfails] at houtput
  cases rest with
  | nil =>
    -- The decoder has gone through every frame.
    rw [List.append_nil] at hframes
    subst hframes
    rw [show decide (([] : List ZstdFrame) ≠ []) = false from rfl, Bool.false_and] at houtput
    have hok := (answer_malformed h hn (frames.map ZstdFrame.bytes).flatten).mpr (by rw [houtput])
    refine iff_of_true ⟨hok, fun hlarge => ?_⟩ fun before frame after hsplit _ => haccepted before frame after hsplit
    rw [answer_eq h hn, houtput, if_neg Bool.false_ne_true, if_pos (by rw [List.length_take]; omega)]
  | cons frame after =>
    obtain ⟨hwindow, hpass⟩ := hrest frame after rfl
    rw [show decide (frame :: after ≠ []) = true from rfl, Bool.true_and] at houtput
    by_cases hpassed : n < (ZstdFrame.contents accepted).length
    · -- The bound is passed before the frame that is refused.
      refine iff_of_true (separates_of_exceeded ?_) fun before other later hsplit hbefore => ?_
      · rw [answer_eq h hn, houtput, if_neg (by simpa using hpassed), if_pos (by rw [List.length_take]; omega)]
      · rw [hframes, List.append_eq_append_iff] at hsplit
        rcases hsplit with ⟨middle, rfl, -⟩ | ⟨middle, hmiddle, hlater⟩
        · rw [ZstdFrame.contents_append, List.length_append] at hbefore
          omega
        · cases middle with
          | nil =>
            rw [List.append_nil] at hmiddle
            rw [hmiddle] at hpassed
            omega
          | cons first middle =>
            obtain ⟨rfl, -⟩ := List.cons.inj hlater
            exact haccepted before other middle hmiddle
    · refine iff_of_false (fun hseparates => ?_) fun hwithin => ?_
      · have hfailed := (answer_malformed h hn _).mp hseparates.1
        rw [houtput, decide_eq_false_iff_not] at hfailed
        omega
      · rcases hwithin accepted frame after hframes (by omega) with hle | hpass'
        · omega
        · exact hpass hpass'

/-! ## Payloads that are compressed -/

/-- The options of a payload name a level that the codec supports. -/
theorem DeclaresSize.frame_of_compress (hd : codec.DeclaresSize wellFormed) {data bytes : Bytes}
    {options : List (String × Term)} (hc : Zstd.compress codec data options = .ok bytes) :
    ∃ frame, wellFormed frame ∧ frame.bytes = bytes ∧ frame.content = data ∧
      frame.window ≤ max 1024 (2 ^ Nat.clog 2 data.length) ∧ frame.window ≤ 2 ^ 27 ∧
      (1024 < data.length → data.length ≤ 2 ^ 19 → frame.window = data.length) := by
  unfold Zstd.compress at hc
  obtain ⟨-, -, hc⟩ := except_bind_eq_ok.mp hc
  obtain ⟨level, -, hc⟩ := except_bind_eq_ok.mp hc
  have hnative := Store.nativeResult_eq_ok.mp hc
  unfold compressNative at hnative
  split at hnative
  · next hlevel =>
    obtain ⟨frame, hframe, hbytes, hrest⟩ := hd data level hlevel.1 hlevel.2
    rw [hbytes] at hnative
    exact ⟨frame, hframe, Except.ok.inj hnative, hrest⟩
  · cases hnative

/-- Payloads that do not fit have one in which the bound is passed. -/
theorem exists_passing {payloads : List (Bytes × List (String × Term))} {compressed : List Bytes}
    (hc : Compressed codec payloads compressed) (hlarge : n < (contents payloads).length) :
    ∃ before payload after cs bytes rest, payloads = before ++ payload :: after ∧
      compressed = cs ++ bytes :: rest ∧ Compressed codec before cs ∧
      Zstd.compress codec payload.1 payload.2 = .ok bytes ∧ Compressed codec after rest ∧
      (contents before).length ≤ n ∧ n < (contents before).length + payload.1.length := by
  unfold Compressed at hc
  induction hc generalizing n with
  | nil => exact absurd hlarge (Nat.not_lt_zero n)
  | @cons payload bytes after rest hhead htail ih =>
    by_cases hpassed : n < payload.1.length
    · exact ⟨[], payload, after, [], bytes, rest, rfl, rfl, .nil, hhead, htail, Nat.zero_le n, by simpa [contents]⟩
    · have hsum : (contents (payload :: after)).length = payload.1.length + (contents after).length := by
        simp [contents]
      obtain ⟨before, passing, later, cs, bytes', rest', rfl, rfl, hbefore, hpassing, hlater, hle, hlt⟩ :=
        @ih (n - payload.1.length) (by omega)
      have hcount : (contents (payload :: before)).length = payload.1.length + (contents before).length := by
        simp [contents]
      exact ⟨payload :: before, passing, later, bytes :: cs, bytes', rest', rfl, rfl, .cons hhead hbefore,
        hpassing, hlater, by omega, by omega⟩

/-- Only the payload in which the bound is passed can be stopped by its window. -/
theorem withinWindow_iff_passing (hn : n ≤ 4294967295) {before after : List ZstdFrame} {frame : ZstdFrame}
    (hbefore : ∀ earlier ∈ before,
      earlier.window ≤ max 1024 (2 ^ Nat.clog 2 earlier.content.length) ∧ earlier.window ≤ 2 ^ 27)
    (hle : (ZstdFrame.contents before).length ≤ n)
    (hlt : n < (ZstdFrame.contents before).length + frame.content.length) :
    WithinWindow n singlePass (before ++ frame :: after) ↔
      frame.window ≤ 2 ^ windowLogMax n ∨ singlePass (before.map ZstdFrame.bytes) frame.bytes := by
  refine ⟨fun hwithin => hwithin before frame after rfl hle, fun hpassing => ?_⟩
  intro earlier other later hsplit hearlier
  rcases List.append_eq_append_iff.mp hsplit with ⟨middle, rfl, hmiddle⟩ | ⟨middle, rfl, hmiddle⟩
  · cases middle with
    | nil =>
      obtain ⟨rfl, -⟩ := List.cons.inj hmiddle
      rw [List.append_nil]
      exact hpassing
    | cons first middle =>
      obtain ⟨rfl, -⟩ := List.cons.inj hmiddle
      rw [ZstdFrame.contents_append, ZstdFrame.contents_cons, List.length_append, List.length_append] at hearlier
      omega
  · cases middle with
    | nil =>
      obtain ⟨rfl, -⟩ := List.cons.inj hmiddle
      rw [List.append_nil] at hpassing
      exact hpassing
    | cons first middle =>
      obtain ⟨rfl, -⟩ := List.cons.inj hmiddle
      obtain ⟨hwindow, hlimit⟩ := hbefore other (by simp)
      rw [ZstdFrame.contents_append, ZstdFrame.contents_cons, List.length_append, List.length_append] at hle
      exact Or.inl (window_allowed (by omega) hn hwindow hlimit)

/-- The frame of a payload of up to half a mebibyte is within the window allowed when the payload is. -/
theorem window_allowed_iff {frame : ZstdFrame} {data : Bytes}
    (hwindow : frame.window ≤ max 1024 (2 ^ Nat.clog 2 data.length))
    (hdeclared : 1024 < data.length → data.length ≤ 2 ^ 19 → frame.window = data.length)
    (hlength : data.length ≤ 2 ^ 19) :
    frame.window ≤ 2 ^ windowLogMax n ↔ data.length ≤ 2 ^ windowLogMax n := by
  by_cases hlarge : 1024 < data.length
  · rw [hdeclared hlarge hlength]
  · have hallowed : 2 ^ 10 ≤ 2 ^ windowLogMax n := Nat.pow_le_pow_right (by norm_num) (windowLogMax_bounds n).1
    have hclog : 2 ^ Nat.clog 2 data.length ≤ 2 ^ 10 := by
      apply Nat.pow_le_pow_right (by norm_num)
      apply Nat.clog_le_of_le_pow
      omega
    refine iff_of_true ?_ (by omega)
    exact hwindow.trans (max_le (by omega) (by omega))

/-- The payload in which the bound is passed decides which error the frames of payloads have. -/
theorem exceeded_iff_passing (h : codec.Rules wellFormed) (hs : codec.StreamRules wellFormed n singlePass)
    (hd : codec.DeclaresSize wellFormed) (hn : n ≤ 4294967295)
    {before after : List (Bytes × List (String × Term))} {payload : Bytes × List (String × Term)}
    {cs rest : List Bytes} {bytes : Bytes} (hbefore : Compressed codec before cs)
    (hpayload : Zstd.compress codec payload.1 payload.2 = .ok bytes) (hafter : Compressed codec after rest)
    (hle : (contents before).length ≤ n) (hlt : n < (contents before).length + payload.1.length) :
    ∃ frame, wellFormed frame ∧ frame.bytes = bytes ∧ frame.content = payload.1 ∧
      (codec.answer (cs ++ bytes :: rest).flatten n = .error exceeded ↔
        frame.window ≤ 2 ^ windowLogMax n ∨ singlePass cs bytes) ∧
      (n + 1 < (contents before).length + payload.1.length → ¬ singlePass cs bytes) ∧
      (payload.1.length ≤ 2 ^ 19 →
        (frame.window ≤ 2 ^ windowLogMax n ↔ payload.1.length ≤ 2 ^ windowLogMax n)) := by
  obtain ⟨earlier, rfl, hearlier, hallEarlier⟩ := h.frames_of_compressed hbefore
  obtain ⟨frame, hframe, rfl, hcontent, hwindow, -, hdeclared⟩ := hd.frame_of_compress hpayload
  obtain ⟨later, rfl, -, hallLater⟩ := h.frames_of_compressed hafter
  have hcount : (ZstdFrame.contents earlier).length = (contents before).length := by
    rw [ZstdFrame.contents, contents, hearlier]
  have hall : ∀ other ∈ earlier ++ frame :: later, wellFormed other := by
    intro other hother
    rcases List.mem_append.mp hother with hother | hother
    · exact (hallEarlier other hother).1
    · rcases List.mem_cons.mp hother with rfl | hother
      · exact hframe
      · exact (hallLater other hother).1
  have hlarge : n < (ZstdFrame.contents (earlier ++ frame :: later)).length := by
    rw [ZstdFrame.contents_append, ZstdFrame.contents_cons, List.length_append, List.length_append, hcontent]
    omega
  have hbytes : (earlier.map ZstdFrame.bytes ++ frame.bytes :: later.map ZstdFrame.bytes).flatten =
      ((earlier ++ frame :: later).map ZstdFrame.bytes).flatten := by
    rw [List.map_append, List.map_cons]
  refine ⟨frame, hframe, rfl, hcontent, ?_, fun hlong hpass => ?_, window_allowed_iff hwindow hdeclared⟩
  rotate_left
  · have hfits := hs.fits earlier frame (fun other hother => (hallEarlier other hother).1) hframe hpass
    rw [hcontent] at hfits
    omega
  rw [hbytes]
  calc codec.answer ((earlier ++ frame :: later).map ZstdFrame.bytes).flatten n = .error exceeded
      ↔ codec.Separates (earlier ++ frame :: later) n := ⟨separates_of_exceeded, fun hseparates => hseparates.2 hlarge⟩
    _ ↔ WithinWindow n singlePass (earlier ++ frame :: later) := separates_iff h hs hn (by simp) hall
    _ ↔ frame.window ≤ 2 ^ windowLogMax n ∨ singlePass (earlier.map ZstdFrame.bytes) frame.bytes :=
        withinWindow_iff_passing hn (fun other hother => (hallEarlier other hother).2) (by omega)
          (by rw [hcontent]; omega)

end ZstdCodec

/-! ## Frames of one segment -/

/-- A payload of a middle size in one segment, as a raw block or as a block for each byte. -/
def segmentFrame (data : Bytes) : Bytes :=
  if data.length ≤ 65791 then
    [0x28, 0xb5, 0x2f, 0xfd, 0x60, UInt8.ofNat (data.length - 256), UInt8.ofNat ((data.length - 256) / 256),
      UInt8.ofNat (8 * data.length + 1), UInt8.ofNat ((8 * data.length + 1) / 256),
      UInt8.ofNat ((8 * data.length + 1) / 65536)] ++ data
  else
    [0x28, 0xb5, 0x2f, 0xfd, 0xa0, UInt8.ofNat data.length, UInt8.ofNat (data.length / 256),
      UInt8.ofNat (data.length / 65536), UInt8.ofNat (data.length / 16777216)] ++
      (data.flatMap fun byte => [8, 0, 0, byte]) ++ [1, 0, 0]

/-- The window that the first frame declares, what it holds, and what is left after it. -/
def segmentNext : Bytes → Option (Nat × Bytes × Bytes)
  | 0x28 :: 0xb5 :: 0x2f :: 0xfd :: 0x60 :: low :: high :: _ :: _ :: _ :: rest =>
    let length := 256 + (low.toNat + 256 * high.toNat)
    if length ≤ rest.length then some (length, rest.take length, rest.drop length) else none
  | 0x28 :: 0xb5 :: 0x2f :: 0xfd :: 0xa0 :: b₀ :: b₁ :: b₂ :: b₃ :: rest =>
    (rawBlocks rest).map fun (content, rest) =>
      (b₀.toNat + 256 * b₁.toNat + 65536 * b₂.toNat + 16777216 * b₃.toNat, content, rest)
  | data => (rawNext data).map fun (content, rest) => (1024, content, rest)

def segmentDecode (limit : Nat) : Nat → Bytes → DecodedStream
  | 0, _ => { pieces := [], fails := true }
  | _ + 1, [] => { pieces := [], fails := false }
  | fuel + 1, data =>
    match segmentNext data with
    | some (window, content, rest) =>
      if window ≤ limit then
        { pieces := content :: (segmentDecode limit fuel rest).pieces, fails := (segmentDecode limit fuel rest).fails }
      else { pieces := [], fails := true }
    | none => { pieces := [], fails := true }

def sizedFrame (data : Bytes) : Bytes :=
  if 1024 < data.length ∧ data.length ≤ 2 ^ 19 then segmentFrame data else rawFrame data

def sizedWindow (data : Bytes) : Nat := if 1024 < data.length ∧ data.length ≤ 2 ^ 19 then data.length else 1024

def sizedCodec : ZstdCodec where
  minLevel := -131072
  maxLevel := 22
  compress data _ := some (sizedFrame data)
  allowsWindowLog log := decide (10 ≤ log ∧ log ≤ 31)
  decode log data :=
    if data = [] then { pieces := [], fails := true } else segmentDecode (2 ^ log) (data.length + 1) data

def SizedFrame (frame : ZstdFrame) : Prop :=
  frame.bytes = sizedFrame frame.content ∧ frame.window = sizedWindow frame.content

def sized (data : Bytes) : ZstdFrame := { bytes := sizedFrame data, content := data, window := sizedWindow data }

theorem segmentNext_append {data : Bytes} (hmin : 1024 < data.length) (hmax : data.length ≤ 2 ^ 19) (rest : Bytes) :
    segmentNext (segmentFrame data ++ rest) = some (data.length, data, rest) := by
  unfold segmentFrame
  by_cases hshort : data.length ≤ 65791
  · have hlength : 256 + ((UInt8.ofNat (data.length - 256)).toNat +
        256 * (UInt8.ofNat ((data.length - 256) / 256)).toNat) = data.length := by
      rw [UInt8.toNat_ofNat', UInt8.toNat_ofNat']
      omega
    rw [if_pos hshort]
    simp only [List.cons_append, List.nil_append]
    rw [segmentNext]
    simp only [hlength]
    rw [if_pos (by simp), List.take_left, List.drop_left]
  · have hlength : (UInt8.ofNat data.length).toNat + 256 * (UInt8.ofNat (data.length / 256)).toNat +
        65536 * (UInt8.ofNat (data.length / 65536)).toNat +
        16777216 * (UInt8.ofNat (data.length / 16777216)).toNat = data.length := by
      simp only [UInt8.toNat_ofNat']
      omega
    rw [if_neg hshort, List.append_assoc, List.append_assoc]
    simp only [List.cons_append, List.nil_append]
    have hblocks := rawBlocks_append data rest
    simp only [List.cons_append, List.nil_append] at hblocks
    rw [segmentNext, hblocks, Option.map_some]
    simp only [hlength]

theorem segmentNext_raw (data rest : Bytes) :
    segmentNext (rawFrame data ++ rest) = some (1024, data, rest) := by
  have hraw := rawNext_append data rest
  unfold rawFrame at hraw ⊢
  by_cases hshort : data.length < 256
  · rw [if_pos hshort] at hraw ⊢
    simp only [List.cons_append, List.nil_append] at hraw ⊢
    rw [segmentNext, hraw]
    · rfl
    · simp
    · simp
  · rw [if_neg hshort] at hraw ⊢
    simp only [List.append_assoc, List.cons_append, List.nil_append] at hraw ⊢
    rw [segmentNext, hraw]
    · rfl
    · simp
    · simp

theorem segmentNext_sized (data rest : Bytes) :
    segmentNext (sizedFrame data ++ rest) = some (sizedWindow data, data, rest) := by
  unfold sizedFrame sizedWindow
  by_cases hsize : 1024 < data.length ∧ data.length ≤ 2 ^ 19
  · rw [if_pos hsize, if_pos hsize]
    exact segmentNext_append hsize.1 hsize.2 rest
  · rw [if_neg hsize, if_neg hsize]
    exact segmentNext_raw data rest

theorem sizedFrame_length (data : Bytes) : 0 < (sizedFrame data).length := by
  unfold sizedFrame segmentFrame
  split
  · split <;> simp
  · exact rawFrame_length data

/-- The frames before the first whose window is too large come out, and then the decoder fails. -/
theorem segmentDecode_frames (limit : Nat) {frames : List ZstdFrame} (hall : ∀ frame ∈ frames, SizedFrame frame)
    (fuel : Nat) (hfuel : frames.length < fuel) :
    segmentDecode limit fuel (frames.map ZstdFrame.bytes).flatten =
      { pieces := (frames.takeWhile fun frame => frame.window ≤ limit).map ZstdFrame.content,
        fails := decide ((frames.dropWhile fun frame => frame.window ≤ limit) ≠ []) } := by
  induction frames generalizing fuel with
  | nil =>
    obtain ⟨fuel, rfl⟩ := Nat.exists_eq_succ_of_ne_zero (by omega : fuel ≠ 0)
    rfl
  | cons frame frames ih =>
    obtain ⟨fuel, rfl⟩ := Nat.exists_eq_succ_of_ne_zero (by omega : fuel ≠ 0)
    obtain ⟨hframe, hrest⟩ := List.forall_mem_cons.mp hall
    have hnext := segmentNext_sized frame.content (frames.map ZstdFrame.bytes).flatten
    rw [← hframe.1, ← hframe.2] at hnext
    rw [List.map_cons, List.flatten_cons]
    cases hdata : frame.bytes ++ (frames.map ZstdFrame.bytes).flatten with
    | nil =>
      rw [hdata] at hnext
      cases hnext
    | cons byte rest =>
      rw [hdata] at hnext
      unfold segmentDecode
      simp only [hnext]
      by_cases hwindow : frame.window ≤ limit
      · rw [if_pos hwindow, ih hrest fuel (by simpa using hfuel), List.takeWhile_cons_of_pos (by simpa using hwindow),
          List.dropWhile_cons_of_pos (by simpa using hwindow), List.map_cons]
      · rw [if_neg hwindow, List.takeWhile_cons_of_neg (by simpa using hwindow),
          List.dropWhile_cons_of_neg (by simpa using hwindow)]
        rfl

theorem sizedCodec_decode (log : Nat) {frames : List ZstdFrame} (hne : frames ≠ [])
    (hall : ∀ frame ∈ frames, SizedFrame frame) :
    sizedCodec.decode log (frames.map ZstdFrame.bytes).flatten =
      { pieces := (frames.takeWhile fun frame => frame.window ≤ 2 ^ log).map ZstdFrame.content,
        fails := decide ((frames.dropWhile fun frame => frame.window ≤ 2 ^ log) ≠ []) } := by
  have hlength : frames.length ≤ (frames.map ZstdFrame.bytes).flatten.length := by
    have hpos : ∀ size ∈ (frames.map ZstdFrame.bytes).map List.length, 1 ≤ size := by
      simp only [List.mem_map]
      rintro size ⟨bytes, ⟨frame, hframe, rfl⟩, rfl⟩
      rw [(hall frame hframe).1]
      exact sizedFrame_length _
    simpa [List.length_flatten] using List.length_le_sum_of_one_le _ hpos
  have hdata : (frames.map ZstdFrame.bytes).flatten ≠ [] := by
    intro hnil
    rw [hnil, List.length_nil, Nat.le_zero, List.length_eq_zero_iff] at hlength
    exact hne hlength
  unfold sizedCodec
  simp only [if_neg hdata]
  exact segmentDecode_frames _ hall _ (by omega)

theorem window_refused {limit : Nat} {frames after : List ZstdFrame} {frame : ZstdFrame}
    (hrest : (frames.dropWhile fun frame => frame.window ≤ limit) = frame :: after) : limit < frame.window := by
  have hne : frames.dropWhile (fun frame => frame.window ≤ limit) ≠ [] := by
    rw [hrest]
    exact List.cons_ne_nil frame after
  have hhead := List.head_dropWhile_not (fun frame : ZstdFrame => frame.window ≤ limit) hne
  simpa [hrest] using hhead

theorem sized_window {data : Bytes} (hmin : 1024 < data.length) (hmax : data.length ≤ 2 ^ 19) :
    (sized data).window = data.length := if_pos ⟨hmin, hmax⟩

theorem sized_single (data : Bytes) : ∀ frame ∈ [sized data], SizedFrame frame := by
  intro frame hframe
  rw [List.mem_singleton.mp hframe]
  exact ⟨rfl, rfl⟩

theorem sizedWindow_bounds (data : Bytes) :
    sizedWindow data ≤ max 1024 (2 ^ Nat.clog 2 data.length) ∧ sizedWindow data ≤ 2 ^ 27 := by
  unfold sizedWindow
  split
  · next hsize => exact ⟨(Nat.le_pow_clog (by norm_num) _).trans (le_max_right _ _), by omega⟩
  · exact ⟨le_max_left _ _, by norm_num⟩

theorem sizedCodec_declares : sizedCodec.DeclaresSize SizedFrame := by
  intro data level _ _
  refine ⟨sized data, ⟨rfl, rfl⟩, rfl, rfl,
    (sizedWindow_bounds data).1, (sizedWindow_bounds data).2, sized_window⟩

theorem sizedCodec_rules : sizedCodec.Rules SizedFrame where
  compress data level hmin hmax := by
    obtain ⟨frame, hframe, hbytes, hcontent, hwindow, hlimit, -⟩ := sizedCodec_declares data level hmin hmax
    exact ⟨frame, hframe, hbytes, hcontent, hwindow, hlimit⟩
  windowLog log hmin hmax := decide_eq_true ⟨hmin, hmax⟩
  decode log frames hne hall := by
    rw [sizedCodec_decode log hne hall]
    have hsplit := List.takeWhile_append_dropWhile (p := fun frame : ZstdFrame => frame.window ≤ 2 ^ log) (l := frames)
    refine ⟨(frames.takeWhile fun frame => frame.window ≤ 2 ^ log).length, ?_, ?_⟩
    · rw [← List.prefix_iff_eq_take.mp (List.takeWhile_prefix _)]
    · cases hrest : frames.dropWhile fun frame => frame.window ≤ 2 ^ log with
      | nil =>
        rw [hrest, List.append_nil] at hsplit
        exact Or.inl ⟨rfl, by rw [hsplit]⟩
      | cons frame after =>
        have hmem : frame ∈ frames := by
          rw [← hsplit, hrest]
          simp
        exact Or.inr ⟨rfl, frame, hmem, window_refused hrest⟩
  incomplete _ := rfl

/-- This decoder never takes a frame in a single pass. -/
theorem sizedCodec_streams (n : Nat) : sizedCodec.StreamRules SizedFrame n fun _ _ => False where
  fits _ _ _ _ hpass := hpass.elim
  decode frames hne hall := by
    rw [sizedCodec_decode _ hne hall]
    refine ⟨frames.takeWhile fun frame => frame.window ≤ 2 ^ windowLogMax n,
      frames.dropWhile fun frame => frame.window ≤ 2 ^ windowLogMax n,
      List.takeWhile_append_dropWhile.symm, rfl, rfl, ?_, ?_⟩
    · intro before frame after hsplit
      have hmem : frame ∈ frames.takeWhile fun frame => frame.window ≤ 2 ^ windowLogMax n := by
        rw [hsplit]
        simp
      exact Or.inl (by simpa using List.mem_takeWhile_imp hmem)
    · intro frame after hrest
      exact ⟨window_refused hrest, id⟩

/-! ## The two errors -/

namespace ZstdCodec

variable {codec : ZstdCodec} {wellFormed : ZstdFrame → Prop} {n : Nat} {singlePass : List Bytes → Bytes → Prop}

/-- Valid frames are never called malformed, and are refused for their size when they do not fit, exactly when
each that is read from is within the window allowed. Of compressed payloads that is the one in which the bound
is passed. -/
theorem zstd_errors_separate (h : codec.Rules wellFormed) (hs : codec.StreamRules wellFormed n singlePass)
    (hd : codec.DeclaresSize wellFormed) (hn : n ≤ 4294967295) :
    (∀ frames ≠ [], (∀ frame ∈ frames, wellFormed frame) →
      (codec.Separates frames n ↔ WithinWindow n singlePass frames)) ∧
    ∀ payloads compressed, Compressed codec payloads compressed → n < (contents payloads).length →
      ∃ before payload after cs bytes rest, payloads = before ++ payload :: after ∧
        compressed = cs ++ bytes :: rest ∧ cs.length = before.length ∧
        (contents before).length ≤ n ∧ n < (contents before).length + payload.1.length ∧
        ∃ frame, wellFormed frame ∧ frame.bytes = bytes ∧ frame.content = payload.1 ∧
          (codec.answer compressed.flatten n = .error exceeded ↔
            frame.window ≤ 2 ^ windowLogMax n ∨ singlePass cs bytes) ∧
          (n + 1 < (contents before).length + payload.1.length → ¬ singlePass cs bytes) ∧
          (payload.1.length ≤ 2 ^ 19 →
            (frame.window ≤ 2 ^ windowLogMax n ↔ payload.1.length ≤ 2 ^ windowLogMax n)) := by
  refine ⟨fun frames hne hall => separates_iff h hs hn hne hall, fun payloads compressed hc hlarge => ?_⟩
  obtain ⟨before, payload, after, cs, bytes, rest, rfl, rfl, hbefore, hpayload, hafter, hle, hlt⟩ :=
    exists_passing hc hlarge
  exact ⟨before, payload, after, cs, bytes, rest, rfl, rfl, hbefore.length_eq.symm, hle, hlt,
    exceeded_iff_passing h hs hd hn hbefore hpayload hafter hle hlt⟩

end ZstdCodec

/-- One byte below the size of a payload the window is still the whole payload. -/
theorem zstd_errors_separate_below : sizedCodec.Separates [sized (List.replicate 4096 120)] 4095 := by
  refine ((ZstdCodec.zstd_errors_separate sizedCodec_rules (sizedCodec_streams 4095) sizedCodec_declares
    (by norm_num)).1 _ (List.cons_ne_nil _ _) (sized_single _)).mpr ?_
  intro before frame after hsplit _
  have hmem : frame ∈ [sized (List.replicate 4096 120)] := by
    rw [hsplit]
    simp
  have hwindow : (sized (List.replicate 4096 120)).window = 4096 := by
    rw [sized_window (by rw [List.length_replicate]; norm_num) (by rw [List.length_replicate]; norm_num),
      List.length_replicate]
  have hlog : windowLogMax 4095 = 12 := by decide
  rw [List.mem_singleton.mp hmem, hwindow, hlog]
  exact Or.inl (by norm_num)

theorem sizedCodec_answer_large {data : Bytes} {n : Nat} (hn : n ≤ 4294967295)
    (hmin : 1024 < data.length) (hmax : data.length ≤ 2 ^ 19) (hlarge : 2 ^ windowLogMax n < data.length) :
    sizedCodec.answer (sizedFrame data) n = .error (.fromNative malformedData) := by
  have hrefused : ¬ (sized data).window ≤ 2 ^ windowLogMax n := by
    rw [sized_window hmin hmax]
    omega
  have hdecode := sizedCodec_decode (windowLogMax n) (List.cons_ne_nil _ _) (sized_single data)
  rw [List.takeWhile_cons_of_neg (by simpa using hrefused), List.dropWhile_cons_of_neg (by simpa using hrefused),
    List.map_cons, List.map_nil, List.flatten_cons, List.flatten_nil, List.append_nil] at hdecode
  have hstream : sizedCodec.decode (windowLogMax n) (sizedFrame data) = { pieces := [], fails := true } := hdecode
  rw [ZstdCodec.answer_eq sizedCodec_rules hn, ZstdCodec.output_eq, hstream]
  simp

/-- A frame four times as large as the bound is valid, and is called malformed all the same. -/
theorem oversized_called_malformed :
    ¬ ∀ (codec : ZstdCodec) (wellFormed : ZstdFrame → Prop) (n : Nat) (singlePass : List Bytes → Bytes → Prop),
      codec.Rules wellFormed → codec.StreamRules wellFormed n singlePass → codec.DeclaresSize wellFormed →
      n ≤ 4294967295 → ∀ payloads compressed, Compressed codec payloads compressed →
        n < (contents payloads).length → codec.answer compressed.flatten n = .error ZstdCodec.exceeded := by
  intro hall
  have hc : Compressed sizedCodec [(List.replicate 4096 120, [("level", .int 3)])]
      [sizedFrame (List.replicate 4096 120)] := .cons rfl .nil
  have hlength : (contents [(List.replicate 4096 120, [("level", Term.int 3)])]).length = 4096 := by
    rw [contents, List.map_singleton, List.flatten_singleton, List.length_replicate]
  have hexceeded := hall sizedCodec SizedFrame 1024 _ sizedCodec_rules (sizedCodec_streams 1024) sizedCodec_declares
    (by norm_num) _ _ hc (by rw [hlength]; norm_num)
  have hlog : windowLogMax 1024 = 10 := by decide
  rw [List.flatten_singleton, sizedCodec_answer_large (by norm_num)
    (by rw [List.length_replicate]; norm_num) (by rw [List.length_replicate]; norm_num)
    (by rw [List.length_replicate, hlog]; norm_num)] at hexceeded
  exact absurd hexceeded (by decide)

end Parquex
