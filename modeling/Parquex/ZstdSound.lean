import Parquex.Zstd
import Parquex.Fallible
import Mathlib.Data.Nat.Log
import Mathlib.Data.Nat.Size

/-!
# Frames come back up to the bound

The window that the decoder is allowed is large enough for every payload that fits
the bound, and the one byte read beyond it tells output that fits from output that
does not.
-/

namespace Parquex

/-! ## What the codec promises -/

/-- A frame, with what it holds and the window that a decoder needs for it. -/
structure ZstdFrame where
  bytes : Bytes
  content : Bytes
  window : Nat

/-- The documented behaviour of the codec, over the frames that are well formed. -/
structure ZstdCodec.Rules (codec : ZstdCodec) (wellFormed : ZstdFrame → Prop) : Prop where
  compress : ∀ data level, codec.minLevel ≤ level → level ≤ codec.maxLevel →
    ∃ frame, wellFormed frame ∧ codec.compress data level = some frame.bytes ∧ frame.content = data ∧
      frame.window ≤ max 1024 (2 ^ Nat.clog 2 data.length) ∧ frame.window ≤ 2 ^ 27
  /-- The limits that a decoder takes on a machine of 64 bits. -/
  windowLog : ∀ log, 10 ≤ log → log ≤ 31 → codec.allowsWindowLog log = true
  /-- The decoder streams the frames that it is given, up to one whose window is too large. -/
  decode : ∀ log frames, frames ≠ [] → (∀ frame ∈ frames, wellFormed frame) →
    ∃ accepted, (codec.decode log (frames.map ZstdFrame.bytes).flatten).pieces.flatten =
        ((frames.take accepted).map ZstdFrame.content).flatten ∧
      ((codec.decode log (frames.map ZstdFrame.bytes).flatten).fails = false ∧ frames.length ≤ accepted ∨
        (codec.decode log (frames.map ZstdFrame.bytes).flatten).fails = true ∧
          ∃ frame ∈ frames, 2 ^ log < frame.window)
  /-- Input that ends before its first frame does is an incomplete frame. -/
  incomplete : ∀ log, codec.decode log [] = { pieces := [], fails := true }

/-! ## Reading up to a limit -/

theorem readToEnd_eq (limit : Nat) (pieces : List Bytes) (fails : Bool) (output : Bytes) :
    readToEnd limit pieces fails output =
      (output ++ pieces.flatten.take limit, fails && decide (pieces.flatten.length < limit)) := by
  induction pieces generalizing limit output with
  | nil =>
    cases limit with
    | zero => simp [readToEnd]
    | succ limit => simp [readToEnd]
  | cons piece pieces ih =>
    cases limit with
    | zero => simp [readToEnd]
    | succ limit =>
      rw [readToEnd, ih, List.flatten_cons, List.append_assoc]
      congr 1
      · have hrest : limit + 1 - min (limit + 1) piece.length = limit + 1 - piece.length := by omega
        rw [List.take_append, List.length_take, hrest]
      · congr 1
        rw [List.length_append, List.length_take, decide_eq_decide]
        omega

theorem ZstdCodec.output_eq (codec : ZstdCodec) (data : Bytes) (maxOutputSize : Nat) :
    codec.output data maxOutputSize =
      ((codec.decode (windowLogMax maxOutputSize) data).pieces.flatten.take (maxOutputSize + 1),
        (codec.decode (windowLogMax maxOutputSize) data).fails &&
          decide ((codec.decode (windowLogMax maxOutputSize) data).pieces.flatten.length < maxOutputSize + 1)) := by
  unfold output
  rw [readToEnd_eq, List.nil_append]

theorem ZstdCodec.output_length (codec : ZstdCodec) (data : Bytes) (maxOutputSize : Nat) :
    (codec.output data maxOutputSize).1.length ≤ maxOutputSize + 1 := by
  rw [output_eq, List.length_take]
  exact Nat.min_le_left _ _

/-! ## Windows -/

theorem windowLogMax_bounds (maxOutputSize : Nat) :
    10 ≤ windowLogMax maxOutputSize ∧ windowLogMax maxOutputSize ≤ 31 := by
  unfold windowLogMax
  simp only
  omega

/-- Below the largest limit the window allowed is the least power of two that holds the output. -/
theorem le_windowLogMax {length maxOutputSize : Nat} (hle : length ≤ maxOutputSize)
    (hsize : maxOutputSize ≤ 4294967295) :
    27 ≤ windowLogMax maxOutputSize ∨ max 1024 (2 ^ Nat.clog 2 length) ≤ 2 ^ windowLogMax maxOutputSize := by
  have hbits : Nat.size (maxOutputSize - 1) ≤ 64 := by
    rw [Nat.size_le]
    omega
  have hlog : windowLogMax maxOutputSize = max 10 (min (Nat.size (maxOutputSize - 1)) 31) := by
    unfold windowLogMax leadingZeros
    simp only
    omega
  by_cases hlarge : 27 ≤ Nat.size (maxOutputSize - 1)
  · left
    omega
  · right
    have hfits : maxOutputSize - 1 < 2 ^ Nat.size (maxOutputSize - 1) := Nat.lt_size_self _
    have hclog : Nat.clog 2 length ≤ Nat.size (maxOutputSize - 1) := by
      apply Nat.clog_le_of_le_pow
      omega
    apply max_le
    · calc 1024 = 2 ^ 10 := by norm_num
        _ ≤ 2 ^ windowLogMax maxOutputSize := Nat.pow_le_pow_right (by norm_num) (by omega)
    · exact Nat.pow_le_pow_right (by norm_num) (by omega)

/-- The decoder is allowed the window of every frame whose content fits. -/
theorem window_allowed {length window maxOutputSize : Nat} (hle : length ≤ maxOutputSize)
    (hsize : maxOutputSize ≤ 4294967295) (hwindow : window ≤ max 1024 (2 ^ Nat.clog 2 length))
    (hlimit : window ≤ 2 ^ 27) : window ≤ 2 ^ windowLogMax maxOutputSize := by
  rcases le_windowLogMax hle hsize with hlarge | hsmall
  · exact hlimit.trans (Nat.pow_le_pow_right (by norm_num) hlarge)
  · exact hwindow.trans hsmall

/-! ## Frames of raw blocks -/

/-- A short payload is one raw block, and a long one has a block for each byte. -/
def rawFrame (data : Bytes) : Bytes :=
  if data.length < 256 then
    [0x28, 0xb5, 0x2f, 0xfd, 0x20, UInt8.ofNat data.length, UInt8.ofNat (8 * data.length + 1),
      UInt8.ofNat ((8 * data.length + 1) / 256), 0] ++ data
  else [0x28, 0xb5, 0x2f, 0xfd, 0, 0] ++ (data.flatMap fun byte => [8, 0, 0, byte]) ++ [1, 0, 0]

def rawBlocks : Bytes → Option (Bytes × Bytes)
  | 8 :: 0 :: 0 :: byte :: rest => (rawBlocks rest).map fun (content, rest) => (byte :: content, rest)
  | 1 :: 0 :: 0 :: rest => some ([], rest)
  | _ => none

/-- What the first frame holds, and what is left after it. -/
def rawNext : Bytes → Option (Bytes × Bytes)
  | 0x28 :: 0xb5 :: 0x2f :: 0xfd :: 0x20 :: length :: _ :: _ :: _ :: rest =>
    if length.toNat ≤ rest.length then some (rest.take length.toNat, rest.drop length.toNat) else none
  | 0x28 :: 0xb5 :: 0x2f :: 0xfd :: 0 :: 0 :: rest => rawBlocks rest
  | _ => none

def rawDecode : Nat → Bytes → DecodedStream
  | 0, _ => { pieces := [], fails := true }
  | _ + 1, [] => { pieces := [], fails := false }
  | fuel + 1, data =>
    match rawNext data with
    | some (content, rest) =>
      { pieces := content :: (rawDecode fuel rest).pieces, fails := (rawDecode fuel rest).fails }
    | none => { pieces := [], fails := true }

def rawCodec : ZstdCodec where
  minLevel := -131072
  maxLevel := 22
  compress data _ := some (rawFrame data)
  allowsWindowLog log := decide (10 ≤ log ∧ log ≤ 31)
  decode _ data := if data = [] then { pieces := [], fails := true } else rawDecode (data.length + 1) data

def RawFrame (frame : ZstdFrame) : Prop :=
  frame.bytes = rawFrame frame.content ∧ frame.window ≤ 1024

theorem rawBlocks_append (data rest : Bytes) :
    rawBlocks ((data.flatMap fun byte => [8, 0, 0, byte]) ++ ([1, 0, 0] ++ rest)) = some (data, rest) := by
  induction data with
  | nil => rfl
  | cons byte data ih =>
    rw [List.flatMap_cons, List.append_assoc]
    simp only [List.cons_append, List.nil_append] at ih ⊢
    rw [rawBlocks, ih]
    rfl

theorem rawNext_append (data rest : Bytes) : rawNext (rawFrame data ++ rest) = some (data, rest) := by
  unfold rawFrame
  by_cases hshort : data.length < 256
  · have hlength : (UInt8.ofNat data.length).toNat = data.length := by
      rw [UInt8.toNat_ofNat']
      omega
    rw [if_pos hshort]
    simp only [List.cons_append, List.nil_append]
    rw [rawNext, hlength, if_pos (by simp), List.take_left, List.drop_left]
  · rw [if_neg hshort, List.append_assoc, List.append_assoc]
    simp only [List.cons_append, List.nil_append]
    rw [rawNext]
    exact rawBlocks_append data rest

theorem rawFrame_length (data : Bytes) : 0 < (rawFrame data).length := by
  unfold rawFrame
  split <;> simp

theorem rawDecode_frames (contents : List Bytes) (fuel : Nat) (hfuel : contents.length < fuel) :
    rawDecode fuel (contents.map rawFrame).flatten = { pieces := contents, fails := false } := by
  induction contents generalizing fuel with
  | nil =>
    obtain ⟨fuel, rfl⟩ := Nat.exists_eq_succ_of_ne_zero (by omega : fuel ≠ 0)
    rfl
  | cons data contents ih =>
    obtain ⟨fuel, rfl⟩ := Nat.exists_eq_succ_of_ne_zero (by omega : fuel ≠ 0)
    rw [List.map_cons, List.flatten_cons]
    have hnext := rawNext_append data (contents.map rawFrame).flatten
    cases hdata : rawFrame data ++ (contents.map rawFrame).flatten with
    | nil =>
      rw [hdata] at hnext
      cases hnext
    | cons byte rest =>
      rw [hdata] at hnext
      unfold rawDecode
      simp only [hnext]
      rw [ih fuel (by simpa using hfuel)]

theorem rawCodec_rules : rawCodec.Rules RawFrame where
  compress data _ _ _ := ⟨{ bytes := rawFrame data, content := data, window := 1024 }, ⟨rfl, le_rfl⟩, rfl, rfl,
    le_max_left _ _, by norm_num⟩
  windowLog log hmin hmax := decide_eq_true ⟨hmin, hmax⟩
  decode log frames hne hall := by
    have hbytes : frames.map ZstdFrame.bytes = (frames.map ZstdFrame.content).map rawFrame := by
      rw [List.map_map]
      exact List.map_congr_left fun frame hframe => (hall frame hframe).1
    have hlength : (frames.map ZstdFrame.content).length ≤ (frames.map ZstdFrame.bytes).flatten.length := by
      rw [hbytes]
      generalize frames.map ZstdFrame.content = contents
      induction contents with
      | nil => simp
      | cons data contents ih =>
        have hdata := rawFrame_length data
        simp only [List.map_cons, List.flatten_cons, List.length_append, List.length_cons]
        omega
    have hdecode : rawCodec.decode log (frames.map ZstdFrame.bytes).flatten =
        { pieces := frames.map ZstdFrame.content, fails := false } := by
      have hdata : (frames.map ZstdFrame.bytes).flatten ≠ [] := by
        intro hnil
        rw [hnil, List.length_nil, Nat.le_zero, List.length_map, List.length_eq_zero_iff] at hlength
        exact hne hlength
      unfold rawCodec
      simp only [if_neg hdata]
      rw [hbytes] at hlength ⊢
      exact rawDecode_frames _ _ (by omega)
    rw [hdecode]
    exact ⟨frames.length, by rw [List.take_length], Or.inl ⟨rfl, le_rfl⟩⟩
  incomplete _ := rfl

/-! ## Round trip -/

/-- What payloads hold in a row. -/
def contents (payloads : List (Bytes × List (String × Term))) : Bytes := (payloads.map Prod.fst).flatten

/-- Every payload is compressed under its options. -/
def Compressed (codec : ZstdCodec) (payloads : List (Bytes × List (String × Term))) (compressed : List Bytes) : Prop :=
  List.Forall₂ (fun payload bytes => Zstd.compress codec payload.1 payload.2 = .ok bytes) payloads compressed

theorem Store.nativeResult_eq_ok {α : Type} {x : Except NativeFailure α} {a : α} :
    Store.nativeResult x = .ok a ↔ x = .ok a := by
  cases x <;> simp [Store.nativeResult]

namespace ZstdCodec.Rules

variable {codec : ZstdCodec} {wellFormed : ZstdFrame → Prop} (h : codec.Rules wellFormed)
include h

/-- A compressed payload is a frame that holds it, in a window of its size. -/
theorem frame_of_compress {data bytes : Bytes} {options : List (String × Term)}
    (hc : Zstd.compress codec data options = .ok bytes) :
    ∃ frame, wellFormed frame ∧ frame.bytes = bytes ∧ frame.content = data ∧
      frame.window ≤ max 1024 (2 ^ Nat.clog 2 data.length) ∧ frame.window ≤ 2 ^ 27 := by
  unfold Zstd.compress at hc
  obtain ⟨-, -, hc⟩ := except_bind_eq_ok.mp hc
  obtain ⟨level, -, hc⟩ := except_bind_eq_ok.mp hc
  have hnative := Store.nativeResult_eq_ok.mp hc
  unfold compressNative at hnative
  split at hnative
  · next hlevel =>
    obtain ⟨frame, hframe, hbytes, hcontent, hwindow, hlimit⟩ := h.compress data level hlevel.1 hlevel.2
    rw [hbytes] at hnative
    exact ⟨frame, hframe, Except.ok.inj hnative, hcontent, hwindow, hlimit⟩
  · cases hnative

/-- Compressed payloads are well-formed frames in a row that hold them. -/
theorem frames_of_compressed {payloads : List (Bytes × List (String × Term))} {compressed : List Bytes}
    (hc : Compressed codec payloads compressed) :
    ∃ frames : List ZstdFrame, frames.map ZstdFrame.bytes = compressed ∧
      frames.map ZstdFrame.content = payloads.map Prod.fst ∧
      ∀ frame ∈ frames, wellFormed frame ∧ frame.window ≤ max 1024 (2 ^ Nat.clog 2 frame.content.length) ∧
        frame.window ≤ 2 ^ 27 := by
  unfold Compressed at hc
  induction hc with
  | nil => exact ⟨[], rfl, rfl, by simp⟩
  | cons hhead _ ih =>
    obtain ⟨frame, hframe, rfl, hcontent, hwindow⟩ := h.frame_of_compress hhead
    obtain ⟨frames, rfl, hcontents, hall⟩ := ih
    refine ⟨frame :: frames, rfl, ?_, ?_⟩
    · rw [List.map_cons, List.map_cons, hcontent, hcontents]
    · exact List.forall_mem_cons.mpr ⟨⟨hframe, hcontent ▸ hwindow⟩, hall⟩

/-- The decoder fails on the payloads only when they do not fit, and otherwise streams them. -/
theorem decode_compressed {payloads : List (Bytes × List (String × Term))} {compressed : List Bytes}
    (hc : Compressed codec payloads compressed) (hne : payloads ≠ []) {n : Nat} (hn : n ≤ 4294967295) :
    ((codec.decode (windowLogMax n) compressed.flatten).fails = false ∧
        (codec.decode (windowLogMax n) compressed.flatten).pieces.flatten = contents payloads) ∨
      ((codec.decode (windowLogMax n) compressed.flatten).fails = true ∧ n < (contents payloads).length) := by
  obtain ⟨frames, rfl, hcontents, hall⟩ := h.frames_of_compressed hc
  have hframes : frames ≠ [] := by
    rintro rfl
    exact hne (List.map_eq_nil_iff.mp hcontents.symm)
  obtain ⟨accepted, hpieces, hend⟩ := h.decode (windowLogMax n) frames hframes fun frame hf => (hall frame hf).1
  rcases hend with ⟨hfails, hlength⟩ | ⟨hfails, frame, hframe, hlarge⟩
  · refine Or.inl ⟨hfails, ?_⟩
    rw [hpieces, List.take_of_length_le hlength, hcontents]
    rfl
  · refine Or.inr ⟨hfails, ?_⟩
    -- The window was refused, so this content alone is longer than the bound.
    by_contra hfits
    have hle : frame.content.length ≤ (contents payloads).length := by
      have hmem : frame.content ∈ payloads.map Prod.fst := hcontents ▸ List.mem_map_of_mem hframe
      unfold contents
      exact (List.sublist_flatten_of_mem hmem).length_le
    obtain ⟨-, hwindow, hlimit⟩ := hall frame hframe
    have hallowed := window_allowed (by omega) hn hwindow hlimit
    omega

theorem decompressNative_eq {n : Nat} (hn : n ≤ 4294967295) (data : Bytes) :
    codec.decompressNative data n =
      if (codec.output data n).2 then .error malformedData
      else if n < (codec.output data n).1.length then
        .error (.invalid .zstdDecompress "decompressed data exceeds max_output_size")
      else .ok (codec.output data n).1 := by
  unfold decompressNative
  rw [h.windowLog _ (windowLogMax_bounds n).1 (windowLogMax_bounds n).2]
  simp only [Bool.not_true, Bool.false_eq_true, if_false]
  rw [if_neg (by omega)]

omit h in
theorem decompress_eq {n : Nat} (hn : n ≤ 4294967295) (data : Bytes) :
    Zstd.decompress codec data [("max_output_size", .int n)] = Store.nativeResult (codec.decompressNative data n) := by
  have hoptions : Zstd.validateOptions [("max_output_size", Term.int n)] ["max_output_size"] "zstd_decompress" =
      .ok () := rfl
  have hsize : Zstd.maxOutputSize [("max_output_size", .int n)] = .ok n := by
    unfold Zstd.maxOutputSize Zstd.maxNativeSize
    rw [List.lookup_cons_self]
    simp only
    rw [if_pos (by omega), Int.toNat_natCast]
  unfold Zstd.decompress
  rw [hoptions, hsize]
  rfl

/-- Output that does not fit and has not failed has the one byte more than the bound. -/
theorem output_long {payloads : List (Bytes × List (String × Term))} {compressed : List Bytes}
    (hc : Compressed codec payloads compressed) {n : Nat} (hn : n ≤ 4294967295)
    (hlarge : payloads = [] ∨ n < (contents payloads).length) (hok : (codec.output compressed.flatten n).2 = false) :
    n < (codec.output compressed.flatten n).1.length := by
  rw [codec.output_eq] at hok ⊢
  by_cases hne : payloads = []
  · subst hne
    cases hc
    rw [List.flatten_nil, h.incomplete] at hok
    simp at hok
  · rw [List.length_take]
    rcases h.decode_compressed hc hne hn with ⟨-, hpieces⟩ | ⟨hfails, -⟩
    · rw [hpieces]
      have hlong := hlarge.resolve_left hne
      omega
    · rw [hfails, Bool.true_and, decide_eq_false_iff_not] at hok
      omega

/-- Frames in a row come back when there is one and they fit the bound, and otherwise there is an error. -/
theorem zstd_round_trip {payloads : List (Bytes × List (String × Term))} {compressed : List Bytes}
    (hc : Compressed codec payloads compressed) {n : Nat} (hn : n ≤ 4294967295) :
    (payloads ≠ [] ∧ (contents payloads).length ≤ n →
      Zstd.decompress codec compressed.flatten [("max_output_size", .int n)] = .ok (contents payloads)) ∧
    (payloads = [] ∨ n < (contents payloads).length →
      ∃ error, Zstd.decompress codec compressed.flatten [("max_output_size", .int n)] = .error error) ∧
    (codec.output compressed.flatten n).1.length ≤ n + 1 := by
  rw [decompress_eq hn, h.decompressNative_eq hn]
  refine ⟨fun ⟨hne, hfits⟩ => ?_, fun hlarge => ?_, codec.output_length _ _⟩
  · rcases h.decode_compressed hc hne hn with ⟨hfails, hpieces⟩ | ⟨-, hlarge⟩
    · have houtput : codec.output compressed.flatten n = (contents payloads, false) := by
        rw [output_eq, hfails, hpieces, List.take_of_length_le (by omega), Bool.false_and]
      rw [houtput]
      simp only [Bool.false_eq_true, if_false]
      rw [if_neg (by omega)]
      rfl
    · omega
  · by_cases hfailed : (codec.output compressed.flatten n).2 = true
    · rw [if_pos hfailed]
      exact ⟨_, rfl⟩
    · rw [if_neg hfailed, if_pos (h.output_long hc hn hlarge (by simpa using hfailed))]
      exact ⟨_, rfl⟩

end ZstdCodec.Rules

theorem zstd_round_trip_one :
    Zstd.decompress rawCodec [0x28, 0xb5, 0x2f, 0xfd, 0x20, 1, 9, 0, 0, 97] [("max_output_size", .int 1)] =
      .ok [97] := by
  have hc : Compressed rawCodec [([97], [("level", .int 3)])] [rawFrame [97]] := .cons rfl .nil
  exact (ZstdCodec.Rules.zstd_round_trip rawCodec_rules hc (by norm_num)).1 ⟨by simp, le_rfl⟩

/-- No payloads are an empty input, which is refused although nothing fits every bound. -/
theorem no_frames_refused :
    ¬ ∀ (codec : ZstdCodec) (wellFormed : ZstdFrame → Prop), codec.Rules wellFormed →
      ∀ payloads compressed, Compressed codec payloads compressed → ∀ n ≤ 4294967295,
        (Zstd.decompress codec compressed.flatten [("max_output_size", .int (n : Nat))] = .ok (contents payloads) ↔
          (contents payloads).length ≤ n) := by
  intro hall
  have hempty := (hall rawCodec RawFrame rawCodec_rules [] [] .nil 0 (by norm_num)).mpr le_rfl
  exact absurd hempty (by decide)

end Parquex
