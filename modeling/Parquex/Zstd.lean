import Parquex.Store

/-!
# Zstandard frames

A value is compressed to one frame, and frames in a row are decompressed up to a
bound on what they hold. The codec is a parameter; the library chooses the largest
window that its decoder allows from the bound on the output.
-/

namespace Parquex

/-! ## The codec -/

/-- What a decoder answers to successive reads, and whether it fails after that. -/
structure DecodedStream where
  pieces : List Bytes
  fails : Bool

structure ZstdCodec where
  minLevel : Int
  maxLevel : Int
  compress : Bytes → Int → Option Bytes
  /-- The limits on the window that a decoder can be given, as powers of two. -/
  allowsWindowLog : Nat → Bool
  decode : Nat → Bytes → DecodedStream

/-! ## Native calls -/

def malformedData : NativeFailure := .new .malformedData .zstdDecompress "input is not a valid zstd frame"

def leadingZeros (value : Nat) : Nat := 64 - Nat.size value

def windowLogMax (maxOutputSize : Nat) : Nat :=
  let requiredBits := 64 - leadingZeros (maxOutputSize - 1)
  max 10 (min requiredBits 31)

/-- Read on until the stream ends, fails or has given as many bytes as the limit; the bytes and whether it failed. -/
def readToEnd : Nat → List Bytes → Bool → Bytes → Bytes × Bool
  | 0, _, _, output => (output, false)
  | _ + 1, [], fails, output => (output, fails)
  | limit + 1, piece :: pieces, fails, output =>
    readToEnd (limit + 1 - (piece.take (limit + 1)).length) pieces fails (output ++ piece.take (limit + 1))

namespace ZstdCodec

variable (codec : ZstdCodec)

def compressNative (data : Bytes) (level : Int) : Except NativeFailure Bytes :=
  if codec.minLevel ≤ level ∧ level ≤ codec.maxLevel then
    match codec.compress data level with
    | some compressed => .ok compressed
    | none => .error (.expected .zstdCompress "zstd compression failed")
  else .error (.invalid .zstdCompress "zstd compression level is outside the supported range")

/-- The output of a decoder under a bound, of which one byte more is read. -/
def output (data : Bytes) (maxOutputSize : Nat) : Bytes × Bool :=
  let stream := codec.decode (windowLogMax maxOutputSize) data
  readToEnd (maxOutputSize + 1) stream.pieces stream.fails []

def decompressNative (data : Bytes) (maxOutputSize : Nat) : Except NativeFailure Bytes :=
  if !codec.allowsWindowLog (windowLogMax maxOutputSize) then .error malformedData
  else if 2 ^ 64 ≤ maxOutputSize + 1 then
    .error (.invalid .zstdDecompress "max_output_size is outside the supported range")
  else
    let (output, failed) := codec.output data maxOutputSize
    if failed then .error malformedData
    else if maxOutputSize < output.length then
      .error (.invalid .zstdDecompress "decompressed data exceeds max_output_size")
    else .ok output

end ZstdCodec

/-! ## The library -/

namespace Zstd

def maxNativeSize : Int := 4294967295

/-- Every option is an allowed one and given at most once. -/
def validateOptions (options : List (String × Term)) (allowed : List String) (operation : String) : Except Error Unit :=
  if (options.map Prod.fst).diff allowed ≠ [] then .error (.invalid operation "unknown option") else .ok ()

def compressionLevel : Term → Except Error Int
  | .int level =>
    if -2147483648 ≤ level ∧ level ≤ 2147483647 then .ok level
    else .error (.invalid "zstd_compress" "level must be a signed 32-bit integer")
  | _ => .error (.invalid "zstd_compress" "level must be a signed 32-bit integer")

def maxOutputSize (options : List (String × Term)) : Except Error Nat :=
  match options.lookup "max_output_size" with
  | some (.int size) =>
    if 0 ≤ size ∧ size ≤ maxNativeSize then .ok size.toNat
    else .error (.invalid "zstd_decompress" "max_output_size must be between 0 and 4294967295 bytes")
  | some _ => .error (.invalid "zstd_decompress" "max_output_size must be between 0 and 4294967295 bytes")
  | none => .error (.invalid "zstd_decompress" "max_output_size is required")

variable (codec : ZstdCodec)

def compress (data : Bytes) (options : List (String × Term)) : Except Error Bytes := do
  validateOptions options ["level"] "zstd_compress"
  let level ← compressionLevel ((options.lookup "level").getD (.int 0))
  Store.nativeResult (codec.compressNative data level)

def decompress (data : Bytes) (options : List (String × Term)) : Except Error Bytes := do
  validateOptions options ["max_output_size"] "zstd_decompress"
  let maxOutputSize ← maxOutputSize options
  Store.nativeResult (codec.decompressNative data maxOutputSize)

end Zstd

end Parquex
