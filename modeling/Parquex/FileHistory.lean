import Parquex.FaultyHistory
import Parquex.FileWriteSound

/-!
# Histories of writes

Parquet files among the objects of a local store. A write that is answered stores
the whole file of its rows; one that fails leaves the objects as they are, whatever
system calls fail and wherever the batches are refused.
-/

namespace Parquex

namespace FileWriter

/-! ## Calls -/

inductive FileCall
  | store (call : StoreCall)
  | write (file : FileInput)

inductive FileAnswer
  | store (answer : StoreAnswer)
  | write (result : Except (Stop Error) Metadata)

/-- The Parquet library, and what a store is used with. -/
structure Library where
  arrow : ArrowWriters
  inspect : Binary → String
  maxRangeBytes : Nat

/-- What the Parquet library documents of its writers. -/
def Library.Rules (library : Library) (Unclosed : ∀ properties fields, (library.arrow properties fields).State → Prop) :
    Prop :=
  ∀ properties fields, (library.arrow properties fields).Rules (Unclosed properties fields)

section
variable (library : Library) (host : LocalHost) (environment : Nat → CallFaults)

def call (s : LocalHost.StoreDisk) : FileCall → FileAnswer × LocalHost.StoreDisk
  | .store call =>
    let answered := (host.writableStore (fun n => (environment n).call) library.maxRangeBytes).call s call
    (.store answered.1, answered.2)
  | .write file =>
    let written := write library.arrow host library.inspect environment s file
    (.write written.1, written.2)

def machine : Machine LocalHost.StoreDisk FileCall FileAnswer := ⟨call library host environment⟩

end

/-! ## What a write is to store -/

variable (library : Library)

def FileInput.arguments (file : FileInput) :
    Except (Stop Error) (Schema × List Batch × Settings × List NativeField) := do
  let (schema, batches, options) ← file.prepare library.inspect
  let (_, settings, native) ← openArguments file.key schema options
  return (schema, batches, settings, native)

/-- The file of the rows, or what a write fails with that no system call fails. -/
def FileInput.content (file : FileInput) : Except (Stop Error) Bytes := do
  let (schema, batches, settings, native) ← file.arguments library
  fileContent library.arrow settings native schema batches

variable {library}

theorem write_cases {Unclosed : ∀ properties fields, (library.arrow properties fields).State → Prop}
    (hlib : library.Rules Unclosed) {host : LocalHost} {environment : Nat → CallFaults} {file : FileInput}
    {schema : Schema} {batches : List Batch} {settings : Settings} {native : List NativeField}
    (h : file.arguments library = .ok (schema, batches, settings, native)) (s : LocalHost.StoreDisk)
    (htree : host.ObjectTree s.files) (hf : host.windows = false ∨ Faultless environment) :
    let written := write library.arrow host library.inspect environment s file
    AcceptedKey file.key ∧
      ((∃ bytes, file.content library = .ok bytes ∧ written.1 = .ok { key := file.key, size := bytes.length } ∧
          host.PutDone s.files file.key bytes written.2.files) ∨
        ∃ stop, written.1 = .error stop ∧ host.PutFailed s.files file.key written.2.files ∧
          (Faultless environment → host.Unstaged s.files → host.Free file.key →
            host.Refused s.files file.key (file.content library) StagedParquet.directoryFailure written.2.files
              stop)) := by
  intro written
  have hcontent : file.content library = fileContent library.arrow settings native schema batches := by
    unfold FileInput.content
    rw [h]
    rfl
  rw [hcontent]
  unfold FileInput.arguments at h
  obtain ⟨⟨schema', batches', options⟩, hprepare, h⟩ := except_bind_eq_ok.mp h
  obtain ⟨⟨key, settings', native'⟩, hargs, h⟩ := except_bind_eq_ok.mp h
  cases h
  obtain ⟨rfl, hk, -, -⟩ := openArguments_eq_ok hargs
  have hwritten : written = writeFile library.arrow host environment s file.key schema batches options := by
    unfold written write
    rw [hprepare]
  rw [hwritten]
  exact ⟨hk, writeFile_cases library.arrow host environment hlib hargs batches s htree hf⟩

/-! ## Without faults -/

section
variable (library)

end

variable {Unclosed : ∀ properties fields, (library.arrow properties fields).State → Prop} {host : LocalHost}
  {environment : Nat → CallFaults}

section
variable (library)

end

end FileWriter

end Parquex
