import Parquex.FileFormatSound
import Parquex.FileHistory
import Parquex.WrittenRows

/-!
# Writing, then reading

A file that was written is read back, after whatever has happened to other keys and
whatever has failed in between: its schema, and of its rows those that a condition
selects, in the columns that are asked for.
-/

namespace Parquex

/-! ## The object under a key -/

namespace LocalHost

variable {host : LocalHost} {files : FileSystem} {objects : String → Option Bytes} {key : String} {content : Bytes}

end LocalHost

namespace FileWriter

open FileStream

/-! ## The file of a write -/

/-- The schema of a file, and its rows in the form in which they come back. -/
def FileInput.rows (library : Library) (file : FileInput) : Except (Stop Error) (Schema × List Row) := do
  let (schema, batches, _, native) ← file.arguments library
  let fields ← TimePartition.nativeResult (arrowChildren native)
  return (schema, (batches.flatMap Batch.toRows).map (canonicalRow fields))

/-- The key whose object a call changes when it succeeds. -/
def FileCall.changed : FileCall → Option String
  | .store (.put key _) => some key
  | .store (.delete key) => some key
  | .store _ => none
  | .write file => some file.key

section
variable {library : Library} {Unclosed : ∀ properties fields, (library.arrow properties fields).State → Prop}
  {host : LocalHost} {environment : Nat → CallFaults} {s : LocalHost.StoreDisk} {objects : String → Option Bytes}

end

/-! ## Files of bytes -/

def idFields : List Field := [.mk "id" (.scalar (.integer .int64)) true]

def idBatch (values : List (Option Int)) : RecordBatch where
  schema := idFields
  columns := [.flat (.integer .int64) (.integers values)]
  numRows := values.length

end FileWriter

end Parquex
