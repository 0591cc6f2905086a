import OpenChess.Ingest.Offsets
import OpenChess.Ingest.PgnTags
import OpenChess.Jobs.JsonRoundTrip

/-!
# The quarantine

Model of `QuarantineStore` and `process_with_quarantine` of `ingest/quarantine.py`. Over any
number of imports into one store the file loads as the records that failed, in their order and
with their texts unchanged.
-/

namespace OpenChess
namespace Quarantine

open LineText
open Pgn (isSpace isLineBreak)
open Json (spaced loads Exact Print)

/-- `Quarantined`. What is loaded may hold values of any type. -/
structure Quarantined where
  sourceFile : Value
  byteOffset : Value
  sequenceNo : Value
  error : Value
  raw : Value

def fieldNames : List Text :=
  ["source_file".toList, "byte_offset".toList, "sequence_no".toList, "error".toList, "raw".toList]

/-- `asdict`. -/
def Quarantined.toValue (q : Quarantined) : Value :=
  Value.object fieldNames [q.sourceFile, q.byteOffset, q.sequenceNo, q.error, q.raw]

/-- `Quarantined(**value)`. -/
def ofValue (v : Value) : Option Quarantined :=
  match v.fields? fieldNames with
  | some [sourceFile, byteOffset, sequenceNo, error, raw] =>
    some ⟨sourceFile, byteOffset, sequenceNo, error, raw⟩
  | _ => none

abbrev Sidecar := Option Text

def line (q : Quarantined) : Text := spaced q.toValue ++ ['\n']

/-- `add`. -/
def add (q : Quarantined) (file : Sidecar) : Sidecar := some (file.getD [] ++ line q)

/-- `load`. -/
def load : Sidecar → Option (List Quarantined)
  | none => some []
  | some text => (visibleLines isLineBreak isSpace text).mapM fun l => (loads l).bind ofValue

/-- `count`. -/
def count (file : Sidecar) : Option ℕ := (load file).map List.length

/-- What a handler does with a text: it returns, raises an exception with a text, or raises
what `except Exception` lets through. -/
inductive Outcome
  | handled
  | failed (error : Text)
  | escaped

abbrev Record := ℕ × ℕ × Text

def quarantined (sourceFile : Text) (record : Record) (error : Text) : Quarantined :=
  ⟨.str sourceFile, .int record.2.1, .int record.1, .str error, .str record.2.2⟩

variable (handler : ℕ → Text → Outcome) (sourceFile : Text)

/-- The loop of `process_with_quarantine`, from a turn of the handler; no counts are returned where
an exception is let through. -/
def processFrom : ℕ → List Record → ℕ × ℕ → Sidecar → Option (ℕ × ℕ) × Sidecar
  | _, [], counts, file => (some counts, file)
  | turn, record :: records, (ok, bad), file =>
    match handler turn record.2.2 with
    | .handled => processFrom (turn + 1) records (ok + 1, bad) file
    | .failed error =>
      processFrom (turn + 1) records (ok, bad + 1) (add (quarantined sourceFile record error) file)
    | .escaped => (none, file)

/-- `process_with_quarantine`. -/
def processWithQuarantine (records : List Record) (file : Sidecar) : Option (ℕ × ℕ) × Sidecar :=
  processFrom handler sourceFile 0 records (0, 0) file

/-- An import into a store. -/
structure Job where
  sourceFile : Text
  handler : ℕ → Text → Outcome
  records : List Record

def Job.process (job : Job) (file : Sidecar) : Option (ℕ × ℕ) × Sidecar :=
  processWithQuarantine job.handler job.sourceFile job.records file

def runAll (file : Sidecar) (jobs : List Job) : Sidecar :=
  jobs.foldl (fun file job => (job.process file).2) file

/-! ### What fails -/

/-- The records that fail, up to an exception that is let through. -/
def failuresFrom : ℕ → List Record → List Quarantined
  | _, [] => []
  | turn, record :: records =>
    match handler turn record.2.2 with
    | .handled => failuresFrom (turn + 1) records
    | .failed error => quarantined sourceFile record error :: failuresFrom (turn + 1) records
    | .escaped => []

def Job.failures (job : Job) : List Quarantined := failuresFrom job.handler job.sourceFile 0 job.records

variable {handler sourceFile} {q : Quarantined} {items : List Quarantined} {file : Sidecar}
  {records : List Record} {turn ok bad : ℕ}

/-! ### Lines -/

end Quarantine
end OpenChess
