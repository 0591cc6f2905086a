import OpenChess.Lib.Assoc
import OpenChess.Store.Wal

/-!
# Backups

Model of `store/backup.py` on values. The state of a replayed log is handed to an
untrusted serializer, and the receipt binds its answer. A receipt is verified without
any oracle.
-/

namespace OpenChess
namespace Backup

open PositionDigest (Sha256)
open Wal (genesis)

inductive FailureClass
  | malformedBackupRecord
  | corruptSource
  | divergentSnapshot
  | divergentBackup
  deriving DecidableEq, Repr

inductive ErrorCode
  | malformedRequest
  | corruptSource
  | divergentSnapshot
  | divergentBackup
  | internal
  deriving DecidableEq, Repr

/-- `failures.mapping` of the contract. -/
def FailureClass.error : FailureClass → ErrorCode
  | .malformedBackupRecord => .malformedRequest
  | .corruptSource => .corruptSource
  | .divergentSnapshot => .divergentSnapshot
  | .divergentBackup => .divergentBackup

/-- A `BackupError`, or an error of the state id in the replay. -/
inductive Failure
  | backup (cls : FailureClass)
  | diff (cls : Diff.FailureClass)
  deriving DecidableEq, Repr

/-- `record.fields` of the contract. -/
def recordFields : List Text :=
  ["backup_id".toList, "head".toList, "state_id".toList, "entry_count".toList, "bundle".toList]

def backupTag : Text := "bck1:".toList

/-- `identifiers.backup_id.grammar`. -/
def backupGrammar (t : Text) : Bool := Hex.tagged backupTag 64 t

/-- `identifiers.head.grammar`. -/
def headGrammar (t : Text) : Bool := t == genesis || Hex.tagged Wal.entryTag 64 t

/-- `identifiers.state_id.grammar`. -/
def stateGrammar (t : Text) : Bool := Hex.tagged Diff.tag 64 t

/-- `field_definitions.entry_count.max_value`. -/
def countMax : ℕ := 9223372036854775807

/-- `EMPTY_STATE_ID`. -/
def emptyStateId (sha : Sha256) : Text := Diff.contentId sha ∅

/-- `serialize_bundle`: key and record of every member, in key order. -/
def serializeBundle (state : Diff.State) : Text :=
  state.items.flatMap fun e => e.1 ++ ['\n'] ++ Diff.recordText e.2 ++ ['\n']

/-- `derive_backup_id`. -/
def deriveBackupId (sha : Sha256) (head stateId : Text) (entryCount : ℕ) (bundle : Text) : Text :=
  backupTag ++ sha.hexdigest
    (['\n'].intercalate [head, stateId, Nat.toDigits 10 entryCount, bundle])

structure Receipt where
  backupId : Text
  head : Text
  stateId : Text
  entryCount : ℕ
  bundle : Text
  deriving DecidableEq, Repr

def Receipt.toValue (r : Receipt) : Value :=
  .object recordFields [.str r.backupId, .str r.head, .str r.stateId, .int r.entryCount,
    .str r.bundle]

/-- A call of the serializer; `none` where it raises. -/
abbrev Serializer := Diff.State → Option Value

/-- `_serialize`, on the answer of the serializer. -/
def serialize (answer : Option Value) : Except FailureClass Text :=
  match answer with
  | some (.str out) => .ok out
  | _ => .error .divergentSnapshot

/-- `backup`. -/
def backup (sha : Sha256) (serializer : Serializer) (log : Value) : Except Failure Receipt :=
  match log with
  | .list _ =>
    match Wal.replay sha (Wal.pure Wal.canonicalPayload) log with
    | .error (.wal _) => .error (.backup .corruptSource)
    | .error (.diff e) => .error (.diff e)
    | .ok replayed =>
      match serialize (serializer replayed.state) with
      | .error e => .error (.backup e)
      | .ok bundle =>
        .ok ⟨deriveBackupId sha replayed.head replayed.stateId replayed.applied bundle,
          replayed.head, replayed.stateId, replayed.applied, bundle⟩
  | _ => .error (.backup .malformedBackupRecord)

/-- `verify`. -/
def verify (sha : Sha256) (receipt : Value) : Except FailureClass Receipt :=
  match receipt.fields? recordFields with
  | some [.str backupId, .str head, .str stateId, .int count, .str bundle] =>
    if backupGrammar backupId = false ∨ headGrammar head = false ∨ stateGrammar stateId = false then
      .error .malformedBackupRecord
    else if count < 0 ∨ (countMax : ℤ) < count then .error .malformedBackupRecord
    else if count = 0 ∧ (head ≠ genesis ∨ stateId ≠ emptyStateId sha) then .error .divergentBackup
    else if 0 < count ∧ head = genesis then .error .divergentBackup
    else if deriveBackupId sha head stateId count.toNat bundle ≠ backupId then
      .error .divergentBackup
    else .ok ⟨backupId, head, stateId, count.toNat, bundle⟩
  | _ => .error .malformedBackupRecord

def honest : Serializer := fun state => some (.str (serializeBundle state))

end Backup
end OpenChess

/-!
## Restores

Model of `store/restore.py` on values. The bundle of a verified receipt is handed to
an untrusted parser, and what it returns must have the state id and the bundle of the
receipt.
-/

namespace OpenChess
namespace Restore

open PositionDigest (Sha256)
open TranspositionNode (Record)

inductive FailureClass
  | malformedRestoreRecord
  | unverifiedBackup
  | divergentParse
  | divergentState
  deriving DecidableEq, Repr

inductive ErrorCode
  | malformedRequest
  | unverifiedBackup
  | divergentParse
  | divergentState
  | internal
  deriving DecidableEq, Repr

/-- `failures.mapping` of the contract. -/
def FailureClass.error : FailureClass → ErrorCode
  | .malformedRestoreRecord => .malformedRequest
  | .unverifiedBackup => .unverifiedBackup
  | .divergentParse => .divergentParse
  | .divergentState => .divergentState

/-- A `RestoreError`, or an error of the recomputed state id. -/
inductive Failure
  | restore (cls : FailureClass)
  | diff (cls : Diff.FailureClass)
  deriving DecidableEq, Repr

/-! ### The honest parser -/

/-- `pair.partition("=")`, without the separator. -/
def partition (pair : Text) : Text × Text :=
  (pair.takeWhile (· != '='), (pair.dropWhile (· != '=')).drop 1)

/-- The inner loop of `parse_bundle`. -/
def parseRecord (line : Text) : Value :=
  .ofMembers ((line.splitOn '|').foldl
    (fun record pair => Assoc.assign record (partition pair).1 (.str (partition pair).2)) [])

/-- The outer loop of `parse_bundle`; `none` where a record line is missing. -/
def parseLines : List (Text × Value) → List Text → Option (List (Text × Value))
  | state, [] => some state
  | _, [_] => none
  | state, key :: line :: lines => parseLines (Assoc.assign state key (parseRecord line)) lines

def splitLines (t : Text) : List Text :=
  if (t.splitOn '\n').getLast? = some [] then (t.splitOn '\n').dropLast else t.splitOn '\n'

/-- `parse_bundle`; `none` where it raises. -/
def parseBundle (bundle : Text) : Option Value :=
  (parseLines [] (splitLines bundle)).map Value.ofMembers

/-! ### Restore -/

/-- `derive_restore_id`. -/
def deriveRestoreId (sha : Sha256) (backupId stateId : Text) : Text :=
  "rst1:".toList ++ sha.hexdigest (['\n'].intercalate [backupId, stateId])

/-- `_record_identity`. -/
def recordIdentity (sha : Sha256) (v : Value) : Option Text :=
  match Node.readRecord v with
  | none => none
  | some r =>
    match Node.makeRecord sha (.str r.variant) (.str r.snapshotFen) with
    | .error _ => none
    | .ok derived =>
      match Node.recordIdentity sha derived with
      | none => none
      | some identity => if r ≠ derived then none else some identity

def readEntry (sha : Sha256) (key : Text) (v : Value) : Option Record :=
  if recordIdentity sha v = some key then Node.readRecord v else none

structure Receipt where
  restoreId : Text
  backupId : Text
  stateId : Text
  state : Diff.State

/-- A call of the parser; `none` where it raises. -/
abbrev Parser := Text → Option Value

/-- `_parse`, on the answer of the parser. -/
def parse (answer : Option Value) : Except FailureClass Value :=
  match answer with
  | some (.dict entries) => .ok (.dict entries)
  | _ => .error .divergentParse

/-- The checks of `restore` on a parsed bundle: the staged state. -/
def stage (sha : Sha256) (stateId bundle : Text) (parsed : Value) : Except Failure Diff.State :=
  match parsed.readMembers (readEntry sha) with
  | none => .error (.restore .divergentState)
  | some entries =>
    match Diff.stateId sha (Dict.ofList entries) with
    | .error e => .error (.diff e)
    | .ok id =>
      if id ≠ stateId then .error (.restore .divergentState)
      else if Backup.serializeBundle (Dict.ofList entries) ≠ bundle then
        .error (.restore .divergentParse)
      else .ok (Dict.ofList entries)

/-- `restore`. -/
def restore (sha : Sha256) (parser : Parser) (receipt : Value) : Except Failure Receipt :=
  match Backup.verify sha receipt with
  | .error .malformedBackupRecord => .error (.restore .malformedRestoreRecord)
  | .error _ => .error (.restore .unverifiedBackup)
  | .ok r =>
    match parse (parser r.bundle) with
    | .error e => .error (.restore e)
    | .ok parsed =>
      match stage sha r.stateId r.bundle parsed with
      | .error e => .error e
      | .ok state => .ok ⟨deriveRestoreId sha r.backupId r.stateId, r.backupId, r.stateId, state⟩

end Restore
end OpenChess
