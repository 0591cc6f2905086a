import OpenChess.Lib.Separated
import OpenChess.Store.Wal

/-!
# Rollback

Model of `store/rollback.py` on values. The tail of a replayable log is handed to
an untrusted archiver, and removed once its token is the one derived here.
-/

namespace OpenChess
namespace Rollback

open PositionDigest (Sha256)
open Wal (Entry genesis tipOf)

inductive FailureClass
  | malformedRollbackRecord
  | unknownTarget
  | corruptSource
  | divergentArchive
  deriving DecidableEq, Repr

inductive ErrorCode
  | malformedRequest
  | unknownTarget
  | corruptSource
  | divergentArchive
  | internal
  deriving DecidableEq, Repr

/-- `failures.mapping` of the contract. -/
def FailureClass.error : FailureClass → ErrorCode
  | .malformedRollbackRecord => .malformedRequest
  | .unknownTarget => .unknownTarget
  | .corruptSource => .corruptSource
  | .divergentArchive => .divergentArchive

def requestFields : List Text := ["target_sequence".toList]

def tokenTag : Text := "arc1:".toList

/-- The fields of an entry, in the order of `archive_tail`. -/
def archiveFields (e : Entry) : List Text :=
  [Nat.toDigits 10 e.sequence, e.op.text, e.entryId, e.prior, e.identity, e.record.variant,
    e.record.digest, e.record.snapshotFen]

/-- `archive_tail`. -/
def archiveTail (sha : Sha256) (tail : List Entry) : Text :=
  tokenTag ++ sha.hexdigest (Separated.framed "arc1".toList (tail.flatMap archiveFields))

/-- `derive_rollback_id`. -/
def deriveRollbackId (sha : Sha256) (fromHead toHead : Text) (truncatedCount : ℕ)
    (archiveToken : Text) : Text :=
  "rbk1:".toList ++ sha.hexdigest (['\n'].intercalate
    [fromHead, toHead, Nat.toDigits 10 truncatedCount, archiveToken])

structure Receipt where
  rollbackId : Text
  fromHead : Text
  toHead : Text
  truncatedCount : ℕ
  archiveToken : Text
  deriving DecidableEq, Repr

/-- A call of the archiver; `none` where it raises. -/
abbrev Archiver := List Entry → Option Value

/-- `_archive`, on the answer of the archiver. -/
def archive (answer : Option Value) : Except FailureClass Text :=
  match answer with
  | some (.str out) =>
    if Hex.tagged tokenTag 64 out = false then .error .divergentArchive else .ok out
  | _ => .error .divergentArchive

/-- An accepted request: the frozen log and the target. -/
structure Plan where
  frozen : List Entry
  target : ℕ

/-- The checks of `rollback` before the archiver is called. The state id of a
replay never fails, so every failure of it is a `WalError`. -/
def plan (sha : Sha256) (log request : Value) : Except FailureClass Plan :=
  match log with
  | .list entries =>
    match request.fields? requestFields with
    | some [.int target] =>
      match Wal.replay sha (Wal.pure Wal.canonicalPayload) log with
      | .error _ => .error .corruptSource
      | .ok _ =>
        if target < 0 ∨ (entries.length : ℤ) < target then .error .unknownTarget
        else
          match Wal.validateLog sha entries with
          | .error _ => .error .corruptSource
          | .ok frozen => .ok ⟨frozen, target.toNat⟩
    | _ => .error .malformedRollbackRecord
  | _ => .error .malformedRollbackRecord

def Plan.tail (p : Plan) : List Entry := p.frozen.drop p.target

/-- The `try` block: the token bound to the tail. -/
def Plan.token (sha : Sha256) (p : Plan) (answer : Option Value) : Except FailureClass Text :=
  match archive answer with
  | .error e => .error e
  | .ok token => if token ≠ archiveTail sha p.tail then .error .divergentArchive else .ok token

def Plan.receipt (sha : Sha256) (p : Plan) (token : Text) : Receipt :=
  ⟨deriveRollbackId sha (tipOf p.frozen) (tipOf (p.frozen.take p.target))
      (p.frozen.length - p.target) token,
    tipOf p.frozen, tipOf (p.frozen.take p.target), p.frozen.length - p.target, token⟩

/-- `del log[n:]`. -/
def truncate (n : ℕ) (log : Value) : Value :=
  match log with
  | .list entries => .list (entries.take n)
  | v => v

/-- `rollback`: the log it leaves and the receipt. -/
def rollback (sha : Sha256) (archiver : Archiver) (log request : Value) :
    Except FailureClass (Value × Receipt) :=
  match plan sha log request with
  | .error e => .error e
  | .ok p =>
    match p.token sha (archiver p.tail) with
    | .error e => .error e
    | .ok token => .ok (truncate p.target log, p.receipt sha token)

def honest (sha : Sha256) : Archiver := fun tail => some (.str (archiveTail sha tail))

end Rollback
end OpenChess
