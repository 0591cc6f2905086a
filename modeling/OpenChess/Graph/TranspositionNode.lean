import OpenChess.Graph.PositionDigest
import OpenChess.Lib.Buckets
import Mathlib.Data.Char
import Mathlib.Data.Prod.Lex

/-!
# The transposition-node table

Model of `graph/transposition_node.py`. The digest oracle is untrusted: a call
is a reply, and an operation that calls it several times takes one oracle for
each call. Operations return the table they leave behind also when they raise.
-/

namespace OpenChess
namespace TranspositionNode

open Fen PositionDigest

inductive FailureClass
  | malformedNodeRecord
  | malformedPosition
  | unknownVariant
  deriving DecidableEq, Repr

inductive ErrorCode
  | malformedRequest
  | unknownVariant
  | internal
  deriving DecidableEq, Repr

/-- `failures.mapping` of the contract. -/
def FailureClass.error : FailureClass → ErrorCode
  | .malformedNodeRecord | .malformedPosition => .malformedRequest
  | .unknownVariant => .unknownVariant

/-- A `NodeError`, or any other exception. -/
inductive Failure
  | node (cls : FailureClass)
  | raw
  deriving DecidableEq, Repr

/-- The canonical fields of the variant contract, in their order. -/
structure Identity where
  variant : Text
  board : Text
  sideToMove : Text
  castlingRights : Text
  enPassant : Text
  deriving DecidableEq, Repr

structure Record where
  variant : Text
  digest : Text
  snapshotFen : Text
  deriving DecidableEq, Repr

/-- `_identity_tuple`. -/
def identityTuple (variant : Text) (p : Position) : Option Identity :=
  (placementText p).map fun board =>
    ⟨variant, board, [p.color.letter], emitRights p.rights, emitEp (epIdentity p)⟩

/-- `_snapshot_fen`. -/
def snapshotFen (i : Identity) : Text :=
  [' '].intercalate [i.board, i.sideToMove, i.castlingRights, i.enPassant, ['0'], ['1']]

/-! ### The oracle -/

/-- What a call of the oracle does. -/
inductive Reply
  | raised
  | returned (out : Scalar)
  deriving DecidableEq

abbrev Oracle := Text → Text → Reply

def defaultDigest (sha : Sha256) : Oracle := fun variant fen =>
  match digestFen sha (.str variant) (.str fen) with
  | .error _ => .raised
  | .ok out => .returned (.str out)

def Reply.digest? : Reply → Option Text
  | .returned (.str out) => if digestFormat out then some out else none
  | _ => none

/-- `_oracle_digest`. -/
def oracleDigest (o : Oracle) (variant fen : Text) : Except FailureClass Text :=
  match (o variant fen).digest? with
  | none => .error .malformedNodeRecord
  | some out => .ok out

/-! ### Records -/

/-- `_make_record`. -/
def makeRecord (o : Oracle) (variant fen : Scalar) : Except Failure Record :=
  match variant with
  | .foreign _ => .error (.node .unknownVariant)
  | .str variant =>
    if variant ∉ variantIds then .error (.node .unknownVariant)
    else
      match fen with
      | .foreign _ => .error (.node .malformedPosition)
      | .str text =>
        match parseFen text with
        | .error _ => .error (.node .malformedPosition)
        | .ok position =>
          match identityTuple variant position with
          | none => .error .raw
          | some identity =>
            match oracleDigest o variant text with
            | .error cls => .error (.node cls)
            | .ok digest => .ok ⟨variant, digest, snapshotFen identity⟩

def exactDict (members : PyDict Member) : Prop := ∀ k ∈ members.keys, k.text?.isSome

instance (members : PyDict Member) : Decidable (exactDict members) :=
  inferInstanceAs (Decidable (∀ k ∈ members.keys, k.text?.isSome))

/-- The three declared fields and no others, each an exact string. -/
def readRecord (members : PyDict Member) : Option Record :=
  if members.keys = {key "variant", key "digest", key "snapshot_fen"} then
    match (members.lookup (key "variant")).bind Member.text?,
        (members.lookup (key "digest")).bind Member.text?,
        (members.lookup (key "snapshot_fen")).bind Member.text? with
    | some variant, some digest, some snapshot => some ⟨variant, digest, snapshot⟩
    | _, _, _ => none
  else none

/-- The snapshot checks of `validate_record`: it parses, its clocks are
normalized, and its target is the identity value. -/
def checkSnapshot (variant snapshot : Text) : Except Failure Unit :=
  match parseFen snapshot with
  | .error _ => .error (.node .malformedNodeRecord)
  | .ok position =>
    match snapshot.splitOn ' ' with
    | [_, _, _, enPassant, half, full] =>
      if half ≠ ['0'] ∨ full ≠ ['1'] then .error (.node .malformedNodeRecord)
      else
        match identityTuple variant position with
        | none => .error .raw
        | some identity =>
          if enPassant ≠ identity.enPassant then .error (.node .malformedNodeRecord) else .ok ()
    | _ => .error .raw

/-- `validate_record`. -/
def validateRecord (o : Oracle) (record : Object) : Except Failure Record :=
  match record with
  | .foreign _ => .error (.node .malformedNodeRecord)
  | .mapping members =>
    match readRecord members with
    | none => .error (.node .malformedNodeRecord)
    | some r =>
      if r.variant ∉ variantIds then .error (.node .unknownVariant)
      else if digestFormat r.digest = false then .error (.node .malformedNodeRecord)
      else
        match checkSnapshot r.variant r.snapshotFen with
        | .error e => .error e
        | .ok () =>
          match oracleDigest o r.variant r.snapshotFen with
          | .error cls => .error (.node cls)
          | .ok digest =>
            if r.digest ≠ digest then .error (.node .malformedNodeRecord) else .ok r

/-- The dictionary a table stores for a record. -/
def Record.object (r : Record) : Object :=
  .mapping ((((∅ : PyDict Member).insert (key "variant") (.scalar (.str r.variant))).insert
    (key "digest") (.scalar (.str r.digest))).insert
    (key "snapshot_fen") (.scalar (.str r.snapshotFen)))

/-! ### The table -/

abbrev Table := Buckets.Table Text Record

/-- `_identity` of a stored record; `none` where the linked runtimes raise. -/
def identity (r : Record) : Option Identity :=
  match parseFen r.snapshotFen with
  | .error _ => none
  | .ok position => identityTuple r.variant position

/-- The bucket loop of `insert`: the first record with the new identity. -/
def findExisting (new : Identity) : List Record → Except Failure (Option Record)
  | [] => .ok none
  | existing :: bucket =>
    match identity existing with
    | none => .error .raw
    | some i => if i = new then .ok (some existing) else findExisting new bucket

/-- `insert`. -/
def insert (o : Oracle) (variant fen : Scalar) (T : Table) : Except Failure Record × Table :=
  match makeRecord o variant fen with
  | .error e => (.error e, T)
  | .ok rec =>
    match identity rec with
    | none => (.error .raw, T)
    | some new =>
      match findExisting new (Buckets.get T rec.digest) with
      | .error e => (.error e, T)
      | .ok (some existing) => (.ok existing, T)
      | .ok none => (.ok rec, Buckets.push T rec.digest rec)

/-- What `other.records()` does. -/
inductive Listing
  | raised
  | foreign
  | list (records : List Object)

/-- A detached copy of a source record, which must be an exact dictionary. -/
def freeze : Object → Option Object
  | .foreign _ => none
  | .mapping members => if exactDict members then some (.mapping members) else none

def later (calls : ℕ → Oracle) : ℕ → Oracle := fun n => calls (n + 1)

def validateAll (calls : ℕ → Oracle) : List Object → Except Failure (List Record)
  | [] => .ok []
  | record :: frozen =>
    match validateRecord (calls 0) record with
    | .error e => .error e
    | .ok r =>
      match validateAll (later calls) frozen with
      | .error e => .error e
      | .ok rs => .ok (r :: rs)

/-- The staging loop of `merge`, on the staged table. -/
def insertAll (calls : ℕ → Oracle) : List Record → Table → Except Failure Unit × Table
  | [], staged => (.ok (), staged)
  | r :: rs, staged =>
    match insert (calls 0) (.str r.variant) (.str r.snapshotFen) staged with
    | (.error e, staged) => (.error e, staged)
    | (.ok _, staged) => insertAll (later calls) rs staged

/-- `merge`: freeze, validate every record, stage every insertion, adopt. -/
def merge (calls : ℕ → Oracle) (other : Listing) (T : Table) : Except Failure Unit × Table :=
  match other with
  | .raised => (.error .raw, T)
  | .foreign => (.error (.node .malformedNodeRecord), T)
  | .list source =>
    match source.mapM freeze with
    | none => (.error (.node .malformedNodeRecord), T)
    | some frozen =>
      match validateAll calls frozen with
      | .error e => (.error e, T)
      | .ok rs =>
        -- a validated record has made one call, and so does its insertion
        match insertAll (fun n => calls (frozen.length + n)) rs T with
        | (.error e, _) => (.error e, T)
        | (.ok (), staged) => (.ok (), staged)

/-- `records()` of a table, as the argument of a merge. -/
def listing (T : Table) : Listing := .list ((Buckets.records T).map Record.object)

/-- `serialize`. -/
def serialize (T : Table) : List (Text ×ₗ Text ×ₗ Text) :=
  Buckets.sorted ((Buckets.records T).map fun r =>
    toLex (r.variant, toLex (r.digest, r.snapshotFen)))

end TranspositionNode
end OpenChess
