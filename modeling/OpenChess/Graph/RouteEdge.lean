import OpenChess.Graph.TranspositionNode
import OpenChess.Tools.LegalMovesRuntime

/-!
# The route-edge table

Model of `graph/route_edge.py`. Edges are bucketed by the digest of their
from-snapshot and their move; a bucket scan compares canonical identities. The
snapshots of a source record are checked by the node record validator.
-/

namespace OpenChess
namespace RouteEdge

open Fen PositionDigest
open TranspositionNode (Oracle Listing oracleDigest identityTuple snapshotFen)

inductive FailureClass
  | malformedEdgeRecord
  | malformedPosition
  | unknownVariant
  | conflictingEdge
  deriving DecidableEq, Repr

inductive ErrorCode
  | malformedRequest
  | unknownVariant
  | internal
  deriving DecidableEq, Repr

/-- `failures.mapping` of the contract. -/
def FailureClass.error : FailureClass → ErrorCode
  | .malformedEdgeRecord | .malformedPosition | .conflictingEdge => .malformedRequest
  | .unknownVariant => .unknownVariant

/-- An `EdgeError`, or any other exception. -/
inductive Failure
  | edge (cls : FailureClass)
  | raw
  deriving DecidableEq, Repr

structure Record where
  variant : Text
  move : Text
  fromSnapshotFen : Text
  toSnapshotFen : Text
  deriving DecidableEq, Repr

/-- The canonical four-tuple. -/
structure Identity where
  variant : Text
  move : Text
  fromNode : TranspositionNode.Identity
  toNode : TranspositionNode.Identity
  deriving DecidableEq, Repr

/-- The first three components, `identity[:3]`. -/
def Identity.route (i : Identity) : Text × Text × TranspositionNode.Identity :=
  (i.variant, i.move, i.fromNode)

/-! ### Records -/

/-- `_move_ok`: two distinct squares and an optional promotion letter. -/
def moveOk (move : Text) : Bool :=
  move.all (fun c => decide (c.toNat < 128)) &&
    match move with
    | f :: r :: f' :: r' :: promotion =>
      (squareOf? [f, r]).isSome && (squareOf? [f', r']).isSome && [f, r] != [f', r'] &&
        (promotion == [] || (LegalMoves.promoValues.map LegalMoves.promoLetter).contains promotion)
    | _ => false

def snapshot (variant : Text) (p : Position) : Option Text :=
  (identityTuple variant p).map snapshotFen

/-- `_make_record`. -/
def makeRecord (variant move fromFen toFen : Scalar) : Except Failure Record :=
  match variant with
  | .foreign _ => .error (.edge .unknownVariant)
  | .str variant =>
    if variant ∉ variantIds then .error (.edge .unknownVariant)
    else
      match move, fromFen, toFen with
      | .foreign _, _, _ => .error (.edge .malformedEdgeRecord)
      | .str _, .foreign _, _ | .str _, .str _, .foreign _ => .error (.edge .malformedPosition)
      | .str move, .str fromFen, .str toFen =>
        if moveOk move = false then .error (.edge .malformedEdgeRecord)
        else
          match parseFen fromFen, parseFen toFen with
          | .ok fromPos, .ok toPos =>
            match snapshot variant fromPos, snapshot variant toPos with
            | some fromSnap, some toSnap => .ok ⟨variant, move, fromSnap, toSnap⟩
            | _, _ => .error .raw
          | _, _ => .error (.edge .malformedPosition)

/-- The four declared fields and no others, each an exact string. -/
def readRecord (members : PyDict Member) : Option Record :=
  if members.keys = {key "variant", key "move", key "from_snapshot_fen", key "to_snapshot_fen"} then
    match (members.lookup (key "variant")).bind Member.text?,
        (members.lookup (key "move")).bind Member.text?,
        (members.lookup (key "from_snapshot_fen")).bind Member.text?,
        (members.lookup (key "to_snapshot_fen")).bind Member.text? with
    | some variant, some move, some fromSnap, some toSnap => some ⟨variant, move, fromSnap, toSnap⟩
    | _, _, _, _ => none
  else none

/-- One end of `validate_record`: a node record is built around the snapshot and
passed to the node validator. It calls the oracle twice. -/
def checkEnd (calls : ℕ → Oracle) (variant snap : Text) : Except Failure Unit :=
  match oracleDigest (calls 0) variant snap with
  | .error _ => .error (.edge .malformedEdgeRecord)
  | .ok digest =>
    match TranspositionNode.validateRecord (calls 1)
        (TranspositionNode.Record.object ⟨variant, digest, snap⟩) with
    | .error (.node _) => .error (.edge .malformedEdgeRecord)
    | .error .raw => .error .raw
    | .ok _ => .ok ()

/-- `validate_record`; it calls the oracle four times. -/
def validateRecord (calls : ℕ → Oracle) (record : Object) : Except Failure Record :=
  match record with
  | .foreign _ => .error (.edge .malformedEdgeRecord)
  | .mapping members =>
    match readRecord members with
    | none => .error (.edge .malformedEdgeRecord)
    | some r =>
      if r.variant ∉ variantIds then .error (.edge .unknownVariant)
      else if moveOk r.move = false then .error (.edge .malformedEdgeRecord)
      else
        match checkEnd calls r.variant r.fromSnapshotFen with
        | .error e => .error e
        | .ok () =>
          match checkEnd (fun n => calls (n + 2)) r.variant r.toSnapshotFen with
          | .error e => .error e
          | .ok () => .ok r

/-- The dictionary a table stores for a record. -/
def Record.object (r : Record) : Object :=
  .mapping (((((∅ : PyDict Member).insert (key "variant") (.scalar (.str r.variant))).insert
    (key "move") (.scalar (.str r.move))).insert
    (key "from_snapshot_fen") (.scalar (.str r.fromSnapshotFen))).insert
    (key "to_snapshot_fen") (.scalar (.str r.toSnapshotFen)))

/-! ### The table -/

abbrev Table := Buckets.Table (Text × Text) Record

/-- The node identity of a snapshot; `none` where the linked runtimes raise. -/
def nodeIdentity (variant snap : Text) : Option TranspositionNode.Identity :=
  match parseFen snap with
  | .error _ => none
  | .ok position => identityTuple variant position

/-- `_identity` of a stored record. -/
def identity (r : Record) : Option Identity :=
  match nodeIdentity r.variant r.fromSnapshotFen, nodeIdentity r.variant r.toSnapshotFen with
  | some fromNode, some toNode => some ⟨r.variant, r.move, fromNode, toNode⟩
  | _, _ => none

/-- The bucket loop of `insert`. -/
def findExisting (new : Identity) : List Record → Except Failure (Option Record)
  | [] => .ok none
  | existing :: bucket =>
    match identity existing with
    | none => .error .raw
    | some i =>
      if i = new then .ok (some existing)
      else if i.route = new.route then .error (.edge .conflictingEdge)
      else findExisting new bucket

/-- `insert`. -/
def insert (o : Oracle) (variant move fromFen toFen : Scalar) (T : Table) :
    Except Failure Record × Table :=
  match makeRecord variant move fromFen toFen with
  | .error e => (.error e, T)
  | .ok rec =>
    match oracleDigest o rec.variant rec.fromSnapshotFen with
    | .error _ => (.error (.edge .malformedEdgeRecord), T)
    | .ok digest =>
      match identity rec with
      | none => (.error .raw, T)
      | some new =>
        match findExisting new (Buckets.get T (digest, rec.move)) with
        | .error e => (.error e, T)
        | .ok (some existing) => (.ok existing, T)
        | .ok none => (.ok rec, Buckets.push T (digest, rec.move) rec)

/-- The loop of `merge` on the staged table: each record is validated, then
inserted. -/
def mergeLoop (calls : ℕ → Oracle) : List Object → Table → Except Failure Unit × Table
  | [], staged => (.ok (), staged)
  | record :: source, staged =>
    match validateRecord calls record with
    | .error e => (.error e, staged)
    | .ok r =>
      match insert (calls 4) (.str r.variant) (.str r.move) (.str r.fromSnapshotFen)
          (.str r.toSnapshotFen) staged with
      | (.error e, staged) => (.error e, staged)
      | (.ok _, staged) => mergeLoop (fun n => calls (n + 5)) source staged

/-- `merge`. -/
def merge (calls : ℕ → Oracle) (other : Listing) (T : Table) : Except Failure Unit × Table :=
  match other with
  | .raised => (.error .raw, T)
  | .foreign => (.error (.edge .malformedEdgeRecord), T)
  | .list source =>
    match mergeLoop calls source T with
    | (.error e, _) => (.error e, T)
    | (.ok (), staged) => (.ok (), staged)

/-- `records()` of a table, as the argument of a merge. -/
def listing (T : Table) : Listing := .list ((Buckets.records T).map Record.object)

/-- `serialize`. -/
def serialize (T : Table) : List (Text ×ₗ Text ×ₗ Text ×ₗ Text) :=
  Buckets.sorted ((Buckets.records T).map fun r =>
    toLex (r.variant, toLex (r.move, toLex (r.fromSnapshotFen, r.toSnapshotFen))))

end RouteEdge
end OpenChess
