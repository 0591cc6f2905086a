import OpenChess.Graph.TranspositionNode
import OpenChess.Tools.VariantRuntime

/-!
# Graph nodes

Model of `make_record` in `graph/node.py`. The semantic fields of the snapshot
are kept as they are, and only the clocks are normalized.
-/

namespace OpenChess
namespace Node

open PositionDigest (Sha256)
open TranspositionNode (Record)
open VariantRuntime (VariantError)

/-- A `VariantError`, or an exception of the digest runtime. -/
inductive Failure
  | variant (error : VariantError)
  | digest (failure : PositionDigest.Failure)
  deriving DecidableEq, Repr

/-- A recorded target on a text with a nonzero halfmove clock. -/
def staleTarget (snapshotFen : Scalar) : Bool :=
  match snapshotFen with
  | .foreign _ => false
  | .str text =>
    match text.splitOn ' ' with
    | [_, _, _, ep, half, _] => ep != ['-'] && half != ['0']
    | _ => false

/-- `make_record`. -/
def makeRecord (sha : Sha256) (variant snapshotFen : Scalar) : Except Failure Record :=
  match VariantRuntime.parsePosition variant snapshotFen with
  | .error e => .error (.variant e)
  | .ok position =>
    if staleTarget snapshotFen then .error (.variant ⟨.malformedRequest, none⟩)
    else
      match VariantRuntime.identity position with
      | .error e => .error (.variant e)
      | .ok projection =>
        match PositionDigest.digestFen sha variant (.str projection.text) with
        | .error e => .error (.digest e)
        | .ok digest => .ok ⟨projection.variant, digest, projection.text⟩

end Node
end OpenChess
