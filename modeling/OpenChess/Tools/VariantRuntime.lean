import OpenChess.Tools.VariantContractLint

/-!
# The variant runtime

Model of the position functions of `tools/variant_runtime.py`. A position is the
five checked texts, and its identity checks them again under fixed counters.
-/

namespace OpenChess
namespace VariantRuntime

open VariantContractLint (FailureClass checkFen)

/-- `errors.closed_enum` of the variant contract. -/
inductive ErrorCode
  | malformedRequest
  | unknownVariant
  | illegalPosition
  | internal
  deriving DecidableEq, Repr

structure VariantError where
  code : ErrorCode
  failureClass : Option FailureClass
  deriving DecidableEq, Repr

/-- `_CODE_FOR_CLASS.get(cls, "malformed_request")`. -/
def codeForClass : FailureClass → ErrorCode
  | .illegalPosition => .illegalPosition
  | _ => .malformedRequest

/-- The five canonical fields, also the projection `identity` returns. -/
structure Position where
  variant : Text
  board : Text
  sideToMove : Text
  castlingRights : Text
  enPassant : Text
  deriving DecidableEq, Repr

/-- `_REGISTRY[variant]`; every refusal of `check_variant_id` is a malformed
request. -/
def checkedVariant (variant : Scalar) : Except VariantError VariantEntry :=
  match variant.text?.bind fun v => variantEntries.find? fun e => e.id == v with
  | none => .error ⟨.malformedRequest, none⟩
  | some entry => .ok entry

/-- `_checked_fen`. -/
def checkedFen (fen : Scalar) (entry : VariantEntry) : Except VariantError Unit :=
  match checkFen fen entry.castling with
  | .error cls => .error ⟨codeForClass cls, some cls⟩
  | .ok () => .ok ()

/-- The five fields of a checked text. -/
def splitPosition (variant : Text) (fen : Scalar) : Option Position :=
  match fen with
  | .foreign _ => none
  | .str text =>
    match text.splitOn ' ' with
    | [board, side, castling, ep, _, _] => some ⟨variant, board, side, castling, ep⟩
    | _ => none

/-- `parse_position`. -/
def parsePosition (variant fen : Scalar) : Except VariantError Position :=
  match checkedVariant variant with
  | .error e => .error e
  | .ok entry =>
    match checkedFen fen entry with
    | .error e => .error e
    | .ok () =>
      match splitPosition entry.id fen with
      -- a checked text has six fields
      | none => .error ⟨.internal, none⟩
      | some p => .ok p

/-- The text `_validate_fields` checks: the fields under the synthetic counters. -/
def Position.text (p : Position) : Text :=
  [' '].intercalate [p.board, p.sideToMove, p.castlingRights, p.enPassant, ['0'], ['1']]

/-- `identity`, with the revalidation of `_validate_fields`. -/
def identity (p : Position) : Except VariantError Position :=
  match checkedVariant (.str p.variant) with
  | .error e => .error e
  | .ok entry =>
    match checkedFen (.str p.text) entry with
    | .error e => .error e
    | .ok () => .ok p

end VariantRuntime
end OpenChess
