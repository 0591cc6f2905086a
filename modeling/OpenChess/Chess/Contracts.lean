import OpenChess.Chess.Notation

/-!
# Contract tables shared by several runtimes

Home squares of the castling contract, advance and capture ranks of the
en-passant contract, the registry of the variant contract. Ranks are indices
counted from zero.
-/

namespace OpenChess

structure Home where
  king : Square
  rook : Square
  deriving DecidableEq

/-- `rights.home_squares` of `castling.yaml`. -/
def homeSquares : Right → Home
  | .K => ⟨⟨4, 0⟩, ⟨7, 0⟩⟩
  | .Q => ⟨⟨4, 0⟩, ⟨0, 0⟩⟩
  | .k => ⟨⟨4, 7⟩, ⟨7, 7⟩⟩
  | .q => ⟨⟨4, 7⟩, ⟨0, 7⟩⟩

structure Advance where
  fromRank : Fin 8
  toRank : Fin 8
  targetRank : Fin 8

/-- `target.set_on` of `en_passant.yaml`. -/
def setOn : Color → Advance
  | .white => ⟨1, 3, 2⟩
  | .black => ⟨6, 4, 5⟩

structure Mover where
  moverRank : Fin 8
  capturedRank : Fin 8
  targetRank : Fin 8

/-- `capture.mover` of `en_passant.yaml`. -/
def mover : Color → Mover
  | .white => ⟨4, 4, 5⟩
  | .black => ⟨3, 3, 2⟩

inductive CastlingKind
  | orthodox
  | chess960
  deriving DecidableEq, Repr

structure VariantEntry where
  id : Text
  castling : CastlingKind

/-- `variants.entries` of `variant.yaml`. -/
def variantEntries : List VariantEntry :=
  [⟨['s', 't', 'a', 'n', 'd', 'a', 'r', 'd'], .orthodox⟩]

def variantIds : List Text := variantEntries.map VariantEntry.id

end OpenChess
