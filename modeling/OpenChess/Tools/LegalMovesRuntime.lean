import OpenChess.Chess.Moves
import OpenChess.Chess.Value

/-!
# The legal-moves runtime

Model of `tools/legal_moves_runtime.py` over the shipped legal-moves contract.
Structural tests on the caller's objects come first and give back typed values;
the move core then works on a placement and a side. A set of squares is a list
read through membership, and `sorted` enumerates it in name order.
-/

namespace OpenChess
namespace LegalMoves

inductive ErrorCode
  | malformedRequest
  | illegalMove
  | internal
  deriving DecidableEq, Repr

inductive FailureClass
  | malformedMove
  | noPiece
  | notPlayersPiece
  | unreachableTarget
  | promotionMissing
  | promotionForbidden
  | leavesKingAttacked
  | wrongVariant
  deriving DecidableEq, Repr

/-- The contract's `failure_mapping`. -/
def FailureClass.error : FailureClass → ErrorCode
  | .malformedMove | .wrongVariant => .malformedRequest
  | _ => .illegalMove

/-- `LegalMovesError`: a declared class with the code its mapping fixes, or the
structural `malformed_request` that carries no class. -/
inductive LegalMovesError
  | failed (failureClass : FailureClass)
  | malformed
  deriving DecidableEq, Repr

def LegalMovesError.code : LegalMovesError → ErrorCode
  | .failed cls => cls.error
  | .malformed => .malformedRequest

/-- `move_model.promotion_expansion.values`, also the promotion enum. -/
def promoValues : List Kind := [.queen, .rook, .bishop, .knight]

def promoLetter (k : Kind) : Text := [(Piece.mk .black k).letter]

/-- `movement.knight.deltas` and `movement.king.deltas`. -/
def leaper : Kind → Option (List Delta)
  | .knight => some [(1, 2), (2, 1), (-1, 2), (-2, 1), (1, -2), (2, -1), (-1, -2), (-2, -1)]
  | .king => some [(1, 0), (-1, 0), (0, 1), (0, -1), (1, 1), (1, -1), (-1, 1), (-1, -1)]
  | _ => none

/-- `movement.rook.directions`, `movement.bishop.directions`, `movement.queen.directions`. -/
def slider : Kind → Option (List Delta)
  | .rook => some [(1, 0), (-1, 0), (0, 1), (0, -1)]
  | .bishop => some [(1, 1), (1, -1), (-1, 1), (-1, -1)]
  | .queen => some [(1, 0), (-1, 0), (0, 1), (0, -1), (1, 1), (1, -1), (-1, 1), (-1, -1)]
  | _ => none

/-- `movement.pawn.forward`. -/
def pawnForward : Color → Delta
  | .white => (0, 1)
  | .black => (0, -1)

/-- `movement.pawn.capture_deltas`. -/
def captureDeltas : Color → List Delta
  | .white => [(1, 1), (-1, 1)]
  | .black => [(1, -1), (-1, -1)]

/-- Rank indices of `movement.pawn.double.ranks`. -/
def doubleRank : Color → ℤ
  | .white => 1
  | .black => 6

/-- Rank indices of `movement.pawn.promotion_ranks`. -/
def promoRank : Color → ℤ
  | .white => 7
  | .black => 0

structure State where
  occupied : Placement
  sideToMove : Color

def State.Valid (s : State) : Prop :=
  ∀ side : Color, (s.occupied.squaresOf (king side)).length = 1

instance (s : State) : Decidable s.Valid :=
  inferInstanceAs (Decidable (∀ side : Color, (s.occupied.squaresOf (king side)).length = 1))

/-- A state `_validate_state` lets through. -/
structure ValidState extends State where
  valid : toState.Valid

/-- Exactly the two declared fields, contract squares and tokens, one king per side. -/
def validateState (state : Object) : Except LegalMovesError ValidState :=
  match state with
  | .foreign _ => .error .malformed
  | .mapping members =>
    if members.keys = {key "occupied", key "side_to_move"} then
      match members.lookup (key "occupied"), members.lookup (key "side_to_move") with
      | some (.mapping entries), some side =>
        match readOccupied entries, side.text?.bind fun t => readBack [.white, .black]
            (fun c : Color => [c.letter]) t with
        | some occupied, some sideToMove =>
          if h : State.Valid ⟨occupied, sideToMove⟩ then .ok ⟨⟨occupied, sideToMove⟩, h⟩
          else .error .malformed
        | _, _ => .error .malformed
      | _, _ => .error .malformed
    else .error .malformed

/-- `sorted` of a set of squares: name order, no repetition. -/
def sortedSquares (squares : List Square) : List Square :=
  allSquares.filter fun s => decide (s ∈ squares)

def leapSquares (deltas : List Delta) (sq : Square) : List Square :=
  deltas.filterMap fun d => sqAt (sq.x + d.1) (sq.y + d.2)

def slideSquares (occ : Placement) (dirs : List Delta) (sq : Square) : List Square :=
  dirs.flatMap fun d => scan occ d sq.x sq.y

/-- `hit is None or hit[0] != side`. -/
def freeOrEnemy (occ : Placement) (side : Color) (t : Square) : Bool :=
  match occ t with
  | none => true
  | some hit => decide (hit.color ≠ side)

/-- One step onto an empty square, and from the double rank a second one. -/
def pawnAdvances (occ : Placement) (side : Color) (sq : Square) : List Square :=
  let f := pawnForward side
  match sqAt (sq.x + f.1) (sq.y + f.2) with
  | none => []
  | some one =>
    if occ one ≠ none then []
    else
      match sqAt (sq.x + 2 * f.1) (sq.y + 2 * f.2) with
      | none => [one]
      | some two => if sq.y = doubleRank side ∧ occ two = none then [one, two] else [one]

/-- Capture deltas that land on an enemy piece. -/
def pawnHits (occ : Placement) (side : Color) (sq : Square) : List Square :=
  (leapSquares (captureDeltas side) sq).filter fun t =>
    match occ t with
    | none => false
    | some hit => decide (hit.color ≠ side)

/-- `_pseudo_targets`; callers pass an occupied square. The opposing king's
square is never a destination. -/
def pseudoTargets (occ : Placement) (sq : Square) : List Square :=
  match occ sq with
  | none => []
  | some tok =>
    let side := tok.color
    let targets :=
      match leaper tok.kind, slider tok.kind with
      | some deltas, _ => (leapSquares deltas sq).filter (freeOrEnemy occ side)
      | none, some dirs => (slideSquares occ dirs sq).filter (freeOrEnemy occ side)
      | none, none => pawnAdvances occ side sq ++ pawnHits occ side sq
    targets.filter fun t => decide (occ t ≠ some (king side.other))

/-- `_attacked_squares`: everything a side's pieces cover, whatever stands there. -/
def attackedSquares (occ : Placement) (side : Color) : List Square :=
  allSquares.flatMap fun sq =>
    match occ sq with
    | none => []
    | some tok =>
      if tok.color ≠ side then []
      else
        match leaper tok.kind, slider tok.kind with
        | some deltas, _ => leapSquares deltas sq
        | none, some dirs => slideSquares occ dirs sq
        | none, none => leapSquares (captureDeltas side) sq

/-- `_king_square`. -/
def kingSquare (occ : Placement) (side : Color) : Option Square :=
  (occ.squaresOf (king side)).head?

/-- One move of the `move_model` shape. -/
structure Move where
  fromSquare : Square
  toSquare : Square
  promotion : Option Kind
  deriving DecidableEq, Repr

/-- The piece that arrives: the promotion value replaces the piece letter. -/
def placedPiece (tok : Piece) (promotion : Option Kind) : Piece :=
  match promotion with
  | none => tok
  | some k => ⟨tok.color, k⟩

/-- `_apply_occupancy`; callers pass an occupied from-square. -/
def applyOccupancy (occ : Placement) (move : Move) : Placement :=
  match occ move.fromSquare with
  | none => occ
  | some tok =>
    relocate occ move.fromSquare move.toSquare (placedPiece tok move.promotion)

/-- `_leaves_king_safe`. In a valid state the mover's king is always found. -/
def leavesKingSafe (occ : Placement) (move : Move) (side : Color) : Bool :=
  let new := applyOccupancy occ move
  match kingSquare new side with
  | none => false
  | some k => decide (k ∉ attackedSquares new side.other)

def promoting (tok : Piece) (t : Square) : Bool :=
  decide (tok.kind = .pawn ∧ t.y = promoRank tok.color)

/-- The promotion members a move to `t` is expanded with. -/
def promotions (tok : Piece) (t : Square) : List (Option Kind) :=
  if promoting tok t then promoValues.map some else [none]

def movesFrom (occ : Placement) (side : Color) (sq : Square) (tok : Piece) : List Move :=
  (sortedSquares (pseudoTargets occ sq)).flatMap fun t =>
    ((promotions tok t).map fun pr => Move.mk sq t pr).filter fun mv =>
      leavesKingSafe occ mv side

/-- `legal_moves`, ordered by (from, to, promotion). -/
def legalMoves (s : State) : List Move :=
  allSquares.flatMap fun sq =>
    match s.occupied sq with
    | none => []
    | some tok =>
      if tok.color ≠ s.sideToMove then [] else movesFrom s.occupied s.sideToMove sq tok

inductive TerminalStatus
  | checkmate
  | stalemate
  | check
  | none
  deriving DecidableEq, Repr

/-- Whether the king of `side` stands on a square the other side attacks. -/
def inCheck (occ : Placement) (side : Color) : Bool :=
  match kingSquare occ side with
  | none => false
  | some k => decide (k ∈ attackedSquares occ side.other)

def terminalStatus (s : ValidState) : TerminalStatus :=
  let check := inCheck s.occupied s.sideToMove
  let zero := (legalMoves s.toState).length = 0
  if check ∧ zero then .checkmate
  else if zero then .stalemate
  else if check then .check
  else .none

def moveObject (fr dest : Square) (promotion : Option Text) : Object :=
  let squares : PyDict Member :=
    ((∅ : PyDict Member).insert (key "from_square") (.scalar (.str fr.name))).insert
      (key "to_square") (.scalar (.str dest.name))
  match promotion with
  | none => .mapping squares
  | some text => .mapping (squares.insert (key "promotion") (.scalar (.str text)))

def Move.toObject (m : Move) : Object :=
  moveObject m.fromSquare m.toSquare (m.promotion.map promoLetter)

/-- `_grammar_ok`, returning the square. -/
def grammarOk (member : Option Member) : Option Square :=
  (member.bind Member.text?).bind squareOf?

/-- `_validate_move_shape`, returning the two squares and the promotion text. -/
def validateMoveShape (move : Object) :
    Except LegalMovesError (Square × Square × Option Text) :=
  match move with
  | .foreign _ => .error (.failed .malformedMove)
  | .mapping members =>
    if ∃ k ∈ members.keys, k.text? = none then .error (.failed .malformedMove)
    else if ¬ members.keys ⊆ {key "from_square", key "to_square", key "promotion"} then
      .error (.failed .malformedMove)
    else if ¬ {key "from_square", key "to_square"} ⊆ members.keys then
      .error (.failed .malformedMove)
    else
      match grammarOk (members.lookup (key "from_square")),
          grammarOk (members.lookup (key "to_square")) with
      | some fr, some dest =>
        if fr = dest then .error (.failed .malformedMove)
        else
          match members.lookup (key "promotion") with
          | none => .ok (fr, dest, none)
          | some member =>
            match member.text? with
            | none => .error (.failed .malformedMove)
            | some text => .ok (fr, dest, some text)
      | _, _ => .error (.failed .malformedMove)

/-- The promotion member read against the enum; `none` is an undeclared text. -/
def readPromotion : Option Text → Option (Option Kind)
  | none => some none
  | some text => (readBack promoValues promoLetter text).map some

/-- `apply` on a validated state, in the pinned order: shape, no_piece,
not_players_piece, unreachable_target, promotion rules, leaves_king_attacked. -/
def applyMove (s : ValidState) (move : Object) : Except LegalMovesError State :=
  match validateMoveShape move with
  | .error e => .error e
  | .ok (fr, dest, promotion) =>
    match s.occupied fr with
    | none => .error (.failed .noPiece)
    | some tok =>
      if tok.color ≠ s.sideToMove then .error (.failed .notPlayersPiece)
      else if dest ∉ pseudoTargets s.occupied fr then .error (.failed .unreachableTarget)
      else
        match readPromotion promotion with
        | none => .error (.failed .promotionForbidden)
        | some pr =>
          if promoting tok dest = true ∧ pr = none then .error (.failed .promotionMissing)
          else if promoting tok dest = false ∧ pr ≠ none then
            .error (.failed .promotionForbidden)
          else if leavesKingSafe s.occupied ⟨fr, dest, pr⟩ s.sideToMove then
            .ok ⟨applyOccupancy s.occupied ⟨fr, dest, pr⟩, s.sideToMove⟩
          else .error (.failed .leavesKingAttacked)

/-- `apply` on caller objects. -/
def apply (state move : Object) : Except LegalMovesError State :=
  match validateState state with
  | .error e => .error e
  | .ok s => applyMove s move

end LegalMoves
end OpenChess
