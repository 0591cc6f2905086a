import OpenChess.Chess.Contracts
import OpenChess.Chess.Moves
import OpenChess.Chess.Value

/-!
# The en-passant runtime

Model of `graph/en_passant.py`. Structural tests on the caller's objects give
back a target text, an occupancy with one king per side and a side; every
refusal of those tests is `target_malformed`.
-/

namespace OpenChess
namespace EnPassant

inductive FailureClass
  | targetMalformed
  | targetInconsistent
  | capturePrecondition
  | pinnedCapture
  deriving DecidableEq, Repr

inductive ErrorCode
  | malformedRequest
  | illegalPosition
  | illegalMove
  | internal
  deriving DecidableEq, Repr

/-- `failure_mapping` of the contract. -/
def FailureClass.error : FailureClass → ErrorCode
  | .targetMalformed => .malformedRequest
  | .targetInconsistent => .illegalPosition
  | .capturePrecondition | .pinnedCapture => .illegalMove

def none? : Text := ['-']

structure State where
  target : Text
  occupied : Placement
  sideToMove : Color

def OneKing (occ : Placement) : Prop := ∀ c : Color, (occ.squaresOf (king c)).length = 1

instance (occ : Placement) : Decidable (OneKing occ) :=
  inferInstanceAs (Decidable (∀ c : Color, (occ.squaresOf (king c)).length = 1))

/-- `_read_state`. -/
def readState (state : Object) : Except FailureClass State :=
  match state with
  | .foreign _ => .error .targetMalformed
  | .mapping members =>
    if members.keys = {key "ep_target", key "occupied", key "side_to_move"} then
      match (members.lookup (key "ep_target")).bind Member.text?,
          members.lookup (key "occupied"),
          ((members.lookup (key "side_to_move")).bind Member.text?).bind fun t =>
            readBack [.white, .black] (fun c : Color => [c.letter]) t with
      | some target, some (.mapping entries), some side =>
        match readOccupied entries with
        | some occ => if OneKing occ then .ok ⟨target, occ, side⟩ else .error .targetMalformed
        | none => .error .targetMalformed
      | _, _, _ => .error .targetMalformed
    else .error .targetMalformed

inductive MoveType
  | pawnAdvance
  | epCapture
  | quiet
  deriving DecidableEq, Repr

def MoveType.text : MoveType → Text
  | .pawnAdvance => "pawn-advance".toList
  | .epCapture => "ep-capture".toList
  | .quiet => "quiet".toList

structure Move where
  kind : MoveType
  frm : Square
  dest : Square

/-- `_read_move`. -/
def readMove (move : Object) : Except FailureClass Move :=
  match move with
  | .foreign _ => .error .targetMalformed
  | .mapping members =>
    if members.keys = {key "type", key "from", key "to"} then
      match ((members.lookup (key "type")).bind Member.text?).bind fun t =>
            readBack [.pawnAdvance, .epCapture, .quiet] MoveType.text t,
          ((members.lookup (key "from")).bind Member.text?).bind squareOf?,
          ((members.lookup (key "to")).bind Member.text?).bind squareOf? with
      | some kind, some frm, some dest => .ok ⟨kind, frm, dest⟩
      | _, _, _ => .error .targetMalformed
    else .error .targetMalformed

def targetSquare (target : Text) : Option Square :=
  (squareOf? target).filter fun s => s.rank = 2 ∨ s.rank = 5

/-- `_clear`, from one step beyond `(f, r)`; `none` stands for a walk that has
not met its end within the fuel. -/
def clear (occ : Placement) (step : Delta) (fin : ℤ × ℤ) : ℕ → ℤ × ℤ → Option Bool
  | 0, _ => none
  | fuel + 1, (f, r) =>
    if (f, r) = fin then some true
    else if (occ.get f r).isSome then some false
    else clear occ step fin fuel (f + step.1, r + step.2)

/-- The reach test of `_attacked` for one token standing on `sq`. -/
def reaches (occ : Placement) (square sq : Square) (token : Piece) : Bool :=
  let df := sq.x - square.x
  let dr := sq.y - square.y
  match token.kind with
  | .pawn => decide (dr = (if token.color = .white then -1 else 1) ∧ |df| = 1)
  | .knight => decide ((|df|, |dr|) = ((1 : ℤ), (2 : ℤ)) ∨ (|df|, |dr|) = ((2 : ℤ), (1 : ℤ)))
  | .king => decide (max |df| |dr| = 1)
  | kind =>
    let step : Delta := (df.sign, dr.sign)
    decide ((((kind = .rook ∨ kind = .queen) ∧ (df = 0 ∨ dr = 0)) ∨
      ((kind = .bishop ∨ kind = .queen) ∧ |df| = |dr|)) ∧ (df, dr) ≠ ((0 : ℤ), (0 : ℤ))) &&
      clear occ step (sq.x, sq.y) 8 (square.x + step.1, square.y + step.2) == some true

/-- `_attacked`. -/
def attacked (occ : Placement) (square : Square) (side : Color) : Bool :=
  allSquares.any fun sq =>
    match occ sq with
    | none => false
    | some token => decide (token.color = side) && reaches occ square sq token

/-- The occupancy after the capture: mover and captured pawn leave, the pawn of
the side to move stands on the destination. -/
def captureOccupancy (occ : Placement) (side : Color) (frm captured dest : Square) : Placement :=
  Function.update (Function.update (Function.update occ frm none) captured none) dest
    (some ⟨side, .pawn⟩)

/-- `_capture`. -/
def capture (s : State) (frm dest : Square) : Except FailureClass State :=
  if s.target = none? then .error .capturePrecondition
  else
    match targetSquare s.target with
    | none => .error .targetMalformed
    | some target =>
      let captured : Square := ⟨target.file, (mover s.sideToMove).capturedRank⟩
      if s.occupied target ≠ none then .error .targetInconsistent
      else if target.rank ≠ (setOn s.sideToMove.other).targetRank then .error .targetInconsistent
      else if s.occupied captured ≠ some ⟨s.sideToMove.other, .pawn⟩ then
        .error .targetInconsistent
      else if dest ≠ target ∨ frm.rank ≠ (mover s.sideToMove).moverRank ∨
          |frm.x - target.x| ≠ 1 ∨ s.occupied frm ≠ some ⟨s.sideToMove, .pawn⟩ then
        .error .capturePrecondition
      else
        let result := captureOccupancy s.occupied s.sideToMove frm captured dest
        -- the occupancy has one king per side, and a pawn capture keeps it
        match (result.squaresOf (king s.sideToMove)).head? with
        | none => .error .targetMalformed
        | some k =>
          if attacked result k s.sideToMove.other then .error .pinnedCapture
          else .ok ⟨none?, result, s.sideToMove.other⟩

/-- `identity_value` on a validated state: the stored target when the pawn on
some file beside it may capture, else the none sentinel. -/
def identityValue (s : State) : Text :=
  if s.target = none? then none?
  else
    match targetSquare s.target with
    | none => none?
    | some target =>
      if [(-1 : ℤ), 1].any fun df =>
          match sqAt (target.x + df) (mover s.sideToMove).moverRank.val with
          | none => false
          | some frm => (capture s frm target).isOk
      then s.target else none?

/-- The target a two-square pawn advance records, else the none sentinel. -/
def newTarget (side : Color) (token : Piece) (m : Move) : Text :=
  if m.kind = .pawnAdvance ∧ token.kind = .pawn ∧ m.frm.file = m.dest.file ∧
      m.frm.rank = (setOn side).fromRank ∧ m.dest.rank = (setOn side).toRank then
    Square.name ⟨m.dest.file, (setOn side).targetRank⟩
  else none?

/-- `apply` on a validated state and move. -/
def applyMove (s : State) (m : Move) : Except FailureClass State :=
  match m.kind with
  | .epCapture => capture s m.frm m.dest
  | _ =>
    match s.occupied m.frm with
    | none => .error .targetMalformed
    | some token =>
      .ok ⟨newTarget s.sideToMove token m, relocate s.occupied m.frm m.dest token,
        s.sideToMove.other⟩

/-- `apply`. -/
def apply (state move : Object) : Except FailureClass State := do
  let s ← readState state
  let m ← readMove move
  applyMove s m

end EnPassant
end OpenChess
