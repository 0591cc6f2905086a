import OpenChess.Chess.Contracts
import OpenChess.Chess.Moves

/-!
# The castling runtime

Model of `apply` in `tools/castling_runtime.py` over the shipped castling
contract. A state has its four declared fields with members of the declared
types; which squares it may name and which rights texts are canonical is checked.
-/

namespace OpenChess
namespace CastlingRuntime

inductive FailureClass
  | rightsMalformed
  | rightsInconsistent
  | pathBlocked
  | kingUnmovedRequired
  | throughCheck
  deriving DecidableEq, Repr

/-- `CastlingError`: a declared class, or the structural `malformed_request`. -/
inductive CastlingError
  | failed (failureClass : FailureClass)
  | malformed
  deriving DecidableEq, Repr

structure Path where
  kingFrom : Square
  kingTo : Square
  rookFrom : Square
  rookTo : Square
  kingTransit : List Square
  emptyRequired : List Square

/-- `move.per_side_paths`. -/
def paths : Right → Path
  | .K => ⟨⟨4, 0⟩, ⟨6, 0⟩, ⟨7, 0⟩, ⟨5, 0⟩, [⟨5, 0⟩], [⟨5, 0⟩, ⟨6, 0⟩]⟩
  | .Q => ⟨⟨4, 0⟩, ⟨2, 0⟩, ⟨0, 0⟩, ⟨3, 0⟩, [⟨3, 0⟩], [⟨3, 0⟩, ⟨2, 0⟩, ⟨1, 0⟩]⟩
  | .k => ⟨⟨4, 7⟩, ⟨6, 7⟩, ⟨7, 7⟩, ⟨5, 7⟩, [⟨5, 7⟩], [⟨5, 7⟩, ⟨6, 7⟩]⟩
  | .q => ⟨⟨4, 7⟩, ⟨2, 7⟩, ⟨0, 7⟩, ⟨3, 7⟩, [⟨3, 7⟩], [⟨3, 7⟩, ⟨2, 7⟩, ⟨1, 7⟩]⟩

/-- `loss.on_king_move` and `loss.on_king_move_black`. -/
def lossKing : Color → List Right
  | .white => [.K, .Q]
  | .black => [.k, .q]

/-- `loss.on_rook_move_from`, and the same table `loss.on_rook_capture_on`. -/
def lossRook : List (Square × Right) :=
  [(⟨7, 0⟩, .K), (⟨0, 0⟩, .Q), (⟨7, 7⟩, .k), (⟨0, 7⟩, .q)]

/-- `_VALID_SQUARES`: every square the contract names. -/
def validSquares : List Square :=
  (Right.order.flatMap fun r => [(homeSquares r).king, (homeSquares r).rook]) ++
  (Right.order.flatMap fun r => [(paths r).kingFrom, (paths r).kingTo, (paths r).rookFrom,
    (paths r).rookTo] ++ (paths r).kingTransit ++ (paths r).emptyRequired) ++
  lossRook.map Prod.fst

structure State where
  rights : Text
  occupied : Placement
  attacked : List Square
  sideToMove : Color

inductive Move
  | castle (right : Right)
  | kingMove (side : Color)
  | rookMoveFrom (square : Square)
  | rookCaptureOn (square : Square)
  deriving DecidableEq, Repr

/-- What `_validate_state` asks of the declared members. -/
structure State.Valid (s : State) : Prop where
  occupied : ∀ sq, s.occupied sq ≠ none → sq ∈ validSquares
  attacked : ∀ sq ∈ s.attacked, sq ∈ validSquares
  nodup : s.attacked.Nodup

instance (s : State) : Decidable s.Valid :=
  decidable_of_iff ((∀ sq, s.occupied sq ≠ none → sq ∈ validSquares) ∧
      (∀ sq ∈ s.attacked, sq ∈ validSquares) ∧ s.attacked.Nodup)
    ⟨fun h => ⟨h.1, h.2.1, h.2.2⟩, fun h => ⟨h.1, h.2, h.3⟩⟩

/-- `_validate_move`: a rook event names a corner of its table. -/
def Move.Valid : Move → Prop
  | .castle _ | .kingMove _ => True
  | .rookMoveFrom sq | .rookCaptureOn sq => sq ∈ lossRook.map Prod.fst

instance : (m : Move) → Decidable m.Valid
  | .castle _ | .kingMove _ => inferInstanceAs (Decidable True)
  | .rookMoveFrom _ | .rookCaptureOn _ => inferInstanceAs (Decidable (_ ∈ _))

/-- `_grammar_ok`. -/
def grammarOk (rights : Text) : Bool :=
  if rights = ['-'] then true
  else if rights = [] then false
  else if rights.any (fun m => rightOf? m == none) then false
  else if ¬ rights.Nodup then false
  else decide ((Right.order.map Right.letter).filter (fun c => decide (c ∈ rights)) = rights)

/-- `set() if rights == _NONE else set(rights)`. -/
def heldRights (rights : Text) : List Right :=
  if rights = ['-'] then [] else rights.filterMap rightOf?

/-- `_canonical`. -/
def canonical (held : List Right) : Text :=
  if held = [] then ['-']
  else (Right.order.filter fun r => decide (r ∈ held)).map Right.letter

/-- `held - set(loss)`. -/
def without (held loss : List Right) : List Right := held.filter fun r => decide (r ∉ loss)

def lossOn (square : Square) : List Right := (lossRook.lookup square).toList

/-- The castle branch of `apply`. -/
def castle (s : State) (held : List Right) (right : Right) : Except CastlingError State :=
  let side := right.color
  let home := homeSquares right
  let path := paths right
  if side ≠ s.sideToMove then .error .malformed
  else if right ∉ held then .error (.failed .kingUnmovedRequired)
  else if s.occupied home.king ≠ some (king side) ∨ s.occupied home.rook ≠ some ⟨side, .rook⟩ then
    .error (.failed .rightsInconsistent)
  else if ∃ sq ∈ path.emptyRequired, s.occupied sq ≠ none then .error (.failed .pathBlocked)
  else if home.king ∈ s.attacked ∨ path.kingTo ∈ s.attacked ∨
      ∃ sq ∈ path.kingTransit, sq ∈ s.attacked then
    .error (.failed .throughCheck)
  else
    let cleared := Function.update (Function.update s.occupied home.king none) home.rook none
    .ok ⟨canonical (without held (lossKing side)),
      Function.update (Function.update cleared path.kingTo (some (king side)))
        path.rookTo (some ⟨side, .rook⟩),
      s.attacked, s.sideToMove⟩

/-- `apply`. -/
def apply (s : State) (m : Move) : Except CastlingError State :=
  if ¬ s.Valid then .error .malformed
  else if ¬ m.Valid then .error .malformed
  else if grammarOk s.rights = false then .error (.failed .rightsMalformed)
  else
    let held := heldRights s.rights
    match m with
    | .kingMove side => .ok { s with rights := canonical (without held (lossKing side)) }
    | .rookMoveFrom sq | .rookCaptureOn sq =>
      .ok { s with rights := canonical (without held (lossOn sq)) }
    | .castle right => castle s held right

end CastlingRuntime
end OpenChess
