import OpenChess.Chess.Moves
import OpenChess.Chess.Notation

/-!
# The PGN move core

Model of the board of `ingest/pgn.py`: a list of 64 squares addressed by
`rank * 8 + file`, the side to move, the castling rights and the en-passant
square. Letters on the board are pieces, and the letter of a promotion is put
on the board as it stands.
-/

namespace OpenChess
namespace Pgn

/-- The 64-list; index 0 is a1 and index 63 is h8. -/
abbrev Squares := Vector (Option Piece) 64

/-- `_sq(file, rank)` behind the bounds test that guards every use of it. -/
def idx (f r : ℤ) : Option (Fin 64) :=
  if h : (0 ≤ f ∧ f < 8) ∧ 0 ≤ r ∧ r < 8 then some ⟨(r * 8 + f).toNat, by omega⟩ else none

/-- `idx % 8` and `idx // 8`. -/
def fileOf (i : Fin 64) : ℤ := (i.val % 8 : ℕ)
def rankOf (i : Fin 64) : ℤ := (i.val / 8 : ℕ)

def Squares.cell (v : Squares) (f r : ℤ) : Option (Option Piece) := (idx f r).map v.get

/-- `squares[_sq(f, r)] == p` behind its bounds test. -/
def Squares.holds (v : Squares) (f r : ℤ) (p : Piece) : Bool := v.cell f r == some (some p)

/-- Contents met by a sliding loop that starts at `(f, r)`: it ends at the
edge of the board or at the first piece. -/
def Squares.slide (v : Squares) (d : Delta) (f r : ℤ) : List (Option Piece) :=
  BoundedWalk.walk (fun p : ℤ × ℤ => v.cell p.1 p.2) Option.isSome
    (fun p => (p.1 + d.1, p.2 + d.2)) 8 (f, r)

inductive Wing
  | kingside
  | queenside
  deriving DecidableEq, Repr

structure Move where
  frm : Fin 64
  dest : Fin 64
  piece : Option Piece
  capture : Bool
  promotion : Option Kind
  castle : Option Wing
  enPassant : Bool
  givesCheck : Bool
  givesMate : Bool
  deriving DecidableEq, Repr

structure Board where
  squares : Squares
  turn : Color
  castling : List Right
  ep : Option (Fin 64)

namespace Board

/-- `squares.index(k)`; `none` is the `ValueError` of a missing king. -/
def kingSquare (b : Board) (side : Color) : Option (Fin 64) :=
  (List.finRange 64).find? fun i => b.squares.get i == some (king side)

def kingSteps : List Delta :=
  [(-1, -1), (-1, 0), (-1, 1), (0, -1), (0, 1), (1, -1), (1, 0), (1, 1)]

/-- Directions with the officers that attack along them. -/
def rays : List (Delta × List Kind) :=
  [((1, 0), [.rook, .queen]), ((-1, 0), [.rook, .queen]), ((0, 1), [.rook, .queen]),
   ((0, -1), [.rook, .queen]), ((1, 1), [.bishop, .queen]), ((1, -1), [.bishop, .queen]),
   ((-1, 1), [.bishop, .queen]), ((-1, -1), [.bishop, .queen])]

def knightSteps : List Delta :=
  [(1, 2), (2, 1), (-1, 2), (-2, 1), (1, -2), (2, -1), (-1, -2), (-2, -1)]

/-- Is the target square attacked by `side`? A pawn of that side sits behind it. -/
def attacked (b : Board) (target : Fin 64) (side : Color) : Bool :=
  let tf := fileOf target
  let tr := rankOf target
  let pawnRank := if side = .white then tr - 1 else tr + 1
  ([-1, 1].any fun df => b.squares.holds (tf + df) pawnRank ⟨side, .pawn⟩) ||
  (knightSteps.any fun d => b.squares.holds (tf + d.1) (tr + d.2) ⟨side, .knight⟩) ||
  (rays.any fun ray => (b.squares.slide ray.1 (tf + ray.1.1) (tr + ray.1.2)).any
    (officer side ray.2)) ||
  (kingSteps.any fun d => b.squares.holds (tf + d.1) (tr + d.2) ⟨side, .king⟩)

theorem homeWhite_lt (f : Fin 8) : f.val < 64 := by
  omega

theorem homeBlack_lt (f : Fin 8) : 56 + f.val < 64 := by
  omega

/-- `_sq(f, r)` on a side's home rank. -/
def homeIdx (side : Color) (f : Fin 8) : Fin 64 :=
  match side with
  | .white => ⟨f.val, homeWhite_lt f⟩
  | .black => ⟨56 + f.val, homeBlack_lt f⟩

/-- Assignment at a computed index. The captured pawn of a generated en-passant
move is always on the board, and no other caller computes an index. -/
def setSquare (v : Squares) (i : ℤ) (p : Option Piece) : Squares :=
  if h : 0 ≤ i ∧ i < 64 then v.set i.toNat p (by omega) else v

/-- What lands on the destination. A promotion letter is one of `Q R B N`
whichever side moves, and an uppercase letter on the board is White's. -/
def arriving (m : Move) (piece : Option Piece) : Option Piece :=
  match m.promotion with
  | some k => some ⟨.white, k⟩
  | none => piece

/-- The corner whose occupant a right depends on. -/
def corner : Right → Fin 64
  | .Q => 0
  | .K => 7
  | .q => 56
  | .k => 63

def apply (b : Board) (m : Move) : Board :=
  let piece := b.squares.get m.frm
  let lifted := b.squares.set m.frm.val none
  let captured :=
    if m.enPassant then
      setSquare lifted (if b.turn = .white then (m.dest.val : ℤ) - 8 else m.dest.val + 8) none
    else lifted
  let placed := captured.set m.dest.val (arriving m piece)
  let shift (v : Squares) (f g : Fin 64) : Squares := (v.set g.val (v.get f)).set f.val none
  let castled :=
    match m.castle with
    | some .kingside => shift placed (homeIdx b.turn 7) (homeIdx b.turn 5)
    | some .queenside => shift placed (homeIdx b.turn 0) (homeIdx b.turn 3)
    | none => placed
  let rights := b.castling.filter fun right =>
    decide (piece ≠ some (king right.color) ∧ m.frm ≠ corner right ∧ m.dest ≠ corner right)
  { squares := castled
    turn := b.turn.other
    castling := rights
    ep :=
      -- `piece in "Pp"` also holds for the empty text
      if (piece.all fun p => p.kind == .pawn) ∧ (m.dest.val : ℤ) - m.frm.val ∈ [(16 : ℤ), -16] then
        some ⟨(m.dest.val + m.frm.val) / 2, by omega⟩
      else none }

def quiet (i t : Fin 64) : Move :=
  ⟨i, t, none, false, none, none, false, false, false⟩

def promotionLetters : List Kind := [.queen, .rook, .bishop, .knight]

def isEnemy (b : Board) (t : Fin 64) : Bool :=
  match b.squares.get t with
  | none => false
  | some p => decide (p.color ≠ b.turn)

/-- One pawn arrival: the four promotions on the last rank, else the plain move. -/
def pawnArrivals (promoting : Bool) (m : Move) : List Move :=
  if promoting then promotionLetters.map fun k => { m with promotion := some k } else [m]

/-- `dr`, `start_rank` and `promo_rank` of the side to move. -/
def pawnStep (b : Board) : ℤ := if b.turn = .white then 1 else -1
def pawnStart (b : Board) : ℤ := if b.turn = .white then 1 else 6
def pawnGoal (b : Board) : ℤ := if b.turn = .white then 7 else 0

/-- The step onto `one`, and from the start rank the double step. -/
def plainPushes (b : Board) (i one : Fin 64) : List Move :=
  match idx (fileOf i) (rankOf i + 2 * b.pawnStep) with
  | none => [quiet i one]
  | some two =>
    if rankOf i = b.pawnStart ∧ b.squares.get two = none then [quiet i one, quiet i two]
    else [quiet i one]

/-- Pushes onto an empty square, promoting on the last rank. -/
def pawnPushes (b : Board) (i : Fin 64) : List Move :=
  match idx (fileOf i) (rankOf i + b.pawnStep) with
  | none => []
  | some one =>
    if b.squares.get one ≠ none then []
    else if rankOf i + b.pawnStep = b.pawnGoal then pawnArrivals true (quiet i one)
    else b.plainPushes i one

/-- Diagonal steps onto an enemy piece or onto the en-passant square. -/
def pawnTakes (b : Board) (i : Fin 64) : List Move :=
  [(-1 : ℤ), 1].flatMap fun df =>
    match idx (fileOf i + df) (rankOf i + b.pawnStep) with
    | none => []
    | some t =>
      let isEp := decide (b.ep = some t)
      if b.isEnemy t || isEp then
        pawnArrivals (decide (rankOf i + b.pawnStep = b.pawnGoal))
          { quiet i t with capture := true, enPassant := isEp }
      else []

def pawnMoves (b : Board) (i : Fin 64) : List Move := b.pawnPushes i ++ b.pawnTakes i

/-- A leaper's or slider's arrival on `t`. -/
def arrivals (b : Board) (i t : Fin 64) : List Move :=
  match b.squares.get t with
  | none => [quiet i t]
  | some p => if p.color = b.turn then [] else [{ quiet i t with capture := true }]

def leapMoves (b : Board) (steps : List Delta) (i : Fin 64) : List Move :=
  steps.flatMap fun d =>
    match idx (fileOf i + d.1) (rankOf i + d.2) with
    | none => []
    | some t => b.arrivals i t

/-- Indices visited by a sliding loop. -/
def slideIndices (v : Squares) (d : Delta) (f r : ℤ) : List (Fin 64) :=
  BoundedWalk.walk (fun p : ℤ × ℤ => idx p.1 p.2) (fun t => (v.get t).isSome)
    (fun p => (p.1 + d.1, p.2 + d.2)) 8 (f, r)

def slideMoves (b : Board) (dirs : List Delta) (i : Fin 64) : List Move :=
  dirs.flatMap fun d =>
    (slideIndices b.squares d (fileOf i + d.1) (rankOf i + d.2)).flatMap fun t => b.arrivals i t

def castlingMoves (b : Board) (i : Fin 64) : List Move :=
  let enemy := b.turn.other
  let home := homeIdx b.turn
  let free (f : Fin 8) : Bool := b.squares.get (home f) == none
  let safe (f : Fin 8) : Bool := !b.attacked (home f) enemy
  if i = home 4 ∧ b.attacked i enemy = false then
    let kside : Right := if b.turn = .white then .K else .k
    let qside : Right := if b.turn = .white then .Q else .q
    (if kside ∈ b.castling ∧ free 5 ∧ free 6 ∧ safe 5 ∧ safe 6 then
      [{ quiet i (home 6) with castle := some .kingside }] else []) ++
    (if qside ∈ b.castling ∧ free 1 ∧ free 2 ∧ free 3 ∧ safe 2 ∧ safe 3 then
      [{ quiet i (home 2) with castle := some .queenside }] else [])
  else []

def movesOf (b : Board) (i : Fin 64) (p : Piece) : List Move :=
  match p.kind with
  | .pawn => b.pawnMoves i
  | .knight => b.leapMoves knightSteps i
  | .bishop => b.slideMoves [(1, 1), (1, -1), (-1, 1), (-1, -1)] i
  | .rook => b.slideMoves [(1, 0), (-1, 0), (0, 1), (0, -1)] i
  | .queen => b.slideMoves [(1, 0), (-1, 0), (0, 1), (0, -1), (1, 1), (1, -1), (-1, 1), (-1, -1)] i
  | .king => b.leapMoves kingSteps i ++ b.castlingMoves i

/-- The candidates before the legality filter. -/
def candidates (b : Board) : List Move :=
  (List.finRange 64).flatMap fun i =>
    match b.squares.get i with
    | none => []
    | some p => if p.color ≠ b.turn then [] else b.movesOf i p

/-- The legality filter, with the moved piece filled in; `none` is the
`ValueError` of a board without the mover's king. -/
def keepLegal (b : Board) : List Move → Option (List Move)
  | [] => some []
  | m :: ms => do
    let m2 := { m with piece := b.squares.get m.frm }
    let nxt := b.apply m2
    let k ← nxt.kingSquare b.turn
    let rest ← keepLegal b ms
    return if nxt.attacked k b.turn.other then rest else m2 :: rest

/-- `legal_moves(_annotate=False)`. -/
def plainLegalMoves (b : Board) : Option (List Move) := b.keepLegal b.candidates

def annotate (b : Board) (m : Move) : Option Move := do
  let nxt := b.apply m
  let k ← nxt.kingSquare b.turn.other
  if nxt.attacked k b.turn then
    let replies ← nxt.plainLegalMoves
    return { m with givesCheck := true, givesMate := replies.isEmpty }
  else return m

/-- `legal_moves()`: the legal moves with their check and mate marks. -/
def legalMoves (b : Board) : Option (List Move) := do
  let legal ← b.plainLegalMoves
  legal.mapM b.annotate

end Board
end Pgn
end OpenChess
