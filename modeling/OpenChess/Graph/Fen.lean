import OpenChess.Chess.Contracts
import OpenChess.Chess.Moves
import OpenChess.Chess.Notation

/-!
# The FEN parser and serializer

Model of `graph/fen.py` over the shipped FEN contract. A board cell is keyed by
its file index and its rank number, counted from one. All grammar refusals come
before all position refusals, so parsing is a reader of the six fields followed
by the position rules.
-/

namespace OpenChess
namespace Fen

inductive FailureClass
  | malformedFen
  | impossiblePosition
  deriving DecidableEq, Repr

inductive ErrorCode
  | malformedRequest
  | illegalPosition
  | internal
  deriving DecidableEq, Repr

/-- `failure_mapping` of the contract. -/
def FailureClass.error : FailureClass → ErrorCode
  | .malformedFen => .malformedRequest
  | .impossiblePosition => .illegalPosition

/-! ### The attack relation -/

def knightDeltas : List Delta :=
  [(1, 2), (2, 1), (2, -1), (1, -2), (-1, -2), (-2, -1), (-2, 1), (-1, 2)]

def kingDeltas : List Delta :=
  [(1, 0), (1, 1), (0, 1), (-1, 1), (-1, 0), (-1, -1), (0, -1), (1, -1)]

def rookDirections : List Delta := [(1, 0), (-1, 0), (0, 1), (0, -1)]

def bishopDirections : List Delta := [(1, 1), (1, -1), (-1, 1), (-1, -1)]

def pawnCaptureDeltas : Color → List Delta
  | .white => [(1, 1), (-1, 1)]
  | .black => [(1, -1), (-1, -1)]

/-- `board.get((f, r))`. -/
def cell (b : Placement) (f r : ℤ) : Option Piece := b.get f (r - 1)

/-- Contents met by the sliding loop from `(f, r)` in direction `d`. -/
def slide (b : Placement) (d : Delta) (f r : ℤ) : List (Option Piece) :=
  BoundedWalk.walk (fun p : ℤ × ℤ => (sqAt p.1 (p.2 - 1)).map b) Option.isSome
    (fun p => (p.1 + d.1, p.2 + d.2)) 8 (f + d.1, r + d.2)

/-- `_attack`: the cell `(f, r)` is attacked by side `by`. -/
def attack (b : Placement) (f r : ℤ) (side : Color) : Bool :=
  (pawnCaptureDeltas side).any (fun d => cell b (f - d.1) (r - d.2) == some ⟨side, .pawn⟩) ||
  knightDeltas.any (fun d => cell b (f + d.1) (r + d.2) == some ⟨side, .knight⟩) ||
  kingDeltas.any (fun d => cell b (f + d.1) (r + d.2) == some ⟨side, .king⟩) ||
  rookDirections.any (fun d => (slide b d f r).any (officer side [.rook, .queen])) ||
  bishopDirections.any (fun d => (slide b d f r).any (officer side [.bishop, .queen]))

/-! ### Positions -/

/-- The tuple `parse_fen` returns; the rights text is kept as its letters. -/
structure Position where
  board : Placement
  color : Color
  rights : List Right
  ep : Option Square
  half : ℕ
  full : ℕ

/-! ### The fields -/

def readRank (t : Text) : Option (List (Option Piece)) :=
  if t = [] then none
  else
    match RunLength.expand rankCode false t with
    | none => none
    | some row => if row.length = 8 then some row else none

def readPlacement (t : Text) : Option Placement :=
  let rankList := t.splitOn '/'
  if rankList.length ≠ 8 then none else (rankList.mapM readRank).map boardOf

def intMaxStrDigits : ℕ := 4300

/-- ASCII digits only, convertible, without leading zeros, at least `min`. -/
def readCounter (min : ℕ) (value : Text) : Option ℕ :=
  if value = [] ∨ value.all Char.isDigit = false then none
  else if intMaxStrDigits < value.length then none
  else
    let number := Nat.ofDigitChars 10 value 0
    if value ≠ Nat.toDigits 10 number then none
    else if number < min then none
    else some number

/-- The rights, picked from the canonical order, are the rights as written. -/
def Canonical (rights : List Right) : Prop :=
  Right.order.filter (fun r => decide (r ∈ rights)) = rights

instance (rights : List Right) : Decidable (Canonical rights) :=
  inferInstanceAs (Decidable (_ = _))

def readRights (t : Text) : Option (List Right) :=
  if t = ['-'] then some []
  else
    match t.mapM rightOf? with
    | none => none
    | some rights =>
      if rights = [] then none
      else if ¬ rights.Nodup then none
      else if ¬ Canonical rights then none
      else some rights

/-- `en_passant.ranks`, as indices. -/
def epRanks : List (Fin 8) := [2, 5]

def readEp (t : Text) : Option (Option Square) :=
  if t = ['-'] then some none
  else
    match squareOf? t with
    | none => none
    | some s => if s.rank ∈ epRanks then some (some s) else none

def readColor : Text → Option Color
  | [c] => colorOf? c
  | _ => none

/-- Everything `parse_fen` refuses as `malformed_fen`. -/
def readFields (text : Text) : Option Position :=
  match text.splitOn ' ' with
  | [placement, color, castling, ep, half, full] =>
    if [] ∈ [placement, color, castling, ep, half, full] then none
    else do
      let board ← readPlacement placement
      let color ← readColor color
      let half ← readCounter 0 half
      let full ← readCounter 1 full
      let rights ← readRights castling
      let ep ← readEp ep
      return ⟨board, color, rights, ep, half, full⟩
  | _ => none

/-! ### The position rules -/

/-- `[sq for sq, pce in board.items() if pce == king]`, when it is a singleton. -/
def onlyKing (b : Placement) (c : Color) : Option Square :=
  match b.squaresOf (king c) with
  | [k] => some k
  | _ => none

def kingsApart (wk bk : Square) : Bool := decide (1 < max |wk.x - bk.x| |wk.y - bk.y|)

def noBackRankPawn (b : Placement) : Bool :=
  allSquares.all fun s => !((b s).any fun p => p.kind == .pawn) || (s.rank != 0 && s.rank != 7)

/-- `START_OFFICERS`. -/
def startOfficers : List (Kind × ℕ) := [(.queen, 1), (.rook, 2), (.bishop, 2), (.knight, 2)]

def pawnsMax : ℕ := 8

def piecesMax : ℕ := 16

/-- Number of squares whose piece satisfies `P`. -/
def count (b : Placement) (P : Piece → Bool) : ℕ := allSquares.countP fun s => (b s).any P

def pawns (b : Placement) (c : Color) : ℕ := count b fun p => p == ⟨c, .pawn⟩

def excess (b : Placement) (c : Color) : ℕ :=
  (startOfficers.map fun e => count b (fun p => p == ⟨c, e.1⟩) - e.2).sum

def materialOk (b : Placement) (c : Color) : Bool :=
  decide (pawns b c ≤ pawnsMax ∧ count b (fun p => p.color == c) ≤ piecesMax ∧
    excess b c ≤ pawnsMax - pawns b c)

def homeOk (b : Placement) (r : Right) : Bool :=
  b (homeSquares r).king == some (king r.color) &&
    b (homeSquares r).rook == some ⟨r.color, .rook⟩

/-- The side that advanced over an en-passant target. -/
def advancer (s : Square) : Color :=
  if s.rank = (setOn .white).targetRank then .white else .black

/-- Pawn on its destination, target and origin empty, clock zero, opponent to move. -/
def epOk (p : Position) (s : Square) : Bool :=
  let side := advancer s
  p.color == side.other &&
    p.board ⟨s.file, (setOn side).toRank⟩ == some ⟨side, .pawn⟩ &&
    p.board s == none &&
    p.board ⟨s.file, (setOn side).fromRank⟩ == none &&
    p.half == 0

/-- Everything `parse_fen` refuses as `impossible_position`. -/
def positionOk (p : Position) : Bool :=
  match onlyKing p.board .white, onlyKing p.board .black with
  | some wk, some bk =>
    let nonMover := if p.color = .white then bk else wk
    kingsApart wk bk &&
      noBackRankPawn p.board &&
      materialOk p.board .white && materialOk p.board .black &&
      !attack p.board nonMover.x (nonMover.y + 1) p.color &&
      p.rights.all (homeOk p.board) &&
      p.ep.all (epOk p)
  | _, _ => false

/-- `parse_fen`. -/
def parseFen (text : Text) : Except FailureClass Position :=
  match readFields text with
  | none => .error .malformedFen
  | some p => if positionOk p then .ok p else .error .impossiblePosition

/-! ### The serializer -/

def emitPlacement (b : Placement) : Text :=
  ['/'].intercalate ((List.finRange 8).reverse.map fun r =>
    RunLength.compress rankCode 0 (rankRow b r))

/-- `rights or none_sentinel`. -/
def emitRights (rights : List Right) : Text :=
  if rights = [] then ['-'] else rights.map Right.letter

def emitEp : Option Square → Text
  | none => ['-']
  | some s => s.name

/-- `str` of a counter; beyond the interpreter's limit it raises. -/
def emitCounter (n : ℕ) : Option Text :=
  let value := Nat.toDigits 10 n
  if intMaxStrDigits < value.length then none else some value

/-- `emit_fen`. -/
def emitFen (p : Position) : Option Text := do
  let half ← emitCounter p.half
  let full ← emitCounter p.full
  return [' '].intercalate
    [emitPlacement p.board, [p.color.letter], emitRights p.rights, emitEp p.ep, half, full]

end Fen
end OpenChess

/-!
## The position rules of the FEN parser as properties

The attack relation of `graph/fen.py` is the common one, and the boolean rules
are read as the clauses of a legal position.
-/

namespace OpenChess
namespace Fen

/-! ### Attack -/

theorem cell_rank (b : Placement) (x y : ℤ) : cell b x (y + 1) = b.get x y := by
  rw [cell, add_sub_cancel_right]

/-- The sliding loop over rank numbers is the scan over rank indices. -/
theorem slide_eq (b : Placement) (d : Delta) (x y : ℤ) :
    slide b d x (y + 1) = (scan b d x y).map b := by
  have hstart : ((x + d.1, y + 1 + d.2) : ℤ × ℤ) =
      (fun p : ℤ × ℤ => (p.1, p.2 + 1)) (x + d.1, y + d.2) := by
    simp only [Prod.mk.injEq, true_and]
    ring
  have hnext : ∀ p : ℤ × ℤ, ((p.1 + d.1, p.2 + 1 + d.2) : ℤ × ℤ) =
      (fun p : ℤ × ℤ => (p.1, p.2 + 1)) (p.1 + d.1, p.2 + d.2) := by
    intro p
    simp only [Prod.mk.injEq, true_and]
    ring
  rw [slide, hstart, BoundedWalk.walk_comap (fun p : ℤ × ℤ => (p.1, p.2 + 1)) hnext]
  simp only [add_sub_cancel_right]
  exact BoundedWalk.walk_map b _ Option.isSome _ 8 _

theorem pawnCaptureDeltas_eq (c : Color) : pawnCaptureDeltas c = pawnCaptures c := by
  cases c <;> rfl

theorem mem_knightDeltas {d : Delta} : d ∈ knightDeltas ↔ d ∈ knightLeaps := by
  have h : List.Perm knightDeltas knightLeaps := by decide
  exact h.mem_iff

theorem mem_kingDeltas {d : Delta} : d ∈ kingDeltas ↔ d ∈ kingLeaps := by
  have h : List.Perm kingDeltas kingLeaps := by decide
  exact h.mem_iff

/-- `_attack` is the attack relation. -/
theorem attack_iff {b : Placement} {c : Color} {t : Square} :
    attack b t.x (t.y + 1) c = true ↔ Attacked b c t := by
  have hslide : ∀ (D : List Delta) (k : Kind), (∀ d ∈ D, d ∈ straight ++ diagonal) →
      ((∃ d ∈ D, ∃ p ∈ slide b d t.x (t.y + 1), officer c [k, .queen] p = true) ↔
        SliderOn b D c k t) := by
    intro D k hD
    simp only [slide_eq]
    exact exists_scan_officer hD
  have hback : ∀ d : Delta, t.y + 1 - d.2 = t.y - d.2 + 1 := fun d => by ring
  have hahead : ∀ d : Delta, t.y + 1 + d.2 = t.y + d.2 + 1 := fun d => by ring
  rw [attacked_iff, PawnBehind, OfficerAttacked, attack]
  simp only [Bool.or_eq_true, List.any_eq_true, beq_iff_eq, hback, hahead, cell_rank,
    pawnCaptureDeltas_eq, mem_knightDeltas, mem_kingDeltas]
  rw [show rookDirections = straight from rfl, show bishopDirections = diagonal from rfl,
    hslide straight .rook fun d hd => List.mem_append_left _ hd,
    hslide diagonal .bishop fun d hd => List.mem_append_right _ hd]
  simp only [or_assoc]

/-! ### Legal positions -/

/-- The material rule of one side: pawns, pieces, and officers over the start
set covered by missing pawns. -/
def Material (b : Placement) (c : Color) : Prop :=
  pawns b c ≤ pawnsMax ∧ count b (fun p => p.color == c) ≤ piecesMax ∧
    excess b c ≤ pawnsMax - pawns b c

/-- What a recorded target implies: the side that advanced is not to move, its
pawn is on the destination, the squares behind it are empty and the clock is
zero. -/
structure EpRules (p : Position) (s : Square) : Prop where
  mover : p.color = (advancer s).other
  pawn : p.board ⟨s.file, (setOn (advancer s)).toRank⟩ = some ⟨advancer s, .pawn⟩
  target : p.board s = none
  origin : p.board ⟨s.file, (setOn (advancer s)).fromRank⟩ = none
  clock : p.half = 0

/-- The position rules of the contract, its castling consistency and its
en-passant consistency. -/
structure LegalPosition (p : Position) : Prop where
  kings : ∃ wk bk, KingAt p.board .white wk ∧ KingAt p.board .black bk ∧
    1 < max |wk.x - bk.x| |wk.y - bk.y|
  backRank : ∀ s q, p.board s = some q → q.kind = .pawn → s.rank ≠ 0 ∧ s.rank ≠ 7
  material : ∀ c, Material p.board c
  waiting : ∀ k, KingAt p.board p.color.other k → ¬ Attacked p.board p.color k
  homes : ∀ r ∈ p.rights, p.board (homeSquares r).king = some (king r.color) ∧
    p.board (homeSquares r).rook = some ⟨r.color, .rook⟩
  ep : ∀ s, p.ep = some s → EpRules p s

theorem onlyKing_eq_some {b : Placement} {c : Color} {k : Square} :
    onlyKing b c = some k ↔ KingAt b c k := by
  constructor
  · intro h
    unfold onlyKing at h
    split at h
    · rename_i k' hk
      cases h
      intro s
      rw [← mem_squaresOf, hk, List.mem_singleton]
    · cases h
  · intro h
    simp [onlyKing, squaresOf_king h]

theorem noBackRankPawn_iff {b : Placement} : noBackRankPawn b = true ↔
    ∀ s q, b s = some q → q.kind = .pawn → s.rank ≠ 0 ∧ s.rank ≠ 7 := by
  simp only [noBackRankPawn, List.all_eq_true, mem_allSquares, true_imp_iff]
  refine forall_congr' fun s => ?_
  cases h : b s with
  | none => simp
  | some q => by_cases hq : q.kind = .pawn <;> simp [hq]

theorem epOk_iff {p : Position} {s : Square} : epOk p s = true ↔ EpRules p s := by
  simp only [epOk, Bool.and_eq_true, beq_iff_eq]
  constructor
  · intro h
    obtain ⟨⟨⟨⟨h1, h2⟩, h3⟩, h4⟩, h5⟩ := h
    exact ⟨h1, h2, h3, h4, h5⟩
  · intro h
    exact ⟨⟨⟨⟨h.mover, h.pawn⟩, h.target⟩, h.origin⟩, h.clock⟩

theorem homeOk_iff {b : Placement} {r : Right} : homeOk b r = true ↔
    b (homeSquares r).king = some (king r.color) ∧
      b (homeSquares r).rook = some ⟨r.color, .rook⟩ := by
  simp [homeOk]

theorem kingAt_nonMover {b : Placement} {c : Color} {wk bk : Square} (hw : KingAt b .white wk)
    (hb : KingAt b .black bk) : KingAt b c.other (if c = .white then bk else wk) := by
  cases c
  · exact hb
  · exact hw

theorem positionOk_iff {p : Position} : positionOk p = true ↔ LegalPosition p := by
  constructor
  · intro h
    unfold positionOk at h
    split at h
    · rename_i wk bk hw hb
      rw [onlyKing_eq_some] at hw hb
      simp only [Bool.and_eq_true, Bool.not_eq_true', ← Bool.not_eq_true, attack_iff,
        noBackRankPawn_iff, List.all_eq_true, homeOk_iff, kingsApart, materialOk,
        decide_eq_true_eq] at h
      obtain ⟨⟨⟨⟨⟨⟨hapart, hback⟩, hwhite⟩, hblack⟩, hsafe⟩, hhomes⟩, hep⟩ := h
      refine ⟨⟨wk, bk, hw, hb, hapart⟩, hback, fun c => ?_, fun k hk => ?_, hhomes, fun s hs => ?_⟩
      · cases c
        · exact hwhite
        · exact hblack
      · rwa [(kingAt_nonMover hw hb).unique hk]
      · rw [hs] at hep
        exact epOk_iff.mp hep
    · cases h
  · intro h
    obtain ⟨wk, bk, hw, hb, hapart⟩ := h.kings
    have hsafe := h.waiting _ (kingAt_nonMover hw hb)
    unfold positionOk
    rw [onlyKing_eq_some.mpr hw, onlyKing_eq_some.mpr hb]
    simp only [Bool.and_eq_true, Bool.not_eq_true', ← Bool.not_eq_true, attack_iff,
      noBackRankPawn_iff, List.all_eq_true, homeOk_iff, kingsApart, materialOk, decide_eq_true_eq]
    refine ⟨⟨⟨⟨⟨⟨hapart, h.backRank⟩, h.material .white⟩, h.material .black⟩, hsafe⟩, h.homes⟩, ?_⟩
    cases hep : p.ep with
    | none => rfl
    | some s => exact epOk_iff.mpr (h.ep s hep)

end Fen
end OpenChess
