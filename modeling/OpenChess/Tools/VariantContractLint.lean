import OpenChess.Chess.Attack
import OpenChess.Chess.Contracts
import OpenChess.Chess.Moves
import OpenChess.Chess.Notation
import OpenChess.Chess.Value

/-!
# The position checker of the variant lint

Model of the FEN functions of `tools/variant_contract_lint.py`. Row 0 of a grid
is rank 8, and cells are addressed by row and column. The checker classifies a
refusal by the stage that made it.
-/

namespace OpenChess
namespace VariantContractLint

/-- The declared failure classes of the variant contract. -/
inductive FailureClass
  | wrongFieldCount
  | badBoard
  | badSide
  | badCastling
  | badEnPassant
  | badCounters
  | illegalPosition
  deriving DecidableEq, Repr

/-- Contents by row and column. -/
abbrev Grid := Fin 8 → Fin 8 → Option Piece

theorem row_lt {rr cc : ℤ} (h : (0 ≤ rr ∧ rr < 8) ∧ 0 ≤ cc ∧ cc < 8) : rr.toNat < 8 := by
  omega

theorem col_lt {rr cc : ℤ} (h : (0 ≤ rr ∧ rr < 8) ∧ 0 ≤ cc ∧ cc < 8) : cc.toNat < 8 := by
  omega

/-- `grid[rr][cc]` under the guard `0 <= rr < 8 and 0 <= cc < 8`. -/
def Grid.at (g : Grid) (rr cc : ℤ) : Option (Option Piece) :=
  if h : (0 ≤ rr ∧ rr < 8) ∧ 0 ≤ cc ∧ cc < 8 then
    some (g ⟨rr.toNat, row_lt h⟩ ⟨cc.toNat, col_lt h⟩)
  else none

/-- `grid[r][c] = v` on a copied grid. -/
def Grid.set (g : Grid) (r c : Fin 8) (v : Option Piece) : Grid := fun r' c' =>
  if r' = r ∧ c' = c then v else g r' c'

/-- `[sq for row in grid for sq in row]`. -/
def Grid.flat (g : Grid) : List (Option Piece) :=
  (List.finRange 8).flatMap fun r => (List.finRange 8).map fun c => g r c

/-- The cells holding a piece, row by row. -/
def Grid.find (g : Grid) (p : Piece) : List (Fin 8 × Fin 8) :=
  (List.finRange 8).flatMap fun r =>
    ((List.finRange 8).map fun c => (r, c)).filter fun q => g q.1 q.2 == some p

/-- One row of `_parse_board`. -/
def parseRow (t : Text) : Option (List (Option Piece)) :=
  match RunLength.expand rankCode false t with
  | none => none
  | some row => if row.length = 8 then some row else none

/-- `_parse_board`. -/
def parseBoard (board : Text) : Option Grid :=
  let ranks := board.splitOn '/'
  if ranks.length ≠ 8 then none
  else (ranks.mapM parseRow).map fun rows r c => (rows[r.val]?.bind fun row => row[c.val]?).join

def knightSteps : List Delta :=
  [(1, 2), (2, 1), (-1, 2), (-2, 1), (1, -2), (2, -1), (-1, -2), (-2, -1)]

/-- `for dr in (-1, 0, 1): for dc in (-1, 0, 1)`, the zero step left out. -/
def kingSteps : List Delta :=
  [(-1, -1), (-1, 0), (-1, 1), (0, -1), (0, 1), (1, -1), (1, 0), (1, 1)]

def diag : List Delta := [(1, 1), (1, -1), (-1, 1), (-1, -1)]

def straightSteps : List Delta := [(0, 1), (0, -1), (1, 0), (-1, 0)]

/-- Contents met by the sliding loop from `(r, c)` in direction `d`. -/
def slide (g : Grid) (d : Delta) (r c : ℤ) : List (Option Piece) :=
  BoundedWalk.walk (fun p : ℤ × ℤ => g.at p.1 p.2) Option.isSome
    (fun p => (p.1 + d.1, p.2 + d.2)) 8 (r + d.1, c + d.2)

/-- `_attacks`: is cell `(r, c)` attacked by the given side? A white pawn is
looked for one row above the cell. -/
def attacks (g : Grid) (r c : ℤ) (side : Color) : Bool :=
  let dr : ℤ := if side = .white then -1 else 1
  [(-1 : ℤ), 1].any (fun dc => g.at (r + dr) (c + dc) == some (some ⟨side, .pawn⟩)) ||
  knightSteps.any (fun d => g.at (r + d.1) (c + d.2) == some (some ⟨side, .knight⟩)) ||
  kingSteps.any (fun d => g.at (r + d.1) (c + d.2) == some (some ⟨side, .king⟩)) ||
  diag.any (fun d => (slide g d r c).any (officer side [.bishop, .queen])) ||
  straightSteps.any (fun d => (slide g d r c).any (officer side [.rook, .queen]))

/-! ### En-passant semantics -/

/-- The sides and rows `_check_ep_semantics` reads off the target's rank. -/
structure EpRows where
  side : Color
  pawn : Piece
  enemy : Piece
  row : Fin 8
  origin : Fin 8
  skipped : Fin 8

/-- Rank 3 after a White double step, rank 6 after a Black one. -/
def epRows (ep : Square) : EpRows :=
  if ep.rank = 2 then ⟨.black, ⟨.white, .pawn⟩, ⟨.black, .pawn⟩, 4, 6, 5⟩
  else ⟨.white, ⟨.black, .pawn⟩, ⟨.white, .pawn⟩, 3, 1, 2⟩

def column (c : ℤ) : Option (Fin 8) := if h : 0 ≤ c ∧ c < 8 then some ⟨c.toNat, by omega⟩ else none

/-- The simulated capture by the pawn on column `cf`. -/
def simulate (g : Grid) (ep : Square) (row : Fin 8) (enemy : Piece) (cf : Fin 8) : Grid :=
  let epRow : Fin 8 := if ep.rank = 2 then 5 else 2
  ((g.set row cf none).set row ep.file none).set epRow ep.file (some enemy)

/-- `_ep_capture_legal`. A grid without exactly one king of the side has no
legal capture. -/
def epCaptureLegal (g : Grid) (ep : Square) (side : Color) (row : Fin 8) (enemy : Piece) : Bool :=
  [(-1 : ℤ), 1].any fun df =>
    match column (ep.x + df) with
    | none => false
    | some cf =>
      g row cf == some enemy &&
        match (simulate g ep row enemy cf).find (king side) with
        | [k] => !attacks (simulate g ep row enemy cf) k.1.val k.2.val side.other
        | _ => false

/-- `_check_ep_semantics`. -/
def checkEpSemantics (g : Grid) (ep : Square) (side : Color) : Bool :=
  let rows := epRows ep
  side == rows.side && g rows.row ep.file == some rows.pawn &&
    (g rows.origin ep.file == none && g rows.skipped ep.file == none) &&
    epCaptureLegal g ep side rows.row rows.enemy

/-! ### Position semantics -/

/-- The cells of a castling right: king row and column, rook row and column. -/
structure CastlingCells where
  kr : Fin 8
  kc : Fin 8
  rr : Fin 8
  rc : Fin 8

/-- `ORTHODOX_CASTLING_SQUARES`. -/
def orthodoxCastlingSquares : Right → CastlingCells
  | .K => ⟨7, 4, 7, 7⟩
  | .Q => ⟨7, 4, 7, 0⟩
  | .k => ⟨0, 4, 0, 7⟩
  | .q => ⟨0, 4, 0, 0⟩

def castlingConsistent (g : Grid) (r : Right) : Bool :=
  let cells := orthodoxCastlingSquares r
  g cells.kr cells.kc == some (king r.color) && g cells.rr cells.rc == some ⟨r.color, .rook⟩

/-- Pawn and piece supply of one side. -/
def supplyOk (g : Grid) (c : Color) : Bool :=
  decide (g.flat.count (some ⟨c, .pawn⟩) ≤ 8) &&
    decide ((g.flat.countP fun sq => sq.any fun p => p.color == c) ≤ 16)

/-- `_check_position_semantics`; no rights stand for the field `-`. -/
def checkPositionSemantics (g : Grid) (castling : List Right) (side : Color)
    (castlingKind : CastlingKind) : Bool :=
  g.flat.count (some (king .white)) == 1 && g.flat.count (some (king .black)) == 1 &&
    (supplyOk g .white && supplyOk g .black) &&
    ((List.finRange 8).all fun c =>
      [g 0 c, g 7 c].all fun sq => !(sq.any fun p => p.kind == .pawn)) &&
    match (g.find (king .white)).head?, (g.find (king .black)).head? with
    | some kw, some kb =>
      let waiting := if side = .white then kb else kw
      decide (1 < max |(kw.1.val : ℤ) - kb.1.val| |(kw.2.val : ℤ) - kb.2.val|) &&
        !attacks g waiting.1.val waiting.2.val side &&
        match castlingKind with
        | .chess960 => castling == []
        | .orthodox => castling.all (castlingConsistent g)
    | _, _ => false

/-! ### The FEN check -/

def readSide : Text → Option Color
  | [c] => colorOf? c
  | _ => none

/-- `-`, or distinct letters of `KQkq` in any order. -/
def readCastling (t : Text) : Option (List Right) :=
  if t = ['-'] then some []
  else
    match t.mapM rightOf? with
    | none => none
    | some rights => if rights = [] ∨ ¬ rights.Nodup then none else some rights

/-- `-`, or a square of rank 3 or 6. -/
def readTarget (t : Text) : Option (Option Square) :=
  if t = ['-'] then some none
  else
    match squareOf? t with
    | none => none
    | some s => if s.rank = 2 ∨ s.rank = 5 then some (some s) else none

/-- `[1-9][0-9]{0,9}`. -/
def boundedInt : Text → Bool
  | [] => false
  | c :: t => c.isDigit && c != '0' && t.all Char.isDigit && decide (t.length ≤ 9)

/-- `_check_fen`. -/
def checkFen (fen : Scalar) (castlingKind : CastlingKind) : Except FailureClass Unit :=
  match fen with
  | .foreign _ => .error .wrongFieldCount
  | .str text =>
    match text.splitOn ' ' with
    | [board, side, castling, ep, half, full] =>
      match parseBoard board with
      | none => .error .badBoard
      | some grid =>
        match readSide side with
        | none => .error .badSide
        | some side =>
          match readCastling castling with
          | none => .error .badCastling
          | some castling =>
            match readTarget ep with
            | none => .error .badEnPassant
            | some ep =>
              if ((half == ['0'] || boundedInt half) && boundedInt full) = false then
                .error .badCounters
              else if (checkPositionSemantics grid castling side castlingKind &&
                  ep.all fun s => checkEpSemantics grid s side) = false then
                .error .illegalPosition
              else .ok ()
    | _ => .error .wrongFieldCount

end VariantContractLint
end OpenChess

/-!
## The grid of the variant lint as a placement

Reflecting the rows turns a grid into a placement. Read so, the lint's attack
test agrees with the attack relation on everything but pawns, which it looks
for on the far side of the square.
-/

namespace OpenChess
namespace VariantContractLint

/-- The grid of a placement: row 0 is rank 8. -/
def Grid.ofBoard (b : Placement) : Grid := fun r c => b ⟨c, r.rev⟩

def Grid.toBoard (g : Grid) : Placement := fun s => g s.rank.rev s.file

@[simp] theorem Grid.toBoard_ofBoard (b : Placement) : (Grid.ofBoard b).toBoard = b := by
  funext s
  simp [Grid.toBoard, Grid.ofBoard]

@[simp] theorem Grid.ofBoard_toBoard (g : Grid) : Grid.ofBoard g.toBoard = g := by
  funext r c
  simp [Grid.toBoard, Grid.ofBoard]

theorem at_ofBoard (b : Placement) (x y : ℤ) :
    (Grid.ofBoard b).at (7 - y) x = (sqAt x y).map b := by
  unfold Grid.at sqAt
  by_cases h : (0 ≤ x ∧ x < 8) ∧ 0 ≤ y ∧ y < 8
  · rw [dif_pos (by omega), dif_pos h, Option.map_some, Grid.ofBoard]
    congr 3
    apply Fin.ext
    simp only [Fin.val_rev]
    omega
  · rw [dif_neg (by omega), dif_neg h, Option.map_none]

theorem at_eq_some {b : Placement} {x y : ℤ} {p : Piece} :
    (Grid.ofBoard b).at (7 - y) x = some (some p) ↔ b.get x y = some p := by
  rw [at_ofBoard, Placement.get]
  cases sqAt x y <;> simp

/-- A grid direction as a delta: rows count downwards. -/
def flip (d : Delta) : Delta := (d.2, -d.1)

theorem slide_eq (b : Placement) (d : Delta) (x y : ℤ) :
    slide (Grid.ofBoard b) d (7 - y) x = (scan b (flip d) x y).map b := by
  have hstart : ((7 - y + d.1, x + d.2) : ℤ × ℤ) =
      (fun p : ℤ × ℤ => (7 - p.2, p.1)) (x + (flip d).1, y + (flip d).2) := by
    simp only [flip, Prod.mk.injEq, and_true]
    ring
  have hnext : ∀ p : ℤ × ℤ, ((7 - p.2 + d.1, p.1 + d.2) : ℤ × ℤ) =
      (fun p : ℤ × ℤ => (7 - p.2, p.1)) (p.1 + (flip d).1, p.2 + (flip d).2) := by
    intro p
    simp only [flip, Prod.mk.injEq, and_true]
    ring
  rw [slide, hstart, BoundedWalk.walk_comap (fun p : ℤ × ℤ => (7 - p.2, p.1)) hnext]
  simp only [at_ofBoard]
  exact BoundedWalk.walk_map b _ Option.isSome _ 8 _

/-- Testing a cell along every step of a list that flips to `D`. -/
theorem exists_step {b : Placement} {D D' : List Delta} (hD : (D.map flip).Perm D') {x y : ℤ}
    {p : Piece} :
    (∃ d ∈ D, (Grid.ofBoard b).at (7 - y + d.1) (x + d.2) = some (some p)) ↔
      ∃ d ∈ D', b.get (x + d.1) (y + d.2) = some p := by
  have hcell : ∀ d : Delta, (Grid.ofBoard b).at (7 - y + d.1) (x + d.2) = some (some p) ↔
      b.get (x + (flip d).1) (y + (flip d).2) = some p := by
    intro d
    rw [show 7 - y + d.1 = 7 - (y + (flip d).2) by simp only [flip]; ring, at_eq_some]
    rfl
  simp only [hcell, ← hD.mem_iff, List.mem_map]
  constructor
  · rintro ⟨d, hd, h⟩
    exact ⟨_, ⟨d, hd, rfl⟩, h⟩
  · rintro ⟨_, ⟨d, hd, rfl⟩, h⟩
    exact ⟨d, hd, h⟩

theorem exists_slide {b : Placement} {D D' : List Delta} (hD : (D.map flip).Perm D')
    (hunit : ∀ d ∈ D', d ∈ straight ++ diagonal) {t : Square} {c : Color} {k : Kind} :
    (∃ d ∈ D, ∃ p ∈ slide (Grid.ofBoard b) d (7 - t.y) t.x, officer c [k, .queen] p = true) ↔
      SliderOn b D' c k t := by
  rw [← exists_scan_officer hunit]
  simp only [slide_eq, ← hD.mem_iff, List.mem_map]
  constructor
  · rintro ⟨d, hd, h⟩
    exact ⟨_, ⟨d, hd, rfl⟩, h⟩
  · rintro ⟨_, ⟨d, hd, rfl⟩, h⟩
    exact ⟨d, hd, h⟩

/-- `_attacks` finds pawns ahead of the cell instead of behind it. -/
theorem attacks_iff {b : Placement} {c : Color} {t : Square} :
    attacks (Grid.ofBoard b) (7 - t.y) t.x c = true ↔
      PawnAhead b c t ∨ OfficerAttacked b c t := by
  have hpawn : (∃ dc ∈ [(-1 : ℤ), 1], (Grid.ofBoard b).at
      (7 - t.y + if c = .white then -1 else 1) (t.x + dc) = some (some ⟨c, .pawn⟩)) ↔
      PawnAhead b c t := by
    have hrank : 7 - t.y + (if c = .white then -1 else 1) = 7 - (t.y + c.forward) := by
      cases c <;> simp only [Color.forward, reduceCtorEq, if_true, if_false] <;> ring
    simp only [hrank, at_eq_some, PawnAhead, pawnCaptures, List.mem_cons, List.not_mem_nil,
      or_false, exists_eq_or_imp, exists_eq_left]
    exact or_comm
  unfold attacks
  simp only [Bool.or_eq_true, List.any_eq_true, beq_iff_eq]
  have hknight : (knightSteps.map flip).Perm knightLeaps := by decide
  have hking : (kingSteps.map flip).Perm kingLeaps := by decide
  have hdiagonal : (diag.map flip).Perm diagonal := by decide
  have hstraight : (straightSteps.map flip).Perm straight := by decide
  rw [hpawn, exists_step hknight, exists_step hking,
    exists_slide hdiagonal fun d hd => List.mem_append_right _ hd,
    exists_slide hstraight fun d hd => List.mem_append_left _ hd, OfficerAttacked]
  have horder : ∀ P N K B S : Prop, ((((P ∨ N) ∨ K) ∨ B) ∨ S) ↔ P ∨ N ∨ K ∨ S ∨ B := by
    intro P N K B S
    rw [or_right_comm]
    simp only [or_assoc]
  exact horder _ _ _ _ _

/-! ### Cells of the grid of a placement -/

variable {b : Placement} {c : Color} {p : Piece}

theorem ofBoard_apply (r f : Fin 8) : Grid.ofBoard b r f = b ⟨f, r.rev⟩ := rfl

theorem val_rev (s : Square) : (s.rank.rev.val : ℤ) = 7 - s.y := by
  have h := s.rank.isLt
  rw [Fin.val_rev, Square.y]
  omega

theorem ofBoard_set (r f : Fin 8) (v : Option Piece) :
    (Grid.ofBoard b).set r f v = Grid.ofBoard (Function.update b ⟨f, r.rev⟩ v) := by
  funext r' f'
  rw [Grid.set, ofBoard_apply, ofBoard_apply, Function.update_apply]
  simp only [Square.mk.injEq, Fin.rev_inj, and_comm]

theorem mem_find {g : Grid} {q : Fin 8 × Fin 8} : q ∈ g.find p ↔ g q.1 q.2 = some p := by
  simp only [Grid.find, List.mem_flatMap, List.mem_filter, List.mem_map, List.mem_finRange,
    true_and, beq_iff_eq]
  constructor
  · intro h
    obtain ⟨r, -, hq⟩ := h
    exact hq
  · exact fun h => ⟨q.1, ⟨q.2, rfl⟩, h⟩

theorem nodup_find (g : Grid) (p : Piece) : (g.find p).Nodup := by
  have hcells : (List.finRange 8 ×ˢ List.finRange 8).Nodup :=
    (List.nodup_finRange 8).product (List.nodup_finRange 8)
  rw [Grid.find, ← List.filter_flatMap]
  exact hcells.filter _

/-- The only king of a side is found on its cell. -/
theorem find_king {k : Square} (h : KingAt b c k) :
    (Grid.ofBoard b).find (king c) = [(k.rank.rev, k.file)] := by
  refine List.perm_singleton.mp ((List.perm_ext_iff_of_nodup (nodup_find _ _)
    (List.nodup_singleton _)).mpr fun q => ?_)
  rw [mem_find, List.mem_singleton, ofBoard_apply, h]
  constructor
  · rintro rfl
    simp
  · rintro rfl
    simp

/-- The cells, row by row, are the squares in another order. -/
theorem flat_perm (b : Placement) : (Grid.ofBoard b).flat.Perm (allSquares.map b) := by
  have hcells : (Grid.ofBoard b).flat = ((List.finRange 8).flatMap fun r =>
      (List.finRange 8).map fun f => (⟨f, r.rev⟩ : Square)).map b := by
    simp only [Grid.flat, List.map_flatMap, List.map_map]
    rfl
  rw [hcells]
  refine List.Perm.map _ ((List.perm_ext_iff_of_nodup ?_ nodup_allSquares).mpr fun s => ?_)
  · refine List.nodup_flatMap.mpr ⟨fun r _ => ?_, ?_⟩
    · exact (List.nodup_finRange 8).map fun f f' h => congrArg Square.file h
    · refine (List.nodup_finRange 8).imp fun hne s hs hs' => hne ?_
      obtain ⟨f, -, rfl⟩ := List.mem_map.mp hs
      obtain ⟨f', -, heq⟩ := List.mem_map.mp hs'
      exact Fin.rev_injective (congrArg Square.rank heq).symm
  · refine iff_of_true (List.mem_flatMap.mpr ⟨s.rank.rev, List.mem_finRange _, ?_⟩)
      (mem_allSquares s)
    exact List.mem_map.mpr ⟨s.file, List.mem_finRange _, by rw [Fin.rev_rev]⟩

theorem count_flat_king {k : Square} (h : KingAt b c k) :
    (Grid.ofBoard b).flat.count (some (king c)) = 1 := by
  have hlist := squaresOf_king h
  rw [(flat_perm b).count_eq, List.count, List.countP_map, List.countP_eq_length_filter]
  exact congrArg List.length hlist

/-! ### The simulated capture -/

theorem column_eq_some {x : ℤ} {f : Fin 8} : column x = some f ↔ (f.val : ℤ) = x := by
  have hf := f.isLt
  unfold column
  split_ifs with h
  · rw [Option.some.injEq, Fin.ext_iff]
    simp only
    omega
  · simp only [false_iff]
    omega

/-- What the lint takes for an attack. -/
def LintAttacked (b : Placement) (c : Color) (t : Square) : Prop :=
  PawnAhead b c t ∨ OfficerAttacked b c t

theorem attacks_square {t : Square} :
    attacks (Grid.ofBoard b) t.rank.rev.val t.file.val c = true ↔ LintAttacked b c t := by
  rw [val_rev]
  exact attacks_iff

end VariantContractLint
end OpenChess
