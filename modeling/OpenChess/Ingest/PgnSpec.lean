import OpenChess.Ingest.Pgn

/-!
# The 64-list as a placement

Index `rank * 8 + file` is a bijection between squares and `Fin 64`. Through it
the target-centred test of the PGN core is the attack relation, and playing a
move that is neither castling nor en passant is one relocation.
-/

namespace OpenChess
namespace Pgn

def index (s : Square) : Fin 64 := ⟨s.rank.val * 8 + s.file.val, by omega⟩

def square (i : Fin 64) : Square := ⟨⟨i.val % 8, by omega⟩, ⟨i.val / 8, by omega⟩⟩

@[simp] theorem square_index (s : Square) : square (index s) = s := by
  obtain ⟨f, r⟩ := s
  simp only [square, index, Square.mk.injEq]
  constructor <;> apply Fin.ext <;> simp only <;> omega

@[simp] theorem index_square (i : Fin 64) : index (square i) = i := by
  apply Fin.ext
  simp only [square, index]
  omega

theorem index_injective : Function.Injective index :=
  Function.LeftInverse.injective square_index

theorem square_injective : Function.Injective square :=
  Function.LeftInverse.injective index_square

theorem val_eq (i : Fin 64) : (i.val : ℤ) = 8 * (square i).y + (square i).x := by
  simp only [Square.x, Square.y, square]
  omega

theorem fileOf_eq (i : Fin 64) : fileOf i = (square i).x := rfl

theorem rankOf_eq (i : Fin 64) : rankOf i = (square i).y := rfl

theorem idx_eq (f r : ℤ) : idx f r = (sqAt f r).map index := by
  unfold idx sqAt
  split_ifs with h
  · simp only [Option.map_some, Option.some.injEq]
    apply Fin.ext
    simp only [index]
    omega
  · rfl

def Squares.toBoard (v : Squares) : Placement := fun s => v.get (index s)

def Squares.ofBoard (b : Placement) : Squares := Vector.ofFn fun i => b (square i)

@[simp] theorem Squares.get_ofBoard (b : Placement) (i : Fin 64) :
    (Squares.ofBoard b).get i = b (square i) := by
  change (Vector.ofFn fun j => b (square j))[i.val] = b (square i)
  rw [Vector.getElem_ofFn]

@[simp] theorem Squares.toBoard_ofBoard (b : Placement) : (Squares.ofBoard b).toBoard = b := by
  funext s
  simp [Squares.toBoard]

theorem Squares.toBoard_square (v : Squares) (i : Fin 64) : v.toBoard (square i) = v.get i := by
  simp [Squares.toBoard]

theorem cell_eq (v : Squares) (f r : ℤ) : v.cell f r = (sqAt f r).map v.toBoard := by
  rw [Squares.cell, idx_eq, Option.map_map]
  rfl

theorem holds_iff {v : Squares} {f r : ℤ} {p : Piece} :
    v.holds f r p = true ↔ v.toBoard.get f r = some p := by
  rw [Squares.holds, cell_eq, beq_iff_eq, Placement.get]
  cases sqAt f r <;> simp

/-- The sliding loop over contents is the scan of the placement. -/
theorem slide_eq (v : Squares) (d : Delta) (x y : ℤ) :
    v.slide d (x + d.1) (y + d.2) = (scan v.toBoard d x y).map v.toBoard := by
  have h := BoundedWalk.walk_map v.toBoard (fun p : ℤ × ℤ => sqAt p.1 p.2) Option.isSome
    (fun p => (p.1 + d.1, p.2 + d.2)) 8 (x + d.1, y + d.2)
  simpa [Squares.slide, scan, cell_eq] using h

theorem mem_kingSteps {d : Delta} : d ∈ Board.kingSteps ↔ d ∈ kingLeaps := by
  have h : List.Perm Board.kingSteps kingLeaps := by decide
  exact h.mem_iff

theorem exists_ray {P : Delta → List Kind → Prop} :
    (∃ ray ∈ Board.rays, P ray.1 ray.2) ↔
      (∃ d ∈ straight, P d [.rook, .queen]) ∨ (∃ d ∈ diagonal, P d [.bishop, .queen]) := by
  simp only [Board.rays, straight, diagonal, List.mem_cons, List.not_mem_nil, or_false,
    exists_eq_or_imp, exists_eq_left]
  tauto

/-- `Board.attacked` is the attack relation. -/
theorem attacked_iff_attacked {b : Board} {target : Fin 64} {side : Color} :
    b.attacked target side = true ↔ Attacked b.squares.toBoard side (square target) := by
  have hpawn : (∃ df ∈ [(-1 : ℤ), 1], b.squares.toBoard.get (fileOf target + df)
      (if side = .white then rankOf target - 1 else rankOf target + 1) = some ⟨side, .pawn⟩) ↔
      ∃ d ∈ pawnCaptures side, b.squares.toBoard.get ((square target).x - d.1)
        ((square target).y - d.2) = some ⟨side, .pawn⟩ := by
    simp only [pawnCaptures, List.mem_cons, List.not_mem_nil, or_false, exists_eq_or_imp,
      exists_eq_left, fileOf_eq, rankOf_eq, sub_neg_eq_add, ← sub_eq_add_neg]
    cases side <;> simp [Color.forward]
  have hslide : ∀ (D : List Delta) (k : Kind), (∀ d ∈ D, d ∈ straight ++ diagonal) →
      ((∃ d ∈ D, ∃ cell ∈ b.squares.slide d (fileOf target + d.1) (rankOf target + d.2),
        officer side [k, .queen] cell = true) ↔
        SliderOn b.squares.toBoard D side k (square target)) := by
    intro D k hD
    simp only [fileOf_eq, rankOf_eq, slide_eq]
    exact exists_scan_officer hD
  have hking : (∃ d ∈ Board.kingSteps, b.squares.toBoard.get (fileOf target + d.1)
      (rankOf target + d.2) = some ⟨side, .king⟩) ↔
      ∃ d ∈ kingLeaps, b.squares.toBoard.get ((square target).x + d.1)
        ((square target).y + d.2) = some ⟨side, .king⟩ := by
    simp only [mem_kingSteps, fileOf_eq, rankOf_eq]
  rw [attacked_iff, PawnBehind, OfficerAttacked, Board.attacked]
  simp only [Bool.or_eq_true, List.any_eq_true, holds_iff]
  rw [hpawn, exists_ray (P := fun d kinds => ∃ cell ∈ b.squares.slide d (fileOf target + d.1)
      (rankOf target + d.2), officer side kinds cell = true),
    hslide straight .rook (fun d hd => List.mem_append_left _ hd),
    hslide diagonal .bishop (fun d hd => List.mem_append_right _ hd), hking]
  have horder : ∀ P N K S B : Prop, (((P ∨ N) ∨ S ∨ B) ∨ K) ↔ P ∨ N ∨ K ∨ S ∨ B := by
    intro P N K S B
    rw [or_right_comm]
    simp only [or_assoc]
  exact horder _ _ _ _ _

end Pgn
end OpenChess
