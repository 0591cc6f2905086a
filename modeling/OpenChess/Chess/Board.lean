import Mathlib.Data.Fintype.Basic
import Mathlib.Tactic

/-!
# Squares, pieces and placements

Every runtime of the repository stores the same board under different
coordinates and tokens. The common type is a partial map from squares to
pieces; coordinates are read as integers, because the sources add deltas
first and test the bounds afterwards.
-/

namespace OpenChess

/-- Named, so that rank and file numerals are read through one instance everywhere. -/
instance neZeroEight : NeZero (8 : ℕ) := ⟨by decide⟩

inductive Color
  | white
  | black
  deriving DecidableEq, Repr

inductive Kind
  | pawn
  | knight
  | bishop
  | rook
  | queen
  | king
  deriving DecidableEq, Repr

structure Piece where
  color : Color
  kind : Kind
  deriving DecidableEq, Repr

instance : Fintype Color := ⟨{.white, .black}, by intro c; cases c <;> decide⟩

/-- The other side. -/
def Color.other : Color → Color
  | .white => .black
  | .black => .white

@[simp] theorem Color.other_other (c : Color) : c.other.other = c := by cases c <;> rfl

@[simp] theorem Color.other_ne (c : Color) : c.other ≠ c := by cases c <;> decide

@[simp] theorem Color.ne_other (c : Color) : c ≠ c.other := by cases c <;> decide

theorem Color.ne_iff_eq_other {c d : Color} : c ≠ d ↔ c = d.other := by
  cases c <;> cases d <;> decide

/-- Indices of the file letter and of the rank digit, both counted from zero. -/
structure Square where
  file : Fin 8
  rank : Fin 8
  deriving DecidableEq, Repr

namespace Square

def x (s : Square) : ℤ := s.file.val
def y (s : Square) : ℤ := s.rank.val

theorem bounds (s : Square) : (0 ≤ s.x ∧ s.x < 8) ∧ 0 ≤ s.y ∧ s.y < 8 := by
  have hf := s.file.isLt
  have hr := s.rank.isLt
  simp only [x, y]
  omega

theorem ext_xy {s t : Square} (hx : s.x = t.x) (hy : s.y = t.y) : s = t := by
  obtain ⟨⟨f, hf⟩, ⟨r, hr⟩⟩ := s
  obtain ⟨⟨f', hf'⟩, ⟨r', hr'⟩⟩ := t
  simp only [x, y, Nat.cast_inj] at hx hy
  subst hx hy
  rfl

end Square

/-- The square at integer coordinates, if they are on the board. -/
def sqAt (x y : ℤ) : Option Square :=
  if h : (0 ≤ x ∧ x < 8) ∧ 0 ≤ y ∧ y < 8 then
    some ⟨⟨x.toNat, by omega⟩, ⟨y.toNat, by omega⟩⟩
  else none

theorem sqAt_eq_some {x y : ℤ} {s : Square} : sqAt x y = some s ↔ s.x = x ∧ s.y = y := by
  unfold sqAt
  constructor
  · intro h
    split_ifs at h with hb
    cases h
    simp only [Square.x, Square.y]
    omega
  · rintro ⟨rfl, rfl⟩
    rw [dif_pos s.bounds]
    exact congrArg some (Square.ext_xy (by simp [Square.x]) (by simp [Square.y]))

@[simp] theorem sqAt_xy (s : Square) : sqAt s.x s.y = some s := sqAt_eq_some.mpr ⟨rfl, rfl⟩

theorem eq_of_sqAt {x y : ℤ} {q : Square} (h : sqAt x y = some q) (t : Square) :
    t.x = x ∧ t.y = y ↔ t = q := by
  rw [← sqAt_eq_some, h, Option.some.injEq, eq_comm]

theorem sqAt_eq_none {x y : ℤ} :
    sqAt x y = none ↔ ¬ ((0 ≤ x ∧ x < 8) ∧ 0 ≤ y ∧ y < 8) := by
  unfold sqAt
  split_ifs with h <;> simp [h]

theorem not_at_of_sqAt {x y : ℤ} (h : sqAt x y = none) (t : Square) :
    ¬ (t.x = x ∧ t.y = y) := by
  rw [← sqAt_eq_some, h]
  exact fun h => by cases h

/-- All squares in the order of their names, `a1, a2, …, h8`. -/
def allSquares : List Square :=
  (List.finRange 8).flatMap fun f => (List.finRange 8).map fun r => ⟨f, r⟩

@[simp] theorem mem_allSquares (s : Square) : s ∈ allSquares := by
  simp only [allSquares, List.mem_flatMap, List.mem_map, List.mem_finRange, true_and]
  exact ⟨s.file, s.rank, rfl⟩

theorem nodup_allSquares : allSquares.Nodup := by decide

instance : Fintype Square := ⟨⟨↑allSquares, nodup_allSquares⟩, mem_allSquares⟩

abbrev Placement := Square → Option Piece

namespace Placement

def get (b : Placement) (x y : ℤ) : Option Piece := (sqAt x y).bind b

theorem get_eq_some {b : Placement} {x y : ℤ} {p : Piece} :
    b.get x y = some p ↔ ∃ s : Square, s.x = x ∧ s.y = y ∧ b s = some p := by
  simp only [get, Option.bind_eq_some_iff, sqAt_eq_some, and_assoc]

@[simp] theorem get_xy (b : Placement) (s : Square) : b.get s.x s.y = b s := by simp [get]

theorem get_of_sqAt {b : Placement} {x y : ℤ} {s : Square} (h : sqAt x y = some s) :
    b.get x y = b s := by simp [get, h]

end Placement
end OpenChess
