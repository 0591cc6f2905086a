import OpenChess.Ingest.PgnMoves
import OpenChess.Lib.Separated

/-!
# Playing and filtering moves in the PGN core

Without castling a move is a relocation, less the pawn taken en passant. The
legality filter and the annotation need the kings of the positions they reach;
a king is never on a destination, so they always find them.
-/

namespace OpenChess
namespace Pgn

theorem Squares.get_set (v : Squares) (i j : Fin 64) (x : Option Piece) :
    Vector.get (v.set i.val x i.isLt) j = if j = i then x else v.get j := by
  change (v.set i.val x i.isLt)[j.val] = if j = i then x else v[j.val]
  rw [Vector.getElem_set]
  simp only [Fin.ext_iff, eq_comm]

theorem Squares.get_setSquare (v : Squares) (i : ℤ) (j : Fin 64) (x : Option Piece) :
    Vector.get (Board.setSquare v i x) j = if (j.val : ℤ) = i then x else v.get j := by
  unfold Board.setSquare
  split_ifs with h hj hj
  · have := Squares.get_set v ⟨i.toNat, by omega⟩ j x
    rw [if_pos (Fin.ext (by simp only; omega))] at this
    exact this
  · have := Squares.get_set v ⟨i.toNat, by omega⟩ j x
    rw [if_neg (fun he => hj (by rw [he]; simp only; omega))] at this
    exact this
  · omega
  · rfl

namespace Board

variable {B : Board} {m : Move} {p : Piece} {c : Color} {j k : Fin 64}

def taken (B : Board) (m : Move) : ℤ :=
  if B.turn = .white then (m.dest.val : ℤ) - 8 else m.dest.val + 8

theorem get_apply (hcastle : m.castle = none) :
    (B.apply m).squares.get j =
      if j = m.dest then arriving m (B.squares.get m.frm)
      else if m.enPassant = true ∧ (j.val : ℤ) = B.taken m then none
      else if j = m.frm then none
      else B.squares.get j := by
  unfold apply taken
  simp only [hcastle, Squares.get_set]
  by_cases hep : m.enPassant = true
  · simp only [hep, if_true, Squares.get_setSquare, Squares.get_set, true_and]
  · simp only [hep, if_false, Squares.get_set, false_and, Bool.false_eq_true]

theorem castling_apply (h : B.castling = []) : (B.apply m).castling = [] := by
  simp [apply, h]

theorem ep_apply {e : Fin 64} (h : (B.apply m).ep = some e) :
    (∀ p, B.squares.get m.frm = some p → p.kind = .pawn) ∧
    ((m.dest.val : ℤ) - m.frm.val = 16 ∨ (m.dest.val : ℤ) - m.frm.val = -16) ∧
    e.val = (m.dest.val + m.frm.val) / 2 := by
  simp only [apply] at h
  split_ifs at h with hep
  · refine ⟨fun p hp => ?_, by simpa using hep.2, ?_⟩
    · simpa [hp] using hep.1
    · cases h
      rfl

@[simp] theorem turn_apply : (B.apply m).turn = B.turn.other := rfl

/-! ### Kings -/

theorem kingSquare_isSome (h : B.squares.get k = some (king c)) :
    ∃ j, B.kingSquare c = some j ∧ B.squares.get j = some (king c) := by
  cases hk : B.kingSquare c with
  | none =>
    have := List.find?_eq_none.mp hk k (List.mem_finRange k)
    simp [h] at this
  | some j => exact ⟨j, rfl, by simpa using List.find?_some hk⟩

theorem kingSquare_eq {s : Square} (h : KingAt B.squares.toBoard c s) :
    B.kingSquare c = some (index s) := by
  have hs : B.squares.get (index s) = some (king c) := (h s).mpr rfl
  obtain ⟨j, hj, hget⟩ := kingSquare_isSome hs
  rw [← B.squares.toBoard_square, h] at hget
  rw [hj, ← hget, index_square]

theorem king_apply (hcastle : m.castle = none) (hsource : B.squares.get m.frm = some p)
    (hpromotion : m.promotion ≠ none → p.kind = .pawn) (hk : B.squares.get k = some (king c))
    (hdest : k ≠ m.dest) (htaken : m.enPassant = true → (k.val : ℤ) ≠ B.taken m) :
    ∃ j, (B.apply m).squares.get j = some (king c) := by
  by_cases hfrm : k = m.frm
  · have hp : p = king c := by
      rw [hfrm, hsource] at hk
      exact Option.some.inj hk
    have hnone : m.promotion = none := by
      by_contra h
      have := hpromotion h
      rw [hp] at this
      cases this
    refine ⟨m.dest, ?_⟩
    rw [get_apply hcastle, if_pos rfl, arriving, hnone, hsource, hp]
  · refine ⟨k, ?_⟩
    rw [get_apply hcastle, if_neg hdest, if_neg (fun h => htaken h.1 h.2), if_neg hfrm, hk]

def filled (B : Board) (m : Move) : Move := { m with piece := B.squares.get m.frm }

@[simp] theorem filled_frm : (B.filled m).frm = m.frm := rfl
@[simp] theorem filled_dest : (B.filled m).dest = m.dest := rfl
@[simp] theorem filled_promotion : (B.filled m).promotion = m.promotion := rfl
@[simp] theorem filled_castle : (B.filled m).castle = m.castle := rfl
@[simp] theorem filled_enPassant : (B.filled m).enPassant = m.enPassant := rfl

/-- The en-passant square and the square behind it hold no king of the side to move. -/
def EpClear (B : Board) : Prop := ∀ e, B.ep = some e →
  B.squares.get e ≠ some (king B.turn) ∧
    ∀ j : Fin 64, (j.val : ℤ) = (if B.turn = .white then (e.val : ℤ) - 8 else e.val + 8) →
      B.squares.get j ≠ some (king B.turn)

theorem own_king_apply (hcastling : B.castling = []) (hclear : EpClear B)
    (hm : m ∈ B.candidates) (hk : B.squares.get k = some (king B.turn)) :
    ∃ j, (B.apply (B.filled m)).squares.get j = some (king B.turn) := by
  obtain ⟨p, hsource, hown, hmoves⟩ := mem_candidates.mp hm
  have hshape := shape_of_movesOf hcastling hmoves
  refine king_apply (m := B.filled m) (p := p) (k := k) hshape.castle hsource
    hshape.promotion hk ?_ ?_
  · intro hdest
    subst hdest
    rcases hshape.free _ hk with h | h
    · exact h rfl
    · exact (hclear _ h).1 hk
  · intro hep htaken
    exact (hclear _ (hshape.enPassant hep)).2 k htaken hk

def Safe (B : Board) (m : Move) : Prop := ∀ k, (B.apply m).kingSquare B.turn = some k →
  (B.apply m).attacked k B.turn.other = false

theorem safe_iff {s : Square} (hk : KingAt (B.apply m).squares.toBoard B.turn s) :
    B.Safe m ↔ ¬ Attacked (B.apply m).squares.toBoard B.turn.other s := by
  have hsquare := kingSquare_eq hk
  have hatt : (B.apply m).attacked (index s) B.turn.other = true ↔
      Attacked (B.apply m).squares.toBoard B.turn.other (square (index s)) := attacked_iff_attacked
  rw [square_index] at hatt
  rw [← hatt, Bool.not_eq_true]
  constructor
  · intro h
    exact h _ hsquare
  · intro h k hk'
    rw [hsquare] at hk'
    cases hk'
    exact h

/-- With every mover's king in place, the filter returns the safe candidates. -/
theorem keepLegal_eq {ms : List Move}
    (h : ∀ m ∈ ms, ∃ k, (B.apply (B.filled m)).kingSquare B.turn = some k) :
    ∃ L, B.keepLegal ms = some L ∧
      ∀ m', m' ∈ L ↔ ∃ m ∈ ms, m' = B.filled m ∧ B.Safe m' := by
  induction ms with
  | nil => exact ⟨[], rfl, by simp⟩
  | cons m ms ih =>
    obtain ⟨k, hk⟩ := h m List.mem_cons_self
    obtain ⟨L, hL, hmem⟩ := ih fun m hm => h m (List.mem_cons_of_mem _ hm)
    have hstep : B.keepLegal (m :: ms) = some
        (if (B.apply (B.filled m)).attacked k B.turn.other then L else B.filled m :: L) := by
      change ((B.apply (B.filled m)).kingSquare B.turn).bind _ = _
      rw [hk, hL]
      rfl
    refine ⟨_, hstep, fun m' => ?_⟩
    split_ifs with hatt
    · rw [hmem]
      constructor
      · intro h
        obtain ⟨m0, hm0, heq, hsafe⟩ := h
        exact ⟨m0, List.mem_cons_of_mem _ hm0, heq, hsafe⟩
      · intro h
        obtain ⟨m0, hm0, rfl, hsafe⟩ := h
        rcases List.mem_cons.mp hm0 with rfl | hm0
        · rw [hsafe k hk] at hatt
          cases hatt
        · exact ⟨m0, hm0, rfl, hsafe⟩
    · rw [List.mem_cons, hmem]
      constructor
      · intro h
        rcases h with rfl | ⟨m0, hm0, heq, hsafe⟩
        · refine ⟨m, List.mem_cons_self, rfl, fun k' hk' => ?_⟩
          rw [hk] at hk'
          cases hk'
          simpa using hatt
        · exact ⟨m0, List.mem_cons_of_mem _ hm0, heq, hsafe⟩
      · intro h
        obtain ⟨m0, hm0, rfl, hsafe⟩ := h
        rcases List.mem_cons.mp hm0 with rfl | hm0
        · exact .inl rfl
        · exact .inr ⟨m0, hm0, rfl, hsafe⟩

/-- The filter succeeds on a board with its mover's king. -/
theorem plainLegalMoves_eq (hcastling : B.castling = []) (hclear : EpClear B)
    (hk : B.squares.get k = some (king B.turn)) :
    ∃ L, B.plainLegalMoves = some L ∧
      ∀ m', m' ∈ L ↔ ∃ m ∈ B.candidates, m' = B.filled m ∧ B.Safe m' := by
  refine keepLegal_eq fun m hm => ?_
  obtain ⟨j, hj⟩ := own_king_apply hcastling hclear hm hk
  obtain ⟨i, hi, -⟩ := kingSquare_isSome hj
  exact ⟨i, hi⟩

def core (m : Move) : Move := { m with givesCheck := false, givesMate := false }

@[simp] theorem core_dest : (core m).dest = m.dest := rfl
@[simp] theorem core_castle : (core m).castle = m.castle := rfl
@[simp] theorem core_enPassant : (core m).enPassant = m.enPassant := rfl

theorem annotate_isSome (hk : ∃ k, (B.apply m).kingSquare B.turn.other = some k)
    (hreplies : ∃ L, (B.apply m).plainLegalMoves = some L) :
    ∃ m', B.annotate m = some m' ∧ core m' = core m := by
  obtain ⟨k, hk⟩ := hk
  obtain ⟨L, hL⟩ := hreplies
  have hstep : B.annotate m = some (if (B.apply m).attacked k B.turn then
      { m with givesCheck := true, givesMate := L.isEmpty } else m) := by
    change ((B.apply m).kingSquare B.turn.other).bind _ = _
    rw [hk, Option.bind_some, hL]
    split_ifs <;> rfl
  refine ⟨_, hstep, ?_⟩
  split_ifs <;> rfl

/-- The annotated list differs from the filtered one in the marks only. -/
theorem legalMoves_eq {L : List Move} (hL : B.plainLegalMoves = some L)
    (h : ∀ m ∈ L, ∃ m', B.annotate m = some m' ∧ core m' = core m) :
    ∃ L', B.legalMoves = some L' ∧ L'.map core = L.map core := by
  obtain ⟨L', hL', hmap⟩ := Separated.exists_mapM h
  refine ⟨L', ?_, hmap⟩
  rw [legalMoves, hL]
  exact hL'

theorem apply_core (m : Move) : B.apply (core m) = B.apply m := rfl

end Board
end Pgn
end OpenChess
