import OpenChess.Tools.LegalMovesRuntime

/-!
# The generators of the legal-moves runtime as relations

`_attacked_squares` and `_pseudo_targets` are read as the abstract coverage and
movement relations, so that the king facts of the movement layer apply to every
candidate move of the runtime.
-/

namespace OpenChess
namespace LegalMoves

variable {occ : Placement} {sq t k : Square} {side : Color} {tok : Piece}

/-! ### The generators as relations -/

theorem mem_leapSquares {D : List Delta} :
    t ∈ leapSquares D sq ↔ (t.x - sq.x, t.y - sq.y) ∈ D := by
  simp only [leapSquares, List.mem_filterMap, sqAt_eq_some]
  constructor
  · rintro ⟨d, hd, hx, hy⟩
    rwa [hx, hy, add_sub_cancel_left, add_sub_cancel_left]
  · intro h
    exact ⟨_, h, by simp, by simp⟩

theorem mem_slideSquares {D : List Delta} (hD : ∀ d ∈ D, d ∈ straight ++ diagonal) :
    t ∈ slideSquares occ D sq ↔ ∃ d ∈ D, Ray occ sq d t := by
  simp only [slideSquares, List.mem_flatMap]
  constructor
  · rintro ⟨d, hd, h⟩
    exact ⟨d, hd, (mem_scan (hD d hd)).mp h⟩
  · rintro ⟨d, hd, h⟩
    exact ⟨d, hd, (mem_scan (hD d hd)).mpr h⟩

theorem captureDeltas_eq (c : Color) : captureDeltas c = pawnCaptures c := by cases c <;> rfl

theorem mem_coverage :
    (t ∈ match leaper tok.kind, slider tok.kind with
      | some deltas, _ => leapSquares deltas sq
      | none, some dirs => slideSquares occ dirs sq
      | none, none => leapSquares (captureDeltas tok.color) sq) ↔ Covers occ tok sq t := by
  obtain ⟨c, kind⟩ := tok
  cases kind with
  | pawn => simp [leaper, slider, mem_leapSquares, Covers, Piece.leaps, Piece.slides,
      captureDeltas_eq]
  | knight => simp [leaper, mem_leapSquares, Covers, Piece.leaps, Piece.slides, knightLeaps]
  | king =>
    simp [leaper, mem_leapSquares, Covers, Piece.leaps, Piece.slides, kingLeaps, straight,
      diagonal]
  | rook =>
    simp only [leaper, slider, Covers, Piece.leaps, Piece.slides, List.not_mem_nil, false_or]
    exact mem_slideSquares fun d hd => List.mem_append_left _ hd
  | bishop =>
    simp only [leaper, slider, Covers, Piece.leaps, Piece.slides, List.not_mem_nil, false_or]
    exact mem_slideSquares fun d hd => List.mem_append_right _ hd
  | queen =>
    simp only [leaper, slider, Covers, Piece.leaps, Piece.slides, List.not_mem_nil, false_or]
    exact mem_slideSquares fun d hd => hd

/-- The runtime's attacked set is the attack relation. -/
theorem mem_attackedSquares : t ∈ attackedSquares occ side ↔ Attacked occ side t := by
  simp only [attackedSquares, List.mem_flatMap, mem_allSquares, true_and]
  constructor
  · rintro ⟨s, hs⟩
    cases hp : occ s with
    | none => simp [hp] at hs
    | some p =>
      by_cases hc : p.color = side
      · subst hc
        rw [hp] at hs
        simp only [ne_eq, not_true_eq_false, if_false] at hs
        exact ⟨s, p, hp, rfl, mem_coverage.mp hs⟩
      · simp [hp, hc] at hs
  · rintro ⟨s, p, hp, rfl, hcov⟩
    refine ⟨s, ?_⟩
    rw [hp]
    simp only [ne_eq, not_true_eq_false, if_false]
    exact mem_coverage.mpr hcov

theorem freeOrEnemy_iff : freeOrEnemy occ side t = true ↔ ∀ q, occ t = some q → q.color ≠ side := by
  cases h : occ t <;> simp [freeOrEnemy, h]

theorem mem_pawnHits : t ∈ pawnHits occ side sq ↔
    (t.x - sq.x, t.y - sq.y) ∈ pawnCaptures side ∧ ∃ q, occ t = some q ∧ q.color ≠ side := by
  rw [pawnHits, List.mem_filter, mem_leapSquares, captureDeltas_eq]
  cases h : occ t <;> simp

theorem mem_pawnAdvances : t ∈ pawnAdvances occ side sq ↔ PawnAdvances occ side sq t := by
  have hf : (pawnForward side).1 = 0 ∧ (pawnForward side).2 = side.forward := by
    cases side <;> exact ⟨rfl, rfl⟩
  have hrank : doubleRank side = side.startRank := by cases side <;> rfl
  unfold pawnAdvances
  simp only [hf.1, hf.2, add_zero, mul_zero, hrank]
  cases h1 : sqAt sq.x (sq.y + side.forward) with
  | none => simpa using not_pawnAdvances h1 t
  | some one =>
    rw [pawnAdvances_iff h1]
    by_cases hfree : occ one = none
    · cases h2 : sqAt sq.x (sq.y + 2 * side.forward) with
      | none => simp [hfree]
      | some two =>
        by_cases hd : sq.y = side.startRank ∧ occ two = none
        · simp only [hfree, hd, ne_eq, not_true_eq_false, if_false, and_self, if_true,
            List.mem_cons, List.not_mem_nil, or_false, true_and, Option.some.injEq]
          refine or_congr_right ⟨?_, ?_⟩
          · intro h
            exact ⟨h.symm, h ▸ hd.2⟩
          · intro h
            exact h.1.symm
        · simp only [hfree, ne_eq, not_true_eq_false, if_false, hd, List.mem_singleton, true_and,
            Option.some.injEq, iff_self_or]
          intro h
          obtain ⟨hr, rfl, ht⟩ := h
          exact absurd ⟨hr, ht⟩ hd
    · simp [hfree]

/-- Pseudo-legal destinations: what the piece reaches, less the opposing king's square. -/
theorem mem_pseudoTargets (hsq : occ sq = some tok) :
    t ∈ pseudoTargets occ sq ↔
      Reaches occ tok sq t ∧ occ t ≠ some (king tok.color.other) := by
  unfold pseudoTargets
  rw [hsq]
  simp only [List.mem_filter, decide_eq_true_eq]
  refine and_congr_left fun _ => ?_
  unfold Reaches
  by_cases hp : tok.kind = .pawn
  · simp only [hp, leaper, slider, if_true, List.mem_append, mem_pawnAdvances, mem_pawnHits,
      pawnReaches_iff]
  · rw [if_neg hp, ← freeOrEnemy_iff, ← mem_coverage]
    cases hk : tok.kind <;> first | exact absurd hk hp | simp [leaper, slider, List.mem_filter]

/-! ### Kings -/

theorem kingSquare_eq (h : KingAt occ side k) : kingSquare occ side = some k := by
  simp [kingSquare, squaresOf_king h]

theorem inCheck_iff (h : KingAt occ side k) :
    inCheck occ side = true ↔ Attacked occ side.other k := by
  simp [inCheck, kingSquare_eq h, mem_attackedSquares]

theorem ValidState.kingAt (s : ValidState) (side : Color) : ∃ k, KingAt s.occupied side k :=
  length_squaresOf_king.mp (s.valid side)

theorem placedPiece_placed {pr : Option Kind} (h : pr ∈ promotions tok t) :
    Placed tok (placedPiece tok pr) := by
  unfold promotions at h
  split_ifs at h with hp
  · have hpawn : tok.kind = .pawn := (of_decide_eq_true hp).1
    simp only [promoValues, List.map_cons, List.map_nil, List.mem_cons, List.not_mem_nil,
      or_false] at h
    rcases h with rfl | rfl | rfl | rfl <;>
      exact .inr ⟨by rw [hpawn]; decide, by simp [placedPiece]⟩
  · rw [List.mem_singleton] at h
    subst h
    exact .inl rfl

/-- The candidates both routes filter: a piece of the side to move, a
pseudo-legal destination and the promotion member the arrival demands. -/
structure Candidate (s : State) (m : Move) (tok : Piece) : Prop where
  source : s.occupied m.fromSquare = some tok
  own : tok.color = s.sideToMove
  target : m.toSquare ∈ pseudoTargets s.occupied m.fromSquare
  promotion : m.promotion ∈ promotions tok m.toSquare

namespace Candidate

variable {s : State} {m : Move}

theorem reaches (h : Candidate s m tok) : Reaches s.occupied tok m.fromSquare m.toSquare :=
  ((mem_pseudoTargets h.source).mp h.target).1

theorem ne (h : Candidate s m tok) : m.fromSquare ≠ m.toSquare := h.reaches.ne

theorem applyOccupancy_eq (h : Candidate s m tok) :
    applyOccupancy s.occupied m =
      relocate s.occupied m.fromSquare m.toSquare (placedPiece tok m.promotion) := by
  simp [applyOccupancy, h.source]

/-- No king, of either side, stands on a destination. -/
theorem target_ne_king (h : Candidate s m tok) (c : Color) :
    s.occupied m.toSquare ≠ some (king c) := by
  intro hk
  have hc : c ≠ tok.color := h.reaches.color_ne hk
  rw [Color.ne_iff_eq_other.mp hc] at hk
  exact ((mem_pseudoTargets h.source).mp h.target).2 hk

theorem kingAt (h : Candidate s m tok) {c : Color} (hk : KingAt s.occupied c k) :
    KingAt (applyOccupancy s.occupied m) c (if tok = king c then m.toSquare else k) := by
  rw [h.applyOccupancy_eq]
  exact hk.relocate h.source h.ne (h.target_ne_king c) (placedPiece_placed h.promotion)

theorem valid (h : Candidate s m tok) (hs : s.Valid) :
    State.Valid ⟨applyOccupancy s.occupied m, s.sideToMove⟩ := by
  intro c
  obtain ⟨k, hk⟩ := length_squaresOf_king.mp (hs c)
  exact length_squaresOf_king.mpr ⟨_, h.kingAt hk⟩

theorem leavesKingSafe_iff (h : Candidate s m tok) (hs : s.Valid) :
    leavesKingSafe s.occupied m s.sideToMove = true ↔
      inCheck (applyOccupancy s.occupied m) s.sideToMove = false := by
  obtain ⟨k, hk⟩ := length_squaresOf_king.mp (hs s.sideToMove)
  simp [leavesKingSafe, inCheck, kingSquare_eq (h.kingAt hk)]

end Candidate

end LegalMoves
end OpenChess
