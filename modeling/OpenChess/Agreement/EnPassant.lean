import OpenChess.Graph.EnPassantSpec
import OpenChess.Graph.PositionDigest
import OpenChess.Ingest.PgnGame

/-!
# The three en-passant capture tests

The digest, the en-passant runtime and the PGN core each take two pawns off the
board and ask whether the own king is then attacked. On accepted positions they
name the same captures.
-/

namespace OpenChess
namespace Agreement

open Fen PositionDigest
open Pgn (square index Squares)

variable {p : Position} {s frm k : Square} {c : Color}

/-! ### The contract's ranks -/

theorem targetRank_other (c : Color) : (setOn c.other).targetRank = (mover c).targetRank := by
  cases c <;> rfl

theorem targetRank_eq (h : EpRules p s) (hs : s.rank ∈ epRanks) :
    s.rank = (mover p.color).targetRank :=
  (congrArg Square.rank (epRules_ranks h hs).1).symm

theorem mem_pawnCaptures_target (h : s.rank = (mover c).targetRank) :
    (s.x - frm.x, s.y - frm.y) ∈ pawnCaptures c ↔
      frm.rank = (mover c).moverRank ∧ (frm.x = s.x + -1 ∨ frm.x = s.x + 1) := by
  have hrank : frm.rank = (mover c).moverRank ↔ frm.y = s.y - c.forward := by
    rw [Square.y, Square.y, h, Fin.ext_iff]
    cases c <;> simp only [mover, Color.forward] <;> omega
  rw [hrank]
  simp only [pawnCaptures, List.mem_cons, List.not_mem_nil, or_false, Prod.mk.injEq]
  omega

/-! ### The en-passant runtime -/

def epState (p : Position) : EnPassant.State := ⟨emitEp p.ep, p.board, p.color⟩

theorem targetSquare_name (hs : s.rank ∈ epRanks) : EnPassant.targetSquare s.name = some s := by
  have hread : squareOf? s.name = some s := squareOf?_eq_some.mpr rfl
  have hrank : s.rank = 2 ∨ s.rank = 5 := by simpa [epRanks] using hs
  rw [EnPassant.targetSquare, hread, Option.filter_some]
  simp [hrank]

theorem name_ne_none (s : Square) : s.name ≠ EnPassant.none? := by
  intro h
  have hlength := congrArg List.length h
  simp [Square.name, EnPassant.none?] at hlength

theorem capture_isOk (h : Accepted p) (hep : p.ep = some s) :
    (EnPassant.capture (epState p) frm s).isOk = true ↔
      frm.rank = (mover p.color).moverRank ∧ (frm.x = s.x + -1 ∨ frm.x = s.x + 1) ∧
        p.board frm = some ⟨p.color, .pawn⟩ ∧
        ∀ k, KingAt p.board p.color k → ¬ Attacked (afterCapture p s frm) p.color.other k := by
  have hs := h.wellFormed.ep s hep
  have hrules := h.legal.ep s hep
  obtain ⟨hdest, hcaptured, hadvancer⟩ := epRules_ranks hrules hs
  obtain ⟨k, hk⟩ := exists_king h.legal p.color
  have hrank := targetRank_eq hrules hs
  have hpawn : p.board ⟨s.file, (mover p.color).capturedRank⟩ = some ⟨p.color.other, .pawn⟩ := by
    rw [hcaptured, hadvancer, hrules.pawn]
  have hrank' := hrank.trans (targetRank_other p.color).symm
  have hstate : epState p = ⟨s.name, p.board, p.color⟩ := by
    rw [epState, hep]
    rfl
  have hbeside : |frm.x - s.x| = 1 ↔ frm.x = s.x + -1 ∨ frm.x = s.x + 1 := by
    rw [abs_eq zero_le_one]
    omega
  have hafter : EnPassant.captureOccupancy p.board p.color frm
      ⟨s.file, (mover p.color).capturedRank⟩ s = afterCapture p s frm := by
    rw [afterCapture, hdest]
  rw [hstate, EnPassant.capture, if_neg (name_ne_none s), targetSquare_name hs]
  dsimp only
  rw [if_neg (not_not.mpr hrules.target), if_neg (not_not.mpr hrank'),
    if_neg (not_not.mpr hpawn), hafter]
  by_cases hfrm : frm.rank = (mover p.color).moverRank ∧ |frm.x - s.x| = 1 ∧
      p.board frm = some ⟨p.color, .pawn⟩
  · obtain ⟨hmover, habs, hown⟩ := hfrm
    have hking := (kingAt_afterCapture hrules hs hown).mpr hk
    have hsafe : (∀ k, KingAt p.board p.color k →
        ¬ Attacked (afterCapture p s frm) p.color.other k) ↔
        ¬ Attacked (afterCapture p s frm) p.color.other k := by
      constructor
      · intro hall
        exact hall k hk
      · intro hno k' hk'
        rwa [hk.unique hk']
    rw [if_neg (by simp [hmover, habs, hown]), squaresOf_king hking, List.head?_cons, hsafe,
      ← EnPassant.attacked_iff_attacked]
    simp only [hmover, hbeside.mp habs, hown, true_and]
    split_ifs with hatt <;> simp [hatt, Except.isOk, Except.toBool]
  · rw [if_pos (by tauto)]
    simp only [Except.isOk, Except.toBool, Bool.false_eq_true, false_iff]
    rintro ⟨hmover, hfile, hown, -⟩
    exact hfrm ⟨hmover, hbeside.mpr hfile, hown⟩

theorem any_capture (h : Accepted p) (hep : p.ep = some s) :
    ([(-1 : ℤ), 1].any fun df =>
      match sqAt (s.x + df) (mover p.color).moverRank.val with
      | none => false
      | some frm => (EnPassant.capture (epState p) frm s).isOk) = true ↔
      Capturable Attacked p s := by
  have hfile : ∀ df : ℤ, (match sqAt (s.x + df) (mover p.color).moverRank.val with
      | none => false
      | some frm => (EnPassant.capture (epState p) frm s).isOk) = true ↔
      ∃ frm : Square, (frm.x = s.x + df ∧ frm.rank = (mover p.color).moverRank) ∧
        (EnPassant.capture (epState p) frm s).isOk = true := by
    intro df
    have hrank : ∀ q : Square, q.rank = (mover p.color).moverRank ↔
        q.y = (mover p.color).moverRank.val := by
      intro q
      simp [Square.y, Fin.ext_iff]
    simp only [hrank]
    cases hsq : sqAt (s.x + df) (mover p.color).moverRank.val with
    | none =>
      simp only [Bool.false_eq_true, false_iff, not_exists]
      intro frm hfrm
      exact not_at_of_sqAt hsq frm hfrm.1
    | some q => simp only [eq_of_sqAt hsq, exists_eq_left]
  rw [List.any_cons, List.any_cons, List.any_nil, Bool.or_false, Bool.or_eq_true, hfile, hfile]
  simp only [capture_isOk h hep, Capturable]
  constructor
  · rintro (⟨frm, -, hrank, hx, hrest⟩ | ⟨frm, -, hrank, hx, hrest⟩)
    · exact ⟨frm, hrank, hx, hrest⟩
    · exact ⟨frm, hrank, hx, hrest⟩
  · rintro ⟨frm, hrank, hx | hx, hrest⟩
    · exact .inl ⟨frm, ⟨hx, hrank⟩, hrank, .inl hx, hrest⟩
    · exact .inr ⟨frm, ⟨hx, hrank⟩, hrank, .inr hx, hrest⟩

theorem identityValue_eq (h : Accepted p) :
    EnPassant.identityValue (epState p) = emitEp (epIdentity p) := by
  cases hep : p.ep with
  | none =>
    have hnone : epIdentity p = none := by rw [epIdentity, hep, Option.filter_none]
    rw [hnone, EnPassant.identityValue, epState, hep]
    rfl
  | some s =>
    have hs := h.wellFormed.ep s hep
    have htarget : (epState p).target = s.name := by
      rw [epState, hep]
      rfl
    unfold EnPassant.identityValue
    rw [htarget, if_neg (name_ne_none s), targetSquare_name hs]
    have hany := any_capture h hep
    by_cases hcapture : Capturable Attacked p s
    · have hidentity := h.epIdentity_eq_some.mpr ⟨hep, hcapture⟩
      rw [hidentity]
      exact if_pos (hany.mpr hcapture)
    · have hidentity : epIdentity p = none := by
        rw [Option.eq_none_iff_forall_ne_some]
        intro s' hs'
        obtain ⟨hep', hcapture'⟩ := h.epIdentity_eq_some.mp hs'
        rw [hep, Option.some.injEq] at hep'
        exact hcapture (hep' ▸ hcapture')
      rw [hidentity]
      exact if_neg (hany.not.mpr hcapture)

/-! ### The PGN core -/

def boardOfPosition (p : Position) : Pgn.Board :=
  ⟨Squares.ofBoard p.board, p.color, p.rights, p.ep.map index⟩

@[simp] theorem boardOfPosition_get (i : Fin 64) :
    (boardOfPosition p).squares.get i = p.board (square i) :=
  Squares.get_ofBoard _ _

@[simp] theorem boardOfPosition_turn : (boardOfPosition p).turn = p.color := rfl

@[simp] theorem boardOfPosition_toBoard : (boardOfPosition p).squares.toBoard = p.board :=
  Squares.toBoard_ofBoard _

@[simp] theorem square_homeIdx (c : Color) (f : Fin 8) :
    square (Pgn.Board.homeIdx c f) = ⟨f, if c = .white then 0 else 7⟩ := by
  cases c <;> revert f <;> decide

theorem home_squares (r : Right) : square (Pgn.Board.homeIdx r.color 4) = (homeSquares r).king ∧
    square (Pgn.Board.corner r) = (homeSquares r).rook := by
  cases r <;> decide

theorem advance_indices (hc : c = (advancer s).other) (hs : s.rank ∈ epRanks) :
    ((index ⟨s.file, (setOn (advancer s)).fromRank⟩).val : ℤ) = (index s).val + 8 * c.forward ∧
    ((index ⟨s.file, (setOn (advancer s)).toRank⟩).val : ℤ) = (index s).val - 8 * c.forward := by
  obtain ⟨f, r⟩ := s
  subst hc
  simp only [epRanks, List.mem_cons, List.not_mem_nil, or_false] at hs
  rcases hs with rfl | rfl <;> revert f <;> decide

theorem sound_boardOfPosition (h : Accepted p) : (boardOfPosition p).Sound where
  kings := by
    intro c
    obtain ⟨k, hk⟩ := exists_king h.legal c
    simp only [boardOfPosition_get]
    refine ⟨index k, ?_, fun j hj => ?_⟩
    · simpa using hk.apply
    · rw [← (hk _).mp hj, Pgn.index_square]
  safe := by
    intro j hj
    rw [boardOfPosition_get] at hj
    obtain ⟨k, hk⟩ := exists_king h.legal p.color.other
    have hjk : square j = k := (hk _).mp hj
    rw [← Bool.not_eq_true, Pgn.attacked_iff_attacked, boardOfPosition_toBoard, hjk]
    exact h.legal.waiting k hk
  rights := by
    intro r hr
    obtain ⟨hking, hrook⟩ := h.legal.homes r hr
    obtain ⟨hk, hc⟩ := home_squares r
    rw [boardOfPosition_get, boardOfPosition_get, hk, hc]
    exact ⟨hking, hrook⟩
  ep := by
    intro e he
    obtain ⟨s, hep, rfl⟩ := Option.map_eq_some_iff.mp he
    have hs := h.wellFormed.ep s hep
    have hrules := h.legal.ep s hep
    obtain ⟨horigin, hfront⟩ := advance_indices hrules.mover hs
    refine ⟨_, _, horigin, hfront, ?_, ?_, ?_⟩
    · rw [boardOfPosition_get, Pgn.square_index]
      exact hrules.target
    · rw [boardOfPosition_get, Pgn.square_index]
      exact hrules.origin
    · rw [boardOfPosition_get, Pgn.square_index, hrules.pawn, ← (epRules_ranks hrules hs).2.2]
      rfl

def epMove (frm s : Square) : Pgn.Move := Pgn.Board.bare (index frm) (index s) true none true

theorem mem_candidates_ep (h : Accepted p) {m : Pgn.Move} :
    m ∈ (boardOfPosition p).candidates ∧ m.enPassant = true ↔
      ∃ s frm, p.ep = some s ∧ p.board frm = some ⟨p.color, .pawn⟩ ∧
        (s.x - frm.x, s.y - frm.y) ∈ pawnCaptures p.color ∧ m = epMove frm s := by
  rw [Pgn.Board.mem_candidates]
  constructor
  · rintro ⟨⟨q, hq, hown, hm⟩, hep⟩
    have hkind := Pgn.Board.pawn_of_enPassant hm hep
    have hq' : q = ⟨p.color, .pawn⟩ := by
      cases q
      cases hkind
      cases hown
      rfl
    subst hq'
    rcases List.mem_append.mp hm with hm | hm
    · obtain ⟨t, pr, -, -, heq⟩ := Pgn.Board.mem_pawnPushes.mp hm
      rw [heq] at hep
      cases hep
    · obtain ⟨t, pr, hd, -, hpr, heq⟩ := Pgn.Board.mem_pawnTakes.mp hm
      have hepSquare : (boardOfPosition p).ep = some t := by
        rw [heq] at hep
        exact of_decide_eq_true hep
      obtain ⟨s, hs, rfl⟩ := Option.map_eq_some_iff.mp hepSquare
      rw [Pgn.square_index] at hd hpr
      have hlast : s.y ≠ p.color.lastRank := by
        have hrank := targetRank_eq (h.legal.ep s hs) (h.wellFormed.ep s hs)
        rw [Square.y, hrank]
        cases p.color <;> decide
      have hnone : pr = none := by simpa [promotionsAt, hlast] using hpr
      refine ⟨s, square m.frm, hs, ?_, hd, ?_⟩
      · rwa [boardOfPosition_get] at hq
      · rw [epMove, Pgn.index_square, heq, hnone]
        simp [Pgn.Board.bare, hepSquare]
  · rintro ⟨s, frm, hs, hfrm, hd, rfl⟩
    have hepSquare : (boardOfPosition p).ep = some (index s) := by
      rw [boardOfPosition, hs, Option.map_some]
    refine ⟨⟨⟨p.color, .pawn⟩, ?_, rfl, List.mem_append_right _ ?_⟩, rfl⟩
    · rw [boardOfPosition_get, epMove, Pgn.Board.bare, Pgn.square_index, hfrm]
    · refine Pgn.Board.mem_pawnTakes.mpr ⟨index s, none, ?_, .inr hepSquare, ?_, ?_⟩
      · simpa [epMove, Pgn.Board.bare] using hd
      · have hrank := targetRank_eq (h.legal.ep s hs) (h.wellFormed.ep s hs)
        have hlast : s.y ≠ p.color.lastRank := by
          rw [Square.y, hrank]
          cases p.color <;> decide
        simp [promotionsAt, hlast]
      · simp [epMove, Pgn.Board.bare, hepSquare]

theorem toBoard_apply_ep (h : Accepted p) (hep : p.ep = some s)
    (hfrm : p.board frm = some ⟨p.color, .pawn⟩) :
    ((boardOfPosition p).apply ((boardOfPosition p).filled (epMove frm s))).squares.toBoard =
      afterCapture p s frm := by
  have hs := h.wellFormed.ep s hep
  have hrules := h.legal.ep s hep
  obtain ⟨hdest, hcaptured, hadvancer⟩ := epRules_ranks hrules hs
  have htaken : ∀ q : Square, ((index q).val : ℤ) = (boardOfPosition p).taken (epMove frm s) ↔
      q = ⟨s.file, (mover p.color).capturedRank⟩ := by
    intro q
    have hfront := (advance_indices hrules.mover hs).2
    rw [Pgn.Board.taken_eq, hcaptured]
    change ((index q).val : ℤ) = (index s).val - 8 * p.color.forward ↔ _
    rw [← hfront, Nat.cast_inj, ← Fin.ext_iff, Pgn.index_injective.eq_iff]
  funext q
  rw [Squares.toBoard, Pgn.Board.get_apply_filled rfl, afterCapture, hdest,
    EnPassant.captureOccupancy]
  have hdestIndex : (epMove frm s).dest = index s := rfl
  have hfrmIndex : (epMove frm s).frm = index frm := rfl
  have henPassant : (epMove frm s).enPassant = true := rfl
  have harriving : Pgn.Board.arriving (epMove frm s) (p.board frm) =
      some ⟨p.color, .pawn⟩ := by
    rw [hfrm]
    rfl
  simp only [Function.update_apply, htaken, hdestIndex, hfrmIndex, henPassant, boardOfPosition_get,
    Pgn.index_injective.eq_iff, true_and, Pgn.square_index, harriving]

theorem safe_epMove (h : Accepted p) (hep : p.ep = some s)
    (hfrm : p.board frm = some ⟨p.color, .pawn⟩) :
    (boardOfPosition p).Safe ((boardOfPosition p).filled (epMove frm s)) ↔
      ∀ k, KingAt p.board p.color k → ¬ Attacked (afterCapture p s frm) p.color.other k := by
  have hrules := h.legal.ep s hep
  have hs := h.wellFormed.ep s hep
  obtain ⟨k, hk⟩ := exists_king h.legal p.color
  have hking : KingAt
      ((boardOfPosition p).apply ((boardOfPosition p).filled (epMove frm s))).squares.toBoard
      (boardOfPosition p).turn k := by
    rw [toBoard_apply_ep h hep hfrm]
    exact (kingAt_afterCapture hrules hs hfrm).mpr hk
  rw [Pgn.Board.safe_iff hking, toBoard_apply_ep h hep hfrm]
  constructor
  · intro hno k' hk'
    rwa [hk.unique hk']
  · intro hall
    exact hall k hk

/-- The digest and the runtime give the same identity value, and it is a square
exactly if that is the target and the legal moves of the PGN core hold an
en-passant capture to it. -/
theorem ep_identity_agrees (t : Text) (p : Position) (h : parseFen t = .ok p) :
    EnPassant.identityValue (epState p) = emitEp (epIdentity p) ∧
    ∃ L, (boardOfPosition p).legalMoves = some L ∧ ∀ s, epIdentity p = some s ↔
      p.ep = some s ∧ ∃ m ∈ L, m.enPassant = true ∧ m.dest = index s := by
  have hp := (parseFen_iff.mp h).1
  obtain ⟨L, hL, hlegal⟩ := (sound_boardOfPosition hp).exists_legal
  refine ⟨identityValue_eq hp, L, hL, fun s => ?_⟩
  have hmoves : (∃ m ∈ L, m.enPassant = true ∧ m.dest = index s) ↔
      ∃ m ∈ (boardOfPosition p).candidates, (boardOfPosition p).Safe ((boardOfPosition p).filled m) ∧
        m.enPassant = true ∧ m.dest = index s := by
    have hany := hlegal fun m => m.enPassant = true ∧ m.dest = index s
    simpa only [Pgn.Board.core_enPassant, Pgn.Board.core_dest, Pgn.Board.filled_enPassant,
      Pgn.Board.filled_dest] using hany
  rw [hp.epIdentity_eq_some, hmoves]
  refine and_congr_right fun hep => ?_
  have hrank := targetRank_eq (hp.legal.ep s hep) (hp.wellFormed.ep s hep)
  constructor
  · rintro ⟨frm, hmover, hfile, hfrm, hsafe⟩
    have hd := (mem_pawnCaptures_target hrank).mpr ⟨hmover, hfile⟩
    have hcand := (mem_candidates_ep hp).mpr ⟨s, frm, hep, hfrm, hd, rfl⟩
    exact ⟨epMove frm s, hcand.1, (safe_epMove hp hep hfrm).mpr hsafe, hcand.2, rfl⟩
  · rintro ⟨m, hcand, hsafe, henPassant, -⟩
    have hmove : m ∈ (boardOfPosition p).candidates ∧ m.enPassant = true := ⟨hcand, henPassant⟩
    obtain ⟨s', frm, hep', hfrm, hd, rfl⟩ := (mem_candidates_ep hp).mp hmove
    obtain rfl : s' = s := Option.some.inj (hep'.symm.trans hep)
    obtain ⟨hmover, hfile⟩ := (mem_pawnCaptures_target hrank).mp hd
    exact ⟨frm, hmover, hfile, hfrm, (safe_epMove hp hep hfrm).mp hsafe⟩

/-- White has just played d2d4 beside a black pawn on e4. -/
def pawnDuel : Position where
  board := fun s =>
    if s = ⟨4, 0⟩ then some ⟨.white, .king⟩
    else if s = ⟨3, 3⟩ then some ⟨.white, .pawn⟩
    else if s = ⟨4, 3⟩ then some ⟨.black, .pawn⟩
    else if s = ⟨4, 7⟩ then some ⟨.black, .king⟩
    else none
  color := .black
  rights := []
  ep := some ⟨3, 2⟩
  half := 0
  full := 1

theorem accepted_pawnDuel : Accepted pawnDuel := by
  have hzero : (Nat.toDigits 10 0).length ≤ intMaxStrDigits := by decide
  have hone : (Nat.toDigits 10 1).length ≤ intMaxStrDigits := by decide
  have hep : ∀ s, pawnDuel.ep = some s → s.rank ∈ epRanks := by decide
  exact ⟨⟨by decide, hep, hzero, hone, le_refl 1⟩, positionOk_iff.mp (by decide)⟩

theorem ep_identity_agrees_pawnDuel : EnPassant.identityValue (epState pawnDuel) = ['d', '3'] :=
  (ep_identity_agrees (fenText pawnDuel) pawnDuel accepted_pawnDuel.parse).1.trans
    (by decide +kernel)

end Agreement
end OpenChess
