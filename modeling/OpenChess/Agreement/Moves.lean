import OpenChess.Ingest.PgnApply
import OpenChess.Tools.LegalMovesExact

/-!
# The two move cores

On positions without castling rights and en-passant target the PGN core and the
legal-moves runtime filter the same candidates. They part on promotions by
Black: the PGN core puts the promotion letter on the board as it stands, and an
uppercase letter is White's piece.
-/

namespace OpenChess
namespace Agreement

open LegalMoves (ValidState Candidate)
open Pgn (square index Squares)

/-- A valid state in which the king of the side not to move is not attacked. -/
structure ComparablePosition extends ValidState where
  waitingSafe : LegalMoves.inCheck occupied sideToMove.other = false

namespace ComparablePosition

variable (s : ComparablePosition)

def board : Pgn.Board := ⟨Squares.ofBoard s.occupied, s.sideToMove, [], none⟩

@[simp] theorem board_cell (i : Fin 64) : s.board.squares.get i = s.occupied (square i) :=
  Squares.get_ofBoard _ _

@[simp] theorem toBoard_board : s.board.squares.toBoard = s.occupied := Squares.toBoard_ofBoard _

/-- What the runtime sees of a move of the PGN core. -/
def triple (m : Pgn.Move) : LegalMoves.Move := ⟨square m.frm, square m.dest, m.promotion⟩

@[simp] theorem triple_core (m : Pgn.Move) : triple (Pgn.Board.core m) = triple m := rfl

@[simp] theorem triple_filled (b : Pgn.Board) (m : Pgn.Move) : triple (b.filled m) = triple m := rfl

/-- The PGN core's move of a runtime move, before it is filled in. -/
def bareOf (m : LegalMoves.Move) : Pgn.Move :=
  Pgn.Board.bare (index m.fromSquare) (index m.toSquare) (s.occupied m.toSquare).isSome
    m.promotion false

theorem waiting_not_attacked {k : Square} (hk : KingAt s.occupied s.sideToMove.other k) :
    ¬ Attacked s.occupied s.sideToMove k := by
  have h := s.waitingSafe
  rw [← Bool.not_eq_true, LegalMoves.inCheck_iff hk, Color.other_other] at h
  exact h

theorem promotions_eq (tok : Piece) (t : Square) :
    LegalMoves.promotions tok t = promotionsAt tok t := by
  obtain ⟨c, k⟩ := tok
  have hrank : LegalMoves.promoRank c = c.lastRank := by cases c <;> rfl
  simp only [LegalMoves.promotions, LegalMoves.promoting, promotionsAt, decide_eq_true_eq, hrank]
  rfl

/-- The candidates of the PGN core are the runtime's candidates: the opposing
king cannot be captured where it is not attacked. -/
theorem mem_candidates {m : Pgn.Move} : m ∈ s.board.candidates ↔
    (∃ tok, Candidate s.toState (triple m) tok) ∧ m = s.bareOf (triple m) := by
  rw [Pgn.Board.mem_candidates]
  simp only [board_cell]
  constructor
  · intro h
    obtain ⟨tok, hsource, hown, hm⟩ := h
    obtain ⟨t, pr, hreach, hpr, heq⟩ := (Pgn.Board.mem_movesOf rfl rfl hown).mp hm
    rw [toBoard_board] at hreach
    have hdest : m.dest = t := by rw [heq]; rfl
    have hprom : m.promotion = pr := by rw [heq]; rfl
    subst hdest hprom
    have hking : s.occupied (square m.dest) ≠ some (king tok.color.other) := by
      intro hk
      obtain ⟨k, hkat⟩ := s.kingAt s.sideToMove.other
      have hkd : square m.dest = k := (hkat _).mp (by rw [hk, hown]; rfl)
      have hatt := hreach.attacked hsource hk
      rw [hown, hkd] at hatt
      exact s.waiting_not_attacked hkat hatt
    refine ⟨⟨tok, hsource, hown, ?_, ?_⟩, ?_⟩
    · exact (LegalMoves.mem_pseudoTargets hsource).mpr ⟨hreach, hking⟩
    · rw [promotions_eq]
      exact hpr
    · rw [heq, bareOf]
      simp [triple, Pgn.Board.bare]
  · intro h
    obtain ⟨⟨tok, hc⟩, hm⟩ := h
    refine ⟨tok, hc.source, hc.own, (Pgn.Board.mem_movesOf rfl rfl hc.own).mpr
      ⟨m.dest, m.promotion, ?_, ?_, ?_⟩⟩
    · rw [toBoard_board]
      exact hc.reaches
    · rw [← promotions_eq]
      exact hc.promotion
    · rw [board_cell]
      conv_lhs => rw [hm]
      simp [bareOf, triple]

/-! ### The positions the two cores reach -/

/-- The piece the PGN core puts on the destination. -/
def arrivingPiece (tok : Piece) : Option Kind → Piece
  | some k => ⟨.white, k⟩
  | none => tok

theorem arrivingPiece_eq {tok : Piece} {pr : Option Kind} (h : tok.color = .white ∨ pr = none) :
    arrivingPiece tok pr = LegalMoves.placedPiece tok pr := by
  cases pr with
  | none => rfl
  | some k =>
    have hw : tok.color = .white := h.resolve_right (by simp)
    simp [arrivingPiece, LegalMoves.placedPiece, hw]

theorem arrivingPiece_placed {tok : Piece} {t : Square} {pr : Option Kind}
    (h : pr ∈ LegalMoves.promotions tok t) : Placed tok (arrivingPiece tok pr) := by
  have hplaced := LegalMoves.placedPiece_placed h
  cases pr with
  | none => exact .inl rfl
  | some k =>
    rcases hplaced with heq | hkind
    · -- a promotion piece is never the pawn itself
      rw [promotions_eq, promotionsAt] at h
      split_ifs at h with hpawn
      · have hk : k = tok.kind := congrArg Piece.kind heq
        rw [hk, hpawn.1] at h
        exact absurd h (by decide)
      · simp at h
    · exact .inr hkind

variable {s} {m : Pgn.Move} {tok : Piece}

theorem index_eq_iff {q : Square} {i : Fin 64} : index q = i ↔ q = square i := by
  rw [← Pgn.square_injective.eq_iff, Pgn.square_index]

theorem arriving_eq (hsource : s.occupied (square m.frm) = some tok) :
    Pgn.Board.arriving (s.board.filled m) (s.board.squares.get m.frm) =
      some (arrivingPiece tok m.promotion) := by
  rw [board_cell, hsource, Pgn.Board.arriving, Pgn.Board.filled_promotion]
  cases m.promotion <;> rfl

theorem toBoard_apply (hc : Candidate s.toState (triple m) tok) (hm : m = s.bareOf (triple m)) :
    (s.board.apply (s.board.filled m)).squares.toBoard =
      relocate s.occupied (square m.frm) (square m.dest) (arrivingPiece tok m.promotion) := by
  have hcastle : m.castle = none := by rw [hm]; rfl
  have hep : m.enPassant = false := by rw [hm]; rfl
  funext q
  rw [Squares.toBoard, Pgn.Board.get_apply (by simpa using hcastle), relocate_apply]
  simp only [Pgn.Board.filled_frm, Pgn.Board.filled_dest, Pgn.Board.filled_enPassant, hep,
    Bool.false_eq_true, false_and, if_false, index_eq_iff]
  rw [arriving_eq hc.source, board_cell, Pgn.square_index]

theorem kingAt_apply (hc : Candidate s.toState (triple m) tok) (hm : m = s.bareOf (triple m))
    {c : Color} {k : Square} (hk : KingAt s.occupied c k) :
    KingAt (s.board.apply (s.board.filled m)).squares.toBoard c
      (if tok = king c then square m.dest else k) := by
  rw [toBoard_apply hc hm]
  exact hk.relocate hc.source hc.ne (hc.target_ne_king c) (arrivingPiece_placed hc.promotion)

/-- A double pawn step leaves an empty square behind, and no king on the square
beyond it. -/
theorem epClear_apply (hc : Candidate s.toState (triple m) tok) (hm : m = s.bareOf (triple m)) :
    (s.board.apply (s.board.filled m)).EpClear := by
  obtain ⟨k, hk⟩ := s.kingAt s.sideToMove.other
  have hk' := kingAt_apply hc hm hk
  have hown : tok ≠ king s.sideToMove.other := by
    intro h
    have := hc.own
    rw [h] at this
    exact Color.other_ne _ this
  rw [if_neg hown] at hk'
  intro e he
  obtain ⟨hpawn, hstep, hmid⟩ := Pgn.Board.ep_apply he
  have hkind : tok.kind = .pawn := hpawn tok ((board_cell s _).trans hc.source)
  simp only [Pgn.Board.filled_dest, Pgn.Board.filled_frm] at hstep hmid
  have hreach := hc.reaches
  rw [Reaches, if_pos hkind] at hreach
  have hf := Pgn.val_eq m.frm
  have hd := Pgn.val_eq m.dest
  have hev := Pgn.val_eq e
  obtain ⟨hx, hy, hempty⟩ := hreach.double (by simp only [triple]; omega)
  simp only [triple, hc.own] at hx hy hempty
  have hbe := (square e).bounds
  have hbf := (square m.frm).bounds
  have hmidx : (square e).x = (square m.frm).x ∧
      (square e).y = (square m.frm).y + s.sideToMove.forward := by omega
  constructor
  · -- the square passed over is empty, so the king is not on it
    intro hking
    rw [← Squares.toBoard_square, Pgn.Board.turn_apply] at hking
    have hek : square e = k := (hk' _).mp hking
    rw [← hmidx.1, ← hmidx.2, Placement.get_xy, hek, hk.apply] at hempty
    cases hempty
  · -- the square behind is the destination
    intro j hj hking
    rw [Pgn.Board.turn_apply] at hj hking
    have hjd : j = m.dest := by
      have hback : (j.val : ℤ) = e.val + 8 * s.sideToMove.forward := by
        rw [hj]
        change (if s.sideToMove.other = .white then (e.val : ℤ) - 8 else e.val + 8) = _
        cases s.sideToMove <;> simp only [Color.other, Color.forward, reduceCtorEq, if_true,
          if_false] <;> ring
      apply Fin.ext
      omega
    rw [← Squares.toBoard_square, hjd] at hking
    have hdk : square m.dest = k := (hk' _).mp hking
    exact hc.target_ne_king _ (by rw [show (triple m).toSquare = k from hdk]; exact hk.apply)

/-- Both filters ask whether the mover's king stands unattacked on one and the
same square, each in the position its own core reaches. -/
theorem safe_iff (hc : Candidate s.toState (triple m) tok) (hm : m = s.bareOf (triple m)) :
    ∃ k, KingAt (relocate s.occupied (square m.frm) (square m.dest)
        (arrivingPiece tok m.promotion)) s.sideToMove k ∧
      (s.board.Safe (s.board.filled m) ↔ ¬ Attacked (relocate s.occupied (square m.frm)
        (square m.dest) (arrivingPiece tok m.promotion)) s.sideToMove.other k) ∧
      (LegalMoves.leavesKingSafe s.occupied (triple m) s.sideToMove = true ↔
        ¬ Attacked (relocate s.occupied (square m.frm) (square m.dest)
          (LegalMoves.placedPiece tok m.promotion)) s.sideToMove.other k) ∧
      (tok.kind = .pawn → KingAt s.occupied s.sideToMove k) := by
  obtain ⟨k, hk⟩ := s.kingAt s.sideToMove
  have hpgn := kingAt_apply hc hm hk
  have hruntime := hc.kingAt hk
  have hoccupancy : LegalMoves.applyOccupancy s.occupied (triple m) =
      relocate s.occupied (square m.frm) (square m.dest)
        (LegalMoves.placedPiece tok m.promotion) := hc.applyOccupancy_eq
  refine ⟨_, by rw [← toBoard_apply hc hm]; exact hpgn, ?_, ?_, ?_⟩
  · rw [Pgn.Board.safe_iff hpgn, toBoard_apply hc hm]
    rfl
  · rw [hc.leavesKingSafe_iff s.valid, ← Bool.not_eq_true, LegalMoves.inCheck_iff hruntime,
      hoccupancy]
    rfl
  · intro hpawn
    have hne : tok ≠ king s.sideToMove := fun h => by rw [h] at hpawn; cases hpawn
    rwa [if_neg hne]

/-- The PGN core returns a list, made of its safe candidates up to the marks. -/
theorem legalMoves_eq (s : ComparablePosition) : ∃ L, s.board.legalMoves = some L ∧
    ∀ q, q ∈ L.map Pgn.Board.core ↔
      ∃ m ∈ s.board.candidates, q = Pgn.Board.core (s.board.filled m) ∧
        s.board.Safe (s.board.filled m) := by
  obtain ⟨k, hk⟩ := s.kingAt s.sideToMove
  have hking : s.board.squares.get (index k) = some (king s.board.turn) := by
    rw [board_cell, Pgn.square_index]
    exact hk.apply
  obtain ⟨L, hL, hmem⟩ := Pgn.Board.plainLegalMoves_eq (B := s.board) rfl
    (fun e he => by cases he) hking
  have hannotate : ∀ m' ∈ L, ∃ m'', s.board.annotate m' = some m'' ∧
      Pgn.Board.core m'' = Pgn.Board.core m' := by
    intro m' hm'
    obtain ⟨m, hm, rfl, -⟩ := (hmem m').mp hm'
    obtain ⟨⟨tok, hc⟩, hbare⟩ := s.mem_candidates.mp hm
    obtain ⟨ko, hko⟩ := s.kingAt s.sideToMove.other
    have hother := kingAt_apply hc hbare hko
    have hreply : (s.board.apply (s.board.filled m)).squares.get
        (index (if tok = king s.sideToMove.other then square m.dest else ko)) =
          some (king (s.board.apply (s.board.filled m)).turn) := (hother _).mpr rfl
    obtain ⟨R, hR, -⟩ := Pgn.Board.plainLegalMoves_eq (Pgn.Board.castling_apply rfl)
      (epClear_apply hc hbare) hreply
    exact Pgn.Board.annotate_isSome ⟨_, Pgn.Board.kingSquare_eq hother⟩ ⟨R, hR⟩
  obtain ⟨L', hL', hmap⟩ := Pgn.Board.legalMoves_eq hL hannotate
  refine ⟨L', hL', fun q => ?_⟩
  rw [hmap, List.mem_map]
  constructor
  · intro h
    obtain ⟨m', hm', rfl⟩ := h
    obtain ⟨m, hm, rfl, hsafe⟩ := (hmem m').mp hm'
    exact ⟨m, hm, rfl, hsafe⟩
  · intro h
    obtain ⟨m, hm, rfl, hsafe⟩ := h
    exact ⟨_, (hmem _).mpr ⟨m, hm, rfl, hsafe⟩, rfl⟩

/-! ### Agreement -/

/-- The same (from, to, promotion) triples, and for each of them the same
occupancy, which is what the runtime's `apply` returns. -/
def MovesAgree (s : ComparablePosition) : Prop :=
  ∃ L, s.board.legalMoves = some L ∧
    (∀ mv, (∃ m ∈ L, triple m = mv) ↔ mv ∈ LegalMoves.legalMoves s.toState) ∧
    ∀ m ∈ L, LegalMoves.applyMove s.toValidState (triple m).toObject =
      .ok ⟨(s.board.apply m).squares.toBoard, s.sideToMove⟩

/-- A black pawn reaches its last rank, and the black king is not attacked
afterwards, whatever black piece the pawn becomes. -/
def BlackCanPromote (b : Placement) : Prop :=
  ∃ f t k, b f = some ⟨.black, .pawn⟩ ∧ PawnReaches b .black f t ∧
    t.y = Color.black.lastRank ∧ b t ≠ some (king .white) ∧ KingAt b .black k ∧
    ¬ Attacked (relocate b f t ⟨.black, .queen⟩) .white k

theorem blackCanPromote_of_safe (hc : Candidate s.toState (triple m) tok)
    (hm : m = s.bareOf (triple m)) (hblack : s.sideToMove = .black) (hpr : m.promotion ≠ none)
    (hsafe : s.board.Safe (s.board.filled m) ∨
      LegalMoves.leavesKingSafe s.occupied (triple m) s.sideToMove = true) :
    BlackCanPromote s.occupied := by
  obtain ⟨k, -, hpgn, hruntime, hpawnk⟩ := safe_iff hc hm
  have hpromotion := hc.promotion
  rw [promotions_eq, promotionsAt] at hpromotion
  split_ifs at hpromotion with hpawn
  · have htok : tok = ⟨.black, .pawn⟩ := by
      rw [← hpawn.1, ← hblack, ← hc.own]
    have hreach := hc.reaches
    rw [Reaches, if_pos hpawn.1, htok] at hreach
    have hrank := hpawn.2
    rw [htok] at hrank
    refine ⟨_, _, k, htok ▸ hc.source, hreach, hrank, hc.target_ne_king .white, ?_, fun hatt => ?_⟩
    · rw [← hblack]
      exact hpawnk hpawn.1
    · rw [hblack] at hpgn hruntime
      rcases hsafe with h | h
      · exact hpgn.mp h (hatt.relocate_congr (by decide))
      · exact hruntime.mp (by rwa [hblack] at h) (hatt.relocate_congr (by decide))
  · exact absurd (List.mem_singleton.mp hpromotion) hpr

/-- Away from promotions by Black the filters agree, and so do the successors. -/
theorem same_successor (hc : Candidate s.toState (triple m) tok) (hm : m = s.bareOf (triple m))
    (h : s.sideToMove = .white ∨ m.promotion = none) :
    (s.board.Safe (s.board.filled m) ↔
      LegalMoves.leavesKingSafe s.occupied (triple m) s.sideToMove = true) ∧
    (s.board.apply (s.board.filled m)).squares.toBoard =
      LegalMoves.applyOccupancy s.occupied (triple m) := by
  have hpiece := arrivingPiece_eq (hc.own ▸ h)
  obtain ⟨k, -, hpgn, hruntime, -⟩ := safe_iff hc hm
  rw [hpgn, hruntime, toBoard_apply hc hm, hc.applyOccupancy_eq, hpiece]
  exact ⟨Iff.rfl, rfl⟩

theorem triple_bareOf (mv : LegalMoves.Move) : triple (s.bareOf mv) = mv := by
  simp [triple, bareOf, Pgn.Board.bare]

theorem bareOf_mem {mv : LegalMoves.Move} (hc : Candidate s.toState mv tok) :
    s.bareOf mv ∈ s.board.candidates :=
  s.mem_candidates.mpr ⟨⟨tok, by rwa [triple_bareOf]⟩, by rw [triple_bareOf]⟩

theorem exists_promotion (hblack : s.sideToMove = .black) (h : BlackCanPromote s.occupied) :
    ∃ mv : LegalMoves.Move, Candidate s.toState mv ⟨.black, .pawn⟩ ∧
      mv.promotion = some .queen ∧
      LegalMoves.leavesKingSafe s.occupied mv s.sideToMove = true := by
  obtain ⟨f, t, k, hf, hreach, hrank, hking, hk, hsafe⟩ := h
  have hc : Candidate s.toState ⟨f, t, some .queen⟩ ⟨.black, .pawn⟩ := by
    refine ⟨hf, hblack.symm, (LegalMoves.mem_pseudoTargets hf).mpr ⟨hreach, hking⟩, ?_⟩
    rw [promotions_eq, promotionsAt, if_pos ⟨rfl, hrank⟩]
    exact List.mem_map_of_mem List.mem_cons_self
  refine ⟨_, hc, rfl, ?_⟩
  have hc' : Candidate s.toState (triple (s.bareOf ⟨f, t, some .queen⟩)) ⟨.black, .pawn⟩ := by
    rwa [triple_bareOf]
  obtain ⟨k', -, -, hruntime, hpawnk⟩ := safe_iff hc' (by rw [triple_bareOf])
  have hkk : k' = k := by
    have := hpawnk rfl
    rw [hblack] at this
    exact (hk k').mp this.apply
  rw [triple_bareOf, hkk, hblack] at hruntime
  rw [hblack]
  refine hruntime.mpr fun hatt => hsafe ?_
  simpa [bareOf, Pgn.Board.bare, LegalMoves.placedPiece, Color.other] using hatt

theorem source_of_mem {L : List Pgn.Move} (hmem : ∀ q, q ∈ L.map Pgn.Board.core ↔
      ∃ m ∈ s.board.candidates, q = Pgn.Board.core (s.board.filled m) ∧
        s.board.Safe (s.board.filled m)) {m' : Pgn.Move} (hm' : m' ∈ L) :
    ∃ m tok, Candidate s.toState (triple m) tok ∧ m = s.bareOf (triple m) ∧
      s.board.Safe (s.board.filled m) ∧ triple m' = triple m ∧
      s.board.apply m' = s.board.apply (s.board.filled m) := by
  obtain ⟨m, hm, hcore, hsafe⟩ := (hmem _).mp (List.mem_map_of_mem hm')
  obtain ⟨⟨tok, hc⟩, hbare⟩ := s.mem_candidates.mp hm
  refine ⟨m, tok, hc, hbare, hsafe, ?_, ?_⟩
  · rw [← triple_core m', hcore, triple_core, triple_filled]
  · rw [← Pgn.Board.apply_core m', hcore, Pgn.Board.apply_core]

theorem not_movesAgree_of_promotion (hblack : s.sideToMove = .black)
    (hprom : BlackCanPromote s.occupied) : ¬ MovesAgree s := by
  intro h
  obtain ⟨L, hL, hset, happly⟩ := h
  obtain ⟨L', hL', hmem⟩ := legalMoves_eq s
  cases hL.symm.trans hL'
  obtain ⟨mv, hc, hqueen, hsafe⟩ := exists_promotion hblack hprom
  obtain ⟨m', hm', rfl⟩ := (hset mv).mpr (LegalMoves.mem_legalMoves.mpr ⟨⟨_, hc⟩, hsafe⟩)
  obtain ⟨m, tok, hc', hbare, -, htriple, happ⟩ := source_of_mem hmem hm'
  obtain ⟨mv', -, hobj, hstate⟩ := LegalMoves.applyMove_eq_ok.mp (happly m' hm')
  have hmv := LegalMoves.Move.toObject_injective hobj
  have hboard := congrArg LegalMoves.State.occupied hstate
  rw [← hmv, hc.applyOccupancy_eq, happ, toBoard_apply hc' hbare, htriple] at hboard
  rw [htriple] at hc hqueen
  have hcell := congrFun hboard (square m.dest)
  have htok : tok = ⟨.black, .pawn⟩ := Option.some.inj (hc'.source.symm.trans hc.source)
  have hpr : m.promotion = some .queen := hqueen
  simp only [triple, relocate_target, hpr, arrivingPiece, LegalMoves.placedPiece,
    Option.some.injEq] at hcell
  cases hcell

/-- The two move cores agree on a position exactly when White is to move or
Black has no promotion to play. -/
theorem movesAgree_iff (s : ComparablePosition) :
    MovesAgree s ↔ s.sideToMove = .white ∨ ¬ BlackCanPromote s.occupied := by
  constructor
  · intro h
    by_contra hcon
    rw [not_or, not_not] at hcon
    exact not_movesAgree_of_promotion (Color.ne_iff_eq_other.mp hcon.1) hcon.2 h
  · intro h
    obtain ⟨L, hL, hmem⟩ := legalMoves_eq s
    -- a move either filter lets through is not a promotion by Black
    have hplain : ∀ m tok, Candidate s.toState (triple m) tok → m = s.bareOf (triple m) →
        (s.board.Safe (s.board.filled m) ∨
          LegalMoves.leavesKingSafe s.occupied (triple m) s.sideToMove = true) →
        s.sideToMove = .white ∨ m.promotion = none := by
      intro m tok hc hbare hsafe
      rcases h with hwhite | hno
      · exact .inl hwhite
      · by_contra hcon
        rw [not_or] at hcon
        exact hno (blackCanPromote_of_safe hc hbare (Color.ne_iff_eq_other.mp hcon.1) hcon.2 hsafe)
    refine ⟨L, hL, fun mv => ?_, fun m' hm' => ?_⟩
    · constructor
      · intro hex
        obtain ⟨m', hm', rfl⟩ := hex
        obtain ⟨m, tok, hc, hbare, hsafe, htriple, -⟩ := source_of_mem hmem hm'
        rw [htriple]
        exact LegalMoves.mem_legalMoves.mpr ⟨⟨tok, hc⟩,
          (same_successor hc hbare (hplain m tok hc hbare (.inl hsafe))).1.mp hsafe⟩
      · intro hmv
        obtain ⟨⟨tok, hc⟩, hsafe⟩ := LegalMoves.mem_legalMoves.mp hmv
        have hc' : Candidate s.toState (triple (s.bareOf mv)) tok := by rwa [triple_bareOf]
        have hbare : s.bareOf mv = s.bareOf (triple (s.bareOf mv)) := by rw [triple_bareOf]
        have hsafe' : LegalMoves.leavesKingSafe s.occupied (triple (s.bareOf mv)) s.sideToMove =
            true := by rwa [triple_bareOf]
        have hpgn := (same_successor hc' hbare (hplain _ tok hc' hbare (.inr hsafe'))).1.mpr hsafe'
        obtain ⟨m', hm', hcore⟩ := List.mem_map.mp ((hmem _).mpr ⟨_, bareOf_mem hc, rfl, hpgn⟩)
        refine ⟨m', hm', ?_⟩
        rw [← triple_core m', hcore, triple_core, triple_filled, triple_bareOf]
    · obtain ⟨m, tok, hc, hbare, hsafe, htriple, happ⟩ := source_of_mem hmem hm'
      obtain ⟨hiff, hboard⟩ := same_successor hc hbare (hplain m tok hc hbare (.inl hsafe))
      rw [htriple, happ, hboard]
      exact LegalMoves.applyMove_eq_ok.mpr
        ⟨_, LegalMoves.mem_legalMoves.mpr ⟨⟨tok, hc⟩, hiff.mp hsafe⟩, rfl, rfl⟩

/-- White Kb5 against Kg7 and a pawn on e2, Black to move. -/
def blackToPromote : ComparablePosition where
  occupied s :=
    if s = ⟨1, 4⟩ then some ⟨.white, .king⟩
    else if s = ⟨6, 6⟩ then some ⟨.black, .king⟩
    else if s = ⟨4, 1⟩ then some ⟨.black, .pawn⟩
    else none
  sideToMove := .black
  valid := by decide
  waitingSafe := by decide

theorem not_movesAgree : ¬ ∀ s, MovesAgree s := by
  intro h
  refine not_movesAgree_of_promotion (s := blackToPromote) rfl ?_ (h _)
  refine ⟨⟨4, 1⟩, ⟨4, 0⟩, ⟨6, 6⟩, rfl, .inl ⟨rfl, rfl, rfl⟩, rfl, by decide, by decide, ?_⟩
  rw [← LegalMoves.mem_attackedSquares]
  decide

end ComparablePosition
end Agreement
end OpenChess
