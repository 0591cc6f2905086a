import OpenChess.Ingest.PgnGame
import OpenChess.Tools.CastlingRuns

/-!
# The two castling tests

The PGN core computes the attacks itself and tests the king again after the
castle; the castling runtime is handed the attacked squares and does neither. On
the boards of a game both accept the same castles and leave the same squares and
rights.
-/

namespace OpenChess
namespace Agreement

open Fen
open Pgn (square index Wing)
open Pgn.Board (homeIdx castleMove Sound Plays)

variable {B : Pgn.Board} {w : Wing} {c : Color} {f : Fin 8} {m : Pgn.Move}

/-! ### The castled board -/

theorem square_homeIdx_xy (c : Color) (f : Fin 8) : (square (homeIdx c f)).x = f.val ∧
    (square (homeIdx c f)).y = (if c = .white then 0 else 7 : ℤ) := by
  cases c <;> revert f <;> decide

theorem eq_square_homeIdx {q : Square} :
    q = square (homeIdx c f) ↔ q.x = f.val ∧ q.y = (if c = .white then 0 else 7 : ℤ) := by
  obtain ⟨hx, hy⟩ := square_homeIdx_xy c f
  constructor
  · rintro rfl
    exact ⟨hx, hy⟩
  · rintro ⟨hx', hy'⟩
    exact Square.ext_xy (hx'.trans hx.symm) (hy'.trans hy.symm)

/-- The board after the castle on wing `w`. -/
def castled (B : Pgn.Board) (w : Wing) : Placement :=
  (B.apply (B.filled (castleMove B.turn w))).squares.toBoard

theorem castled_apply (q : Square) : castled B w q =
    if q = square (homeIdx B.turn w.cornerFile) then none
    else if q = square (homeIdx B.turn w.rookFile) then
      B.squares.get (homeIdx B.turn w.cornerFile)
    else if q = square (homeIdx B.turn w.kingFile) then B.squares.get (homeIdx B.turn 4)
    else if q = square (homeIdx B.turn 4) then none
    else B.squares.toBoard q := by
  have hindex : ∀ i : Fin 64, index q = i ↔ q = square i := by
    intro i
    rw [← Pgn.square_injective.eq_iff, Pgn.square_index]
  rw [castled, Pgn.Squares.toBoard, Pgn.Board.get_apply_castle]
  simp only [hindex]
  rfl

/-- A castle needs king and rook at home, the squares between empty, and the king's
square, path and destination unattacked. -/
structure CanCastle (B : Pgn.Board) (w : Wing) : Prop where
  right : w.right B.turn ∈ B.castling
  empty : ∀ f ∈ w.emptyFiles, B.squares.get (homeIdx B.turn f) = none
  home : B.attacked (homeIdx B.turn 4) B.turn.other = false
  path : ∀ f ∈ w.pathFiles, B.attacked (homeIdx B.turn f) B.turn.other = false

theorem mem_candidates_castle (hS : B.Sound) :
    m ∈ B.candidates ∧ m.castle = some w ↔ CanCastle B w ∧ m = castleMove B.turn w := by
  rw [Pgn.Board.mem_candidates]
  constructor
  · rintro ⟨⟨p, hp, hown, hm⟩, hcastle⟩
    rcases Pgn.Board.shape_of_movesOf_or hm with hshape | ⟨-, hm⟩
    · rw [hshape.castle] at hcastle
      cases hcastle
    · obtain ⟨hfrm, hsafe, w', hright, hempty, hpath, rfl⟩ := Pgn.Board.mem_castlingMoves.mp hm
      obtain rfl : w' = w := Option.some.inj hcastle
      rw [hfrm] at hsafe
      exact ⟨⟨hright, hempty, hsafe, hpath⟩, rfl⟩
  · rintro ⟨hcan, rfl⟩
    have hking := (hS.rights _ hcan.right).1
    rw [Pgn.Board.right_color] at hking
    refine ⟨⟨king B.turn, hking, rfl, List.mem_append_right _ ?_⟩, rfl⟩
    exact Pgn.Board.mem_castlingMoves.mpr
      ⟨rfl, hcan.home, w, hcan.right, hcan.empty, hcan.path, rfl⟩

theorem of_castled {q : Square} {p : Piece} (hS : B.Sound) (hcan : CanCastle B w)
    (h : castled B w q = some p) (hp : p.color = B.turn.other) : B.squares.toBoard q = some p := by
  obtain ⟨hking, hrook⟩ := hS.rights _ hcan.right
  rw [Pgn.Board.right_color] at hking hrook
  rw [Pgn.Board.corner_right] at hrook
  have hown : ∀ k : Kind, (some ⟨B.turn, k⟩ : Option Piece) ≠ some p := by
    intro k heq
    rw [← Option.some.inj heq] at hp
    exact Color.ne_other _ hp
  rw [castled_apply, hking, hrook] at h
  split_ifs at h
  · exact absurd h (hown .rook)
  · exact absurd h (hown .king)
  · exact h

/-- A ray onto the castled king passes neither the square it came from nor the
corner: the rook stands in the way of the one, the other lies at the edge. -/
theorem ray_of_castled {s : Square} {d : Delta} (hS : B.Sound) (hcan : CanCastle B w)
    (hd : d ∈ straight ++ diagonal)
    (hray : Ray (castled B w) s d (square (homeIdx B.turn w.kingFile))) :
    Ray B.squares.toBoard s d (square (homeIdx B.turn w.kingFile)) := by
  obtain ⟨n, hn, hx, hy, hfree⟩ := hray
  refine ⟨n, hn, hx, hy, fun m hm hmn => ?_⟩
  obtain ⟨q, hqx, hqy⟩ := exists_between (m := m) hd hx hy hmn.le
  have hempty := hfree m hm hmn
  rw [← hqx, ← hqy, Placement.get_xy] at hempty ⊢
  have hs := s.bounds
  obtain ⟨hking, hrook⟩ := hS.rights _ hcan.right
  rw [Pgn.Board.right_color] at hking hrook
  rw [Pgn.Board.corner_right] at hrook
  obtain ⟨htx, hty⟩ := square_homeIdx_xy B.turn w.kingFile
  rw [htx] at hx
  rw [hty] at hy
  obtain ⟨hd1, hd2, hd0⟩ := unit_of_mem hd
  rw [castled_apply, hking, hrook] at hempty
  split_ifs at hempty with hcorner hrookTo hkingTo hhome
  · -- beyond the corner there is no square
    obtain ⟨hcx, hcy⟩ := eq_square_homeIdx.mp hcorner
    rw [hcx] at hqx
    rw [hcy] at hqy
    cases w <;> rcases hd1 with h1 | h1 | h1 <;> rw [h1] at hqx hx <;>
      simp only [Wing.cornerFile, Wing.kingFile] at hqx hx <;> omega
  · -- on the way from the king's square stands the rook
    obtain ⟨hex, hey⟩ := eq_square_homeIdx.mp hhome
    rw [hex] at hqx
    rw [hey] at hqy
    have hflat : d.2 = 0 := by
      rcases hd2 with h2 | h2 | h2
      · rw [h2] at hqy hy
        omega
      · exact h2
      · rw [h2] at hqy hy
        omega
    have hnext : m + 1 < n ∧ s.x + ((m + 1 : ℕ) : ℤ) * d.1 = w.rookFile.val := by
      push_cast
      cases w <;> rcases hd1 with h1 | h1 | h1 <;> rw [h1] at hqx hx ⊢ <;>
        simp only [Wing.rookFile, Wing.kingFile] at hqx hx ⊢ <;> omega
    have hrook' : castled B w (square (homeIdx B.turn w.rookFile)) = some ⟨B.turn, .rook⟩ := by
      have hne : square (homeIdx B.turn w.rookFile) ≠ square (homeIdx B.turn w.cornerFile) := by
        intro heq
        have hfile := (Pgn.Board.homeIdx_inj.mp (Pgn.square_injective heq)).2
        exact (Pgn.Board.wing_files w).1 hfile.symm
      rw [castled_apply, if_neg hne, if_pos rfl, hrook]
    obtain ⟨hrx, hry⟩ := square_homeIdx_xy B.turn w.rookFile
    have hblocked := hfree (m + 1) (Nat.succ_pos m) hnext.1
    rw [hnext.2, hflat, mul_zero, ← mul_zero (m : ℤ), ← hflat, ← hqy, ← hrx, ← hry,
      Placement.get_xy, hrook'] at hblocked
    cases hblocked
  · exact hempty

theorem safe_castle (hS : B.Sound) (hcan : CanCastle B w) :
    B.Safe (B.filled (castleMove B.turn w)) := by
  have hking : KingAt (castled B w) B.turn (square (homeIdx B.turn w.kingFile)) := by
    intro q
    have hiff := hS.king_castle_iff (j := index q) (c := B.turn) hcan.right hcan.empty
    rw [if_pos rfl, ← Pgn.square_injective.eq_iff, Pgn.square_index] at hiff
    exact hiff
  have hfile : w.kingFile ∈ w.pathFiles := by cases w <;> decide
  rw [Pgn.Board.safe_iff hking]
  rintro ⟨s, p, hs, hp, hcov⟩
  have hattacked : Attacked B.squares.toBoard B.turn.other (square (homeIdx B.turn w.kingFile)) := by
    refine ⟨s, p, of_castled hS hcan hs hp, hp, ?_⟩
    rcases hcov with hleap | ⟨d, hd, hray⟩
    · exact .inl hleap
    · exact .inr ⟨d, hd, ray_of_castled hS hcan (slides_subset p hd) hray⟩
  have hsafe := hcan.path _ hfile
  rw [Pgn.attacked_iff_attacked.mpr hattacked] at hsafe
  cases hsafe

theorem canonical_of_plays {ms : List Pgn.Move} (h : Plays ms B) : Canonical B.castling := by
  induction h with
  | start => decide
  | move _ _ _ ih => exact canonical_filter ih _

/-! ### The runtime's view of a board -/

def named (b : Placement) : Placement := fun q =>
  if q ∈ CastlingRuntime.validSquares then b q else none

/-- The same rights, the occupancy and the enemy's attacks on the named squares. -/
def castlingView (B : Pgn.Board) : CastlingRuntime.State where
  rights := emitRights B.castling
  occupied := named B.squares.toBoard
  attacked := CastlingRuntime.validSquares.dedup.filter fun q => B.attacked (index q) B.turn.other
  sideToMove := B.turn

theorem mem_attacked_view {q : Square} : q ∈ (castlingView B).attacked ↔
    q ∈ CastlingRuntime.validSquares ∧ B.attacked (index q) B.turn.other = true := by
  simp only [castlingView, List.mem_filter, List.mem_dedup]

theorem castlingView_valid (B : Pgn.Board) : (castlingView B).Valid := by
  refine ⟨fun q hq => ?_, fun q hq => (mem_attacked_view.mp hq).1, ?_⟩
  · simp only [castlingView, named, ne_eq, ite_eq_right_iff, Classical.not_imp] at hq
    exact hq.1
  · simp only [castlingView]
    exact List.Nodup.filter _ (List.nodup_dedup _)

theorem contract_squares (w : Wing) (c : Color) :
    (homeSquares (w.right c)).king = square (homeIdx c 4) ∧
    (homeSquares (w.right c)).rook = square (homeIdx c w.cornerFile) ∧
    (CastlingRuntime.paths (w.right c)).kingTo = square (homeIdx c w.kingFile) ∧
    (CastlingRuntime.paths (w.right c)).rookTo = square (homeIdx c w.rookFile) ∧
    (CastlingRuntime.paths (w.right c)).emptyRequired.Perm
      (w.emptyFiles.map fun f => square (homeIdx c f)) ∧
    ((CastlingRuntime.paths (w.right c)).kingTo :: (CastlingRuntime.paths (w.right c)).kingTransit).Perm
      (w.pathFiles.map fun f => square (homeIdx c f)) := by
  cases c <;> cases w <;> decide

theorem homeIdx_named (c : Color) (f : Fin 8) :
    square (homeIdx c f) ∈ CastlingRuntime.validSquares := by
  cases c <;> revert f <;> decide

theorem named_homeIdx (B : Pgn.Board) (c : Color) (f : Fin 8) :
    named B.squares.toBoard (square (homeIdx c f)) = B.squares.get (homeIdx c f) := by
  rw [named, if_pos (homeIdx_named c f), B.squares.toBoard_square]

theorem homeIdx_mem_attacked (f : Fin 8) :
    square (homeIdx B.turn f) ∈ (castlingView B).attacked ↔
      B.attacked (homeIdx B.turn f) B.turn.other = true := by
  rw [mem_attacked_view, Pgn.index_square]
  exact and_iff_right (homeIdx_named _ f)

/-! ### Acceptance -/

theorem castle_accepts {s : CastlingRuntime.State} {held : List Right} {r : Right} :
    (∃ s', CastlingRuntime.castle s held r = .ok s') ↔ r.color = s.sideToMove ∧ r ∈ held ∧
      (s.occupied (homeSquares r).king = some (king r.color) ∧
        s.occupied (homeSquares r).rook = some ⟨r.color, .rook⟩) ∧
      (∀ sq ∈ (CastlingRuntime.paths r).emptyRequired, s.occupied sq = none) ∧
      (homeSquares r).king ∉ s.attacked ∧
      ∀ sq ∈ (CastlingRuntime.paths r).kingTo :: (CastlingRuntime.paths r).kingTransit,
        sq ∉ s.attacked := by
  constructor
  · rintro ⟨s', h⟩
    unfold CastlingRuntime.castle at h
    dsimp only at h
    split_ifs at h with hside hheld hhome hblocked hcheck
    push Not at hhome hblocked hcheck
    refine ⟨not_not.mp hside, hheld, hhome, hblocked, hcheck.1, fun sq hsq => ?_⟩
    rcases List.mem_cons.mp hsq with rfl | hsq
    · exact hcheck.2.1
    · exact hcheck.2.2 sq hsq
  · rintro ⟨hside, hheld, hhome, hempty, hking, hpath⟩
    have hhome' : ¬ (s.occupied (homeSquares r).king ≠ some (king r.color) ∨
        s.occupied (homeSquares r).rook ≠ some ⟨r.color, .rook⟩) := by tauto
    have hblocked : ¬ ∃ sq ∈ (CastlingRuntime.paths r).emptyRequired, s.occupied sq ≠ none := by
      rintro ⟨sq, hsq, hoccupied⟩
      exact hoccupied (hempty sq hsq)
    have hcheck : ¬ ((homeSquares r).king ∈ s.attacked ∨
        (CastlingRuntime.paths r).kingTo ∈ s.attacked ∨
        ∃ sq ∈ (CastlingRuntime.paths r).kingTransit, sq ∈ s.attacked) := by
      rintro (h | h | ⟨sq, hsq, h⟩)
      · exact hking h
      · exact hpath _ List.mem_cons_self h
      · exact hpath sq (List.mem_cons_of_mem _ hsq) h
    unfold CastlingRuntime.castle
    dsimp only
    rw [if_neg (not_not.mpr hside), if_neg (not_not.mpr hheld), if_neg hhome', if_neg hblocked,
      if_neg hcheck]
    exact ⟨_, rfl⟩

theorem apply_castle {s : CastlingRuntime.State} (hs : s.Valid)
    (hg : CastlingRuntime.grammarOk s.rights = true) (r : Right) :
    CastlingRuntime.apply s (.castle r) =
      CastlingRuntime.castle s (CastlingRuntime.heldRights s.rights) r := by
  have hm : (CastlingRuntime.Move.castle r).Valid := trivial
  unfold CastlingRuntime.apply
  rw [if_neg (not_not.mpr hs), if_neg (not_not.mpr hm), hg]
  rfl

theorem view_accepts (hS : B.Sound) (hr : Canonical B.castling) (w : Wing) :
    (∃ s', CastlingRuntime.apply (castlingView B) (.castle (w.right B.turn)) = .ok s') ↔
      CanCastle B w := by
  obtain ⟨hking, hrook, -, -, hempty, hpath⟩ := contract_squares w B.turn
  rw [apply_castle (castlingView_valid B) (grammarOk_emitRights hr), castle_accepts, hking, hrook,
    Pgn.Board.right_color, show (castlingView B).rights = emitRights B.castling from rfl,
    heldRights_emitRights, homeIdx_mem_attacked]
  simp only [hempty.mem_iff, hpath.mem_iff, List.mem_map, forall_exists_index, and_imp,
    forall_apply_eq_imp_iff₂, homeIdx_mem_attacked, Bool.not_eq_true]
  simp only [castlingView, named_homeIdx, true_and]
  constructor
  · rintro ⟨hright, -, hfree, hhome, hsafe⟩
    exact ⟨hright, hfree, hhome, hsafe⟩
  · intro hcan
    obtain ⟨hk, hc⟩ := hS.rights _ hcan.right
    rw [Pgn.Board.right_color] at hk hc
    rw [Pgn.Board.corner_right] at hc
    exact ⟨hcan.right, ⟨hk, hc⟩, hcan.empty, hcan.home, hcan.path⟩

/-! ### The position after the castle -/

theorem mem_lossKing (r : Right) (c : Color) : r ∈ CastlingRuntime.lossKing c ↔ r.color = c := by
  cases r <;> cases c <;> decide

theorem corner_ne (c : Color) (w : Wing) (r : Right) :
    homeIdx c 4 ≠ Pgn.Board.corner r ∧ homeIdx c w.kingFile ≠ Pgn.Board.corner r := by
  cases c <;> cases w <;> cases r <;> decide

theorem castling_castled (hS : B.Sound) (hcan : CanCastle B w) :
    (B.apply (B.filled (castleMove B.turn w))).castling =
      B.castling.filter fun r => decide (r ∉ CastlingRuntime.lossKing B.turn) := by
  have hking := (hS.rights _ hcan.right).1
  rw [Pgn.Board.right_color] at hking
  have hpiece : B.squares.get (B.filled (castleMove B.turn w)).frm = some (king B.turn) := hking
  simp only [Pgn.Board.apply, hpiece]
  refine List.filter_congr fun r _ => decide_eq_decide.mpr ?_
  rw [mem_lossKing]
  constructor
  · rintro ⟨hne, -⟩ hcolor
    exact hne (by rw [hcolor])
  · intro hcolor
    refine ⟨fun heq => hcolor ?_, (corner_ne _ w r).1, (corner_ne _ w r).2⟩
    exact (congrArg Piece.color (Option.some.inj heq)).symm

theorem named_castled (hS : B.Sound) (hcan : CanCastle B w) :
    Function.update (Function.update (Function.update (Function.update (named B.squares.toBoard)
      (square (homeIdx B.turn 4)) none) (square (homeIdx B.turn w.cornerFile)) none)
      (square (homeIdx B.turn w.kingFile)) (some (king B.turn)))
      (square (homeIdx B.turn w.rookFile)) (some ⟨B.turn, .rook⟩) = named (castled B w) := by
  obtain ⟨hking, hrook⟩ := hS.rights _ hcan.right
  rw [Pgn.Board.right_color] at hking hrook
  rw [Pgn.Board.corner_right] at hrook
  have hinj : ∀ f g : Fin 8, f ≠ g → square (homeIdx B.turn f) ≠ square (homeIdx B.turn g) := by
    intro f g hne heq
    exact hne (Pgn.Board.homeIdx_inj.mp (Pgn.square_injective heq)).2
  obtain ⟨hcr, hck, hc4, hrk, hr4, hk4, -, -⟩ := Pgn.Board.wing_files w
  have h1 := hinj _ _ hcr
  have h2 := hinj _ _ hck
  have h3 := hinj _ _ hc4
  have h4 := hinj _ _ hrk
  have h5 := hinj _ _ hr4
  have h6 := hinj _ _ hk4
  have hnamed := homeIdx_named B.turn
  funext q
  simp only [Function.update_apply, named, castled_apply, hking, hrook]
  by_cases hq : q ∈ CastlingRuntime.validSquares
  · grind
  · grind

theorem result_eq {s' : CastlingRuntime.State} (hS : B.Sound) (hr : Canonical B.castling)
    (hcan : CanCastle B w)
    (h : CastlingRuntime.apply (castlingView B) (.castle (w.right B.turn)) = .ok s') :
    s'.occupied = named (castled B w) ∧
      s'.rights = emitRights (B.apply (B.filled (castleMove B.turn w))).castling := by
  obtain ⟨hking, hrook, hkingTo, hrookTo, -, -⟩ := contract_squares w B.turn
  have hheld : CastlingRuntime.heldRights (castlingView B).rights = B.castling :=
    heldRights_emitRights B.castling
  obtain ⟨-, -, -, rfl⟩ := CastlingRuntime.castle_eq_ok (CastlingRuntime.castle_of_apply h)
  rw [hking, hrook, hkingTo, hrookTo, hheld, Pgn.Board.right_color, castling_castled hS hcan]
  exact ⟨named_castled hS hcan, canonical_eq (canonical_filter hr _)⟩

/-- On every board of a game and for either wing, the legal moves hold the castle
exactly if the runtime accepts it, and both leave the same occupancy of the named
squares and the same rights. -/
theorem castling_agrees (ms : List Pgn.Move) (B : Pgn.Board) (h : Plays ms B) (w : Wing) :
    ∃ L, B.legalMoves = some L ∧
      ((∃ m ∈ L, m.castle = some w) ↔
        ∃ s', CastlingRuntime.apply (castlingView B) (.castle (w.right B.turn)) = .ok s') ∧
      ∀ m ∈ L, m.castle = some w → ∀ s',
        CastlingRuntime.apply (castlingView B) (.castle (w.right B.turn)) = .ok s' →
        s'.occupied = named (B.apply m).squares.toBoard ∧
          s'.rights = emitRights (B.apply m).castling := by
  have hS := Pgn.Board.sound_of_plays h
  have hr := canonical_of_plays h
  obtain ⟨L, hL, hlegal⟩ := hS.exists_legal
  refine ⟨L, hL, ?_, fun m hm hcastle s' hs' => ?_⟩
  · have hany : (∃ m ∈ L, m.castle = some w) ↔
        ∃ m ∈ B.candidates, B.Safe (B.filled m) ∧ m.castle = some w := by
      have hmoves := hlegal fun m => m.castle = some w
      simpa only [Pgn.Board.core_castle, Pgn.Board.filled_castle] using hmoves
    rw [hany, view_accepts hS hr]
    constructor
    · rintro ⟨m, hcand, -, hcastle⟩
      exact ((mem_candidates_castle hS).mp ⟨hcand, hcastle⟩).1
    · intro hcan
      obtain ⟨hcand, hcastle⟩ := (mem_candidates_castle hS).mpr ⟨hcan, rfl⟩
      exact ⟨_, hcand, safe_castle hS hcan, hcastle⟩
  · obtain ⟨m₀, hcand, -, hcore⟩ := hS.of_legalMoves hL hm
    have hcastle₀ : m₀.castle = some w := (congrArg Pgn.Move.castle hcore).symm.trans hcastle
    obtain ⟨hcan, rfl⟩ := (mem_candidates_castle hS).mp ⟨hcand, hcastle₀⟩
    have happly : B.apply m = B.apply (B.filled (castleMove B.turn w)) := by
      rw [← Pgn.Board.apply_core, hcore, Pgn.Board.apply_core]
    rw [happly]
    exact result_eq hS hr hcan hs'

/-- The king's knight and bishop of White leave their squares. -/
def developed : List Pgn.Move :=
  [Pgn.Board.quiet (index ⟨4, 1⟩) (index ⟨4, 3⟩), Pgn.Board.quiet (index ⟨4, 6⟩) (index ⟨4, 4⟩),
    Pgn.Board.quiet (index ⟨6, 0⟩) (index ⟨5, 2⟩), Pgn.Board.quiet (index ⟨1, 7⟩) (index ⟨2, 5⟩),
    Pgn.Board.quiet (index ⟨5, 0⟩) (index ⟨4, 1⟩), Pgn.Board.quiet (index ⟨6, 7⟩) (index ⟨5, 5⟩)]

theorem castling_agrees_developed : ∃ ms B, Plays ms B ∧ ∃ L, B.legalMoves = some L ∧
    ∃ m ∈ L, m.castle = some .kingside := by
  have hfollow : ((Pgn.Board.initial.follow developed).any fun B =>
      (CastlingRuntime.apply (castlingView B) (.castle (Wing.kingside.right B.turn))).isOk) =
      true := by decide +kernel
  obtain ⟨B, hB, hok⟩ := (Option.any_eq_true _ _).mp hfollow
  obtain ⟨ms, hms⟩ := Pgn.Board.plays_of_follow .start hB
  obtain ⟨L, hL, hiff, -⟩ := castling_agrees ms B hms .kingside
  refine ⟨ms, B, hms, L, hL, hiff.mpr ?_⟩
  cases happly : CastlingRuntime.apply (castlingView B) (.castle (Wing.kingside.right B.turn)) with
  | error e =>
    rw [happly] at hok
    cases hok
  | ok s' => exact ⟨s', rfl⟩

end Agreement
end OpenChess
