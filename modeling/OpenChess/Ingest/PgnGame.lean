import OpenChess.Ingest.PgnApply

/-!
# Boards reached in a game

What a move of the PGN core does to the kings, the castling rights and the
en-passant square, for every candidate including castling. A board is sound
when it has its two kings, the side not to move is not in check, and its rights
and en-passant square are backed by the pieces they speak about.
-/

namespace OpenChess
namespace Pgn
namespace Board

variable {B : Board} {m : Move} {p q : Piece} {c : Color} {i j k : Fin 64} {w : Wing}

/-! ### Candidates -/

theorem shape_of_castle_none (hm : m ∈ B.movesOf i p) (hcastle : m.castle = none) :
    Shape B i p m := by
  rcases shape_of_movesOf_or hm with h | ⟨-, h⟩
  · exact h
  · obtain ⟨-, -, w, -, -, -, hw⟩ := mem_castlingMoves.mp h
    rw [hw] at hcastle
    cases hcastle

theorem covers_of_movesOf (hown : p.color = B.turn) (hm : m ∈ B.movesOf i p)
    (hcastle : m.castle = none) (hq : B.squares.get m.dest = some q) :
    Covers B.squares.toBoard p (square i) (square m.dest) ∨ B.ep = some m.dest := by
  obtain ⟨c, kind⟩ := p
  simp only at hown
  subst hown
  have hslide : ∀ kind : Kind, m ∈ B.slideMoves (Piece.mk B.turn kind).slides i →
      Covers B.squares.toBoard ⟨B.turn, kind⟩ (square i) (square m.dest) := by
    intro kind h
    obtain ⟨t, ⟨d, hd, hray⟩, harr⟩ := (mem_slideMoves fun d hd => slides_subset _ hd).mp h
    obtain ⟨-, rfl⟩ := mem_arrivals.mp harr
    exact .inr ⟨d, hd, hray⟩
  cases kind with
  | pawn =>
    rcases List.mem_append.mp hm with hm | hm
    · obtain ⟨t, pr, hadv, -, rfl⟩ := mem_pawnPushes.mp hm
      have hempty := hadv.empty
      rw [B.squares.toBoard_square] at hempty
      exact absurd (hempty.symm.trans hq) (by simp)
    · obtain ⟨t, pr, hd, -, -, rfl⟩ := mem_pawnTakes.mp hm
      exact .inl (.inl hd)
  | knight =>
    obtain ⟨t, hd, harr⟩ := mem_leapMoves.mp hm
    obtain ⟨-, rfl⟩ := mem_arrivals.mp harr
    exact .inl (.inl hd)
  | bishop => exact .inl (hslide .bishop hm)
  | rook => exact .inl (hslide .rook hm)
  | queen => exact .inl (hslide .queen hm)
  | king =>
    rcases List.mem_append.mp hm with hm | hm
    · obtain ⟨t, hd, harr⟩ := mem_leapMoves.mp hm
      obtain ⟨-, rfl⟩ := mem_arrivals.mp harr
      exact .inl (.inl (mem_kingSteps.mp hd))
    · obtain ⟨-, -, w, -, -, -, rfl⟩ := mem_castlingMoves.mp hm
      cases hcastle

theorem double_of_movesOf (hkind : p.kind = .pawn) (hm : m ∈ B.movesOf i p)
    (hstep : (m.dest.val : ℤ) - i.val = 16 ∨ (m.dest.val : ℤ) - i.val = -16) :
    m.promotion = none ∧ m.enPassant = false ∧
      (m.dest.val : ℤ) = i.val + 16 * B.turn.forward ∧
      (∀ e : Fin 64, (e.val : ℤ) = i.val + 8 * B.turn.forward → B.squares.get e = none) := by
  have hforward : B.turn.forward = 1 ∨ B.turn.forward = -1 := by
    cases B.turn
    · exact .inl rfl
    · exact .inr rfl
  unfold movesOf at hm
  rw [hkind] at hm
  have hdelta := val_eq i
  rcases List.mem_append.mp hm with hm | hm
  · obtain ⟨t, pr, hadv, hpr, rfl⟩ := mem_pawnPushes.mp hm
    change ((t.val : ℤ) - i.val = 16 ∨ (t.val : ℤ) - i.val = -16) at hstep
    have hdelta' := val_eq t
    rcases hadv with ⟨hx, hy, -⟩ | ⟨hx, hy, hstart, hget, -⟩
    · omega
    · have hpr : pr = none := by
        have hlast : (square t).y ≠ B.turn.lastRank := by
          rw [hy]
          exact (not_goal_of_start hstart).2
        simpa [promotionsAt, hlast] using hpr
      have hdest : (t.val : ℤ) = i.val + 16 * B.turn.forward := by omega
      refine ⟨hpr, rfl, hdest, fun e he => ?_⟩
      have heq := val_eq e
      have hbounds := (square e).bounds
      have hbounds' := (square i).bounds
      have hsq : sqAt (square i).x ((square i).y + B.turn.forward) = some (square e) :=
        sqAt_eq_some.mpr ⟨by omega, by omega⟩
      rwa [Placement.get_of_sqAt hsq, B.squares.toBoard_square] at hget
  · obtain ⟨t, pr, hd, -, -, rfl⟩ := mem_pawnTakes.mp hm
    change ((t.val : ℤ) - i.val = 16 ∨ (t.val : ℤ) - i.val = -16) at hstep
    have hdelta' := val_eq t
    simp only [pawnCaptures, List.mem_cons, List.not_mem_nil, or_false, Prod.mk.injEq] at hd
    omega

/-- Promotion letters are those of the four officers. -/
theorem promotion_of_movesOf {l : Kind} (hm : m ∈ B.movesOf i p) (hl : m.promotion = some l) :
    l ∈ promotionKinds := by
  have hpromo : ∀ {t : Square} {pr : Option Kind}, pr ∈ promotionsAt ⟨B.turn, .pawn⟩ t →
      pr = some l → l ∈ promotionKinds := by
    intro t pr hpr heq
    subst heq
    unfold promotionsAt at hpr
    split_ifs at hpr
    · simpa using hpr
    · simp at hpr
  rcases movesOf_cases hm with ⟨-, t, ht⟩ | ⟨-, hm⟩ | ⟨-, hm⟩ | ⟨-, hm⟩
  · obtain ⟨-, rfl⟩ := mem_arrivals.mp ht
    cases hl
  · obtain ⟨t, pr, -, hpr, rfl⟩ := mem_pawnPushes.mp hm
    exact hpromo hpr hl
  · obtain ⟨t, pr, -, -, hpr, rfl⟩ := mem_pawnTakes.mp hm
    exact hpromo hpr hl
  · obtain ⟨-, -, w, -, -, -, rfl⟩ := mem_castlingMoves.mp hm
    cases hl

/-- Only pawns capture en passant. -/
theorem pawn_of_enPassant (hm : m ∈ B.movesOf i p) (hep : m.enPassant = true) :
    p.kind = .pawn := by
  rcases movesOf_cases hm with ⟨-, t, ht⟩ | ⟨hk, -⟩ | ⟨hk, -⟩ | ⟨-, hm⟩
  · obtain ⟨-, rfl⟩ := mem_arrivals.mp ht
    cases hep
  · exact hk
  · exact hk
  · obtain ⟨-, -, w, -, -, -, rfl⟩ := mem_castlingMoves.mp hm
    cases hep

/-- The board after a move other than castling. -/
theorem get_apply_filled (hcastle : m.castle = none) :
    (B.apply (B.filled m)).squares.get j =
      if j = m.dest then arriving m (B.squares.get m.frm)
      else if m.enPassant = true ∧ (j.val : ℤ) = B.taken m then none
      else if j = m.frm then none
      else B.squares.get j :=
  get_apply (m := B.filled m) hcastle

/-- A castling candidate, with what it needs. -/
theorem castle_of_movesOf (hm : m ∈ B.movesOf i p) (hcastle : m.castle ≠ none) :
    i = homeIdx B.turn 4 ∧ ∃ w : Wing, w.right B.turn ∈ B.castling ∧
      (∀ f ∈ w.emptyFiles, B.squares.get (homeIdx B.turn f) = none) ∧
      m = castleMove B.turn w := by
  rcases shape_of_movesOf_or hm with h | ⟨-, h⟩
  · exact absurd h.castle hcastle
  · obtain ⟨hi, -, w, hright, hempty, -, rfl⟩ := mem_castlingMoves.mp h
    exact ⟨hi, w, hright, hempty, rfl⟩

theorem homeIdx_inj {c d : Color} {f g : Fin 8} :
    homeIdx c f = homeIdx d g ↔ c = d ∧ f = g := by
  cases c <;> cases d <;> simp only [homeIdx, Fin.ext_iff, reduceCtorEq, false_and, true_and,
    iff_false, add_right_inj]
  · omega
  · omega

@[simp] theorem right_color (w : Wing) (c : Color) : (w.right c).color = c := by
  cases w <;> cases c <;> rfl

@[simp] theorem corner_right (w : Wing) (c : Color) :
    corner (w.right c) = homeIdx c w.cornerFile := by
  cases w <;> cases c <;> rfl

theorem exists_right (r : Right) : ∃ w : Wing, r = w.right r.color := by
  cases r
  · exact ⟨.kingside, rfl⟩
  · exact ⟨.queenside, rfl⟩
  · exact ⟨.kingside, rfl⟩
  · exact ⟨.queenside, rfl⟩

/-- The files castling speaks about are distinct, and the king and the rook
arrive on empty ones. -/
theorem wing_files (w : Wing) : w.cornerFile ≠ w.rookFile ∧ w.cornerFile ≠ w.kingFile ∧
    w.cornerFile ≠ 4 ∧ w.rookFile ≠ w.kingFile ∧ w.rookFile ≠ 4 ∧ w.kingFile ≠ 4 ∧
    w.rookFile ∈ w.emptyFiles ∧ w.kingFile ∈ w.emptyFiles := by
  cases w <;> decide

/-- The king and its rook after castling; every other square is as it was. -/
theorem get_apply_castle (j : Fin 64) :
    (B.apply (B.filled (castleMove B.turn w))).squares.get j =
      if j = homeIdx B.turn w.cornerFile then none
      else if j = homeIdx B.turn w.rookFile then B.squares.get (homeIdx B.turn w.cornerFile)
      else if j = homeIdx B.turn w.kingFile then B.squares.get (homeIdx B.turn 4)
      else if j = homeIdx B.turn 4 then none
      else B.squares.get j := by
  have hne : homeIdx B.turn w.cornerFile ≠ homeIdx B.turn w.kingFile ∧
      homeIdx B.turn w.cornerFile ≠ homeIdx B.turn 4 := by
    cases B.turn <;> cases w <;> decide
  cases w with
  | kingside =>
    simp only [Wing.cornerFile, Wing.kingFile] at hne
    simp only [apply, filled, castleMove, quiet, arriving, Wing.kingFile, Squares.get_set, hne,
      if_false, Bool.false_eq_true]
    rfl
  | queenside =>
    simp only [Wing.cornerFile, Wing.kingFile] at hne
    simp only [apply, filled, castleMove, quiet, arriving, Wing.kingFile, Squares.get_set, hne,
      if_false, Bool.false_eq_true]
    rfl

/-! ### Soundness -/

/-- One king a side, the side not to move out of check, king and rook home for
every right, and a pawn of the side that just moved in front of an en-passant
square it has left empty behind it. -/
structure Sound (B : Board) : Prop where
  kings : ∀ c, ∃! k, B.squares.get k = some (king c)
  safe : ∀ k, B.squares.get k = some (king B.turn.other) → B.attacked k B.turn = false
  rights : ∀ r ∈ B.castling, B.squares.get (homeIdx r.color 4) = some (king r.color) ∧
    B.squares.get (corner r) = some ⟨r.color, .rook⟩
  ep : ∀ e, B.ep = some e → ∃ origin front : Fin 64,
    (origin.val : ℤ) = e.val + 8 * B.turn.forward ∧
    (front.val : ℤ) = e.val - 8 * B.turn.forward ∧
    B.squares.get e = none ∧ B.squares.get origin = none ∧
    B.squares.get front = some ⟨B.turn.other, .pawn⟩

theorem taken_eq : B.taken m = m.dest.val - 8 * B.turn.forward := by
  unfold taken
  cases B.turn <;> simp [Color.forward]

namespace Sound

variable (hS : B.Sound) (hp : B.squares.get m.frm = some p) (hown : p.color = B.turn)
  (hm : m ∈ B.movesOf m.frm p) (hcastle : m.castle = none)

include hS

theorem king_unique (hj : B.squares.get j = some (king c)) (hk : B.squares.get k = some (king c)) :
    j = k :=
  (hS.kings c).unique hj hk

include hm hcastle

theorem taken_pawn (hep : m.enPassant = true) (hj : (j.val : ℤ) = B.taken m) :
    B.squares.get j = some ⟨B.turn.other, .pawn⟩ := by
  obtain ⟨origin, front, -, hfront, -, -, hpawn⟩ :=
    hS.ep _ ((shape_of_castle_none hm hcastle).enPassant hep)
  have hval : j = front := by
    rw [taken_eq] at hj
    apply Fin.ext
    omega
  rw [hval, hpawn]

include hp hown

theorem dest_ne_king : B.squares.get m.dest ≠ some (king c) := by
  intro hking
  have hep : B.ep ≠ some m.dest := by
    intro hep
    obtain ⟨-, -, -, -, hempty, -, -⟩ := hS.ep _ hep
    simp [hempty] at hking
  have hshape := shape_of_castle_none hm hcastle
  have hcolor : c ≠ B.turn := (hshape.free _ hking).resolve_right hep
  obtain rfl : c = B.turn.other := Color.ne_iff_eq_other.mp hcolor
  have hcovers := (covers_of_movesOf hown hm hcastle hking).resolve_right hep
  have hattacked : B.attacked m.dest B.turn = true :=
    attacked_iff_attacked.mpr
      ⟨square m.frm, p, by rw [B.squares.toBoard_square, hp], hown, hcovers⟩
  rw [hS.safe _ hking] at hattacked
  cases hattacked

theorem king_apply_iff : (B.apply (B.filled m)).squares.get j = some (king c) ↔
    if p = king c then j = m.dest else B.squares.get j = some (king c) := by
  have hshape := shape_of_castle_none hm hcastle
  have hdest : B.squares.get m.dest ≠ some (king c) :=
    hS.dest_ne_king hp hown hm hcastle
  have harriving : arriving m (B.squares.get m.frm) = some (king c) ↔ p = king c := by
    cases hpr : m.promotion with
    | none => simp [arriving, hpr, hp]
    | some l =>
      have hl := promotion_of_movesOf hm hpr
      have hpawn : p ≠ king c := by
        intro h
        have hkind := hshape.promotion (by simp [hpr])
        rw [h] at hkind
        cases hkind
      have hletter : l ≠ .king := by
        intro h
        rw [h] at hl
        exact absurd hl (by decide)
      have hnot : (some ⟨.white, l⟩ : Option Piece) ≠ some (king c) := by
        intro h
        exact hletter (congrArg Piece.kind (Option.some.inj h))
      simp only [arriving, hpr, hnot, hpawn]
  rw [get_apply_filled hcastle]
  by_cases hjd : j = m.dest
  · rw [if_pos hjd, harriving]
    by_cases hpk : p = king c
    · simp [hpk, hjd]
    · simp [hpk, hjd, hdest]
  · rw [if_neg hjd]
    by_cases htaken : m.enPassant = true ∧ (j.val : ℤ) = B.taken m
    · have hpawn := hS.taken_pawn hm hcastle htaken.1 htaken.2
      have hpk : p ≠ king c := by
        intro h
        have hkind := pawn_of_enPassant hm htaken.1
        rw [h] at hkind
        cases hkind
      have hnot : B.squares.get j ≠ some (king c) := by
        rw [hpawn]
        simp [king]
      rw [if_neg hpk]
      simp only [hnot, iff_false]
      rw [if_pos htaken]
      simp
    · rw [if_neg htaken]
      by_cases hjf : j = m.frm
      · subst hjf
        by_cases hpk : p = king c <;> simp [hp, hpk, hjd]
      · rw [if_neg hjf]
        by_cases hpk : p = king c
        · have hnot : B.squares.get j ≠ some (king c) := fun h =>
            hjf (hS.king_unique h (hpk ▸ hp))
          simp [hpk, hjd, hnot]
        · simp [hpk]

omit hp hown hm hcastle

/-- The kings after castling: the mover's king has changed place. -/
theorem king_castle_iff (hright : w.right B.turn ∈ B.castling)
    (hempty : ∀ f ∈ w.emptyFiles, B.squares.get (homeIdx B.turn f) = none) :
    (B.apply (B.filled (castleMove B.turn w))).squares.get j = some (king c) ↔
      if c = B.turn then j = homeIdx B.turn w.kingFile
      else B.squares.get j = some (king c) := by
  obtain ⟨hking, hrook⟩ := hS.rights _ hright
  rw [right_color] at hking hrook
  rw [corner_right] at hrook
  obtain ⟨hcr, hck, hc4, hrk, hr4, hk4, hre, hke⟩ := wing_files w
  rw [get_apply_castle]
  by_cases h1 : j = homeIdx B.turn w.cornerFile
  · subst h1
    rw [if_pos rfl, hrook]
    by_cases hc : c = B.turn <;> simp [hc, homeIdx_inj, hck, king]
  rw [if_neg h1]
  by_cases h2 : j = homeIdx B.turn w.rookFile
  · subst h2
    rw [if_pos rfl, hrook, hempty _ hre]
    by_cases hc : c = B.turn <;> simp [hc, homeIdx_inj, hrk, king]
  rw [if_neg h2]
  by_cases h3 : j = homeIdx B.turn w.kingFile
  · subst h3
    rw [if_pos rfl, hking, hempty _ hke]
    by_cases hc : c = B.turn
    · simp [hc]
    · simp [hc, king, Ne.symm hc]
  rw [if_neg h3]
  by_cases h4 : j = homeIdx B.turn 4
  · subst h4
    rw [if_pos rfl, hking]
    by_cases hc : c = B.turn
    · simp [hc, homeIdx_inj, Ne.symm hk4]
    · simp [hc, king, Ne.symm hc]
  rw [if_neg h4]
  by_cases hc : c = B.turn
  · subst hc
    have hnot : B.squares.get j ≠ some (king B.turn) := fun h => h4 (hS.king_unique h hking)
    simp [h3, hnot]
  · simp [hc]

theorem kings_apply (hcand : m ∈ B.candidates) (c : Color) :
    ∃! k, (B.apply (B.filled m)).squares.get k = some (king c) := by
  obtain ⟨p, hp, hown, hm⟩ := mem_candidates.mp hcand
  by_cases hcastle : m.castle = none
  · simp only [hS.king_apply_iff hp hown hm hcastle]
    by_cases hpk : p = king c
    · simp [hpk]
    · simpa [hpk] using hS.kings c
  · obtain ⟨-, w, hright, hempty, rfl⟩ := castle_of_movesOf hm hcastle
    simp only [hS.king_castle_iff hright hempty]
    by_cases hc : c = B.turn
    · simp [hc]
    · simpa [hc] using hS.kings c

theorem rights_apply (hcand : m ∈ B.candidates) {r : Right}
    (hr : r ∈ (B.apply (B.filled m)).castling) :
    (B.apply (B.filled m)).squares.get (homeIdx r.color 4) = some (king r.color) ∧
      (B.apply (B.filled m)).squares.get (corner r) = some ⟨r.color, .rook⟩ := by
  obtain ⟨p, hp, hown, hm⟩ := mem_candidates.mp hcand
  have hkept : r ∈ B.castling ∧ p ≠ king r.color ∧ m.frm ≠ corner r ∧ m.dest ≠ corner r := by
    simpa [apply, hp] using hr
  obtain ⟨hmem, hpk, hfrm, hdest⟩ := hkept
  obtain ⟨hking, hrook⟩ := hS.rights r hmem
  by_cases hcastle : m.castle = none
  · refine ⟨(hS.king_apply_iff hp hown hm hcastle).mpr (by rwa [if_neg hpk]), ?_⟩
    have htaken : ¬ (m.enPassant = true ∧ ((corner r).val : ℤ) = B.taken m) := by
      intro h
      have hpawn := hS.taken_pawn hm hcastle h.1 h.2
      simp [hrook] at hpawn
    rw [get_apply_filled hcastle, if_neg (Ne.symm hdest), if_neg htaken, if_neg (Ne.symm hfrm),
      hrook]
  · obtain ⟨hhome, w, hright, hempty, rfl⟩ := castle_of_movesOf hm hcastle
    -- the mover's own rights are gone with its king
    have hcolor : r.color ≠ B.turn := by
      intro h
      have hown' := (hS.rights _ hright).1
      rw [right_color, ← hhome, hp, ← h] at hown'
      exact hpk (Option.some.inj hown')
    refine ⟨(hS.king_castle_iff hright hempty).mpr (by rwa [if_neg hcolor]), ?_⟩
    obtain ⟨v, hv⟩ := exists_right r
    rw [hv, corner_right] at hrook ⊢
    rw [get_apply_castle]
    simp [homeIdx_inj, hcolor, hrook]

theorem ep_sound (hcand : m ∈ B.candidates) {e : Fin 64}
    (he : (B.apply (B.filled m)).ep = some e) : ∃ origin front : Fin 64,
      (origin.val : ℤ) = e.val + 8 * B.turn.other.forward ∧
      (front.val : ℤ) = e.val - 8 * B.turn.other.forward ∧
      (B.apply (B.filled m)).squares.get e = none ∧
      (B.apply (B.filled m)).squares.get origin = none ∧
      (B.apply (B.filled m)).squares.get front = some ⟨B.turn, .pawn⟩ := by
  obtain ⟨p, hp, hown, hm⟩ := mem_candidates.mp hcand
  obtain ⟨hpawn, hstep, hval⟩ := ep_apply he
  simp only [filled_frm, filled_dest] at hpawn hstep hval
  have hkind := hpawn p hp
  have hcastle : m.castle = none := by
    by_contra hcastle
    obtain ⟨hhome, w, hright, -, -⟩ := castle_of_movesOf hm hcastle
    have hking := (hS.rights _ hright).1
    rw [right_color, ← hhome, hp] at hking
    rw [Option.some.inj hking] at hkind
    cases hkind
  obtain ⟨hpromotion, hep, hdouble, hmid⟩ := double_of_movesOf hkind hm hstep
  have hback : B.turn.other.forward = -B.turn.forward := by cases B.turn <;> rfl
  have hforward : B.turn.forward = 1 ∨ B.turn.forward = -1 := by
    cases B.turn
    · exact .inl rfl
    · exact .inr rfl
  have hmidval : (e.val : ℤ) = m.frm.val + 8 * B.turn.forward := by omega
  have hed : e ≠ m.dest := by
    intro h
    rw [h] at hmidval
    omega
  have hef : e ≠ m.frm := by
    intro h
    rw [h] at hmidval
    omega
  have hfd : m.frm ≠ m.dest := by
    intro h
    rw [← h] at hdouble
    omega
  refine ⟨m.frm, m.dest, by omega, by omega, ?_, ?_, ?_⟩
  · simp [get_apply_filled hcastle, hed, hef, hep, hmid e hmidval]
  · simp [get_apply_filled hcastle, hfd, hep]
  · obtain ⟨color, kind⟩ := p
    simp only at hown hkind
    subst hown hkind
    simp [get_apply_filled hcastle, arriving, hpromotion, hp]

end Sound

/-- A candidate that leaves its own king unattacked keeps the board sound. -/
theorem Sound.apply (hS : B.Sound) (hcand : m ∈ B.candidates) (hsafe : B.Safe (B.filled m)) :
    (B.apply (B.filled m)).Sound where
  kings := hS.kings_apply hcand
  safe := by
    intro k hk
    rw [turn_apply, Color.other_other] at hk
    obtain ⟨j, hj, hking⟩ := kingSquare_isSome hk
    rw [(hS.kings_apply hcand _).unique hk hking]
    exact hsafe j hj
  rights := fun _ hr => hS.rights_apply hcand hr
  ep := by
    intro e he
    rw [turn_apply, Color.other_other]
    exact hS.ep_sound hcand he

/-! ### Games -/

theorem Sound.plainLegalMoves (hS : B.Sound) : ∃ L, B.plainLegalMoves = some L ∧
    ∀ m', m' ∈ L ↔ ∃ m ∈ B.candidates, m' = B.filled m ∧ B.Safe m' := by
  refine keepLegal_eq fun m hm => ?_
  obtain ⟨k, hk, -⟩ := hS.kings_apply hm B.turn
  obtain ⟨j, hj, -⟩ := kingSquare_isSome hk
  exact ⟨j, hj⟩

/-- The legal moves of a sound board: the safe candidates with their marks. -/
theorem Sound.legalMoves (hS : B.Sound) : ∃ L L', B.plainLegalMoves = some L ∧
    B.legalMoves = some L' ∧ L'.map core = L.map core := by
  obtain ⟨L, hL, hmem⟩ := hS.plainLegalMoves
  obtain ⟨L', hL', hcore⟩ := legalMoves_eq hL (by
    intro m hm
    obtain ⟨m₀, hcand, rfl, hsafe⟩ := (hmem m).mp hm
    obtain ⟨k, hk, -⟩ := hS.kings_apply hcand B.turn.other
    obtain ⟨j, hj, -⟩ := kingSquare_isSome hk
    obtain ⟨replies, hreplies, -⟩ := (hS.apply hcand hsafe).plainLegalMoves
    exact annotate_isSome ⟨j, hj⟩ ⟨replies, hreplies⟩)
  exact ⟨L, L', hL, hL', hcore⟩

/-- Playing a legal move is playing a safe candidate. -/
theorem Sound.of_legalMoves (hS : B.Sound) {L : List Move} (hL : B.legalMoves = some L)
    (hm : m ∈ L) : ∃ m₀ ∈ B.candidates, B.Safe (B.filled m₀) ∧ core m = core (B.filled m₀) := by
  obtain ⟨K, L', hK, hL', hcore⟩ := hS.legalMoves
  obtain rfl : L' = L := Option.some.inj (hL'.symm.trans hL)
  have hmem : core m ∈ K.map core := hcore ▸ List.mem_map_of_mem hm
  obtain ⟨m₁, hm₁, heq⟩ := List.mem_map.mp hmem
  obtain ⟨K', hK', hiff⟩ := hS.plainLegalMoves
  obtain rfl : K' = K := Option.some.inj (hK'.symm.trans hK)
  obtain ⟨m₀, hcand, rfl, hsafe⟩ := (hiff m₁).mp hm₁
  exact ⟨m₀, hcand, hsafe, heq.symm⟩

/-- What holds of a legal move apart from its marks is what holds of a safe candidate. -/
theorem Sound.exists_legal (hS : B.Sound) : ∃ L, B.legalMoves = some L ∧ ∀ P : Move → Prop,
    (∃ m ∈ L, P (core m)) ↔ ∃ m ∈ B.candidates, B.Safe (B.filled m) ∧ P (core (B.filled m)) := by
  obtain ⟨K, L, hK, hL, hcore⟩ := hS.legalMoves
  obtain ⟨K', hK', hmem⟩ := hS.plainLegalMoves
  obtain rfl : K' = K := Option.some.inj (hK'.symm.trans hK)
  refine ⟨L, hL, fun P => ?_⟩
  have hmap : ∀ ms : List Move, (∃ m ∈ ms, P (core m)) ↔ ∃ m ∈ ms.map core, P m := by simp
  rw [hmap, hcore, ← hmap]
  constructor
  · rintro ⟨m', hm', hP⟩
    obtain ⟨m, hcand, rfl, hsafe⟩ := (hmem m').mp hm'
    exact ⟨m, hcand, hsafe, hP⟩
  · rintro ⟨m, hcand, hsafe, hP⟩
    exact ⟨_, (hmem _).mpr ⟨m, hcand, rfl, hsafe⟩, hP⟩

theorem Sound.apply_legal (hS : B.Sound) {L : List Move} (hL : B.legalMoves = some L)
    (hm : m ∈ L) : (B.apply m).Sound := by
  obtain ⟨m₀, hcand, hsafe, heq⟩ := hS.of_legalMoves hL hm
  rw [← apply_core, heq, apply_core]
  exact hS.apply hcand hsafe

def initialRanks : List Text := "rnbqkbnr/pppppppp/8/8/8/8/PPPPPPPP/RNBQKBNR".toList.splitOn '/'

/-- The inner loop of `initial` over one rank, from the file `f` on. -/
def placeRank (rank : ℤ) : ℤ → Text → Squares → Squares
  | _, [], v => v
  | f, ch :: cs, v =>
    if ch.isDigit then placeRank rank (f + (ch.toNat - 48)) cs v
    else placeRank rank (f + 1) cs (setSquare v (rank * 8 + f) (pieceOf? ch))

def initial : Board where
  squares := initialRanks.zipIdx.foldl (fun v rank => placeRank (7 - rank.2) 0 rank.1 v)
    (Vector.replicate 64 none)
  turn := .white
  castling := [.K, .Q, .k, .q]
  ep := none

/-- A game: from the initial board, moves each taken from the legal moves. -/
inductive Plays : List Move → Board → Prop
  | start : Plays [] initial
  | move {ms B L m} (h : Plays ms B) (hL : B.legalMoves = some L) (hm : m ∈ L) :
      Plays (ms ++ [m]) (B.apply m)

theorem sound_initial : initial.Sound where
  kings := by
    intro c
    cases c
    · exact ⟨4, by decide +kernel, by decide +kernel⟩
    · exact ⟨60, by decide +kernel, by decide +kernel⟩
  safe := by decide +kernel
  rights := by decide +kernel
  ep := by
    intro e he
    cases he

/-- Every board of every game is sound. -/
theorem sound_of_plays {ms : List Move} (h : Plays ms B) : B.Sound := by
  induction h with
  | start => exact sound_initial
  | move _ hL hm ih => exact ih.apply_legal hL hm

/-! ### Following a game through its candidates -/

/-- The safe candidates are found among the legal moves, with their marks. -/
theorem Sound.annotated (hS : B.Sound) (hcand : m ∈ B.candidates) (hsafe : B.Safe (B.filled m)) :
    ∃ L m', B.legalMoves = some L ∧ m' ∈ L ∧ B.annotate (B.filled m) = some m' ∧
      B.apply m' = B.apply (B.filled m) := by
  obtain ⟨K, L, hK, hL, -⟩ := hS.legalMoves
  obtain ⟨K', hK', hmem⟩ := hS.plainLegalMoves
  obtain rfl : K' = K := Option.some.inj (hK'.symm.trans hK)
  have hpass : K'.mapM B.annotate = some L := by
    rw [Board.legalMoves, hK] at hL
    exact hL
  obtain ⟨m', hm', hann⟩ :=
    Separated.exists_mem_of_mapM hpass ((hmem _).mpr ⟨m, hcand, rfl, hsafe⟩)
  refine ⟨L, m', hL, hm', hann, ?_⟩
  have hstep : ((B.apply (B.filled m)).kingSquare B.turn.other).bind (fun k =>
      if (B.apply (B.filled m)).attacked k B.turn then
        (B.apply (B.filled m)).plainLegalMoves.bind fun replies =>
          some { B.filled m with givesCheck := true, givesMate := replies.isEmpty }
      else some (B.filled m)) = some m' := hann
  obtain ⟨k, -, hmarks⟩ := Option.bind_eq_some_iff.mp hstep
  split_ifs at hmarks
  · obtain ⟨replies, -, heq⟩ := Option.bind_eq_some_iff.mp hmarks
    rw [← Option.some.inj heq]
    rfl
  · rw [← Option.some.inj hmarks]

/-- A generated move that leaves the own king unattacked, evaluated. -/
def playable (B : Board) (m : Move) : Bool :=
  decide (m ∈ B.candidates) && ((B.apply (B.filled m)).kingSquare B.turn).all fun k =>
    !(B.apply (B.filled m)).attacked k B.turn.other

theorem safe_of_playable (h : B.playable m = true) : m ∈ B.candidates ∧ B.Safe (B.filled m) := by
  simp only [playable, Bool.and_eq_true, decide_eq_true_eq] at h
  refine ⟨h.1, fun k hk => ?_⟩
  have hall := h.2
  rw [hk] at hall
  simpa using hall

/-- One safe candidate after the other, without computing the marks. -/
def follow (B : Board) : List Move → Option Board
  | [] => some B
  | m :: ms => if B.playable m then follow (B.apply (B.filled m)) ms else none

theorem plays_of_follow {ms ks : List Move} {B' : Board} (h : Plays ms B)
    (hfollow : B.follow ks = some B') : ∃ ms', Plays ms' B' := by
  induction ks generalizing B ms with
  | nil =>
    obtain rfl : B = B' := by simpa [follow] using hfollow
    exact ⟨ms, h⟩
  | cons m ks ih =>
    rw [follow] at hfollow
    split_ifs at hfollow with hm
    · obtain ⟨hcand, hsafe⟩ := safe_of_playable hm
      obtain ⟨L, m', hL, hm', -, happly⟩ := (sound_of_plays h).annotated hcand hsafe
      exact ih (happly ▸ h.move hL hm') hfollow

def kingPawn : Move := quiet (index ⟨4, 1⟩) (index ⟨4, 3⟩)

theorem sound_of_plays_sample : ∃ B, initial.follow [kingPawn] = some B ∧ B.Sound := by
  have hfollow : (initial.follow [kingPawn]).isSome = true := by decide +kernel
  obtain ⟨B, hB⟩ := Option.isSome_iff_exists.mp hfollow
  obtain ⟨ms, hms⟩ := plays_of_follow .start hB
  exact ⟨B, hB, sound_of_plays hms⟩

end Board
end Pgn
end OpenChess
