import OpenChess.Ingest.PgnSpec

/-!
# The move generator of the PGN core

Membership in the candidate list, generator by generator. Pawn, leaper and
slider moves are the pseudo-legal moves of the abstract layer; a pawn may in
addition capture onto the en-passant square.
-/

namespace OpenChess
namespace Pgn
namespace Wing

/-- The right a castling needs. -/
def right : Wing → Color → Right
  | kingside, .white => .K
  | kingside, .black => .k
  | queenside, .white => .Q
  | queenside, .black => .q

/-- Files of the king's and the rook's squares, and of what must be empty and
unattacked between them. -/
def kingFile : Wing → Fin 8
  | kingside => 6
  | queenside => 2

def cornerFile : Wing → Fin 8
  | kingside => 7
  | queenside => 0

def rookFile : Wing → Fin 8
  | kingside => 5
  | queenside => 3

def emptyFiles : Wing → List (Fin 8)
  | kingside => [5, 6]
  | queenside => [1, 2, 3]

def pathFiles : Wing → List (Fin 8)
  | kingside => [5, 6]
  | queenside => [2, 3]

end Wing

namespace Board

variable {B : Board} {i t : Fin 64} {m : Move} {p : Piece}

def bare (i t : Fin 64) (capture : Bool) (pr : Option Kind) (enPassant : Bool) : Move :=
  ⟨i, t, none, capture, pr, none, enPassant, false, false⟩

theorem isEnemy_iff : B.isEnemy t = true ↔ ∃ q, B.squares.get t = some q ∧ q.color ≠ B.turn := by
  cases h : B.squares.get t <;> simp [isEnemy, h]

theorem mem_arrivals : m ∈ B.arrivals i t ↔
    (∀ q, B.squares.get t = some q → q.color ≠ B.turn) ∧
      m = bare i t (B.squares.get t).isSome none false := by
  cases h : B.squares.get t with
  | none => simp [arrivals, h, quiet, bare]
  | some q => by_cases hq : q.color = B.turn <;> simp [arrivals, h, hq, quiet, bare]

theorem mem_leapMoves {steps : List Delta} : m ∈ B.leapMoves steps i ↔
    ∃ t, ((square t).x - (square i).x, (square t).y - (square i).y) ∈ steps ∧
      m ∈ B.arrivals i t := by
  simp only [leapMoves, List.mem_flatMap, idx_eq, fileOf_eq, rankOf_eq]
  constructor
  · intro h
    obtain ⟨d, hd, hm⟩ := h
    cases hsq : sqAt ((square i).x + d.1) ((square i).y + d.2) with
    | none => simp [hsq] at hm
    | some q =>
      obtain ⟨hx, hy⟩ := sqAt_eq_some.mp hsq
      simp only [hsq, Option.map_some] at hm
      refine ⟨index q, ?_, hm⟩
      rwa [square_index, hx, hy, add_sub_cancel_left, add_sub_cancel_left]
  · intro h
    obtain ⟨t, hd, hm⟩ := h
    refine ⟨_, hd, ?_⟩
    simpa using hm

theorem slideIndices_eq (v : Squares) (d : Delta) (x y : ℤ) :
    slideIndices v d (x + d.1) (y + d.2) = (scan v.toBoard d x y).map index := by
  have h := BoundedWalk.walk_map index (fun p : ℤ × ℤ => sqAt p.1 p.2)
    (fun j => (v.get j).isSome) (fun p => (p.1 + d.1, p.2 + d.2)) 8 (x + d.1, y + d.2)
  simpa [slideIndices, scan, idx_eq, Squares.toBoard] using h

theorem mem_slideMoves {dirs : List Delta} (hD : ∀ d ∈ dirs, d ∈ straight ++ diagonal) :
    m ∈ B.slideMoves dirs i ↔
      ∃ t, (∃ d ∈ dirs, Ray B.squares.toBoard (square i) d (square t)) ∧ m ∈ B.arrivals i t := by
  simp only [slideMoves, List.mem_flatMap, fileOf_eq, rankOf_eq, slideIndices_eq, List.mem_map]
  constructor
  · intro h
    obtain ⟨d, hd, _, ⟨q, hq, rfl⟩, hm⟩ := h
    refine ⟨index q, ⟨d, hd, ?_⟩, hm⟩
    rw [square_index]
    exact (mem_scan (hD d hd)).mp hq
  · intro h
    obtain ⟨t, ⟨d, hd, hray⟩, hm⟩ := h
    exact ⟨d, hd, t, ⟨square t, (mem_scan (hD d hd)).mpr hray, index_square t⟩, hm⟩

/-! ### Pawns -/

theorem mem_pawnArrivals {promoting : Bool} (hm : m.promotion = none) {m' : Move} :
    m' ∈ pawnArrivals promoting m ↔
      ∃ pr ∈ (if promoting then promotionKinds.map some else [none]),
        m' = { m with promotion := pr } := by
  unfold pawnArrivals
  cases promoting with
  | true => simp [promotionLetters, promotionKinds]
  | false =>
    have hself : { m with promotion := none } = m := by rw [← hm]
    simp [hself]

theorem pawnStep_eq : B.pawnStep = B.turn.forward := by
  unfold pawnStep
  cases B.turn <;> rfl

theorem pawnStart_eq : B.pawnStart = B.turn.startRank := by
  unfold pawnStart
  cases B.turn <;> rfl

theorem pawnGoal_eq : B.pawnGoal = B.turn.lastRank := by
  unfold pawnGoal
  cases B.turn <;> rfl

theorem promotionsAt_ahead {c : Color} {s q : Square} (hq : q.y = s.y + c.forward) :
    (if decide (s.y + c.forward = c.lastRank) then promotionKinds.map some else [none]) =
      promotionsAt ⟨c, .pawn⟩ q := by
  simp [promotionsAt, hq]

/-- Two steps from the start rank never reach the last rank. -/
theorem not_goal_of_start {c : Color} {y : ℤ} (h : y = c.startRank) :
    y + c.forward ≠ c.lastRank ∧ y + 2 * c.forward ≠ c.lastRank := by
  subst h
  cases c <;> decide

theorem mem_plainPushes {one : Square} : m ∈ B.plainPushes i (index one) ↔
    ∃ q, (q = one ∨ ((square i).y = B.turn.startRank ∧
      sqAt (square i).x ((square i).y + 2 * B.turn.forward) = some q ∧
      B.squares.toBoard q = none)) ∧ m = bare i (index q) false none false := by
  unfold plainPushes
  simp only [idx_eq, fileOf_eq, rankOf_eq, pawnStep_eq, pawnStart_eq]
  cases h2 : sqAt (square i).x ((square i).y + 2 * B.turn.forward) with
  | none => simp [quiet, bare]
  | some two =>
    have hcell : B.squares.get (index two) = B.squares.toBoard two := rfl
    by_cases hd : (square i).y = B.turn.startRank ∧ B.squares.toBoard two = none
    · simp [hcell, hd, quiet, bare, or_and_right, exists_or]
    · have hno : ∀ q, ¬ ((square i).y = B.turn.startRank ∧ some two = some q ∧
          B.squares.toBoard q = none) := by
        intro q hq
        obtain ⟨hr, hsome, hq⟩ := hq
        cases hsome
        exact hd ⟨hr, hq⟩
      simp only [Option.map_some, hcell, hd, if_false, List.mem_singleton, hno, or_false,
        exists_eq_left]
      rfl

theorem mem_pawnPushes : m ∈ B.pawnPushes i ↔
    ∃ t pr, PawnAdvances B.squares.toBoard B.turn (square i) (square t) ∧
      pr ∈ promotionsAt ⟨B.turn, .pawn⟩ (square t) ∧ m = bare i t false pr false := by
  unfold pawnPushes
  simp only [idx_eq, fileOf_eq, rankOf_eq, pawnStep_eq, pawnGoal_eq]
  cases h1 : sqAt (square i).x ((square i).y + B.turn.forward) with
  | none =>
    simp only [Option.map_none, List.not_mem_nil, false_iff]
    intro h
    obtain ⟨t, pr, hadv, -⟩ := h
    exact not_pawnAdvances h1 _ hadv
  | some one =>
    obtain ⟨-, hy⟩ := sqAt_eq_some.mp h1
    simp only [Option.map_some, pawnAdvances_iff h1]
    have hcell : B.squares.get (index one) = B.squares.toBoard one := rfl
    rw [hcell]
    by_cases hfree : B.squares.toBoard one = none
    · simp only [hfree, ne_eq, not_true_eq_false, if_false, true_and]
      by_cases hgoal : (square i).y + B.turn.forward = B.turn.lastRank
      · -- a promoting pawn is not on its start rank
        have hstart : (square i).y ≠ B.turn.startRank := fun h => (not_goal_of_start h).1 hgoal
        rw [if_pos hgoal, mem_pawnArrivals rfl]
        simp only [hstart, false_and, or_false, if_true]
        constructor
        · intro h
          obtain ⟨pr, hpr, rfl⟩ := h
          refine ⟨index one, pr, square_index one, ?_, rfl⟩
          rw [square_index, ← promotionsAt_ahead hy]
          simpa [hgoal] using hpr
        · intro h
          obtain ⟨t, pr, rfl, hpr, rfl⟩ := h
          rw [← promotionsAt_ahead hy] at hpr
          exact ⟨pr, by simpa [hgoal] using hpr, by rw [index_square]; rfl⟩
      · have hplain : ∀ q : Square, (q = one ∨ ((square i).y = B.turn.startRank ∧
            sqAt (square i).x ((square i).y + 2 * B.turn.forward) = some q ∧
            B.squares.toBoard q = none)) → promotionsAt ⟨B.turn, .pawn⟩ q = [none] := by
          intro q hq
          rcases hq with rfl | ⟨hr, h2, -⟩
          · rw [← promotionsAt_ahead hy]
            simp [hgoal]
          · have hy2 := (sqAt_eq_some.mp h2).2
            simp [promotionsAt, hy2, (not_goal_of_start hr).2]
        rw [if_neg hgoal]
        rw [mem_plainPushes]
        constructor
        · intro h
          obtain ⟨q, hq, rfl⟩ := h
          refine ⟨index q, none, by simpa using hq, ?_, rfl⟩
          rw [square_index, hplain q hq]
          exact List.mem_singleton.mpr rfl
        · intro h
          obtain ⟨t, pr, ht, hpr, rfl⟩ := h
          rw [hplain _ ht, List.mem_singleton] at hpr
          exact ⟨square t, ht, by rw [hpr, index_square]⟩
    · simp [hfree]

theorem mem_pawnTakes : m ∈ B.pawnTakes i ↔
    ∃ t pr, ((square t).x - (square i).x, (square t).y - (square i).y) ∈ pawnCaptures B.turn ∧
      (B.isEnemy t = true ∨ B.ep = some t) ∧ pr ∈ promotionsAt ⟨B.turn, .pawn⟩ (square t) ∧
      m = bare i t true pr (decide (B.ep = some t)) := by
  have hdelta : ∀ q : Square, (q.x - (square i).x, q.y - (square i).y) ∈ pawnCaptures B.turn ↔
      ∃ df ∈ [(-1 : ℤ), 1], q.x = (square i).x + df ∧ q.y = (square i).y + B.turn.forward := by
    intro q
    simp only [pawnCaptures, List.mem_cons, List.not_mem_nil, or_false, Prod.mk.injEq,
      exists_eq_or_imp, exists_eq_left]
    omega
  unfold pawnTakes
  simp only [List.mem_flatMap, idx_eq, fileOf_eq, rankOf_eq, pawnStep_eq, pawnGoal_eq, hdelta]
  constructor
  · intro h
    obtain ⟨df, hdf, hm⟩ := h
    cases hsq : sqAt ((square i).x + df) ((square i).y + B.turn.forward) with
    | none => simp [hsq] at hm
    | some q =>
      obtain ⟨hx, hy⟩ := sqAt_eq_some.mp hsq
      simp only [hsq, Option.map_some, Bool.or_eq_true, decide_eq_true_eq] at hm
      split_ifs at hm with htake
      · rw [mem_pawnArrivals rfl] at hm
        obtain ⟨pr, hpr, rfl⟩ := hm
        rw [promotionsAt_ahead hy] at hpr
        exact ⟨index q, pr,
          ⟨df, hdf, by rw [square_index]; exact hx, by rw [square_index]; exact hy⟩,
          htake, by rw [square_index]; exact hpr, rfl⟩
      · simp at hm
  · intro h
    obtain ⟨t, pr, ⟨df, hdf, hx, hy⟩, htake, hpr, rfl⟩ := h
    refine ⟨df, hdf, ?_⟩
    have hsq : sqAt ((square i).x + df) ((square i).y + B.turn.forward) = some (square t) :=
      sqAt_eq_some.mpr ⟨hx, hy⟩
    simp only [hsq, Option.map_some, index_square, Bool.or_eq_true, decide_eq_true_eq]
    rw [if_pos htake, mem_pawnArrivals rfl, promotionsAt_ahead hy]
    exact ⟨pr, hpr, rfl⟩

/-! ### All generators -/

theorem castlingMoves_nil (h : B.castling = []) : B.castlingMoves i = [] := by
  simp [castlingMoves, h]

def castleMove (c : Color) (w : Wing) : Move :=
  { quiet (homeIdx c 4) (homeIdx c w.kingFile) with castle := some w }

/-- The king is home and unattacked, the right is held, the squares up to the
rook are empty and those the king crosses are unattacked. -/
theorem mem_castlingMoves : m ∈ B.castlingMoves i ↔
    i = homeIdx B.turn 4 ∧ B.attacked i B.turn.other = false ∧
      ∃ w : Wing, w.right B.turn ∈ B.castling ∧
        (∀ f ∈ w.emptyFiles, B.squares.get (homeIdx B.turn f) = none) ∧
        (∀ f ∈ w.pathFiles, B.attacked (homeIdx B.turn f) B.turn.other = false) ∧
        m = castleMove B.turn w := by
  have hk : Wing.right .kingside B.turn = if B.turn = .white then .K else .k := by
    cases B.turn <;> rfl
  have hq : Wing.right .queenside B.turn = if B.turn = .white then .Q else .q := by
    cases B.turn <;> rfl
  have hwing : ∀ P : Wing → Prop, (∃ w, P w) ↔ P .kingside ∨ P .queenside := by
    intro P
    constructor
    · intro h
      obtain ⟨w, hw⟩ := h
      cases w
      · exact .inl hw
      · exact .inr hw
    · intro h
      rcases h with h | h
      · exact ⟨_, h⟩
      · exact ⟨_, h⟩
  rw [hwing, hk, hq]
  unfold castlingMoves
  by_cases hhome : i = homeIdx B.turn 4 ∧ B.attacked i B.turn.other = false
  · obtain ⟨rfl, hsafe⟩ := hhome
    simp only [hsafe, and_self, if_true, true_and, List.mem_append, List.mem_ite_nil_right,
      beq_iff_eq, Bool.not_eq_true', Wing.emptyFiles, Wing.pathFiles,
      List.mem_cons, List.not_mem_nil, or_false, forall_eq_or_imp, forall_eq, and_assoc,
      castleMove, Wing.kingFile]
  · simp only [hhome, if_false, List.not_mem_nil, false_iff]
    tauto

/-- The shape of a generated move other than castling: only pawns promote, and
an own piece is only ever met on the en-passant square. -/
structure Shape (B : Board) (i : Fin 64) (p : Piece) (m : Move) : Prop where
  frm : m.frm = i
  castle : m.castle = none
  promotion : m.promotion ≠ none → p.kind = .pawn
  enPassant : m.enPassant = true → B.ep = some m.dest
  free : ∀ q, B.squares.get m.dest = some q → q.color ≠ B.turn ∨ B.ep = some m.dest

theorem shape_of_arrival (h : m ∈ B.arrivals i t) : Shape B i p m := by
  obtain ⟨hfree, rfl⟩ := mem_arrivals.mp h
  exact ⟨rfl, rfl, fun h => absurd rfl h, fun h => by simp [bare] at h,
    fun q hq => .inl (hfree q hq)⟩

/-- The four ways a move is generated. -/
theorem movesOf_cases (hm : m ∈ B.movesOf i p) :
    (p.kind ≠ .pawn ∧ ∃ t, m ∈ B.arrivals i t) ∨ (p.kind = .pawn ∧ m ∈ B.pawnPushes i) ∨
      (p.kind = .pawn ∧ m ∈ B.pawnTakes i) ∨ (p.kind = .king ∧ m ∈ B.castlingMoves i) := by
  unfold movesOf at hm
  cases hk : p.kind <;> rw [hk] at hm <;> simp only at hm
  case pawn =>
    rcases List.mem_append.mp hm with hm | hm
    · exact .inr (.inl ⟨rfl, hm⟩)
    · exact .inr (.inr (.inl ⟨rfl, hm⟩))
  case knight =>
    obtain ⟨t, -, ht⟩ := mem_leapMoves.mp hm
    exact .inl ⟨Kind.noConfusion, t, ht⟩
  case bishop =>
    obtain ⟨t, -, ht⟩ := (mem_slideMoves (by decide)).mp hm
    exact .inl ⟨Kind.noConfusion, t, ht⟩
  case rook =>
    obtain ⟨t, -, ht⟩ := (mem_slideMoves (by decide)).mp hm
    exact .inl ⟨Kind.noConfusion, t, ht⟩
  case queen =>
    obtain ⟨t, -, ht⟩ := (mem_slideMoves (by decide)).mp hm
    exact .inl ⟨Kind.noConfusion, t, ht⟩
  case king =>
    rcases List.mem_append.mp hm with hm | hm
    · obtain ⟨t, -, ht⟩ := mem_leapMoves.mp hm
      exact .inl ⟨Kind.noConfusion, t, ht⟩
    · exact .inr (.inr (.inr ⟨rfl, hm⟩))

theorem shape_of_movesOf_or (hm : m ∈ B.movesOf i p) :
    Shape B i p m ∨ p.kind = .king ∧ m ∈ B.castlingMoves i := by
  rcases movesOf_cases hm with ⟨-, t, ht⟩ | ⟨hk, hm⟩ | ⟨hk, hm⟩ | hcastle
  · exact .inl (shape_of_arrival ht)
  · obtain ⟨t, pr, hadv, -, rfl⟩ := mem_pawnPushes.mp hm
    have hempty : B.squares.get t = none := by
      rw [← B.squares.toBoard_square]
      exact hadv.empty
    exact .inl ⟨rfl, rfl, fun _ => hk, fun h => by simp [bare] at h,
      fun q hq => by simp [bare, hempty] at hq⟩
  · obtain ⟨t, pr, -, htake, -, rfl⟩ := mem_pawnTakes.mp hm
    refine .inl ⟨rfl, rfl, fun _ => hk, of_decide_eq_true, fun q hq => ?_⟩
    rcases htake with henemy | hep
    · obtain ⟨q', hq', hcolor⟩ := isEnemy_iff.mp henemy
      exact .inl (Option.some.inj (hq'.symm.trans hq) ▸ hcolor)
    · exact .inr hep
  · exact .inr hcastle

theorem shape_of_movesOf (hcastling : B.castling = []) (hm : m ∈ B.movesOf i p) :
    Shape B i p m := by
  rcases shape_of_movesOf_or hm with h | ⟨-, h⟩
  · exact h
  · simp [castlingMoves_nil hcastling] at h

theorem frm_of_castlingMoves (h : m ∈ B.castlingMoves i) : m.frm = i := by
  obtain ⟨hi, -, w, -, -, -, rfl⟩ := mem_castlingMoves.mp h
  exact hi.symm

theorem frm_of_movesOf (hm : m ∈ B.movesOf i p) : m.frm = i := by
  rcases shape_of_movesOf_or hm with h | ⟨-, h⟩
  · exact h.frm
  · exact frm_of_castlingMoves h

theorem mem_pawnMoves (hep : B.ep = none) : m ∈ B.pawnMoves i ↔
    ∃ t pr, Reaches B.squares.toBoard ⟨B.turn, .pawn⟩ (square i) (square t) ∧
      pr ∈ promotionsAt ⟨B.turn, .pawn⟩ (square t) ∧
      m = bare i t (B.squares.get t).isSome pr false := by
  have hcell : ∀ t, B.squares.toBoard (square t) = B.squares.get t := B.squares.toBoard_square
  unfold pawnMoves
  rw [List.mem_append, mem_pawnPushes, mem_pawnTakes]
  simp only [hep, reduceCtorEq, or_false, decide_false, isEnemy_iff, Reaches, if_true,
    pawnReaches_iff, hcell]
  constructor
  · intro h
    rcases h with ⟨t, pr, hadv, hpr, rfl⟩ | ⟨t, pr, hd, hq, hpr, rfl⟩
    · have hempty : B.squares.get t = none := by
        rw [← hcell]
        exact hadv.empty
      exact ⟨t, pr, .inl hadv, hpr, by rw [hempty]; rfl⟩
    · obtain ⟨q, hq, hcolor⟩ := hq
      exact ⟨t, pr, .inr ⟨hd, q, hq, hcolor⟩, hpr, by rw [hq]; rfl⟩
  · intro h
    obtain ⟨t, pr, hadv | ⟨hd, q, hq, hcolor⟩, hpr, rfl⟩ := h
    · have hempty : B.squares.get t = none := by
        rw [← hcell]
        exact hadv.empty
      exact .inl ⟨t, pr, hadv, hpr, by rw [hempty]; rfl⟩
    · exact .inr ⟨t, pr, hd, ⟨q, hq, hcolor⟩, hpr, by rw [hq]; rfl⟩

theorem mem_officerMoves (hp : p.color = B.turn) (hk : p.kind ≠ .pawn) :
    (∃ t, Covers B.squares.toBoard p (square i) (square t) ∧ m ∈ B.arrivals i t) ↔
      ∃ t pr, Reaches B.squares.toBoard p (square i) (square t) ∧
        pr ∈ promotionsAt p (square t) ∧ m = bare i t (B.squares.get t).isSome pr false := by
  simp only [mem_arrivals, Reaches, hk, if_false, promotionsAt, false_and, List.mem_singleton,
    B.squares.toBoard_square, hp]
  constructor
  · intro h
    obtain ⟨t, hcov, hfree, hm⟩ := h
    exact ⟨t, none, ⟨hcov, hfree⟩, rfl, hm⟩
  · intro h
    obtain ⟨t, pr, ⟨hcov, hfree⟩, rfl, hm⟩ := h
    exact ⟨t, hcov, hfree, hm⟩

/-- Without castling rights and en-passant square, the moves of a piece are its
pseudo-legal moves. -/
theorem mem_movesOf (hcastling : B.castling = []) (hep : B.ep = none) (hp : p.color = B.turn) :
    m ∈ B.movesOf i p ↔ ∃ t pr, Reaches B.squares.toBoard p (square i) (square t) ∧
      pr ∈ promotionsAt p (square t) ∧ m = bare i t (B.squares.get t).isSome pr false := by
  obtain ⟨c, k⟩ := p
  simp only at hp
  subst hp
  cases k with
  | pawn => exact mem_pawnMoves hep
  | knight =>
    rw [← mem_officerMoves rfl Kind.noConfusion]
    simp only [movesOf, mem_leapMoves, Covers, Piece.leaps, Piece.slides, List.not_mem_nil,
      false_and, exists_false, or_false]
    rfl
  | king =>
    rw [← mem_officerMoves rfl Kind.noConfusion]
    simp only [movesOf, castlingMoves_nil hcastling, List.append_nil, mem_leapMoves, mem_kingSteps,
      Covers, Piece.leaps, Piece.slides, List.not_mem_nil, false_and, exists_false, or_false]
  | bishop =>
    rw [← mem_officerMoves rfl Kind.noConfusion]
    simp only [movesOf, Covers, Piece.leaps, Piece.slides, List.not_mem_nil, false_or]
    exact mem_slideMoves (by decide)
  | rook =>
    rw [← mem_officerMoves rfl Kind.noConfusion]
    simp only [movesOf, Covers, Piece.leaps, Piece.slides, List.not_mem_nil, false_or]
    exact mem_slideMoves (by decide)
  | queen =>
    rw [← mem_officerMoves rfl Kind.noConfusion]
    simp only [movesOf, Covers, Piece.leaps, Piece.slides, List.not_mem_nil, false_or]
    exact mem_slideMoves (by decide)

theorem mem_candidates : m ∈ B.candidates ↔
    ∃ p, B.squares.get m.frm = some p ∧ p.color = B.turn ∧ m ∈ B.movesOf m.frm p := by
  simp only [candidates, List.mem_flatMap, List.mem_finRange, true_and]
  constructor
  · intro h
    obtain ⟨i, hm⟩ := h
    cases hp : B.squares.get i with
    | none => simp [hp] at hm
    | some p =>
      simp only [hp] at hm
      split_ifs at hm with hown
      · simp at hm
      · have hfrm := frm_of_movesOf hm
        subst hfrm
        exact ⟨p, hp, not_not.mp hown, hm⟩
  · intro h
    obtain ⟨p, hp, hown, hm⟩ := h
    refine ⟨m.frm, ?_⟩
    simp only [hp, hown, ne_eq, not_true_eq_false, if_false]
    exact hm

end Board
end Pgn
end OpenChess
