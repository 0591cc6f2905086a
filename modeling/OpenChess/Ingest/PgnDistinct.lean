import OpenChess.Ingest.PgnGame

/-!
# Every move is generated once

The generators list no move twice: leaps and directions differ in their deltas,
the squares of one direction in their distance, promotions in their letter.
-/

namespace OpenChess
namespace Pgn

theorem nodup_flatMap_key {α β κ : Type} {l : List α} {f : α → List β} (key : β → κ) (g : α → κ)
    (hl : (l.map g).Nodup) (hf : ∀ a ∈ l, (f a).Nodup)
    (hkey : ∀ a ∈ l, ∀ b ∈ f a, key b = g a) : (l.flatMap f).Nodup := by
  refine List.nodup_flatMap.mpr ⟨hf, ?_⟩
  have hpair : l.Pairwise fun a b => g a ≠ g b := List.pairwise_map.mp hl
  refine hpair.imp_of_mem fun ha hb hne x hx hy => hne ?_
  rw [← hkey _ ha x hx, hkey _ hb x hy]

namespace Board

variable {B : Board} {i t : Fin 64} {m : Move} {p : Piece}

theorem nodup_arrivals : (B.arrivals i t).Nodup := by
  unfold arrivals
  cases B.squares.get t with
  | none => simp
  | some q => by_cases hq : q.color = B.turn <;> simp [hq]

theorem dest_of_arrivals (h : m ∈ B.arrivals i t) : m.dest = t ∧ m.castle = none := by
  obtain ⟨-, rfl⟩ := mem_arrivals.mp h
  exact ⟨rfl, rfl⟩

theorem nodup_leapMoves {steps : List Delta} (h : steps.Nodup) : (B.leapMoves steps i).Nodup := by
  refine nodup_flatMap_key (fun m => (fileOf m.dest - fileOf i, rankOf m.dest - rankOf i)) id
    (by simpa using h) (fun d _ => ?_) (fun d _ m hm => ?_)
  · cases idx (fileOf i + d.1) (rankOf i + d.2) with
    | none => exact List.nodup_nil
    | some t => exact nodup_arrivals
  · cases ht : idx (fileOf i + d.1) (rankOf i + d.2) with
    | none => simp [ht] at hm
    | some t =>
      simp only [ht] at hm
      rw [(dest_of_arrivals hm).1]
      rw [idx_eq] at ht
      obtain ⟨q, hq, rfl⟩ := Option.map_eq_some_iff.mp ht
      obtain ⟨hx, hy⟩ := sqAt_eq_some.mp hq
      simp only [fileOf_eq, rankOf_eq, square_index] at hx hy ⊢
      ext
      · simp only [id]
        omega
      · simp only [id]
        omega

theorem nodup_slideIndices {d : Delta} (hd : d ∈ straight ++ diagonal) (x y : ℤ) (v : Squares) :
    (slideIndices v d (x + d.1) (y + d.2)).Nodup := by
  rw [slideIndices_eq]
  refine List.Nodup.map index_injective (BoundedWalk.nodup_walk fun n m b hn hm => ?_)
  rw [iterate_advance, sqAt_eq_some] at hn hm
  obtain ⟨hnx, hny⟩ := hn
  obtain ⟨hmx, hmy⟩ := hm
  have hunit : ∀ e ∈ straight ++ diagonal, e.1 = 1 ∨ e.1 = -1 ∨ e.2 = 1 ∨ e.2 = -1 := by decide
  simp only at hnx hny hmx hmy
  rcases hunit d hd with h | h | h | h <;> simp only [h] at hnx hny hmx hmy <;> omega

theorem sign_of_ray {b : Placement} {d : Delta} (hd : d ∈ straight ++ diagonal) {s t : Square}
    (h : Ray b s d t) : ((t.x - s.x).sign, (t.y - s.y).sign) = d := by
  obtain ⟨n, hn, hx, hy, -⟩ := h
  have hunit : ∀ e ∈ straight ++ diagonal, e.1.sign = e.1 ∧ e.2.sign = e.2 := by decide
  have hsign : (n : ℤ).sign = 1 := Int.sign_eq_one_of_pos (by omega)
  rw [hx, hy, add_sub_cancel_left, add_sub_cancel_left, Int.sign_mul, Int.sign_mul, hsign,
    (hunit d hd).1, (hunit d hd).2, one_mul, one_mul]

theorem nodup_slideMoves {D : List Delta} (hD : ∀ d ∈ D, d ∈ straight ++ diagonal)
    (h : D.Nodup) : (B.slideMoves D i).Nodup := by
  refine nodup_flatMap_key (fun m => (((square m.dest).x - (square i).x).sign,
    ((square m.dest).y - (square i).y).sign)) id (by simpa using h) (fun d hd => ?_)
    (fun d hd m hm => ?_)
  · exact nodup_flatMap_key Move.dest id
      (by simpa using nodup_slideIndices (hD d hd) (fileOf i) (rankOf i) B.squares)
      (fun t _ => nodup_arrivals) (fun t _ m hm => (dest_of_arrivals hm).1)
  · obtain ⟨t, ht, hm⟩ := List.mem_flatMap.mp hm
    rw [fileOf_eq, rankOf_eq, slideIndices_eq] at ht
    obtain ⟨q, hq, rfl⟩ := List.mem_map.mp ht
    rw [(dest_of_arrivals hm).1, square_index]
    exact sign_of_ray (hD d hd) ((mem_scan (hD d hd)).mp hq)

/-! ### Pawns -/

theorem nodup_pawnArrivals {promoting : Bool} : (pawnArrivals promoting m).Nodup := by
  unfold pawnArrivals
  cases promoting with
  | true =>
    refine List.Nodup.map (fun k l h => ?_) (by decide : promotionLetters.Nodup)
    exact Option.some.inj (congrArg Move.promotion h)
  | false => simp

theorem nodup_pawnPushes : (B.pawnPushes i).Nodup := by
  unfold pawnPushes
  cases h1 : idx (fileOf i) (rankOf i + B.pawnStep) with
  | none => exact List.nodup_nil
  | some one =>
    simp only
    split_ifs
    · exact List.nodup_nil
    · exact nodup_pawnArrivals
    · unfold plainPushes
      cases h2 : idx (fileOf i) (rankOf i + 2 * B.pawnStep) with
      | none => simp
      | some two =>
        have hne : one ≠ two := by
          intro h
          rw [idx_eq] at h1 h2
          obtain ⟨p, hp, rfl⟩ := Option.map_eq_some_iff.mp h1
          obtain ⟨q, hq, rfl⟩ := Option.map_eq_some_iff.mp h2
          obtain rfl := index_injective h
          have hy := (sqAt_eq_some.mp hp).2
          have hy' := (sqAt_eq_some.mp hq).2
          have hstep : B.pawnStep = 1 ∨ B.pawnStep = -1 := by
            rw [pawnStep_eq]
            cases B.turn
            · exact .inl rfl
            · exact .inr rfl
          omega
        simp only
        split_ifs
        · have hmoves : quiet i one ≠ quiet i two := fun h => hne (congrArg Move.dest h)
          simp [hmoves]
        · simp

theorem nodup_pawnTakes : (B.pawnTakes i).Nodup := by
  refine nodup_flatMap_key (fun m => (square m.dest).x - (square i).x) id (by decide)
    (fun df _ => ?_) (fun df _ m hm => ?_)
  · cases idx (fileOf i + df) (rankOf i + B.pawnStep) with
    | none => exact List.nodup_nil
    | some t =>
      simp only
      split_ifs
      · exact nodup_pawnArrivals
      · exact List.nodup_nil
  · cases ht : idx (fileOf i + df) (rankOf i + B.pawnStep) with
    | none => simp [ht] at hm
    | some t =>
      simp only [ht] at hm
      split_ifs at hm
      · rw [mem_pawnArrivals rfl] at hm
        obtain ⟨pr, -, rfl⟩ := hm
        rw [idx_eq] at ht
        obtain ⟨q, hq, rfl⟩ := Option.map_eq_some_iff.mp ht
        have hx := (sqAt_eq_some.mp hq).1
        simp only [quiet, square_index, id]
        rw [fileOf_eq] at hx
        omega
      · simp at hm

theorem nodup_pawnMoves : (B.pawnMoves i).Nodup := by
  refine List.Nodup.append nodup_pawnPushes nodup_pawnTakes fun m hpush htake => ?_
  obtain ⟨t, pr, -, -, rfl⟩ := mem_pawnPushes.mp hpush
  obtain ⟨t', pr', -, -, -, heq⟩ := mem_pawnTakes.mp htake
  cases congrArg Move.capture heq

/-! ### All generators -/

theorem nodup_castlingMoves : (B.castlingMoves i).Nodup := by
  simp only [castlingMoves]
  split_ifs <;> simp

theorem nodup_movesOf : (B.movesOf i p).Nodup := by
  unfold movesOf
  cases p.kind with
  | pawn => exact nodup_pawnMoves
  | knight => exact nodup_leapMoves (by decide)
  | bishop => exact nodup_slideMoves (by decide) (by decide)
  | rook => exact nodup_slideMoves (by decide) (by decide)
  | queen => exact nodup_slideMoves (by decide) (by decide)
  | king =>
    refine List.Nodup.append (nodup_leapMoves (by decide)) nodup_castlingMoves fun m hm hc => ?_
    obtain ⟨t, -, ht⟩ := mem_leapMoves.mp hm
    obtain ⟨-, -, w, -, -, -, rfl⟩ := mem_castlingMoves.mp hc
    cases (dest_of_arrivals ht).2

theorem nodup_candidates : B.candidates.Nodup := by
  refine nodup_flatMap_key Move.frm id (by simpa using List.nodup_finRange 64)
    (fun i _ => ?_) (fun i _ m hm => ?_)
  · cases B.squares.get i with
    | none => exact List.nodup_nil
    | some p =>
      simp only
      split_ifs
      · exact List.nodup_nil
      · exact nodup_movesOf
  · cases hp : B.squares.get i with
    | none => simp [hp] at hm
    | some p =>
      simp only [hp] at hm
      split_ifs at hm
      · simp at hm
      · exact frm_of_movesOf hm

theorem blank_of_movesOf (hm : m ∈ B.movesOf i p) :
    m.piece = none ∧ m.givesCheck = false ∧ m.givesMate = false := by
  rcases movesOf_cases hm with ⟨-, t, ht⟩ | ⟨-, hm⟩ | ⟨-, hm⟩ | ⟨-, hm⟩
  · obtain ⟨-, rfl⟩ := mem_arrivals.mp ht
    exact ⟨rfl, rfl, rfl⟩
  · obtain ⟨t, pr, -, -, rfl⟩ := mem_pawnPushes.mp hm
    exact ⟨rfl, rfl, rfl⟩
  · obtain ⟨t, pr, -, -, -, rfl⟩ := mem_pawnTakes.mp hm
    exact ⟨rfl, rfl, rfl⟩
  · obtain ⟨-, -, w, -, -, -, rfl⟩ := mem_castlingMoves.mp hm
    exact ⟨rfl, rfl, rfl⟩

/-! ### Legal moves -/

theorem keepLegal_sublist {ms L : List Move} (h : B.keepLegal ms = some L) :
    L.Sublist (ms.map B.filled) := by
  induction ms generalizing L with
  | nil =>
    obtain rfl : [] = L := by simpa [keepLegal] using h
    exact List.Sublist.slnil
  | cons m ms ih =>
    have hstep : ((B.apply (B.filled m)).kingSquare B.turn).bind (fun k =>
        (B.keepLegal ms).bind fun rest =>
          some (if (B.apply (B.filled m)).attacked k B.turn.other then rest
            else B.filled m :: rest)) = some L := h
    obtain ⟨k, -, hrest⟩ := Option.bind_eq_some_iff.mp hstep
    obtain ⟨rest, hms, heq⟩ := Option.bind_eq_some_iff.mp hrest
    have hsub := ih hms
    rw [← Option.some.inj heq, List.map_cons]
    split_ifs
    · exact hsub.cons _
    · exact hsub.cons_cons _

/-- The legal moves differ from each other in more than their marks. -/
theorem Sound.nodup_core (hS : B.Sound) {L : List Move} (hL : B.legalMoves = some L) :
    (L.map core).Nodup := by
  obtain ⟨K, L', hK, hL', hcore⟩ := hS.legalMoves
  obtain rfl : L' = L := Option.some.inj (hL'.symm.trans hL)
  rw [hcore]
  refine ((keepLegal_sublist hK).map core).nodup ?_
  rw [List.map_map]
  refine nodup_candidates.map_on fun m hm n hn heq => ?_
  obtain ⟨p, -, -, hm⟩ := mem_candidates.mp hm
  obtain ⟨q, -, -, hn⟩ := mem_candidates.mp hn
  obtain ⟨hm1, hm2, hm3⟩ := blank_of_movesOf hm
  obtain ⟨hn1, hn2, hn3⟩ := blank_of_movesOf hn
  obtain ⟨mf, md, mp, mc, mpr, mca, me, mg, mm⟩ := m
  obtain ⟨nf, nd, np, nc, npr, nca, ne, ng, nm⟩ := n
  simp only [Function.comp_apply, core, filled, Move.mk.injEq] at heq hm1 hm2 hm3 hn1 hn2 hn3 ⊢
  simp [heq, hm1, hm2, hm3, hn1, hn2, hn3]

/-- Where a legal move comes from: a generated move with the same core. -/
theorem Sound.generated (hS : B.Sound) {L : List Move} (hL : B.legalMoves = some L) (hm : m ∈ L) :
    ∃ p m₀, B.squares.get m.frm = some p ∧ p.color = B.turn ∧ m₀ ∈ B.movesOf m.frm p ∧
      core m = core (B.filled m₀) := by
  obtain ⟨m₀, hcand, -, heq⟩ := hS.of_legalMoves hL hm
  obtain ⟨p, hp, hown, hmoves⟩ := mem_candidates.mp hcand
  have hfrm := congrArg Move.frm heq
  change m.frm = m₀.frm at hfrm
  exact ⟨p, m₀, hfrm ▸ hp, hown, hfrm ▸ hmoves, heq⟩

/-- From one square, destination, promotion and capture flag name the move. -/
theorem eq_of_movesOf {n : Move} (hm : m ∈ B.movesOf i p) (hn : n ∈ B.movesOf i p)
    (hcm : m.castle = none) (hcn : n.castle = none) (hdest : m.dest = n.dest)
    (hpr : m.promotion = n.promotion) (hcap : m.capture = n.capture) : m = n := by
  have hcastle : ∀ {x : Move}, x.castle = none → x ∉ B.castlingMoves i := by
    intro x hx h
    obtain ⟨-, -, w, -, -, -, rfl⟩ := mem_castlingMoves.mp h
    cases hx
  rcases movesOf_cases hm with ⟨hk, t, ht⟩ | ⟨hk, hm⟩ | ⟨hk, hm⟩ | ⟨-, hm⟩
  · rcases movesOf_cases hn with ⟨-, u, hu⟩ | ⟨hk', -⟩ | ⟨hk', -⟩ | ⟨-, hn⟩
    · obtain ⟨-, rfl⟩ := mem_arrivals.mp ht
      obtain ⟨-, rfl⟩ := mem_arrivals.mp hu
      obtain rfl : t = u := hdest
      rfl
    · exact absurd hk' hk
    · exact absurd hk' hk
    · exact absurd hn (hcastle hcn)
  · obtain ⟨t, pr, -, -, rfl⟩ := mem_pawnPushes.mp hm
    rcases movesOf_cases hn with ⟨hk', -⟩ | ⟨-, hn⟩ | ⟨-, hn⟩ | ⟨-, hn⟩
    · exact absurd hk hk'
    · obtain ⟨u, pr', -, -, rfl⟩ := mem_pawnPushes.mp hn
      obtain rfl : t = u := hdest
      obtain rfl : pr = pr' := hpr
      rfl
    · obtain ⟨u, pr', -, -, -, rfl⟩ := mem_pawnTakes.mp hn
      cases hcap
    · exact absurd hn (hcastle hcn)
  · obtain ⟨t, pr, -, -, -, rfl⟩ := mem_pawnTakes.mp hm
    rcases movesOf_cases hn with ⟨hk', -⟩ | ⟨-, hn⟩ | ⟨-, hn⟩ | ⟨-, hn⟩
    · exact absurd hk hk'
    · obtain ⟨u, pr', -, -, rfl⟩ := mem_pawnPushes.mp hn
      cases hcap
    · obtain ⟨u, pr', -, -, -, rfl⟩ := mem_pawnTakes.mp hn
      obtain rfl : t = u := hdest
      obtain rfl : pr = pr' := hpr
      rfl
    · exact absurd hn (hcastle hcn)
  · exact absurd hm (hcastle hcm)

/-- Two pawn moves to one square come from one square: a capture by its file,
and a double step only over a square no pawn stands on. -/
theorem source_of_pawns {n : Move} {j : Fin 64} {q : Piece} (hkp : p.kind = .pawn)
    (hkq : q.kind = .pawn) (hi : B.squares.get i = some p) (hj : B.squares.get j = some q)
    (hm : m ∈ B.movesOf i p) (hn : n ∈ B.movesOf j q) (hdest : m.dest = n.dest)
    (hcap : m.capture = n.capture)
    (hfile : m.capture = true → (square i).file = (square j).file) : i = j := by
  have hpush : ∀ {i j t : Fin 64} {p : Piece}, B.squares.get i = some p →
      (square t).y = (square i).y + B.turn.forward → (square t).x = (square i).x →
      (square t).y = (square j).y + 2 * B.turn.forward → (square t).x = (square j).x →
      B.squares.toBoard.get (square j).x ((square j).y + B.turn.forward) ≠ none := by
    intro i j t p hi hyi hxi hyj hxj
    have hsq : sqAt (square j).x ((square j).y + B.turn.forward) = some (square i) :=
      sqAt_eq_some.mpr ⟨by omega, by omega⟩
    rw [Placement.get_of_sqAt hsq, B.squares.toBoard_square, hi]
    simp
  unfold movesOf at hm hn
  rw [hkp] at hm
  rw [hkq] at hn
  rcases List.mem_append.mp hm with hm | hm
  · obtain ⟨t, pr, hadv, -, rfl⟩ := mem_pawnPushes.mp hm
    rcases List.mem_append.mp hn with hn | hn
    · obtain ⟨u, pr', hadv', -, rfl⟩ := mem_pawnPushes.mp hn
      obtain rfl : t = u := hdest
      rcases hadv with ⟨hx, hy, -⟩ | ⟨hx, hy, -, hget, -⟩ <;>
        rcases hadv' with ⟨hx', hy', -⟩ | ⟨hx', hy', -, hget', -⟩
      · exact square_injective (Square.ext_xy (by omega) (by omega))
      · exact absurd hget' (hpush hi hy hx hy' hx')
      · exact absurd hget (hpush hj hy' hx' hy hx)
      · exact square_injective (Square.ext_xy (by omega) (by omega))
    · obtain ⟨u, pr', -, -, -, rfl⟩ := mem_pawnTakes.mp hn
      cases hcap
  · obtain ⟨t, pr, hd, -, -, rfl⟩ := mem_pawnTakes.mp hm
    rcases List.mem_append.mp hn with hn | hn
    · obtain ⟨u, pr', -, -, rfl⟩ := mem_pawnPushes.mp hn
      cases hcap
    · obtain ⟨u, pr', hd', -, -, rfl⟩ := mem_pawnTakes.mp hn
      obtain rfl : t = u := hdest
      have hx : (square i).x = (square j).x := by
        rw [Square.x, Square.x, hfile rfl]
      simp only [pawnCaptures, List.mem_cons, List.not_mem_nil, or_false, Prod.mk.injEq] at hd hd'
      exact square_injective (Square.ext_xy hx (by omega))

end Board
end Pgn
end OpenChess
