import OpenChess.Chess.Mirror
import OpenChess.Tools.LegalMovesExact

/-!
# Laws of the legal-moves runtime

Attack generation and move generation are separate code; they are tied by
putting an enemy piece on the square in question. The tables that depend on the
colour are tied by the colour mirror, which the whole move core commutes with.
-/

namespace OpenChess

variable {occ : Placement} {sq t k : Square} {side : Color} {tok : Piece}

/-! ### Replacing the covered square -/

/-- A ray does not look at the square it ends on. -/
theorem Ray.update {b : Placement} {s t : Square} {d : Delta} (hd : d ∈ straight ++ diagonal)
    (h : Ray b s d t) (cell : Option Piece) : Ray (Function.update b t cell) s d t := by
  obtain ⟨n, hn, hx, hy, hfree⟩ := h
  refine ⟨n, hn, hx, hy, fun m hm hmn => ?_⟩
  obtain ⟨q, hqx, hqy⟩ := exists_between (m := m) hd hx hy hmn.le
  have hne : q ≠ t := by
    rintro rfl
    obtain ⟨h1, h2, h0⟩ := unit_of_mem hd
    rcases h1 with h1 | h1 | h1 <;> rcases h2 with h2 | h2 | h2 <;>
      simp only [h1, h2, ne_eq, not_true_eq_false, or_self] at hx hy hqx hqy h0 <;> omega
  have hempty := hfree m hm hmn
  rw [← hqx, ← hqy, Placement.get_xy] at hempty ⊢
  rwa [Function.update_of_ne hne]

theorem Covers.update (h : Covers occ tok sq t) (cell : Option Piece) :
    Covers (Function.update occ t cell) tok sq t := by
  rcases h with hleap | ⟨d, hd, hray⟩
  · exact .inl hleap
  · exact .inr ⟨d, hd, hray.update (slides_subset tok hd) cell⟩

theorem covers_update (cell : Option Piece) :
    Covers (Function.update occ t cell) tok sq t ↔ Covers occ tok sq t := by
  constructor
  · intro h
    have hback := h.update (occ t)
    rwa [Function.update_idem, Function.update_eq_self] at hback
  · intro h
    exact h.update cell

theorem reaches_iff_covers {q : Piece} (hq : occ t = some q) (hne : q.color ≠ tok.color) :
    Reaches occ tok sq t ↔ Covers occ tok sq t := by
  constructor
  · intro h
    exact h.covers hq
  · intro h
    unfold Reaches
    split_ifs with hp
    · have hd : (t.x - sq.x, t.y - sq.y) ∈ pawnCaptures tok.color := by
        simpa [Covers, Piece.leaps, Piece.slides, hp] using h
      exact .inr (.inr ⟨hd, q, hq, hne⟩)
    · refine ⟨h, fun q' hq' => ?_⟩
      rw [hq, Option.some.injEq] at hq'
      rwa [← hq']

namespace LegalMoves

/-! ### Attack as hypothetical capture -/

/-- With an enemy piece other than the king put on `t`, another piece may
capture there exactly if it covers `t` now. -/
theorem mem_pseudoTargets_update {kind : Kind} (hkind : kind ≠ .king) (hsq : occ sq = some tok)
    (hne : sq ≠ t) :
    t ∈ pseudoTargets (Function.update occ t (some ⟨tok.color.other, kind⟩)) sq ↔
      Covers occ tok sq t := by
  have hsource : Function.update occ t (some ⟨tok.color.other, kind⟩) sq = some tok := by
    rw [Function.update_of_ne hne, hsq]
  have htarget : Function.update occ t (some ⟨tok.color.other, kind⟩) t =
      some ⟨tok.color.other, kind⟩ := Function.update_self ..
  rw [mem_pseudoTargets hsource, reaches_iff_covers htarget (Color.other_ne _), covers_update,
    htarget, and_iff_left_iff_imp]
  intro _ heq
  exact hkind (congrArg Piece.kind (Option.some.inj heq))

/-- A square is attacked by a side exactly if, with an enemy piece other than
the king put there, some piece of that side standing elsewhere could capture it. -/
theorem attack_is_hypothetical_capture (occ : Placement) (t : Square) (side : Color) (kind : Kind)
    (hkind : kind ≠ .king) :
    t ∈ attackedSquares occ side ↔
      ∃ sq tok, sq ≠ t ∧ occ sq = some tok ∧ tok.color = side ∧
        t ∈ pseudoTargets (Function.update occ t (some ⟨side.other, kind⟩)) sq := by
  rw [mem_attackedSquares]
  constructor
  · rintro ⟨sq, tok, hsq, rfl, hcov⟩
    have hne := hcov.ne
    exact ⟨sq, tok, hne, hsq, rfl, (mem_pseudoTargets_update hkind hsq hne).mpr hcov⟩
  · rintro ⟨sq, tok, hne, hsq, rfl, hmem⟩
    exact ⟨sq, tok, hsq, rfl, (mem_pseudoTargets_update hkind hsq hne).mp hmem⟩

/-- A lone white pawn on e4. -/
def lonePawn : Placement := fun s => if s = ⟨4, 3⟩ then some ⟨.white, .pawn⟩ else none

theorem attack_is_hypothetical_capture_pawn :
    ∃ sq tok, sq ≠ ⟨3, 4⟩ ∧ lonePawn sq = some tok ∧ tok.color = .white ∧
      ⟨3, 4⟩ ∈ pseudoTargets (Function.update lonePawn ⟨3, 4⟩ (some ⟨.black, .queen⟩)) sq :=
  (attack_is_hypothetical_capture lonePawn ⟨3, 4⟩ .white .queen (by decide)).mp
    (by decide +kernel)

/-! ### The mirrored state -/

def State.mirror (s : State) : State := ⟨s.occupied.mirror, s.sideToMove.other⟩

theorem State.Valid.mirror {s : State} (h : s.Valid) : s.mirror.Valid := by
  intro side
  obtain ⟨k, hk⟩ := length_squaresOf_king.mp (h side.other)
  have hm := hk.mirror
  rw [Color.other_other] at hm
  exact length_squaresOf_king.mpr ⟨_, hm⟩

def ValidState.mirror (s : ValidState) : ValidState := ⟨s.toState.mirror, s.valid.mirror⟩

def Move.mirror (m : Move) : Move := ⟨m.fromSquare.mirror, m.toSquare.mirror, m.promotion⟩

@[simp] theorem Move.mirror_mirror (m : Move) : m.mirror.mirror = m := by simp [Move.mirror]

@[simp] theorem promoting_mirror (tok : Piece) (t : Square) :
    promoting tok.mirror t.mirror = promoting tok t := by
  have hrank : t.mirror.y = promoRank tok.color.other ↔ t.y = promoRank tok.color := by
    rw [Square.mirror_y]
    cases tok.color <;> simp only [promoRank, Color.other] <;> omega
  simp only [promoting, Piece.mirror_kind, Piece.mirror_color, hrank]

@[simp] theorem promotions_mirror (tok : Piece) (t : Square) :
    promotions tok.mirror t.mirror = promotions tok t := by
  simp only [promotions, promoting_mirror]

theorem placedPiece_mirror (tok : Piece) (promotion : Option Kind) :
    placedPiece tok.mirror promotion = (placedPiece tok promotion).mirror := by
  cases promotion <;> rfl

theorem mem_pseudoTargets_mirror (hsq : occ sq = some tok) :
    t.mirror ∈ pseudoTargets occ.mirror sq.mirror ↔ t ∈ pseudoTargets occ sq := by
  rw [mem_pseudoTargets hsq, mem_pseudoTargets (Placement.mirror_eq_some.mpr hsq), reaches_mirror,
    Piece.mirror_color, ← king_mirror, ne_eq, Placement.mirror_eq_some]

theorem applyOccupancy_mirror (occ : Placement) (m : Move) :
    applyOccupancy occ.mirror m.mirror = (applyOccupancy occ m).mirror := by
  cases h : occ m.fromSquare with
  | none => simp [applyOccupancy, Move.mirror, h]
  | some tok =>
    have hm : occ.mirror m.fromSquare.mirror = some tok.mirror := Placement.mirror_eq_some.mpr h
    simp only [applyOccupancy, Move.mirror, h, hm, placedPiece_mirror, relocate_mirror]

theorem inCheck_mirror (h : KingAt occ side k) :
    inCheck occ.mirror side.other = inCheck occ side := by
  rw [Bool.eq_iff_iff, inCheck_iff h.mirror, inCheck_iff h, attacked_mirror]

/-! ### Legal moves of the mirrored state -/

theorem Candidate.mirror {s : State} {m : Move} (h : Candidate s m tok) :
    Candidate s.mirror m.mirror tok.mirror where
  source := Placement.mirror_eq_some.mpr h.source
  own := congrArg Color.other h.own
  target := (mem_pseudoTargets_mirror h.source).mpr h.target
  promotion := by
    rw [Move.mirror, promotions_mirror]
    exact h.promotion

/-- The king test of a candidate is a check test on the successor, which the
mirror preserves. -/
theorem Candidate.leavesKingSafe_mirror {s : State} {m : Move} (h : Candidate s m tok)
    (hs : s.Valid) : leavesKingSafe s.mirror.occupied m.mirror s.mirror.sideToMove =
      leavesKingSafe s.occupied m s.sideToMove := by
  obtain ⟨k, hk⟩ := length_squaresOf_king.mp (hs s.sideToMove)
  rw [Bool.eq_iff_iff, h.mirror.leavesKingSafe_iff hs.mirror, h.leavesKingSafe_iff hs]
  simp only [State.mirror, applyOccupancy_mirror, inCheck_mirror (h.kingAt hk)]

theorem mirror_mem_legalMoves {s : State} (hs : s.Valid) {m : Move} (h : m ∈ legalMoves s) :
    m.mirror ∈ legalMoves s.mirror := by
  obtain ⟨⟨tok, hcand⟩, hsafe⟩ := mem_legalMoves.mp h
  exact mem_legalMoves.mpr ⟨⟨_, hcand.mirror⟩, (hcand.leavesKingSafe_mirror hs).trans hsafe⟩

@[simp] theorem State.mirror_mirror (s : State) : s.mirror.mirror = s := by simp [State.mirror]

theorem mem_legalMoves_mirror {s : State} (hs : s.Valid) {m : Move} :
    m ∈ legalMoves s.mirror ↔ m.mirror ∈ legalMoves s := by
  constructor
  · intro h
    simpa using mirror_mem_legalMoves hs.mirror h
  · intro h
    simpa using mirror_mem_legalMoves hs h

theorem terminalStatus_mirror (s : ValidState) : terminalStatus s.mirror = terminalStatus s := by
  obtain ⟨k, hk⟩ := s.kingAt s.sideToMove
  have hzero : (legalMoves s.mirror.toState).length = 0 ↔ (legalMoves s.toState).length = 0 := by
    simp only [List.length_eq_zero_iff, List.eq_nil_iff_forall_not_mem]
    constructor
    · intro h m hm
      exact h m.mirror (mirror_mem_legalMoves s.valid hm)
    · intro h m hm
      exact h m.mirror ((mem_legalMoves_mirror s.valid).mp hm)
  have hcheck : inCheck s.mirror.occupied s.mirror.sideToMove =
      inCheck s.occupied s.sideToMove := inCheck_mirror hk
  simp only [terminalStatus, hcheck, hzero]

/-! ### The mirrored move object -/

/-- A member naming a square names the mirrored square; any other is kept. -/
def mirrorMember (member : Member) : Member :=
  match grammarOk (some member) with
  | some sq => .scalar (.str sq.mirror.name)
  | none => member

def mirrorEntry (k : Scalar) (members : PyDict Member) : PyDict Member :=
  match members.lookup k with
  | some member => members.insert k (mirrorMember member)
  | none => members

/-- The move dictionary with both squares mirrored. -/
def mirrorObject : Object → Object
  | .mapping members =>
    .mapping (mirrorEntry (key "from_square") (mirrorEntry (key "to_square") members))
  | .foreign tag => .foreign tag

theorem grammarOk_mirrorMember (member : Option Member) :
    grammarOk (member.map mirrorMember) = (grammarOk member).map Square.mirror := by
  cases member with
  | none => rfl
  | some member =>
    cases h : grammarOk (some member) with
    | none => simp [mirrorMember, h]
    | some sq =>
      rw [Option.map_some, Option.map_some, grammarOk_eq_some, mirrorMember, h]

theorem lookup_mirrorEntry (k : Scalar) (members : PyDict Member) :
    (mirrorEntry k members).lookup k = (members.lookup k).map mirrorMember := by
  unfold mirrorEntry
  cases h : members.lookup k with
  | none => exact h
  | some member => exact Finmap.lookup_insert ..

theorem lookup_mirrorEntry_ne {k k' : Scalar} (h : k' ≠ k) (members : PyDict Member) :
    (mirrorEntry k members).lookup k' = members.lookup k' := by
  unfold mirrorEntry
  split
  · exact Finmap.lookup_insert_of_ne _ h
  · rfl

theorem keys_mirrorEntry (k : Scalar) (members : PyDict Member) :
    (mirrorEntry k members).keys = members.keys := by
  ext k'
  rw [Finmap.mem_keys, Finmap.mem_keys, ← Finmap.lookup_isSome, ← Finmap.lookup_isSome]
  by_cases h : k' = k
  · rw [h, lookup_mirrorEntry, Option.isSome_map]
  · rw [lookup_mirrorEntry_ne h]

theorem validateMoveShape_mirror (move : Object) :
    validateMoveShape (mirrorObject move) =
      (validateMoveShape move).map fun r => (r.1.mirror, r.2.1.mirror, r.2.2) := by
  obtain ⟨hft, hfp, htp⟩ := key_ne
  cases move with
  | foreign tag => rfl
  | mapping members =>
    have hkeys : (mirrorEntry (key "from_square") (mirrorEntry (key "to_square") members)).keys =
        members.keys := by rw [keys_mirrorEntry, keys_mirrorEntry]
    have hf : (mirrorEntry (key "from_square") (mirrorEntry (key "to_square") members)).lookup
        (key "from_square") = (members.lookup (key "from_square")).map mirrorMember := by
      rw [lookup_mirrorEntry, lookup_mirrorEntry_ne hft]
    have ht : (mirrorEntry (key "from_square") (mirrorEntry (key "to_square") members)).lookup
        (key "to_square") = (members.lookup (key "to_square")).map mirrorMember := by
      rw [lookup_mirrorEntry_ne hft.symm, lookup_mirrorEntry]
    have hp : (mirrorEntry (key "from_square") (mirrorEntry (key "to_square") members)).lookup
        (key "promotion") = members.lookup (key "promotion") := by
      rw [lookup_mirrorEntry_ne hfp.symm, lookup_mirrorEntry_ne htp.symm]
    simp only [mirrorObject, validateMoveShape, hkeys, hf, ht, hp, grammarOk_mirrorMember]
    split_ifs
    · rfl
    · cases hfr : grammarOk (members.lookup (key "from_square")) with
      | none => rfl
      | some fr =>
        cases hdest : grammarOk (members.lookup (key "to_square")) with
        | none => rfl
        | some dest =>
          simp only [Option.map_some, Square.mirror_inj]
          split_ifs
          · rfl
          · cases hpr : members.lookup (key "promotion") with
            | none => rfl
            | some member =>
              cases htext : member.text? with
              | none => simp only [htext]; rfl
              | some text => simp only [htext]; rfl
    · rfl
    · rfl

theorem mirrorObject_moveObject (fr dest : Square) (pr : Option Text) :
    mirrorObject (moveObject fr dest pr) = moveObject fr.mirror dest.mirror pr := by
  obtain ⟨hft, hfp, htp⟩ := key_ne
  obtain ⟨members, hm⟩ : ∃ members, moveObject fr dest pr = .mapping members := by
    cases pr <;> exact ⟨_, rfl⟩
  obtain ⟨hf, ht, hp, hkeys⟩ := lookup_moveObject.mp hm
  have hsquare : ∀ sq : Square, mirrorMember (.scalar (.str sq.name)) =
      .scalar (.str sq.mirror.name) := by
    intro sq
    have hsq : grammarOk (some (.scalar (.str sq.name))) = some sq := grammarOk_eq_some.mpr rfl
    rw [mirrorMember, hsq]
  rw [hm, mirrorObject, eq_comm, lookup_moveObject]
  refine ⟨?_, ?_, ?_, ?_⟩
  · rw [lookup_mirrorEntry, lookup_mirrorEntry_ne hft, hf, Option.map_some, hsquare]
  · rw [lookup_mirrorEntry_ne hft.symm, lookup_mirrorEntry, ht, Option.map_some, hsquare]
  · rw [lookup_mirrorEntry_ne hfp.symm, lookup_mirrorEntry_ne htp.symm, hp]
  · rwa [keys_mirrorEntry, keys_mirrorEntry]

theorem mirrorObject_toObject (m : Move) : mirrorObject m.toObject = m.mirror.toObject :=
  mirrorObject_moveObject ..

/-! ### The transition of the mirrored state -/

/-- Every check of `apply` answers alike on the mirrored side, in the same order. -/
theorem applyMove_mirror (s : ValidState) (move : Object) :
    applyMove s.mirror (mirrorObject move) = (applyMove s move).map State.mirror := by
  unfold applyMove
  rw [validateMoveShape_mirror]
  cases hshape : validateMoveShape move with
  | error e => rfl
  | ok r =>
    obtain ⟨fr, dest, promotion⟩ := r
    have hfr : s.mirror.occupied fr.mirror = (s.occupied fr).map Piece.mirror :=
      Placement.mirror_apply ..
    simp only [Except.map, hfr]
    cases htok : s.occupied fr with
    | none => rfl
    | some tok =>
      have hcolor : (tok.mirror.color ≠ s.mirror.sideToMove) = (tok.color ≠ s.sideToMove) :=
        propext (not_congr Color.other_inj)
      have htarget : (dest.mirror ∉ pseudoTargets s.mirror.occupied fr.mirror) =
          (dest ∉ pseudoTargets s.occupied fr) :=
        propext (not_congr (mem_pseudoTargets_mirror htok))
      simp only [Option.map_some, hcolor, htarget, promoting_mirror]
      split_ifs with hown hreach
      · rfl
      · cases hpr : readPromotion promotion with
        | none => rfl
        | some pr =>
          by_cases hmissing : promoting tok dest = true ∧ pr = none
          · simp only [if_pos hmissing]
          by_cases hforbidden : promoting tok dest = false ∧ pr ≠ none
          · simp only [if_neg hmissing, if_pos hforbidden]
          have hcand : Candidate s.toState ⟨fr, dest, pr⟩ tok :=
            ⟨htok, not_not.mp hown, hreach,
              mem_promotions.mpr ⟨(readPromotion_eq_some.mp hpr).2, hmissing, hforbidden⟩⟩
          have hsafe : leavesKingSafe s.mirror.occupied ⟨fr.mirror, dest.mirror, pr⟩
              s.mirror.sideToMove = leavesKingSafe s.occupied ⟨fr, dest, pr⟩ s.sideToMove :=
            hcand.leavesKingSafe_mirror s.valid
          have hocc : applyOccupancy s.mirror.occupied ⟨fr.mirror, dest.mirror, pr⟩ =
              (applyOccupancy s.occupied ⟨fr, dest, pr⟩).mirror :=
            applyOccupancy_mirror s.occupied ⟨fr, dest, pr⟩
          simp only [if_neg hmissing, if_neg hforbidden, hsafe, hocc]
          split_ifs
          · rfl
          · rfl
      · rfl

/-- Mirroring the ranks and swapping the colours maps the legal moves of a state
onto those of the mirrored one, commutes with `apply` on every move object,
refusals included, and preserves the terminal status. -/
theorem legalMoves_colour_symmetry (s : ValidState) :
    (legalMoves s.mirror.toState).toFinset = (legalMoves s.toState).toFinset.image Move.mirror ∧
    (∀ m : Move, mirrorObject m.toObject = m.mirror.toObject) ∧
    (∀ move, applyMove s.mirror (mirrorObject move) = (applyMove s move).map State.mirror) ∧
    terminalStatus s.mirror = terminalStatus s := by
  refine ⟨?_, mirrorObject_toObject, applyMove_mirror s, terminalStatus_mirror s⟩
  ext m
  have hmem : m ∈ legalMoves s.mirror.toState ↔ m.mirror ∈ legalMoves s.toState :=
    mem_legalMoves_mirror s.valid
  simp only [List.mem_toFinset, Finset.mem_image, hmem]
  constructor
  · intro h
    exact ⟨m.mirror, h, m.mirror_mirror⟩
  · rintro ⟨m', hm', rfl⟩
    rwa [Move.mirror_mirror]

end LegalMoves
end OpenChess
