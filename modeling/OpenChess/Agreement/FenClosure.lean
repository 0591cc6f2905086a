import OpenChess.Graph.EnPassantSpec
import OpenChess.Graph.Material
import OpenChess.Graph.PositionDigest
import OpenChess.Tools.CastlingRuntime
import OpenChess.Tools.LegalMovesExact
import OpenChess.Tools.TurnRuntime

/-!
# Accepted positions are closed under the shipped transitions

A move of an accepted position is played by four runtimes, each on its own
fields. The text assembled from their results is again one the parser accepts.
-/

namespace OpenChess
namespace Agreement

open Fen PositionDigest
open LegalMoves (Candidate applyOccupancy placedPiece promotions)

variable {p : Position} {m : LegalMoves.Move} {tok : Piece}

/-! ### The four results -/

def castlingState (p : Position) : CastlingRuntime.State where
  rights := emitRights p.rights
  occupied := fun sq => if sq ∈ CastlingRuntime.validSquares then p.board sq else none
  attacked := CastlingRuntime.validSquares.dedup.filter fun sq =>
    decide (sq ∈ LegalMoves.attackedSquares p.board p.color.other)
  sideToMove := p.color

def corners : List Square := CastlingRuntime.lossRook.map Prod.fst

def lossEvents (p : Position) (m : LegalMoves.Move) : List CastlingRuntime.Move :=
  (if p.board m.fromSquare = some (king p.color) then [.kingMove p.color] else []) ++
  (if m.fromSquare ∈ corners then [.rookMoveFrom m.fromSquare] else []) ++
  (if m.toSquare ∈ corners then [.rookCaptureOn m.toSquare] else [])

def isPawnMove (p : Position) (m : LegalMoves.Move) : Bool :=
  p.board m.fromSquare == some ⟨p.color, .pawn⟩

def enPassantMove (p : Position) (m : LegalMoves.Move) : EnPassant.Move :=
  ⟨if isPawnMove p m then .pawnAdvance else .quiet, m.fromSquare, m.toSquare⟩

def turnKind (p : Position) (m : LegalMoves.Move) : TurnRuntime.MoveKind :=
  if isPawnMove p m then .pawnMove
  else if p.board m.toSquare ≠ none then .capture
  else .quiet

def successorText (p : Position) (m : LegalMoves.Move) : Option Text :=
  if hvalid : LegalMoves.State.Valid ⟨p.board, p.color⟩ ∧ EnPassant.OneKing p.board then
    match LegalMoves.applyMove ⟨⟨p.board, p.color⟩, hvalid.1⟩ m.toObject,
        (lossEvents p m).foldlM CastlingRuntime.apply (castlingState p),
        EnPassant.applyMove ⟨emitEp p.ep, p.board, p.color⟩ (enPassantMove p m),
        TurnRuntime.applyMove ⟨p.color, p.half, p.full⟩ (.str (turnKind p m).text) none with
    | .ok moved, .ok castling, .ok ep, .ok turn =>
      some ([' '].intercalate [emitPlacement moved.occupied, [turn.sideToMove.letter],
        castling.rights, ep.target, Nat.toDigits 10 turn.halfmoveClock.toNat,
        Nat.toDigits 10 turn.fullmoveNumber.toNat])
    | _, _, _, _ => none
  else none

/-! ### Castling rights after loss events -/

/-- The rights an event takes. -/
def lossOf : CastlingRuntime.Move → List Right
  | .castle _ => []
  | .kingMove side => CastlingRuntime.lossKing side
  | .rookMoveFrom sq | .rookCaptureOn sq => CastlingRuntime.lossOn sq

theorem canonical_filter {rights : List Right} (h : Canonical rights) (P : Right → Bool) :
    Canonical (rights.filter P) := by
  have hsplit : Right.order.filter (fun r => decide (r ∈ rights.filter P)) =
      (Right.order.filter fun r => decide (r ∈ rights)).filter P := by
    rw [List.filter_filter]
    refine List.filter_congr fun r _ => ?_
    simp only [List.mem_filter, Bool.decide_and, Bool.decide_eq_true, Bool.and_comm]
  exact hsplit.trans (congrArg (List.filter P) h)

theorem canonical_eq {rights : List Right} (h : Canonical rights) :
    CastlingRuntime.canonical rights = emitRights rights := by
  unfold CastlingRuntime.canonical emitRights
  split_ifs
  · rfl
  · rw [h]

theorem letters_ne_dash (rights : List Right) : rights.map Right.letter ≠ ['-'] := by
  intro hmap
  have hmem : '-' ∈ rights.map Right.letter := by simp [hmap]
  obtain ⟨r, -, hr⟩ := List.mem_map.mp hmem
  exact letter_ne_dash r hr

theorem grammarOk_emitRights {rights : List Right} (h : Canonical rights) :
    CastlingRuntime.grammarOk (emitRights rights) = true := by
  unfold CastlingRuntime.grammarOk emitRights
  by_cases hnil : rights = []
  · rw [if_pos hnil, if_pos rfl]
  · rw [if_neg hnil]
    have hread : ¬ ((rights.map Right.letter).any fun c => rightOf? c == none) = true := by
      intro hbad
      obtain ⟨c, hc, hnone⟩ := List.any_eq_true.mp hbad
      rw [beq_iff_eq] at hnone
      obtain ⟨r, -, rfl⟩ := List.mem_map.mp hc
      rw [rightOf?_eq_some.mpr rfl] at hnone
      cases hnone
    have hnodup : (rights.map Right.letter).Nodup := h.nodup.map Right.letter_injective
    have horder : (Right.order.map Right.letter).filter
        (fun c => decide (c ∈ rights.map Right.letter)) = rights.map Right.letter := by
      rw [List.filter_map]
      nth_rewrite 3 [← h]
      refine congrArg _ (List.filter_congr fun r _ => ?_)
      simp only [Function.comp_apply, List.mem_map_of_injective Right.letter_injective]
    rw [if_neg (letters_ne_dash rights), if_neg (List.map_eq_nil_iff.not.mpr hnil), if_neg hread,
      if_neg (not_not.mpr hnodup)]
    exact decide_eq_true horder

theorem heldRights_emitRights (rights : List Right) :
    CastlingRuntime.heldRights (emitRights rights) = rights := by
  unfold CastlingRuntime.heldRights emitRights
  by_cases hnil : rights = []
  · rw [if_pos hnil, if_pos rfl, hnil]
  · rw [if_neg hnil, if_neg (letters_ne_dash rights), List.filterMap_map]
    have hread : (rightOf? ∘ Right.letter) = some := funext fun r => rightOf?_eq_some.mpr rfl
    rw [hread, List.filterMap_some]

/-- A loss event takes its rights and nothing else. -/
theorem apply_loss {s : CastlingRuntime.State} {e : CastlingRuntime.Move} {rights : List Right}
    (hs : s.Valid) (he : e.Valid) (hcastle : ∀ r, e ≠ .castle r) (hr : Canonical rights)
    (hrights : s.rights = emitRights rights) :
    CastlingRuntime.apply s e =
      .ok { s with rights := emitRights (rights.filter fun r => decide (r ∉ lossOf e)) } := by
  unfold CastlingRuntime.apply
  rw [if_neg (not_not.mpr hs), if_neg (not_not.mpr he), hrights, grammarOk_emitRights hr]
  simp only [Bool.true_eq_false, if_false, heldRights_emitRights]
  have hwithout : ∀ loss, CastlingRuntime.canonical (CastlingRuntime.without rights loss) =
      emitRights (rights.filter fun r => decide (r ∉ loss)) :=
    fun loss => canonical_eq (canonical_filter hr _)
  cases e with
  | castle r => exact absurd rfl (hcastle r)
  | kingMove side =>
    simp only [hwithout, lossOf]
    rfl
  | rookMoveFrom sq =>
    simp only [hwithout, lossOf]
    rfl
  | rookCaptureOn sq =>
    simp only [hwithout, lossOf]
    rfl

theorem foldlM_loss (events : List CastlingRuntime.Move) {s : CastlingRuntime.State}
    {rights : List Right} (hs : s.Valid) (hr : Canonical rights)
    (hrights : s.rights = emitRights rights)
    (hevents : ∀ e ∈ events, e.Valid ∧ ∀ r, e ≠ .castle r) :
    events.foldlM CastlingRuntime.apply s =
      .ok { s with
        rights := emitRights (rights.filter fun r => decide (r ∉ events.flatMap lossOf)) } := by
  induction events generalizing s rights with
  | nil =>
    rw [List.foldlM_nil, List.flatMap_nil]
    simp only [List.not_mem_nil, not_false_eq_true, decide_true, List.filter_true, ← hrights]
    rfl
  | cons e events ih =>
    obtain ⟨he, hcastle⟩ := hevents e List.mem_cons_self
    rw [List.foldlM_cons, apply_loss hs he hcastle hr hrights]
    have hnext := ih
      (s := { s with rights := emitRights (rights.filter fun r => decide (r ∉ lossOf e)) })
      ⟨hs.occupied, hs.attacked, hs.nodup⟩ (canonical_filter hr _) rfl
      fun e' he' => hevents e' (List.mem_cons_of_mem _ he')
    refine hnext.trans ?_
    simp only [List.filter_filter, List.flatMap_cons, List.mem_append, not_or, Bool.decide_and,
      Bool.and_comm]

theorem castlingState_valid (p : Position) : (castlingState p).Valid := by
  refine ⟨fun sq hsq => ?_, fun sq hsq => ?_, ?_⟩
  · simp only [castlingState] at hsq
    by_contra hout
    rw [if_neg hout] at hsq
    exact hsq rfl
  · simp only [castlingState] at hsq
    exact List.mem_dedup.mp (List.mem_of_mem_filter hsq)
  · simp only [castlingState]
    exact List.Nodup.filter _ (List.nodup_dedup _)

theorem lossEvents_valid (p : Position) (m : LegalMoves.Move) :
    ∀ e ∈ lossEvents p m, e.Valid ∧ ∀ r, e ≠ .castle r := by
  intro e he
  simp only [lossEvents, List.mem_append, List.mem_ite_nil_right, List.mem_singleton] at he
  rcases he with (⟨-, rfl⟩ | ⟨hcorner, rfl⟩) | ⟨hcorner, rfl⟩
  · exact ⟨trivial, fun r hr => by cases hr⟩
  · exact ⟨hcorner, fun r hr => by cases hr⟩
  · exact ⟨hcorner, fun r hr => by cases hr⟩

/-! ### The next position -/

def rightsAfter (p : Position) (m : LegalMoves.Move) : List Right :=
  p.rights.filter fun r => decide (r ∉ (lossEvents p m).flatMap lossOf)

/-- The target of a two-square pawn advance. -/
def targetAfter (p : Position) (m : LegalMoves.Move) : Option Square :=
  if isPawnMove p m ∧ m.fromSquare.file = m.toSquare.file ∧
      m.fromSquare.rank = (setOn p.color).fromRank ∧ m.toSquare.rank = (setOn p.color).toRank then
    some ⟨m.toSquare.file, (setOn p.color).targetRank⟩
  else none

def successor (p : Position) (m : LegalMoves.Move) : Position where
  board := applyOccupancy p.board m
  color := p.color.other
  rights := rightsAfter p m
  ep := targetAfter p m
  half := if turnKind p m = .quiet then p.half + 1 else 0
  full := if p.color = .black then p.full + 1 else p.full

theorem legalState_valid (h : LegalPosition p) : LegalMoves.State.Valid ⟨p.board, p.color⟩ :=
  fun c => length_squaresOf_king.mpr (exists_king h c)

theorem isPawnMove_eq (h : Candidate ⟨p.board, p.color⟩ m tok) :
    isPawnMove p m = true ↔ tok.kind = .pawn := by
  have hown : tok.color = p.color := h.own
  have hsource : p.board m.fromSquare = some tok := h.source
  rw [isPawnMove, hsource, beq_iff_eq, Option.some.injEq]
  constructor
  · intro hp
    rw [hp]
  · intro hp
    rw [← hown, ← hp]

theorem enPassant_applyMove (h : Candidate ⟨p.board, p.color⟩ m tok) (target : Text) :
    ∃ s, EnPassant.applyMove ⟨target, p.board, p.color⟩ (enPassantMove p m) = .ok s ∧
      s.target = emitEp (targetAfter p m) := by
  have hpawn := isPawnMove_eq h
  have hsource : p.board m.fromSquare = some tok := h.source
  unfold EnPassant.applyMove enPassantMove targetAfter
  by_cases hp : isPawnMove p m = true
  · simp only [hp, if_true, hsource, true_and]
    refine ⟨_, rfl, ?_⟩
    simp only [EnPassant.newTarget, hpawn.mp hp, true_and]
    split_ifs <;> rfl
  · rw [Bool.not_eq_true] at hp
    simp only [hp, Bool.false_eq_true, if_false, hsource, false_and]
    exact ⟨_, rfl, rfl⟩

theorem successorText_eq (h : Accepted p) (hm : m ∈ LegalMoves.legalMoves ⟨p.board, p.color⟩) :
    successorText p m = some (fenText (successor p m)) := by
  obtain ⟨⟨tok, hcand⟩, -⟩ := LegalMoves.mem_legalMoves.mp hm
  have hvalid := legalState_valid h.legal
  obtain ⟨ep, hep, htarget⟩ := enPassant_applyMove hcand (emitEp p.ep)
  have hmoved : LegalMoves.applyMove ⟨⟨p.board, p.color⟩, hvalid⟩ m.toObject =
      .ok ⟨LegalMoves.applyOccupancy p.board m, p.color⟩ :=
    LegalMoves.applyMove_eq_ok.mpr ⟨m, hm, rfl, rfl⟩
  have hcastling := foldlM_loss (lossEvents p m) (castlingState_valid p) h.wellFormed.rights rfl
    (lossEvents_valid p m)
  have hturnValid : TurnRuntime.State.Valid ⟨p.color, p.half, p.full⟩ := by
    have hfull := h.wellFormed.fullPos
    exact ⟨Int.natCast_nonneg _, by simpa using hfull⟩
  have hturn := TurnRuntime.applyMove_kind hturnValid (turnKind p m)
  have hhalf : (TurnRuntime.State.next ⟨p.color, p.half, p.full⟩
      (turnKind p m)).halfmoveClock.toNat = (successor p m).half := by
    simp only [TurnRuntime.State.next, successor]
    cases turnKind p m <;> simp [TurnRuntime.resetWhen]
  have hfull : (TurnRuntime.State.next ⟨p.color, p.half, p.full⟩
      (turnKind p m)).fullmoveNumber.toNat = (successor p m).full := by
    simp only [TurnRuntime.State.next, successor]
    split_ifs <;> omega
  unfold successorText
  rw [dif_pos ⟨hvalid, hvalid⟩, hmoved, hcastling, hep, hturn]
  simp only [hhalf, hfull, htarget]
  rfl

/-! ### The next position is accepted -/

theorem arrives (h : Candidate ⟨p.board, p.color⟩ m tok) :
    Arrives tok (placedPiece tok m.promotion) := by
  have hpromotion := h.promotion
  unfold promotions at hpromotion
  split_ifs at hpromotion with hp
  · have hpawn : tok.kind = .pawn := (of_decide_eq_true hp).1
    obtain ⟨k, hk, hpr⟩ := List.mem_map.mp hpromotion
    rw [← hpr]
    exact .inr ⟨hpawn, rfl, hk⟩
  · rw [List.mem_singleton.mp hpromotion]
    exact .inl rfl

theorem attacked_of_adjacent {b : Placement} {c d : Color} {k l : Square} (hcd : c ≠ d)
    (hk : KingAt b c k) (hl : KingAt b d l) (hnear : max |l.x - k.x| |l.y - k.y| ≤ 1) :
    Attacked b d k := by
  have hne : k ≠ l := by
    intro hkl
    have hpiece := hk.apply.symm.trans (hkl ▸ hl.apply)
    exact hcd (congrArg Piece.color (Option.some.inj hpiece))
  refine ⟨l, king d, hl.apply, rfl, .inl ?_⟩
  have hleap : (-(l.x - k.x), -(l.y - k.y)) ∈ kingLeaps := by
    rw [← EnPassant.king_iff]
    refine le_antisymm hnear ?_
    by_contra hlt
    have hx := abs_nonpos_iff.mp (by omega : |l.x - k.x| ≤ 0)
    have hy := abs_nonpos_iff.mp (by omega : |l.y - k.y| ≤ 0)
    exact hne (Square.ext_xy (by omega) (by omega))
  rw [neg_sub, neg_sub] at hleap
  exact hleap

theorem safe_of_legal (h : LegalPosition p) (hcand : Candidate ⟨p.board, p.color⟩ m tok)
    (hsafe : LegalMoves.leavesKingSafe p.board m p.color = true) {k : Square}
    (hk : KingAt (applyOccupancy p.board m) p.color k) :
    ¬ Attacked (applyOccupancy p.board m) p.color.other k := by
  have hcheck := (hcand.leavesKingSafe_iff (legalState_valid h)).mp hsafe
  rw [← Bool.not_eq_true, LegalMoves.inCheck_iff hk] at hcheck
  exact hcheck

theorem kings_after (h : LegalPosition p) (hcand : Candidate ⟨p.board, p.color⟩ m tok)
    (hsafe : LegalMoves.leavesKingSafe p.board m p.color = true) :
    ∃ wk bk, KingAt (applyOccupancy p.board m) .white wk ∧
      KingAt (applyOccupancy p.board m) .black bk ∧ 1 < max |wk.x - bk.x| |wk.y - bk.y| := by
  obtain ⟨wk, bk, hw, hb, -⟩ := h.kings
  have hsafe' := fun k => safe_of_legal (k := k) h hcand hsafe
  have hw' := hcand.kingAt hw
  have hb' := hcand.kingAt hb
  refine ⟨_, _, hw', hb', ?_⟩
  by_contra hnear
  rw [not_lt] at hnear
  cases hcolor : p.color with
  | white =>
    rw [hcolor] at hsafe'
    rw [abs_sub_comm, abs_sub_comm (Square.y _)] at hnear
    exact hsafe' _ hw' (attacked_of_adjacent (by decide) hw' hb' hnear)
  | black =>
    rw [hcolor] at hsafe'
    exact hsafe' _ hb' (attacked_of_adjacent (by decide) hb' hw' hnear)

theorem pawnReaches (h : Candidate ⟨p.board, p.color⟩ m tok) (hp : tok.kind = .pawn) :
    PawnReaches p.board p.color m.fromSquare m.toSquare := by
  have hreaches := h.reaches
  unfold Reaches at hreaches
  rw [if_pos hp, h.own] at hreaches
  exact hreaches

theorem rank_of_pawn (h : Candidate ⟨p.board, p.color⟩ m tok) (hlegal : LegalPosition p)
    (hp : (placedPiece tok m.promotion).kind = .pawn) :
    m.toSquare.rank ≠ 0 ∧ m.toSquare.rank ≠ 7 := by
  have hpromotion := h.promotion
  unfold promotions at hpromotion
  split_ifs at hpromotion with hpromoting
  · obtain ⟨k, hk, hpr⟩ := List.mem_map.mp hpromotion
    rw [← hpr] at hp
    simp only [placedPiece] at hp
    rw [hp] at hk
    exact absurd hk (by decide)
  · rw [List.mem_singleton.mp hpromotion] at hp
    have hown : tok.color = p.color := h.own
    have hsource := hlegal.backRank _ tok h.source hp
    have hmove := pawnReaches h hp
    have hlast : m.toSquare.y ≠ LegalMoves.promoRank p.color := by
      intro hy
      exact hpromoting (decide_eq_true ⟨hp, hown ▸ hy⟩)
    have hforward : p.color.forward = 1 ∧ LegalMoves.promoRank p.color = 7 ∨
        p.color.forward = -1 ∧ LegalMoves.promoRank p.color = 0 := by
      cases p.color
      · exact .inl ⟨rfl, rfl⟩
      · exact .inr ⟨rfl, rfl⟩
    have hdelta : m.toSquare.y = m.fromSquare.y + p.color.forward ∨
        m.toSquare.y = m.fromSquare.y + 2 * p.color.forward := by
      rcases hmove with hstep | hdouble | ⟨hcapture, -⟩
      · exact .inl hstep.2.1
      · exact .inr hdouble.2.1
      · simp only [pawnCaptures, List.mem_cons, List.not_mem_nil, or_false, Prod.mk.injEq]
          at hcapture
        left
        omega
    have hfrom : m.fromSquare.y ≠ 0 ∧ m.fromSquare.y ≠ 7 := by
      simp only [Square.y, ne_eq, Fin.ext_iff] at hsource ⊢
      exact ⟨fun hy => hsource.1 (by simpa using hy), fun hy => hsource.2 (by
        simpa using (by exact_mod_cast hy : m.fromSquare.rank.val = 7))⟩
    have hbounds := m.toSquare.bounds
    have hfromBounds := m.fromSquare.bounds
    have hto : m.toSquare.y ≠ 0 ∧ m.toSquare.y ≠ 7 := by omega
    simp only [Square.y] at hto
    refine ⟨fun hr => hto.1 ?_, fun hr => hto.2 ?_⟩
    · rw [hr]
      rfl
    · rw [hr]
      rfl

theorem homes_after (h : LegalPosition p) (hcand : Candidate ⟨p.board, p.color⟩ m tok)
    {r : Right} (hr : r ∈ rightsAfter p m) :
    applyOccupancy p.board m (homeSquares r).king = some (king r.color) ∧
      applyOccupancy p.board m (homeSquares r).rook = some ⟨r.color, .rook⟩ := by
  obtain ⟨hheld, hkept⟩ := List.mem_filter.mp hr
  obtain ⟨hking, hrook⟩ := h.homes r hheld
  have hsource : p.board m.fromSquare = some tok := hcand.source
  have hown : tok.color = p.color := hcand.own
  have hkept := of_decide_eq_true hkept
  simp only [lossEvents, List.flatMap_append, List.mem_append, not_or] at hkept
  obtain ⟨⟨hkingMove, hfrom⟩, hto⟩ := hkept
  have hcorner : (homeSquares r).rook ∈ corners ∧
      r ∈ CastlingRuntime.lossOn (homeSquares r).rook := by
    cases r <;> decide
  have hkingLoss : r ∈ CastlingRuntime.lossKing r.color := by cases r <;> decide
  have hkingFrom : (homeSquares r).king ≠ m.fromSquare := by
    intro heq
    rw [heq, hsource, Option.some.injEq] at hking
    have hcolor : r.color = p.color := by rw [← hown, hking]; rfl
    rw [hsource, if_pos (by rw [hking, hcolor])] at hkingMove
    exact hkingMove (by simpa [lossOf, ← hcolor] using hkingLoss)
  have hkingTo : (homeSquares r).king ≠ m.toSquare := by
    intro heq
    exact hcand.target_ne_king r.color (heq ▸ hking)
  have hrookFrom : (homeSquares r).rook ≠ m.fromSquare := by
    intro heq
    rw [← heq, if_pos hcorner.1] at hfrom
    exact hfrom (by simpa [lossOf] using hcorner.2)
  have hrookTo : (homeSquares r).rook ≠ m.toSquare := by
    intro heq
    rw [← heq, if_pos hcorner.1] at hto
    exact hto (by simpa [lossOf] using hcorner.2)
  rw [hcand.applyOccupancy_eq]
  exact ⟨(relocate_other hkingFrom hkingTo).trans hking,
    (relocate_other hrookFrom hrookTo).trans hrook⟩

theorem targetAfter_eq_some {s : Square} (h : targetAfter p m = some s) :
    isPawnMove p m = true ∧ m.fromSquare = ⟨s.file, (setOn p.color).fromRank⟩ ∧
      m.toSquare = ⟨s.file, (setOn p.color).toRank⟩ ∧ s.rank = (setOn p.color).targetRank := by
  unfold targetAfter at h
  split_ifs at h with hdouble
  obtain ⟨hpawn, hfile, hfrom, hto⟩ := hdouble
  cases h
  refine ⟨hpawn, ?_, ?_, rfl⟩
  · rw [← hfile, ← hfrom]
  · rw [← hto]

theorem epRules_after (hcand : Candidate ⟨p.board, p.color⟩ m tok) {s : Square}
    (hs : targetAfter p m = some s) : EpRules (successor p m) s := by
  obtain ⟨hpawn, hfrom, hto, hrank⟩ := targetAfter_eq_some hs
  have hkind := (isPawnMove_eq hcand).mp hpawn
  have hown : tok.color = p.color := hcand.own
  have hside : advancer s = p.color := by
    unfold advancer
    rw [hrank]
    cases p.color <;> rfl
  have hboard := hcand.applyOccupancy_eq
  have hstep : m.toSquare.x = m.fromSquare.x ∧
      m.toSquare.y - m.fromSquare.y = 2 * p.color.forward ∧ s.x = m.fromSquare.x ∧
      s.y = m.fromSquare.y + p.color.forward := by
    rw [hfrom, hto]
    simp only [Square.x, Square.y, hrank]
    cases p.color <;> decide
  have hreaches := (pawnReaches hcand hkind).double (by
    cases hc : p.color <;> simp only [hc, Color.forward] at hstep <;> omega)
  have hempty : p.board s = none := by
    have hcell := p.board.get_xy s
    rw [hstep.2.2.1, hstep.2.2.2] at hcell
    exact hcell.symm.trans hreaches.2.2
  have hplaced : placedPiece tok m.promotion = ⟨p.color, .pawn⟩ := by
    have hnone : m.promotion = none := by
      have hpromotion := hcand.promotion
      have hlast : LegalMoves.promoting tok m.toSquare = false := by
        refine decide_eq_false fun hlast => ?_
        have hranks : ∀ c, ((setOn c).toRank.val : ℤ) ≠ LegalMoves.promoRank c := by
          intro c
          cases c <;> decide
        have hy := hlast.2
        rw [hown, hto] at hy
        exact hranks _ hy
      unfold promotions at hpromotion
      rw [hlast] at hpromotion
      simpa using hpromotion
    rw [hnone, ← hown, ← hkind]
    rfl
  have hne := hcand.ne
  have hsfrom : s ≠ m.fromSquare := by
    intro heq
    have hf := forward_ne_zero p.color
    have hy := hstep.2.2.2
    rw [heq] at hy
    omega
  have hsto : s ≠ m.toSquare := by
    intro heq
    have hf := forward_ne_zero p.color
    have hy := hstep.2.2.2
    rw [heq] at hy
    omega
  refine ⟨?_, ?_, ?_, ?_, ?_⟩
  · rw [hside]
    rfl
  · rw [hside, ← hto]
    change applyOccupancy p.board m m.toSquare = _
    rw [hboard, relocate_target, hplaced]
  · change applyOccupancy p.board m s = none
    rw [hboard, relocate_other hsfrom hsto]
    exact hempty
  · rw [hside, ← hfrom]
    change applyOccupancy p.board m m.fromSquare = none
    rw [hboard, relocate_source hne]
  · simp only [successor, turnKind, hpawn, if_true, reduceCtorEq, if_false]

theorem accepted_successor (h : Accepted p)
    (hm : m ∈ LegalMoves.legalMoves ⟨p.board, p.color⟩)
    (hhalf : (Nat.toDigits 10 (p.half + 1)).length ≤ intMaxStrDigits)
    (hfull : (Nat.toDigits 10 (p.full + 1)).length ≤ intMaxStrDigits) :
    Accepted (successor p m) := by
  obtain ⟨⟨tok, hcand⟩, hsafe⟩ := LegalMoves.mem_legalMoves.mp hm
  have hboard := hcand.applyOccupancy_eq
  have hzero : (Nat.toDigits 10 0).length ≤ intMaxStrDigits := by decide
  refine ⟨⟨canonical_filter h.wellFormed.rights _, fun s hs => ?_, ?_, ?_, ?_⟩,
    ⟨kings_after h.legal hcand hsafe, fun s q hq hpawn => ?_, fun c => ?_, fun k hk => ?_,
      fun r hr => homes_after h.legal hcand hr, fun s hs => epRules_after hcand hs⟩⟩
  · have hrank := (targetAfter_eq_some hs).2.2.2
    rw [hrank]
    cases p.color <;> decide
  · simp only [successor]
    split_ifs
    · exact hhalf
    · exact hzero
  · simp only [successor]
    split_ifs
    · exact hfull
    · exact h.wellFormed.full
  · have hpos := h.wellFormed.fullPos
    simp only [successor]
    split_ifs <;> omega
  · have hq' : applyOccupancy p.board m s = some q := hq
    rw [hboard, relocate_apply] at hq'
    split_ifs at hq' with hto hfrom
    · cases hq'
      rw [hto]
      exact rank_of_pawn hcand h.legal hpawn
    · exact h.legal.backRank s q hq' hpawn
  · have hmaterial := (h.legal.material c).relocate hcand.source hcand.ne
      (fun r hr => hcand.reaches.color_ne hr) (arrives hcand)
    rw [← hboard] at hmaterial
    exact hmaterial
  · have hcolor : (successor p m).color.other = p.color := Color.other_other p.color
    rw [hcolor] at hk
    exact safe_of_legal h.legal hcand hsafe hk

/-- The text assembled after a legal move of an accepted position is accepted,
as long as the incremented counters are convertible. -/
theorem fen_closed (text : Text) (p : Position) (m : LegalMoves.Move)
    (hparse : parseFen text = .ok p) (hm : m ∈ LegalMoves.legalMoves ⟨p.board, p.color⟩)
    (hhalf : (Nat.toDigits 10 (p.half + 1)).length ≤ intMaxStrDigits)
    (hfull : (Nat.toDigits 10 (p.full + 1)).length ≤ intMaxStrDigits) :
    ∃ t q, successorText p m = some t ∧ parseFen t = .ok q := by
  obtain ⟨haccepted, -⟩ := parseFen_iff.mp hparse
  have hnext := accepted_successor haccepted hm hhalf hfull
  exact ⟨_, _, successorText_eq haccepted hm, hnext.parse⟩

/-- White Ke1, Rh1 and Pe2 against a king on e8, with the right `K`. -/
def homeRook : Position where
  board := fun s =>
    if s = ⟨4, 0⟩ then some ⟨.white, .king⟩
    else if s = ⟨7, 0⟩ then some ⟨.white, .rook⟩
    else if s = ⟨4, 1⟩ then some ⟨.white, .pawn⟩
    else if s = ⟨4, 7⟩ then some ⟨.black, .king⟩
    else none
  color := .white
  rights := [.K]
  ep := none
  half := 0
  full := 1

theorem accepted_homeRook : Accepted homeRook := by
  have hzero : (Nat.toDigits 10 0).length ≤ intMaxStrDigits := by decide
  have hone : (Nat.toDigits 10 1).length ≤ intMaxStrDigits := by decide
  exact ⟨⟨by decide, (fun s hs => by cases hs), hzero, hone, le_refl 1⟩,
    positionOk_iff.mp (by decide)⟩

/-- The advance `e2e4` leaves an accepted text. -/
theorem fen_closed_advance : ∃ t q, successorText homeRook ⟨⟨4, 1⟩, ⟨4, 3⟩, none⟩ = some t ∧
    parseFen t = .ok q :=
  fen_closed (fenText homeRook) homeRook _ accepted_homeRook.parse (by decide +kernel) (by decide)
    (by decide)

end Agreement
end OpenChess
