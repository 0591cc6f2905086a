import OpenChess.Chess.Value
import OpenChess.Graph.EnPassant
import OpenChess.Graph.Fen
import OpenChess.Graph.FenCodec
import OpenChess.Lib.Hex

/-!
# Position digests

Model of `graph/position_digest.py`. The digest is the tagged hash of the
canonical encoding; the encoding carries the en-passant target only when a legal
capture exists against it.
-/

namespace OpenChess
namespace PositionDigest

open Fen

inductive FailureClass
  | malformedDigest
  | malformedPosition
  | unknownVariant
  deriving DecidableEq, Repr

/-- `failures.mapping` of the contract: every class is a malformed request. -/
def FailureClass.error : FailureClass → ErrorCode
  | .malformedDigest | .malformedPosition | .unknownVariant => .malformedRequest

/-- A `DigestError`, or an exception of the serializer that escapes as it is. -/
inductive Failure
  | digest (cls : FailureClass)
  | raw
  deriving DecidableEq, Repr

/-! ### The en-passant identity -/

/-- A pawn of the side to move stands on file `f` of its mover rank, and its
capture of the target leaves the own king unattacked. -/
def captureLegal (p : Position) (target : Square) (f : ℤ) : Bool :=
  let side := mover p.color
  match sqAt f side.moverRank.val with
  | none => false
  | some frm =>
    p.board frm == some ⟨p.color, .pawn⟩ &&
      let after := EnPassant.captureOccupancy p.board p.color frm
        ⟨target.file, side.capturedRank⟩ ⟨target.file, side.targetRank⟩
      match (after.squaresOf (king p.color)).head? with
      | none => false -- a parsed position has the king
      | some k => !attack after k.x (k.y + 1) p.color.other

/-- `_ep_identity`, with the none sentinel as `none`. -/
def epIdentity (p : Position) : Option Square :=
  p.ep.filter fun s => [(-1 : ℤ), 1].any fun df => captureLegal p s (s.x + df)

/-! ### Encoding and digest -/

/-- `emit_fen(...).split(" ")[0]`. -/
def placementText (p : Position) : Option Text :=
  (emitFen p).bind fun t => (t.splitOn ' ').head?

/-- `encode`: the canonical fields of the variant contract, joined by a blank. -/
def encode (variant : Text) (p : Position) : Option Text :=
  (placementText p).map fun board =>
    [' '].intercalate
      [variant, board, [p.color.letter], emitRights p.rights, emitEp (epIdentity p)]

abbrev Sha256 := Hex.Hash 64

def tag : Text := ['p', 'd', 'v', '1', ':']

def hexLength : ℕ := 64

def digest (sha : Sha256) (encoding : Text) : Text := tag ++ sha.hexdigest encoding

/-- `digest_fen`. -/
def digestFen (sha : Sha256) (variant fen : Scalar) : Except Failure Text :=
  match variant with
  | .foreign _ => .error (.digest .unknownVariant)
  | .str variant =>
    if variant ∉ variantIds then .error (.digest .unknownVariant)
    else
      match fen with
      | .foreign _ => .error (.digest .malformedPosition)
      | .str text =>
        match parseFen text with
        | .error _ => .error (.digest .malformedPosition)
        | .ok position =>
          match encode variant position with
          | none => .error .raw
          | some encoding => .ok (digest sha encoding)

def digestFormat (t : Text) : Bool := Hex.tagged tag hexLength t

end PositionDigest
end OpenChess

/-!
## Normal positions

The identity of a position forgets the clocks and an uncapturable target. What
remains is again a legal position, with the same identity, and its text is the
snapshot the graph stores.
-/

namespace OpenChess
namespace PositionDigest

open Fen

variable {p : Position} {s : Square} {t v : Text}

/-! ### En-passant captures -/

/-- The board after the pawn on `frm` has captured over the target. -/
def afterCapture (p : Position) (target frm : Square) : Placement :=
  EnPassant.captureOccupancy p.board p.color frm ⟨target.file, (mover p.color).capturedRank⟩
    ⟨target.file, (mover p.color).targetRank⟩

/-- Some own pawn beside the target captures over it, and the own king is then
not attacked in the sense of `att`. -/
def Capturable (att : Placement → Color → Square → Prop) (p : Position) (target : Square) : Prop :=
  ∃ frm : Square, frm.rank = (mover p.color).moverRank ∧
    (frm.x = target.x + -1 ∨ frm.x = target.x + 1) ∧ p.board frm = some ⟨p.color, .pawn⟩ ∧
    ∀ k, KingAt p.board p.color k → ¬ att (afterCapture p target frm) p.color.other k

/-- The ranks of a capture are those of the advance that allows it. -/
theorem epRules_ranks (h : EpRules p s) (hs : s.rank ∈ epRanks) :
    (⟨s.file, (mover p.color).targetRank⟩ : Square) = s ∧
      (mover p.color).capturedRank = (setOn (advancer s)).toRank ∧
      p.color.other = advancer s := by
  obtain ⟨f, r⟩ := s
  rw [h.mover, Color.other_other]
  simp only [epRanks, List.mem_cons, List.not_mem_nil, or_false] at hs
  rcases hs with rfl | rfl <;> exact ⟨rfl, rfl, rfl⟩

/-- An en-passant capture moves no king. -/
theorem kingAt_afterCapture (h : EpRules p s) (hs : s.rank ∈ epRanks) {frm k : Square} {c : Color}
    (hfrm : p.board frm = some ⟨p.color, .pawn⟩) :
    KingAt (afterCapture p s frm) c k ↔ KingAt p.board c k := by
  obtain ⟨hdest, hcaptured, -⟩ := epRules_ranks h hs
  have hcell : ∀ q, afterCapture p s frm q = some (king c) ↔ p.board q = some (king c) := by
    intro q
    rw [afterCapture, hdest, hcaptured, EnPassant.captureOccupancy]
    simp only [Function.update_apply]
    split_ifs with h1 h2 h3
    · rw [h1, h.target]
      simp [king]
    · rw [h2, h.pawn]
      simp [king]
    · rw [h3, hfrm]
      simp [king]
    · exact Iff.rfl
  simp only [KingAt, hcell]

theorem exists_king (h : LegalPosition p) (c : Color) : ∃ k, KingAt p.board c k := by
  obtain ⟨wk, bk, hw, hb, -⟩ := h.kings
  cases c
  · exact ⟨wk, hw⟩
  · exact ⟨bk, hb⟩

theorem captureLegal_iff (h : LegalPosition p) (hep : p.ep = some s) (hs : s.rank ∈ epRanks)
    {f : ℤ} : captureLegal p s f = true ↔
      ∃ frm : Square, frm.rank = (mover p.color).moverRank ∧ frm.x = f ∧
        p.board frm = some ⟨p.color, .pawn⟩ ∧
        ∀ k, KingAt p.board p.color k → ¬ Attacked (afterCapture p s frm) p.color.other k := by
  have hrules := h.ep s hep
  obtain ⟨k, hk⟩ := exists_king h p.color
  simp only [captureLegal]
  cases hsq : sqAt f (mover p.color).moverRank.val with
  | none =>
    simp only [Bool.false_eq_true, false_iff, not_exists]
    intro frm hfrm
    exact not_at_of_sqAt hsq frm ⟨hfrm.2.1, by rw [Square.y, hfrm.1]⟩
  | some frm =>
    have huniq : ∀ q : Square, q.rank = (mover p.color).moverRank ∧ q.x = f ↔ q = frm := by
      intro q
      rw [← eq_of_sqAt hsq q, and_comm, Square.y]
      simp [Fin.ext_iff]
    have hking : p.board frm = some ⟨p.color, .pawn⟩ →
        ((afterCapture p s frm).squaresOf (king p.color)).head? = some k := by
      intro hfrm
      rw [squaresOf_king ((kingAt_afterCapture hrules hs hfrm).mpr hk), List.head?_cons]
    have hsafe : attack (afterCapture p s frm) k.x (k.y + 1) p.color.other = false ↔
        ∀ k', KingAt p.board p.color k' → ¬ Attacked (afterCapture p s frm) p.color.other k' := by
      rw [← Bool.not_eq_true, attack_iff]
      exact ⟨fun hsafe k' hk' => hk'.unique hk ▸ hsafe, fun hall => hall k hk⟩
    simp only [Bool.and_eq_true, beq_iff_eq]
    constructor
    · intro hlegal
      obtain ⟨hfrm, hrest⟩ := hlegal
      have hhead := hking hfrm
      rw [afterCapture] at hhead
      rw [hhead, Bool.not_eq_true'] at hrest
      exact ⟨frm, ((huniq frm).mpr rfl).1, ((huniq frm).mpr rfl).2, hfrm, hsafe.mp hrest⟩
    · intro hlegal
      obtain ⟨q, hrank, hfile, hfrm, hall⟩ := hlegal
      rw [(huniq q).mp ⟨hrank, hfile⟩] at hfrm hall
      have hhead := hking hfrm
      rw [afterCapture] at hhead
      rw [hhead, Bool.not_eq_true']
      exact ⟨hfrm, hsafe.mpr hall⟩

/-- The identity keeps a target exactly when a legal capture exists against it. -/
theorem epIdentity_eq_some (h : LegalPosition p) (hs : ∀ s, p.ep = some s → s.rank ∈ epRanks) :
    epIdentity p = some s ↔ p.ep = some s ∧ Capturable Attacked p s := by
  rw [epIdentity, Option.filter_eq_some_iff]
  refine and_congr_right fun hep => ?_
  simp only [List.any_cons, List.any_nil, Bool.or_false, Bool.or_eq_true,
    captureLegal_iff h hep (hs s hep), Capturable]
  constructor
  · intro hlegal
    obtain ⟨frm, hrank, hfile, hrest⟩ | ⟨frm, hrank, hfile, hrest⟩ := hlegal
    · exact ⟨frm, hrank, .inl hfile, hrest⟩
    · exact ⟨frm, hrank, .inr hfile, hrest⟩
  · intro hlegal
    obtain ⟨frm, hrank, hfile | hfile, hrest⟩ := hlegal
    · exact .inl ⟨frm, hrank, hfile, hrest⟩
    · exact .inr ⟨frm, hrank, hfile, hrest⟩

/-! ### Accepted and normal positions -/

/-- What the parser can return. -/
structure Accepted (p : Position) : Prop where
  wellFormed : WellFormed p
  legal : LegalPosition p

def fenText (p : Position) : Text := [' '].intercalate (fieldsOf p)

theorem emitFen_fenText (h : WellFormed p) : emitFen p = some (fenText p) :=
  emitFen_eq_some.mpr ⟨rfl, h.half, h.full⟩

/-- The parser accepts the texts of accepted positions and no others. -/
theorem parseFen_iff : parseFen t = .ok p ↔ Accepted p ∧ t = fenText p := by
  rw [parseFen_eq_ok]
  constructor
  · intro h
    obtain ⟨hemit, hwf, hlegal⟩ := h
    rw [emitFen_fenText hwf, Option.some.injEq] at hemit
    exact ⟨⟨hwf, hlegal⟩, hemit.symm⟩
  · intro h
    obtain ⟨hp, rfl⟩ := h
    exact ⟨emitFen_fenText hp.wellFormed, hp.wellFormed, hp.legal⟩

theorem Accepted.parse (h : Accepted p) : parseFen (fenText p) = .ok p := parseFen_iff.mpr ⟨h, rfl⟩

theorem Accepted.epIdentity_eq_some (h : Accepted p) :
    epIdentity p = some s ↔ p.ep = some s ∧ Capturable Attacked p s :=
  PositionDigest.epIdentity_eq_some h.legal h.wellFormed.ep

/-- The position as the graph stores it: identity target, clocks `0 1`. -/
def normal (p : Position) : Position := ⟨p.board, p.color, p.rights, epIdentity p, 0, 1⟩

theorem fieldsOf_normal : fieldsOf (normal p) = [emitPlacement p.board, [p.color.letter],
    emitRights p.rights, emitEp (epIdentity p), ['0'], ['1']] := by
  have hzero : Nat.toDigits 10 0 = ['0'] := by decide
  have hone : Nat.toDigits 10 1 = ['1'] := by decide
  rw [fieldsOf]
  simp only [normal, hzero, hone]

theorem Accepted.normal (h : Accepted p) : Accepted (normal p) := by
  have hzero : (Nat.toDigits 10 0).length ≤ intMaxStrDigits := by decide
  have hone : (Nat.toDigits 10 1).length ≤ intMaxStrDigits := by decide
  have hsub : ∀ s, epIdentity p = some s → p.ep = some s :=
    fun s hs => (h.epIdentity_eq_some.mp hs).1
  refine ⟨⟨h.wellFormed.rights, fun s hs => h.wellFormed.ep s (hsub s hs), hzero, hone,
    le_refl 1⟩, ⟨h.legal.kings, h.legal.backRank, h.legal.material, h.legal.waiting,
    h.legal.homes, fun s hs => ?_⟩⟩
  have hrules := h.legal.ep s (hsub s hs)
  exact ⟨hrules.mover, hrules.pawn, hrules.target, hrules.origin, rfl⟩

/-- Normalising again changes nothing. -/
theorem Accepted.epIdentity_normal (h : Accepted p) :
    epIdentity (PositionDigest.normal p) = epIdentity p := by
  refine Option.ext fun s => ?_
  rw [h.normal.epIdentity_eq_some, h.epIdentity_eq_some]
  constructor
  · intro hs
    exact h.epIdentity_eq_some.mp hs.1
  · intro hs
    exact ⟨h.epIdentity_eq_some.mpr hs, hs.2⟩

theorem Accepted.normal_normal (h : Accepted p) :
    PositionDigest.normal (PositionDigest.normal p) = PositionDigest.normal p := by
  rw [PositionDigest.normal, h.epIdentity_normal]
  rfl

/-! ### Encoding -/

theorem placementText_eq (h : WellFormed p) : placementText p = some (emitPlacement p.board) := by
  rw [placementText, emitFen_fenText h, Option.bind_some, fenText, splitOn_fields]
  rfl

/-- The text under the hash. -/
def encoding (v : Text) (p : Position) : Text :=
  [' '].intercalate
    [v, emitPlacement p.board, [p.color.letter], emitRights p.rights, emitEp (epIdentity p)]

theorem Accepted.encoding_normal (h : Accepted p) :
    encoding v (PositionDigest.normal p) = encoding v p := by
  rw [encoding, h.epIdentity_normal]
  rfl

theorem digestFen_fenText (sha : Sha256) (h : Accepted p) (hv : v ∈ variantIds) :
    digestFen sha (.str v) (.str (fenText p)) = .ok (digest sha (encoding v p)) := by
  simp only [digestFen]
  rw [if_neg (not_not.mpr hv), h.parse]
  simp only [encode]
  rw [placementText_eq h.wellFormed]
  rfl

theorem accepted_of_digestFen {sha : Sha256} {d : Text}
    (h : digestFen sha (.str v) (.str t) = .ok d) : ∃ p, Accepted p ∧ t = fenText p := by
  simp only [digestFen] at h
  split_ifs at h
  split at h
  · cases h
  · rename_i p hp
    exact ⟨p, parseFen_iff.mp hp⟩

/-! ### The encoding is exact -/

theorem encode_eq (h : Accepted p) (v : Text) : encode v p = some (encoding v p) := by
  rw [encode, placementText_eq h.wellFormed]
  rfl

/-- The written components carry no blank, so the join can be undone. -/
theorem splitOn_encoding (hv : ' ' ∉ v) : (encoding v p).splitOn ' ' =
    [v, emitPlacement p.board, [p.color.letter], emitRights p.rights, emitEp (epIdentity p)] := by
  refine List.splitOn_intercalate ' ' (fun f hf => ?_) (by simp)
  rcases List.mem_cons.mp hf with rfl | hf
  · exact hv
  · refine (field_ok (PositionDigest.normal p) f ?_).2
    rw [fieldsOf_normal]
    simp only [List.mem_cons, List.not_mem_nil, or_false] at hf ⊢
    tauto

theorem encoding_inj {q : Position} {w : Text} (hp : Accepted p) (hq : Accepted q) (hv : ' ' ∉ v)
    (hw : ' ' ∉ w) (h : encoding v p = encoding w q) :
    v = w ∧ PositionDigest.normal p = PositionDigest.normal q := by
  have hsplit := congrArg (List.splitOn ' ') h
  rw [splitOn_encoding hv, splitOn_encoding hw, List.cons.injEq] at hsplit
  obtain ⟨hvariant, hfields⟩ := hsplit
  have htext : fenText (PositionDigest.normal p) = fenText (PositionDigest.normal q) := by
    rw [fenText, fenText, fieldsOf_normal, fieldsOf_normal]
    exact congrArg (fun fs => [' '].intercalate (fs ++ [['0'], ['1']])) hfields
  have hparse := hp.normal.parse
  rw [htext, hq.normal.parse, Except.ok.injEq] at hparse
  exact ⟨hvariant, hparse.symm⟩

theorem variantIds_no_blank : ∀ v ∈ variantIds, ' ' ∉ v := by decide

/-- For parsed positions and registered variants the encodings agree exactly if
variant, placement, side, rights and en-passant identity do; the identity is the
target with a legal capture against it. -/
theorem encode_exact {t u v w : Text} {p q : Position} (hp : parseFen t = .ok p)
    (hq : parseFen u = .ok q) (hv : v ∈ variantIds) (hw : w ∈ variantIds) :
    (∃ e, encode v p = some e) ∧
    (encode v p = encode w q ↔ v = w ∧ p.board = q.board ∧ p.color = q.color ∧
      p.rights = q.rights ∧ epIdentity p = epIdentity q) ∧
    ∀ s, epIdentity p = some s ↔ p.ep = some s ∧ Capturable Attacked p s := by
  have hp' := (parseFen_iff.mp hp).1
  have hq' := (parseFen_iff.mp hq).1
  rw [encode_eq hp', encode_eq hq', Option.some.injEq]
  refine ⟨⟨_, rfl⟩, ?_, fun s => hp'.epIdentity_eq_some⟩
  constructor
  · intro h
    obtain ⟨rfl, hnormal⟩ := encoding_inj hp' hq' (variantIds_no_blank v hv)
      (variantIds_no_blank w hw) h
    exact ⟨rfl, (Position.mk.inj hnormal).1, (Position.mk.inj hnormal).2.1,
      (Position.mk.inj hnormal).2.2.1, (Position.mk.inj hnormal).2.2.2.1⟩
  · rintro ⟨rfl, hboard, hcolor, hrights, hep⟩
    rw [encoding, encoding, hboard, hcolor, hrights, hep]

/-- The two kings at home, White to move, late in a game. -/
def kingsOnly : Position where
  board := fun s =>
    if s = ⟨4, 0⟩ then some ⟨.white, .king⟩
    else if s = ⟨4, 7⟩ then some ⟨.black, .king⟩
    else none
  color := .white
  rights := []
  ep := none
  half := 30
  full := 60

theorem accepted_kingsOnly : Accepted kingsOnly := by
  have hhalf : (Nat.toDigits 10 30).length ≤ intMaxStrDigits := by decide
  have hfull : (Nat.toDigits 10 60).length ≤ intMaxStrDigits := by decide
  exact ⟨⟨by decide, (fun s hs => by cases hs), hhalf, hfull, by decide⟩,
    positionOk_iff.mp (by decide)⟩

theorem encode_exact_clocks : encode "standard".toList kingsOnly =
    encode "standard".toList (PositionDigest.normal kingsOnly) :=
  (encode_exact accepted_kingsOnly.parse accepted_kingsOnly.normal.parse (by decide)
    (by decide)).2.1.mpr ⟨rfl, rfl, rfl, rfl, accepted_kingsOnly.epIdentity_normal.symm⟩

end PositionDigest
end OpenChess
