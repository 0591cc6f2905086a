import OpenChess.Agreement.FenChecks
import OpenChess.Graph.EnPassantSpec
import OpenChess.Graph.Fen
import OpenChess.Graph.Node
import OpenChess.Graph.TranspositionNodeTable
import OpenChess.Ingest.PgnSpec
import OpenChess.Tools.LegalMovesSpec
import OpenChess.Tools.VariantContractLint

/-!
# The five attack relations

Four of the shipped attack relations are the same relation. The grid test of the
variant lint has its pawn direction reversed, and agrees with them exactly when
the reversal cannot show.
-/

namespace OpenChess
namespace Agreement

open VariantContractLint (Grid)

variable {b : Placement} {c : Color} {t : Square}

/-- The five implementations give one answer, each in its own coordinates. -/
def AttacksAgree (b : Placement) (c : Color) (t : Square) : Prop :=
  EnPassant.attacked b t c = Fen.attack b t.x (t.y + 1) c ∧
  decide (t ∈ LegalMoves.attackedSquares b c) = Fen.attack b t.x (t.y + 1) c ∧
  (∀ turn castling ep, Pgn.Board.attacked ⟨Pgn.Squares.ofBoard b, turn, castling, ep⟩
    (Pgn.index t) c = Fen.attack b t.x (t.y + 1) c) ∧
  VariantContractLint.attacks (Grid.ofBoard b) (7 - t.y) t.x c = Fen.attack b t.x (t.y + 1) c

theorem lint_agrees_iff :
    VariantContractLint.attacks (Grid.ofBoard b) (7 - t.y) t.x c = Fen.attack b t.x (t.y + 1) c ↔
      OfficerAttacked b c t ∨ (PawnBehind b c t ↔ PawnAhead b c t) := by
  rw [Bool.eq_iff_iff, VariantContractLint.attacks_iff, Fen.attack_iff, attacked_iff]
  tauto

/-- The relations agree on a query exactly when an officer attacks the square
anyway, or pawns stand ahead of it just when they stand behind it. -/
theorem attacksAgree_iff (b : Placement) (c : Color) (t : Square) :
    AttacksAgree b c t ↔ OfficerAttacked b c t ∨ (PawnBehind b c t ↔ PawnAhead b c t) := by
  rw [← lint_agrees_iff]
  constructor
  · intro h
    exact h.2.2.2
  · intro h
    refine ⟨?_, ?_, fun turn castling ep => ?_, h⟩
    · rw [Bool.eq_iff_iff, EnPassant.attacked_iff_attacked, Fen.attack_iff]
    · rw [Bool.eq_iff_iff, decide_eq_true_eq, LegalMoves.mem_attackedSquares, Fen.attack_iff]
    · rw [Bool.eq_iff_iff, Pgn.attacked_iff_attacked, Fen.attack_iff, Pgn.Squares.toBoard_ofBoard,
        Pgn.square_index]

/-- White Ke1 and Pd6 against a king on e5. -/
def pawnPastKing : Placement := fun s =>
  if s = ⟨4, 0⟩ then some ⟨.white, .king⟩
  else if s = ⟨3, 5⟩ then some ⟨.white, .pawn⟩
  else if s = ⟨4, 4⟩ then some ⟨.black, .king⟩
  else none

/-- The lint sees the king on e5 attacked by the pawn that has passed it. -/
theorem not_attacksAgree : ¬ ∀ b c t, AttacksAgree b c t := by
  intro h
  have hlint := (h pawnPastKing .white ⟨4, 4⟩).2.2.2
  revert hlint
  decide

end Agreement
end OpenChess

/-!
## The two node derivations

`make_record` of `graph/node.py` checks a text with the variant lint and the node
table checks it with the FEN parser. They derive the same records exactly when
the lint's reversed pawn direction makes no difference.
-/

namespace OpenChess
namespace Agreement

open Fen PositionDigest
open TranspositionNode (Record defaultDigest oracleDigest recordOf)
open VariantContractLint (LintAttacked)

variable {p : Position} {v t : Text} {sha : Sha256} {r : Record}

/-! ### The variant runtime on parsed texts -/

/-- The position with its clocks replaced by `0 1`. -/
def resetClocks (p : Position) : Position := { p with half := 0, full := 1 }

theorem accepted_resetClocks (h : Accepted p) : Accepted (resetClocks p) := by
  have hzero : (Nat.toDigits 10 0).length ≤ intMaxStrDigits := by decide
  have hone : (Nat.toDigits 10 1).length ≤ intMaxStrDigits := by decide
  refine ⟨⟨h.wellFormed.rights, h.wellFormed.ep, hzero, hone, le_refl 1⟩, h.legal.kings,
    h.legal.backRank, h.legal.material, h.legal.waiting, h.legal.homes, fun s hs => ?_⟩
  have hrules := h.legal.ep s hs
  exact ⟨hrules.mover, hrules.pawn, hrules.target, hrules.origin, rfl⟩

theorem fieldsOf_resetClocks : fieldsOf (resetClocks p) = [emitPlacement p.board,
    [p.color.letter], emitRights p.rights, emitEp p.ep, ['0'], ['1']] := by
  have hzero : Nat.toDigits 10 0 = ['0'] := by decide
  have hone : Nat.toDigits 10 1 = ['1'] := by decide
  rw [fieldsOf]
  simp only [resetClocks, hzero, hone]

theorem lintAccepts_resetClocks (h : LintAccepts p) : LintAccepts (resetClocks p) := by
  have hzero : (Nat.toDigits 10 0).length ≤ 10 := by decide
  have hone : (Nat.toDigits 10 1).length ≤ 10 := by decide
  exact ⟨h.waiting, h.capture, hzero, hone⟩

theorem checkedVariant_of_mem (hv : v ∈ variantIds) :
    VariantRuntime.checkedVariant (.str v) = .ok ⟨v, .orthodox⟩ := by
  obtain rfl := List.mem_singleton.mp hv
  rfl

theorem mem_of_checkedVariant {variant : Scalar} {entry : VariantEntry}
    (h : VariantRuntime.checkedVariant variant = .ok entry) :
    variant = .str entry.id ∧ entry.id ∈ variantIds ∧ entry.castling = .orthodox := by
  unfold VariantRuntime.checkedVariant at h
  split at h
  · cases h
  · rename_i e hfind
    cases h
    obtain ⟨v, hv, hentry⟩ := Option.bind_eq_some_iff.mp hfind
    have hid := List.find?_some hentry
    have hmem := List.mem_of_find?_eq_some hentry
    rw [beq_iff_eq] at hid
    rw [Scalar.text?_eq_some.mp hv, hid]
    obtain rfl := List.mem_singleton.mp hmem
    exact ⟨rfl, hid ▸ List.mem_singleton.mpr rfl, rfl⟩

theorem splitPosition_fenText : VariantRuntime.splitPosition v (.str (fenText p)) =
    some ⟨v, emitPlacement p.board, [p.color.letter], emitRights p.rights, emitEp p.ep⟩ := by
  simp only [VariantRuntime.splitPosition]
  rw [fenText, splitOn_fields]
  rfl

theorem staleTarget_fenText (h : Accepted p) : Node.staleTarget (.str (fenText p)) = false := by
  have hzero : Nat.toDigits 10 0 = ['0'] := by decide
  simp only [Node.staleTarget]
  rw [fenText, splitOn_fields]
  simp only [fieldsOf]
  cases hep : p.ep with
  | none => rfl
  | some s =>
    rw [(h.legal.ep s hep).clock, hzero]
    simp

/-- On a parsed text `make_record` succeeds exactly when the lint accepts, and
keeps everything but the clocks. -/
theorem makeRecord_fenText (h : Accepted p) (hv : v ∈ variantIds) :
    Node.makeRecord sha (.str v) (.str (fenText p)) = .ok r ↔
      LintAccepts p ∧ r = ⟨v, digest sha (encoding v p), fenText (resetClocks p)⟩ := by
  have hreset := accepted_resetClocks h
  have htext : VariantRuntime.Position.text
      ⟨v, emitPlacement p.board, [p.color.letter], emitRights p.rights, emitEp p.ep⟩ =
      fenText (resetClocks p) := by
    rw [fenText, fieldsOf_resetClocks]
    rfl
  have hencoding : encoding v (resetClocks p) = encoding v p := rfl
  unfold Node.makeRecord VariantRuntime.parsePosition
  rw [checkedVariant_of_mem hv]
  simp only [VariantRuntime.checkedFen]
  by_cases haccepts : LintAccepts p
  · rw [(checkFen_iff h).mpr haccepts]
    simp only [splitPosition_fenText, staleTarget_fenText h, Bool.false_eq_true, if_false]
    unfold VariantRuntime.identity
    simp only [checkedVariant_of_mem hv, VariantRuntime.checkedFen, htext,
      (checkFen_iff hreset).mpr (lintAccepts_resetClocks haccepts),
      digestFen_fenText sha hreset hv, hencoding, haccepts, true_and, Except.ok.injEq]
    exact eq_comm
  · cases hcheck : VariantContractLint.checkFen (.str (fenText p)) .orthodox with
    | error cls => simp [haccepts]
    | ok u => exact absurd ((checkFen_iff h).mp hcheck) haccepts

/-! ### What `make_record` accepts, the parser accepts -/

theorem exists_of_boundedInt (h : VariantContractLint.boundedInt t = true) :
    ∃ n, 0 < n ∧ Nat.toDigits 10 n = t ∧ t.length ≤ 10 := by
  cases t with
  | nil => cases h
  | cons c t =>
    simp only [VariantContractLint.boundedInt, Bool.and_eq_true, bne_iff_ne, ne_eq,
      decide_eq_true_eq] at h
    obtain ⟨⟨⟨hc, hne⟩, hall⟩, hlength⟩ := h
    obtain ⟨d, hd, rfl⟩ := Decimal.digit_of_isDigit hc
    have hpos : 0 < d := by
      rw [Nat.digitChar_eq_zero] at hne
      omega
    obtain ⟨n, hn, htext⟩ := Decimal.exists_toDigits_append hpos hall
    refine ⟨n, hn, ?_, by rw [List.length_cons]; omega⟩
    rw [htext, Nat.toDigits_of_lt_base hd]
    rfl

theorem checkFen_fields {kind : CastlingKind}
    (h : VariantContractLint.checkFen (.str t) kind = .ok ()) :
    ∃ board side castling ep half full, t.splitOn ' ' = [board, side, castling, ep, half, full] ∧
      (half = ['0'] ∨ VariantContractLint.boundedInt half = true) ∧
      VariantContractLint.boundedInt full = true := by
  simp only [VariantContractLint.checkFen] at h
  split at h
  · rename_i board side castling ep half full hsplit
    split at h
    · cases h
    · split at h
      · cases h
      · split at h
        · cases h
        · split at h
          · cases h
          · split_ifs at h with hshort
            rw [Bool.not_eq_false, Bool.and_eq_true, Bool.or_eq_true, beq_iff_eq] at hshort
            exact ⟨board, side, castling, ep, half, full, hsplit, hshort⟩
  · cases h

/-- Counters the lint accepts, put in the place of `0 1`, give a text the parser
accepts, as long as a recorded target keeps the halfmove clock at zero. -/
theorem accepted_of_canonical {board side castling ep half full : Text}
    (hsplit : t.splitOn ' ' = [board, side, castling, ep, half, full])
    (hp : Accepted p)
    (hcanonical : [' '].intercalate [board, side, castling, ep, ['0'], ['1']] = fenText p)
    (hhalf : half = ['0'] ∨ VariantContractLint.boundedInt half = true)
    (hfull : VariantContractLint.boundedInt full = true)
    (hstale : ep = ['-'] ∨ half = ['0']) : ∃ q, Accepted q ∧ t = fenText q := by
  have hzero : Nat.toDigits 10 0 = ['0'] := by decide
  have hblank : ∀ l ∈ [board, side, castling, ep, ['0'], ['1']], ' ' ∉ l := by
    have hfields : ∀ l ∈ [board, side, castling, ep, half, full], ' ' ∉ l := by
      rw [← hsplit]
      exact fun l hl => Separated.not_mem_of_mem_splitOn ' ' t l hl
    simp only [List.forall_mem_cons, List.not_mem_nil, false_imp_iff, imp_true_iff, and_true]
      at hfields ⊢
    exact ⟨hfields.1, hfields.2.1, hfields.2.2.1, hfields.2.2.2.1, by decide, by decide⟩
  have hfields := congrArg (List.splitOn ' ') hcanonical
  rw [List.splitOn_intercalate ' ' hblank (by simp), fenText, splitOn_fields] at hfields
  simp only [fieldsOf, List.cons.injEq, and_true] at hfields
  obtain ⟨rfl, rfl, rfl, rfl, -⟩ := hfields
  obtain ⟨n, hn, hnlength⟩ : ∃ n, Nat.toDigits 10 n = half ∧ half.length ≤ 10 := by
    rcases hhalf with rfl | hhalf
    · exact ⟨0, hzero, by decide⟩
    · obtain ⟨n, -, hn, hlength⟩ := exists_of_boundedInt hhalf
      exact ⟨n, hn, hlength⟩
  obtain ⟨m, hm, hmtext, hmlength⟩ := exists_of_boundedInt hfull
  have hlimit : 10 ≤ intMaxStrDigits := by decide
  refine ⟨{ p with half := n, full := m }, ⟨⟨hp.wellFormed.rights, hp.wellFormed.ep, ?_, ?_, hm⟩,
    hp.legal.kings, hp.legal.backRank, hp.legal.material, hp.legal.waiting, hp.legal.homes,
    fun s hs => ?_⟩, ?_⟩
  · rw [hn]
    omega
  · rw [hmtext]
    omega
  · have hrules := hp.legal.ep s hs
    refine ⟨hrules.mover, hrules.pawn, hrules.target, hrules.origin, ?_⟩
    have hclock : half = ['0'] := by
      rcases hstale with hdash | hclock
      · rw [hs] at hdash
        simp [emitEp, Square.name] at hdash
      · exact hclock
    exact Separated.toDigits_injective (hn.trans (hclock.trans hzero.symm))
  · rw [fenText, ← @List.intercalate_splitOn _ t _ _ ' ', hsplit, fieldsOf]
    simp only [hn, hmtext]

/-- `make_record` accepts texts of accepted positions only: its digest is taken
from the parsed canonical text, and its own checks settle the clocks. -/
theorem accepted_of_makeRecord {variant fen : Scalar}
    (h : Node.makeRecord sha variant fen = .ok r) :
    ∃ v p, variant = .str v ∧ v ∈ variantIds ∧ fen = .str (fenText p) ∧ Accepted p := by
  unfold Node.makeRecord VariantRuntime.parsePosition at h
  cases hvariant : VariantRuntime.checkedVariant variant with
  | error e =>
    rw [hvariant] at h
    cases h
  | ok entry =>
    obtain ⟨rfl, hv, hkind⟩ := mem_of_checkedVariant hvariant
    rw [hvariant] at h
    simp only [VariantRuntime.checkedFen, hkind] at h
    cases fen with
    | foreign n => cases h
    | str text =>
      cases hcheck : VariantContractLint.checkFen (.str text) .orthodox with
      | error cls =>
        rw [hcheck] at h
        cases h
      | ok u =>
        obtain ⟨board, side, castling, ep, half, full, hsplit, hhalf, hfull⟩ :=
          checkFen_fields hcheck
        rw [hcheck] at h
        simp only [VariantRuntime.splitPosition, Node.staleTarget, hsplit] at h
        split_ifs at h with hstale
        unfold VariantRuntime.identity at h
        simp only [checkedVariant_of_mem hv, VariantRuntime.checkedFen,
          VariantRuntime.Position.text] at h
        split at h
        · cases h
        · rename_i projection hprojection
          split at hprojection
          · cases hprojection
          · cases hprojection
            split at h
            · cases h
            · rename_i d hdigest
              obtain ⟨p, hp, hcanonical⟩ := accepted_of_digestFen hdigest
              have hclock : ep = ['-'] ∨ half = ['0'] := by
                simpa only [Bool.and_eq_true, bne_iff_ne, ne_eq, not_and_or, not_not] using hstale
              obtain ⟨q, hq, htext⟩ := accepted_of_canonical hsplit hp hcanonical hhalf hfull hclock
              exact ⟨entry.id, q, rfl, hv, congrArg Scalar.str htext, hq⟩

/-! ### Agreement -/

/-- The lint's reversed pawns change nothing for this position: none stands
ahead of the waiting king, and a recorded target is capturable in the lint's
sense when it is capturable, and conversely if the fullmove number has at most
ten digits. -/
def ChecksAgree (p : Position) : Prop :=
  (∀ k, KingAt p.board p.color.other k → ¬ PawnAhead p.board p.color k) ∧
    ∀ s, p.ep = some s → (Capturable Attacked p s → Capturable LintAttacked p s) ∧
      (p.full < 10 ^ 10 → Capturable LintAttacked p s → Capturable Attacked p s)

/-- The table's record is made again by `make_record` from its snapshot, and
what `make_record` makes of a text is stored by a new table for that text. -/
def DerivationsAgree (sha : Sha256) (variant fen : Scalar) : Prop :=
  (∀ steps rec, (TranspositionNode.insert (defaultDigest sha) variant fen
      (TranspositionNode.run (defaultDigest sha) steps)).1 = .ok rec →
    Node.makeRecord sha variant (.str rec.snapshotFen) = .ok rec) ∧
  (∀ rec, Node.makeRecord sha variant fen = .ok rec →
    ∃ T, TranspositionNode.insert (defaultDigest sha) variant fen [] = (.ok rec, T) ∧
      Buckets.records T = [rec])

theorem oracleDigest_default (h : Accepted p) (hv : v ∈ variantIds) :
    oracleDigest (defaultDigest sha) v (fenText p) = .ok (digest sha (encoding v p)) :=
  TranspositionNode.oracleDigest_eq_ok.mpr
    ⟨TranspositionNode.defaultDigest_fenText sha h hv, TranspositionNode.digestFormat_digest sha _⟩

theorem tableRecord (h : Accepted p) (hv : v ∈ variantIds) :
    TranspositionNode.makeRecord (defaultDigest sha) (.str v) (.str (fenText p)) =
      .ok (recordOf v (digest sha (encoding v p)) p) :=
  TranspositionNode.makeRecord_eq_ok.mpr ⟨v, p, rfl, rfl, hv, h, oracleDigest_default h hv, rfl⟩

theorem sound_run (o : TranspositionNode.Oracle) (steps : List TranspositionNode.Step) :
    TranspositionNode.Sound (TranspositionNode.run o steps) := by
  have hrun : ∀ {T}, TranspositionNode.Sound T →
      TranspositionNode.Sound (steps.foldl (TranspositionNode.Step.apply o) T) := by
    induction steps with
    | nil => exact fun hT => hT
    | cons step steps ih => exact fun hT => ih (hT.step step)
  exact hrun TranspositionNode.Sound.new

theorem not_lintAttacked_iff {k : Square} (h : Accepted p) (hk : KingAt p.board p.color.other k) :
    ¬ LintAttacked p.board p.color k ↔ ¬ PawnAhead p.board p.color k := by
  have hsafe := h.legal.waiting k hk
  rw [attacked_iff] at hsafe
  unfold LintAttacked
  tauto

theorem fenText_injective {q : Position} (hp : Accepted p) (hq : Accepted q)
    (h : fenText p = fenText q) : p = q := by
  have hparse := hp.parse
  rw [h, hq.parse] at hparse
  exact (Except.ok.inj hparse).symm

theorem length_toDigits_ten {n : ℕ} : (Nat.toDigits 10 n).length ≤ 10 ↔ n < 10 ^ 10 :=
  Nat.length_toDigits_le_iff (by decide) (by decide)

theorem checksAgree_of_derivationsAgree (h : DerivationsAgree sha (.str v) (.str (fenText p)))
    (hv : v ∈ variantIds) (hp : Accepted p) : ChecksAgree p := by
  obtain ⟨hstored, hmade⟩ := h
  have hinsert := TranspositionNode.insert_eq (o := defaultDigest sha)
    TranspositionNode.Sound.new (.str v) (.str (fenText p))
  rw [tableRecord hp hv] at hinsert
  have hsnapshot := hstored [] _ (congrArg Prod.fst hinsert)
  have hlint := ((makeRecord_fenText hp.normal hv).mp hsnapshot).1
  have hwaiting : ∀ k, KingAt p.board p.color.other k → ¬ PawnAhead p.board p.color k :=
    fun k hk => (not_lintAttacked_iff hp hk).mp (hlint.waiting k hk)
  refine ⟨hwaiting, fun s hs => ⟨fun hcapture => ?_, fun hfull hcapture => ?_⟩⟩
  · exact hlint.capture s (hp.epIdentity_eq_some.mpr ⟨hs, hcapture⟩)
  · have hzero : (Nat.toDigits 10 0).length ≤ 10 := by decide
    have haccepts : LintAccepts p := by
      refine ⟨fun k hk => (not_lintAttacked_iff hp hk).mpr (hwaiting k hk), fun s' hs' => ?_, ?_,
        length_toDigits_ten.mpr hfull⟩
      · rw [hs, Option.some.injEq] at hs'
        exact hs' ▸ hcapture
      · rw [(hp.legal.ep s hs).clock]
        exact hzero
    obtain ⟨T, hT, -⟩ := hmade _ ((makeRecord_fenText hp hv).mpr ⟨haccepts, rfl⟩)
    have hrecords : recordOf v (digest sha (encoding v p)) p =
        ⟨v, digest sha (encoding v p), fenText (resetClocks p)⟩ :=
      Except.ok.inj (congrArg Prod.fst (hinsert.symm.trans hT))
    have htext : fenText (normal p) = fenText (resetClocks p) :=
      congrArg Record.snapshotFen hrecords
    have hsame := fenText_injective hp.normal (accepted_resetClocks hp) htext
    exact (hp.epIdentity_eq_some.mp ((congrArg Position.ep hsame).trans hs)).2

/-- The two derivations agree on an input exactly when it is no accepted text of a
registered variant or the lint's checks agree on its position. -/
theorem derivationsAgree_iff (sha : Sha256) (variant fen : Scalar) :
    DerivationsAgree sha variant fen ↔
      ∀ v text p, variant = .str v → v ∈ variantIds → fen = .str text → parseFen text = .ok p →
        ChecksAgree p := by
  constructor
  · intro h v text p hvariant hv hfen hparse
    obtain ⟨hp, htext⟩ := parseFen_iff.mp hparse
    rw [hvariant, hfen, htext] at h
    exact checksAgree_of_derivationsAgree h hv hp
  · intro h
    refine ⟨fun steps rec hinsert => ?_, fun rec hmake => ?_⟩
    · rw [TranspositionNode.insert_eq (sound_run _ steps)] at hinsert
      cases hmake : TranspositionNode.makeRecord (defaultDigest sha) variant fen with
      | error e =>
        rw [hmake] at hinsert
        cases hinsert
      | ok rec' =>
        rw [hmake] at hinsert
        cases hinsert
        obtain ⟨v, p, rfl, rfl, hv, hp, -, -⟩ := TranspositionNode.makeRecord_eq_ok.mp hmake
        rw [tableRecord hp hv] at hmake
        cases hmake
        obtain ⟨hwaiting, hcapture⟩ := h v _ p rfl hv rfl hp.parse
        have hzero : (Nat.toDigits 10 0).length ≤ 10 := by decide
        have hone : (Nat.toDigits 10 1).length ≤ 10 := by decide
        have hlint : LintAccepts (normal p) := by
          refine ⟨fun k hk => (not_lintAttacked_iff hp hk).mpr (hwaiting k hk), fun s hs => ?_,
            hzero, hone⟩
          obtain ⟨hep, hcapturable⟩ := hp.epIdentity_eq_some.mp hs
          exact (hcapture s hep).1 hcapturable
        refine (makeRecord_fenText hp.normal hv).mpr ⟨hlint, ?_⟩
        rw [hp.encoding_normal]
        rfl
    · obtain ⟨v, p, rfl, hv, rfl, hp⟩ := accepted_of_makeRecord hmake
      obtain ⟨hlint, rfl⟩ := (makeRecord_fenText hp hv).mp hmake
      obtain ⟨-, hcapture⟩ := h v _ p rfl hv rfl hp.parse
      have hep : epIdentity p = p.ep := by
        cases hs : p.ep with
        | none =>
          rw [Option.eq_none_iff_forall_ne_some]
          intro s hs'
          have := (hp.epIdentity_eq_some.mp hs').1
          rw [hs] at this
          cases this
        | some s =>
          have hfull := length_toDigits_ten.mp hlint.full
          exact hp.epIdentity_eq_some.mpr ⟨hs, (hcapture s hs).2 hfull (hlint.capture s hs)⟩
      have hsame : normal p = resetClocks p := by
        rw [normal, hep]
        rfl
      have hinsert := TranspositionNode.insert_eq (o := defaultDigest sha)
        TranspositionNode.Sound.new (.str v) (.str (fenText p))
      rw [tableRecord hp hv] at hinsert
      have hrecord : recordOf v (digest sha (encoding v p)) p =
          ⟨v, digest sha (encoding v p), fenText (resetClocks p)⟩ := by
        rw [recordOf, hsame]
      rw [← hrecord]
      exact ⟨TranspositionNode.add [] (recordOf v (digest sha (encoding v p)) p), hinsert, rfl⟩

/-- The position of `pawnPastKing` with White to move. -/
def pawnPastKingPosition : Position := ⟨pawnPastKing, .white, [], none, 0, 1⟩

theorem accepted_pawnPastKing : Accepted pawnPastKingPosition := by
  have hzero : (Nat.toDigits 10 0).length ≤ intMaxStrDigits := by decide
  have hone : (Nat.toDigits 10 1).length ≤ intMaxStrDigits := by decide
  exact ⟨⟨rfl, (fun s hs => by cases hs), hzero, hone, le_refl 1⟩, positionOk_iff.mp (by decide)⟩

/-- The table stores the position, and `make_record` refuses its snapshot. -/
theorem not_derivationsAgree : ¬ ∀ sha variant fen, DerivationsAgree sha variant fen := by
  intro h
  have hagree := h (.zeros 64) (.str "standard".toList)
    (.str "8/8/3P4/4k3/8/8/8/4K3 w - - 0 1".toList)
  have htext : "8/8/3P4/4k3/8/8/8/4K3 w - - 0 1".toList = fenText pawnPastKingPosition := by decide
  rw [htext] at hagree
  obtain ⟨hwaiting, -⟩ := checksAgree_of_derivationsAgree hagree (by decide) accepted_pawnPastKing
  have hking : KingAt pawnPastKingPosition.board .black ⟨4, 4⟩ := by decide
  exact hwaiting _ hking ⟨(-1, 1), by decide, by decide⟩

end Agreement
end OpenChess
