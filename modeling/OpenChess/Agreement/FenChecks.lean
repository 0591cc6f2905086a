import OpenChess.Graph.PositionDigest
import OpenChess.Lib.Decimal
import OpenChess.Tools.VariantContractLint

/-!
# The lint's FEN check on parsed texts

A text the parser accepts passes every rule of the variant lint but two: the
waiting king must not be attacked in the lint's sense, and a recorded target must
be capturable in that sense. The lint also bounds the counters to ten digits.
-/

namespace OpenChess
namespace Agreement

open Fen PositionDigest
open VariantContractLint (Grid LintAttacked)

variable {p : Position} {b : Placement} {c : Color} {t : Text}

/-! ### The fields -/

theorem parseRow_eq (t : Text) : VariantContractLint.parseRow t = readRank t := by
  unfold VariantContractLint.parseRow readRank
  by_cases ht : t = []
  · subst ht
    exact (if_pos rfl).symm
  · exact (if_neg ht).symm

theorem parseBoard_eq (t : Text) :
    VariantContractLint.parseBoard t = (readPlacement t).map Grid.ofBoard := by
  have hrow : VariantContractLint.parseRow = readRank := funext parseRow_eq
  have hgrid : ∀ rows : List (List (Option Piece)),
      (fun r c : Fin 8 => (rows[r.val]?.bind fun row => row[c.val]?).join) =
        Grid.ofBoard (boardOf rows) := by
    intro rows
    funext r f
    have hrank : 7 - r.rev.val = r.val := by
      have hr := r.isLt
      rw [Fin.val_rev]
      omega
    rw [VariantContractLint.ofBoard_apply, boardOf, hrank]
  unfold VariantContractLint.parseBoard readPlacement
  simp only [hrow]
  split_ifs
  · rfl
  · rw [Option.map_map]
    exact congrArg (fun f => Option.map f _) (funext hgrid)

theorem parseBoard_emitPlacement (b : Placement) :
    VariantContractLint.parseBoard (emitPlacement b) = some (Grid.ofBoard b) := by
  rw [parseBoard_eq, readPlacement_eq_some.mpr rfl, Option.map_some]

theorem readSide_eq_some : VariantContractLint.readSide t = some c ↔ [c.letter] = t := by
  rw [← readColor_eq_some]
  rcases t with _ | ⟨a, _ | ⟨a', t⟩⟩ <;> exact Iff.rfl

theorem readCastling_of_readRights {rights : List Right} (h : readRights t = some rights) :
    VariantContractLint.readCastling t = some rights := by
  unfold readRights at h
  unfold VariantContractLint.readCastling
  split_ifs at h ⊢ with hdash
  · exact h
  · cases hread : t.mapM rightOf? with
    | none =>
      rw [hread] at h
      cases h
    | some rs =>
      rw [hread] at h
      simp only at h ⊢
      split_ifs at h with hnil hdup horder
      rw [if_neg (not_or.mpr ⟨hnil, not_not.mpr hdup⟩), h]

theorem readTarget_eq (t : Text) : VariantContractLint.readTarget t = readEp t := by
  have hranks : ∀ s : Square, s.rank ∈ epRanks ↔ s.rank = 2 ∨ s.rank = 5 := by
    simp [epRanks]
  unfold VariantContractLint.readTarget readEp
  by_cases ht : t = ['-']
  · exact (if_pos ht).trans (if_pos ht).symm
  · rw [if_neg ht, if_neg ht]
    cases squareOf? t with
    | none => exact Eq.refl none
    | some s => simp only [hranks]

theorem boundedInt_toDigits (n : ℕ) : VariantContractLint.boundedInt (Nat.toDigits 10 n) =
    decide (0 < n ∧ (Nat.toDigits 10 n).length ≤ 10) := by
  by_cases hn : 0 < n
  · obtain ⟨d, hd, hd10, t, ht⟩ := Decimal.head_toDigits hn
    have hall : ∀ c ∈ Nat.toDigits 10 n, c.isDigit = true :=
      fun c hc => Nat.isDigit_of_mem_toDigits (by decide) (by decide) hc
    rw [ht] at hall ⊢
    have hzero : ∀ d : ℕ, d < 10 → 0 < d → (d.digitChar != '0') = true := by decide
    simp only [VariantContractLint.boundedInt, hall _ List.mem_cons_self, hzero d hd10 hd,
      List.all_eq_true.mpr fun c hc => hall c (List.mem_cons_of_mem _ hc), Bool.and_self,
      Bool.true_and, List.length_cons, hn, true_and]
    rw [decide_eq_decide]
    omega
  · obtain rfl : n = 0 := by omega
    decide

/-! ### The position rules -/

theorem castlingConsistent_eq (b : Placement) (r : Right) :
    VariantContractLint.castlingConsistent (Grid.ofBoard b) r = homeOk b r := by
  cases r <;> rfl

theorem supplyOk_of_material (h : Material b c) :
    VariantContractLint.supplyOk (Grid.ofBoard b) c = true := by
  have hpawns : (Grid.ofBoard b).flat.count (some ⟨c, .pawn⟩) = pawns b c := by
    rw [(VariantContractLint.flat_perm b).count_eq, List.count, List.countP_map, pawns, count]
    refine List.countP_congr fun s _ => ?_
    cases hbs : b s <;> simp [hbs]
  have hpieces : ((Grid.ofBoard b).flat.countP fun sq => sq.any fun p => p.color == c) =
      count b fun p => p.color == c := by
    rw [(VariantContractLint.flat_perm b).countP_eq, List.countP_map, count]
    rfl
  unfold VariantContractLint.supplyOk
  rw [hpawns, hpieces, Bool.and_eq_true, decide_eq_true_eq, decide_eq_true_eq]
  exact ⟨h.1, h.2.1⟩

theorem backRank_of_legal (h : LegalPosition p) :
    ((List.finRange 8).all fun f => [Grid.ofBoard p.board 0 f, Grid.ofBoard p.board 7 f].all
      fun sq => !(sq.any fun q => q.kind == .pawn)) = true := by
  have hcell : ∀ (f r : Fin 8), (r = 0 ∨ r = 7) →
      (!((Grid.ofBoard p.board r f).any fun q => q.kind == .pawn)) = true := by
    intro f r hr
    rw [VariantContractLint.ofBoard_apply]
    cases hq : p.board ⟨f, r.rev⟩ with
    | none => rfl
    | some q =>
      have hrank := h.backRank _ q hq
      simp only [Option.any_some, Bool.not_eq_true', beq_eq_false_iff_ne, ne_eq]
      intro hpawn
      obtain ⟨h0, h7⟩ := hrank hpawn
      rcases hr with rfl | rfl
      · exact h7 rfl
      · exact h0 rfl
  rw [List.all_eq_true]
  intro f _
  simp only [List.all_cons, List.all_nil, Bool.and_true, Bool.and_eq_true]
  exact ⟨hcell f 0 (.inl rfl), hcell f 7 (.inr rfl)⟩

theorem checkPositionSemantics_iff (h : LegalPosition p) {k : Square}
    (hk : KingAt p.board p.color.other k) :
    VariantContractLint.checkPositionSemantics (Grid.ofBoard p.board) p.rights p.color
        .orthodox = true ↔ ¬ LintAttacked p.board p.color k := by
  obtain ⟨wk, bk, hw, hb, hapart⟩ := h.kings
  have hrights : p.rights.all (VariantContractLint.castlingConsistent (Grid.ofBoard p.board)) =
      true := by
    rw [List.all_eq_true]
    intro r hr
    rw [castlingConsistent_eq]
    exact homeOk_iff.mpr (h.homes r hr)
  have hdistance : 1 < max |(wk.rank.rev.val : ℤ) - bk.rank.rev.val|
      |(wk.file.val : ℤ) - bk.file.val| := by
    have hrow : (wk.rank.rev.val : ℤ) - bk.rank.rev.val = -(wk.y - bk.y) := by
      rw [VariantContractLint.val_rev, VariantContractLint.val_rev]
      ring
    rw [hrow, abs_neg, max_comm]
    exact hapart
  have hwaiting : (if p.color = .white then (bk.rank.rev, bk.file) else (wk.rank.rev, wk.file)) =
      (k.rank.rev, k.file) := by
    rw [(kingAt_nonMover hw hb).unique hk]
    split_ifs <;> rfl
  unfold VariantContractLint.checkPositionSemantics
  rw [VariantContractLint.count_flat_king hw, VariantContractLint.count_flat_king hb,
    supplyOk_of_material (h.material .white), supplyOk_of_material (h.material .black),
    backRank_of_legal h, VariantContractLint.find_king hw, VariantContractLint.find_king hb]
  simp only [List.head?_cons, BEq.rfl, Bool.and_self, Bool.true_and]
  rw [hwaiting, hrights, decide_eq_true hdistance, Bool.true_and, Bool.and_true,
    Bool.not_eq_true', ← Bool.not_eq_true, VariantContractLint.attacks_square]

/-! ### The en-passant rules -/

theorem simulate_eq {s : Square} (hrules : EpRules p s) (hs : s.rank ∈ epRanks) (f : Fin 8) :
    VariantContractLint.simulate (Grid.ofBoard p.board) s (VariantContractLint.epRows s).row
        ⟨p.color, .pawn⟩ f =
      Grid.ofBoard (afterCapture p s ⟨f, (mover p.color).moverRank⟩) := by
  obtain ⟨sf, sr⟩ := s
  have hcolor := hrules.mover
  simp only [epRanks, List.mem_cons, List.not_mem_nil, or_false] at hs
  unfold VariantContractLint.simulate
  rw [VariantContractLint.ofBoard_set, VariantContractLint.ofBoard_set,
    VariantContractLint.ofBoard_set, afterCapture, EnPassant.captureOccupancy, hcolor]
  rcases hs with rfl | rfl <;> rfl

theorem checkEpSemantics_iff {s : Square} (h : LegalPosition p) (hep : p.ep = some s)
    (hs : s.rank ∈ epRanks) :
    VariantContractLint.checkEpSemantics (Grid.ofBoard p.board) s p.color = true ↔
      Capturable LintAttacked p s := by
  have hrules := h.ep s hep
  obtain ⟨k, hk⟩ := exists_king h p.color
  have hrows : (VariantContractLint.epRows s).side = p.color ∧
      (VariantContractLint.epRows s).enemy = ⟨p.color, .pawn⟩ ∧
      (VariantContractLint.epRows s).row.rev = (mover p.color).moverRank ∧
      Grid.ofBoard p.board (VariantContractLint.epRows s).row s.file =
        some (VariantContractLint.epRows s).pawn ∧
      Grid.ofBoard p.board (VariantContractLint.epRows s).origin s.file = none ∧
      Grid.ofBoard p.board (VariantContractLint.epRows s).skipped s.file = none := by
    obtain ⟨sf, sr⟩ := s
    have hmover := hrules.mover
    have hpawn := hrules.pawn
    have htarget := hrules.target
    have horigin := hrules.origin
    simp only [epRanks, List.mem_cons, List.not_mem_nil, or_false] at hs
    rcases hs with rfl | rfl
    · exact ⟨hmover.symm, by rw [hmover]; rfl, by rw [hmover]; rfl, hpawn, horigin, htarget⟩
    · exact ⟨hmover.symm, by rw [hmover]; rfl, by rw [hmover]; rfl, hpawn, horigin, htarget⟩
  obtain ⟨hside, henemy, hrank, hpawn, horigin, hskipped⟩ := hrows
  have hcell : ∀ f : Fin 8, (Grid.ofBoard p.board (VariantContractLint.epRows s).row f ==
      some ⟨p.color, .pawn⟩) = true ↔
      p.board ⟨f, (mover p.color).moverRank⟩ = some ⟨p.color, .pawn⟩ := by
    intro f
    rw [VariantContractLint.ofBoard_apply, hrank, beq_iff_eq]
  have hfind : ∀ f : Fin 8, p.board ⟨f, (mover p.color).moverRank⟩ = some ⟨p.color, .pawn⟩ →
      (VariantContractLint.simulate (Grid.ofBoard p.board) s (VariantContractLint.epRows s).row
        ⟨p.color, .pawn⟩ f).find (king p.color) = [(k.rank.rev, k.file)] := by
    intro f hfrm
    rw [simulate_eq hrules hs,
      VariantContractLint.find_king ((kingAt_afterCapture hrules hs hfrm).mpr hk)]
  have hsafety : ∀ f : Fin 8, (!VariantContractLint.attacks
      (VariantContractLint.simulate (Grid.ofBoard p.board) s (VariantContractLint.epRows s).row
        ⟨p.color, .pawn⟩ f) k.rank.rev.val k.file.val p.color.other) = true ↔
      ∀ k', KingAt p.board p.color k' →
        ¬ LintAttacked (afterCapture p s ⟨f, (mover p.color).moverRank⟩) p.color.other k' := by
    intro f
    rw [simulate_eq hrules hs]
    simp only [Bool.not_eq_true', ← Bool.not_eq_true, VariantContractLint.attacks_square]
    exact ⟨fun hsafe k' hk' => hk'.unique hk ▸ hsafe, fun hall => hall k hk⟩
  unfold VariantContractLint.checkEpSemantics
  simp only [hside, henemy, hpawn, horigin, hskipped, BEq.rfl, Bool.and_self, Bool.true_and]
  unfold VariantContractLint.epCaptureLegal
  rw [List.any_eq_true]
  constructor
  · intro hlegal
    obtain ⟨df, hdf, hlegal⟩ := hlegal
    cases hcolumn : VariantContractLint.column (s.x + df) with
    | none =>
      rw [hcolumn] at hlegal
      cases hlegal
    | some f =>
      rw [hcolumn] at hlegal
      simp only [Bool.and_eq_true, hcell] at hlegal
      obtain ⟨hboard, hlegal⟩ := hlegal
      rw [hfind f hboard] at hlegal
      have hsafe := (hsafety f).mp hlegal
      refine ⟨⟨f, (mover p.color).moverRank⟩, rfl, ?_, hboard, hsafe⟩
      have hfile := VariantContractLint.column_eq_some.mp hcolumn
      simp only [List.mem_cons, List.not_mem_nil, or_false] at hdf
      rcases hdf with rfl | rfl
      · exact .inl hfile
      · exact .inr hfile
  · intro hlegal
    obtain ⟨⟨f, r⟩, hr, hfile, hboard, hsafe⟩ := hlegal
    simp only at hr
    subst hr
    have hlegal := (hsafety f).mpr hsafe
    rcases hfile with hfile | hfile
    · refine ⟨-1, by simp, ?_⟩
      rw [VariantContractLint.column_eq_some.mpr hfile]
      simp only [Bool.and_eq_true, hcell]
      rw [hfind f hboard]
      exact ⟨hboard, hlegal⟩
    · refine ⟨1, by simp, ?_⟩
      rw [VariantContractLint.column_eq_some.mpr hfile]
      simp only [Bool.and_eq_true, hcell]
      rw [hfind f hboard]
      exact ⟨hboard, hlegal⟩

/-! ### The whole check -/

/-- What the lint asks beyond the parser: the waiting king unattacked, a
recorded target capturable, both in its own sense, and counters of at most ten
digits. -/
structure LintAccepts (p : Position) : Prop where
  waiting : ∀ k, KingAt p.board p.color.other k → ¬ LintAttacked p.board p.color k
  capture : ∀ s, p.ep = some s → Capturable LintAttacked p s
  half : (Nat.toDigits 10 p.half).length ≤ 10
  full : (Nat.toDigits 10 p.full).length ≤ 10

theorem counters_iff (h : WellFormed p) :
    ((Nat.toDigits 10 p.half == ['0'] ||
        VariantContractLint.boundedInt (Nat.toDigits 10 p.half)) &&
      VariantContractLint.boundedInt (Nat.toDigits 10 p.full)) = true ↔
      (Nat.toDigits 10 p.half).length ≤ 10 ∧ (Nat.toDigits 10 p.full).length ≤ 10 := by
  have hzero : Nat.toDigits 10 0 = ['0'] := by decide
  have hfull : 0 < p.full := h.fullPos
  rw [boundedInt_toDigits, boundedInt_toDigits, Bool.and_eq_true, Bool.or_eq_true, beq_iff_eq,
    decide_eq_true_eq, decide_eq_true_eq, and_iff_right hfull]
  refine and_congr_left fun _ => ?_
  constructor
  · intro hhalf
    obtain hhalf | hhalf := hhalf
    · rw [hhalf]
      decide
    · exact hhalf.2
  · intro hlength
    rcases Nat.eq_zero_or_pos p.half with hhalf | hhalf
    · exact .inl (hhalf ▸ hzero)
    · exact .inr ⟨hhalf, hlength⟩

/-- The lint accepts a parsed text exactly when its three extra conditions hold. -/
theorem checkFen_iff (h : Accepted p) :
    VariantContractLint.checkFen (.str (fenText p)) .orthodox = .ok () ↔ LintAccepts p := by
  obtain ⟨k, hk⟩ := exists_king h.legal p.color.other
  have hrights := readCastling_of_readRights (readRights_eq_some.mpr ⟨rfl, h.wellFormed.rights⟩)
  have htarget : VariantContractLint.readTarget (emitEp p.ep) = some p.ep := by
    rw [readTarget_eq]
    exact readEp_eq_some.mpr ⟨rfl, h.wellFormed.ep⟩
  have hposition := checkPositionSemantics_iff h.legal hk
  have hcapture : (p.ep.all fun s => VariantContractLint.checkEpSemantics (Grid.ofBoard p.board) s
      p.color) = true ↔ ∀ s, p.ep = some s → Capturable LintAttacked p s := by
    cases hep : p.ep with
    | none => simp
    | some s =>
      rw [Option.all_some, checkEpSemantics_iff h.legal hep (h.wellFormed.ep s hep)]
      simp
  have hcounters := counters_iff h.wellFormed
  simp only [VariantContractLint.checkFen]
  rw [fenText, splitOn_fields]
  simp only [fieldsOf, parseBoard_emitPlacement, readSide_eq_some.mpr rfl, hrights, htarget]
  constructor
  · intro hok
    split_ifs at hok with hshort hrules
    rw [Bool.not_eq_false] at hshort hrules
    rw [Bool.and_eq_true, hposition, hcapture] at hrules
    obtain ⟨hhalf, hfull⟩ := hcounters.mp hshort
    exact ⟨fun k' hk' => hk'.unique hk ▸ hrules.1, hrules.2, hhalf, hfull⟩
  · intro haccepts
    have hrules : (VariantContractLint.checkPositionSemantics (Grid.ofBoard p.board) p.rights
        p.color .orthodox && p.ep.all fun s =>
          VariantContractLint.checkEpSemantics (Grid.ofBoard p.board) s p.color) = true := by
      rw [Bool.and_eq_true, hposition, hcapture]
      exact ⟨haccepts.waiting k hk, haccepts.capture⟩
    rw [if_neg, if_neg]
    · rw [Bool.not_eq_false]
      exact hrules
    · rw [Bool.not_eq_false]
      exact hcounters.mpr ⟨haccepts.half, haccepts.full⟩

end Agreement
end OpenChess
