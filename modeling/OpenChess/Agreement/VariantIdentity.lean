import OpenChess.Agreement.FenClosure
import OpenChess.Agreement.Node

/-!
# Identity in the variant runtime

The runtime compares the written fields. Every field but the castling rights has
one accepted form for each value; the castling letters are accepted in any order
and kept as they were written.
-/

namespace OpenChess
namespace Agreement

open Fen
open VariantRuntime (parsePosition identity)

variable {t u f g : Text} {v : Scalar} {p q : VariantRuntime.Position} {rights : List Right}

/-! ### One form for each value -/

theorem parseBoard_injective {grid : VariantContractLint.Grid}
    (ht : VariantContractLint.parseBoard t = some grid)
    (hu : VariantContractLint.parseBoard u = some grid) : t = u := by
  rw [parseBoard_eq] at ht hu
  obtain ⟨b, hb, rfl⟩ := Option.map_eq_some_iff.mp ht
  obtain ⟨b', hb', hgrid⟩ := Option.map_eq_some_iff.mp hu
  have hboard : b' = b := by
    rw [← VariantContractLint.Grid.toBoard_ofBoard b', hgrid,
      VariantContractLint.Grid.toBoard_ofBoard]
  rw [hboard] at hb'
  exact (readPlacement_eq_some.mp hb).symm.trans (readPlacement_eq_some.mp hb')

theorem readTarget_injective {target : Option Square}
    (ht : VariantContractLint.readTarget t = some target)
    (hu : VariantContractLint.readTarget u = some target) : t = u := by
  rw [readTarget_eq, readEp_eq_some] at ht hu
  exact ht.1.symm.trans hu.1

theorem readCastling_eq_some :
    VariantContractLint.readCastling t = some rights ↔ emitRights rights = t ∧ rights.Nodup := by
  unfold VariantContractLint.readCastling emitRights
  by_cases hdash : t = ['-']
  · subst hdash
    rw [if_pos rfl, Option.some.injEq]
    constructor
    · rintro rfl
      exact ⟨rfl, List.nodup_nil⟩
    · rintro ⟨hemit, -⟩
      by_contra hne
      rw [if_neg (Ne.symm hne)] at hemit
      exact letters_ne_dash rights hemit
  · rw [if_neg hdash]
    constructor
    · intro h
      split at h
      · cases h
      · rename_i rs hrs
        split_ifs at h with hbad
        cases h
        obtain ⟨hnil, hnodup⟩ := not_or.mp hbad
        rw [if_neg hnil]
        exact ⟨mapM_right_eq_some.mp hrs, not_not.mp hnodup⟩
    · rintro ⟨hemit, hnodup⟩
      split_ifs at hemit with hnil
      · exact absurd hemit.symm hdash
      · rw [mapM_right_eq_some.mpr hemit]
        exact if_neg (not_or.mpr ⟨hnil, not_not.mpr hnodup⟩)

theorem emitRights_perm {rights' : List Right} (h : rights.Nodup) (h' : rights'.Nodup) :
    (emitRights rights).Perm (emitRights rights') ↔ rights.toFinset = rights'.toFinset := by
  rw [List.toFinset_eq_iff_perm_dedup, h.dedup, h'.dedup]
  constructor
  · intro hperm
    have hback := hperm.filterMap rightOf?
    have hread : ∀ rs : List Right, (emitRights rs).filterMap rightOf? = rs := by
      intro rs
      have hletter : (rightOf? ∘ Right.letter) = some := funext fun r => rightOf?_eq_some.mpr rfl
      unfold emitRights
      split_ifs with hnil
      · rw [hnil]
        rfl
      · rw [List.filterMap_map, hletter, List.filterMap_some]
    rwa [hread, hread] at hback
  · intro hperm
    unfold emitRights
    by_cases hnil : rights = []
    · rw [hnil] at hperm ⊢
      rw [hperm.nil_eq.symm]
    · have hnil' : rights' ≠ [] := fun he => hnil (by rw [he] at hperm; exact hperm.eq_nil)
      rw [if_neg hnil, if_neg hnil']
      exact hperm.map _

/-! ### Accepted texts -/

/-- What the fields of a checked text stand for. -/
structure Reads (p : VariantRuntime.Position) (grid : VariantContractLint.Grid) (side : Color)
    (rights : List Right) (target : Option Square) : Prop where
  board : VariantContractLint.parseBoard p.board = some grid
  side : VariantContractLint.readSide p.sideToMove = some side
  castling : VariantContractLint.readCastling p.castlingRights = some rights
  target : VariantContractLint.readTarget p.enPassant = some target

/-- The check reads the fields, bounds the counters and tests the position they
stand for; the counters play no part in that. -/
theorem checkFen_eq_ok {kind : CastlingKind} {half full : Text}
    (hsplit : t.splitOn ' ' = [p.board, p.sideToMove, p.castlingRights, p.enPassant, half, full]) :
    VariantContractLint.checkFen (.str t) kind = .ok () ↔
      ((half = ['0'] ∨ VariantContractLint.boundedInt half = true) ∧
        VariantContractLint.boundedInt full = true) ∧
      ∃ grid side rights target, Reads p grid side rights target ∧
        VariantContractLint.checkPositionSemantics grid rights side kind = true ∧
        (target.all fun s => VariantContractLint.checkEpSemantics grid s side) = true := by
  simp only [VariantContractLint.checkFen, hsplit]
  constructor
  · intro h
    split at h
    · cases h
    · rename_i grid hgrid
      split at h
      · cases h
      · rename_i side hside
        split at h
        · cases h
        · rename_i rights hrights
          split at h
          · cases h
          · rename_i target htarget
            split_ifs at h with hshort hlegal
            simp only [Bool.not_eq_false, Bool.and_eq_true, Bool.or_eq_true, beq_iff_eq]
              at hshort hlegal
            exact ⟨hshort, grid, side, rights, target, ⟨hgrid, hside, hrights, htarget⟩, hlegal⟩
  · rintro ⟨hshort, grid, side, rights, target, hreads, hlegal⟩
    have hcounters : ((half == ['0'] || VariantContractLint.boundedInt half) &&
        VariantContractLint.boundedInt full) = true := by
      simpa only [Bool.and_eq_true, Bool.or_eq_true, beq_iff_eq] using hshort
    have hsemantics : (VariantContractLint.checkPositionSemantics grid rights side kind &&
        target.all fun s => VariantContractLint.checkEpSemantics grid s side) = true := by
      simpa only [Bool.and_eq_true] using hlegal
    simp only [hreads.board, hreads.side, hreads.castling, hreads.target, hcounters, hsemantics,
      Bool.true_eq_false, if_false]

/-- An accepted text: its first four fields, which `identity` returns unchanged. -/
theorem of_parsePosition (h : parsePosition v (.str f) = .ok p) :
    v = .str p.variant ∧ (∃ half full,
      f.splitOn ' ' = [p.board, p.sideToMove, p.castlingRights, p.enPassant, half, full]) ∧
    (∃ grid side rights target, Reads p grid side rights target) ∧ identity p = .ok p := by
  unfold parsePosition at h
  cases hvariant : VariantRuntime.checkedVariant v with
  | error e =>
    rw [hvariant] at h
    cases h
  | ok entry =>
    obtain ⟨rfl, hv, hkind⟩ := mem_of_checkedVariant hvariant
    rw [hvariant] at h
    simp only [VariantRuntime.checkedFen, hkind] at h
    cases hcheck : VariantContractLint.checkFen (.str f) .orthodox with
    | error cls =>
      rw [hcheck] at h
      cases h
    | ok u =>
      rw [hcheck] at h
      obtain ⟨board, side, castling, ep, half, full, hsplit, -⟩ := checkFen_fields hcheck
      simp only [VariantRuntime.splitPosition, hsplit, Except.ok.injEq] at h
      subst h
      obtain ⟨-, grid, c, rights, target, hreads, hlegal⟩ :=
        (checkFen_eq_ok (p := ⟨entry.id, board, side, castling, ep⟩) hsplit).mp hcheck
      refine ⟨rfl, ⟨half, full, hsplit⟩, ⟨grid, c, rights, target, hreads⟩, ?_⟩
      have hblank : ∀ l ∈ [board, side, castling, ep, half, full], ' ' ∉ l := by
        rw [← hsplit]
        exact fun l hl => Separated.not_mem_of_mem_splitOn ' ' f l hl
      have hfields : ∀ l ∈ [board, side, castling, ep, ['0'], ['1']], ' ' ∉ l := by
        simp only [List.forall_mem_cons, List.not_mem_nil, false_imp_iff, imp_true_iff, and_true]
          at hblank ⊢
        exact ⟨hblank.1, hblank.2.1, hblank.2.2.1, hblank.2.2.2.1, by decide, by decide⟩
      have htext := List.splitOn_intercalate ' ' hfields (by simp)
      have hagain := (checkFen_eq_ok (p := ⟨entry.id, board, side, castling, ep⟩) htext).mpr
        ⟨⟨.inl rfl, by decide⟩, grid, c, rights, target, hreads, hlegal⟩
      unfold identity
      simp only [checkedVariant_of_mem hv, VariantRuntime.checkedFen,
        VariantRuntime.Position.text]
      rw [hagain]

/-! ### Identity -/

/-- The same placement, side to move, set of castling rights and en-passant target. -/
def SamePosition (p q : VariantRuntime.Position) : Prop :=
  VariantContractLint.parseBoard p.board = VariantContractLint.parseBoard q.board ∧
  VariantContractLint.readSide p.sideToMove = VariantContractLint.readSide q.sideToMove ∧
  (VariantContractLint.readCastling p.castlingRights).map List.toFinset =
    (VariantContractLint.readCastling q.castlingRights).map List.toFinset ∧
  VariantContractLint.readTarget p.enPassant = VariantContractLint.readTarget q.enPassant

def fieldAt (t : Text) (i : ℕ) : Text := (t.splitOn ' ').getD i []

/-- Two texts that differ, counters apart, only in the order of their castling letters. -/
def Reordered (f g : Text) : Prop :=
  fieldAt f 0 = fieldAt g 0 ∧ fieldAt f 1 = fieldAt g 1 ∧ fieldAt f 3 = fieldAt g 3 ∧
    fieldAt f 2 ≠ fieldAt g 2 ∧ (fieldAt f 2).Perm (fieldAt g 2)

theorem samePosition_iff {grid grid' : VariantContractLint.Grid} {side side' : Color}
    {rights' : List Right} {target target' : Option Square}
    (hp : Reads p grid side rights target) (hq : Reads q grid' side' rights' target') :
    SamePosition p q ↔ p.board = q.board ∧ p.sideToMove = q.sideToMove ∧
      p.castlingRights.Perm q.castlingRights ∧ p.enPassant = q.enPassant := by
  obtain ⟨hletters, hnodup⟩ := readCastling_eq_some.mp hp.castling
  obtain ⟨hletters', hnodup'⟩ := readCastling_eq_some.mp hq.castling
  have hboard : VariantContractLint.parseBoard p.board = VariantContractLint.parseBoard q.board ↔
      p.board = q.board :=
    ⟨fun h => parseBoard_injective hp.board (h.symm.trans hp.board), fun h => by rw [h]⟩
  have hside : VariantContractLint.readSide p.sideToMove =
      VariantContractLint.readSide q.sideToMove ↔ p.sideToMove = q.sideToMove := by
    constructor
    · intro h
      exact (readSide_eq_some.mp hp.side).symm.trans (readSide_eq_some.mp (h.symm.trans hp.side))
    · intro h
      rw [h]
  have htarget : VariantContractLint.readTarget p.enPassant =
      VariantContractLint.readTarget q.enPassant ↔ p.enPassant = q.enPassant :=
    ⟨fun h => readTarget_injective hp.target (h.symm.trans hp.target), fun h => by rw [h]⟩
  rw [SamePosition, hboard, hside, htarget, hp.castling, hq.castling, Option.map_some,
    Option.map_some, Option.some.injEq, ← emitRights_perm hnodup hnodup', hletters, hletters']

/-- Two accepted texts of one variant have equal identities exactly if they are the
same position, unless they differ in the order of their castling letters alone. -/
theorem identity_canonical_iff (v : Scalar) (f g : Text) (p q : VariantRuntime.Position)
    (hf : parsePosition v (.str f) = .ok p) (hg : parsePosition v (.str g) = .ok q) :
    (identity p = identity q ↔ SamePosition p q) ↔ ¬ Reordered f g := by
  obtain ⟨hvp, ⟨half, full, hsplit⟩, ⟨grid, side, rights, target, hreads⟩, hp⟩ :=
    of_parsePosition hf
  obtain ⟨hvq, ⟨half', full', hsplit'⟩, ⟨grid', side', rights', target', hreads'⟩, hq⟩ :=
    of_parsePosition hg
  have hvariant : p.variant = q.variant := Scalar.str.inj (hvp.symm.trans hvq)
  have hidentity : identity p = identity q ↔ p.board = q.board ∧ p.sideToMove = q.sideToMove ∧
      p.castlingRights = q.castlingRights ∧ p.enPassant = q.enPassant := by
    rw [hp, hq, Except.ok.injEq]
    obtain ⟨_, _, _, _, _⟩ := p
    obtain ⟨_, _, _, _, _⟩ := q
    simp only [VariantRuntime.Position.mk.injEq] at hvariant ⊢
    exact and_iff_right hvariant
  have hreordered : Reordered f g ↔ p.board = q.board ∧ p.sideToMove = q.sideToMove ∧
      p.enPassant = q.enPassant ∧ p.castlingRights ≠ q.castlingRights ∧
      p.castlingRights.Perm q.castlingRights := by
    simp only [Reordered, fieldAt, hsplit, hsplit']
    exact Iff.rfl
  have hrefl : p.castlingRights = q.castlingRights →
      p.castlingRights.Perm q.castlingRights := fun h => h ▸ List.Perm.refl _
  rw [hidentity, samePosition_iff hreads hreads', hreordered]
  constructor
  · rintro hiff ⟨hboard, hside, hep, hne, hperm⟩
    exact hne (hiff.mpr ⟨hboard, hside, hperm, hep⟩).2.2.1
  · intro hno
    constructor
    · rintro ⟨hboard, hside, hletters, hep⟩
      exact ⟨hboard, hside, hrefl hletters, hep⟩
    · rintro ⟨hboard, hside, hperm, hep⟩
      refine ⟨hboard, hside, ?_, hep⟩
      by_contra hne
      exact hno ⟨hboard, hside, hep, hne, hperm⟩

/-- White's king and rooks at home against a king, with these castling letters. -/
def homeText (castling : Text) : Text :=
  "4k3/8/8/8/8/8/8/R3K2R w ".toList ++ castling ++ " - 0 1".toList

def homePosition (castling : Text) : VariantRuntime.Position :=
  ⟨"standard".toList, "4k3/8/8/8/8/8/8/R3K2R".toList, ['w'], castling, ['-']⟩

theorem identity_canonical_home : identity (homePosition ['K', 'Q']) = identity (homePosition ['K']) ↔
    SamePosition (homePosition ['K', 'Q']) (homePosition ['K']) :=
  (identity_canonical_iff (.str "standard".toList) (homeText ['K', 'Q']) (homeText ['K'])
    (homePosition ['K', 'Q']) (homePosition ['K']) (by decide +kernel) (by decide +kernel)).mpr
    fun h => absurd h.2.2.2.2 (by decide +kernel)

/-- `KQ` and `QK` stand for the same rights, and the identities differ. -/
theorem not_identity_canonical : ¬ ∀ v f g p q, parsePosition v (.str f) = .ok p →
    parsePosition v (.str g) = .ok q → (identity p = identity q ↔ SamePosition p q) := by
  intro h
  have hiff := h (.str "standard".toList) (homeText ['K', 'Q']) (homeText ['Q', 'K'])
    (homePosition ['K', 'Q']) (homePosition ['Q', 'K']) (by decide +kernel) (by decide +kernel)
  have hsame : SamePosition (homePosition ['K', 'Q']) (homePosition ['Q', 'K']) :=
    ⟨rfl, rfl, by decide, rfl⟩
  exact absurd (hiff.mpr hsame) (by decide +kernel)

end Agreement
end OpenChess
