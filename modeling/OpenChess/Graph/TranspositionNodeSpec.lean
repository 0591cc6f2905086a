import OpenChess.Graph.PositionDigest
import OpenChess.Graph.TranspositionNode

/-!
# Node records

A record is accepted exactly when its snapshot is the text of a normal position
and its digest is the oracle's reply to that snapshot. The identity of such a
record is its variant together with its snapshot.
-/

namespace OpenChess
namespace TranspositionNode

open Fen PositionDigest

variable {o : Oracle} {v t : Text} {p : Position} {r s : Record}

/-! ### Identities -/

def identityOf (v : Text) (p : Position) : Identity :=
  ⟨v, emitPlacement p.board, [p.color.letter], emitRights p.rights, emitEp (epIdentity p)⟩

theorem identityTuple_eq (h : WellFormed p) : identityTuple v p = some (identityOf v p) := by
  rw [identityTuple, placementText_eq h]
  rfl

theorem identityOf_normal (h : Accepted p) : identityOf v (normal p) = identityOf v p := by
  rw [identityOf, h.epIdentity_normal]
  rfl

theorem snapshotFen_identityOf : snapshotFen (identityOf v p) = fenText (normal p) := by
  rw [fenText, fieldsOf_normal]
  rfl

/-- The record section of the contract, the digest apart. -/
structure Stored (r : Record) : Prop where
  variant : r.variant ∈ variantIds
  snapshot : ∃ p, Accepted p ∧ normal p = p ∧ r.snapshotFen = fenText p

theorem Stored.identity_eq (h : Stored r) :
    ∃ i, identity r = some i ∧ i.variant = r.variant ∧ snapshotFen i = r.snapshotFen := by
  obtain ⟨p, hp, hnormal, htext⟩ := h.snapshot
  refine ⟨identityOf r.variant p, ?_, rfl, ?_⟩
  · rw [identity, htext, hp.parse]
    exact identityTuple_eq hp.wellFormed
  · rw [snapshotFen_identityOf, hnormal, htext]

/-- Stored records are identified by variant and snapshot. -/
theorem identity_eq_iff (hr : Stored r) (hs : Stored s) :
    identity r = identity s ↔ r.variant = s.variant ∧ r.snapshotFen = s.snapshotFen := by
  constructor
  · intro h
    obtain ⟨i, hi, hiv, his⟩ := hr.identity_eq
    obtain ⟨j, hj, hjv, hjs⟩ := hs.identity_eq
    rw [hi, hj, Option.some.injEq] at h
    rw [← hiv, ← his, ← hjv, ← hjs, h]
    exact ⟨rfl, rfl⟩
  · intro h
    rw [identity, identity, h.1, h.2]

/-! ### The oracle boundary -/

theorem oracleDigest_eq_ok {d : Text} :
    oracleDigest o v t = .ok d ↔ o v t = .returned (.str d) ∧ digestFormat d = true := by
  unfold oracleDigest
  cases h : o v t with
  | raised => simp [Reply.digest?]
  | returned out =>
    cases out with
    | foreign n => simp [Reply.digest?]
    | str out =>
      by_cases hf : digestFormat out = true
      · simp only [Reply.digest?, hf, if_true, Except.ok.injEq, Reply.returned.injEq,
          Scalar.str.injEq, iff_self_and]
        rintro rfl
        exact hf
      · simp only [Reply.digest?, hf, Bool.false_eq_true, if_false, reduceCtorEq, false_iff,
          Reply.returned.injEq, Scalar.str.injEq, not_and]
        rintro rfl
        exact hf

theorem digestFormat_digest (sha : Sha256) (encoding : Text) :
    digestFormat (digest sha encoding) = true := sha.tagged tag encoding

/-- The default oracle answers with the hash of the canonical encoding. -/
theorem defaultDigest_fenText (sha : Sha256) (h : Accepted p) (hv : v ∈ variantIds) :
    defaultDigest sha v (fenText p) = .returned (.str (digest sha (encoding v p))) := by
  rw [defaultDigest, digestFen_fenText sha h hv]

/-! ### Making a record -/

def recordOf (v d : Text) (p : Position) : Record := ⟨v, d, fenText (normal p)⟩

theorem stored_recordOf {d : Text} (hv : v ∈ variantIds) (hp : Accepted p) :
    Stored (recordOf v d p) :=
  ⟨hv, normal p, hp.normal, hp.normal_normal, rfl⟩

theorem makeRecord_eq_ok {variant fen : Scalar} :
    makeRecord o variant fen = .ok r ↔ ∃ v p, variant = .str v ∧ fen = .str (fenText p) ∧
      v ∈ variantIds ∧ Accepted p ∧ oracleDigest o v (fenText p) = .ok r.digest ∧
      r = recordOf v r.digest p := by
  constructor
  · intro h
    unfold makeRecord at h
    split at h
    · cases h
    · rename_i v
      split_ifs at h with hv
      split at h
      · cases h
      · rename_i text
        split at h
        · cases h
        · rename_i p hparse
          obtain ⟨hp, rfl⟩ := parseFen_iff.mp hparse
          rw [identityTuple_eq hp.wellFormed] at h
          simp only at h
          split at h
          · cases h
          · rename_i d hd
            rw [snapshotFen_identityOf] at h
            cases h
            exact ⟨v, p, rfl, rfl, hv, hp, hd, rfl⟩
  · intro h
    obtain ⟨v, p, rfl, rfl, hv, hp, hd, hr⟩ := h
    simp only [makeRecord]
    rw [if_neg (not_not.mpr hv), hp.parse]
    simp only
    rw [identityTuple_eq hp.wellFormed]
    simp only
    rw [hd, snapshotFen_identityOf]
    exact congrArg Except.ok hr.symm

theorem stored_of_makeRecord {variant fen : Scalar} (h : makeRecord o variant fen = .ok r) :
    Stored r := by
  obtain ⟨v, p, -, -, hv, hp, -, hr⟩ := makeRecord_eq_ok.mp h
  rw [hr]
  exact stored_recordOf hv hp

/-! ### Validating a record -/

theorem emitEp_injective : Function.Injective emitEp := by
  intro e e' h
  have hname : ∀ s : Square, s.name ≠ ['-'] := by
    intro s h
    simp [Square.name] at h
  cases e with
  | none =>
    cases e' with
    | none => rfl
    | some s' => exact absurd h.symm (hname s')
  | some s =>
    cases e' with
    | none => exact absurd h (hname s)
    | some s' => rw [Square.name_injective h]

theorem checkSnapshot_eq_ok :
    checkSnapshot v t = .ok () ↔ ∃ p, Accepted p ∧ normal p = p ∧ t = fenText p := by
  constructor
  · intro h
    unfold checkSnapshot at h
    split at h
    · cases h
    · rename_i p hparse
      obtain ⟨hp, rfl⟩ := parseFen_iff.mp hparse
      rw [fenText, splitOn_fields] at h
      simp only [fieldsOf] at h
      split_ifs at h with hclocks
      rw [identityTuple_eq hp.wellFormed] at h
      simp only at h
      split_ifs at h with hep
      simp only [not_or, ne_eq, not_not] at hclocks hep
      have hhalf : p.half = 0 := Separated.toDigits_injective (hclocks.1.trans (by decide))
      have hfull : p.full = 1 := Separated.toDigits_injective (hclocks.2.trans (by decide))
      have htarget : p.ep = epIdentity p := emitEp_injective hep
      refine ⟨p, hp, ?_, rfl⟩
      rw [normal, ← htarget, ← hhalf, ← hfull]
  · intro h
    obtain ⟨p, hp, hnormal, rfl⟩ := h
    have hfields : fieldsOf p = [emitPlacement p.board, [p.color.letter], emitRights p.rights,
        emitEp (epIdentity p), ['0'], ['1']] := by
      rw [← fieldsOf_normal, hnormal]
    unfold checkSnapshot
    rw [hp.parse]
    simp only
    rw [fenText, splitOn_fields, hfields]
    simp only [ne_eq, not_true_eq_false, or_self, if_false]
    rw [identityTuple_eq hp.wellFormed]
    exact if_neg (not_not.mpr rfl)

/-- A stored record whose digest is the oracle's reply to its snapshot. -/
structure Valid (o : Oracle) (r : Record) : Prop where
  stored : Stored r
  digest : oracleDigest o r.variant r.snapshotFen = .ok r.digest

theorem validateRecord_eq_ok {record : Object} :
    validateRecord o record = .ok r ↔
      (∃ members, record = .mapping members ∧ readRecord members = some r) ∧ Valid o r := by
  constructor
  · intro h
    unfold validateRecord at h
    split at h
    · cases h
    · rename_i members
      split at h
      · cases h
      · rename_i r' hread
        split_ifs at h with hv hformat
        split at h
        · cases h
        · rename_i hcheck
          split at h
          · cases h
          · rename_i d hd
            split_ifs at h with hdigest
            cases h
            exact ⟨⟨members, rfl, hread⟩, ⟨hv, checkSnapshot_eq_ok.mp hcheck⟩,
              not_not.mp hdigest ▸ hd⟩
  · intro h
    obtain ⟨⟨members, rfl, hread⟩, hvalid⟩ := h
    have hformat : digestFormat r.digest ≠ false := by
      rw [(oracleDigest_eq_ok.mp hvalid.digest).2]
      decide
    simp only [validateRecord]
    rw [hread]
    simp only
    rw [if_neg (not_not.mpr hvalid.stored.variant), if_neg hformat,
      checkSnapshot_eq_ok.mpr hvalid.stored.snapshot]
    simp only
    rw [hvalid.digest]
    exact if_neg (not_not.mpr rfl)

end TranspositionNode
end OpenChess
