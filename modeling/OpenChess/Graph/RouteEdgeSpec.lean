import OpenChess.Graph.RouteEdge
import OpenChess.Graph.TranspositionNodeTable

/-!
# The single-target law of edge tables

A stored edge is determined by its variant, its move and its two snapshots, and
edges of one origin and move share a bucket. A scan of that bucket therefore sees
every edge that could conflict, and merging succeeds exactly when the two tables
agree on the targets of their common origins and moves.
-/

namespace OpenChess
namespace RouteEdge

open Fen PositionDigest
open TranspositionNode (Oracle Listing oracleDigest identityTuple snapshotFen)

variable {o : Oracle} {r s : Record} {T A B : Table}

/-! ### Stored edges -/

def IsSnapshot (t : Text) : Prop := ∃ p, Accepted p ∧ normal p = p ∧ t = fenText p

/-- The record section of the contract. -/
structure Stored (r : Record) : Prop where
  variant : r.variant ∈ variantIds
  move : moveOk r.move = true
  fromSnapshot : IsSnapshot r.fromSnapshotFen
  toSnapshot : IsSnapshot r.toSnapshotFen

/-- Variant, move and from-snapshot: the text form of `identity[:3]`. -/
def routeText (r : Record) : Text × Text × Text := (r.variant, r.move, r.fromSnapshotFen)

theorem nodeIdentity_eq {v t : Text} (h : IsSnapshot t) :
    ∃ i, nodeIdentity v t = some i ∧ i.variant = v ∧ snapshotFen i = t := by
  obtain ⟨p, hp, hnormal, rfl⟩ := h
  refine ⟨TranspositionNode.identityOf v p, ?_, rfl, ?_⟩
  · rw [nodeIdentity, hp.parse]
    exact TranspositionNode.identityTuple_eq hp.wellFormed
  · rw [TranspositionNode.snapshotFen_identityOf, hnormal]

theorem Stored.identity_eq (h : Stored r) : ∃ i, identity r = some i ∧ i.variant = r.variant ∧
    i.move = r.move ∧ nodeIdentity r.variant r.fromSnapshotFen = some i.fromNode ∧
    nodeIdentity r.variant r.toSnapshotFen = some i.toNode := by
  obtain ⟨i, hi, -, -⟩ := nodeIdentity_eq (v := r.variant) h.fromSnapshot
  obtain ⟨j, hj, -, -⟩ := nodeIdentity_eq (v := r.variant) h.toSnapshot
  exact ⟨⟨r.variant, r.move, i, j⟩, by rw [identity, hi, hj], rfl, rfl, hi, hj⟩

theorem nodeIdentity_inj {v t t' : Text} (h : IsSnapshot t) (h' : IsSnapshot t')
    (heq : nodeIdentity v t = nodeIdentity v t') : t = t' := by
  obtain ⟨i, hi, -, ht⟩ := nodeIdentity_eq (v := v) h
  obtain ⟨j, hj, -, ht'⟩ := nodeIdentity_eq (v := v) h'
  rw [hi, hj, Option.some.injEq] at heq
  rw [← ht, ← ht', heq]

/-- Stored edges agree on `identity[:3]` exactly when their texts do. -/
theorem route_eq_iff (hr : Stored r) (hs : Stored s) :
    (identity r).map Identity.route = (identity s).map Identity.route ↔
      routeText r = routeText s := by
  obtain ⟨i, hi, hiv, him, hif, -⟩ := hr.identity_eq
  obtain ⟨j, hj, hjv, hjm, hjf, -⟩ := hs.identity_eq
  rw [hi, hj, Option.map_some, Option.map_some, Option.some.injEq]
  simp only [Identity.route, routeText, Prod.mk.injEq, hiv, hjv, him, hjm]
  refine and_congr_right fun hv => and_congr_right fun _ => ?_
  rw [← Option.some.injEq, ← hif, ← hjf, hv]
  exact ⟨nodeIdentity_inj hr.fromSnapshot hs.fromSnapshot, fun h => by rw [h]⟩

/-- A stored edge is determined by its identity. -/
theorem eq_of_identity (hr : Stored r) (hs : Stored s) (h : identity r = identity s) : r = s := by
  obtain ⟨i, hi, hiv, him, hif, hit⟩ := hr.identity_eq
  obtain ⟨j, hj, hjv, hjm, hjf, hjt⟩ := hs.identity_eq
  rw [hi, hj, Option.some.injEq] at h
  subst h
  have hv : r.variant = s.variant := hiv.symm.trans hjv
  have hfrom := nodeIdentity_inj hr.fromSnapshot hs.fromSnapshot (hif.trans (hv ▸ hjf.symm))
  have hto := nodeIdentity_inj hr.toSnapshot hs.toSnapshot (hit.trans (hv ▸ hjt.symm))
  cases r
  cases s
  simp_all

/-! ### Making and validating an edge -/

theorem snapshot_eq {v : Text} {p : Position} (hp : Accepted p) :
    snapshot v p = some (fenText (normal p)) := by
  rw [snapshot, TranspositionNode.identityTuple_eq hp.wellFormed, Option.map_some,
    TranspositionNode.snapshotFen_identityOf]

theorem isSnapshot_normal {p : Position} (hp : Accepted p) : IsSnapshot (fenText (normal p)) :=
  ⟨normal p, hp.normal, hp.normal_normal, rfl⟩

theorem stored_of_makeRecord {variant move fromFen toFen : Scalar}
    (h : makeRecord variant move fromFen toFen = .ok r) : Stored r := by
  unfold makeRecord at h
  split at h
  · cases h
  · split_ifs at h with hv
    split at h
    · cases h
    · cases h
    · cases h
    · split_ifs at h with hmove
      split at h
      · rename_i p q hp hq
        have hp := (parseFen_iff.mp hp).1
        have hq := (parseFen_iff.mp hq).1
        rw [snapshot_eq hp, snapshot_eq hq] at h
        cases h
        exact ⟨hv, by simpa using hmove, isSnapshot_normal hp, isSnapshot_normal hq⟩
      · cases h

/-- A stored edge is made again from its own fields. -/
theorem Stored.makeRecord (h : Stored r) : makeRecord (.str r.variant) (.str r.move)
    (.str r.fromSnapshotFen) (.str r.toSnapshotFen) = .ok r := by
  obtain ⟨p, hp, hpnormal, hpt⟩ := h.fromSnapshot
  obtain ⟨q, hq, hqnormal, hqt⟩ := h.toSnapshot
  have hmove : ¬ moveOk r.move = false := by
    rw [h.move]
    decide
  simp only [RouteEdge.makeRecord]
  rw [if_neg (not_not.mpr h.variant), if_neg hmove, hpt, hqt, hp.parse, hq.parse]
  simp only
  rw [snapshot_eq hp, snapshot_eq hq, hpnormal, hqnormal, ← hpt, ← hqt]

theorem readRecord_object (r : Record) :
    ∃ members, r.object = .mapping members ∧ readRecord members = some r := by
  have hvm : key "variant" ≠ key "move" := by unfold key; decide
  have hvf : key "variant" ≠ key "from_snapshot_fen" := by unfold key; decide
  have hvt : key "variant" ≠ key "to_snapshot_fen" := by unfold key; decide
  have hmf : key "move" ≠ key "from_snapshot_fen" := by unfold key; decide
  have hmt : key "move" ≠ key "to_snapshot_fen" := by unfold key; decide
  have hft : key "from_snapshot_fen" ≠ key "to_snapshot_fen" := by unfold key; decide
  refine ⟨_, rfl, ?_⟩
  unfold readRecord
  rw [if_pos]
  · simp only [Finmap.lookup_insert_of_ne _ hvm, Finmap.lookup_insert_of_ne _ hvf,
      Finmap.lookup_insert_of_ne _ hvt, Finmap.lookup_insert_of_ne _ hmf,
      Finmap.lookup_insert_of_ne _ hmt, Finmap.lookup_insert_of_ne _ hft,
      Finmap.lookup_insert, Option.bind_some, Member.text?]
  · ext k
    simp only [Finmap.mem_keys, Finmap.mem_insert, Finmap.notMem_empty, or_false,
      Finset.mem_insert, Finset.mem_singleton]
    tauto

theorem checkEnd_eq_ok {calls : ℕ → Oracle} {v t : Text} (h : checkEnd calls v t = .ok ()) :
    IsSnapshot t := by
  unfold checkEnd at h
  split at h
  · cases h
  · split at h
    · cases h
    · cases h
    · rename_i r hr
      obtain ⟨⟨members, hobject, hread⟩, hvalid⟩ := TranspositionNode.validateRecord_eq_ok.mp hr
      obtain ⟨members', hobject', -, hread'⟩ := TranspositionNode.readRecord_object ⟨v, _, t⟩
      rw [hobject'] at hobject
      cases hobject
      rw [hread', Option.some.injEq] at hread
      have hsnap := hvalid.stored.snapshot
      rw [← hread] at hsnap
      exact hsnap

theorem checkEnd_pure (ho : ∀ v t, ∃ d, oracleDigest o v t = .ok d) {v t : Text}
    (hv : v ∈ variantIds) (ht : IsSnapshot t) : checkEnd (fun _ => o) v t = .ok () := by
  obtain ⟨d, hd⟩ := ho v t
  have hvalid : TranspositionNode.Valid o ⟨v, d, t⟩ := ⟨⟨hv, ht⟩, hd⟩
  unfold checkEnd
  rw [hd]
  simp only
  rw [TranspositionNode.validateRecord_object.mpr hvalid]

theorem validateRecord_eq_ok {calls : ℕ → Oracle} {record : Object}
    (h : validateRecord calls record = .ok r) :
    (∃ members, record = .mapping members ∧ readRecord members = some r) ∧ Stored r := by
  unfold validateRecord at h
  split at h
  · cases h
  · rename_i members
    split at h
    · cases h
    · rename_i r' hread
      split_ifs at h with hv hmove
      split at h
      · cases h
      · rename_i hfrom
        split at h
        · cases h
        · rename_i hto
          cases h
          exact ⟨⟨members, rfl, hread⟩, hv, by simpa using hmove, checkEnd_eq_ok hfrom,
            checkEnd_eq_ok hto⟩

theorem validateRecord_object (ho : ∀ v t, ∃ d, oracleDigest o v t = .ok d) (hr : Stored r) :
    validateRecord (fun _ => o) r.object = .ok r := by
  obtain ⟨members, hobject, hread⟩ := readRecord_object r
  have hmove : ¬ moveOk r.move = false := by
    rw [hr.move]
    decide
  rw [hobject]
  simp only [validateRecord]
  rw [hread]
  simp only
  rw [if_neg (not_not.mpr hr.variant), if_neg hmove, checkEnd_pure ho hr.variant hr.fromSnapshot]
  simp only
  rw [checkEnd_pure ho hr.variant hr.toSnapshot]

end RouteEdge
end OpenChess
