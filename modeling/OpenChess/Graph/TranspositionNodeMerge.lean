import OpenChess.Graph.TranspositionNodeTable
import Mathlib.Data.Set.Insert

/-!
# Order-free node tables

When the oracle's reply is determined by the identity, a record is determined by
its identity. A table then lists the records of the identities it covers, however
its insertions and merges were ordered and grouped.
-/

namespace OpenChess
namespace TranspositionNode

open Fen PositionDigest

variable {o o' : Oracle} {r : Record} {i : Identity} {T T' A B C : Table}
  {S SA SB SC : Set Identity}

def Determined (o : Oracle) : Prop := ∀ v t t' p p', parseFen t = .ok p → parseFen t' = .ok p' →
  identityTuple v p = identityTuple v p' → o v t = o v t'

/-- The identity an insertion is about. -/
def callIdentity : Scalar → Scalar → Option Identity
  | .str v, .str t =>
    match parseFen t with
    | .error _ => none
    | .ok p => identityTuple v p
  | _, _ => none

def listed (other : Listing) : Set Identity :=
  {i | ∃ source members r, other = .list source ∧ Object.mapping members ∈ source ∧
    readRecord members = some r ∧ identity r = some i}

/-- Tables grown by any insertions and merges, together with the identities the
accepted calls covered. Every call may meet its own failures of the oracle. -/
inductive Built (o : Oracle) : Table → Set Identity → Prop
  | new : Built o [] ∅
  | insert {T T' : Table} {S : Set Identity} {o' : Oracle} {variant fen : Scalar} {r : Record}
      {i : Identity} : Built o T S → Serves o' o → callIdentity variant fen = some i →
      TranspositionNode.insert o' variant fen T = (.ok r, T') → Built o T' (Insert.insert i S)
  | insertRejected {T T' : Table} {S : Set Identity} {o' : Oracle} {variant fen : Scalar}
      {e : Failure} : Built o T S →
      TranspositionNode.insert o' variant fen T = (.error e, T') → Built o T' S
  | merge {T T' : Table} {S : Set Identity} {calls : ℕ → Oracle} {other : Listing} :
      Built o T S → (∀ n, Serves (calls n) o) →
      TranspositionNode.merge calls other T = (.ok (), T') → Built o T' (S ∪ listed other)
  | mergeRejected {T T' : Table} {S : Set Identity} {calls : ℕ → Oracle} {other : Listing}
      {e : Failure} : Built o T S →
      TranspositionNode.merge calls other T = (.error e, T') → Built o T' S

/-- The table holds valid records, of the given identities. -/
structure Covers (o : Oracle) (T : Table) (S : Set Identity) : Prop where
  sound : Sound T
  valid : ∀ r ∈ Buckets.records T, Valid o r
  covered : ∀ i, i ∈ S ↔ ∃ r ∈ Buckets.records T, identity r = some i

/-! ### The covered identities -/

/-- A made record is valid when the oracle is determined by the identity. -/
theorem Determined.valid (ho : Determined o) {variant fen : Scalar}
    (h : makeRecord o variant fen = .ok r) :
    Valid o r ∧ callIdentity variant fen = identity r := by
  obtain ⟨v, p, rfl, rfl, hv, hp, hd, hr⟩ := makeRecord_eq_ok.mp h
  have hident : identityTuple v p = identityTuple v (normal p) := by
    rw [identityTuple_eq hp.wellFormed, identityTuple_eq hp.normal.wellFormed, identityOf_normal hp]
  have hreply := ho v _ _ p (normal p) hp.parse hp.normal.parse hident
  refine ⟨⟨stored_of_makeRecord h, ?_⟩, ?_⟩
  · rw [hr, oracleDigest_eq_ok] at *
    exact ⟨hreply ▸ hd.1, hd.2⟩
  · rw [hr, identity, recordOf, hp.normal.parse]
    simp only [callIdentity]
    rw [hp.parse]
    exact hident

theorem covers_add (h : Covers o T S) (hr : Valid o r) (hi : identity r = some i) :
    Covers o (add T r) (Insert.insert i S) := by
  refine ⟨h.sound.add hr.stored, fun s hs => ?_, fun j => ?_⟩
  · rcases mem_add.mp hs with rfl | hs
    · exact hr
    · exact h.valid s hs
  · rw [Set.mem_insert_iff, h.covered]
    simp only [mem_add, or_and_right, exists_or, exists_eq_left, hi, Option.some.injEq,
      eq_comm (a := j)]

theorem covers_foldl_add {rs : List Record} (h : Covers o T S) (hrs : ∀ r ∈ rs, Valid o r) :
    Covers o (rs.foldl add T) (S ∪ {i | ∃ r ∈ rs, identity r = some i}) := by
  refine ⟨h.sound.foldl_add fun r hr => (hrs r hr).stored, fun s hs => ?_, fun i => ?_⟩
  · rcases mem_foldl_add.mp hs with hs | hs
    · exact hrs s hs
    · exact h.valid s hs
  · rw [Set.mem_union, h.covered]
    simp only [mem_foldl_add, or_and_right, exists_or, Set.mem_ofPred_eq]
    exact or_comm

theorem mem_validateAll {calls : ℕ → Oracle} {frozen : List Object} {rs : List Record}
    (h : validateAll calls frozen = .ok rs) :
    r ∈ rs ↔ ∃ members, Object.mapping members ∈ frozen ∧ readRecord members = some r := by
  induction frozen generalizing calls rs with
  | nil =>
    cases h
    simp
  | cons record frozen ih =>
    unfold validateAll at h
    split at h
    · cases h
    · rename_i r' hr'
      split at h
      · cases h
      · rename_i rest hrest
        cases h
        obtain ⟨⟨members, rfl, hread⟩, -⟩ := validateRecord_eq_ok.mp hr'
        rw [List.mem_cons, ih hrest]
        constructor
        · intro hr
          obtain rfl | ⟨m, hm, hr⟩ := hr
          · exact ⟨members, List.mem_cons_self, hread⟩
          · exact ⟨m, List.mem_cons_of_mem _ hm, hr⟩
        · intro hr
          obtain ⟨m, hm, hr⟩ := hr
          rcases List.mem_cons.mp hm with heq | hm
          · cases heq
            rw [hread, Option.some.injEq] at hr
            exact .inl hr.symm
          · exact .inr ⟨m, hm, hr⟩

theorem mapM_freeze_eq {source frozen : List Object} (h : source.mapM freeze = some frozen) :
    frozen = source := by
  induction source generalizing frozen with
  | nil => simpa using h.symm
  | cons record source ih =>
    rw [List.mapM_cons] at h
    simp only [Option.bind_eq_bind, Option.bind_eq_some_iff, Option.pure_def,
      Option.some.injEq] at h
    obtain ⟨record', hrecord, frozen', hfrozen, rfl⟩ := h
    cases record with
    | foreign n => cases hrecord
    | mapping members =>
      simp only [freeze] at hrecord
      split_ifs at hrecord
      cases hrecord
      rw [ih hfrozen]

/-- Every grown table covers its identities with valid records. -/
theorem Built.covers (ho : Determined o) (h : Built o T S) : Covers o T S := by
  induction h with
  | new => exact ⟨Sound.new, (fun _ hr => by cases hr), by simp⟩
  | insert _ hserves hident hcall ih =>
    rw [insert_eq ih.sound] at hcall
    split at hcall
    · cases hcall
    · rename_i r hmake
      cases hcall
      obtain ⟨hvalid, heq⟩ := ho.valid (hserves.makeRecord hmake)
      exact covers_add ih hvalid (heq ▸ hident)
  | @insertRejected T T' _ _ _ _ _ _ hcall ih =>
    have hsame : T' = T := by
      rw [← insert_rejected (congrArg Prod.fst hcall), hcall]
    rwa [hsame]
  | @merge _ _ _ _ other _ hcalls hcall ih =>
    rcases merge_cases hcalls ih.sound other with ⟨e, heq⟩ | ⟨source, frozen, rs, rfl, hfrozen, hrs,
      hvalid, heq⟩
    · rw [heq] at hcall
      cases hcall
    · rw [heq] at hcall
      cases hcall
      have hlisted : listed (.list source) = {i | ∃ r ∈ rs, identity r = some i} := by
        ext i
        rw [mapM_freeze_eq hfrozen] at hrs
        simp only [listed, Set.mem_ofPred_eq, mem_validateAll hrs, Listing.list.injEq]
        constructor
        · intro hi
          obtain ⟨_, members, r, rfl, hmem, hread, hi⟩ := hi
          exact ⟨r, ⟨members, hmem, hread⟩, hi⟩
        · intro hi
          obtain ⟨r, ⟨members, hmem, hread⟩, hi⟩ := hi
          exact ⟨_, members, r, rfl, hmem, hread, hi⟩
      rw [hlisted]
      exact covers_foldl_add ih hvalid
  | @mergeRejected T T' _ _ _ _ _ hcall ih =>
    have hsame : T' = T := by
      rw [← merge_rejected (congrArg Prod.fst hcall), hcall]
    rwa [hsame]

/-! ### Listings -/

/-- Tables covering the same identities hold the same records. -/
theorem serialize_eq (hT : Covers o T S) (hT' : Covers o T' S) : serialize T = serialize T' := by
  have hsub : ∀ {T T'}, Covers o T S → Covers o T' S →
      ∀ r ∈ Buckets.records T, r ∈ Buckets.records T' := by
    intro T T' hT hT' r hr
    obtain ⟨i, hi, -, -⟩ := (hT.valid r hr).stored.identity_eq
    obtain ⟨s, hs, hsi⟩ := (hT'.covered i).mp ((hT.covered i).mpr ⟨r, hr, hi⟩)
    obtain ⟨hv, ht⟩ := (identity_eq_iff (hT.valid r hr).stored (hT'.valid s hs).stored).mp
      (hi.trans hsi.symm)
    have hd : r.digest = s.digest := by
      have hdr := (hT.valid r hr).digest
      rw [hv, ht, (hT'.valid s hs).digest] at hdr
      exact (Except.ok.inj hdr).symm
    have heq : r = s := by
      cases r
      cases s
      simp_all
    exact heq ▸ hs
  exact Buckets.sorted_records_eq hT.sound.nodup hT'.sound.nodup
    (fun r => ⟨hsub hT hT' r, hsub hT' hT r⟩) _

/-! ### Merging tables -/

/-- Merging the table `B` into the table `A` succeeds and gives `C`. -/
def Merges (o : Oracle) (A B C : Table) : Prop :=
  merge (fun _ => o) (listing B) A = (.ok (), C)

theorem validateAll_objects {rs : List Record} (h : ∀ r ∈ rs, Valid o r) :
    validateAll (fun _ => o) (rs.map Record.object) = .ok rs := by
  have hlater : later (fun _ => o) = fun _ => o := rfl
  induction rs with
  | nil => rfl
  | cons r rs ih =>
    rw [List.map_cons, validateAll, validateRecord_object.mpr (h r List.mem_cons_self)]
    simp only
    rw [hlater, ih fun s hs => h s (List.mem_cons_of_mem _ hs)]

theorem mapM_freeze_objects (rs : List Record) :
    (rs.map Record.object).mapM freeze = some (rs.map Record.object) := by
  induction rs with
  | nil => rfl
  | cons r rs ih =>
    rw [List.map_cons, List.mapM_cons, freeze_object, ih]
    rfl

theorem exists_merges (hA : Covers o A SA) (hB : Covers o B SB) :
    ∃ C, Merges o A B C ∧ Covers o C (SA ∪ SB) := by
  refine ⟨(Buckets.records B).foldl add A, ?_, ?_⟩
  · unfold Merges merge listing
    simp only [mapM_freeze_objects, validateAll_objects hB.valid,
      insertAll_pure hA.sound hB.valid]
  · have hSB : SB = {i | ∃ r ∈ Buckets.records B, identity r = some i} := Set.ext hB.covered
    rw [hSB]
    exact covers_foldl_add hA hB.valid

/-- The content of a table does not depend on the order or the grouping of the
calls; merging is commutative, associative and idempotent; and a call that
raises leaves the table as it was, whatever the oracle did. -/
theorem content_independent (o : Oracle) (ho : Determined o) :
    (∀ T T' S, Built o T S → Built o T' S → serialize T = serialize T') ∧
    (∀ A B SA SB, Built o A SA → Built o B SB → ∃ AB BA, Merges o A B AB ∧ Merges o B A BA ∧
      serialize AB = serialize BA) ∧
    (∀ A B C SA SB SC, Built o A SA → Built o B SB → Built o C SC → ∃ AB ABC BC ABC',
      Merges o A B AB ∧ Merges o AB C ABC ∧ Merges o B C BC ∧ Merges o A BC ABC' ∧
      serialize ABC = serialize ABC') ∧
    (∀ A SA, Built o A SA → ∃ AA, Merges o A A AA ∧ serialize AA = serialize A) ∧
    (∀ o' variant fen T e, (insert o' variant fen T).1 = .error e →
      (insert o' variant fen T).2 = T) ∧
    (∀ calls other T e, (merge calls other T).1 = .error e → (merge calls other T).2 = T) := by
  refine ⟨fun T T' S hT hT' => serialize_eq (hT.covers ho) (hT'.covers ho), ?_, ?_, ?_,
    fun _ _ _ _ _ h => insert_rejected h, fun _ _ _ _ h => merge_rejected h⟩
  · intro A B SA SB hA hB
    obtain ⟨AB, hAB, hcAB⟩ := exists_merges (hA.covers ho) (hB.covers ho)
    obtain ⟨BA, hBA, hcBA⟩ := exists_merges (hB.covers ho) (hA.covers ho)
    rw [Set.union_comm] at hcBA
    exact ⟨AB, BA, hAB, hBA, serialize_eq hcAB hcBA⟩
  · intro A B C SA SB SC hA hB hC
    obtain ⟨AB, hAB, hcAB⟩ := exists_merges (hA.covers ho) (hB.covers ho)
    obtain ⟨ABC, hABC, hcABC⟩ := exists_merges hcAB (hC.covers ho)
    obtain ⟨BC, hBC, hcBC⟩ := exists_merges (hB.covers ho) (hC.covers ho)
    obtain ⟨ABC', hABC', hcABC'⟩ := exists_merges (hA.covers ho) hcBC
    rw [Set.union_assoc] at hcABC
    exact ⟨AB, ABC, BC, ABC', hAB, hABC, hBC, hABC', serialize_eq hcABC hcABC'⟩
  · intro A SA hA
    obtain ⟨AA, hAA, hcAA⟩ := exists_merges (hA.covers ho) (hA.covers ho)
    rw [Set.union_self] at hcAA
    exact ⟨AA, hAA, serialize_eq hcAA (hA.covers ho)⟩

def constOracle : Oracle := fun _ _ => .returned (.str (tag ++ List.replicate hexLength '0'))

theorem built_constOracle (h : Built constOracle T S) {v : Text} {p : Position}
    (hv : v ∈ variantIds) (hp : Accepted p) :
    Built constOracle (Step.apply constOracle T (.insert (.str v) (.str (fenText p))))
      (Insert.insert (identityOf v p) S) := by
  have hdetermined : Determined constOracle := fun _ _ _ _ _ _ _ _ => rfl
  have hd : oracleDigest constOracle v (fenText p) = .ok (tag ++ List.replicate hexLength '0') :=
    oracleDigest_eq_ok.mpr ⟨rfl, by decide⟩
  have hmake : makeRecord constOracle (.str v) (.str (fenText p)) = .ok (recordOf v _ p) :=
    makeRecord_eq_ok.mpr ⟨v, p, rfl, rfl, hv, hp, hd, rfl⟩
  have hcall := insert_eq (o := constOracle) (h.covers hdetermined).sound (.str v)
    (.str (fenText p))
  rw [hmake] at hcall
  have hident : callIdentity (.str v) (.str (fenText p)) = some (identityOf v p) := by
    simp only [callIdentity]
    rw [hp.parse]
    exact identityTuple_eq hp.wellFormed
  rw [Step.apply, hcall]
  exact h.insert (Serves.refl _) hident hcall

/-- Two colliding identities, in both orders. -/
theorem content_independent_collision :
    serialize (run constOracle
      [.insert (.str "standard".toList) (.str "4k3/8/8/8/8/8/8/4K3 w - - 0 1".toList),
        .insert (.str "standard".toList) (.str "4k3/8/8/8/8/8/8/4K3 b - - 0 7".toList)]) =
    serialize (run constOracle
      [.insert (.str "standard".toList) (.str "4k3/8/8/8/8/8/8/4K3 b - - 0 7".toList),
        .insert (.str "standard".toList) (.str "4k3/8/8/8/8/8/8/4K3 w - - 0 1".toList)]) := by
  have hv : "standard".toList ∈ variantIds := by decide
  have hw : "4k3/8/8/8/8/8/8/4K3 w - - 0 1".toList = fenText (bareKings .white 1) := by decide
  have hb : "4k3/8/8/8/8/8/8/4K3 b - - 0 7".toList = fenText (bareKings .black 7) := by decide
  have hpw : Accepted (bareKings .white 1) := accepted_bareKings (by decide) (by decide)
  have hpb : Accepted (bareKings .black 7) := accepted_bareKings (by decide) (by decide)
  rw [hw, hb]
  refine (content_independent constOracle fun _ _ _ _ _ _ _ _ => rfl).1 _ _ _
    (built_constOracle (built_constOracle .new hv hpw) hv hpb) ?_
  rw [Set.insert_comm]
  exact built_constOracle (built_constOracle .new hv hpb) hv hpw

end TranspositionNode
end OpenChess
