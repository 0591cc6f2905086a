import OpenChess.Graph.RouteEdgeSpec
import OpenChess.Graph.TranspositionNodeMerge

/-!
# Runs of an edge table

With a pure oracle that always answers, every table a run reaches has one target
for each origin and move. Merging two such tables succeeds in one direction
exactly when it does in the other, and then both list the union.
-/

namespace OpenChess
namespace RouteEdge

open Fen PositionDigest
open TranspositionNode (Oracle Listing oracleDigest)

variable {o : Oracle} {r s : Record} {T T' A B C : Table} {rs : List Record}

def bucketKey (o : Oracle) (r : Record) : Text × Text :=
  ((oracleDigest o r.variant r.fromSnapshotFen).toOption.getD [], r.move)

theorem bucketKey_of_route (h : routeText r = routeText s) : bucketKey o r = bucketKey o s := by
  simp only [routeText, Prod.mk.injEq] at h
  rw [bucketKey, bucketKey, h.1, h.2.1, h.2.2]

structure Sound (o : Oracle) (T : Table) : Prop where
  keyed : Buckets.Keyed (bucketKey o) T
  stored : ∀ r ∈ Buckets.records T, Stored r
  single : Buckets.Distinct routeText T

theorem Sound.new (o : Oracle) : Sound o [] :=
  ⟨Buckets.Keyed.nil _, (fun _ hr => by cases hr), List.Pairwise.nil⟩

def add (o : Oracle) (T : Table) (r : Record) : Table :=
  if r ∈ Buckets.records T then T else Buckets.push T (bucketKey o r) r

theorem mem_add : s ∈ Buckets.records (add o T r) ↔ s = r ∨ s ∈ Buckets.records T := by
  unfold add
  split_ifs with h
  · constructor
    · exact .inr
    · intro hs
      obtain rfl | hs := hs
      · exact h
      · exact hs
  · exact Buckets.mem_records_push

def Fits (T : Table) (r : Record) : Prop :=
  ∀ s ∈ Buckets.records T, routeText s = routeText r → s = r

theorem Sound.add (h : Sound o T) (hr : Stored r) (hfits : Fits T r) : Sound o (add o T r) := by
  have hstored : ∀ s ∈ Buckets.records (RouteEdge.add o T r), Stored s := by
    intro s hs
    obtain rfl | hs := mem_add.mp hs
    · exact hr
    · exact h.stored s hs
  unfold RouteEdge.add at hstored ⊢
  split_ifs at hstored ⊢ with hmem
  · exact h
  · exact ⟨h.keyed.push, hstored, h.single.push fun s hs heq => hmem (hfits s hs heq ▸ hs)⟩

theorem findExisting_eq {new : Identity} (hr : Stored r) (hnew : identity r = some new)
    {bucket : List Record} (hstored : ∀ s ∈ bucket, Stored s)
    (hsingle : ∀ s ∈ bucket, ∀ s' ∈ bucket, routeText s = routeText s' → s = s') :
    findExisting new bucket =
      if r ∈ bucket then .ok (some r)
      else if ∃ s ∈ bucket, routeText s = routeText r then .error (.edge .conflictingEdge)
      else .ok none := by
  induction bucket with
  | nil => simp [findExisting]
  | cons e bucket ih =>
    have he := hstored e List.mem_cons_self
    have hmem : ∀ {s}, s ∈ bucket → s ∈ e :: bucket := fun hs => List.mem_cons_of_mem _ hs
    obtain ⟨i, hi, -⟩ := he.identity_eq
    have hsame : i = new ↔ e = r := by
      rw [← Option.some.injEq, ← hi, ← hnew]
      exact ⟨eq_of_identity he hr, fun h => by rw [h]⟩
    have hroute : i.route = new.route ↔ routeText e = routeText r := by
      rw [← route_eq_iff he hr, hi, hnew, Option.map_some, Option.map_some, Option.some.injEq]
    rw [findExisting, hi]
    simp only [hsame, hroute]
    by_cases heq : e = r
    · rw [if_pos heq, heq, if_pos List.mem_cons_self]
    · rw [if_neg heq]
      by_cases hclash : routeText e = routeText r
      · -- a second edge of this route in the bucket would be equal to `e`
        have hout : r ∉ e :: bucket := by
          intro hmem
          exact heq (hsingle e List.mem_cons_self r hmem hclash)
        rw [if_pos hclash, if_neg hout, if_pos ⟨e, List.mem_cons_self, hclash⟩]
      · rw [if_neg hclash, ih (fun s hs => hstored s (hmem hs))
          fun s hs s' hs' => hsingle s (hmem hs) s' (hmem hs')]
        simp only [List.mem_cons, exists_eq_or_imp, hclash, false_or, (Ne.symm heq : r ≠ e)]

/-- An insertion makes its edge, then returns it, refuses it or adds it. -/
theorem insert_eq (ho : ∀ v t, ∃ d, oracleDigest o v t = .ok d) (h : Sound o T)
    (variant move fromFen toFen : Scalar) : insert o variant move fromFen toFen T =
      match makeRecord variant move fromFen toFen with
      | .error e => (.error e, T)
      | .ok r =>
        if r ∈ Buckets.records T then (.ok r, T)
        else if ∃ s ∈ Buckets.records T, routeText s = routeText r then
          (.error (.edge .conflictingEdge), T)
        else (.ok r, add o T r) := by
  unfold insert
  cases hmake : makeRecord variant move fromFen toFen with
  | error e => rfl
  | ok r =>
    have hr := stored_of_makeRecord hmake
    obtain ⟨d, hd⟩ := ho r.variant r.fromSnapshotFen
    obtain ⟨new, hnew, -⟩ := hr.identity_eq
    have hkey : bucketKey o r = (d, r.move) := by
      rw [bucketKey, hd]
      rfl
    have hbucket : ∀ s, s ∈ Buckets.get T (d, r.move) ↔
        s ∈ Buckets.records T ∧ bucketKey o s = bucketKey o r := by
      intro s
      rw [← hkey]
      exact h.keyed.mem_get
    have hfind := @findExisting_eq r new hr hnew (Buckets.get T (d, r.move))
      (fun s hs => h.stored s ((hbucket s).mp hs).1)
      (fun s hs s' hs' => h.single.eq ((hbucket s).mp hs).1 ((hbucket s').mp hs').1)
    -- the bucket holds every edge of the route
    have hmem : r ∈ Buckets.get T (d, r.move) ↔ r ∈ Buckets.records T := by
      rw [hbucket, and_iff_left rfl]
    have hclash : (∃ s ∈ Buckets.get T (d, r.move), routeText s = routeText r) ↔
        ∃ s ∈ Buckets.records T, routeText s = routeText r := by
      refine exists_congr fun s => ?_
      rw [hbucket, and_assoc]
      exact and_congr_right fun _ => ⟨fun hs => hs.2, fun hs => ⟨bucketKey_of_route hs, hs⟩⟩
    simp only [hmem, hclash] at hfind
    simp only [hd, hnew, hfind]
    by_cases hin : r ∈ Buckets.records T
    · simp only [if_pos hin]
    · simp only [if_neg hin]
      by_cases hconflict : ∃ s ∈ Buckets.records T, routeText s = routeText r
      · simp only [if_pos hconflict]
      · simp only [if_neg hconflict, add, if_neg hin, hkey]

theorem insert_fits (ho : ∀ v t, ∃ d, oracleDigest o v t = .ok d) (h : Sound o T) (hr : Stored r)
    (hfits : Fits T r) : insert o (.str r.variant) (.str r.move) (.str r.fromSnapshotFen)
      (.str r.toSnapshotFen) T = (.ok r, add o T r) := by
  rw [insert_eq ho h, hr.makeRecord]
  by_cases hin : r ∈ Buckets.records T
  · simp only [if_pos hin, add]
  · have hnone : ¬ ∃ s ∈ Buckets.records T, routeText s = routeText r := by
      intro hclash
      obtain ⟨s, hs, hroute⟩ := hclash
      exact hin (hfits s hs hroute ▸ hs)
    simp only [if_neg hin, if_neg hnone]

theorem insert_cases (ho : ∀ v t, ∃ d, oracleDigest o v t = .ok d) (h : Sound o T)
    (variant move fromFen toFen : Scalar) :
    (∃ e, insert o variant move fromFen toFen T = (.error e, T)) ∨
      ∃ r, makeRecord variant move fromFen toFen = .ok r ∧ Stored r ∧ Fits T r ∧
        insert o variant move fromFen toFen T = (.ok r, add o T r) := by
  rw [insert_eq ho h]
  cases hmake : makeRecord variant move fromFen toFen with
  | error e => exact .inl ⟨e, rfl⟩
  | ok r =>
    have hr := stored_of_makeRecord hmake
    by_cases hin : r ∈ Buckets.records T
    · exact .inr ⟨r, rfl, hr, fun s hs hroute => h.single.eq hs hin hroute,
        by simp only [if_pos hin, add]⟩
    · by_cases hconflict : ∃ s ∈ Buckets.records T, routeText s = routeText r
      · exact .inl ⟨.edge .conflictingEdge, by simp only [if_neg hin, if_pos hconflict]⟩
      · exact .inr ⟨r, rfl, hr, fun s hs hroute => absurd ⟨s, hs, hroute⟩ hconflict,
          by simp only [if_neg hin, if_neg hconflict]⟩

/-! ### Merging -/

/-- The merge loop keeps the single-target law, keeps what the table held and
adds what it accepts. -/
theorem mergeLoop_sound (ho : ∀ v t, ∃ d, oracleDigest o v t = .ok d) {source : List Object}
    (h : Sound o T) (hloop : mergeLoop (fun _ => o) source T = (.ok (), T')) :
    Sound o T' ∧ (∀ r ∈ Buckets.records T, r ∈ Buckets.records T') ∧
      ∀ members r, Object.mapping members ∈ source → readRecord members = some r →
        r ∈ Buckets.records T' := by
  induction source generalizing T with
  | nil =>
    cases hloop
    exact ⟨h, fun _ hr => hr, fun _ _ hm => by cases hm⟩
  | cons record source ih =>
    unfold mergeLoop at hloop
    cases hvalid : validateRecord (fun _ => o) record with
    | error e =>
      rw [hvalid] at hloop
      cases hloop
    | ok r =>
      obtain ⟨⟨members, rfl, hread⟩, hr⟩ := validateRecord_eq_ok hvalid
      rw [hvalid] at hloop
      simp only at hloop
      rcases insert_cases ho h (.str r.variant) (.str r.move) (.str r.fromSnapshotFen)
        (.str r.toSnapshotFen) with ⟨e, heq⟩ | ⟨r', hmake, -, hfits, heq⟩
      · rw [heq] at hloop
        cases hloop
      · rw [hr.makeRecord] at hmake
        cases hmake
        rw [heq] at hloop
        obtain ⟨hsound, hkept, hnew⟩ := ih (h.add hr hfits) hloop
        refine ⟨hsound, fun s hs => hkept s (mem_add.mpr (.inr hs)), fun m s hm hs => ?_⟩
        rcases List.mem_cons.mp hm with heq | hm
        · cases heq
          rw [hread, Option.some.injEq] at hs
          exact hkept s (mem_add.mpr (.inl hs.symm))
        · exact hnew m s hm hs

theorem mergeLoop_fits (ho : ∀ v t, ∃ d, oracleDigest o v t = .ok d) (h : Sound o T)
    (hrs : ∀ r ∈ rs, Stored r) (hfits : ∀ r ∈ rs, Fits T r)
    (hsingle : ∀ r ∈ rs, ∀ s ∈ rs, routeText r = routeText s → r = s) :
    mergeLoop (fun _ => o) (rs.map Record.object) T = (.ok (), rs.foldl (add o) T) := by
  induction rs generalizing T with
  | nil => rfl
  | cons r rs ih =>
    have hr := hrs r List.mem_cons_self
    have hfit := hfits r List.mem_cons_self
    have hmem : ∀ {s}, s ∈ rs → s ∈ r :: rs := fun hs => List.mem_cons_of_mem _ hs
    rw [List.map_cons, mergeLoop, validateRecord_object ho hr]
    simp only
    rw [insert_fits ho h hr hfit]
    refine ih (h.add hr hfit) (fun s hs => hrs s (hmem hs)) (fun s hs s' hs' hroute => ?_)
      fun s hs s' hs' => hsingle s (hmem hs) s' (hmem hs')
    rcases mem_add.mp hs' with rfl | hs'
    · exact hsingle s' List.mem_cons_self s (hmem hs) hroute
    · exact hfits s (hmem hs) s' hs' hroute

theorem mem_foldl_add : s ∈ Buckets.records (rs.foldl (add o) T) ↔
    s ∈ rs ∨ s ∈ Buckets.records T := by
  induction rs generalizing T with
  | nil => simp
  | cons r rs ih =>
    rw [List.foldl_cons, ih, mem_add, List.mem_cons]
    tauto

def Compatible (A B : Table) : Prop :=
  ∀ r ∈ Buckets.records A, ∀ s ∈ Buckets.records B, routeText r = routeText s → r = s

/-- Merging the table `B` into the table `A` succeeds and gives `C`. -/
def Merges (o : Oracle) (A B C : Table) : Prop := merge (fun _ => o) (listing B) A = (.ok (), C)

theorem merges_iff : Merges o A B C ↔
    mergeLoop (fun _ => o) ((Buckets.records B).map Record.object) A = (.ok (), C) := by
  unfold Merges merge listing
  simp only
  rcases mergeLoop (fun _ => o) ((Buckets.records B).map Record.object) A with ⟨out, staged⟩
  cases out with
  | error e => simp
  | ok u => simp

theorem Merges.compatible (ho : ∀ v t, ∃ d, oracleDigest o v t = .ok d) (hA : Sound o A)
    (h : Merges o A B C) : Compatible A B := by
  obtain ⟨hC, hkept, hnew⟩ := mergeLoop_sound ho hA (merges_iff.mp h)
  intro r hr s hs hroute
  obtain ⟨members, hobject, hread⟩ := readRecord_object s
  have hmem : Object.mapping members ∈ (Buckets.records B).map Record.object :=
    hobject ▸ List.mem_map_of_mem hs
  exact hC.single.eq (hkept r hr) (hnew members s hmem hread) hroute

theorem merges_of_compatible (ho : ∀ v t, ∃ d, oracleDigest o v t = .ok d) (hA : Sound o A)
    (hB : Sound o B) (h : Compatible A B) :
    Merges o A B ((Buckets.records B).foldl (add o) A) :=
  merges_iff.mpr (mergeLoop_fits ho hA hB.stored (fun r hr s hs hroute => h s hs r hr hroute)
    fun _ hr _ hs hroute => hB.single.eq hr hs hroute)

theorem Compatible.symm (h : Compatible A B) : Compatible B A :=
  fun r hr s hs hroute => (h s hs r hr hroute.symm).symm

theorem Merges.serialize_eq (ho : ∀ v t, ∃ d, oracleDigest o v t = .ok d) (hA : Sound o A)
    (hB : Sound o B) {AB BA : Table} (hAB : Merges o A B AB) (hBA : Merges o B A BA) :
    serialize AB = serialize BA := by
  have hcompatible := hAB.compatible ho hA
  have hAB' := merges_of_compatible ho hA hB hcompatible
  have hBA' := merges_of_compatible ho hB hA hcompatible.symm
  have hC : AB = (Buckets.records B).foldl (add o) A := (Prod.ext_iff.mp (hAB.symm.trans hAB')).2
  have hD : BA = (Buckets.records A).foldl (add o) B := (Prod.ext_iff.mp (hBA.symm.trans hBA')).2
  have hsoundAB := (mergeLoop_sound ho hA (merges_iff.mp hAB)).1
  have hsoundBA := (mergeLoop_sound ho hB (merges_iff.mp hBA)).1
  refine Buckets.sorted_records_eq hsoundAB.single.nodup hsoundBA.single.nodup (fun r => ?_) _
  rw [hC, hD, mem_foldl_add, mem_foldl_add]
  exact or_comm

/-! ### Runs -/

/-- One call on the table. -/
inductive Step
  | insert (variant move fromFen toFen : Scalar)
  | merge (other : Listing)

/-- The table after a call, accepted or rejected. -/
def Step.apply (o : Oracle) (T : Table) : Step → Table
  | .insert variant move fromFen toFen => (RouteEdge.insert o variant move fromFen toFen T).2
  | .merge other => (RouteEdge.merge (fun _ => o) other T).2

def run (o : Oracle) (steps : List Step) : Table := steps.foldl (Step.apply o) []

theorem Sound.step (ho : ∀ v t, ∃ d, oracleDigest o v t = .ok d) (h : Sound o T) (step : Step) :
    Sound o (step.apply o T) := by
  cases step with
  | insert variant move fromFen toFen =>
    rw [Step.apply]
    rcases insert_cases ho h variant move fromFen toFen with ⟨e, heq⟩ | ⟨r, -, hr, hfits, heq⟩
    · rw [heq]
      exact h
    · rw [heq]
      exact h.add hr hfits
  | merge other =>
    rw [Step.apply]
    cases other with
    | raised => exact h
    | foreign => exact h
    | list source =>
      simp only [merge]
      rcases hloop : mergeLoop (fun _ => o) source T with ⟨out, staged⟩
      cases out with
      | error e => exact h
      | ok u => exact (mergeLoop_sound ho h hloop).1

theorem Sound.run (ho : ∀ v t, ∃ d, oracleDigest o v t = .ok d) (steps : List Step) :
    Sound o (run o steps) := by
  have hrun : ∀ (steps : List Step) {T : Table}, Sound o T →
      Sound o (steps.foldl (Step.apply o) T) := by
    intro steps
    induction steps with
    | nil => exact fun hT => hT
    | cons step steps ih => exact fun hT => ih (hT.step ho step)
  exact hrun steps (Sound.new o)

/-- No two edges share variant, move and from-identity with different targets,
and no two edges are equal. -/
structure SingleTarget (T : Table) : Prop where
  target : ∀ r ∈ Buckets.records T, ∀ s ∈ Buckets.records T,
    (identity r).map Identity.route = (identity s).map Identity.route → identity r = identity s
  distinct : Buckets.Distinct identity T

theorem Sound.singleTarget (h : Sound o T) : SingleTarget T := by
  refine ⟨fun r hr s hs hroute => ?_, ?_⟩
  · rw [h.single.eq hr hs ((route_eq_iff (h.stored r hr) (h.stored s hs)).mp hroute)]
  · refine List.Pairwise.imp_of_mem (fun {r s} hr hs hne heq => hne ?_) h.single
    rw [eq_of_identity (h.stored r hr) (h.stored s hs) heq]

theorem insert_rejected {o : Oracle} {variant move fromFen toFen : Scalar} {e : Failure}
    (h : (insert o variant move fromFen toFen T).1 = .error e) :
    (insert o variant move fromFen toFen T).2 = T := by
  unfold insert at h ⊢
  split at h
  · rfl
  · split at h
    · rfl
    · split at h
      · rfl
      · split at h
        · rfl
        · cases h
        · cases h

theorem merge_rejected {calls : ℕ → Oracle} {other : Listing} {e : Failure}
    (h : (merge calls other T).1 = .error e) : (merge calls other T).2 = T := by
  unfold merge at h ⊢
  split at h
  · rfl
  · rfl
  · split at h
    · rfl
    · cases h

/-- Every reachable table has single targets, a rejected call changes nothing,
and merging two reachable tables succeeds in both directions or in neither, with
the same listing. -/
theorem table_invariant (o : Oracle) (ho : ∀ v t, ∃ d, oracleDigest o v t = .ok d) :
    (∀ steps, SingleTarget (run o steps)) ∧
    (∀ variant move fromFen toFen T e, (insert o variant move fromFen toFen T).1 = .error e →
      (insert o variant move fromFen toFen T).2 = T) ∧
    (∀ calls other T e, (merge calls other T).1 = .error e → (merge calls other T).2 = T) ∧
    (∀ a b, ((∃ C, Merges o (run o a) (run o b) C) ↔ ∃ C, Merges o (run o b) (run o a) C) ∧
      ∀ C C', Merges o (run o a) (run o b) C → Merges o (run o b) (run o a) C' →
        serialize C = serialize C') := by
  refine ⟨fun steps => (Sound.run ho steps).singleTarget, fun _ _ _ _ _ _ h => insert_rejected h,
    fun _ _ _ _ h => merge_rejected h, fun a b => ?_⟩
  have hA := Sound.run ho a
  have hB := Sound.run ho b
  refine ⟨⟨fun h => ?_, fun h => ?_⟩, fun C C' hC hC' => hC.serialize_eq ho hA hB hC'⟩
  · obtain ⟨C, hC⟩ := h
    exact ⟨_, merges_of_compatible ho hB hA (hC.compatible ho hA).symm⟩
  · obtain ⟨C, hC⟩ := h
    exact ⟨_, merges_of_compatible ho hA hB (hC.compatible ho hB).symm⟩

/-- Two tables that disagree on a target, under an oracle that always collides. -/
theorem table_invariant_collision :
    let a : List Step := [.insert (.str "standard".toList) (.str "e1e2".toList)
      (.str "4k3/8/8/8/8/8/8/4K3 w - - 0 1".toList) (.str "4k3/8/8/8/8/8/4K3/8 b - - 1 1".toList)]
    let b : List Step := [.insert (.str "standard".toList) (.str "e1e2".toList)
      (.str "4k3/8/8/8/8/8/8/4K3 w - - 9 5".toList) (.str "4k3/8/8/8/8/8/8/4K3 b - - 0 1".toList)]
    let o := TranspositionNode.constOracle
    SingleTarget (run o a) ∧
      ((∃ C, Merges o (run o a) (run o b) C) ↔ ∃ C, Merges o (run o b) (run o a) C) := by
  have h := table_invariant TranspositionNode.constOracle fun _ _ =>
    ⟨_, TranspositionNode.oracleDigest_eq_ok.mpr ⟨rfl, by decide⟩⟩
  exact ⟨h.1 _, (h.2.2.2 _ _).1⟩

end RouteEdge
end OpenChess
