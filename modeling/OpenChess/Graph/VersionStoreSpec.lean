import OpenChess.Graph.VersionStore

/-!
# The lineage of a version store

A store only grows, parents first, by records whose key is the content address of
their parents and their digest. A merge inserts record by record into a copy, so
it keeps the same invariant, and its retry loop finds a ready record or fails.
-/

namespace OpenChess
namespace VersionStore

open ParentsFirst (Grown Parent keys)

variable {sha : Sha256} {r : Record} {s s' : Store} {k : Text}

/-! ### Canonical parents -/

theorem mem_canonical {ps : List Text} {p : Text} : p ∈ canonical ps ↔ p ∈ ps := by
  rw [canonical, (Buckets.sorted_perm _).mem_iff, List.mem_dedup]

theorem canonical_canonical (ps : List Text) : canonical (canonical ps) = canonical ps := by
  have hperm : (canonical ps).Perm ps.dedup := Buckets.sorted_perm _
  have hnodup : (canonical ps).Nodup := hperm.nodup_iff.mpr ps.nodup_dedup
  rw [canonical, hnodup.dedup]
  exact Buckets.sorted_eq_of_perm hperm

theorem validate_canonical (h : validate sha r = true) : validate sha r.canonical = true := by
  have hall : (canonical r.parentIds).all isId = r.parentIds.all isId := by
    rw [Bool.eq_iff_iff, List.all_eq_true, List.all_eq_true]
    simp only [mem_canonical]
  have haddress : versionId sha (canonical r.parentIds) r.graphDigest =
      versionId sha r.parentIds r.graphDigest := by
    rw [versionId, versionId, readParents, readParents, hall, canonical_canonical]
  unfold validate at h ⊢
  simp only [Record.canonical]
  rwa [hall, haddress]

/-! ### One insertion -/

/-- What holds of every reachable store. -/
structure Lineage (sha : Sha256) (s : Store) : Prop where
  grown : Grown Record.parentIds s.records
  root : s.rootId = s.records.head?.map Prod.fst
  valid : ∀ k r, (k, r) ∈ s.records → validate sha r = true ∧ r.versionId = k

theorem Lineage.new (sha : Sha256) : Lineage sha Store.new :=
  ⟨.nil, rfl, fun _ _ hr => by cases hr⟩

theorem lookup_eq_none : s.records.lookup k = none ↔ k ∉ keys s.records := by
  rw [List.lookup_eq_none_iff, ParentsFirst.mem_keys, not_exists]
  constructor
  · intro h r hr
    simpa using h _ hr
  · intro h e he
    simp only [bne_iff_ne, ne_eq]
    rintro rfl
    exact h e.2 he

theorem mem_of_lookup (h : s.records.lookup k = some r) : (k, r) ∈ s.records := by
  obtain ⟨l, l', heq, -⟩ := List.lookup_eq_some_iff.mp h
  rw [heq]
  simp

theorem checkParents_eq_none {ps : List Text} (h : checkParents s r ps = none) :
    ∀ p ∈ ps, p ∈ keys s.records := by
  induction ps with
  | nil => exact fun p hp => by cases hp
  | cons q ps ih =>
    unfold checkParents at h
    split at h
    · cases h
    · rename_i stored hstored
      split_ifs at h
      intro p hp
      rcases List.mem_cons.mp hp with rfl | hp
      · exact ParentsFirst.mem_keys.mpr ⟨stored, mem_of_lookup hstored⟩
      · exact ih h p hp

theorem Lineage.rootId_eq_none (h : Lineage sha s) : s.rootId = none ↔ s.records = [] := by
  rw [h.root]
  cases s.records <;> simp

/-- A record that passes the lineage checks has its parents in the store, and is
parentless only as the first one. -/
theorem Lineage.checkLineage_eq_none (h : Lineage sha s) (hcheck : checkLineage s r = none) :
    (∀ p ∈ r.parentIds, p ∈ keys s.records) ∧ (r.parentIds = [] ↔ s.records = []) := by
  unfold checkLineage at hcheck
  split_ifs at hcheck with hroot hsome
  · have hempty : s.records = [] := h.rootId_eq_none.mp (by simpa using hsome)
    refine ⟨fun p hp => ?_, fun _ => hempty, fun _ => hroot⟩
    rw [hroot] at hp
    cases hp
  · have hparents := checkParents_eq_none hcheck
    refine ⟨hparents, fun hnil => absurd hnil hroot, fun hempty => ?_⟩
    obtain ⟨p, hp⟩ := List.exists_mem_of_ne_nil _ hroot
    have hmem := hparents p hp
    rw [hempty] at hmem
    cases hmem

/-- An insertion refuses its record, finds it, or adds it after its parents. -/
theorem insertRecord_cases (h : Lineage sha s) (record : Record) :
    (∃ e, insertRecord sha record s = (.error e, s)) ∨
      (record.versionId, record.canonical) ∈ s.records ∧
        insertRecord sha record s = (.ok record.canonical, s) ∨
      validate sha record.canonical = true ∧ record.versionId ∉ keys s.records ∧
        (∀ p ∈ record.canonical.parentIds, p ∈ keys s.records) ∧
        (record.canonical.parentIds = [] ↔ s.records = []) ∧
        insertRecord sha record s = (.ok record.canonical, s.push record.canonical) := by
  unfold insertRecord
  by_cases hvalid : validate sha record = false
  · exact .inl ⟨malformed, if_pos hvalid⟩
  · rw [if_neg hvalid]
    unfold insertValid
    cases hlookup : s.records.lookup record.canonical.versionId with
    | some stored =>
      simp only
      by_cases hstored : stored = record.canonical
      · rw [if_neg (not_not.mpr hstored), hstored]
        exact .inr (.inl ⟨hstored ▸ mem_of_lookup hlookup, rfl⟩)
      · rw [if_pos hstored]
        exact .inl ⟨_, rfl⟩
    | none =>
      simp only
      cases hcheck : checkLineage s record.canonical with
      | some cls => exact .inl ⟨_, rfl⟩
      | none =>
        obtain ⟨hparents, hroot⟩ := h.checkLineage_eq_none hcheck
        exact .inr (.inr ⟨validate_canonical (by simpa using hvalid), lookup_eq_none.mp hlookup,
          hparents, hroot, rfl⟩)

theorem Lineage.push (h : Lineage sha s) (hvalid : validate sha r = true)
    (hnew : r.versionId ∉ keys s.records) (hparents : ∀ p ∈ r.parentIds, p ∈ keys s.records)
    (hroot : r.parentIds = [] ↔ s.records = []) : Lineage sha (s.push r) := by
  refine ⟨h.grown.snoc hnew hparents hroot, ?_, fun k r' hr => ?_⟩
  · simp only [Store.push]
    split_ifs with hnil
    · rw [hroot.mp hnil]
      rfl
    · rw [h.root]
      cases hrecords : s.records with
      | nil => exact absurd (hroot.mpr hrecords) hnil
      | cons e l => rfl
  · rcases List.mem_append.mp hr with hr | hr
    · exact h.valid k r' hr
    · cases List.mem_singleton.mp hr
      exact ⟨hvalid, rfl⟩

theorem Lineage.insertRecord (h : Lineage sha s) (record : Record) :
    Lineage sha (insertRecord sha record s).2 := by
  rcases insertRecord_cases h record with ⟨e, heq⟩ | ⟨-, heq⟩ | ⟨hvalid, hnew, hparents, hroot, heq⟩
  · rw [heq]
    exact h
  · rw [heq]
    exact h
  · rw [heq]
    exact h.push hvalid hnew hparents hroot

theorem Lineage.insert (h : Lineage sha s) (record : RecordObject) :
    Lineage sha (insert sha record s).2 := by
  cases record with
  | foreign tag => exact h
  | mapping members =>
    rw [VersionStore.insert]
    cases readRecord members with
    | none => exact h
    | some r => exact h.insertRecord r

/-! ### Merging -/

theorem Lineage.insertReady (h : Lineage sha s) (rs pending : List Record) :
    Lineage sha (insertReady sha rs pending s).2 := by
  induction rs generalizing pending s with
  | nil => exact h
  | cons r rs ih =>
    have hstep := h.insertRecord r
    unfold VersionStore.insertReady
    split
    · rename_i heq
      rwa [heq] at hstep
    · rename_i heq
      rw [heq] at hstep
      exact ih hstep _

theorem Lineage.mergeLoop {rounds : ℕ} {pending : List Record}
    {out : Except VersionError Unit} (h : Lineage sha s)
    (hloop : mergeLoop sha rounds pending s = some (out, s')) : Lineage sha s' := by
  induction rounds generalizing pending s with
  | zero =>
    cases pending with
    | nil =>
      cases hloop
      exact h
    | cons first pending => cases hloop
  | succ rounds ih =>
    cases pending with
    | nil =>
      cases hloop
      exact h
    | cons first pending =>
      unfold VersionStore.mergeLoop at hloop
      split at hloop
      · have hstep := h.insertRecord first
        split at hloop
        · rename_i heq
          cases hloop
          rwa [heq] at hstep
        · rename_i heq
          rw [heq] at hstep
          exact ih hstep hloop
      · have hstep := h.insertReady ((first :: pending).filter (ready s)) (first :: pending)
        split at hloop
        · rename_i heq
          cases hloop
          rwa [heq] at hstep
        · rename_i heq
          rw [heq] at hstep
          exact ih hstep hloop

theorem Lineage.merge {rounds : ℕ} {other : Other} {out : Except VersionError Unit}
    (h : Lineage sha s) (hmerge : merge sha rounds other s = some (out, s')) :
    Lineage sha s' := by
  unfold VersionStore.merge at hmerge
  split at hmerge
  · cases hmerge
    exact h
  · split_ifs at hmerge
    · cases hmerge
      exact h
    · split at hmerge
      · cases hmerge
      · cases hmerge
        exact h
      · rename_i hloop
        cases hmerge
        exact h.mergeLoop hloop

theorem insertReady_eq_ok {rs pending rest : List Record}
    (h : insertReady sha rs pending s = (.ok rest, s')) : rest = rs.foldl List.erase pending := by
  induction rs generalizing pending s with
  | nil =>
    cases h
    rfl
  | cons r rs ih =>
    unfold VersionStore.insertReady at h
    split at h
    · cases h
    · exact ih h

theorem length_foldl_erase_le (rs pending : List Record) :
    (rs.foldl List.erase pending).length ≤ pending.length := by
  induction rs generalizing pending with
  | nil => exact le_refl _
  | cons r rs ih => exact (ih _).trans List.length_erase_le

theorem ready_of_insertRecord (h : Lineage sha s) {record : Record}
    (hok : insertRecord sha record s = (.ok r, s')) : ready s record = true := by
  have hready : (∀ p ∈ record.canonical.parentIds, p ∈ keys s.records) → ready s record = true := by
    intro hparents
    rw [ready, List.all_eq_true]
    intro p hp
    rw [Option.isSome_iff_ne_none, ne_eq, lookup_eq_none, not_not]
    exact hparents p (mem_canonical.mpr hp)
  rcases insertRecord_cases h record with ⟨e, heq⟩ | ⟨hmem, -⟩ | ⟨-, -, hparents, -⟩
  · rw [heq] at hok
    cases hok
  · exact hready fun p hp => h.grown.parent_mem ⟨_, hmem, hp⟩
  · exact hready hparents

theorem mergeLoop_returns {rounds : ℕ} {pending : List Record} (h : Lineage sha s)
    (hrounds : pending.length ≤ rounds) :
    ∃ result, mergeLoop sha rounds pending s = some result := by
  induction rounds generalizing pending s with
  | zero =>
    rw [List.length_eq_zero_iff.mp (Nat.le_zero.mp hrounds)]
    exact ⟨_, rfl⟩
  | succ rounds ih =>
    cases pending with
    | nil => exact ⟨_, rfl⟩
    | cons first pending =>
      unfold VersionStore.mergeLoop
      split
      · rename_i hnone
        split
        · exact ⟨_, rfl⟩
        · rename_i hok
          have hmem : first ∈ (first :: pending).filter (ready s) :=
            List.mem_filter.mpr ⟨List.mem_cons_self, ready_of_insertRecord h hok⟩
          rw [hnone] at hmem
          cases hmem
      · rename_i hsome
        have hstep := h.insertReady ((first :: pending).filter (ready s)) (first :: pending)
        split
        · exact ⟨_, rfl⟩
        · rename_i rest staged heq
          rw [heq] at hstep
          refine ih hstep ?_
          rw [insertReady_eq_ok heq]
          obtain ⟨r, rs, hrs⟩ := List.exists_cons_of_ne_nil hsome
          have hr : r ∈ first :: pending := List.mem_of_mem_filter (hrs ▸ List.mem_cons_self)
          have hlength := length_foldl_erase_le rs ((first :: pending).erase r)
          have herase := List.length_erase_of_mem hr
          rw [hrs, List.foldl_cons]
          simp only [List.length_cons] at hrounds herase ⊢
          omega

theorem length_pendingOf_le (o : Store) : (pendingOf o).length ≤ o.records.length := by
  have hlength := (Buckets.sorted_perm (o.records.map Prod.fst)).length_eq
  rw [List.length_map] at hlength
  exact (List.length_filterMap_le _ _).trans_eq hlength

/-- As many rounds as there are pending records suffice. -/
theorem Lineage.merge_store_returns (h : Lineage sha s) {o : Store} {rounds : ℕ}
    (hrounds : (pendingOf o).length ≤ rounds) :
    ∃ result, VersionStore.merge sha rounds (.store o) s = some result := by
  obtain ⟨⟨out, staged⟩, hloop⟩ := mergeLoop_returns h hrounds
  unfold VersionStore.merge
  simp only
  rw [hloop]
  split_ifs
  · exact ⟨_, rfl⟩
  · cases out with
    | error e => exact ⟨_, rfl⟩
    | ok u => exact ⟨_, rfl⟩

theorem Lineage.merge_returns (h : Lineage sha s) (other : Other) :
    ∃ rounds result, VersionStore.merge sha rounds other s = some result := by
  cases other with
  | foreign => exact ⟨0, _, rfl⟩
  | store o => exact ⟨_, h.merge_store_returns (le_refl (pendingOf o).length)⟩

/-! ### Rejected calls -/

theorem insertRecord_rejected {e : VersionError} (h : (insertRecord sha r s).1 = .error e) :
    (insertRecord sha r s).2 = s := by
  unfold insertRecord at h ⊢
  split_ifs at h ⊢ with hvalid
  · rfl
  · unfold insertValid at h ⊢
    split at h
    · split_ifs at h ⊢
      rfl
    · split at h
      · rfl
      · cases h

theorem insert_rejected {record : RecordObject} {e : VersionError}
    (h : (insert sha record s).1 = .error e) : (insert sha record s).2 = s := by
  unfold insert at h ⊢
  split at h
  · rfl
  · split at h
    · rfl
    · exact insertRecord_rejected h

theorem merge_rejected {rounds : ℕ} {other : Other} {e : VersionError}
    (h : merge sha rounds other s = some (.error e, s')) : s' = s := by
  unfold merge at h
  split at h
  · cases h
    rfl
  · split_ifs at h
    · cases h
      rfl
    · split at h
      · cases h
      · cases h
        rfl
      · cases h

/-! ### Reachable stores -/

/-- Stores reached by insertions of any objects and merges of any stores,
accepted or rejected. -/
inductive Reachable (sha : Sha256) : Store → Prop
  | new : Reachable sha Store.new
  | insert {s : Store} (record : RecordObject) : Reachable sha s →
      Reachable sha (insert sha record s).2
  | merge {s s' : Store} {rounds : ℕ} {other : Other} {out : Except VersionError Unit} :
      Reachable sha s → merge sha rounds other s = some (out, s') → Reachable sha s'

theorem Reachable.lineage (h : Reachable sha s) : Lineage sha s := by
  induction h with
  | new => exact Lineage.new sha
  | insert record _ ih => exact ih.insert record
  | merge _ hmerge ih => exact ih.merge hmerge

/-- A dictionary of content-addressed records that is a rooted directed acyclic
graph. -/
structure RootedDag (sha : Sha256) (s : Store) : Prop where
  nodup : (keys s.records).Nodup
  parents : ∀ k r, (k, r) ∈ s.records → ∀ p ∈ r.parentIds, p ∈ keys s.records
  root : s.records ≠ [] → ∃ k r, s.rootId = some k ∧ (k, r) ∈ s.records ∧ r.parentIds = [] ∧
    (∀ k' r', (k', r') ∈ s.records → r'.parentIds = [] → k' = k ∧ r' = r) ∧
    ∀ k' ∈ keys s.records, Relation.ReflTransGen (Parent Record.parentIds s.records) k k'
  empty : s.records = [] → s.rootId = none
  acyclic : ∀ k, ¬ Relation.TransGen (Parent Record.parentIds s.records) k k
  address : ∀ k r, (k, r) ∈ s.records → versionId sha r.parentIds r.graphDigest = some k

theorem Lineage.rootedDag (h : Lineage sha s) : RootedDag sha s := by
  refine ⟨h.grown.nodup, fun k r hr p hp => h.grown.parent_mem ⟨r, hr, hp⟩, fun hne => ?_,
    h.rootId_eq_none.mpr, h.grown.acyclic, fun k r hr => ?_⟩
  · obtain ⟨k, r, rest, hl, hr, hrest⟩ := h.grown.first hne
    refine ⟨k, r, ?_, ?_, hr, fun k' r' hr' hnil => ?_, fun k' hk' => h.grown.descends hl hk'⟩
    · rw [h.root, hl]
      rfl
    · rw [hl]
      exact List.mem_cons_self
    · rw [hl] at hr'
      rcases List.mem_cons.mp hr' with heq | hmem
      · cases heq
        exact ⟨rfl, rfl⟩
      · exact absurd hnil (hrest _ hmem)
  · obtain ⟨hvalid, hkey⟩ := h.valid k r hr
    simp only [validate, Bool.and_eq_true, beq_iff_eq] at hvalid
    rw [hvalid.2, hkey]

/-- Every reachable store is a rooted directed acyclic graph, a rejected call
leaves its store as it was, and a merge into a reachable store returns. -/
theorem rooted_dag (sha : Sha256) :
    (∀ s, Reachable sha s → RootedDag sha s) ∧
    (∀ record s e, (insert sha record s).1 = .error e → (insert sha record s).2 = s) ∧
    (∀ rounds other s s' e, merge sha rounds other s = some (.error e, s') → s' = s) ∧
    (∀ s, Reachable sha s → ∀ other, ∃ rounds result, merge sha rounds other s = some result) :=
  ⟨fun _ h => h.lineage.rootedDag, fun _ _ _ h => insert_rejected h,
    fun _ _ _ _ _ h => merge_rejected h, fun _ h => h.lineage.merge_returns⟩

/-! ### Records as objects -/

def Record.object (r : Record) : RecordObject :=
  .mapping ((((((∅ : PyDict Value).insert (key "version_id") (.scalar (.str r.versionId))).insert
    (key "parent_ids") (.list (r.parentIds.map Scalar.str))).insert
    (key "graph_digest") (.scalar (.str r.graphDigest))).insert
    (key "created_at") (.scalar (.str r.createdAt))).insert
    (key "label") (.scalar (.str r.label)))

theorem readRecord_object {members : PyDict Value} (h : r.object = .mapping members) :
    readRecord members = some r := by
  obtain rfl := RecordObject.mapping.inj h
  have hvp : key "version_id" ≠ key "parent_ids" := by unfold key; decide
  have hvg : key "version_id" ≠ key "graph_digest" := by unfold key; decide
  have hvc : key "version_id" ≠ key "created_at" := by unfold key; decide
  have hvl : key "version_id" ≠ key "label" := by unfold key; decide
  have hpg : key "parent_ids" ≠ key "graph_digest" := by unfold key; decide
  have hpc : key "parent_ids" ≠ key "created_at" := by unfold key; decide
  have hpl : key "parent_ids" ≠ key "label" := by unfold key; decide
  have hgc : key "graph_digest" ≠ key "created_at" := by unfold key; decide
  have hgl : key "graph_digest" ≠ key "label" := by unfold key; decide
  have hcl : key "created_at" ≠ key "label" := by unfold key; decide
  have htexts : ∀ ps : List Text, (ps.map Scalar.str).mapM Scalar.text? = some ps := by
    intro ps
    induction ps with
    | nil => rfl
    | cons p ps ih =>
      rw [List.map_cons, List.mapM_cons, ih]
      rfl
  unfold readRecord
  rw [if_pos]
  · simp only [Finmap.lookup_insert_of_ne _ hvp, Finmap.lookup_insert_of_ne _ hvg,
      Finmap.lookup_insert_of_ne _ hvc, Finmap.lookup_insert_of_ne _ hvl,
      Finmap.lookup_insert_of_ne _ hpg, Finmap.lookup_insert_of_ne _ hpc,
      Finmap.lookup_insert_of_ne _ hpl, Finmap.lookup_insert_of_ne _ hgc,
      Finmap.lookup_insert_of_ne _ hgl, Finmap.lookup_insert_of_ne _ hcl, Finmap.lookup_insert,
      Option.bind_some, Value.text?, Value.texts?, Scalar.text?, htexts, Option.bind_eq_bind,
      Option.pure_def]
  · ext k
    simp only [Finmap.mem_keys, Finmap.mem_insert, Finmap.notMem_empty, or_false,
      Finset.mem_insert, Finset.mem_singleton]
    tauto

theorem insert_object (r : Record) (s : Store) :
    insert sha r.object s = insertRecord sha r s := by
  cases hobject : r.object with
  | foreign tag => cases hobject
  | mapping members => rw [insert, readRecord_object hobject]

def firstVersion : Record :=
  ⟨idTag ++ List.replicate 64 '0', [], digestTag ++ List.replicate 64 'a',
    "2024-02-29T12:00:00Z".toList, "first".toList⟩

/-! ### Two stores with a common root -/

/-- A version that `marks` addresses by the digit of its digest. -/
def markedVersion (c : Char) (parents : List Char) (createdAt : String) : Record :=
  ⟨idTag ++ List.replicate 64 c, parents.map fun p => idTag ++ List.replicate 64 p,
    digestTag ++ List.replicate 64 c, createdAt.toList, "marked".toList⟩

def rootVersion : Record := markedVersion 'a' [] "2024-02-29T12:00:00Z"

def leftVersion : Record := markedVersion 'b' ['a'] "2024-03-01T12:00:00Z"

def rightVersion : Record := markedVersion 'c' ['a'] "2024-03-02T12:00:00Z"

def storeOf (rs : List Record) : Store :=
  rs.foldl (fun s r => (insert (.marks 64) r.object s).2) Store.new

theorem reachable_storeOf (rs : List Record) : Reachable (.marks 64) (storeOf rs) := by
  induction rs using List.reverseRecOn with
  | nil => exact .new
  | append_singleton rs r ih =>
    rw [storeOf, List.foldl_append]
    exact ih.insert r.object

def entriesOf (rs : List Record) : List (Text × Record) := rs.map fun r => (r.versionId, r)

theorem storeOf_eq (rs : List Record) :
    storeOf rs = rs.foldl (fun s r => (insertRecord (.marks 64) r s).2) Store.new := by
  simp only [storeOf, insert_object]

theorem storeOf_left :
    storeOf [rootVersion, leftVersion] =
      ⟨entriesOf [rootVersion, leftVersion], some rootVersion.versionId⟩ := by
  rw [storeOf_eq]
  rfl

theorem storeOf_right :
    storeOf [rootVersion, rightVersion] =
      ⟨entriesOf [rootVersion, rightVersion], some rootVersion.versionId⟩ := by
  rw [storeOf_eq]
  rfl

def mergedStore : Store :=
  ⟨entriesOf [rootVersion, leftVersion, rightVersion], some rootVersion.versionId⟩

theorem merge_right : merge (.marks 64) 2 (.store (storeOf [rootVersion, rightVersion]))
    (storeOf [rootVersion, leftVersion]) = some (.ok (), mergedStore) := by
  rw [storeOf_left, storeOf_right]
  rfl

/-- A root with a child, and another child that is merged in. -/
theorem rooted_dag_merged :
    merge (.marks 64) 2 (.store (storeOf [rootVersion, rightVersion]))
      (storeOf [rootVersion, leftVersion]) = some (.ok (), mergedStore) ∧
    RootedDag (.marks 64) mergedStore :=
  ⟨merge_right, (rooted_dag (.marks 64)).1 _ ((reachable_storeOf _).merge merge_right)⟩

end VersionStore
end OpenChess
