import OpenChess.Graph.Provenance

/-!
# Union of observations

A table stands for the set of observations (a target key and a source) inserted
into it. Insertions and merges are unions of these sets, and the serialization is
a listing of the set.
-/

namespace OpenChess
namespace Provenance

open PositionDigest (Sha256)

variable {sha : Sha256} {s : Source} {ss : List Source} {r : Record} {k : Key} {v : Value}
  {T : Table} {e : Key × Record} {l : List (Key × Record)}

/-! ### Sources -/

/-- The checks of a source entry. -/
structure ValidSource (s : Source) : Prop where
  registered : s.sourceId ∈ sourceIds
  game : validGameId s.gameId = true
  time : validTimestamp s.firstObservedAt = true

theorem validSource_of_readSource (h : readSource v = .ok s) : ValidSource s := by
  unfold readSource at h
  split at h
  · split_ifs at h with hid
    split at h
    · split_ifs at h with hgame htime
      obtain rfl := Except.ok.inj h
      exact ⟨hid, by simpa using hgame, by simpa using htime⟩
    · cases h
  · cases h

theorem ValidSource.readSource_toValue (h : ValidSource s) : readSource s.toValue = .ok s := by
  have hnodup : sourceFields.Nodup := by decide
  unfold readSource Source.toValue
  rw [Value.fields?_object hnodup rfl]
  simp only [h.registered, not_true_eq_false, if_false, h.game, h.time, Bool.true_eq_false]

@[simp] theorem mem_collapse : s ∈ collapse ss ↔ s ∈ ss := by
  rw [collapse, sortSources, Finset.mem_sort, List.mem_toFinset]

@[simp] theorem toFinset_collapse (ss : List Source) : (collapse ss).toFinset = ss.toFinset := by
  rw [collapse, sortSources, Finset.sort_toFinset]

theorem collapse_eq_of_toFinset {ss ss' : List Source} (h : ss.toFinset = ss'.toFinset) :
    collapse ss = collapse ss' := by
  rw [collapse, h, collapse]

/-- A nonempty, sorted list of distinct valid sources. -/
structure Canonical (ss : List Source) : Prop where
  nonempty : ss ≠ []
  valid : ∀ s ∈ ss, ValidSource s
  collapsed : collapse ss = ss

theorem Canonical.collapse (hne : ss ≠ []) (hvalid : ∀ s ∈ ss, ValidSource s) :
    Canonical (collapse ss) := by
  refine ⟨fun h => hne ?_, fun s hs => hvalid s (mem_collapse.mp hs), ?_⟩
  · have hempty : ss.toFinset = ∅ := by rw [← toFinset_collapse, h, List.toFinset_nil]
    exact List.toFinset_eq_empty_iff ss |>.mp hempty
  · exact collapse_eq_of_toFinset (toFinset_collapse ss)

theorem readSources_eq_ok {vs : List Value} (h : vs.mapM readSource = .ok ss) :
    ss.length = vs.length ∧ ∀ s ∈ ss, ValidSource s := by
  induction vs generalizing ss with
  | nil =>
    obtain rfl := Except.ok.inj h
    exact ⟨rfl, fun _ hs => by cases hs⟩
  | cons v vs ih =>
    rw [List.mapM_cons] at h
    cases hv : readSource v with
    | error e =>
      rw [hv] at h
      cases h
    | ok s =>
      cases hvs : vs.mapM readSource with
      | error e =>
        rw [hv, hvs] at h
        cases h
      | ok ss' =>
        rw [hv, hvs] at h
        obtain rfl := Except.ok.inj h
        obtain ⟨hlength, hvalid⟩ := ih hvs
        refine ⟨by simp [hlength], List.forall_mem_cons.mpr ⟨?_, hvalid⟩⟩
        exact validSource_of_readSource hv

theorem canonical_of_canonicalSources (h : canonicalSources v = .ok ss) : Canonical ss := by
  unfold canonicalSources at h
  split at h
  · cases h
  · rename_i entries hentries
    cases hread : entries.mapM readSource with
    | error e =>
      rw [hread] at h
      cases h
    | ok raw =>
      rw [hread] at h
      obtain rfl := Except.ok.inj h
      obtain ⟨hlength, hvalid⟩ := readSources_eq_ok hread
      refine Canonical.collapse (fun hraw => hentries ?_) hvalid
      rw [hraw] at hlength
      exact List.length_eq_zero_iff.mp hlength.symm
  · cases h

theorem readSources_toValue (h : ∀ s ∈ ss, ValidSource s) :
    (ss.map Source.toValue).mapM readSource = .ok ss := by
  induction ss with
  | nil => rfl
  | cons s ss ih =>
    obtain ⟨hs, hss⟩ := List.forall_mem_cons.mp h
    rw [List.map_cons, List.mapM_cons, hs.readSource_toValue, ih hss]
    rfl

theorem canonicalSources_toValue (hne : ss ≠ []) (h : ∀ s ∈ ss, ValidSource s) :
    canonicalSources (.list (ss.map Source.toValue)) = .ok (collapse ss) := by
  obtain ⟨s, rest, rfl⟩ := List.exists_cons_of_ne_nil hne
  have hread := readSources_toValue h
  rw [List.map_cons] at hread ⊢
  simp only [canonicalSources]
  rw [hread]
  rfl

/-! ### Records -/

/-- A record that passed validation, under its key. -/
structure Stored (sha : Sha256) (k : Key) (r : Record) : Prop where
  kind : k.1 = r.kind
  identity : targetIdentity sha r.kind r.target = .ok k.2
  sources : Canonical r.sources

theorem stored_of_validateRecord (h : validateRecord sha v = .ok r) :
    ∃ i, targetIdentity sha r.kind r.target = .ok i ∧ Stored sha (r.kind, i) r := by
  unfold validateRecord at h
  split at h
  · split at h
    · cases h
    · split at h
      · cases h
      · rename_i sources hsources
        split at h
        · cases h
        · rename_i i hidentity
          obtain rfl := Except.ok.inj h
          exact ⟨i, hidentity, rfl, hidentity, canonical_of_canonicalSources hsources⟩
  · cases h

theorem Stored.validateRecord_toValue (h : Stored sha k r) :
    validateRecord sha r.toValue = .ok r := by
  have hnodup : recordFields.Nodup := by decide
  have hkind : kindOf? (.str r.kind.text) = some r.kind := by cases r.kind <;> decide
  have hsources := canonicalSources_toValue h.sources.nonempty h.sources.valid
  rw [h.sources.collapsed] at hsources
  unfold validateRecord Record.toValue
  rw [Value.fields?_object hnodup rfl]
  simp only [hkind, hsources, h.identity]

/-- The record an object is accepted as, under its key. -/
def admitted (sha : Sha256) (v : Value) : Option (Key × Record) :=
  match validateRecord sha v with
  | .error _ => none
  | .ok r =>
    match targetIdentity sha r.kind r.target with
    | .error _ => none
    | .ok i => some ((r.kind, i), r)

theorem stored_of_admitted (h : admitted sha v = some e) : Stored sha e.1 e.2 := by
  unfold admitted at h
  split at h
  · cases h
  · rename_i r hr
    obtain ⟨i, hi, hstored⟩ := stored_of_validateRecord hr
    rw [hi] at h
    obtain rfl := Option.some.inj h
    exact hstored

theorem Stored.admitted_toValue (h : Stored sha k r) : admitted sha r.toValue = some (k, r) := by
  obtain ⟨kind, identity⟩ := k
  obtain rfl : kind = r.kind := h.kind
  unfold admitted
  rw [h.validateRecord_toValue]
  simp only [h.identity]

/-! ### Tables -/

/-- One valid record for each key. -/
structure Good (sha : Sha256) (T : Table) : Prop where
  nodup : (T.map Prod.fst).Nodup
  stored : ∀ e ∈ T, Stored sha e.1 e.2

theorem Good.new (sha : Sha256) : Good sha Table.new :=
  ⟨List.nodup_nil, fun _ he => by cases he⟩

/-- The record a key holds once `e` is inserted. -/
def unitedRecord (T : Table) (e : Key × Record) : Record :=
  match T.lookup e.1 with
  | none => e.2
  | some existing => { existing with sources := collapse (existing.sources ++ e.2.sources) }

/-- The table once `e` is inserted. -/
def united (T : Table) (e : Key × Record) : Table := Assoc.assign T e.1 (unitedRecord T e)

theorem Good.stored_unitedRecord (h : Good sha T) (he : Stored sha e.1 e.2) :
    Stored sha e.1 (unitedRecord T e) := by
  unfold unitedRecord
  split
  · exact he
  · rename_i existing hlookup
    have hexisting := h.stored _ ((Dict.lookup_eq_some_iff_mem h.nodup).mp hlookup)
    refine ⟨hexisting.kind, hexisting.identity, Canonical.collapse ?_ fun s hs => ?_⟩
    · simp [hexisting.sources.nonempty]
    · rcases List.mem_append.mp hs with hs | hs
      · exact hexisting.sources.valid s hs
      · exact he.sources.valid s hs

theorem Good.united (h : Good sha T) (he : Stored sha e.1 e.2) :
    Good sha (Provenance.united T e) := by
  refine ⟨Assoc.nodup_assign h.nodup, fun x hx => ?_⟩
  rcases (Assoc.mem_assign h.nodup).mp hx with rfl | ⟨hx, -⟩
  · exact h.stored_unitedRecord he
  · exact h.stored x hx

/-- An insertion raises on the objects that are not accepted, and unites the others. -/
theorem insert_eq (h : Good sha T) (v : Value) :
    (admitted sha v = none ∧ ∃ err, insert sha v T = (.error err, T)) ∨
      ∃ e, admitted sha v = some e ∧ insert sha v T = (.ok (unitedRecord T e), united T e) := by
  unfold insert admitted
  cases hr : validateRecord sha v with
  | error err => exact .inl ⟨rfl, err, rfl⟩
  | ok r =>
    obtain ⟨i, hi, hstored⟩ := stored_of_validateRecord hr
    simp only [hi]
    refine .inr ⟨_, rfl, ?_⟩
    cases hlookup : T.lookup (r.kind, i) with
    | none => simp only [united, unitedRecord, hlookup]
    | some existing =>
      have hmem := (Dict.lookup_eq_some_iff_mem h.nodup).mp hlookup
      have hexisting := h.stored _ hmem
      have hsources : canonicalSources
          (.list ((existing.sources ++ r.sources).map Source.toValue)) =
            .ok (collapse (existing.sources ++ r.sources)) := by
        refine canonicalSources_toValue ?_ fun s hs => ?_
        · simp [hexisting.sources.nonempty]
        · rcases List.mem_append.mp hs with hs | hs
          · exact hexisting.sources.valid s hs
          · exact hstored.sources.valid s hs
      simp only [hsources, united, unitedRecord, hlookup]
      by_cases hsame : collapse (existing.sources ++ r.sources) = existing.sources
      · rw [if_neg (not_not.mpr hsame), hsame, Assoc.assign_of_mem h.nodup hmem]
      · rw [if_pos hsame]

theorem mergeLoop_eq (h : Good sha T) (vs : List Value) :
    (vs.mapM (admitted sha) = none ∧ ∃ err, (mergeLoop sha vs T).1 = .error err) ∨
      ∃ es, vs.mapM (admitted sha) = some es ∧ (∀ e ∈ es, Stored sha e.1 e.2) ∧
        mergeLoop sha vs T = (.ok (), es.foldl united T) := by
  induction vs generalizing T with
  | nil => exact .inr ⟨[], rfl, (fun _ he => by cases he), rfl⟩
  | cons v vs ih =>
    rw [List.mapM_cons, mergeLoop]
    obtain ⟨hnone, err, hinsert⟩ | ⟨e, hsome, hinsert⟩ := insert_eq h v
    · rw [hnone, hinsert]
      exact .inl ⟨rfl, err, rfl⟩
    · have he := stored_of_admitted hsome
      rw [hsome, hinsert]
      obtain ⟨hnone, err, hloop⟩ | ⟨es, hes, hstored, hloop⟩ := ih (h.united he)
      · rw [hnone]
        exact .inl ⟨rfl, err, hloop⟩
      · rw [hes]
        exact .inr ⟨e :: es, rfl, List.forall_mem_cons.mpr ⟨he, hstored⟩, hloop⟩

/-! ### Observations -/

def observations (l : List (Key × Record)) : Finset (Key × Source) :=
  (l.flatMap fun e => e.2.sources.map (Prod.mk e.1)).toFinset

@[simp] theorem mem_observations :
    (k, s) ∈ observations l ↔ ∃ r, (k, r) ∈ l ∧ s ∈ r.sources := by
  simp only [observations, List.mem_toFinset, List.mem_flatMap, List.mem_map, Prod.mk.injEq]
  constructor
  · intro h
    obtain ⟨⟨k', r⟩, hmem, s', hs, rfl, rfl⟩ := h
    exact ⟨r, hmem, hs⟩
  · intro h
    obtain ⟨r, hmem, hs⟩ := h
    exact ⟨(k, r), hmem, s, hs, rfl, rfl⟩

theorem observations_append (l l' : List (Key × Record)) :
    observations (l ++ l') = observations l ∪ observations l' := by
  rw [observations, List.flatMap_append, List.toFinset_append]
  rfl

theorem Good.observations_united (h : Good sha T) (e : Key × Record) :
    observations (Provenance.united T e) = observations (T ++ [e]) := by
  have hunited : ∀ s, s ∈ (unitedRecord T e).sources ↔
      s ∈ e.2.sources ∨ ∃ r, (e.1, r) ∈ T ∧ s ∈ r.sources := by
    intro s
    simp only [← Dict.lookup_eq_some_iff_mem h.nodup, unitedRecord]
    cases hlookup : T.lookup e.1 with
    | none => simp
    | some existing => simp [or_comm]
  refine Finset.ext fun o => ?_
  obtain ⟨k, s⟩ := o
  have hpair : ∀ (k : Key) (r : Record) (e : Key × Record), (k, r) = e ↔ k = e.1 ∧ r = e.2 :=
    fun k r e => Prod.ext_iff
  simp only [mem_observations, Provenance.united, Assoc.mem_assign h.nodup, List.mem_append,
    List.mem_singleton, hpair]
  constructor
  · intro ho
    obtain ⟨r, ⟨rfl, rfl⟩ | ⟨hr, -⟩, hs⟩ := ho
    · obtain hs | ⟨r, hr, hs⟩ := (hunited s).mp hs
      · exact ⟨e.2, .inr ⟨rfl, rfl⟩, hs⟩
      · exact ⟨r, .inl hr, hs⟩
    · exact ⟨r, .inl hr, hs⟩
  · intro ho
    obtain ⟨r, hr | ⟨rfl, rfl⟩, hs⟩ := ho
    · by_cases hk : k = e.1
      · exact ⟨_, .inl ⟨hk, rfl⟩, (hunited s).mpr (.inr ⟨r, hk ▸ hr, hs⟩)⟩
      · exact ⟨r, .inr ⟨hr, hk⟩, hs⟩
    · exact ⟨_, .inl ⟨rfl, rfl⟩, (hunited s).mpr (.inl hs)⟩

theorem Good.foldl_united (h : Good sha T) (hl : ∀ e ∈ l, Stored sha e.1 e.2) :
    Good sha (l.foldl Provenance.united T) ∧
      observations (l.foldl Provenance.united T) = observations (T ++ l) := by
  induction l generalizing T with
  | nil => exact ⟨h, by rw [List.foldl_nil, List.append_nil]⟩
  | cons e l ih =>
    obtain ⟨he, hl⟩ := List.forall_mem_cons.mp hl
    obtain ⟨hgood, hobservations⟩ := ih (h.united he) hl
    refine ⟨hgood, ?_⟩
    rw [List.foldl_cons, hobservations, observations_append, h.observations_united,
      ← observations_append, List.append_assoc, List.singleton_append]

def listing (o : Finset (Key × Source)) : List Row :=
  ((o.image Prod.fst).val.map fun k =>
    row k k.1 (sortSources ((o.filter fun e => e.1 = k).image Prod.snd))).sort (· ≤ ·)

/-- The serialization depends on the observations only. -/
theorem Good.serialize_eq (h : Good sha T) : serialize T = listing (observations T) := by
  have hkeys : (observations T).image Prod.fst = (T.map Prod.fst).toFinset := by
    refine Finset.ext fun k => ?_
    simp only [Finset.mem_image, List.mem_toFinset, List.mem_map]
    constructor
    · intro hk
      obtain ⟨⟨k', s⟩, ho, rfl⟩ := hk
      obtain ⟨r, hr, -⟩ := mem_observations.mp ho
      exact ⟨_, hr, rfl⟩
    · intro hk
      obtain ⟨⟨k', r⟩, hr, rfl⟩ := hk
      obtain ⟨s, hs⟩ := List.exists_mem_of_ne_nil _ (h.stored _ hr).sources.nonempty
      exact ⟨(k', s), mem_observations.mpr ⟨r, hr, hs⟩, rfl⟩
  have hsources : ∀ e ∈ T,
      ((observations T).filter fun o => o.1 = e.1).image Prod.snd = e.2.sources.toFinset := by
    intro e he
    refine Finset.ext fun s => ?_
    simp only [Finset.mem_image, Finset.mem_filter, List.mem_toFinset]
    constructor
    · intro hs
      obtain ⟨⟨k, s⟩, ⟨ho, rfl⟩, rfl⟩ := hs
      obtain ⟨r, hr, hs⟩ := mem_observations.mp ho
      rw [← Dict.lookup_eq_some_iff_mem h.nodup] at hr
      have hlookup := (Dict.lookup_eq_some_iff_mem h.nodup).mpr he
      rw [hr] at hlookup
      rwa [← Option.some.inj hlookup]
    · intro hs
      exact ⟨(e.1, s), ⟨mem_observations.mpr ⟨e.2, he, hs⟩, rfl⟩, rfl⟩
  have hrows : (T.map fun e => row e.1 e.2.kind e.2.sources) = (T.map Prod.fst).map fun k =>
      row k k.1 (sortSources (((observations T).filter fun o => o.1 = k).image Prod.snd)) := by
    rw [List.map_map]
    refine List.map_congr_left fun e he => ?_
    have hstored := h.stored e he
    have hsorted : sortSources e.2.sources.toFinset = e.2.sources := hstored.sources.collapsed
    rw [Function.comp_apply, hsources e he, hsorted, hstored.kind]
  unfold serialize listing
  rw [hkeys, List.toFinset_val, List.dedup_eq_self.mpr h.nodup, hrows, Multiset.map_coe,
    Multiset.coe_sort, List.mergeSort_eq_insertionSort]
  rfl

/-! ### Insertions and merges -/

/-- How a table is built: insertions of any objects, merges of other tables, and
merges of anything with a `records` method. -/
inductive Build
  | new
  | insert (build : Build) (record : Value)
  | merge (build other : Build)
  | mergeWith (build : Build) (incoming : Option Value)

/-- The table left by all the calls, the ones that raise included. -/
def Build.run (sha : Sha256) : Build → Table
  | .new => Table.new
  | .insert build record => (Provenance.insert sha record (build.run sha)).2
  | .merge build other => (Provenance.merge sha (some (records (other.run sha))) (build.run sha)).2
  | .mergeWith build incoming => (Provenance.merge sha incoming (build.run sha)).2

/-- The records of a batch, if all are accepted. -/
def admittedAll (sha : Sha256) : Option Value → Option (List (Key × Record))
  | some (.list vs) => vs.mapM (admitted sha)
  | _ => none

/-- The records inserted by the calls that do not raise. -/
def Build.accepted (sha : Sha256) : Build → List (Key × Record)
  | .new => []
  | .insert build record => build.accepted sha ++ (admitted sha record).toList
  | .merge build other => build.accepted sha ++ other.accepted sha
  | .mergeWith build incoming => build.accepted sha ++ (admittedAll sha incoming).getD []

theorem merge_eq (h : Good sha T) (incoming : Option Value) :
    (admittedAll sha incoming = none ∧ ∃ err, merge sha incoming T = (.error err, T)) ∨
      ∃ es, admittedAll sha incoming = some es ∧ (∀ e ∈ es, Stored sha e.1 e.2) ∧
        merge sha incoming T = (.ok (), es.foldl united T) := by
  by_cases hlist : ∃ vs, incoming = some (.list vs)
  · obtain ⟨vs, rfl⟩ := hlist
    obtain ⟨hnone, err, hloop⟩ | ⟨es, hes, hstored, hloop⟩ := mergeLoop_eq h vs
    · refine .inl ⟨hnone, err, ?_⟩
      rcases hresult : mergeLoop sha vs T with ⟨out, staged⟩
      rw [hresult] at hloop
      obtain rfl : out = .error err := hloop
      simp only [merge, hresult]
    · exact .inr ⟨es, hes, hstored, by simp only [merge, hloop]⟩
  · refine .inl ⟨?_, .malformedProvenanceRecord, ?_⟩
    · unfold admittedAll
      split
      · exact absurd ⟨_, rfl⟩ hlist
      · rfl
    · unfold merge
      split
      · exact absurd ⟨_, rfl⟩ hlist
      · rfl

theorem Good.admittedAll_records (h : Good sha T) :
    admittedAll sha (some (records T)) = some T := by
  have hall : ∀ l : List (Key × Record), (∀ e ∈ l, Stored sha e.1 e.2) →
      (l.map fun e => e.2.toValue).mapM (admitted sha) = some l := by
    intro l
    induction l with
    | nil => exact fun _ => rfl
    | cons e l ih =>
      intro hl
      obtain ⟨he, hl⟩ := List.forall_mem_cons.mp hl
      rw [List.map_cons, List.mapM_cons, he.admitted_toValue, ih hl]
      rfl
  exact hall T h.stored

theorem Build.good_run (b : Build) (sha : Sha256) :
    Good sha (b.run sha) ∧ observations (b.run sha) = observations (b.accepted sha) := by
  induction b with
  | new => exact ⟨Good.new sha, rfl⟩
  | insert b v ih =>
    obtain ⟨hgood, hb⟩ := ih
    rw [Build.run, Build.accepted, observations_append]
    obtain ⟨hnone, err, hinsert⟩ | ⟨e, hsome, hinsert⟩ := insert_eq hgood v
    · rw [hinsert, hnone]
      exact ⟨hgood, hb.trans (Finset.union_empty _).symm⟩
    · rw [hinsert, hsome]
      refine ⟨hgood.united (stored_of_admitted hsome), ?_⟩
      rw [hgood.observations_united, observations_append, hb]
      rfl
  | merge b b' ih ih' =>
    obtain ⟨hgood, hb⟩ := ih
    obtain ⟨hgood', hb'⟩ := ih'
    rw [Build.run, Build.accepted, observations_append]
    obtain ⟨hnone, -⟩ | ⟨es, hes, hstored, hmerge⟩ :=
      merge_eq hgood (some (records (b'.run sha)))
    · rw [hgood'.admittedAll_records] at hnone
      cases hnone
    · rw [hgood'.admittedAll_records] at hes
      obtain rfl := Option.some.inj hes
      rw [hmerge, ← hb, ← hb', ← observations_append]
      exact hgood.foldl_united hstored
  | mergeWith b incoming ih =>
    obtain ⟨hgood, hb⟩ := ih
    rw [Build.run, Build.accepted, observations_append]
    obtain ⟨hnone, err, hmerge⟩ | ⟨es, hes, hstored, hmerge⟩ := merge_eq hgood incoming
    · rw [hmerge, hnone]
      exact ⟨hgood, hb.trans (Finset.union_empty _).symm⟩
    · rw [hmerge, hes, Option.getD_some, ← hb, ← observations_append]
      exact hgood.foldl_united hstored

theorem insert_error {err : FailureClass} {T' : Table}
    (h : insert sha v T = (.error err, T')) : T' = T := by
  unfold insert at h
  split at h
  · exact (Prod.mk.inj h).2.symm
  · split at h
    · exact (Prod.mk.inj h).2.symm
    · split at h
      · cases h
      · split at h
        · exact (Prod.mk.inj h).2.symm
        · split_ifs at h
          · cases h
          · cases h

theorem merge_error {incoming : Option Value} {err : FailureClass} {T' : Table}
    (h : merge sha incoming T = (.error err, T')) : T' = T := by
  unfold merge at h
  split at h
  · split at h
    · exact (Prod.mk.inj h).2.symm
    · cases h
  · exact (Prod.mk.inj h).2.symm

/-- Whatever calls built a table, its serialization lists the observations of the
records accepted: one row for each key, with the distinct sources in order. So it
depends on these records only, not on order and grouping. A call that raises
leaves the table unchanged. -/
theorem serialize_run (sha : Sha256) :
    (∀ b : Build, serialize (b.run sha) = listing (observations (b.accepted sha))) ∧
    (∀ b b' : Build, (b.accepted sha).Perm (b'.accepted sha) →
      serialize (b.run sha) = serialize (b'.run sha)) ∧
    (∀ record T err T', insert sha record T = (.error err, T') → T' = T) ∧
    ∀ incoming T err T', merge sha incoming T = (.error err, T') → T' = T := by
  have hrun : ∀ b : Build, serialize (b.run sha) = listing (observations (b.accepted sha)) := by
    intro b
    obtain ⟨hgood, hb⟩ := b.good_run sha
    rw [hgood.serialize_eq, hb]
  refine ⟨hrun, fun b b' h => ?_, fun _ _ _ _ => insert_error, fun _ _ _ _ => merge_error⟩
  have hsame : observations (b.accepted sha) = observations (b'.accepted sha) :=
    List.toFinset_eq_of_perm _ _ (h.flatMap_right _)
  rw [hrun, hrun, hsame]

def importedLine (game : Text) : Value :=
  .object recordFields [.str TargetKind.openingContext.text,
    .object contextFields [.str "standard".toList, .list []],
    .list [Source.toValue ⟨"pgn-file".toList, game, "2024-02-29T12:00:00Z".toList⟩]]

/-- Two observations of one line, inserted one after the other, or merged in the
other order. -/
theorem serialize_run_importedLine :
    ((admitted (.zeros 64) (importedLine ['a'])).isSome ∧
      (admitted (.zeros 64) (importedLine ['b'])).isSome) ∧
    serialize (Build.run (.zeros 64)
        (.insert (.insert .new (importedLine ['a'])) (importedLine ['b']))) =
      serialize (Build.run (.zeros 64)
        (.merge (.insert .new (importedLine ['b'])) (.insert .new (importedLine ['a'])))) := by
  obtain ⟨-, hperm, -⟩ := serialize_run (.zeros 64)
  refine ⟨by decide +kernel, hperm _ _ ?_⟩
  exact List.perm_append_comm

end Provenance
end OpenChess
