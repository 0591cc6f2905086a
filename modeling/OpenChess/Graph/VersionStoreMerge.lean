import OpenChess.Graph.VersionStoreSpec

/-!
# Merging version stores

A merge of reachable stores succeeds exactly when they agree on the versions they
share and do not have two roots, and it then leaves the union of their records.
While the merge runs, some pending record has all its parents staged: one of least
rank in the other store.
-/

namespace OpenChess
namespace VersionStore

open ParentsFirst (Grown Parent keys)

variable {sha : Sha256} {r : Record} {s o t t' : Store} {k : Text}

/-! ### Stored records are canonical and not older than their parents -/

/-- `Q` holds between every record and each of its parents. -/
def OnEdges (Q : Record → Record → Prop) (s : Store) : Prop :=
  ∀ k r p rp, (k, r) ∈ s.records → p ∈ r.parentIds → (p, rp) ∈ s.records → Q r rp

/-- A new record adds only the edges to its own parents. -/
theorem OnEdges.push {Q : Record → Record → Prop} (hq : OnEdges Q s) (h : Lineage sha s)
    (hnew : r.versionId ∉ keys s.records) (hparents : ∀ p ∈ r.parentIds, p ∈ keys s.records)
    (hr : ∀ p ∈ r.parentIds, ∀ rp, (p, rp) ∈ s.records → Q r rp) : OnEdges Q (s.push r) := by
  intro k r' p rp hr' hp hrp
  have hstored : p ∈ keys s.records := by
    rcases List.mem_append.mp hr' with hin | hin
    · exact h.grown.parent_mem ⟨r', hin, hp⟩
    · cases List.mem_singleton.mp hin
      exact hparents p hp
  have hold : (p, rp) ∈ s.records := by
    rcases List.mem_append.mp hrp with hin | hin
    · exact hin
    · cases List.mem_singleton.mp hin
      exact absurd hstored hnew
  rcases List.mem_append.mp hr' with hin | hin
  · exact hq k r' p rp hin hp hold
  · cases List.mem_singleton.mp hin
    exact hr p hp rp hold

/-- What insertions check besides the lineage. -/
structure Ordered (s : Store) : Prop where
  canonical : ∀ k r, (k, r) ∈ s.records → r.canonical = r
  created : OnEdges (fun r rp => ¬ r.createdAt < rp.createdAt) s

theorem Ordered.new : Ordered Store.new :=
  ⟨(fun _ _ hr => by cases hr), (fun _ _ _ _ hr => by cases hr)⟩

theorem Record.canonical_canonical (r : Record) : r.canonical.canonical = r.canonical := by
  simp only [Record.canonical, VersionStore.canonical_canonical]

theorem Lineage.lookup_eq_some (h : Lineage sha s) :
    s.records.lookup k = some r ↔ (k, r) ∈ s.records := by
  constructor
  · exact mem_of_lookup
  · intro hr
    cases hlookup : s.records.lookup k with
    | none => exact absurd (ParentsFirst.mem_keys.mpr ⟨r, hr⟩) (lookup_eq_none.mp hlookup)
    | some r' =>
      have hpair := List.inj_on_of_nodup_map h.grown.nodup (mem_of_lookup hlookup) hr rfl
      exact congrArg some (congrArg Prod.snd hpair)

/-- A version has one record in a store. -/
theorem Lineage.record_unique (h : Lineage sha s) {r' : Record} (hr : (k, r) ∈ s.records)
    (hr' : (k, r') ∈ s.records) : r = r' :=
  congrArg Prod.snd (List.inj_on_of_nodup_map h.grown.nodup hr hr' rfl)

theorem Lineage.checkParents_iff (h : Lineage sha s) {ps : List Text} :
    checkParents s r ps = none ↔
      ∀ p ∈ ps, ∃ rp, (p, rp) ∈ s.records ∧ ¬ r.createdAt < rp.createdAt := by
  induction ps with
  | nil => simp [checkParents]
  | cons p ps ih =>
    rw [List.forall_mem_cons, ← ih]
    cases hlookup : s.records.lookup p with
    | none =>
      have hmissing : ∀ rp, (p, rp) ∉ s.records := fun rp hrp => by
        rw [h.lookup_eq_some.mpr hrp] at hlookup
        cases hlookup
      simp [checkParents, hlookup, hmissing]
    | some rp =>
      have hrp := mem_of_lookup hlookup
      have hstored : (∃ rp', (p, rp') ∈ s.records ∧ ¬ r.createdAt < rp'.createdAt) ↔
          ¬ r.createdAt < rp.createdAt := by
        constructor
        · intro hex
          obtain ⟨rp', hrp', hlt⟩ := hex
          rwa [h.record_unique hrp hrp']
        · exact fun hlt => ⟨rp, hrp, hlt⟩
      rw [hstored]
      by_cases hlt : r.createdAt < rp.createdAt
      · simp [checkParents, hlookup, hlt]
      · simp only [checkParents, hlookup, hlt, if_false, not_false_eq_true, true_and]

/-- A record the lineage checks let through. -/
def Fits (s : Store) (r : Record) : Prop :=
  (r.parentIds = [] ∧ s.records = []) ∨
    (r.parentIds ≠ [] ∧ ∀ p ∈ r.parentIds, ∃ rp, (p, rp) ∈ s.records ∧
      ¬ r.createdAt < rp.createdAt)

theorem Lineage.checkLineage_iff (h : Lineage sha s) : checkLineage s r = none ↔ Fits s r := by
  unfold checkLineage Fits
  by_cases hnil : r.parentIds = []
  · rw [if_pos hnil, ← h.rootId_eq_none]
    cases s.rootId <;> simp [hnil]
  · rw [if_neg hnil, h.checkParents_iff]
    simp [hnil]

/-- Every parent of a fitting record is stored and not younger. -/
theorem Fits.parents (h : Fits s r) :
    ∀ p ∈ r.parentIds, ∃ rp, (p, rp) ∈ s.records ∧ ¬ r.createdAt < rp.createdAt := by
  rcases h with ⟨hnil, -⟩ | ⟨-, hparents⟩
  · rw [hnil]
    exact fun p hp => by cases hp
  · exact hparents

theorem Fits.mem_keys (h : Fits s r) : ∀ p ∈ r.parentIds, p ∈ keys s.records := by
  intro p hp
  obtain ⟨rp, hrp, -⟩ := h.parents p hp
  exact ParentsFirst.mem_keys.mpr ⟨rp, hrp⟩

theorem Ordered.push (ho : Ordered s) (h : Lineage sha s) (hr : r.canonical = r)
    (hnew : r.versionId ∉ keys s.records) (hfits : Fits s r) : Ordered (s.push r) := by
  refine ⟨fun k' r' hr' => ?_, ho.created.push h hnew hfits.mem_keys fun p hp rp hrp => ?_⟩
  · rcases List.mem_append.mp hr' with hr' | hr'
    · exact ho.canonical k' r' hr'
    · cases List.mem_singleton.mp hr'
      exact hr
  · obtain ⟨rp', hrp', hlt⟩ := hfits.parents p hp
    rwa [h.record_unique hrp hrp']

/-- Insertion is decided by the record stored under its identity and by its fit. -/
theorem Lineage.insertRecord_eq (h : Lineage sha s) {record : Record}
    (hvalid : validate sha record = true) :
    ((record.versionId, record.canonical) ∈ s.records ∧
        VersionStore.insertRecord sha record s = (.ok record.canonical, s)) ∨
      (record.versionId ∉ keys s.records ∧ Fits s record.canonical ∧
        VersionStore.insertRecord sha record s = (.ok record.canonical, s.push record.canonical)) ∨
      ((∃ e, VersionStore.insertRecord sha record s = (.error e, s)) ∧
        (record.versionId, record.canonical) ∉ s.records ∧
        (record.versionId ∈ keys s.records ∨ ¬ Fits s record.canonical)) := by
  have hkey : record.canonical.versionId = record.versionId := rfl
  unfold VersionStore.insertRecord insertValid
  rw [if_neg (by rw [hvalid]; decide), hkey]
  cases hlookup : s.records.lookup record.versionId with
  | some stored =>
    have hstored := mem_of_lookup hlookup
    simp only
    by_cases heq : stored = record.canonical
    · rw [if_neg (not_not.mpr heq), heq]
      exact .inl ⟨heq ▸ hstored, rfl⟩
    · rw [if_pos heq]
      exact .inr (.inr ⟨⟨_, rfl⟩, fun hmem => heq (h.record_unique hstored hmem),
        .inl (ParentsFirst.mem_keys.mpr ⟨stored, hstored⟩)⟩)
  | none =>
    have hnew := lookup_eq_none.mp hlookup
    simp only
    cases hcheck : checkLineage s record.canonical with
    | none => exact .inr (.inl ⟨hnew, h.checkLineage_iff.mp hcheck, rfl⟩)
    | some cls =>
      refine .inr (.inr ⟨⟨_, rfl⟩, fun hmem => hnew (ParentsFirst.mem_keys.mpr ⟨_, hmem⟩),
        .inr fun hfits => ?_⟩)
      rw [h.checkLineage_iff.mpr hfits] at hcheck
      cases hcheck

/-- Both invariants of a reachable store. -/
structure Sound (sha : Sha256) (s : Store) : Prop where
  lineage : Lineage sha s
  ordered : Ordered s

theorem Sound.new (sha : Sha256) : Sound sha Store.new := ⟨.new sha, .new⟩

theorem Sound.insertRecord (h : Sound sha s) (record : Record) :
    Sound sha (VersionStore.insertRecord sha record s).2 := by
  refine ⟨h.lineage.insertRecord record, ?_⟩
  by_cases hvalid : validate sha record = true
  · rcases h.lineage.insertRecord_eq hvalid with ⟨-, heq⟩ | ⟨hnew, hfits, heq⟩ | ⟨⟨e, heq⟩, -⟩
    · rw [heq]
      exact h.ordered
    · rw [heq]
      exact h.ordered.push h.lineage record.canonical_canonical hnew hfits
    · rw [heq]
      exact h.ordered
  · unfold VersionStore.insertRecord
    rw [if_pos (by simpa using hvalid)]
    exact h.ordered

/-! ### What a merge does to the staged store -/

def KeptBy (sha : Sha256) (pending : List Record) (P : Store → Prop) : Prop :=
  ∀ r ∈ pending, ∀ t, P t → P (insertRecord sha r t).2

theorem insertReady_keeps {P : Store → Prop} {rs pending : List Record}
    (hkept : KeptBy sha rs P) (ht : P t) : P (insertReady sha rs pending t).2 := by
  induction rs generalizing pending t with
  | nil => exact ht
  | cons r rs ih =>
    have hstep := hkept r List.mem_cons_self t ht
    unfold insertReady
    split
    · rename_i heq
      rwa [heq] at hstep
    · rename_i heq
      rw [heq] at hstep
      exact ih (fun r' hr' => hkept r' (List.mem_cons_of_mem _ hr')) hstep

theorem mem_of_mem_foldl_erase {rs pending : List Record}
    (h : r ∈ rs.foldl List.erase pending) : r ∈ pending := by
  induction rs generalizing pending with
  | nil => exact h
  | cons r' rs ih => exact List.mem_of_mem_erase (ih h)

theorem mergeLoop_keeps {P : Store → Prop} {rounds : ℕ} {pending : List Record}
    {out : Except VersionError Unit} (hkept : KeptBy sha pending P) (ht : P t)
    (hloop : mergeLoop sha rounds pending t = some (out, t')) : P t' := by
  induction rounds generalizing pending t with
  | zero =>
    cases pending with
    | nil =>
      cases hloop
      exact ht
    | cons first pending => cases hloop
  | succ rounds ih =>
    cases pending with
    | nil =>
      cases hloop
      exact ht
    | cons first pending =>
      unfold mergeLoop at hloop
      split at hloop
      · have hstep := hkept first List.mem_cons_self t ht
        split at hloop
        · rename_i heq
          cases hloop
          rwa [heq] at hstep
        · rename_i heq
          rw [heq] at hstep
          exact ih hkept hstep hloop
      · have hready : KeptBy sha ((first :: pending).filter (ready t)) P :=
          fun r hr => hkept r (List.mem_of_mem_filter hr)
        have hstep : P (insertReady sha ((first :: pending).filter (ready t)) (first :: pending)
          t).2 := insertReady_keeps hready ht
        split at hloop
        · rename_i heq
          cases hloop
          rwa [heq] at hstep
        · rename_i heq
          rw [heq] at hstep
          refine ih (fun r hr => hkept r ?_) hstep hloop
          rw [insertReady_eq_ok heq] at hr
          exact mem_of_mem_foldl_erase hr

theorem Sound.mergeLoop {rounds : ℕ} {pending : List Record} {out : Except VersionError Unit}
    (h : Sound sha t) (hloop : mergeLoop sha rounds pending t = some (out, t')) : Sound sha t' :=
  mergeLoop_keeps (fun r _ _ ht => ht.insertRecord r) h hloop

theorem Sound.insert (h : Sound sha s) (record : RecordObject) :
    Sound sha (insert sha record s).2 := by
  unfold VersionStore.insert
  split
  · exact h
  · split
    · exact h
    · exact h.insertRecord _

theorem Sound.merge {rounds : ℕ} {other : Other} {out : Except VersionError Unit}
    (h : Sound sha s) (hmerge : merge sha rounds other s = some (out, t)) : Sound sha t := by
  unfold VersionStore.merge at hmerge
  split at hmerge
  · cases hmerge
    exact h
  · split_ifs at hmerge
    · cases hmerge
      exact h
    · split at hmerge
      · cases hmerge
      · cases hmerge
        exact h
      · rename_i hloop
        cases hmerge
        exact h.mergeLoop hloop

theorem Reachable.sound (h : Reachable sha s) : Sound sha s := by
  induction h with
  | new => exact .new sha
  | insert record _ ih => exact ih.insert record
  | merge _ hmerge ih => exact ih.merge hmerge

/-! ### Completed merges -/

theorem Lineage.mem_pendingOf (h : Lineage sha o) :
    r ∈ pendingOf o ↔ (r.versionId, r) ∈ o.records := by
  unfold pendingOf
  rw [List.mem_filterMap]
  constructor
  · intro hr
    obtain ⟨k, -, hk⟩ := hr
    have hmem := mem_of_lookup hk
    rwa [(h.valid k r hmem).2]
  · intro hr
    refine ⟨r.versionId, ?_, h.lookup_eq_some.mpr hr⟩
    rw [(Buckets.sorted_perm _).mem_iff]
    exact ParentsFirst.mem_keys.mpr ⟨r, hr⟩

theorem Sound.validate_pendingOf (h : Sound sha o) : (pendingOf o).all (validate sha) = true :=
  List.all_eq_true.mpr fun r hr => (h.lineage.valid _ r (h.lineage.mem_pendingOf.mp hr)).1

theorem mem_insertRecord (h : Sound sha t) {e : Text × Record} (record : Record)
    (he : e ∈ t.records) : e ∈ (insertRecord sha record t).2.records := by
  rcases insertRecord_cases h.lineage record with ⟨x, heq⟩ | ⟨-, heq⟩ | ⟨-, -, -, -, heq⟩
  · rwa [heq]
  · rwa [heq]
  · rw [heq]
    exact List.mem_append_left _ he

/-- The staged store keeps its records. -/
theorem mergeLoop_grows {rounds : ℕ} {pending : List Record} {out : Except VersionError Unit}
    (h : Sound sha t) (hloop : mergeLoop sha rounds pending t = some (out, t'))
    {e : Text × Record} (he : e ∈ t.records) : e ∈ t'.records := by
  have hkept : KeptBy sha pending fun t => Sound sha t ∧ e ∈ t.records :=
    fun r _ t ht => ⟨ht.1.insertRecord r, mem_insertRecord ht.1 r ht.2⟩
  exact (mergeLoop_keeps hkept ⟨h, he⟩ hloop).2

/-- The staged store gains pending records only. -/
theorem mergeLoop_gains {rounds : ℕ} {pending : List Record} {out : Except VersionError Unit}
    (h : Sound sha t) (hloop : mergeLoop sha rounds pending t = some (out, t')) :
    ∀ e ∈ t'.records, e ∈ t.records ∨ ∃ r ∈ pending, e = (r.versionId, r.canonical) := by
  have hkept : KeptBy sha pending fun t' => Sound sha t' ∧
      ∀ e ∈ t'.records, e ∈ t.records ∨ ∃ r ∈ pending, e = (r.versionId, r.canonical) := by
    intro r hr t' ht'
    obtain ⟨hsound, hfrom⟩ := ht'
    refine ⟨hsound.insertRecord r, ?_⟩
    rcases insertRecord_cases hsound.lineage r with ⟨x, heq⟩ | ⟨-, heq⟩ | ⟨-, -, -, -, heq⟩
    · rwa [heq]
    · rwa [heq]
    · rw [heq]
      intro e he
      rcases List.mem_append.mp he with he | he
      · exact hfrom e he
      · exact .inr ⟨r, hr, List.mem_singleton.mp he⟩
  exact (mergeLoop_keeps hkept ⟨h, fun e he => .inl he⟩ hloop).2

theorem mem_of_insertRecord_ok (h : Sound sha t) {r' : Record}
    (hok : insertRecord sha r t = (.ok r', t')) : (r.versionId, r.canonical) ∈ t'.records := by
  rcases insertRecord_cases h.lineage r with ⟨x, heq⟩ | ⟨hmem, heq⟩ | ⟨-, -, -, -, heq⟩
  · rw [heq] at hok
    cases hok
  · rw [heq] at hok
    cases hok
    exact hmem
  · rw [heq] at hok
    cases hok
    exact List.mem_append_right _ (List.mem_singleton.mpr rfl)

theorem mem_of_insertReady_ok {rs pending rest : List Record} (h : Sound sha t)
    (hok : insertReady sha rs pending t = (.ok rest, t')) :
    Sound sha t' ∧ (∀ e ∈ t.records, e ∈ t'.records) ∧
      ∀ r ∈ rs, (r.versionId, r.canonical) ∈ t'.records := by
  induction rs generalizing pending t with
  | nil =>
    cases hok
    exact ⟨h, fun e he => he, fun r hr => by cases hr⟩
  | cons r rs ih =>
    unfold insertReady at hok
    have hsound := h.insertRecord r
    have hgrows := fun e (he : e ∈ t.records) => mem_insertRecord h r he
    split at hok
    · cases hok
    · rename_i staged heq
      have hmem := mem_of_insertRecord_ok h heq
      rw [heq] at hsound hgrows
      obtain ⟨hsound', hgrows', hmems⟩ := ih hsound hok
      refine ⟨hsound', fun e he => hgrows' e (hgrows e he), fun r' hr' => ?_⟩
      rcases List.mem_cons.mp hr' with rfl | hr'
      · exact hgrows' _ hmem
      · exact hmems r' hr'

theorem mem_foldl_erase {rs pending : List Record} (hr : r ∈ pending) (hnot : r ∉ rs) :
    r ∈ rs.foldl List.erase pending := by
  induction rs generalizing pending with
  | nil => exact hr
  | cons r' rs ih =>
    rw [List.mem_cons, not_or] at hnot
    obtain ⟨hne, hnot⟩ := hnot
    exact ih ((List.mem_erase_of_ne hne).mpr hr) hnot

/-- A completed merge has inserted every pending record. -/
theorem mergeLoop_covers {rounds : ℕ} {pending : List Record} (h : Sound sha t)
    (hloop : mergeLoop sha rounds pending t = some (.ok (), t')) :
    ∀ r ∈ pending, (r.versionId, r.canonical) ∈ t'.records := by
  induction rounds generalizing pending t with
  | zero =>
    cases pending with
    | nil => exact fun r hr => by cases hr
    | cons first pending => cases hloop
  | succ rounds ih =>
    cases pending with
    | nil => exact fun r hr => by cases hr
    | cons first pending =>
      unfold mergeLoop at hloop
      split at hloop
      · have hstep := h.insertRecord first
        split at hloop
        · cases hloop
        · rename_i heq
          rw [heq] at hstep
          exact ih hstep hloop
      · split at hloop
        · cases hloop
        · rename_i rest staged heq
          obtain ⟨hsound, -, hmems⟩ := mem_of_insertReady_ok h heq
          intro r hr
          by_cases hin : r ∈ (first :: pending).filter (ready t)
          · exact mergeLoop_grows hsound hloop (hmems r hin)
          · refine ih hsound hloop r ?_
            rw [insertReady_eq_ok heq]
            exact mem_foldl_erase hr hin

/-! ### Compatible stores -/

/-- Shared versions have equal records, and two nonempty stores one root. -/
def Compatible (s o : Store) : Prop :=
  (∀ k r r', (k, r) ∈ s.records → (k, r') ∈ o.records → r = r') ∧
    (s.rootId = o.rootId ∨ s.records = [] ∨ o.records = [])

/-- The records of `t` are those of `s` and of `o`. -/
def IsUnion (t s o : Store) : Prop :=
  ∀ k r, (k, r) ∈ t.records ↔ (k, r) ∈ s.records ∨ (k, r) ∈ o.records

def Store.Same (s t : Store) : Prop :=
  s.rootId = t.rootId ∧ ∀ k r, (k, r) ∈ s.records ↔ (k, r) ∈ t.records

/-- The root is the one version without parents. -/
theorem Lineage.root_eq (h : Lineage sha s) (hr : (k, r) ∈ s.records) (hnil : r.parentIds = []) :
    s.rootId = some k := by
  obtain ⟨k₀, r₀, rest, hl, -, hrest⟩ := h.grown.first (List.ne_nil_of_mem hr)
  rw [h.root, hl]
  rw [hl] at hr
  rcases List.mem_cons.mp hr with heq | hmem
  · cases heq
    rfl
  · exact absurd hnil (hrest _ hmem)

theorem Lineage.exists_root (h : Lineage sha s) (hne : s.records ≠ []) :
    ∃ k r, (k, r) ∈ s.records ∧ r.parentIds = [] := by
  obtain ⟨k, r, rest, hl, hr, -⟩ := h.grown.first hne
  exact ⟨k, r, hl ▸ List.mem_cons_self, hr⟩

/-- Stores with the same records have the same root. -/
theorem Lineage.same (hs : Lineage sha s) (ht : Lineage sha t)
    (h : ∀ k r, (k, r) ∈ s.records ↔ (k, r) ∈ t.records) : s.Same t := by
  refine ⟨?_, h⟩
  by_cases hne : s.records = []
  · have hempty : t.records = [] := by
      rw [List.eq_nil_iff_forall_not_mem]
      intro e he
      have hmem := (h e.1 e.2).mpr he
      rw [hne] at hmem
      cases hmem
    rw [hs.rootId_eq_none.mpr hne, ht.rootId_eq_none.mpr hempty]
  · obtain ⟨k, r, hr, hnil⟩ := hs.exists_root hne
    rw [hs.root_eq hr hnil, ht.root_eq ((h k r).mp hr) hnil]

/-- The staged store while `o` is merged into `s`. -/
structure Joining (sha : Sha256) (s o t : Store) : Prop where
  sound : Sound sha t
  base : ∀ e ∈ s.records, e ∈ t.records
  gained : ∀ e ∈ t.records, e ∈ s.records ∨ e ∈ o.records

theorem Joining.start (h : Sound sha s) : Joining sha s o s :=
  ⟨h, fun _ he => he, fun _ he => .inl he⟩

/-- A record that `o` and the staged store have under one identity is the same. -/
theorem Joining.record_eq (h : Joining sha s o t) (ho : Sound sha o) (hc : Compatible s o)
    {r' : Record} (hr : (k, r) ∈ o.records) (hr' : (k, r') ∈ t.records) : r' = r := by
  rcases h.gained _ hr' with hs | ho'
  · exact hc.1 k r' r hs hr
  · exact ho.lineage.record_unique ho' hr

theorem Joining.fits (h : Joining sha s o t) (hs : Sound sha s) (ho : Sound sha o)
    (hc : Compatible s o) (hr : (r.versionId, r) ∈ o.records)
    (hnew : r.versionId ∉ keys t.records) (hready : ready t r = true) : Fits t r := by
  by_cases hnil : r.parentIds = []
  · refine .inl ⟨hnil, ?_⟩
    by_contra hne
    obtain ⟨k, r₀, hr₀, hnil₀⟩ := h.sound.lineage.exists_root hne
    have hroot := ho.lineage.root_eq hr hnil
    have hkey : k = r.versionId := by
      rcases h.gained _ hr₀ with hin | hin
      · have hroots : s.rootId = o.rootId := by
          rcases hc.2 with heq | hempty | hempty
          · exact heq
          · rw [hempty] at hin
            cases hin
          · rw [hempty] at hr
            cases hr
        rw [hs.lineage.root_eq hin hnil₀, hroot] at hroots
        exact Option.some.inj hroots
      · exact Option.some.inj ((ho.lineage.root_eq hin hnil₀).symm.trans hroot)
    exact hnew (ParentsFirst.mem_keys.mpr ⟨r₀, hkey ▸ hr₀⟩)
  · refine .inr ⟨hnil, fun p hp => ?_⟩
    have hstaged := List.all_eq_true.mp hready p hp
    obtain ⟨rp, hlookup⟩ := Option.isSome_iff_exists.mp hstaged
    have hrp := mem_of_lookup hlookup
    obtain ⟨rp', hrp'⟩ := ParentsFirst.mem_keys.mp (ho.lineage.grown.parent_mem ⟨r, hr, hp⟩)
    refine ⟨rp, hrp, ?_⟩
    rw [h.record_eq ho hc hrp' hrp]
    exact ho.ordered.created _ r p rp' hr hp hrp'

/-- No check rejects a ready record of a compatible store. -/
theorem Joining.insertRecord (h : Joining sha s o t) (hs : Sound sha s) (ho : Sound sha o)
    (hc : Compatible s o) (hr : (r.versionId, r) ∈ o.records) (hready : ready t r = true) :
    ∃ t', insertRecord sha r t = (.ok r, t') ∧ Joining sha s o t' := by
  have hvalid := (ho.lineage.valid _ r hr).1
  have hcanonical := ho.ordered.canonical _ r hr
  have hsound := h.sound.insertRecord r
  have hcases := h.sound.lineage.insertRecord_eq hvalid
  rw [hcanonical] at hcases
  rcases hcases with ⟨-, heq⟩ | ⟨-, -, heq⟩ | ⟨-, hnot, hrefused⟩
  · exact ⟨t, heq, h⟩
  · rw [heq] at hsound
    refine ⟨t.push r, heq, hsound, fun e he => List.mem_append_left _ (h.base e he),
      fun e he => ?_⟩
    rcases List.mem_append.mp he with he | he
    · exact h.gained e he
    · rw [List.mem_singleton.mp he]
      exact .inr hr
  · exfalso
    have hnew : r.versionId ∉ keys t.records := by
      intro hkey
      obtain ⟨r', hr'⟩ := ParentsFirst.mem_keys.mp hkey
      rw [h.record_eq ho hc hr hr'] at hr'
      exact hnot hr'
    rcases hrefused with hkey | hfits
    · exact hnew hkey
    · exact hfits (h.fits hs ho hc hr hnew hready)

theorem ready_mono (hsub : ∀ e ∈ t.records, e ∈ t'.records) (h : ready t r = true) :
    ready t' r = true := by
  rw [ready, List.all_eq_true] at h ⊢
  intro p hp
  obtain ⟨rp, hrp⟩ := Option.isSome_iff_exists.mp (h p hp)
  rw [Option.isSome_iff_ne_none, ne_eq, lookup_eq_none, not_not]
  exact ParentsFirst.mem_keys.mpr ⟨rp, hsub _ (mem_of_lookup hrp)⟩

theorem Joining.insertReady (h : Joining sha s o t) (hs : Sound sha s) (ho : Sound sha o)
    (hc : Compatible s o) {rs : List Record} (pending : List Record)
    (hrs : ∀ r ∈ rs, (r.versionId, r) ∈ o.records ∧ ready t r = true) :
    ∃ rest t', insertReady sha rs pending t = (.ok rest, t') ∧ Joining sha s o t' := by
  induction rs generalizing pending t with
  | nil => exact ⟨pending, t, rfl, h⟩
  | cons r rs ih =>
    obtain ⟨hr, hready⟩ := hrs r List.mem_cons_self
    obtain ⟨t', heq, hjoin⟩ := h.insertRecord hs ho hc hr hready
    have hgrows := fun e (he : e ∈ t.records) => mem_insertRecord h.sound r he
    rw [heq] at hgrows
    obtain ⟨rest, t'', hrest, hjoin'⟩ := ih hjoin (pending.erase r) fun r' hr' =>
      ⟨(hrs r' (List.mem_cons_of_mem _ hr')).1,
        ready_mono hgrows (hrs r' (List.mem_cons_of_mem _ hr')).2⟩
    refine ⟨rest, t'', ?_, hjoin'⟩
    unfold VersionStore.insertReady
    rw [heq]
    exact hrest

theorem exists_ready (ho : Sound sha o) {pending : List Record} (hne : pending ≠ [])
    (hfrom : ∀ r ∈ pending, (r.versionId, r) ∈ o.records)
    (hcovers : ∀ r, (r.versionId, r) ∈ o.records → (r.versionId, r) ∈ t.records ∨ r ∈ pending) :
    ∃ r ∈ pending, ready t r = true := by
  obtain ⟨rank, -, hrank⟩ := ho.lineage.grown.exists_rank
  have hnonempty : pending.toFinset.Nonempty := List.toFinset_nonempty_iff pending |>.mpr hne
  obtain ⟨r, hr, hleast⟩ :=
    Finset.exists_min_image pending.toFinset (fun r => rank r.versionId) hnonempty
  rw [List.mem_toFinset] at hr
  refine ⟨r, hr, ?_⟩
  rw [ready, List.all_eq_true]
  intro p hp
  have hparent : Parent Record.parentIds o.records p r.versionId := ⟨r, hfrom r hr, hp⟩
  obtain ⟨rp, hrp⟩ := ParentsFirst.mem_keys.mp (ho.lineage.grown.parent_mem hparent)
  have hkey := (ho.lineage.valid p rp hrp).2
  have hstaged : (p, rp) ∈ t.records := by
    rcases hcovers rp (hkey ▸ hrp) with hin | hin
    · rwa [hkey] at hin
    · have hle := hleast rp (List.mem_toFinset.mpr hin)
      have hlt := hrank p r.versionId hparent
      rw [hkey] at hle
      exact absurd hlt (not_lt.mpr hle)
  rw [Option.isSome_iff_ne_none, ne_eq, lookup_eq_none, not_not]
  exact ParentsFirst.mem_keys.mpr ⟨rp, hstaged⟩

theorem mergeLoop_accepts {rounds : ℕ} {pending : List Record} {out : Except VersionError Unit}
    (hs : Sound sha s) (ho : Sound sha o) (hc : Compatible s o) (h : Joining sha s o t)
    (hfrom : ∀ r ∈ pending, (r.versionId, r) ∈ o.records)
    (hcovers : ∀ r, (r.versionId, r) ∈ o.records → (r.versionId, r) ∈ t.records ∨ r ∈ pending)
    (hloop : mergeLoop sha rounds pending t = some (out, t')) : out = .ok () := by
  induction rounds generalizing pending t with
  | zero =>
    cases pending with
    | nil =>
      cases hloop
      rfl
    | cons first pending => cases hloop
  | succ rounds ih =>
    cases pending with
    | nil =>
      cases hloop
      rfl
    | cons first pending =>
      have hready : ∀ r ∈ (first :: pending).filter (ready t),
          (r.versionId, r) ∈ o.records ∧ ready t r = true := by
        intro r hr
        obtain ⟨hmem, hready⟩ := List.mem_filter.mp hr
        exact ⟨hfrom r hmem, hready⟩
      unfold mergeLoop at hloop
      split at hloop
      · rename_i hnone
        obtain ⟨r, hr, hrready⟩ := exists_ready ho (List.cons_ne_nil first pending) hfrom hcovers
        have hmem := List.mem_filter.mpr ⟨hr, hrready⟩
        rw [hnone] at hmem
        cases hmem
      · obtain ⟨rest, staged, heq, hjoin⟩ := h.insertReady hs ho hc (first :: pending) hready
        obtain ⟨-, hgrows, hmems⟩ := mem_of_insertReady_ok h.sound heq
        have hrest := insertReady_eq_ok heq
        rw [heq] at hloop
        refine ih hjoin (fun r hr => hfrom r ?_) (fun r hr => ?_) hloop
        · rw [hrest] at hr
          exact mem_of_mem_foldl_erase hr
        · rcases hcovers r hr with hin | hin
          · exact .inl (hgrows _ hin)
          · by_cases hfilter : r ∈ (first :: pending).filter (ready t)
            · have hmem := hmems r hfilter
              rw [ho.ordered.canonical _ r (hready r hfilter).1] at hmem
              exact .inl hmem
            · rw [hrest]
              exact .inr (mem_foldl_erase hin hfilter)

/-! ### The partial union -/

theorem Sound.merge_ok {rounds : ℕ} (ho : Sound sha o) :
    VersionStore.merge sha rounds (.store o) s = some (.ok (), t) ↔
      VersionStore.mergeLoop sha rounds (pendingOf o) s = some (.ok (), t) := by
  unfold VersionStore.merge
  simp only [ho.validate_pendingOf, Bool.true_eq_false, if_false]
  cases VersionStore.mergeLoop sha rounds (pendingOf o) s with
  | none => simp
  | some result =>
    obtain ⟨out, t'⟩ := result
    cases out with
    | error e => simp
    | ok u => simp

/-- A refused merge was refused in its loop. -/
theorem Sound.merge_error {rounds : ℕ} {e : VersionError} (ho : Sound sha o)
    (h : VersionStore.merge sha rounds (.store o) s = some (.error e, t)) :
    ∃ t', VersionStore.mergeLoop sha rounds (pendingOf o) s = some (.error e, t') := by
  unfold VersionStore.merge at h
  simp only [ho.validate_pendingOf, Bool.true_eq_false, if_false] at h
  split at h
  · cases h
  · rename_i hloop
    cases h
    exact ⟨_, hloop⟩
  · cases h

theorem isUnion_of_merge {rounds : ℕ} (hs : Sound sha s) (ho : Sound sha o)
    (h : merge sha rounds (.store o) s = some (.ok (), t)) : IsUnion t s o := by
  have hloop := ho.merge_ok.mp h
  have hcanonical : ∀ r ∈ pendingOf o, r.canonical = r := fun r hr =>
    ho.ordered.canonical _ r (ho.lineage.mem_pendingOf.mp hr)
  intro k r
  constructor
  · intro hr
    rcases mergeLoop_gains hs hloop _ hr with hin | ⟨r', hr', heq⟩
    · exact .inl hin
    · rw [hcanonical r' hr'] at heq
      cases heq
      exact .inr (ho.lineage.mem_pendingOf.mp hr')
  · intro hr
    rcases hr with hr | hr
    · exact mergeLoop_grows hs hloop hr
    · have hkey := (ho.lineage.valid k r hr).2
      rw [← hkey] at hr ⊢
      have hpending := ho.lineage.mem_pendingOf.mpr hr
      have hcovered := mergeLoop_covers hs hloop r hpending
      rwa [hcanonical r hpending] at hcovered

theorem compatible_of_isUnion (hs : Sound sha s) (ho : Sound sha o) (ht : Sound sha t)
    (h : IsUnion t s o) : Compatible s o := by
  refine ⟨fun k r r' hr hr' => ?_, ?_⟩
  · exact ht.lineage.record_unique ((h k r).mpr (.inl hr)) ((h k r').mpr (.inr hr'))
  · by_cases hsnil : s.records = []
    · exact .inr (.inl hsnil)
    · by_cases honil : o.records = []
      · exact .inr (.inr honil)
      · obtain ⟨k, r, hr, hnil⟩ := hs.lineage.exists_root hsnil
        obtain ⟨k', r', hr', hnil'⟩ := ho.lineage.exists_root honil
        have hroot := ht.lineage.root_eq ((h k r).mpr (.inl hr)) hnil
        have hroot' := ht.lineage.root_eq ((h k' r').mpr (.inr hr')) hnil'
        rw [hs.lineage.root_eq hr hnil, ho.lineage.root_eq hr' hnil', ← hroot, hroot']
        exact .inl rfl

theorem merge_accepts_iff {rounds : ℕ} {out : Except VersionError Unit} (hs : Sound sha s)
    (ho : Sound sha o) (h : merge sha rounds (.store o) s = some (out, t)) :
    out = .ok () ↔ Compatible s o := by
  constructor
  · intro hout
    rw [hout] at h
    exact compatible_of_isUnion hs ho (hs.merge h) (isUnion_of_merge hs ho h)
  · intro hc
    cases out with
    | ok u => rfl
    | error e =>
      obtain ⟨t', hloop⟩ := ho.merge_error h
      exact mergeLoop_accepts hs ho hc (Joining.start hs)
        (fun r hr => ho.lineage.mem_pendingOf.mp hr)
        (fun r hr => .inr (ho.lineage.mem_pendingOf.mpr hr)) hloop

theorem Compatible.symm (h : Compatible s o) : Compatible o s := by
  refine ⟨fun k r r' hr hr' => (h.1 k r' r hr' hr).symm, ?_⟩
  rcases h.2 with heq | hnil | hnil
  · exact .inl heq.symm
  · exact .inr (.inr hnil)
  · exact .inr (.inl hnil)

theorem merge_contained {rounds : ℕ} {out : Except VersionError Unit} (hs : Sound sha s)
    (ho : Sound sha o) (hsub : ∀ k r, (k, r) ∈ o.records → (k, r) ∈ s.records)
    (h : merge sha rounds (.store o) s = some (out, t)) : out = .ok () ∧ t = s := by
  have hunion : IsUnion s s o := fun k r => (or_iff_left_of_imp (hsub k r)).symm
  have hout := (merge_accepts_iff hs ho h).mpr (compatible_of_isUnion hs ho hs hunion)
  refine ⟨hout, ?_⟩
  rw [hout] at h
  have hkept : KeptBy sha (pendingOf o) fun t => t = s := by
    intro r hr t ht
    subst ht
    have hmem := hsub _ _ (ho.lineage.mem_pendingOf.mp hr)
    rcases insertRecord_cases hs.lineage r with ⟨e, heq⟩ | ⟨-, heq⟩ | ⟨-, hnew, -, -, heq⟩
    · rw [heq]
    · rw [heq]
    · exact absurd (ParentsFirst.mem_keys.mpr ⟨r, hmem⟩) hnew
  exact mergeLoop_keeps (P := fun t => t = s) hkept rfl (ho.merge_ok.mp h)

/-- Merging is a partial union: it returns, it succeeds exactly on compatible
stores, and then gives the union whichever store receives, and the same again. -/
theorem merge_partial_union (sha : Sha256) (s o : Store) (hs : Reachable sha s)
    (ho : Reachable sha o) :
    (∀ rounds, o.records.length ≤ rounds →
      ∃ result, merge sha rounds (.store o) s = some result) ∧
    ∀ rounds out t, merge sha rounds (.store o) s = some (out, t) →
      (out = .ok () ↔ Compatible s o) ∧
      (out = .ok () → IsUnion t s o ∧
        (∀ rounds' out' t', merge sha rounds' (.store s) o = some (out', t') →
          out' = .ok () ∧ t.Same t') ∧
        ∀ rounds' out' t', merge sha rounds' (.store o) t = some (out', t') →
          out' = .ok () ∧ t' = t) := by
  have hs := hs.sound
  have ho := ho.sound
  refine ⟨fun rounds hrounds => ?_, fun rounds out t h => ?_⟩
  · exact hs.lineage.merge_store_returns ((length_pendingOf_le o).trans hrounds)
  · have hiff := merge_accepts_iff hs ho h
    refine ⟨hiff, fun hout => ?_⟩
    have hc := hiff.mp hout
    rw [hout] at h
    have hunion := isUnion_of_merge hs ho h
    have ht := hs.merge h
    refine ⟨hunion, fun rounds' out' t' h' => ?_, fun rounds' out' t' h' => ?_⟩
    · have hout' := (merge_accepts_iff ho hs h').mpr hc.symm
      refine ⟨hout', ht.lineage.same (ho.merge h').lineage fun k r => ?_⟩
      rw [hout'] at h'
      rw [hunion k r, isUnion_of_merge ho hs h' k r, or_comm]
    · exact merge_contained ht ho (fun k r hr => (hunion k r).mpr (.inr hr)) h'

/-- Two stores with one root and a child each. -/
theorem merge_partial_union_children : ∃ t,
    merge (.marks 64) 2 (.store (storeOf [rootVersion, rightVersion]))
      (storeOf [rootVersion, leftVersion]) = some (.ok (), t) ∧
    IsUnion t (storeOf [rootVersion, leftVersion]) (storeOf [rootVersion, rightVersion]) ∧
    Compatible (storeOf [rootVersion, leftVersion]) (storeOf [rootVersion, rightVersion]) := by
  obtain ⟨-, hmerge⟩ := merge_partial_union (.marks 64) _ _
    (reachable_storeOf [rootVersion, leftVersion]) (reachable_storeOf [rootVersion, rightVersion])
  obtain ⟨hiff, hunion⟩ := hmerge 2 (.ok ()) mergedStore merge_right
  exact ⟨mergedStore, merge_right, (hunion rfl).1, hiff.mp rfl⟩

end VersionStore
end OpenChess
