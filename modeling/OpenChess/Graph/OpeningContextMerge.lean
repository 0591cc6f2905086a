import OpenChess.Graph.OpeningContext

/-!
# Opening-context tables over one registry

A record is determined by its key, so a table is the list of its keys. A table
merges another one over its registry exactly if it accepts the stored records, and
then holds the keys of both. A merge of conflicting tables is refused in either
order, whatever the registries.
-/

namespace OpenChess
namespace OpeningContext

open LongestPrefix

variable {registry : Registry} {moves : List Text} {entry : Entry} {value : Value}
  {r r' : Record} {k : Key} {keys items staged : List Key} {t u : ContextTable} {code name : Text}

def Registry.record (registry : Registry) (k : Key) : Record :=
  ⟨k.variant, k.path, (registry.opening k.path).1, (registry.opening k.path).2⟩

@[simp] theorem Registry.record_key : (registry.record k).key = k := rfl

@[simp] theorem Registry.record_opening : (registry.record k).opening = registry.opening k.path :=
  rfl

def Registry.stored (registry : Registry) (k : Key) : Key × Record := (k, registry.record k)

/-- Neither sentinel stands without the other. -/
def Record.Paired (sentinel : Text) (r : Record) : Prop :=
  r.openingCode = sentinel ↔ r.openingName = sentinel

/-- What `_validate` asks of the record under a key. -/
structure Accepts (t : ContextTable) (k : Key) : Prop where
  variant : k.variant ∈ t.variants
  paired : (t.registry.record k).Paired t.registry.noneSentinel

/-- The invariant: the keys are distinct and admissible, and each has its record. -/
structure Sound (registry : Registry) (t : ContextTable) (keys : List Key) : Prop where
  same : t.registry = registry
  records : t.records = keys.map registry.stored
  nodup : keys.Nodup
  variants : ∀ k ∈ keys, k.variant ∈ t.variants
  paths : ∀ k ∈ keys, IsPath k.path

theorem map_fst_stored : (keys.map registry.stored).map Prod.fst = keys := by
  rw [List.map_map]
  exact List.map_id keys

theorem lookup_stored (hk : k ∈ keys) :
    (keys.map registry.stored).lookup k = some (registry.record k) := by
  induction keys with
  | nil => cases hk
  | cons k' keys ih =>
    rw [List.map_cons, Registry.stored, List.lookup_cons]
    by_cases heq : k = k'
    · rw [heq, beq_self_eq_true]
    · rw [beq_false_of_ne heq]
      exact ih ((List.mem_cons.mp hk).resolve_left heq)

theorem lookup_stored_of_notMem (hk : k ∉ keys) : (keys.map registry.stored).lookup k = none := by
  cases hlookup : (keys.map registry.stored).lookup k with
  | none => rfl
  | some r =>
    have hmem := List.mem_map_of_mem (f := Prod.fst) (Dict.mem_of_lookup hlookup)
    rw [map_fst_stored] at hmem
    exact absurd hmem hk

/-! ### Validation -/

theorem lookup_entriesByCode (h : registry.Admitted) (hentry : entry ∈ registry.entries) :
    (ContextTable.entriesByCode registry).lookup entry.code = some entry := by
  have hkeys : ((registry.entries.map fun entry => (entry.code, entry)).map Prod.fst).Nodup := by
    rw [List.map_map]
    exact h.codesUnique
  rw [ContextTable.entriesByCode, Assoc.assignAll_eq_append (by rwa [List.nil_append]),
    List.nil_append, Dict.lookup_eq_some_iff_mem hkeys]
  exact List.mem_map.mpr ⟨entry, hentry, rfl⟩

theorem checkOpening_opening (h : registry.Admitted)
    (hopening : registry.opening moves = (code, name)) :
    ContextTable.checkOpening registry code name = .ok () ↔
      (code = registry.noneSentinel ↔ name = registry.noneSentinel) := by
  unfold ContextTable.checkOpening
  rcases registry.opening_cases moves with ⟨entry, hentry, -, heq⟩ | ⟨-, heq⟩
  · obtain ⟨rfl, rfl⟩ := Prod.mk.inj (heq.symm.trans hopening)
    have hne := h.code_ne hentry
    by_cases hname : entry.name = registry.noneSentinel
    · simp [hname, hne]
    · simp [hname, hne, h.codes entry hentry, lookup_entriesByCode h hentry]
  · obtain ⟨rfl, rfl⟩ := Prod.mk.inj (heq.symm.trans hopening)
    simp

theorem of_validate (hok : t.validate r = .ok r') :
    r' = r ∧ r.variant ∈ t.variants ∧ IsPath r.pathMoves ∧
      ContextTable.checkOpening t.registry r.openingCode r.openingName = .ok () ∧
      r.opening = t.registry.opening r.pathMoves := by
  unfold ContextTable.validate at hok
  split_ifs at hok with hvariant
  split at hok
  · cases hok
  · rename_i moves hpath
    obtain ⟨hvalue, hmoves⟩ := path_eq_ok.mp hpath
    have hsame : r.pathMoves = moves := by
      have hmap : r.pathMoves.map Value.str = moves.map Value.str := by
        simpa [pathValue] using hvalue
      exact List.map_injective_iff.mpr (fun _ _ h => Value.str.inj h) hmap
    split at hok
    · cases hok
    · rename_i hcheck
      rw [resolve_pathValue hmoves] at hok
      simp only at hok
      split_ifs at hok with hopening
      subst hsame
      exact ⟨(Except.ok.inj hok).symm, hvariant, hmoves, hcheck, not_not.mp hopening⟩

theorem validate_record (h : t.registry.Admitted) (hpath : IsPath k.path) :
    t.validate (t.registry.record k) = .ok (t.registry.record k) ↔ Accepts t k := by
  have hcheck := checkOpening_opening h
    (show t.registry.opening k.path = ((t.registry.record k).openingCode,
      (t.registry.record k).openingName) from rfl)
  constructor
  · intro hok
    obtain ⟨-, hvariant, -, hopening, -⟩ := of_validate hok
    exact ⟨hvariant, hcheck.mp hopening⟩
  · rintro ⟨hvariant, hpaired⟩
    have hvalid : (t.registry.record k).variant ∈ t.variants := hvariant
    have hmoves : IsPath (t.registry.record k).pathMoves := hpath
    simp only [ContextTable.validate, if_neg (not_not.mpr hvalid), path_pathValue hmoves,
      hcheck.mpr hpaired, resolve_pathValue hmoves]
    exact if_neg (not_not.mpr rfl)

theorem validate_record_error (h : t.registry.Admitted) (hpath : IsPath k.path)
    (hk : ¬Accepts t k) : ∃ e, t.validate (t.registry.record k) = .error e := by
  cases hok : t.validate (t.registry.record k) with
  | error e => exact ⟨e, rfl⟩
  | ok r =>
    rw [(of_validate hok).1] at hok
    exact absurd ((validate_record h hpath).mp hok) hk

/-! ### Insertion -/

theorem make_eq_ok {variant : Value} : t.make variant value = .ok r ↔
    ∃ k : Key, variant = .str k.variant ∧ value = pathValue k.path ∧ k.variant ∈ t.variants ∧
      IsPath k.path ∧ r = t.registry.record k := by
  constructor
  · intro h
    cases variant with
    | str variant =>
      simp only [ContextTable.make] at h
      split_ifs at h with hvariant
      split at h
      · cases h
      · rename_i moves hpath
        obtain ⟨hvalue, hmoves⟩ := path_eq_ok.mp hpath
        rw [resolve_pathValue hmoves] at h
        exact ⟨⟨variant, moves⟩, rfl, hvalue, hvariant, hmoves,
          (Except.ok.inj h).symm⟩
    | _ => cases h
  · rintro ⟨k, rfl, rfl, hvariant, hmoves, rfl⟩
    simp only [ContextTable.make, if_neg (not_not.mpr hvariant), path_pathValue hmoves,
      resolve_pathValue hmoves]
    rfl

/-- New keys are added at the end. -/
theorem Sound.append (h : Sound registry t keys) (hnodup : items.Nodup)
    (hnew : ∀ k ∈ items, k ∉ keys) (hvariants : ∀ k ∈ items, k.variant ∈ t.variants)
    (hpaths : ∀ k ∈ items, IsPath k.path) :
    Sound registry { t with records := (keys ++ items).map registry.stored } (keys ++ items) := by
  refine ⟨h.same, rfl, h.nodup.append hnodup fun k hk hk' => hnew k hk' hk, ?_, ?_⟩
  · exact fun k hk => (List.mem_append.mp hk).elim (h.variants k) (hvariants k)
  · exact fun k hk => (List.mem_append.mp hk).elim (h.paths k) (hpaths k)

theorem Sound.new (variants : List Text) : Sound registry (.new registry variants) [] := by
  refine ⟨rfl, rfl, List.nodup_nil, ?_, ?_⟩ <;> exact fun k hk => absurd hk List.not_mem_nil

/-- An accepted insertion adds its key once. -/
theorem Sound.insert (h : Sound registry t keys) (variant value : Value) :
    ∃ keys', Sound registry (t.insert variant value).2 keys' := by
  obtain rfl := h.same
  unfold ContextTable.insert
  split
  · exact ⟨keys, h⟩
  · rename_i record hmake
    obtain ⟨k, -, -, hvariant, hmoves, rfl⟩ := make_eq_ok.mp hmake
    rw [Registry.record_key, h.records]
    by_cases hk : k ∈ keys
    · rw [lookup_stored hk]
      simp only [ne_eq, not_true_eq_false, if_false]
      exact ⟨keys, h⟩
    · have hnew : k ∉ (keys.map t.registry.stored).map Prod.fst := by rwa [map_fst_stored]
      have hassign : Assoc.assign (keys.map t.registry.stored) k (t.registry.record k) =
          (keys ++ [k]).map t.registry.stored := by
        rw [Assoc.assign_of_notMem hnew, List.map_append]
        rfl
      rw [lookup_stored_of_notMem hk, hassign]
      refine ⟨keys ++ [k], h.append (List.nodup_singleton k) ?_ ?_ ?_⟩
      · exact List.forall_mem_singleton.mpr hk
      · exact List.forall_mem_singleton.mpr hvariant
      · exact List.forall_mem_singleton.mpr hmoves

/-! ### Merging -/

theorem validatedPairs_stored (hreg : t.registry.Admitted) (hpaths : ∀ k ∈ keys, IsPath k.path)
    {pairs : List (Key × Record)} :
    t.validatedPairs (keys.map t.registry.stored) = .ok pairs ↔
      (∀ k ∈ keys, Accepts t k) ∧ pairs = keys.map t.registry.stored := by
  induction keys generalizing pairs with
  | nil => simp [ContextTable.validatedPairs, eq_comm]
  | cons k keys ih =>
    obtain ⟨hpath, hpaths⟩ := List.forall_mem_cons.mp hpaths
    rw [List.map_cons, Registry.stored, ContextTable.validatedPairs, List.forall_mem_cons]
    by_cases hk : Accepts t k
    · rw [(validate_record hreg hpath).mpr hk]
      simp only [Registry.record_key, ne_eq, not_true_eq_false, if_false]
      cases hrest : t.validatedPairs (keys.map t.registry.stored) with
      | error e =>
        have hnone : ¬∀ k ∈ keys, Accepts t k := by
          intro hall
          have hok := (ih hpaths).mpr ⟨hall, rfl⟩
          rw [hrest] at hok
          cases hok
        simp [hnone]
      | ok rest =>
        obtain ⟨hall, rfl⟩ := (ih hpaths).mp hrest
        simp only [Except.ok.injEq]
        exact ⟨fun h => ⟨⟨hk, hall⟩, h.symm⟩, fun h => h.2.symm⟩
    · obtain ⟨e, he⟩ := validate_record_error hreg hpath hk
      rw [he]
      exact iff_of_false (fun h => by cases h) fun h => hk h.1.1

theorem stage_stored (hreg : t.registry.Admitted) (hnodup : items.Nodup)
    (hpaths : ∀ k ∈ items, IsPath k.path) {out : List (Key × Record)} :
    t.stage (items.map t.registry.stored) (staged.map t.registry.stored) = .ok out ↔
      (∀ k ∈ items, k ∉ staged → Accepts t k) ∧
        out = (staged ++ items.filter (· ∉ staged)).map t.registry.stored := by
  induction items generalizing staged with
  | nil => simp [ContextTable.stage, eq_comm]
  | cons k items ih =>
    obtain ⟨hfresh, hnodup⟩ := List.nodup_cons.mp hnodup
    obtain ⟨hpath, hpaths⟩ := List.forall_mem_cons.mp hpaths
    rw [List.map_cons, Registry.stored, ContextTable.stage, List.forall_mem_cons]
    simp only [Registry.record_key, ne_eq, not_true_eq_false, if_false]
    by_cases hk : k ∈ staged
    · rw [lookup_stored hk]
      simp only [not_true_eq_false, if_false]
      rw [ih hnodup hpaths, List.filter_cons_of_neg (by simpa using hk)]
      simp [hk]
    · rw [lookup_stored_of_notMem hk]
      by_cases haccepts : Accepts t k
      · have hnew : k ∉ (staged.map t.registry.stored).map Prod.fst := by rwa [map_fst_stored]
        have hassign : Assoc.assign (staged.map t.registry.stored) k (t.registry.record k) =
            (staged ++ [k]).map t.registry.stored := by
          rw [Assoc.assign_of_notMem hnew, List.map_append]
          rfl
        -- the keys are distinct, so the later ones are new exactly if they were before
        have hlater : ∀ k' ∈ items, (k' ∉ staged ++ [k] ↔ k' ∉ staged) := by
          intro k' hk'
          have hne : k' ≠ k := fun heq => hfresh (heq ▸ hk')
          simp [hne]
        have hfilter : items.filter (· ∉ staged ++ [k]) = items.filter (· ∉ staged) :=
          List.filter_congr fun k' hk' => decide_eq_decide.mpr (hlater k' hk')
        rw [(validate_record hreg hpath).mpr haccepts]
        simp only
        rw [hassign, ih hnodup hpaths, hfilter, List.filter_cons_of_pos (by simpa using hk),
          List.append_assoc, List.singleton_append]
        refine and_congr_left fun _ => ?_
        constructor
        · exact fun h => ⟨fun _ => haccepts, fun k' hk' hstaged =>
            h k' hk' ((hlater k' hk').mpr hstaged)⟩
        · exact fun h k' hk' hstaged => h.2 k' hk' ((hlater k' hk').mp hstaged)
      · obtain ⟨e, he⟩ := validate_record_error hreg hpath haccepts
        rw [he]
        exact iff_of_false (fun h => by cases h) fun h => haccepts (h.1.1 hk)

def Mergeable (t : ContextTable) (keys items : List Key) : Prop :=
  (∀ k ∈ keys, Accepts t k) ∧ ∀ k ∈ items, k ∉ keys → Accepts t k

/-- The tables merge, and the receiver gains the keys that are new to it. -/
theorem Sound.merge_eq (hreg : registry.Admitted) (ht : Sound registry t keys)
    (hu : Sound registry u items) (h : Mergeable t keys items) :
    t.merge (some u) = (.ok (),
      { t with records := (keys ++ items.filter (· ∉ keys)).map registry.stored }) := by
  obtain rfl := ht.same
  obtain ⟨hown, hnew⟩ := h
  simp only [ContextTable.merge]
  rw [ht.records, hu.records, (validatedPairs_stored hreg ht.paths).mpr ⟨hown, rfl⟩]
  simp only
  rw [(stage_stored hreg hu.nodup hu.paths).mpr ⟨hnew, rfl⟩]

theorem Sound.mergeable (hreg : registry.Admitted) (ht : Sound registry t keys)
    (hu : Sound registry u items) (h : (t.merge (some u)).1 = .ok ()) :
    Mergeable t keys items := by
  obtain rfl := ht.same
  simp only [ContextTable.merge] at h
  rw [ht.records, hu.records] at h
  split at h
  · cases h
  · rename_i current hcurrent
    obtain ⟨hown, rfl⟩ := (validatedPairs_stored hreg ht.paths).mp hcurrent
    split at h
    · cases h
    · rename_i out hout
      exact ⟨hown, ((stage_stored hreg hu.nodup hu.paths).mp hout).1⟩

/-- A refused merge leaves the table as it was. -/
theorem merge_rejected (t : ContextTable) (other : Option ContextTable)
    (h : (t.merge other).1 ≠ .ok ()) : (t.merge other).2 = t := by
  unfold ContextTable.merge at h ⊢
  split
  · rfl
  · split
    · rfl
    · split
      · rfl
      · simp_all

theorem Sound.merge (hreg : registry.Admitted) (ht : Sound registry t keys)
    (hu : Sound registry u items) : ∃ keys', Sound registry (t.merge (some u)).2 keys' := by
  by_cases hok : (t.merge (some u)).1 = .ok ()
  · have hmergeable := ht.mergeable hreg hu hok
    have hvariants : ∀ k ∈ items.filter (· ∉ keys), k.variant ∈ t.variants := by
      intro k hk
      obtain ⟨hk, hnew⟩ := List.mem_filter.mp hk
      exact (hmergeable.2 k hk (of_decide_eq_true hnew)).variant
    rw [ht.merge_eq hreg hu hmergeable]
    exact ⟨_, ht.append (hu.nodup.filter _)
      (fun k hk => of_decide_eq_true (List.mem_filter.mp hk).2) hvariants
      fun k hk => hu.paths k (List.mem_filter.mp hk).1⟩
  · rw [merge_rejected t (some u) hok]
    exact ⟨keys, ht⟩

/-- Every run of inserts and merges keeps the invariant. -/
theorem Built.sound (hreg : registry.Admitted) (h : Built registry t) :
    ∃ keys, Sound registry t keys := by
  induction h with
  | new variants => exact ⟨[], Sound.new variants⟩
  | insert variant value _ ih =>
    obtain ⟨keys, hsound⟩ := ih
    exact hsound.insert variant value
  | merge _ _ iht ihu =>
    obtain ⟨keys, ht⟩ := iht
    obtain ⟨items, hu⟩ := ihu
    exact ht.merge hreg hu
  | mergeOther _ ih => exact ih

/-! ### Listings -/

/-- Tables with the same keys list the same records. -/
theorem Sound.serialize_eq (ht : Sound registry t keys) (hu : Sound registry u items)
    (h : ∀ k, k ∈ keys ↔ k ∈ items) : t.serialize = u.serialize := by
  have hperm : keys.Perm items := (List.perm_ext_iff_of_nodup ht.nodup hu.nodup).mpr h
  rw [ContextTable.serialize, ContextTable.serialize, ht.records, hu.records]
  exact Buckets.sorted_eq_of_perm ((hperm.map registry.stored).map _)

theorem Sound.merge_comm (hreg : registry.Admitted) (ht : Sound registry t keys)
    (hu : Sound registry u items) (htu : (t.merge (some u)).1 = .ok ())
    (hut : (u.merge (some t)).1 = .ok ()) :
    (t.merge (some u)).2.serialize = (u.merge (some t)).2.serialize := by
  have hperm : (keys ++ items.filter (· ∉ keys)).Perm (items ++ keys.filter (· ∉ items)) := by
    refine (List.perm_ext_iff_of_nodup ?_ ?_).mpr fun k => ?_
    · exact ht.nodup.append (hu.nodup.filter _) fun k hk hk' =>
        of_decide_eq_true (List.mem_filter.mp hk').2 hk
    · exact hu.nodup.append (ht.nodup.filter _) fun k hk hk' =>
        of_decide_eq_true (List.mem_filter.mp hk').2 hk
    · simp only [List.mem_append, List.mem_filter, decide_eq_true_eq]
      tauto
  rw [ht.merge_eq hreg hu (ht.mergeable hreg hu htu), hu.merge_eq hreg ht (hu.mergeable hreg ht hut)]
  exact Buckets.sorted_eq_of_perm ((hperm.map registry.stored).map _)

/-! ### Conflicts -/

theorem of_validatedPairs {items pairs : List (Key × Record)}
    (h : t.validatedPairs items = .ok pairs) : pairs = items := by
  induction items generalizing pairs with
  | nil => exact (Except.ok.inj h).symm
  | cons item items ih =>
    rw [ContextTable.validatedPairs] at h
    split at h
    · cases h
    · rename_i record hvalid
      obtain rfl := (of_validate hvalid).1
      split_ifs at h with hkey
      split at h
      · cases h
      · rename_i rest hrest
        rw [← Except.ok.inj h, ih hrest, ← not_not.mp hkey]

/-- A staged record is never replaced, so the loop meets the conflict, if it gets so far. -/
theorem stage_conflict {items staged : List (Key × Record)} (hr : staged.lookup k = some r)
    (hr' : items.lookup k = some r') (hne : r.opening ≠ r'.opening) :
    ∃ e, t.stage items staged = .error e := by
  induction items generalizing staged with
  | nil => cases hr'
  | cons item items ih =>
    obtain ⟨key, record⟩ := item
    rw [ContextTable.stage]
    split_ifs with hkey
    · exact ⟨_, rfl⟩
    · obtain rfl := not_not.mp hkey
      rw [List.lookup_cons] at hr'
      by_cases heq : k = record.key
      · rw [heq, beq_self_eq_true] at hr'
        obtain rfl := Option.some.inj hr'
        rw [heq] at hr
        rw [hr]
        simp only [ne_eq, Ne.symm hne, not_false_eq_true, if_true]
        exact ⟨_, rfl⟩
      · rw [beq_false_of_ne heq] at hr'
        split
        · split_ifs
          · exact ⟨_, rfl⟩
          · exact ⟨_, rfl⟩
          · exact ih hr hr'
        · split
          · exact ⟨_, rfl⟩
          · refine ih ?_ hr'
            rw [Assoc.lookup_assign, if_neg heq, hr]

theorem merge_conflict (hr : t.records.lookup k = some r) (hr' : u.records.lookup k = some r')
    (hne : r.opening ≠ r'.opening) : ∃ e, t.merge (some u) = (.error e, t) := by
  simp only [ContextTable.merge]
  split
  · exact ⟨_, rfl⟩
  · rename_i current hcurrent
    rw [of_validatedPairs hcurrent]
    obtain ⟨e, he⟩ := stage_conflict (t := t) hr hr' hne
    rw [he]
    exact ⟨e, rfl⟩

/-! ### When tables merge -/

/-- A table that takes over the variants of another one over a registry whose entries
have names of their own merges it. -/
theorem Sound.mergeable_of_names (hreg : registry.Admitted) (ht : Sound registry t keys)
    (hu : Sound registry u items)
    (hnames : ∀ entry ∈ registry.entries, entry.name ≠ registry.noneSentinel)
    (hvariants : ∀ v ∈ u.variants, v ∈ t.variants) : Mergeable t keys items := by
  obtain rfl := ht.same
  have hpaired : ∀ k, (t.registry.record k).Paired t.registry.noneSentinel := by
    intro k
    unfold Record.Paired Registry.record
    rcases t.registry.opening_cases k.path with ⟨entry, hentry, -, heq⟩ | ⟨-, heq⟩
    · rw [heq]
      exact iff_of_false (hreg.code_ne hentry) (hnames entry hentry)
    · rw [heq]
  exact ⟨fun k hk => ⟨ht.variants k hk, hpaired k⟩,
    fun k hk _ => ⟨hvariants _ (hu.variants k hk), hpaired k⟩⟩

theorem Sound.forall_records (ht : Sound registry t keys) {P : Key × Record → Prop} :
    (∀ e ∈ t.records, P e) ↔ ∀ k ∈ keys, P (registry.stored k) := by
  rw [ht.records, List.forall_mem_map]

theorem Sound.mergeable_iff (ht : Sound registry t keys) (hu : Sound registry u items) :
    Mergeable t keys items ↔
      (∀ e ∈ t.records ++ u.records, e.2.Paired registry.noneSentinel) ∧
        ∀ e ∈ u.records, e.1 ∈ t.records.map Prod.fst ∨ e.2.variant ∈ t.variants := by
  have hkeys : t.records.map Prod.fst = keys := by rw [ht.records, map_fst_stored]
  rw [List.forall_mem_append, ht.forall_records, hu.forall_records, hu.forall_records, hkeys]
  obtain rfl := ht.same
  constructor
  · rintro ⟨hown, hnew⟩
    refine ⟨⟨fun k hk => (hown k hk).paired, fun k hk => ?_⟩, fun k hk => ?_⟩
    · by_cases hmem : k ∈ keys
      · exact (hown k hmem).paired
      · exact (hnew k hk hmem).paired
    · by_cases hmem : k ∈ keys
      · exact .inl hmem
      · exact .inr (hnew k hk hmem).variant
  · rintro ⟨⟨hown, hnew⟩, hvariants⟩
    exact ⟨fun k hk => ⟨ht.variants k hk, hown k hk⟩,
      fun k hk hmem => ⟨(hvariants k hk).resolve_left hmem, hnew k hk⟩⟩

/-- Over an admitted registry a path resolves to its longest matching entry, or to the
sentinel pair where no entry matches, whatever the order of the entries, and a longer
path keeps the entry or moves to a longer one that extends it. The records of a built
table are the resolved ones. Two built tables merge exactly if no record has an entry
named by the sentinel and the variants of the new ones are the receiver's; merges
commute, and a merge of conflicting tables changes nothing in either order. -/
theorem opening_resolution_stable (registry : Registry) (hreg : registry.Admitted) :
    (∀ moves, IsPath moves → ∀ entry ∈ registry.entries,
      (resolve registry (pathValue moves) = .ok (entry.code, entry.name) ↔
        Longest Entry.moves registry.entries moves entry)) ∧
    (∀ moves, IsPath moves →
      (resolve registry (pathValue moves) =
          .ok (registry.noneSentinel, registry.noneSentinel) ↔
        ∀ entry ∈ registry.entries, ¬entry.moves <+: moves)) ∧
    (∀ moves, IsPath moves →
      (∃ entry ∈ registry.entries,
        resolve registry (pathValue moves) = .ok (entry.code, entry.name)) ∨
      resolve registry (pathValue moves) =
        .ok (registry.noneSentinel, registry.noneSentinel)) ∧
    (∀ registry' : Registry, registry.entries.Perm registry'.entries →
      registry'.noneSentinel = registry.noneSentinel →
      ∀ value, resolve registry' value = resolve registry value) ∧
    (∀ moves more, IsPath moves → IsPath more → ∀ entry ∈ registry.entries,
      resolve registry (pathValue moves) = .ok (entry.code, entry.name) →
      ∃ entry' ∈ registry.entries,
        resolve registry (pathValue (moves ++ more)) = .ok (entry'.code, entry'.name) ∧
        (entry' = entry ∨
          entry.moves <+: entry'.moves ∧ entry.moves.length < entry'.moves.length)) ∧
    (∀ t, Built registry t → ∀ e ∈ t.records, e.1 = e.2.key ∧
      resolve registry (pathValue e.2.pathMoves) = .ok e.2.opening) ∧
    (∀ t u, Built registry t → Built registry u →
      ((t.merge (some u)).1 = .ok () ↔
        (∀ e ∈ t.records ++ u.records, e.2.Paired registry.noneSentinel) ∧
          ∀ e ∈ u.records, e.1 ∈ t.records.map Prod.fst ∨ e.2.variant ∈ t.variants)) ∧
    (∀ t u, Built registry t → Built registry u →
      (∀ entry ∈ registry.entries, entry.name ≠ registry.noneSentinel) →
      (∀ v ∈ u.variants, v ∈ t.variants) → (t.merge (some u)).1 = .ok ()) ∧
    (∀ t u, Built registry t → Built registry u → (t.merge (some u)).1 = .ok () →
      (u.merge (some t)).1 = .ok () →
      (t.merge (some u)).2.serialize = (u.merge (some t)).2.serialize) ∧
    (∀ t u : ContextTable, ∀ k r r', t.records.lookup k = some r →
      u.records.lookup k = some r' → r.opening ≠ r'.opening →
      (∃ e, t.merge (some u) = (.error e, t)) ∧ ∃ e, u.merge (some t) = (.error e, u)) := by
  refine ⟨?_, ?_, ?_, ?_, ?_, ?_, ?_, ?_, ?_, ?_⟩
  · intro moves hmoves entry hentry
    rw [resolve_pathValue hmoves, Except.ok.injEq]
    exact Registry.opening_eq_entry hreg hentry
  · intro moves hmoves
    rw [resolve_pathValue hmoves, Except.ok.injEq]
    exact Registry.opening_eq_sentinel hreg
  · intro moves hmoves
    rw [resolve_pathValue hmoves]
    rcases registry.opening_cases moves with ⟨entry, hentry, -, heq⟩ | ⟨-, heq⟩
    · exact .inl ⟨entry, hentry, congrArg Except.ok heq⟩
    · exact .inr (congrArg Except.ok heq)
  · intro registry' hperm hsentinel value
    unfold resolve
    simp only [Registry.opening_perm hreg hperm hsentinel]
  · intro moves more hmoves hmore entry hentry hresolve
    have hlonger : IsPath (moves ++ more) := List.forall_mem_append.mpr ⟨hmoves, hmore⟩
    rw [resolve_pathValue hmoves, Except.ok.injEq] at hresolve
    rw [resolve_pathValue hlonger]
    obtain ⟨entry', hentry', hopening, hcases⟩ :=
      Registry.opening_append more hreg hentry hresolve
    exact ⟨entry', hentry', congrArg Except.ok hopening, hcases⟩
  · intro t ht
    obtain ⟨keys, hsound⟩ := ht.sound hreg
    exact hsound.forall_records.mpr fun k hk => ⟨rfl, resolve_pathValue (hsound.paths k hk)⟩
  · intro t u ht hu
    obtain ⟨keys, ht⟩ := ht.sound hreg
    obtain ⟨items, hu⟩ := hu.sound hreg
    rw [← ht.mergeable_iff hu]
    exact ⟨ht.mergeable hreg hu, fun h => congrArg Prod.fst (ht.merge_eq hreg hu h)⟩
  · intro t u ht hu hnames hvariants
    obtain ⟨keys, ht⟩ := ht.sound hreg
    obtain ⟨items, hu⟩ := hu.sound hreg
    exact congrArg Prod.fst
      (ht.merge_eq hreg hu (ht.mergeable_of_names hreg hu hnames hvariants))
  · intro t u ht hu htu hut
    obtain ⟨keys, ht⟩ := ht.sound hreg
    obtain ⟨items, hu⟩ := hu.sound hreg
    exact ht.merge_comm hreg hu htu hut
  · intro t u k r r' hr hr' hne
    exact ⟨merge_conflict hr hr' hne, merge_conflict hr' hr (Ne.symm hne)⟩

def sicilian : Registry :=
  ⟨['-'], [⟨"B20".toList, "Sicilian Defense".toList, ["e2e4", "c7c5"].map String.toList⟩,
    ⟨"B90".toList, "Sicilian Defense: Najdorf Variation".toList,
      ["e2e4", "c7c5", "g1f3", "d7d6", "d2d4", "c5d4", "f3d4", "g8f6", "b1c3", "a7a6"].map
        String.toList⟩]⟩

theorem sicilian_admitted : sicilian.Admitted :=
  ⟨rfl, by decide, by decide, by decide, by decide, by decide⟩

/-- A registry whose only entry is named by the sentinel. -/
def unnamed : Registry := ⟨['-'], [⟨"A04".toList, ['-'], ["g1f3".toList]⟩]⟩

theorem unnamed_admitted : unnamed.Admitted :=
  ⟨rfl, by decide, by decide, by decide, by decide, by decide⟩

def oneRecord (registry : Registry) (variant : Text) (moves : List Text) : ContextTable :=
  ((ContextTable.new registry [variant]).insert (.str variant) (pathValue moves)).2

theorem built_oneRecord (registry : Registry) (variant : Text) (moves : List Text) :
    Built registry (oneRecord registry variant moves) :=
  .insert _ _ (.new [variant])

theorem opening_resolution_stable_sicilian :
    resolve sicilian (pathValue (["e2e4", "c7c5", "b1c3"].map String.toList)) =
      .ok ("B20".toList, "Sicilian Defense".toList) ∧
    ((oneRecord sicilian "standard".toList ["e2e4".toList]).merge
      (some (oneRecord sicilian "standard".toList []))).1 = .ok () := by
  obtain ⟨hlongest, -, -, -, -, -, -, hmerge, -⟩ :=
    opening_resolution_stable sicilian sicilian_admitted
  constructor
  · refine (hlongest _ (by decide) ⟨"B20".toList, "Sicilian Defense".toList,
      ["e2e4", "c7c5"].map String.toList⟩ (by decide)).mpr ⟨by decide, by decide, by decide⟩
  · exact hmerge _ _ (built_oneRecord _ _ _) (built_oneRecord _ _ _) (by decide) (by decide)

/-- A record of an entry named by the sentinel is stored, and refused by the next merge; and
a table refuses the records of a variant it does not know. -/
theorem not_merges_succeed :
    unnamed.Admitted ∧
    Built unnamed (oneRecord unnamed "standard".toList ["g1f3".toList]) ∧
    Built unnamed (.new unnamed ["standard".toList]) ∧
    ((oneRecord unnamed "standard".toList ["g1f3".toList]).merge
      (some (.new unnamed ["standard".toList]))).1 = .error .malformedContextRecord ∧
    sicilian.Admitted ∧
    Built sicilian (.new sicilian ["standard".toList]) ∧
    Built sicilian (oneRecord sicilian "chess960".toList []) ∧
    ((ContextTable.new sicilian ["standard".toList]).merge
      (some (oneRecord sicilian "chess960".toList []))).1 = .error .unknownVariant :=
  ⟨unnamed_admitted, built_oneRecord _ _ _, .new _, by decide, sicilian_admitted, .new _,
    built_oneRecord _ _ _, by decide⟩

end OpeningContext
end OpenChess
