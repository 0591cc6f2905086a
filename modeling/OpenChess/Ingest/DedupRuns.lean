import OpenChess.Ingest.Dedup
import OpenChess.Lib.Trace

/-!
# Runs of de-duplication

Model of `provenance`, `count_records` and `conflicts` of `ingest/dedup.py`, and what a store holds
after any records were added: of every identity the first record, of every other content of it one
conflict, and of every source that it was seen there. Adding records again changes nothing.
-/

namespace OpenChess
namespace Dedup

variable (sha : Hex.Hash 64)

/-- A record and the file it comes from. -/
abbrev Call := Normalized × Text

/-- `add`, where a record without a rule for its identity leaves the store as it is. -/
def step (db : Database) (call : Call) : Database :=
  match add sha db call.1 call.2 with
  | .ok after => after.2
  | .error _ => db

def runAll (calls : List Call) : Database := Trace.run (step sha) ⟨[], [], []⟩ calls

/-- `count_records`. -/
def Database.countRecords (db : Database) : ℕ := db.records.length

/-- `provenance`. -/
def Database.provenanceOf (db : Database) (n : Normalized) : Except Text (List Text) :=
  (identityOf sha n).map fun identity =>
    ((db.provenance.filter fun p => decide (p.1 = identity ∧ p.2.1 = n.schemaName)).map
      fun p => p.2.2).insertionSort (· ≤ ·)

/-! ### What is stored -/

def keyOf (n : Normalized) : Option (Text × Text) :=
  (identityOf sha n).toOption.map fun identity => (identity, n.schemaName)

def first (calls : List Call) (key : Text × Text) : Option Normalized :=
  calls.findSome? fun call => if keyOf sha call.1 = some key then some call.1 else none

/-- The primary key of a row of `dedup_records`. -/
def Entry.primary (e : Entry) : Text × Text := (e.identity, e.schemaName)

/-- The row of `dedup_records` for a record. -/
def entryOf (key : Text × Text) (n : Normalized) : Entry := ⟨key.1, key.2, contentHashOf sha n, n.row⟩

/-- What becomes of a record after others were added. -/
def outcomeAfter (calls : List Call) (key : Text × Text) (n : Normalized) : Outcome :=
  match first sha calls key with
  | none => .inserted
  | some m => if contentHashOf sha m = contentHashOf sha n then .duplicate else .conflict

/-- Some row of `dedup_conflicts` has this primary key. -/
def Database.rejects (db : Database) (key : Text × Text) (hash : Text) : Prop :=
  ∃ c ∈ db.conflicts, c.identity = key.1 ∧ c.schemaName = key.2 ∧ c.rejectedHash = hash

/-- The row of `dedup_conflicts` for a record that is not retained. -/
def conflictOf (key : Text × Text) (existing : Entry) (n : Normalized) : Conflict :=
  ⟨key.1, key.2, existing.contentHash, contentHashOf sha n, existing.payload, n.row⟩

variable {sha} {db : Database} {n : Normalized} {key : Text × Text} {identity file : Text}
  {call call' : Call} {calls : List Call}

theorem keyOf_eq_some : keyOf sha n = some key ↔
    identityOf sha n = .ok key.1 ∧ n.schemaName = key.2 := by
  unfold keyOf
  cases identityOf sha n with
  | error e => simp [Except.toOption]
  | ok identity => simp [Except.toOption, Prod.ext_iff]

theorem keyOf_of_identity (h : identityOf sha n = .ok identity) :
    keyOf sha n = some (identity, n.schemaName) := keyOf_eq_some.mpr ⟨h, rfl⟩

/-! ### One record -/

/-- What adding a record does to the store. -/
theorem step_cases (sha : Hex.Hash 64) (db : Database) (call : Call) :
    (keyOf sha call.1 = none ∧ step sha db call = db) ∨
    ∃ key, keyOf sha call.1 = some key ∧
      ((db.find key.1 key.2 = none ∧ step sha db call =
          ⟨db.records ++ [entryOf sha key call.1], (db.seen key.1 key.2 call.2).provenance,
            db.conflicts⟩) ∨
        ∃ e, db.find key.1 key.2 = some e ∧
          ((e.contentHash = contentHashOf sha call.1 ∧
              step sha db call = db.seen key.1 key.2 call.2) ∨
            (e.contentHash ≠ contentHashOf sha call.1 ∧ step sha db call =
              (db.seen key.1 key.2 call.2).conflicting (conflictOf sha key e call.1)))) := by
  unfold step add keyOf
  cases hid : identityOf sha call.1 with
  | error e => exact .inl ⟨rfl, rfl⟩
  | ok identity =>
    have hseen : (db.seen identity call.1.schemaName call.2).records = db.records ∧
        (db.seen identity call.1.schemaName call.2).conflicts = db.conflicts := by
      unfold Database.seen
      split_ifs <;> exact ⟨rfl, rfl⟩
    refine .inr ⟨_, rfl, ?_⟩
    simp only [Except.map, addAs, find_seen, hseen.1]
    cases hfind : db.find identity call.1.schemaName with
    | none => exact .inl ⟨rfl, by rw [hseen.2]; rfl⟩
    | some e =>
      refine .inr ⟨e, rfl, ?_⟩
      by_cases hsame : e.contentHash = contentHashOf sha call.1
      · refine .inl ⟨hsame, ?_⟩
        dsimp only
        rw [if_pos hsame]
      · refine .inr ⟨hsame, ?_⟩
        dsimp only
        rw [if_neg hsame]
        rfl

theorem find_step (sha : Hex.Hash 64) (db : Database) (call : Call) (key : Text × Text) :
    (step sha db call).find key.1 key.2 = (db.find key.1 key.2).or
      (if keyOf sha call.1 = some key then some (entryOf sha key call.1) else none) := by
  unfold step add keyOf
  cases identityOf sha call.1 with
  | error e =>
    rw [if_neg (by simp [Except.toOption])]
    exact Option.or_none.symm
  | ok identity =>
    change (addAs sha identity db call.1 call.2).2.find key.1 key.2 = _
    rw [find_addAs]
    congr 1
    by_cases hsame : (identity, call.1.schemaName) = key
    · subst hsame
      simp [entryOf, Except.toOption]
    · have hother : ¬ (identity = key.1 ∧ call.1.schemaName = key.2) :=
        fun h => hsame (Prod.ext h.1 h.2)
      change _ = if some (identity, call.1.schemaName) = some key then _ else _
      rw [if_neg hother, if_neg fun h => hsame (Option.some.inj h)]

theorem find_runAll (calls : List Call) (key : Text × Text) :
    (runAll sha calls).find key.1 key.2 = (first sha calls key).map (entryOf sha key) := by
  have hrun := @Trace.find_run Database Call (Text × Text) (step sha) ⟨[], [], []⟩ Entry
    (fun db key => db.find key.1 key.2) _ (find_step sha) calls key
  have hempty : (⟨[], [], []⟩ : Database).find key.1 key.2 = none := rfl
  rw [hempty, Option.none_or] at hrun
  rw [runAll, hrun, first, List.map_findSome?]
  congr 1
  funext call
  rw [Function.comp_apply, apply_ite (Option.map (entryOf sha key))]
  rfl

theorem outcome_add (h : keyOf sha n = some key) :
    (addAs sha key.1 (runAll sha calls) n file).1 = outcomeAfter sha calls key n := by
  obtain ⟨-, hschema⟩ := keyOf_eq_some.mp h
  have hfind := @find_runAll sha calls key
  rw [← hschema] at hfind
  unfold addAs outcomeAfter
  dsimp only
  rw [find_seen, hfind]
  cases first sha calls key with
  | none => rfl
  | some m =>
    simp only [Option.map_some, entryOf]
    split_ifs <;> rfl

/-! ### Sources and conflicts -/

theorem mem_seen {p : Text × Text × Text} {identity schemaName : Text} :
    p ∈ (db.seen identity schemaName file).provenance ↔
      p ∈ db.provenance ∨ p = (identity, schemaName, file) := by
  unfold Database.seen
  split_ifs with hmem
  · refine ⟨Or.inl, fun h => ?_⟩
    rcases h with h | rfl
    · exact h
    · exact hmem
  · rw [List.mem_append, List.mem_singleton]

theorem nodup_seen {identity schemaName : Text} (h : db.provenance.Nodup) :
    (db.seen identity schemaName file).provenance.Nodup := by
  unfold Database.seen
  split_ifs with hmem
  · exact h
  · exact List.nodup_append.mpr ⟨h, List.nodup_singleton _, fun a ha b hb hab =>
      hmem (List.mem_singleton.mp hb ▸ hab ▸ ha)⟩

theorem seen_of_mem {identity schemaName : Text}
    (h : (identity, schemaName, file) ∈ db.provenance) : db.seen identity schemaName file = db :=
  if_pos h

theorem conflicts_seen {identity schemaName : Text} :
    (db.seen identity schemaName file).conflicts = db.conflicts := by
  unfold Database.seen
  split_ifs <;> rfl

theorem provenance_conflicting (c : Conflict) : (db.conflicting c).provenance = db.provenance := by
  unfold Database.conflicting
  split_ifs <;> rfl

theorem any_rejects (c : Conflict) : (db.conflicts.any fun c' => decide (c'.identity = c.identity ∧
      c'.schemaName = c.schemaName ∧ c'.rejectedHash = c.rejectedHash)) = true ↔
    db.rejects (c.identity, c.schemaName) c.rejectedHash := by
  simp only [List.any_eq_true, decide_eq_true_eq, Database.rejects]

theorem conflicting_of_rejects {c : Conflict}
    (h : db.rejects (c.identity, c.schemaName) c.rejectedHash) : db.conflicting c = db :=
  if_pos ((any_rejects c).mpr h)

theorem conflicts_conflicting {c : Conflict}
    (h : ¬ db.rejects (c.identity, c.schemaName) c.rejectedHash) :
    (db.conflicting c).conflicts = db.conflicts ++ [c] := by
  rw [Database.conflicting, if_neg fun hany => h ((any_rejects c).mp hany)]

theorem rejects_conflicting {c : Conflict} {hash : Text} :
    (db.conflicting c).rejects key hash ↔
      db.rejects key hash ∨ (c.identity, c.schemaName) = key ∧ c.rejectedHash = hash := by
  by_cases hc : db.rejects (c.identity, c.schemaName) c.rejectedHash
  · rw [conflicting_of_rejects hc]
    refine ⟨Or.inl, fun h => ?_⟩
    rcases h with h | ⟨rfl, rfl⟩
    · exact h
    · exact hc
  · unfold Database.rejects
    rw [conflicts_conflicting hc]
    simp only [List.mem_append, List.mem_singleton, or_and_right, exists_or, exists_eq_left,
      Prod.ext_iff, and_assoc]

theorem provenance_step (sha : Hex.Hash 64) (db : Database) (call : Call) :
    (∀ p, p ∈ (step sha db call).provenance ↔ p ∈ db.provenance ∨
      keyOf sha call.1 = some (p.1, p.2.1) ∧ p.2.2 = call.2) ∧
    (db.provenance.Nodup → (step sha db call).provenance.Nodup) := by
  have hnew : ∀ {key : Text × Text} {p : Text × Text × Text},
      p = (key.1, key.2, call.2) ↔ some key = some (p.1, p.2.1) ∧ p.2.2 = call.2 := by
    intro key p
    rw [Option.some.injEq, Prod.ext_iff, Prod.ext_iff, Prod.ext_iff]
    tauto
  have hseen : ∀ {key : Text × Text} {db' : Database},
      db'.provenance = (db.seen key.1 key.2 call.2).provenance →
      (∀ p, p ∈ db'.provenance ↔ p ∈ db.provenance ∨ some key = some (p.1, p.2.1) ∧ p.2.2 = call.2) ∧
        (db.provenance.Nodup → db'.provenance.Nodup) := by
    intro key db' h
    rw [h]
    exact ⟨fun p => by rw [mem_seen, hnew], nodup_seen⟩
  obtain ⟨hkey, hstep⟩ | ⟨key, hkey, ⟨-, hstep⟩ | ⟨e, -, ⟨-, hstep⟩ | ⟨-, hstep⟩⟩⟩ :=
    step_cases sha db call
  · rw [hstep, hkey]
    exact ⟨fun p => by simp, id⟩
  · rw [hstep, hkey]
    exact hseen rfl
  · rw [hstep, hkey]
    exact hseen rfl
  · rw [hstep, hkey]
    exact hseen (provenance_conflicting _)

/-- A conflict is added for a record that differs from the retained one of its key, once for each
content. -/
theorem rejects_step (sha : Hex.Hash 64) (db : Database) (call : Call) (key : Text × Text)
    (hash : Text) : (step sha db call).rejects key hash ↔ db.rejects key hash ∨
      keyOf sha call.1 = some key ∧ contentHashOf sha call.1 = hash ∧
        ∃ e, db.find key.1 key.2 = some e ∧ e.contentHash ≠ hash := by
  have hseen : ∀ {db' : Database}, db'.conflicts = db.conflicts →
      (db'.rejects key hash ↔ db.rejects key hash) := by
    intro db' h
    rw [Database.rejects, h]
    rfl
  obtain ⟨hkey, hstep⟩ | ⟨key', hkey, ⟨hfind, hstep⟩ | ⟨e, hfind, ⟨hsame, hstep⟩ | ⟨hne, hstep⟩⟩⟩ :=
    step_cases sha db call
  · rw [hstep, hkey]
    simp
  · rw [hstep, hkey, hseen rfl]
    refine ⟨Or.inl, fun h => ?_⟩
    rcases h with h | ⟨heq, -, e, he, -⟩
    · exact h
    · rw [Option.some.inj heq, he] at hfind
      cases hfind
  · rw [hstep, hkey, hseen conflicts_seen]
    refine ⟨Or.inl, fun h => ?_⟩
    rcases h with h | ⟨heq, rfl, e', he', hne⟩
    · exact h
    · rw [Option.some.inj heq, he'] at hfind
      rw [Option.some.inj hfind] at hne
      exact absurd hsame hne
  · rw [hstep, hkey, rejects_conflicting, hseen conflicts_seen]
    refine or_congr_right ⟨fun h => ?_, fun h => ?_⟩
    · obtain ⟨rfl, rfl⟩ := h
      exact ⟨rfl, rfl, e, hfind, hne⟩
    · obtain ⟨heq, hhash, -⟩ := h
      exact ⟨Option.some.inj heq, hhash⟩

/-! ### Runs -/

theorem first_snoc (calls : List Call) (call : Call) (key : Text × Text) :
    first sha (calls ++ [call]) key = (first sha calls key).or
      (if keyOf sha call.1 = some key then some call.1 else none) := by
  rw [first, List.findSome?_append, List.findSome?_singleton]
  rfl

theorem exists_first (h : call ∈ calls) (hkey : keyOf sha call.1 = some key) :
    ∃ m, first sha calls key = some m := by
  rw [← Option.isSome_iff_exists, first, List.findSome?_isSome_iff]
  exact ⟨call, h, by rw [if_pos hkey]; rfl⟩

theorem mem_provenance_runAll (calls : List Call) (p : Text × Text × Text) :
    p ∈ (runAll sha calls).provenance ↔
      ∃ call ∈ calls, keyOf sha call.1 = some (p.1, p.2.1) ∧ p.2.2 = call.2 := by
  induction calls using List.reverseRecOn with
  | nil => simp [runAll]
  | append_singleton calls call ih =>
    rw [runAll, Trace.run_snoc, (provenance_step sha _ call).1]
    change p ∈ (runAll sha calls).provenance ∨ _ ↔ _
    rw [ih]
    simp only [List.mem_append, List.mem_singleton, or_and_right, exists_or, exists_eq_left]

theorem nodup_provenance_runAll (calls : List Call) : (runAll sha calls).provenance.Nodup :=
  @Trace.run_invariant Database Call (step sha) ⟨[], [], []⟩ (fun db => db.provenance.Nodup)
    List.nodup_nil (fun db call => (provenance_step sha db call).2) calls

theorem rejects_runAll (calls : List Call) (key : Text × Text) (hash : Text) :
    (runAll sha calls).rejects key hash ↔
      ∃ call ∈ calls, keyOf sha call.1 = some key ∧ contentHashOf sha call.1 = hash ∧
        ∃ m, first sha calls key = some m ∧ contentHashOf sha m ≠ hash := by
  induction calls using List.reverseRecOn with
  | nil => simp [runAll, Database.rejects]
  | append_singleton calls call ih =>
    have hretained : (∃ e, (runAll sha calls).find key.1 key.2 = some e ∧ e.contentHash ≠ hash) ↔
        ∃ m, first sha calls key = some m ∧ contentHashOf sha m ≠ hash := by
      rw [find_runAll]
      cases first sha calls key <;> simp [entryOf]
    rw [runAll, Trace.run_snoc, rejects_step]
    change (runAll sha calls).rejects key hash ∨ _ ∧ _ ∧
      (∃ e, (runAll sha calls).find key.1 key.2 = some e ∧ _) ↔ _
    rw [ih, hretained]
    constructor
    · rintro (⟨call', hmem, hkey, hhash, m, hm, hne⟩ | ⟨hkey, hhash, m, hm, hne⟩)
      · exact ⟨call', List.mem_append_left _ hmem, hkey, hhash, m, by rw [first_snoc, hm]; rfl, hne⟩
      · exact ⟨call, by simp, hkey, hhash, m, by rw [first_snoc, hm]; rfl, hne⟩
    · rintro ⟨call', hmem, hkey, hhash, m, hm, hne⟩
      rw [first_snoc] at hm
      cases hfirst : first sha calls key with
      | none =>
        -- No call before had the key, so this one is retained itself.
        rcases List.mem_append.mp hmem with hmem | hmem
        · obtain ⟨m', hm'⟩ := exists_first hmem hkey
          rw [hm'] at hfirst
          cases hfirst
        · obtain rfl := List.mem_singleton.mp hmem
          rw [hfirst, if_pos hkey] at hm
          obtain rfl := Option.some.inj hm
          exact absurd hhash hne
      | some m' =>
        rw [hfirst] at hm
        obtain rfl := Option.some.inj hm
        rcases List.mem_append.mp hmem with hmem | hmem
        · exact .inl ⟨call', hmem, hkey, hhash, m', rfl, hne⟩
        · obtain rfl := List.mem_singleton.mp hmem
          exact .inr ⟨hkey, hhash, m', rfl, hne⟩

/-! ### Counts -/

theorem find_eq_none : db.find key.1 key.2 = none ↔ key ∉ db.records.map Entry.primary := by
  simp only [Database.find, List.find?_eq_none, decide_eq_true_eq, List.mem_map, Entry.primary, not_exists,
    not_and, Prod.ext_iff]

theorem keys_step (sha : Hex.Hash 64) (db : Database) (call : Call) :
    (db.records.map Entry.primary).Nodup → ((step sha db call).records.map Entry.primary).Nodup := by
  intro h
  have hkept : ∀ {key : Text × Text} {c : Conflict},
      ((db.seen key.1 key.2 call.2).conflicting c).records = db.records ∧
        (db.seen key.1 key.2 call.2).records = db.records := by
    intro key c
    unfold Database.conflicting Database.seen
    split_ifs <;> exact ⟨rfl, rfl⟩
  obtain ⟨-, hstep⟩ | ⟨key, -, ⟨hfind, hstep⟩ | ⟨e, -, ⟨-, hstep⟩ | ⟨-, hstep⟩⟩⟩ :=
    step_cases sha db call
  · rwa [hstep]
  · rw [hstep, List.map_append]
    refine List.nodup_append.mpr ⟨h, List.nodup_singleton _, fun a ha b hb hab => ?_⟩
    rw [hab, List.mem_singleton.mp hb] at ha
    exact find_eq_none.mp hfind ha
  · rwa [hstep, (hkept (c := conflictOf sha key e call.1)).2]
  · rwa [hstep, hkept.1]

theorem countRecords_runAll (calls : List Call) : (runAll sha calls).countRecords =
    (calls.filterMap fun call => keyOf sha call.1).toFinset.card := by
  have hnodup : ((runAll sha calls).records.map Entry.primary).Nodup :=
    @Trace.run_invariant Database Call (step sha) ⟨[], [], []⟩
      (fun db => (db.records.map Entry.primary).Nodup) List.nodup_nil (keys_step sha) calls
  have hmem : ((runAll sha calls).records.map Entry.primary).toFinset =
      (calls.filterMap fun call => keyOf sha call.1).toFinset := by
    ext key
    rw [List.mem_toFinset, List.mem_toFinset, ← not_iff_not, ← find_eq_none, find_runAll,
      Option.map_eq_none_iff, List.mem_filterMap, first, List.findSome?_eq_none_iff]
    simp
  rw [← hmem, List.toFinset_card_of_nodup hnodup, List.length_map]
  rfl

/-! ### Adding again -/

/-- The record is stored or rejected, and seen in its file. -/
def Knows (sha : Hex.Hash 64) (db : Database) (call : Call) : Prop :=
  ∀ key, keyOf sha call.1 = some key → (key.1, key.2, call.2) ∈ db.provenance ∧
    ∃ e, db.find key.1 key.2 = some e ∧
      (e.contentHash ≠ contentHashOf sha call.1 → db.rejects key (contentHashOf sha call.1))

theorem Knows.step_eq (h : Knows sha db call) : step sha db call = db := by
  obtain ⟨-, hstep⟩ | ⟨key, hkey, ⟨hfind, -⟩ | ⟨e, hfind, ⟨-, hstep⟩ | ⟨hne, hstep⟩⟩⟩ :=
    step_cases sha db call
  · exact hstep
  · obtain ⟨-, e, he, -⟩ := h key hkey
    rw [he] at hfind
    cases hfind
  · rw [hstep, seen_of_mem (h key hkey).1]
  · obtain ⟨hmem, e', he', hrejects⟩ := h key hkey
    obtain rfl := Option.some.inj (hfind.symm.trans he')
    rw [hstep, seen_of_mem hmem]
    exact conflicting_of_rejects (hrejects hne)

theorem knows_step (sha : Hex.Hash 64) (db : Database) (call : Call) :
    Knows sha (step sha db call) call := by
  intro key hkey
  refine ⟨((provenance_step sha db call).1 _).mpr (.inr ⟨hkey, rfl⟩), ?_⟩
  rw [find_step, if_pos hkey]
  cases hfind : db.find key.1 key.2 with
  | none => exact ⟨_, rfl, fun hne => absurd rfl hne⟩
  | some e =>
    exact ⟨e, rfl, fun hne => (rejects_step sha db call _ _).mpr (.inr ⟨hkey, rfl, e, hfind, hne⟩)⟩

theorem Knows.step (h : Knows sha db call) (call' : Call) : Knows sha (step sha db call') call := by
  intro key hkey
  obtain ⟨hmem, e, he, hrejects⟩ := h key hkey
  refine ⟨((provenance_step sha db call').1 _).mpr (.inl hmem), e, by rw [find_step, he]; rfl, ?_⟩
  exact fun hne => (rejects_step sha db call' _ _).mpr (.inl (hrejects hne))

/-- What a store holds after any records were added to an empty one. Of every key it holds the first
record, and this decides what becomes of the next one. The sources of a key are all files it came
from, and its conflicts are all other contents of it. Adding any of the records again, in any order
and any number of times, changes nothing. -/
theorem adds_exact (sha : Hex.Hash 64) (calls : List Call) :
    (∀ n file identity, identityOf sha n = .ok identity → ∃ db, add sha (runAll sha calls) n file =
      .ok (outcomeAfter sha calls (identity, n.schemaName) n, db)) ∧
    (∀ key, (runAll sha calls).find key.1 key.2 = (first sha calls key).map (entryOf sha key)) ∧
    (runAll sha calls).countRecords = (calls.filterMap fun call => keyOf sha call.1).toFinset.card ∧
    (∀ n identity, identityOf sha n = .ok identity → ∃ files,
      (runAll sha calls).provenanceOf sha n = .ok files ∧ files.Nodup ∧ files.Pairwise (· ≤ ·) ∧
        ∀ file, file ∈ files ↔
          ∃ call ∈ calls, keyOf sha call.1 = some (identity, n.schemaName) ∧ file = call.2) ∧
    (∀ key hash, (runAll sha calls).rejects key hash ↔
      ∃ call ∈ calls, keyOf sha call.1 = some key ∧ contentHashOf sha call.1 = hash ∧
        ∃ m, first sha calls key = some m ∧ contentHashOf sha m ≠ hash) ∧
    ∀ again, (∀ call ∈ again, call ∈ calls) → runAll sha (calls ++ again) = runAll sha calls := by
  refine ⟨fun n file identity hid => ?_, find_runAll calls, countRecords_runAll calls,
    fun n identity hid => ?_, rejects_runAll calls, fun again hagain => ?_⟩
  · have houtcome := @outcome_add sha n _ file calls (keyOf_of_identity hid)
    exact ⟨_, by rw [add_of_identity hid, ← houtcome]⟩
  · refine ⟨_, by rw [Database.provenanceOf, hid]; rfl, ?_, ?_, fun file => ?_⟩
    · rw [(List.perm_insertionSort _ _).nodup_iff]
      refine List.Nodup.map_on (fun p hp q hq hpq => ?_) ((nodup_provenance_runAll calls).filter _)
      rw [List.mem_filter, decide_eq_true_eq] at hp hq
      exact Prod.ext (hp.2.1.trans hq.2.1.symm)
        (Prod.ext (hp.2.2.trans hq.2.2.symm) hpq)
    · exact List.pairwise_insertionSort _ _
    · rw [(List.perm_insertionSort _ _).mem_iff, List.mem_map]
      constructor
      · rintro ⟨p, hp, rfl⟩
        rw [List.mem_filter, decide_eq_true_eq] at hp
        obtain ⟨hmem, hidentity, hschema⟩ := hp
        obtain ⟨call, hcall, hkey, hfile⟩ := (mem_provenance_runAll calls p).mp hmem
        rw [hidentity, hschema] at hkey
        exact ⟨call, hcall, hkey, hfile⟩
      · rintro ⟨call, hcall, hkey, rfl⟩
        refine ⟨(identity, n.schemaName, call.2), ?_, rfl⟩
        rw [List.mem_filter, decide_eq_true_eq]
        exact ⟨(mem_provenance_runAll calls _).mpr ⟨call, hcall, hkey, rfl⟩, rfl, rfl⟩
  · exact Trace.run_again (fun db call h => Knows.step_eq h) (knows_step sha)
      (fun db call call' h => h.step call') hagain

end Dedup
end OpenChess
