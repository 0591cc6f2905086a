import OpenChess.Chess.Value
import OpenChess.Lib.Trace

/-!
# Incremental updates

Model of `IncrementalUpdater.apply` of `ingest/incremental.py`. The ingest function is called for
snapshots that were not applied before, and may raise. Over any runs of updates every snapshot is
ingested once, its first hash stays, and a manifest lists what was ingested.
-/

namespace OpenChess
namespace Incremental

/-- A pinned snapshot; its size is not read. -/
structure Pin where
  id : Text
  url : Text
  sha256 : Text
  deriving DecidableEq, Repr

/-- A row of `applied_snapshots`; the time is not read. -/
structure Row where
  snapshotId : Text
  sha256 : Text
  url : Text
  deriving DecidableEq, Repr

abbrev Database := List Row

inductive Action
  | ingested
  | skippedUnchanged
  | conflictHashChanged
  deriving DecidableEq, Repr

def Action.text : Action → Text
  | .ingested => "ingested".toList
  | .skippedUnchanged => "skipped_unchanged".toList
  | .conflictHashChanged => "conflict_hash_changed".toList

structure DeltaEntry where
  snapshotId : Text
  action : Action
  sha256 : Text
  detail : Text
  deriving DecidableEq, Repr

/-- What a call of the ingest function does: it raises, or it returns a result with this JSON text;
the text is absent where the result cannot be written. -/
inductive Result
  | raised
  | returned (detail : Option Text)
  deriving DecidableEq, Repr

/-- `SELECT sha256 FROM applied_snapshots WHERE snapshot_id=?`. -/
def hashOf? (db : Database) (id : Text) : Option Text :=
  (db.find? fun row => row.snapshotId == id).map Row.sha256

def rowOf (pin : Pin) : Row := ⟨pin.id, pin.sha256, pin.url⟩

def knownEntry (pin : Pin) (applied : Text) : DeltaEntry :=
  if applied = pin.sha256 then
    ⟨pin.id, .skippedUnchanged, pin.sha256, "hash already applied".toList⟩
  else
    ⟨pin.id, .conflictHashChanged, pin.sha256, "applied hash ".toList ++ applied ++
      " != pin hash ".toList ++ pin.sha256 ++ "; NOT ingested".toList⟩

/-- What an update leaves: the rows, the calls of the ingest function with whether they returned,
and the entries, where no exception was raised. -/
structure Update where
  db : Database
  calls : List (Pin × Bool)
  entries : Option (List DeltaEntry)

def Update.known (u : Update) (e : DeltaEntry) : Update :=
  { u with entries := u.entries.map (e :: ·) }

def Update.ingested (u : Update) (pin : Pin) (detail : Text) : Update :=
  ⟨u.db, (pin, true) :: u.calls, u.entries.map (⟨pin.id, .ingested, pin.sha256, detail⟩ :: ·)⟩

/-- The loop of `apply`, from a turn of the ingest function. Every insert is committed before its
result is written. -/
def applyFrom (ingest : ℕ → Pin → Result) : ℕ → List Pin → Database → Update
  | _, [], db => ⟨db, [], some []⟩
  | turn, pin :: pins, db =>
    match hashOf? db pin.id with
    | some applied => (applyFrom ingest turn pins db).known (knownEntry pin applied)
    | none =>
      match ingest turn pin with
      | .raised => ⟨db, [(pin, false)], none⟩
      | .returned none => ⟨db ++ [rowOf pin], [(pin, true)], none⟩
      | .returned (some detail) =>
        (applyFrom ingest (turn + 1) pins (db ++ [rowOf pin])).ingested pin detail

/-- The manifest that is written and returned; its version is fixed. -/
structure Manifest where
  snapshots : List DeltaEntry
  ingested : ℕ
  skippedUnchanged : ℕ
  conflicts : ℕ
  deriving DecidableEq, Repr

def countOf (action : Action) (entries : List DeltaEntry) : ℕ :=
  entries.countP fun e => e.action == action

def manifestOf (entries : List DeltaEntry) : Manifest :=
  ⟨entries, countOf .ingested entries, countOf .skippedUnchanged entries,
    countOf .conflictHashChanged entries⟩

/-- The pins and the ingest function of an update. -/
structure Job where
  pins : List Pin
  ingest : ℕ → Pin → Result

def Job.update (job : Job) (db : Database) : Update := applyFrom job.ingest 0 job.pins db

/-- `apply`: the manifest, where no exception was raised. -/
def Job.apply (job : Job) (db : Database) : Option Manifest := (job.update db).entries.map manifestOf

def runAll (jobs : List Job) : Database := Trace.run (fun db job => (job.update db).db) [] jobs

/-- The calls of the ingest function in these updates. -/
def callsOf : Database → List Job → List (Pin × Bool)
  | _, [] => []
  | db, job :: jobs => (job.update db).calls ++ callsOf (job.update db).db jobs

def returned (calls : List (Pin × Bool)) : List Pin := (calls.filter Prod.snd).map Prod.fst

/-- The entry tells what became of its pin, by the hash that is applied in the end. -/
structure Reports (db : Database) (pin : Pin) (e : DeltaEntry) : Prop where
  id : e.snapshotId = pin.id
  sha256 : e.sha256 = pin.sha256
  applied : ∃ hash, hashOf? db pin.id = some hash ∧
    (e.action = .conflictHashChanged ↔ hash ≠ pin.sha256)

variable {db : Database} {pin : Pin} {pins : List Pin} {ingest : ℕ → Pin → Result} {turn : ℕ}
  {id hash : Text} {es : List DeltaEntry} {u : Update}

/-! ### Rows -/

theorem hashOf?_append (db rows : Database) (id : Text) :
    hashOf? (db ++ rows) id = (hashOf? db id).or (hashOf? rows id) := by
  rw [hashOf?, List.find?_append, Option.map_or]
  rfl

theorem hashOf?_rowOf (pin : Pin) (id : Text) :
    hashOf? [rowOf pin] id = if pin.id = id then some pin.sha256 else none := by
  by_cases h : pin.id = id
  · simp [hashOf?, rowOf, h]
  · simp [hashOf?, rowOf, h]

theorem hashOf?_eq_none : hashOf? db id = none ↔ id ∉ db.map Row.snapshotId := by
  simp [hashOf?]

/-! ### One update -/

theorem db_applyFrom (ingest : ℕ → Pin → Result) (turn : ℕ) (pins : List Pin) (db : Database) :
    (applyFrom ingest turn pins db).db =
      db ++ (returned (applyFrom ingest turn pins db).calls).map rowOf := by
  induction pins generalizing turn db with
  | nil => exact (List.append_nil db).symm
  | cons pin pins ih =>
    rw [applyFrom]
    cases hashOf? db pin.id with
    | some applied => exact ih turn db
    | none =>
      cases ingest turn pin with
      | raised => exact (List.append_nil db).symm
      | returned detail =>
        cases detail with
        | none => rfl
        | some detail =>
          change (applyFrom ingest (turn + 1) pins (db ++ [rowOf pin])).db = _
          rw [ih, List.append_assoc]
          rfl

theorem nodup_applyFrom (h : (db.map Row.snapshotId).Nodup) (turn : ℕ) :
    ((applyFrom ingest turn pins db).db.map Row.snapshotId).Nodup := by
  induction pins generalizing turn db with
  | nil => exact h
  | cons pin pins ih =>
    rw [applyFrom]
    cases hfind : hashOf? db pin.id with
    | some applied => exact ih h turn
    | none =>
      have hnew : ((db ++ [rowOf pin]).map Row.snapshotId).Nodup := by
        rw [List.map_append]
        refine List.nodup_append.mpr ⟨h, List.nodup_singleton _, fun a ha b hb hab => ?_⟩
        rw [hab, List.mem_singleton.mp hb] at ha
        exact hashOf?_eq_none.mp hfind ha
      cases ingest turn pin with
      | raised => exact h
      | returned detail =>
        cases detail with
        | none => exact hnew
        | some detail => exact ih hnew (turn + 1)

theorem hashOf?_applyFrom (h : hashOf? db id = some hash) :
    hashOf? (applyFrom ingest turn pins db).db id = some hash := by
  rw [db_applyFrom, hashOf?_append, h]
  rfl

theorem reports_known (h : hashOf? db pin.id = some hash) : Reports db pin (knownEntry pin hash) := by
  unfold knownEntry
  split_ifs with hsame
  · exact ⟨rfl, rfl, hash, h, by simp [hsame]⟩
  · exact ⟨rfl, rfl, hash, h, by simp [hsame]⟩

theorem action_known : (knownEntry pin hash).action ≠ .ingested := by
  unfold knownEntry
  split_ifs <;> simp

theorem entries_applyFrom (h : (applyFrom ingest turn pins db).entries = some es) :
    List.Forall₂ (Reports (applyFrom ingest turn pins db).db) pins es ∧
      (es.filter fun e => e.action == .ingested).map DeltaEntry.snapshotId =
        (returned (applyFrom ingest turn pins db).calls).map Pin.id := by
  induction pins generalizing turn db es with
  | nil =>
    obtain rfl := Option.some.inj h
    exact ⟨.nil, rfl⟩
  | cons pin pins ih =>
    rw [applyFrom] at h ⊢
    cases hfind : hashOf? db pin.id with
    | some applied =>
      rw [hfind] at h
      obtain ⟨rest, hrest, rfl⟩ := Option.map_eq_some_iff.mp h
      obtain ⟨hreports, hingested⟩ := ih hrest
      refine ⟨.cons (reports_known (hashOf?_applyFrom hfind)) hreports, ?_⟩
      rw [List.filter_cons_of_neg (by simp [action_known])]
      exact hingested
    | none =>
      rw [hfind] at h
      cases hcall : ingest turn pin with
      | raised =>
        rw [hcall] at h
        cases h
      | returned detail =>
        cases detail with
        | none =>
          rw [hcall] at h
          cases h
        | some detail =>
          rw [hcall] at h
          obtain ⟨rest, hrest, rfl⟩ := Option.map_eq_some_iff.mp h
          obtain ⟨hreports, hingested⟩ := ih hrest
          have hnew : hashOf? (db ++ [rowOf pin]) pin.id = some pin.sha256 := by
            rw [hashOf?_append, hfind, hashOf?_rowOf, if_pos rfl]
            rfl
          refine ⟨.cons ⟨rfl, rfl, pin.sha256, hashOf?_applyFrom hnew, by simp⟩ hreports, ?_⟩
          exact congrArg (List.cons pin.id) hingested

theorem applyFrom_known (h : ∀ pin ∈ pins, hashOf? db pin.id ≠ none) :
    applyFrom ingest turn pins db =
      ⟨db, [], some (pins.map fun pin => knownEntry pin ((hashOf? db pin.id).getD []))⟩ := by
  induction pins with
  | nil => rfl
  | cons pin pins ih =>
    obtain ⟨hpin, hpins⟩ := List.forall_mem_cons.mp h
    obtain ⟨applied, hfind⟩ := Option.ne_none_iff_exists'.mp hpin
    rw [applyFrom, hfind, ih hpins, List.map_cons, hfind]
    rfl

theorem countOf_manifest (es : List DeltaEntry) : (manifestOf es).ingested +
    (manifestOf es).skippedUnchanged + (manifestOf es).conflicts = es.length := by
  simp only [manifestOf, countOf]
  induction es with
  | nil => rfl
  | cons e es ih =>
    simp only [List.countP_cons, List.length_cons]
    cases e.action with
    | ingested => simp only [beq_self_eq_true, if_true, reduceCtorEq, beq_iff_eq, if_false]; omega
    | skippedUnchanged =>
      simp only [beq_self_eq_true, if_true, reduceCtorEq, beq_iff_eq, if_false]; omega
    | conflictHashChanged =>
      simp only [beq_self_eq_true, if_true, reduceCtorEq, beq_iff_eq, if_false]; omega

theorem exists_report (h : List.Forall₂ (Reports db) pins es) (hpin : pin ∈ pins) :
    ∃ e, Reports db pin e := by
  induction h with
  | nil => cases hpin
  | cons hreport _ ih =>
    rcases List.mem_cons.mp hpin with rfl | hpin
    · exact ⟨_, hreport⟩
    · exact ih hpin

theorem conflicts_known (h : List.Forall₂ (Reports db) pins es) :
    countOf .conflictHashChanged
        (pins.map fun pin => knownEntry pin ((hashOf? db pin.id).getD [])) =
      countOf .conflictHashChanged es := by
  induction h with
  | nil => rfl
  | @cons pin e pins es hreport _ ih =>
    obtain ⟨hash, hhash, haction⟩ := hreport.applied
    have hknown := (reports_known hhash).applied
    obtain ⟨hash', hhash', hknown⟩ := hknown
    obtain rfl := Option.some.inj (hhash.symm.trans hhash')
    have hsame : ((knownEntry pin hash).action == .conflictHashChanged) =
        (e.action == .conflictHashChanged) := by
      rw [Bool.eq_iff_iff, beq_iff_eq, beq_iff_eq, hknown, haction]
    unfold countOf at ih ⊢
    rw [List.map_cons, List.countP_cons, List.countP_cons, ih, hhash, Option.getD_some, hsame]

/-! ### Runs of updates -/

theorem run_eq (db : Database) (jobs : List Job) :
    Trace.run (fun db job => (job.update db).db) db jobs =
      db ++ (returned (callsOf db jobs)).map rowOf := by
  induction jobs generalizing db with
  | nil => exact (List.append_nil db).symm
  | cons job jobs ih =>
    have hjob := db_applyFrom job.ingest 0 job.pins db
    change Trace.run (fun db job => (job.update db).db) (job.update db).db jobs = _
    have hreturned : returned (callsOf db (job :: jobs)) =
        returned (job.update db).calls ++ returned (callsOf (job.update db).db jobs) := by
      rw [returned, callsOf, List.filter_append, List.map_append]
      rfl
    rw [ih, hreturned, List.map_append, ← List.append_assoc]
    congr 1

theorem nodup_runAll (jobs : List Job) : ((runAll jobs).map Row.snapshotId).Nodup :=
  @Trace.run_invariant Database Job (fun db job => (job.update db).db) []
    (fun db => (db.map Row.snapshotId).Nodup) List.nodup_nil
    (fun _ _ h => nodup_applyFrom h 0) jobs

/-- Over any updates of an empty database, with exceptions anywhere in them: no snapshot is ingested
twice, and the rows are those of the snapshots that were, in their order. A finished update has one
entry for each pin, a conflict where its hash is not the applied one, lists as ingested exactly what
it ingested, and counts its entries. Made again, with any ingest function, it finishes without
a call of it, ingests nothing and changes nothing. -/
theorem updates_exact (jobs : List Job) :
    runAll jobs = (returned (callsOf [] jobs)).map rowOf ∧
    ((returned (callsOf [] jobs)).map Pin.id).Nodup ∧
    ∀ job manifest, job.apply (runAll jobs) = some manifest →
      List.Forall₂ (Reports (runAll (jobs ++ [job]))) job.pins manifest.snapshots ∧
      (manifest.snapshots.filter fun e => e.action == .ingested).map DeltaEntry.snapshotId =
        (returned (job.update (runAll jobs)).calls).map Pin.id ∧
      manifest.ingested + manifest.skippedUnchanged + manifest.conflicts = job.pins.length ∧
      ∀ ingest, ∃ again, Job.apply ⟨job.pins, ingest⟩ (runAll (jobs ++ [job])) = some again ∧
        again.ingested = 0 ∧ again.conflicts = manifest.conflicts ∧
        (Job.update ⟨job.pins, ingest⟩ (runAll (jobs ++ [job]))).calls = [] ∧
        runAll (jobs ++ [job, ⟨job.pins, ingest⟩]) = runAll (jobs ++ [job]) := by
  have hrows : runAll jobs = (returned (callsOf [] jobs)).map rowOf := run_eq [] jobs
  refine ⟨hrows, ?_, fun job manifest h => ?_⟩
  · have hnodup := nodup_runAll jobs
    rw [hrows, List.map_map] at hnodup
    exact hnodup
  · obtain ⟨es, hes, rfl⟩ := Option.map_eq_some_iff.mp h
    have hstep : runAll (jobs ++ [job]) = (job.update (runAll jobs)).db := Trace.run_snoc jobs job
    obtain ⟨hreports, hingested⟩ := entries_applyFrom hes
    have hlength := hreports.length_eq
    rw [← Job.update, ← hstep] at hreports
    refine ⟨hreports, hingested, (countOf_manifest es).trans hlength.symm, fun ingest => ?_⟩
    have hknown : ∀ pin ∈ job.pins, hashOf? (runAll (jobs ++ [job])) pin.id ≠ none := by
      intro pin hpin
      obtain ⟨e, he⟩ := exists_report hreports hpin
      obtain ⟨hash, hhash, -⟩ := he.applied
      rw [hhash]
      exact Option.some_ne_none hash
    have hagain := @applyFrom_known _ _ ingest 0 hknown
    have hlast : runAll (jobs ++ [job, ⟨job.pins, ingest⟩]) =
        (Job.update ⟨job.pins, ingest⟩ (runAll (jobs ++ [job]))).db := by
      rw [show jobs ++ [job, ⟨job.pins, ingest⟩] = (jobs ++ [job]) ++ [⟨job.pins, ingest⟩] by simp]
      exact Trace.run_snoc _ _
    refine ⟨manifestOf _, ?_, ?_, conflicts_known hreports, ?_, ?_⟩
    · rw [Job.apply, Job.update, hagain]
      rfl
    · refine List.countP_eq_zero.mpr fun e he => ?_
      obtain ⟨pin, -, rfl⟩ := List.mem_map.mp he
      rw [beq_iff_eq]
      exact action_known
    · rw [Job.update, hagain]
    · rw [hlast, Job.update, hagain]

end Incremental
end OpenChess
