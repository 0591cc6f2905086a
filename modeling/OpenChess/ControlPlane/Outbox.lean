import OpenChess.ControlPlane.Operations
import OpenChess.Jobs.JsonLoads
import OpenChess.Lib.KeyedLog
import OpenChess.Lib.Triple

/-!
# The outbox of operation events

Model of `server/control_plane_events.py`: the checks of an event, its stored text, and the
transaction that publishes a batch. Any statement of the database may fail; a transaction that
is not committed leaves the committed rows as they are.
-/

namespace OpenChess
namespace Outbox

open ControlPlane (operations)

/-- The failure classes of a `Refusal`. -/
inductive Refusal
  | malformedEvent
  | unsupportedVersion
  | unknownName
  | duplicateConflict
  | publicationFailure
  deriving DecidableEq, Repr

/-! ### Events -/

/-- `_ERRORS`, which are those of the contract. -/
def catalog : List (Text × List Text) := operations.map fun e => (e.1, e.2.errors)

def identChar (c : Char) : Bool :=
  decide ('A' ≤ c ∧ c ≤ 'Z') || decide ('a' ≤ c ∧ c ≤ 'z') || decide ('0' ≤ c ∧ c ≤ '9') ||
    c == '_' || c == '-'

/-- `_IDENTIFIER`. -/
def identifier (t : Text) : Bool :=
  decide (1 ≤ t.length) && decide (t.length ≤ 64) && t.all identChar

/-- The largest `occurred_at`. -/
def maxTimestamp : ℕ := 253402300799999

def Declared (operation : Text) (errorCode : Option Text) : Prop :=
  ∃ errors, catalog.lookup operation = some errors ∧ ∀ code, errorCode = some code → code ∈ errors

/-- A checked event; it has an error code where its outcome is `failed`. -/
@[ext]
structure Envelope where
  operation : Text
  errorCode : Option Text
  eventId : Text
  correlationId : Text
  occurredAt : ℕ
  declared : Declared operation errorCode
  named : identifier eventId = true ∧ identifier correlationId = true
  timed : occurredAt ≤ maxTimestamp
  deriving DecidableEq

/-- `outcome`. -/
def outcomeText (errorCode : Option Text) : Text :=
  if errorCode.isSome then "failed".toList else "succeeded".toList

/-- `f"control_plane.{op}.{outcome}"`. -/
def eventName (operation outcome : Text) : Text :=
  "control_plane.".toList ++ operation ++ '.' :: outcome

/-- `_REQUIRED`. -/
def requiredFields : List Text :=
  ["version".toList, "name".toList, "operation_id".toList, "event_id".toList,
    "occurred_at".toList, "correlation_id".toList, "outcome".toList]

/-- `_FIELDS`. -/
def eventFields : List Text := requiredFields ++ ["error_code".toList]

def Envelope.members (e : Envelope) : List (Text × Value) :=
  [("version".toList, .int 1),
    ("name".toList, .str (eventName e.operation (outcomeText e.errorCode))),
    ("operation_id".toList, .str e.operation), ("event_id".toList, .str e.eventId),
    ("occurred_at".toList, .int e.occurredAt), ("correlation_id".toList, .str e.correlationId),
    ("outcome".toList, .str (outcomeText e.errorCode))] ++
    (e.errorCode.map fun code => ("error_code".toList, .str code)).toList

/-- `event[name]`, and `event.get(name)`. -/
def member (l : List (Text × Value)) (name : String) : Value := (l.lookup name.toList).getD .null

def readCode (l : List (Text × Value)) (errors : List Text) (outcome : Text) :
    Except Refusal (Option Text) :=
  if outcome = "failed".toList then
    match (member l "error_code").text? with
    | some code => if code ∈ errors then .ok (some code) else .error .malformedEvent
    | none => .error .malformedEvent
  else if (l.lookup "error_code".toList).isSome then .error .malformedEvent
  else .ok none

/-- The checks of `validate` after those of the fields and the version. -/
def readEnvelope (l : List (Text × Value)) : Except Refusal Envelope :=
  match (member l "operation_id").text? with
  | none => .error .unknownName
  | some operation =>
    match hcatalog : catalog.lookup operation with
    | none => .error .unknownName
    | some errors =>
      match (member l "outcome").text? with
      | none => .error .malformedEvent
      | some outcome =>
        if outcome ≠ "succeeded".toList ∧ outcome ≠ "failed".toList then .error .malformedEvent
        else if (member l "name").text? ≠ some (eventName operation outcome) then
          .error .unknownName
        else
          match (member l "event_id").text?, (member l "correlation_id").text?,
            (member l "occurred_at").nat? 0 maxTimestamp with
          | some eventId, some correlationId, some occurredAt =>
            if hids : identifier eventId = true ∧ identifier correlationId = true then
              match readCode l errors outcome with
              | .error r => .error r
              | .ok errorCode =>
                if hrest : (∀ code, errorCode = some code → code ∈ errors) ∧
                    occurredAt ≤ maxTimestamp then
                  .ok ⟨operation, errorCode, eventId, correlationId, occurredAt,
                    ⟨errors, hcatalog, hrest.1⟩, hids, hrest.2⟩
                else .error .malformedEvent
            else .error .malformedEvent
          | _, _, _ => .error .malformedEvent

def readMembers (l : List (Text × Value)) : Except Refusal Envelope :=
  if (l.any fun e => !eventFields.contains e.1) ||
      requiredFields.any fun name => (l.lookup name).isNone then .error .malformedEvent
  else
    match member l "version" with
    | .int n => if n = 1 then readEnvelope l else .error .unsupportedVersion
    | _ => .error .malformedEvent

/-- `validate`. -/
def validate (v : Value) : Except Refusal Envelope :=
  match v.members? with
  | none => .error .malformedEvent
  | some l => readMembers l

/-! ### Rows -/

structure Row where
  eventId : Text
  envelope : Text
  deriving DecidableEq, Repr

/-- `_encode`. -/
def encode (e : Envelope) : Text := Json.dumps true (.ofMembers e.members)

/-- `_decode`. -/
def decode (row : Row) : Except Refusal Envelope :=
  match Json.loads row.envelope with
  | none => .error .publicationFailure
  | some v =>
    match validate v with
    | .error _ => .error .publicationFailure
    | .ok e => if e.eventId = row.eventId then .ok e else .error .publicationFailure

def Envelope.row (e : Envelope) : Row := ⟨e.eventId, encode e⟩

/-! ### The database -/

/-- The table `outbox` in the order of its ordinals, what an open transaction makes of it, and
the number of statements that were run. -/
structure Database where
  committed : List Row
  working : Option (List Row)
  statements : ℕ

/-- What ends a transaction early: `sqlite3.Error`, or a refusal. -/
inductive Failure
  | sqlite
  | refused (r : Refusal)

abbrev Run := Prog Database Failure

variable (faults : ℕ → Bool)

/-- A statement is run; it fails where a fault comes. -/
def statement : Run Unit := do
  let db ← get
  modify fun db => { db with statements := db.statements + 1 }
  if faults db.statements then throw .sqlite else pure ()

/-- `BEGIN IMMEDIATE`. -/
def beginImmediate : Run Unit := do
  statement faults
  let db ← get
  match db.working with
  | some _ => throw .sqlite
  | none => modify fun db => { db with working := some db.committed }

/-- `SELECT event_id, envelope FROM outbox`. -/
def selectRows : Run (List Row) := do
  statement faults
  let db ← get
  pure (db.working.getD db.committed)

/-- `SELECT COUNT(*) FROM outbox`. -/
def countRows : Run ℕ := do
  statement faults
  let db ← get
  pure (db.working.getD db.committed).length

/-- `INSERT INTO outbox`; the ids are unique. -/
def insertRow (row : Row) : Run Unit := do
  statement faults
  let db ← get
  if row.eventId ∈ (db.working.getD db.committed).map Row.eventId then throw .sqlite
  else
    match db.working with
    | some rows => modify fun db => { db with working := some (rows ++ [row]) }
    | none => modify fun db => { db with committed := db.committed ++ [row] }

/-- `COMMIT`. -/
def commit : Run Unit := do
  statement faults
  let db ← get
  match db.working with
  | none => throw .sqlite
  | some rows => modify fun db => { db with committed := rows, working := none }

/-- `ROLLBACK` of an open transaction. -/
def rollback : Run Unit := modify fun db => { db with working := none }

/-! ### Publication -/

/-- The loop that stages a batch under its ids. -/
def stage : List (Text × Envelope) → List Envelope → Except Refusal (List (Text × Envelope))
  | staged, [] => .ok staged
  | staged, e :: proposed =>
    if (staged.lookup e.eventId).any fun e' => decide (e' ≠ e) then .error .duplicateConflict
    else stage (Assoc.assign staged e.eventId e) proposed

def existingEvents (rows : List Row) : Except Refusal (List (Text × Envelope)) :=
  rows.mapM fun row => (decode row).map fun e => (row.eventId, e)

def conflicts (existing staged : List (Text × Envelope)) : Bool :=
  staged.any fun s => (existing.lookup s.1).any fun e => decide (e ≠ s.2)

/-- The loop of the insertions. -/
def insertAll : List (Text × Envelope) → Run Unit
  | [] => pure ()
  | s :: staged => do
    insertRow faults ⟨s.1, encode s.2⟩
    insertAll staged

/-- The transaction of `publish`. -/
def transaction (staged : List (Text × Envelope)) (failCommit : Bool) : Run ℕ := do
  beginImmediate faults
  let rows ← selectRows faults
  match existingEvents rows with
  | .error r => throw (.refused r)
  | .ok existing =>
    if conflicts existing staged then throw (.refused .duplicateConflict)
    else do
      insertAll faults (staged.filter fun s => (existing.lookup s.1).isNone)
      if failCommit then throw (.refused .publicationFailure)
      else do
        let count ← countRows faults
        commit faults
        pure count

/-- The batch before the transaction: every event is checked, then staged. -/
def propose (batch : Value) : Except Refusal (List (Text × Envelope)) :=
  match batch with
  | .list items =>
    match items.mapM validate with
    | .error r => .error r
    | .ok proposed => stage [] proposed
  | _ => .error .malformedEvent

/-- A call of `publish`, with the statements that fail. -/
structure Call where
  batch : Value
  failCommit : Value
  faults : ℕ → Bool

/-- `publish`. -/
def publish (call : Call) : Run ℕ :=
  match call.failCommit with
  | .bool failCommit =>
    match propose call.batch with
    | .error r => throw (.refused r)
    | .ok staged =>
      tryCatch (transaction call.faults staged failCommit) fun
        | .refused r => do
          rollback
          throw (.refused r)
        | .sqlite => do
          rollback
          throw (.refused .publicationFailure)
  | _ => throw (.refused .malformedEvent)

def step (db : Database) (call : Call) : Except Failure ℕ × Database :=
  (publish call).exec { db with statements := 0 }

def runAll (calls : List Call) : Database :=
  calls.foldl (fun db call => (step db call).2) ⟨[], none, 0⟩

/-- `events`. -/
def events (db : Database) : Except Refusal (List Envelope) := db.committed.mapM decode

end Outbox
end OpenChess

/-!
## Publication is atomic and idempotent

The rows of an outbox are decoded to the events they were encoded from. A call of `publish`
extends the log of these events by its batch, or fails and leaves the committed rows alone.
-/

namespace OpenChess
namespace Outbox

open Prog (Ensures)

variable {e e' : Envelope} {l m : List (Text × Value)} {v : Value} {es batch : List Envelope}

/-! ### Stored events -/

theorem outcomeText_known (errorCode : Option Text) :
    ¬ (outcomeText errorCode ≠ "succeeded".toList ∧ outcomeText errorCode ≠ "failed".toList) := by
  unfold outcomeText
  split_ifs
  · exact fun h => h.2 rfl
  · exact fun h => h.1 rfl

theorem readEnvelope_eq_ok {errors : List Text}
    (hcatalog : catalog.lookup e.operation = some errors)
    (hoperation : (member l "operation_id").text? = some e.operation)
    (houtcome : (member l "outcome").text? = some (outcomeText e.errorCode))
    (hname : (member l "name").text? = some (eventName e.operation (outcomeText e.errorCode)))
    (hid : (member l "event_id").text? = some e.eventId)
    (hcorrelation : (member l "correlation_id").text? = some e.correlationId)
    (hat : (member l "occurred_at").nat? 0 maxTimestamp = some e.occurredAt)
    (hcode : readCode l errors (outcomeText e.errorCode) = .ok e.errorCode) :
    readEnvelope l = .ok e := by
  obtain ⟨errors', hcatalog', hdeclared⟩ := e.declared
  obtain rfl := Option.some.inj (hcatalog.symm.trans hcatalog')
  rw [readEnvelope, hoperation]
  dsimp only
  split
  · rename_i hnone
    rw [hcatalog] at hnone
    cases hnone
  · rename_i errors' hsome
    obtain rfl := Option.some.inj (hcatalog.symm.trans hsome)
    rw [houtcome]
    dsimp only
    rw [if_neg (outcomeText_known _), if_neg (not_not.mpr hname), hid, hcorrelation, hat]
    dsimp only
    rw [dif_pos e.named, hcode]
    dsimp only
    rw [dif_pos ⟨hdeclared, e.timed⟩]

theorem readMembers_members (e : Envelope) : readMembers e.members = .ok e := by
  obtain ⟨errors, hcatalog, hdeclared⟩ := e.declared
  have hat : (Value.int e.occurredAt).nat? 0 maxTimestamp = some e.occurredAt :=
    Value.nat?_int (Nat.zero_le _) e.timed
  have hcode : readCode e.members errors (outcomeText e.errorCode) = .ok e.errorCode ∧
      ((e.members.any fun m => !eventFields.contains m.1) ||
        requiredFields.any fun name => (e.members.lookup name).isNone) = false := by
    unfold Envelope.members
    cases h : e.errorCode with
    | none => exact ⟨rfl, rfl⟩
    | some code =>
      refine ⟨?_, rfl⟩
      have hread : ∀ l : List (Text × Value), (member l "error_code").text? = some code →
          readCode l errors (outcomeText (some code)) = .ok (some code) := by
        intro l hl
        have hfailed : outcomeText (some code) = "failed".toList := rfl
        rw [readCode, if_pos hfailed, hl]
        exact if_pos (hdeclared code h)
      exact hread _ rfl
  rw [readMembers, hcode.2, if_neg Bool.false_ne_true]
  have hversion : member e.members "version" = .int 1 := rfl
  rw [hversion]
  exact (if_pos rfl).trans (readEnvelope_eq_ok hcatalog rfl rfl rfl rfl rfl hat hcode.1)

theorem lookup_of_perm (h : l.Perm m) (hnodup : (l.map Prod.fst).Nodup) (name : Text) :
    l.lookup name = m.lookup name := by
  have hnodup' : (m.map Prod.fst).Nodup := (h.map Prod.fst).nodup_iff.mp hnodup
  refine Option.ext fun v => ?_
  rw [Dict.lookup_eq_some_iff_mem hnodup, Dict.lookup_eq_some_iff_mem hnodup', h.mem_iff]

theorem readMembers_of_perm (h : l.Perm m) (hnodup : (l.map Prod.fst).Nodup) :
    readMembers l = readMembers m := by
  have hlookup := lookup_of_perm h hnodup
  have hmember : member l = member m := funext fun name => by rw [member, member, hlookup]
  have hcode : readCode l = readCode m := by
    funext errors outcome
    simp only [readCode, hmember, hlookup]
  have hrest : readEnvelope l = readEnvelope m := by
    simp only [readEnvelope, hmember, hcode]
  simp only [readMembers, h.any_eq, hlookup, hmember, hrest]

/-! ### Encoded events -/

theorem plain_of_identifier {t : Text} (h : identifier t = true) : ∀ c ∈ t, Json.Plain c := by
  intro c hc
  rw [identifier, Bool.and_eq_true, List.all_eq_true] at h
  have hchar := h.2 c hc
  simp only [identChar, Bool.or_eq_true, decide_eq_true_eq, beq_iff_eq] at hchar
  have hcodes : (65 ≤ c.toNat ∧ c.toNat ≤ 90) ∨ (97 ≤ c.toNat ∧ c.toNat ≤ 122) ∨
      (48 ≤ c.toNat ∧ c.toNat ≤ 57) ∨ c.toNat = 95 ∨ c.toNat = 45 := by
    rcases hchar with (((h | h) | h) | rfl) | rfl
    · exact .inl h
    · exact .inr (.inl h)
    · exact .inr (.inr (.inl h))
    · exact .inr (.inr (.inr (.inl rfl)))
    · exact .inr (.inr (.inr (.inr rfl)))
  unfold Json.Plain Json.quoteCode Json.backslashCode
  omega

theorem plain_catalog : ∀ entry ∈ catalog, (∀ c ∈ entry.1, Json.Plain c) ∧
    ∀ code ∈ entry.2, ∀ c ∈ code, Json.Plain c := by
  have h : catalog.all (fun entry => Json.plainText entry.1 && entry.2.all Json.plainText) =
      true := by decide +kernel
  intro entry hentry
  have hboth := List.all_eq_true.mp h entry hentry
  simpa only [Bool.and_eq_true, List.all_eq_true, Json.plainText_iff] using hboth

theorem plain_outcomeText (errorCode : Option Text) :
    ∀ c ∈ outcomeText errorCode, Json.Plain c := by
  unfold outcomeText
  split_ifs
  · exact Json.plainText_iff.mp (by decide)
  · exact Json.plainText_iff.mp (by decide)

theorem plain_eventName {operation outcome : Text} (hoperation : ∀ c ∈ operation, Json.Plain c)
    (houtcome : ∀ c ∈ outcome, Json.Plain c) :
    ∀ c ∈ eventName operation outcome, Json.Plain c := by
  have hhead : ∀ c ∈ "control_plane.".toList, Json.Plain c :=
    Json.plainText_iff.mp (by decide)
  have hdot : Json.Plain '.' := by decide
  unfold eventName
  generalize "control_plane.".toList = head at hhead
  intro c hc
  rw [List.mem_append, List.mem_append, List.mem_cons] at hc
  rcases hc with (hc | hc) | rfl | hc
  · exact hhead c hc
  · exact hoperation c hc
  · exact hdot
  · exact houtcome c hc

theorem mem_eventFields (e : Envelope) : ∀ m ∈ e.members, m.1 ∈ eventFields := by
  unfold Envelope.members
  cases e.errorCode with
  | none =>
    intro m hm
    exact List.mem_append_left _ (List.mem_map_of_mem (f := Prod.fst) hm)
  | some code => exact fun m hm => List.mem_map_of_mem (f := Prod.fst) hm

theorem flat_members (e : Envelope) :
    ∀ m ∈ e.members, (∀ c ∈ m.1, Json.Plain c) ∧ Json.Leaf m.2 := by
  obtain ⟨errors, hcatalog, hdeclared⟩ := e.declared
  obtain ⟨hoperation, hcodes⟩ := plain_catalog _ (Dict.mem_of_lookup hcatalog)
  have hfields : ∀ name ∈ eventFields, Json.plainText name = true := by decide
  intro m hm
  refine ⟨Json.plainText_iff.mp (hfields _ (mem_eventFields e m hm)), ?_⟩
  rw [Envelope.members, List.mem_append] at hm
  rcases hm with hm | hm
  · simp only [List.mem_cons, List.not_mem_nil, or_false] at hm
    rcases hm with rfl | rfl | rfl | rfl | rfl | rfl | rfl
    · exact .inr ⟨1, rfl⟩
    · exact .inl ⟨_, plain_eventName hoperation (plain_outcomeText _), rfl⟩
    · exact .inl ⟨_, hoperation, rfl⟩
    · exact .inl ⟨_, plain_of_identifier e.named.1, rfl⟩
    · exact .inr ⟨_, rfl⟩
    · exact .inl ⟨_, plain_of_identifier e.named.2, rfl⟩
    · exact .inl ⟨_, plain_outcomeText _, rfl⟩
  · rw [Option.mem_toList, Option.map_eq_some_iff] at hm
    obtain ⟨code, hcode, rfl⟩ := hm
    exact .inl ⟨code, hcodes code (hdeclared code hcode), rfl⟩

theorem nodup_members (e : Envelope) : (e.members.map Prod.fst).Nodup := by
  unfold Envelope.members
  cases e.errorCode with
  | none => exact (by decide : requiredFields.Nodup)
  | some code => exact (by decide : eventFields.Nodup)

/-- A stored event is decoded to itself. -/
theorem decode_row (e : Envelope) : decode e.row = .ok e := by
  obtain ⟨m, hperm, hloads⟩ := Json.exists_loads_dumps (flat_members e) (List.cons_ne_nil _ _)
    (nodup_members e)
  have hnodup : (m.map Prod.fst).Nodup := (hperm.map Prod.fst).nodup_iff.mpr (nodup_members e)
  have hvalid : validate (.ofMembers m) = .ok e := by
    rw [validate, Value.members?_ofMembers hnodup]
    exact (readMembers_of_perm hperm hnodup).trans (readMembers_members e)
  rw [decode, Envelope.row, encode, hloads]
  simp only [hvalid, if_true]

end Outbox
end OpenChess
