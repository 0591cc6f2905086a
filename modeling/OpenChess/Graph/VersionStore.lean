import OpenChess.Chess.Value
import OpenChess.Lib.Buckets
import OpenChess.Lib.Decimal
import OpenChess.Lib.Hex
import OpenChess.Lib.ParentsFirst
import Mathlib.Data.Char

/-!
# The graph-version store

Model of `graph/version_store.py`. The dictionary of records keeps its insertion
order. Operations return the store they leave behind also when they raise; the
retry loop of a merge takes the number of its rounds as fuel.
-/

namespace OpenChess
namespace VersionStore

inductive FailureClass
  | malformedVersionRecord
  | unknownParent
  | conflictingVersion
  | rootViolation
  | nonmonotonicVersion
  deriving DecidableEq, Repr

inductive ErrorCode
  | malformedRequest
  | unknownParent
  | conflictingVersion
  | rootViolation
  | nonmonotonicVersion
  | internal
  deriving DecidableEq, Repr

/-- `FAILURE_MAPPING`. -/
def FailureClass.error : FailureClass → ErrorCode
  | .malformedVersionRecord => .malformedRequest
  | .unknownParent => .unknownParent
  | .conflictingVersion => .conflictingVersion
  | .rootViolation => .rootViolation
  | .nonmonotonicVersion => .nonmonotonicVersion

structure Record where
  versionId : Text
  parentIds : List Text
  graphDigest : Text
  createdAt : Text
  label : Text
  deriving DecidableEq, Repr

/-- `VersionError`; a conflict carries the stored and the incoming record. -/
structure VersionError where
  failureClass : FailureClass
  witness : Option (Record × Record)
  deriving DecidableEq, Repr

def malformed : VersionError := ⟨.malformedVersionRecord, none⟩

/-! ### Content addresses -/

abbrev Sha256 := Hex.Hash 64

def idTag : Text := ['g', 'v', '1', ':']

def digestTag : Text := ['g', 'd', 'v', '1', ':']

/-- `_ID`. -/
def isId (t : Text) : Bool := Hex.tagged idTag 64 t

/-- `_DIGEST`. -/
def isDigest (t : Text) : Bool := Hex.tagged digestTag 64 t

/-- `sorted(set(value))`. -/
def canonical (parents : List Text) : List Text := Buckets.sorted parents.dedup

/-- `_parents` of a list of strings. -/
def readParents (parents : List Text) : Option (List Text) :=
  if parents.all isId then some (canonical parents) else none

def contentHeader : Text := "gv1-content\n".toList

/-- The hashed text: header, each parent on a line, the graph digest. -/
def body (parents : List Text) (graphDigest : Text) : Text :=
  contentHeader ++ (parents.flatMap fun p => p ++ ['\n']) ++ graphDigest ++ ['\n']

/-- `version_id`; `none` where it raises. -/
def versionId (sha : Sha256) (parents : List Text) (graphDigest : Text) : Option Text :=
  match readParents parents with
  | none => none
  | some ps =>
    if isDigest graphDigest then some (idTag ++ sha.hexdigest (body ps graphDigest)) else none

/-! ### Timestamps and labels -/

structure Instant where
  year : ℕ
  month : ℕ
  day : ℕ
  hour : ℕ
  minute : ℕ
  second : ℕ
  deriving DecidableEq, Repr

/-- `v[i:j]`. -/
def slice (v : Text) (i j : ℕ) : Text := (v.drop i).take (j - i)

/-- The fields of `_TS`, each read as an integer. -/
def readInstant (v : Text) : Option Instant :=
  if v.length = 20 ∧ slice v 4 5 = ['-'] ∧ slice v 7 8 = ['-'] ∧ slice v 10 11 = ['T'] ∧
      slice v 13 14 = [':'] ∧ slice v 16 17 = [':'] ∧ slice v 19 20 = ['Z'] then do
    let year ← Decimal.readNat (slice v 0 4)
    let month ← Decimal.readNat (slice v 5 7)
    let day ← Decimal.readNat (slice v 8 10)
    let hour ← Decimal.readNat (slice v 11 13)
    let minute ← Decimal.readNat (slice v 14 16)
    let second ← Decimal.readNat (slice v 17 19)
    return ⟨year, month, day, hour, minute, second⟩
  else none

def isLeap (year : ℕ) : Bool := year % 4 == 0 && (year % 100 != 0 || year % 400 == 0)

def daysInMonth (year month : ℕ) : ℕ :=
  if month = 2 then (if isLeap year then 29 else 28)
  else if month ∈ [4, 6, 9, 11] then 30
  else 31

/-- `date(y, m, d)` does not raise. -/
def isDate (year month day : ℕ) : Bool :=
  decide ((1 ≤ year ∧ year ≤ 9999) ∧ (1 ≤ month ∧ month ≤ 12) ∧
    1 ≤ day ∧ day ≤ daysInMonth year month)

/-- `_timestamp`. -/
def timestamp (v : Text) : Bool :=
  match readInstant v with
  | none => false
  | some i => isDate i.year i.month i.day && decide (i.hour < 24 ∧ i.minute < 60 ∧ i.second < 60)

/-- `_LABEL`: up to 120 printable ASCII characters. -/
def isLabel (t : Text) : Bool :=
  decide (1 ≤ t.length ∧ t.length ≤ 120) && t.all fun c => decide (' ' ≤ c ∧ c ≤ '~')

/-! ### Records -/

/-- A member of a record object: a scalar, or an exact list of scalars. -/
inductive Value
  | scalar (value : Scalar)
  | list (items : List Scalar)

def Value.text? : Value → Option Text
  | .scalar v => v.text?
  | .list _ => none

def Value.texts? : Value → Option (List Text)
  | .scalar _ => none
  | .list items => items.mapM Scalar.text?

/-- What a caller passes as a record. -/
inductive RecordObject
  | mapping (members : PyDict Value)
  | foreign (tag : ℕ)

/-- The five fields and no others, of the declared types. -/
def readRecord (members : PyDict Value) : Option Record :=
  if members.keys = {key "version_id", key "parent_ids", key "graph_digest", key "created_at",
      key "label"} then do
    let versionId ← (members.lookup (key "version_id")).bind Value.text?
    let parentIds ← (members.lookup (key "parent_ids")).bind Value.texts?
    let graphDigest ← (members.lookup (key "graph_digest")).bind Value.text?
    let createdAt ← (members.lookup (key "created_at")).bind Value.text?
    let label ← (members.lookup (key "label")).bind Value.text?
    return ⟨versionId, parentIds, graphDigest, createdAt, label⟩
  else none

/-- `_validate` of a record of the declared types. -/
def validate (sha : Sha256) (r : Record) : Bool :=
  r.parentIds.all isId && isId r.versionId && isDigest r.graphDigest && timestamp r.createdAt &&
    isLabel r.label && versionId sha r.parentIds r.graphDigest == some r.versionId

/-! ### The store -/

structure Store where
  records : List (Text × Record)
  rootId : Option Text

def Store.new : Store := ⟨[], none⟩

/-- The first refusal met by the parent loop of `insert`. -/
def checkParents (s : Store) (r : Record) : List Text → Option FailureClass
  | [] => none
  | p :: parents =>
    match s.records.lookup p with
    | none => some .unknownParent
    | some stored =>
      if r.createdAt < stored.createdAt then some .nonmonotonicVersion
      else checkParents s r parents

/-- The lineage checks of `insert`. -/
def checkLineage (s : Store) (r : Record) : Option FailureClass :=
  if r.parentIds = [] then
    if s.rootId.isSome then some .rootViolation else none
  else checkParents s r r.parentIds

def Record.canonical (r : Record) : Record :=
  { r with parentIds := VersionStore.canonical r.parentIds }

/-- The commit of `insert`. -/
def Store.push (s : Store) (r : Record) : Store :=
  ⟨s.records ++ [(r.versionId, r)], if r.parentIds = [] then some r.versionId else s.rootId⟩

/-- `insert` past the validation. -/
def insertValid (r : Record) (s : Store) : Except VersionError Record × Store :=
  match s.records.lookup r.versionId with
  | some stored =>
    if stored ≠ r then (.error ⟨.conflictingVersion, some (stored, r)⟩, s) else (.ok stored, s)
  | none =>
    match checkLineage s r with
    | some cls => (.error ⟨cls, none⟩, s)
    | none => (.ok r, s.push r)

/-- `insert` of a record of the declared types. -/
def insertRecord (sha : Sha256) (record : Record) (s : Store) :
    Except VersionError Record × Store :=
  if validate sha record = false then (.error malformed, s) else insertValid record.canonical s

/-- `insert`. -/
def insert (sha : Sha256) (record : RecordObject) (s : Store) :
    Except VersionError Record × Store :=
  match record with
  | .foreign _ => (.error malformed, s)
  | .mapping members =>
    match readRecord members with
    | none => (.error malformed, s)
    | some r => insertRecord sha r s

/-! ### Merging -/

/-- What is passed to a merge. -/
inductive Other
  | foreign
  | store (s : Store)

def ready (staged : Store) (r : Record) : Bool :=
  r.parentIds.all fun p => (staged.records.lookup p).isSome

/-- `for r in ready: staged.insert(r); pending.remove(r)`. -/
def insertReady (sha : Sha256) : List Record → List Record → Store →
    Except VersionError (List Record) × Store
  | [], pending, staged => (.ok pending, staged)
  | r :: rs, pending, staged =>
    match insertRecord sha r staged with
    | (.error e, staged) => (.error e, staged)
    | (.ok _, staged) => insertReady sha rs (pending.erase r) staged

/-- The loop of `merge`; `none` when the rounds do not suffice. -/
def mergeLoop (sha : Sha256) : ℕ → List Record → Store → Option (Except VersionError Unit × Store)
  | _, [], staged => some (.ok (), staged)
  | 0, _ :: _, _ => none
  | rounds + 1, first :: pending, staged =>
    match (first :: pending).filter (ready staged) with
    | [] =>
      match insertRecord sha first staged with
      | (.error e, staged) => some (.error e, staged)
      | (.ok _, staged) => mergeLoop sha rounds (first :: pending) staged
    | rs =>
      match insertReady sha rs (first :: pending) staged with
      | (.error e, staged) => some (.error e, staged)
      | (.ok rest, staged) => mergeLoop sha rounds rest staged

def pendingOf (other : Store) : List Record :=
  (Buckets.sorted (other.records.map Prod.fst)).filterMap fun k => other.records.lookup k

/-- `merge`, with at most `rounds` rounds of its loop. -/
def merge (sha : Sha256) (rounds : ℕ) (other : Other) (s : Store) :
    Option (Except VersionError Unit × Store) :=
  match other with
  | .foreign => some (.error malformed, s)
  | .store other =>
    if (pendingOf other).all (validate sha) = false then some (.error malformed, s)
    else
      match mergeLoop sha rounds (pendingOf other) s with
      | none => none
      | some (.error e, _) => some (.error e, s)
      | some (.ok (), staged) => some (.ok (), staged)

end VersionStore
end OpenChess
