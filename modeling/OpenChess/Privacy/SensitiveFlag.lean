import OpenChess.Privacy.Request

/-!
# Sensitive collections

Model of `desktop/privacy/sensitive_flag.py`. A collection is sensitive until a transition
or a rollback with an approval lowers its flag; each change raises the revision.
-/

namespace OpenChess
namespace Privacy

inductive FlagFailure
  | malformedFlagRequest
  | unknownCollection
  | staleRevision
  | approvalMissing
  | egressBlocked
  | emptyHistory
  | revisionExhausted
  deriving DecidableEq, Repr

def flagApprovalOk : Text → Bool := Hex.tagged "apv1:".toList 64

def flagParts (collection : Text) (expected : ℕ) : List Text :=
  [collection, Nat.toDigits 10 expected, "false".toList]

/-- `approval_for`. -/
def approvalFor (sha : Hex.Hash 64) (collection : Text) (expected : ℕ) : Text :=
  boundToken sha "apv1:".toList (flagParts collection expected)

/-- The state of a collection. -/
structure Flag where
  sensitive : Bool
  revision : ℕ
  history : List Bool
  deriving DecidableEq, Repr

abbrev Flags := Dict Text Flag

/-- `record`. -/
def Flag.record (c : Flag) (collection : Text) : Value :=
  Value.object ["collection_id".toList, "sensitive".toList, "revision".toList, "prior".toList]
    [.str collection, .bool c.sensitive, .int c.revision,
      (c.history.getLast?.map Value.bool).getD .null]

/-- `register`. -/
def registerCollection (cells : Flags) (id : Value) : Except FlagFailure (Value × Flags) :=
  match readId collectionOk id with
  | none => .error .malformedFlagRequest
  | some collection =>
    .ok (((cells.lookup collection).getD ⟨true, 0, []⟩).record collection,
      Cells.setDefault cells collection ⟨true, 0, []⟩)

/-- `reads_sensitive`. -/
def readsSensitive (cells : Flags) (collection : Text) : Bool :=
  match cells.lookup collection with
  | none => true
  | some c => c.sensitive

/-! ### Requests -/

inductive Destination
  | localOnly
  | cloud
  deriving DecidableEq, Repr

def Destination.text : Destination → Text
  | .localOnly => "local".toList
  | .cloud => "cloud".toList

def destinations : List Destination := [.localOnly, .cloud]

def readDestination (v : Value) : Option Destination :=
  v.text?.bind fun t => destinations.find? fun d => d.text == t

structure FlagRequest where
  collection : Text
  expected : ℕ
  token : Option Text

/-- `_approval_ok`. -/
def FlagRequest.approved (sha : Hex.Hash 64) (r : FlagRequest) : Bool :=
  decide (r.token = some (approvalFor sha r.collection r.expected))

/-- The common members of a transition and a rollback. -/
def readFlag (collection expected approval : Value) : Option FlagRequest :=
  match readId collectionOk collection, readRev expected, readToken flagApprovalOk approval with
  | some collection, some expected, some token => some ⟨collection, expected, token⟩
  | _, _, _ => none

def readFlagTransition (req : Value) : Option (FlagRequest × Bool) :=
  match req.fields? ["collection_id".toList, "sensitive".toList, "expected_revision".toList,
      "approval".toList] with
  | some [collection, .bool sensitive, expected, approval] =>
    (readFlag collection expected approval).map fun r => (r, sensitive)
  | _ => none

def readRollback (req : Value) : Option FlagRequest :=
  match req.fields? ["collection_id".toList, "expected_revision".toList, "approval".toList] with
  | some [collection, expected, approval] => readFlag collection expected approval
  | _ => none

/-- `verdict`. -/
def flagVerdict (cells : Flags) (req : Value) : Except FlagFailure Unit :=
  match req.fields? ["collection_id".toList, "destination".toList] with
  | some [collection, destination] =>
    match readId collectionOk collection, readDestination destination with
    | some collection, some destination =>
      if destination = .cloud ∧ readsSensitive cells collection = true then .error .egressBlocked
      else .ok ()
    | _, _ => .error .malformedFlagRequest
  | _ => .error .malformedFlagRequest

/-! ### Changes -/

/-- `_apply`, on the state of the collection. -/
def Flag.apply (approved : Bool) (expected : ℕ) (target : Bool) (c : Flag) :
    Except FlagFailure Flag :=
  if expected ≠ c.revision then .error .staleRevision
  else if target = c.sensitive then .ok c
  else if target = false ∧ approved = false then .error .approvalMissing
  else
    match bump c.revision with
    | none => .error .revisionExhausted
    | some revision => .ok ⟨target, revision, c.history ++ [c.sensitive]⟩

/-- `rollback`, on the state of the collection. -/
def Flag.rollback (approved : Bool) (expected : ℕ) (c : Flag) : Except FlagFailure Flag :=
  if expected ≠ c.revision then .error .staleRevision
  else
    match c.history.getLast? with
    | none => .error .emptyHistory
    | some target =>
      if target = false ∧ approved = false then .error .approvalMissing
      else
        match bump c.revision with
        | none => .error .revisionExhausted
        | some revision => .ok ⟨target, revision, c.history.dropLast⟩

/-- `transition`. -/
def flagTransition (sha : Hex.Hash 64) (cells : Flags) (req : Value) :
    Except FlagFailure (Value × Flags) :=
  match readFlagTransition req with
  | none => .error .malformedFlagRequest
  | some (r, target) =>
    match Cells.update cells r.collection .unknownCollection
        (Flag.apply (r.approved sha) r.expected target) with
    | .error e => .error e
    | .ok (c, cells') => .ok (c.record r.collection, cells')

/-- `rollback`. -/
def flagRollback (sha : Hex.Hash 64) (cells : Flags) (req : Value) :
    Except FlagFailure (Value × Flags) :=
  match readRollback req with
  | none => .error .malformedFlagRequest
  | some r =>
    match Cells.update cells r.collection .unknownCollection
        (Flag.rollback (r.approved sha) r.expected) with
    | .error e => .error e
    | .ok (c, cells') => .ok (c.record r.collection, cells')

variable {approved target : Bool} {expected : ℕ} {c c' : Flag}

/-- What a transition writes: nothing where the flag has that value, and else the value with
the next revision; an approval where it lowers the flag. -/
theorem Flag.of_apply (h : c.apply approved expected target = .ok c') : expected = c.revision ∧
    (c' = c ∨ target ≠ c.sensitive ∧ (target = false → approved = true) ∧ c.revision < maxRev ∧
      c' = ⟨target, c.revision + 1, c.history ++ [c.sensitive]⟩) := by
  unfold Flag.apply at h
  split_ifs at h with hexpected hsame happroval
  · exact ⟨not_not.mp hexpected, Or.inl (Except.ok.inj h).symm⟩
  · split at h
    · cases h
    · rename_i n hbump
      obtain ⟨hlt, rfl⟩ := bump_eq_some.mp hbump
      exact ⟨not_not.mp hexpected, Or.inr ⟨hsame, approved_of_not happroval, hlt,
        (Except.ok.inj h).symm⟩⟩

/-- What a rollback writes: the last value of the history with the next revision. -/
theorem Flag.of_rollback (h : c.rollback approved expected = .ok c') : expected = c.revision ∧
    ∃ target, c.history.getLast? = some target ∧ (target = false → approved = true) ∧
      c.revision < maxRev ∧ c' = ⟨target, c.revision + 1, c.history.dropLast⟩ := by
  unfold Flag.rollback at h
  split_ifs at h with hexpected
  split at h
  · cases h
  · rename_i target htarget
    split_ifs at h with happroval
    split at h
    · cases h
    · rename_i n hbump
      obtain ⟨hlt, rfl⟩ := bump_eq_some.mp hbump
      exact ⟨not_not.mp hexpected, target, htarget, approved_of_not happroval, hlt,
        (Except.ok.inj h).symm⟩

end Privacy
end OpenChess
