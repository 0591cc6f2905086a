import OpenChess.Privacy.SensitiveFlag

/-!
# The cloud switch

Model of `desktop/privacy/cloud_off.py`. An install is off until a transition with an opt-in
turns it on; a cloud verdict asks for the switch first and for the flag of the collection
after it.
-/

namespace OpenChess
namespace Privacy

inductive CloudFailure
  | malformedCloudRequest
  | unknownInstall
  | staleRevision
  | optInMissing
  | cloudModeOff
  | collectionSensitive
  | revisionExhausted
  deriving DecidableEq, Repr

def optInOk : Text → Bool := Hex.tagged "opt1:".toList 64

def optInParts (install : Text) (expected : ℕ) : List Text :=
  [install, Nat.toDigits 10 expected, "on".toList]

/-- `opt_in_for`. -/
def optInFor (sha : Hex.Hash 64) (install : Text) (expected : ℕ) : Text :=
  boundToken sha "opt1:".toList (optInParts install expected)

inductive Mode
  | off
  | on
  deriving DecidableEq, Repr

def Mode.text : Mode → Text
  | .off => "off".toList
  | .on => "on".toList

/-- `_MODES`. -/
def modes : List Mode := [.off, .on]

def readMode (v : Value) : Option Mode := v.text?.bind fun t => modes.find? fun m => m.text == t

/-- The state of an install. -/
structure Switch where
  mode : Mode
  revision : ℕ
  deriving DecidableEq, Repr

abbrev Switches := Dict Text Switch

/-- `record`. -/
def Switch.record (c : Switch) (install : Text) : Value :=
  Value.object ["install_id".toList, "cloud_mode".toList, "revision".toList]
    [.str install, .str c.mode.text, .int c.revision]

/-- `register`. -/
def registerInstall (cells : Switches) (id : Value) : Except CloudFailure (Value × Switches) :=
  match readId installOk id with
  | none => .error .malformedCloudRequest
  | some install =>
    .ok (((cells.lookup install).getD ⟨.off, 0⟩).record install,
      Cells.setDefault cells install ⟨.off, 0⟩)

/-- `reads_off`. -/
def readsOff (cells : Switches) (install : Text) : Bool :=
  match cells.lookup install with
  | none => true
  | some c => decide (c.mode ≠ .on)

/-- `verdict`. -/
def cloudVerdict (cells : Switches) (flags : Flags) (req : Value) : Except CloudFailure Unit :=
  match req.fields? ["install_id".toList, "collection_id".toList, "destination".toList] with
  | some [install, collection, destination] =>
    match readId installOk install, readId collectionOk collection,
        readDestination destination with
    | some install, some collection, some destination =>
      if destination = .localOnly then .ok ()
      else if readsOff cells install = true then .error .cloudModeOff
      else if readsSensitive flags collection = true then .error .collectionSensitive
      else .ok ()
    | _, _, _ => .error .malformedCloudRequest
  | _ => .error .malformedCloudRequest

/-! ### Changes -/

structure CloudRequest where
  install : Text
  target : Mode
  expected : ℕ
  token : Option Text

def readCloudTransition (req : Value) : Option CloudRequest :=
  match req.fields? ["install_id".toList, "cloud_mode".toList, "expected_revision".toList,
      "opt_in".toList] with
  | some [install, target, expected, optIn] =>
    match readId installOk install, readMode target, readRev expected, readToken optInOk optIn with
    | some install, some target, some expected, some token => some ⟨install, target, expected, token⟩
    | _, _, _, _ => none
  | _ => none

/-- `_opt_in_ok`. -/
def CloudRequest.approved (sha : Hex.Hash 64) (r : CloudRequest) : Bool :=
  decide (r.token = some (optInFor sha r.install r.expected))

/-- `transition`, on the state of the install. -/
def Switch.transition (approved : Bool) (expected : ℕ) (target : Mode) (c : Switch) :
    Except CloudFailure Switch :=
  if expected ≠ c.revision then .error .staleRevision
  else if target = c.mode then .ok c
  else if target = .on ∧ approved = false then .error .optInMissing
  else
    match bump c.revision with
    | none => .error .revisionExhausted
    | some revision => .ok ⟨target, revision⟩

/-- `transition`. -/
def cloudTransition (sha : Hex.Hash 64) (cells : Switches) (req : Value) :
    Except CloudFailure (Value × Switches) :=
  match readCloudTransition req with
  | none => .error .malformedCloudRequest
  | some r =>
    match Cells.update cells r.install .unknownInstall
        (Switch.transition (r.approved sha) r.expected r.target) with
    | .error e => .error e
    | .ok (c, cells') => .ok (c.record r.install, cells')

variable {approved : Bool} {expected : ℕ} {target : Mode} {c c' : Switch}

/-- What a transition writes: nothing where the install has that mode, and else the mode with
the next revision; an opt-in where it turns the install on. -/
theorem Switch.of_transition (h : c.transition approved expected target = .ok c') :
    expected = c.revision ∧ (c' = c ∨ target ≠ c.mode ∧ (target = .on → approved = true) ∧
      c.revision < maxRev ∧ c' = ⟨target, c.revision + 1⟩) := by
  unfold Switch.transition at h
  split_ifs at h with hexpected hsame happroval
  · exact ⟨not_not.mp hexpected, Or.inl (Except.ok.inj h).symm⟩
  · split at h
    · cases h
    · rename_i n hbump
      obtain ⟨hlt, rfl⟩ := bump_eq_some.mp hbump
      exact ⟨not_not.mp hexpected, Or.inr ⟨hsame, approved_of_not happroval, hlt,
        (Except.ok.inj h).symm⟩⟩

end Privacy
end OpenChess
