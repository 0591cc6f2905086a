import OpenChess.Graph.Snapshot

/-!
# Differences of graph states

Model of `graph/diff.py`. A state maps identity keys to node records. A caller's
states and differences are read with the checks of the source before anything
else looks at them, and the members of a difference keep their order, because the
first refused member decides the failure.
-/

namespace OpenChess
namespace Diff

open PositionDigest (Sha256 digestFormat)
open TranspositionNode (Record)
open Node (readRecord recordValue)

inductive FailureClass
  | malformedDiffRecord
  | conflictingBase
  | unknownIdentity
  | divergentTarget
  deriving DecidableEq, Repr

inductive ErrorCode
  | malformedRequest
  | conflictingBase
  | unknownIdentity
  | internal
  deriving DecidableEq, Repr

/-- `failures.mapping` of the contract. -/
def FailureClass.error : FailureClass → ErrorCode
  | .malformedDiffRecord | .divergentTarget => .malformedRequest
  | .conflictingBase => .conflictingBase
  | .unknownIdentity => .unknownIdentity

/-! ### States -/

abbrev State := Dict Text Record

/-- `_record_identity` past the shape of the record; `none` where it fails. -/
def recordIdentity (sha : Sha256) (r : Record) : Option Text :=
  if digestFormat r.digest = false then none
  else
    match r.snapshotFen.splitOn ' ' with
    | [_, _, _, _, half, full] =>
      if half ≠ ['0'] ∨ full ≠ ['1'] then none
      else
        match VariantRuntime.parsePosition (.str r.variant) (.str r.snapshotFen) with
        | .error _ => none
        | .ok position =>
          match VariantRuntime.identity position with
          | .error _ => none
          | .ok projection =>
            match PositionDigest.digestFen sha (.str r.variant) (.str r.snapshotFen) with
            | .error _ => none
            | .ok expected => if r.digest ≠ expected then none else some (Node.key projection)
    | _ => none

/-- A record whose identity is the key it stands under. -/
def readEntry (sha : Sha256) (key : Text) (v : Value) : Option Record :=
  match readRecord v with
  | none => none
  | some r => if recordIdentity sha r = some key then some r else none

def readEntries (sha : Sha256) (v : Value) : Option (List (Text × Record)) :=
  v.readMembers (readEntry sha)

/-- `_validate_state`. -/
def validateState (sha : Sha256) (v : Value) : Except FailureClass State :=
  match readEntries sha v with
  | none => .error .malformedDiffRecord
  | some entries => .ok (Dict.ofList entries)

/-- `"|".join(f"{field}={record[field]}" for field in sorted(record))`. -/
def recordText (r : Record) : Text :=
  ['|'].intercalate ["digest=".toList ++ r.digest, "snapshot_fen=".toList ++ r.snapshotFen,
    "variant=".toList ++ r.variant]

def stateText (s : State) : Text :=
  s.items.flatMap fun e => e.1 ++ ['\n'] ++ recordText e.2 ++ ['\n']

def tag : Text := ['g', 's', '1', ':']

def contentId (sha : Sha256) (s : State) : Text := tag ++ sha.hexdigest (stateText s)

/-- `state_id`, which validates the state again. -/
def stateId (sha : Sha256) (s : State) : Except FailureClass Text :=
  if s.items.all (fun e => recordIdentity sha e.2 == some e.1) then .ok (contentId sha s)
  else .error .malformedDiffRecord

def stateValue (s : State) : Value :=
  .ofMembers (s.items.map fun e => (e.1, recordValue e.2))

/-! ### Differences -/

structure Witness where
  base : Record
  target : Record
  deriving DecidableEq, Repr

/-- A difference as `compute` returns it. -/
structure Difference where
  baseId : Text
  targetId : Text
  added : State
  removed : State
  changed : Dict Text Witness

/-- `{key: s[key] for key in s if key not in t}`. -/
def without (s t : State) : State :=
  Dict.collect s.keys fun k => if k ∈ t then none else s.lookup k

/-- The unequal records under common keys. -/
def changes (base target : State) : Dict Text Witness :=
  Dict.collect base.keys fun k =>
    match base.lookup k, target.lookup k with
    | some r, some r' => if r ≠ r' then some ⟨r, r'⟩ else none
    | _, _ => none

/-- `compute`. -/
def compute (sha : Sha256) (base target : Value) : Except FailureClass Difference := do
  let base ← validateState sha base
  let target ← validateState sha target
  let baseId ← stateId sha base
  let targetId ← stateId sha target
  return ⟨baseId, targetId, without target base, without base target, changes base target⟩

def diffFields : List Text :=
  ["base_id".toList, "target_id".toList, "added".toList, "removed".toList, "changed".toList]

def witnessFields : List Text := ["base".toList, "target".toList]

def witnessValue (w : Witness) : Value :=
  .object witnessFields [recordValue w.base, recordValue w.target]

def Difference.toValue (d : Difference) : Value :=
  .object diffFields [.str d.baseId, .str d.targetId, stateValue d.added, stateValue d.removed,
    .ofMembers (d.changed.items.map fun e => (e.1, witnessValue e.2))]

/-- A caller's difference, its members in their order. -/
structure Reading where
  baseId : Text
  targetId : Text
  added : List (Text × Record)
  removed : List (Text × Record)
  changed : List (Text × Witness)

def Reading.difference (d : Reading) : Difference :=
  ⟨d.baseId, d.targetId, Dict.ofList d.added, Dict.ofList d.removed, Dict.ofList d.changed⟩

/-- `_STATE_ID`. -/
def isStateId (t : Text) : Bool := Hex.tagged tag 64 t

/-- A pair of unequal records under their common identity. -/
def readWitness (sha : Sha256) (key : Text) (v : Value) : Option Witness :=
  match v.fields? witnessFields with
  | some [base, target] =>
    match readEntry sha key base, readEntry sha key target with
    | some base, some target => if base = target then none else some ⟨base, target⟩
    | _, _ => none
  | _ => none

def readChanged (sha : Sha256) (v : Value) : Option (List (Text × Witness)) :=
  v.readMembers (readWitness sha)

/-- The five fields, before the sections are compared. -/
def readFields (sha : Sha256) (v : Value) : Option Reading :=
  match v.fields? diffFields with
  | some [.str baseId, .str targetId, added, removed, changed] =>
    if isStateId baseId = false ∨ isStateId targetId = false then none
    else
      match readEntries sha added, readEntries sha removed, readChanged sha changed with
      | some added, some removed, some changed => some ⟨baseId, targetId, added, removed, changed⟩
      | _, _, _ => none
  | _ => none

/-- No identity occurs in two sections. -/
def Reading.Disjoint (d : Reading) : Prop :=
  (∀ e ∈ d.added, e.1 ∉ d.removed.map Prod.fst ∧ e.1 ∉ d.changed.map Prod.fst) ∧
    ∀ e ∈ d.removed, e.1 ∉ d.changed.map Prod.fst

instance (d : Reading) : Decidable d.Disjoint :=
  inferInstanceAs (Decidable (_ ∧ _))

def Reading.Empty (d : Reading) : Prop := d.added = [] ∧ d.removed = [] ∧ d.changed = []

instance (d : Reading) : Decidable d.Empty :=
  inferInstanceAs (Decidable (_ ∧ _))

/-- `validate_diff`. -/
def validateDiff (sha : Sha256) (v : Value) : Except FailureClass Reading :=
  match readFields sha v with
  | none => .error .malformedDiffRecord
  | some d =>
    if ¬ d.Disjoint then .error .malformedDiffRecord
    else if d.Empty ∧ d.baseId ≠ d.targetId then .error .divergentTarget
    else if ¬ d.Empty ∧ d.baseId = d.targetId then .error .malformedDiffRecord
    else .ok d

/-- The checks of a section of `apply`: every member stands in the base as it is. -/
def checkHeld (s : State) : List (Text × Record) → Except FailureClass Unit
  | [] => .ok ()
  | (k, r) :: members =>
    match s.lookup k with
    | none => .error .unknownIdentity
    | some held => if held ≠ r then .error .conflictingBase else checkHeld s members

/-- The staged copy after the three update loops. -/
def Reading.stage (d : Reading) (base : State) : State :=
  Dict.insertAll d.added (Dict.insertAll (d.changed.map fun e => (e.1, e.2.target))
    (Dict.eraseAll (d.removed.map Prod.fst) base))

/-- `apply`. -/
def apply (sha : Sha256) (diff base : Value) : Except FailureClass State := do
  let d ← validateDiff sha diff
  let base ← validateState sha base
  let baseId ← stateId sha base
  if baseId ≠ d.baseId ∨ ∃ e ∈ d.added, e.1 ∈ base then throw .conflictingBase
  checkHeld base d.removed
  checkHeld base (d.changed.map fun e => (e.1, e.2.base))
  let targetId ← stateId sha (d.stage base)
  if targetId ≠ d.targetId then throw .divergentTarget
  return d.stage base

end Diff
end OpenChess
