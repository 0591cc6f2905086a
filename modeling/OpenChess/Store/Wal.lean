import OpenChess.Graph.Diff
import OpenChess.Lib.HashChain

/-!
# The write-ahead log

Model of `store/wal.py` on values. The canonicalizer is untrusted: a call of it
may raise or return anything, and the calls of one operation are numbered.
Validation reads the whole log before the first call.
-/

namespace OpenChess
namespace Wal

open PositionDigest (Sha256)
open TranspositionNode (Record)

inductive FailureClass
  | malformedWalEntry
  | unknownOperation
  | sequenceConflict
  | corruptChain
  | divergentCanonicalization
  deriving DecidableEq, Repr

inductive ErrorCode
  | malformedRequest
  | unknownOperation
  | sequenceConflict
  | corruptChain
  | divergentCanonicalization
  | internal
  deriving DecidableEq, Repr

/-- `failures.mapping` of the contract. -/
def FailureClass.error : FailureClass → ErrorCode
  | .malformedWalEntry => .malformedRequest
  | .unknownOperation => .unknownOperation
  | .sequenceConflict => .sequenceConflict
  | .corruptChain => .corruptChain
  | .divergentCanonicalization => .divergentCanonicalization

/-- A `WalError`, or an error of the state id in `replay`. -/
inductive Failure
  | wal (cls : FailureClass)
  | diff (cls : Diff.FailureClass)
  deriving DecidableEq, Repr

/-! ### Entries -/

inductive Op
  | put
  | delete
  deriving DecidableEq, Repr

def Op.text : Op → Text
  | .put => "put".toList
  | .delete => "delete".toList

/-- `registry.operations` of the contract. -/
def ops : List Op := [.put, .delete]

def opOf? (t : Text) : Option Op := ops.find? fun op => op.text == t

/-- An entry, its sequence number the position it was validated at. -/
structure Entry where
  entryId : Text
  sequence : ℕ
  op : Op
  identity : Text
  record : Record
  prior : Text
  deriving DecidableEq, Repr

/-- `record.fields` of the contract. -/
def entryFields : List Text :=
  ["entry_id".toList, "sequence".toList, "op".toList, "payload".toList, "prior_entry_id".toList]

/-- `payload_fields` of both operations. -/
def payloadFields : List Text := ["identity".toList, "record".toList]

def requestFields : List Text := ["op".toList, "payload".toList]

def payloadValue (identity : Text) (record : Record) : Value :=
  .object payloadFields [.str identity, Node.recordValue record]

def Entry.toValue (e : Entry) : Value :=
  .object entryFields [.str e.entryId, .int e.sequence, .str e.op.text,
    payloadValue e.identity e.record, .str e.prior]

/-! ### Identifiers -/

def genesis : Text := "wal0:".toList ++ List.replicate 64 '0'

def entryTag : Text := "wal1:".toList

/-- `identifiers.entry_id.grammar`. -/
def entryGrammar (t : Text) : Bool := Hex.tagged entryTag 64 t

/-- `identifiers.prior_entry_id.grammar`. -/
def priorGrammar (t : Text) : Bool := t == genesis || entryGrammar t

/-- `canonical_payload`. -/
def canonicalPayload (identity : Text) (record : Record) : Text :=
  ['\n'].intercalate [identity, record.variant, record.digest, record.snapshotFen]

/-- The text hashed by `_derive_entry_id`. -/
def entryText (sequence : ℕ) (op : Op) (canonical prior : Text) : Text :=
  ['\n'].intercalate [Nat.toDigits 10 sequence, op.text, canonical, prior]

/-- `_derive_entry_id`. -/
def deriveEntryId (sha : Sha256) (sequence : ℕ) (op : Op) (canonical prior : Text) : Text :=
  entryTag ++ sha.hexdigest (entryText sequence op canonical prior)

/-! ### Validation -/

/-- `_validate_record`; `none` where it fails. -/
def validateRecord (sha : Sha256) (v : Value) : Option (Text × Record) :=
  match Node.readRecord v with
  | none => none
  | some r =>
    match Node.makeRecord sha (.str r.variant) (.str r.snapshotFen) with
    | .error _ => none
    | .ok derived =>
      match Node.recordIdentity sha derived with
      | none => none
      | some identity => if r ≠ derived then none else some (identity, r)

/-- `_validate_payload`; the payload fields of both operations are the same. -/
def validatePayload (sha : Sha256) (payload : Value) : Except FailureClass (Text × Record) :=
  match payload.fields? payloadFields with
  | some [.str identity, record] =>
    match validateRecord sha record with
    | none => .error .malformedWalEntry
    | some (derived, r) =>
      if derived ≠ identity then .error .malformedWalEntry else .ok (identity, r)
  | _ => .error .malformedWalEntry

/-- `_validate_entry`, which here returns the frozen entry. -/
def validateEntry (sha : Sha256) (position : ℕ) (tip : Text) (entry : Value) :
    Except FailureClass Entry :=
  match entry.fields? entryFields with
  | some [entryId, sequence, .str op, payload, prior] =>
    match opOf? op with
    | none => .error .unknownOperation
    | some op =>
      match sequence with
      | .int sequence =>
        if sequence ≠ position then .error .sequenceConflict
        else
          match entryId, prior with
          | .str entryId, .str prior =>
            if entryGrammar entryId = false ∨ priorGrammar prior = false then
              .error .malformedWalEntry
            else if prior ≠ tip then .error .corruptChain
            else
              match validatePayload sha payload with
              | .error e => .error e
              | .ok (identity, record) =>
                .ok ⟨entryId, position, op, identity, record, prior⟩
          | _, _ => .error .malformedWalEntry
      | _ => .error .malformedWalEntry
  | _ => .error .malformedWalEntry

/-- The loop of `_validate_log`, from a position and a tip. -/
def validateFrom (sha : Sha256) : ℕ → Text → List Value → Except FailureClass (List Entry)
  | _, _, [] => .ok []
  | position, tip, entry :: log =>
    match validateEntry sha position tip entry with
    | .error e => .error e
    | .ok e => (validateFrom sha (position + 1) e.entryId log).map (e :: ·)

/-- `_validate_log`, with the frozen log. -/
def validateLog (sha : Sha256) (log : List Value) : Except FailureClass (List Entry) :=
  validateFrom sha 1 genesis log

/-- The operation of an accepted request. -/
structure Request where
  op : Op
  identity : Text
  record : Record
  deriving DecidableEq, Repr

/-- The checks of `append` on its request. -/
def validateRequest (sha : Sha256) (request : Value) : Except FailureClass Request :=
  match request.fields? requestFields with
  | some [.str op, payload] =>
    match opOf? op with
    | none => .error .unknownOperation
    | some op =>
      match validatePayload sha payload with
      | .error e => .error e
      | .ok (identity, record) => .ok ⟨op, identity, record⟩
  | _ => .error .malformedWalEntry

/-! ### The canonicalizer -/

/-- One call of the canonicalizer; `none` where it raises. -/
abbrev Canonicalizer := Text → Record → Option Value

/-- `_canonicalize`. A text without UTF-8 form is no `Value.str`. -/
def canonicalize (o : Canonicalizer) (identity : Text) (record : Record) :
    Except FailureClass Text :=
  match o identity record with
  | some (.str t) => .ok t
  | _ => .error .divergentCanonicalization

def pure (canon : Text → Record → Text) : ℕ → Canonicalizer :=
  fun _ identity record => some (.str (canon identity record))

def tipOf (frozen : List Entry) : Text := HashChain.tipOf Entry.entryId genesis frozen

/-- The loop of `_rederive`. -/
def rederive (sha : Sha256) (calls : ℕ → Canonicalizer) : List Entry → Except FailureClass Unit
  | [] => .ok ()
  | e :: frozen =>
    match canonicalize (calls 0) e.identity e.record with
    | .error err => .error err
    | .ok canonical =>
      if deriveEntryId sha e.sequence e.op canonical e.prior ≠ e.entryId then
        .error .corruptChain
      else rederive sha (fun n => calls (n + 1)) frozen

/-! ### Operations -/

/-- The `try` block of `append`: the staged entry. -/
def stage (sha : Sha256) (calls : ℕ → Canonicalizer) (frozen : List Entry) (request : Request) :
    Except FailureClass Entry :=
  match rederive sha calls frozen with
  | .error e => .error e
  | .ok () =>
    match canonicalize (calls frozen.length) request.identity request.record with
    | .error e => .error e
    | .ok canonical =>
      .ok ⟨deriveEntryId sha (frozen.length + 1) request.op canonical (tipOf frozen),
        frozen.length + 1, request.op, request.identity, request.record, tipOf frozen⟩

/-- `append`: the log it leaves and the receipt. -/
def append (sha : Sha256) (calls : ℕ → Canonicalizer) (log request : Value) :
    Except FailureClass (Value × Entry) :=
  match log with
  | .list entries =>
    match validateRequest sha request with
    | .error e => .error e
    | .ok request =>
      match validateLog sha entries with
      | .error e => .error e
      | .ok frozen =>
        match stage sha calls frozen request with
        | .error e => .error e
        | .ok staged => .ok (.list (entries ++ [staged.toValue]), staged)
  | _ => .error .malformedWalEntry

/-- The body of the fold of `replay`. -/
def Op.apply (op : Op) (identity : Text) (record : Record) (state : Diff.State) : Diff.State :=
  match op with
  | .put => state.insert identity record
  | .delete => state.erase identity

/-- The fold of `replay`. -/
def fold (frozen : List Entry) : Diff.State :=
  frozen.foldl (fun state e => e.op.apply e.identity e.record state) ∅

structure Receipt where
  state : Diff.State
  stateId : Text
  head : Text
  applied : ℕ

/-- The `try` block of `replay`. -/
def derive (sha : Sha256) (calls : ℕ → Canonicalizer) (frozen : List Entry) :
    Except Failure Receipt :=
  match rederive sha calls frozen with
  | .error e => .error (.wal e)
  | .ok () =>
    match Diff.stateId sha (fold frozen) with
    | .error e => .error (.diff e)
    | .ok id => .ok ⟨fold frozen, id, tipOf frozen, frozen.length⟩

/-- `replay`. -/
def replay (sha : Sha256) (calls : ℕ → Canonicalizer) (log : Value) : Except Failure Receipt :=
  match log with
  | .list entries =>
    match validateLog sha entries with
    | .error e => .error (.wal e)
    | .ok frozen => derive sha calls frozen
  | _ => .error (.wal .malformedWalEntry)

end Wal
end OpenChess
