import OpenChess.Chess.LiveObject
import OpenChess.Jobs.Commit
import OpenChess.Lib.Separated

/-!
# The keyed queue

Model of `server/jobs_idempotency.py`. A request under a new key is applied to the queue,
and a receipt of it is appended to the ledger. A request under a used key is answered
with its receipt. The caller's state, ledger and request are containers on a heap that
the fingerprinter may rewrite while it runs; what was read before it ran is restored.
-/

namespace OpenChess
namespace KeyedQueue

open Jobs
open Live (Handle Objects Oracle)
open ObjectHeap.Heap (capture restore)

inductive FailureClass
  | malformedIdempotencyRequest
  | corruptQueue
  | corruptLedger
  | keyConflict
  | divergentFingerprint
  deriving DecidableEq, Repr

inductive ErrorCode
  | malformedRequest
  | corruptQueue
  | corruptLedger
  | keyConflict
  | divergentFingerprint
  | internal
  deriving DecidableEq, Repr

/-- `failures.mapping` of the contract. -/
def FailureClass.error : FailureClass → ErrorCode
  | .malformedIdempotencyRequest => .malformedRequest
  | .corruptQueue => .corruptQueue
  | .corruptLedger => .corruptLedger
  | .keyConflict => .keyConflict
  | .divergentFingerprint => .divergentFingerprint

/-- An `IdempotencyError`, or a `QueueError` of the staged transition. -/
inductive Failure
  | idempotency (cls : FailureClass)
  | queue (cls : Queue.FailureClass)
  deriving DecidableEq, Repr

/-! ### Identifiers -/

/-- `record.fields` of the contract. -/
def receiptFields : List Text :=
  ["receipt_id".toList, "idempotency_key".toList, "request_fingerprint".toList,
    "prior_state_id".toList, "state_id".toList, "sequence".toList]

def requestFields : List Text := ["idempotency_key".toList, "op".toList, "payload".toList]

def receiptTag : Text := "jir1:".toList

def tokenTag : Text := "jif1:".toList

/-- `identifiers.receipt_id.grammar`. -/
def receiptGrammar (t : Text) : Bool := Hex.tagged receiptTag 64 t

/-- `identifiers.request_fingerprint.grammar`. -/
def tokenGrammar (t : Text) : Bool := Hex.tagged tokenTag 64 t

/-- `identifiers.prior_state_id.grammar`. -/
def stateIdGrammar (t : Text) : Bool := Hex.tagged stateIdTag 64 t

/-- `identifiers.idempotency_key.grammar`. -/
def keyGrammar : Text → Bool
  | [] => false
  | c :: rest => c.isAlphanum && decide (rest.length ≤ 127) && rest.all nameChar

/-- The values of a request, in the order of the fields of its operation. -/
def valuesOf : Queue.Request → List Value
  | .enqueue key priority payload => [.str Queue.Op.enqueue.text, .str key, .int priority, payload]
  | .claim worker now leaseMs => [.str Queue.Op.claim.text, .str worker, .int now, .int leaseMs]
  | .ack worker now jobId => [.str Queue.Op.ack.text, .str jobId, .str worker, .int now]
  | .nack worker now jobId => [.str Queue.Op.nack.text, .str jobId, .str worker, .int now]

/-- The payload of a frozen request: what `_check_request` returned, without the
operation. -/
def payloadOf (q : Queue.Request) : Value := .object q.op.fields.tail (valuesOf q).tail

def queueRequest (q : Queue.Request) : PyObj := (build 0 (.object q.op.fields (valuesOf q))).1

/-- `request_fingerprint`. -/
def requestFingerprint (sha : Hex.Hash 64) (q : Queue.Request) : Text :=
  tokenTag ++ sha.hexdigest (Separated.framed "jif1".toList
    [q.op.text, Json.dumps false (payloadOf q)])

/-- `derive_receipt_id`. -/
def deriveReceiptId (sha : Hex.Hash 64) (key fingerprint priorStateId stateId : Text)
    (sequence : ℕ) : Text :=
  receiptTag ++ sha.hexdigest (['\n'].intercalate
    [key, fingerprint, priorStateId, stateId, Nat.toDigits 10 sequence])

structure Receipt where
  receiptId : Text
  idempotencyKey : Text
  requestFingerprint : Text
  priorStateId : Text
  stateId : Text
  sequence : ℕ
  deriving DecidableEq, Repr

/-! ### Validation -/

/-- An accepted request, frozen. -/
structure Request where
  key : Text
  operation : Queue.Request

/-- `dict(payload, op=op)`, for a payload without an operation. -/
def withOp (op : Text) (id : ℕ) (payload : List (Scalar × PyObj)) : PyObj :=
  .dict id (payload ++ [(.str "op".toList, .atom (.str op))])

/-- `_validate_request`, or none where it fails. -/
def validateRequest (request : PyObj) : Option Request :=
  match request.fields? requestFields with
  | some [key, .atom (.str op), .dict id payload] =>
    match key.text? keyGrammar with
    | none => none
    | some key =>
      if (Queue.opOf? op).isNone || payload.any (fun e => e.1 == .str "op".toList) then none
      else (Queue.checkRequest Queue.maxNow (withOp op id payload)).map fun q => ⟨key, q⟩
  | _ => none

/-- The body of the loop of `_validate_ledger`, after receipts with these keys and this
last state id. -/
def validateReceipt (sha : Hex.Hash 64) (seen : List Text) (prevState : Option Text)
    (index : ℕ) (receipt : PyObj) : Option Receipt :=
  match receipt.fields? receiptFields with
  | some [rid, key, token, prior, stateId, sequence] =>
    match rid.text? receiptGrammar, key.text? keyGrammar, token.text? tokenGrammar,
        prior.text? stateIdGrammar, stateId.text? stateIdGrammar, sequence.nat? index index with
    | some rid, some key, some token, some prior, some stateId, some sequence =>
      if key ∈ seen then none
      else if prevState.any (· != prior) then none
      else if rid ≠ deriveReceiptId sha key token prior stateId sequence then none
      else some ⟨rid, key, token, prior, stateId, sequence⟩
    | _, _, _, _, _, _ => none
  | _ => none

/-- The loop of `_validate_ledger`. -/
def validateReceipts (sha : Hex.Hash 64) :
    List Text → Option Text → ℕ → List PyObj → Option (List Receipt)
  | _, _, _, [] => some []
  | seen, prevState, index, receipt :: ledger =>
    match validateReceipt sha seen prevState index receipt with
    | none => none
    | some r =>
      (validateReceipts sha (r.idempotencyKey :: seen) (some r.stateId) (index + 1) ledger).map
        (r :: ·)

/-- `_validate_ledger`: the receipts, the last of them of the live state. -/
def validateLedger (sha : Hex.Hash 64) (liveStateId : Text) (ledger : PyObj) :
    Option (List Receipt) :=
  match ledger with
  | .list _ receipts =>
    match validateReceipts sha [] none 0 receipts with
    | none => none
    | some rs => if rs.getLast?.any (fun r => r.stateId != liveStateId) then none else some rs
  | _ => none

/-! ### The fingerprinter -/

/-- `_fingerprint`, on the answer of the fingerprinter; none where it fails. -/
def fingerprint (sha : Hex.Hash 64) (q : Queue.Request) : Option Value → Option Text
  | some (.str out) =>
    if tokenGrammar out = false then none
    else if out ≠ requestFingerprint sha q then none
    else some out
  | _ => none

/-! ### Settling -/

/-- An accepted request, with the state and the ledger it was validated against. -/
structure Plan where
  request : Request
  state : State
  ledger : List Receipt

/-- The checks of `apply` before the fingerprinter is called. A container of the request
is none of the state and none of the ledger. -/
def plan (sha : Hex.Hash 64) (state ledger request : PyObj) : Except FailureClass Plan :=
  match validateRequest request with
  | none => .error .malformedIdempotencyRequest
  | some q =>
    match Queue.checkState state with
    | none => .error .corruptQueue
    | some s =>
      match validateLedger sha (stateIdFor sha s) ledger with
      | none => .error .corruptLedger
      | some rs =>
        if (Payload.trail request).any fun p =>
            (Payload.trail state).contains p || (Payload.trail ledger).contains p then
          .error .malformedIdempotencyRequest
        else .ok ⟨q, s, rs⟩

def Plan.stored (p : Plan) : Option Receipt :=
  p.ledger.reverse.find? fun r => r.idempotencyKey == p.request.key

def Plan.receipt (sha : Hex.Hash 64) (p : Plan) (token : Text) (staged : State) : Receipt :=
  ⟨deriveReceiptId sha p.request.key token (stateIdFor sha p.state) (stateIdFor sha staged)
      p.ledger.length,
    p.request.key, token, stateIdFor sha p.state, stateIdFor sha staged, p.ledger.length⟩

/-- The `try` block: the receipt, and the staged state under a new key. The transition
works on a copy of the frozen state. -/
def Plan.settle (sha : Hex.Hash 64) (p : Plan) (answer : Option Value) :
    Except Failure (Receipt × Option State) :=
  match fingerprint sha p.request.operation answer with
  | none => .error (.idempotency .divergentFingerprint)
  | some token =>
    match p.stored with
    | some stored =>
      if stored.requestFingerprint ≠ token then .error (.idempotency .keyConflict)
      else .ok (stored, none)
    | none =>
      match Queue.apply sha p.state.copy.copy.object (queueRequest p.request.operation) with
      | .error e => .error (.queue e)
      | .ok (staged, _) => .ok (p.receipt sha token staged, some staged)

inductive Outcome
  | applied
  | replayed
  deriving DecidableEq, Repr

structure Result where
  outcome : Outcome
  receipt : Receipt
  deriving DecidableEq, Repr

/-! ### Live objects -/

/-- The containers of a state, of a ledger and of a request are within this depth. -/
def liveDepth : ℕ := Queue.maxDepth + 3

def read (h : Objects) (r : Handle) : PyObj := PyObj.unfold h liveDepth r

mutual

/-- A value as new objects, as `json.loads` makes them. -/
def store : Value → Objects → Handle × Objects
  | .null, h => (.atom .null, h)
  | .bool b, h => (.atom (.bool b), h)
  | .int n, h => (.atom (.int n), h)
  | .float finite text, h => (.atom (.float finite text), h)
  | .str t, h => (.atom (.str t), h)
  | .foreign tag, h => (.atom (.foreign tag), h)
  | .list items, h =>
    (.ptr (storeItems items h).2.next,
      (storeItems items h).2.alloc (.list (storeItems items h).1))
  | .dict entries, h =>
    (.ptr (storeMembers entries h).2.next,
      (storeMembers entries h).2.alloc (.dict (storeMembers entries h).1))

def storeItems : List Value → Objects → List Handle × Objects
  | [], h => ([], h)
  | v :: items, h =>
    ((store v h).1 :: (storeItems items (store v h).2).1, (storeItems items (store v h).2).2)

def storeMembers : List (Scalar × Value) → Objects → List (Scalar × Handle) × Objects
  | [], h => ([], h)
  | (k, v) :: entries, h =>
    ((k, (store v h).1) :: (storeMembers entries (store v h).2).1,
      (storeMembers entries (store v h).2).2)

end

/-- `state.clear()` and `state.update(staged)`. -/
def writeState (state : Handle) (staged : State) (h : Objects) : Objects :=
  match state with
  | .atom _ => h
  | .ptr p =>
    let jobs := store (.list (staged.jobs.map Job.toValue)) h
    jobs.2.set p (Live.dict stateFields [jobs.1, .atom (.int staged.nextSeq)])

/-- `ledger.append(dict(receipt))`. -/
def pushReceipt (ledger : Handle) (r : Receipt) (h : Objects) : Objects :=
  Live.push ledger (.ptr h.next) (h.alloc (Live.dict receiptFields
    [Live.text r.receiptId, Live.text r.idempotencyKey, Live.text r.requestFingerprint,
      Live.text r.priorStateId, Live.text r.stateId, .atom (.int r.sequence)]))

/-- The containers `_snapshot` captures. -/
def containers (h : Objects) (state ledger request : Handle) : List ℕ :=
  Payload.trail (read h state) ++ Payload.trail (read h ledger) ++ Payload.trail (read h request)

/-- `JobsIdempotencyEngine.apply`. -/
def apply (sha : Hex.Hash 64) (o : Oracle Queue.Request) (state ledger request : Handle)
    (h : Objects) : Except Failure Result × Objects :=
  match plan sha (read h state) (read h ledger) (read h request) with
  | .error e => (.error (.idempotency e), h)
  | .ok p =>
    let saved := capture h (containers h state ledger request)
    let h' := restore saved (o.call 0 p.request.operation h).2
    match p.settle sha (o.call 0 p.request.operation h).1 with
    | .error e => (.error e, h')
    | .ok (receipt, none) => (.ok ⟨.replayed, receipt⟩, h')
    | .ok (receipt, some staged) =>
      (.ok ⟨.applied, receipt⟩, pushReceipt ledger receipt (writeState state staged h'))

end KeyedQueue
end OpenChess
