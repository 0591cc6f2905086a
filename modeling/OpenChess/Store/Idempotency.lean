import OpenChess.Lib.Separated
import OpenChess.Store.Wal
import OpenChess.Store.WalSpec

/-!
# Keyed appends

Model of `store/idempotency.py` on values. A request under a new key is appended to
the log, and a receipt of it to the ledger. A request under a used key is answered
with its receipt. The fingerprinter is untrusted: its token is compared with the one
derived here.
-/

namespace OpenChess
namespace Idempotency

open PositionDigest (Sha256)
open TranspositionNode (Record)
open Wal (Entry Op)

inductive FailureClass
  | malformedIdempotencyRequest
  | corruptSource
  | corruptLedger
  | keyConflict
  | divergentFingerprint
  deriving DecidableEq, Repr

inductive ErrorCode
  | malformedRequest
  | corruptSource
  | corruptLedger
  | keyConflict
  | divergentFingerprint
  | internal
  deriving DecidableEq, Repr

/-- `failures.mapping` of the contract. -/
def FailureClass.error : FailureClass → ErrorCode
  | .malformedIdempotencyRequest => .malformedRequest
  | .corruptSource => .corruptSource
  | .corruptLedger => .corruptLedger
  | .keyConflict => .keyConflict
  | .divergentFingerprint => .divergentFingerprint

/-- An `IdempotencyError`, or a `WalError` of the staged append. -/
inductive Failure
  | idempotency (cls : FailureClass)
  | wal (cls : Wal.FailureClass)
  deriving DecidableEq, Repr

/-! ### Identifiers -/

/-- `record.fields` of the contract. -/
def receiptFields : List Text :=
  ["receipt_id".toList, "idempotency_key".toList, "request_fingerprint".toList,
    "entry_id".toList, "sequence".toList]

def requestFields : List Text := ["idempotency_key".toList, "op".toList, "payload".toList]

def receiptTag : Text := "idr1:".toList

def tokenTag : Text := "idf1:".toList

/-- `identifiers.receipt_id.grammar`. -/
def receiptGrammar (t : Text) : Bool := Hex.tagged receiptTag 64 t

/-- `identifiers.request_fingerprint.grammar`. -/
def tokenGrammar (t : Text) : Bool := Hex.tagged tokenTag 64 t

def keyChar (c : Char) : Bool := c.isAlphanum || ['.', '_', ':', '-'].contains c

/-- `_valid_key`, on a text. -/
def validKey : Text → Bool
  | [] => false
  | c :: rest => c.isAlphanum && decide (rest.length ≤ 127) && rest.all keyChar

/-- `request_fingerprint`. -/
def requestFingerprint (sha : Sha256) (op : Op) (identity : Text) (record : Record) : Text :=
  tokenTag ++ sha.hexdigest (Separated.framed "idf1".toList
    [op.text, identity, record.variant, record.digest, record.snapshotFen])

/-- `derive_receipt_id`. -/
def deriveReceiptId (sha : Sha256) (key fingerprint entryId : Text) (sequence : ℕ) : Text :=
  receiptTag ++ sha.hexdigest (['\n'].intercalate
    [key, fingerprint, entryId, Nat.toDigits 10 sequence])

structure Receipt where
  receiptId : Text
  idempotencyKey : Text
  requestFingerprint : Text
  entryId : Text
  sequence : ℕ
  deriving DecidableEq, Repr

def Receipt.toValue (r : Receipt) : Value :=
  .object receiptFields [.str r.receiptId, .str r.idempotencyKey, .str r.requestFingerprint,
    .str r.entryId, .int r.sequence]

/-! ### Validation -/

/-- An accepted request. -/
structure Request where
  key : Text
  operation : Wal.Request
  deriving DecidableEq, Repr

/-- `_validate_request`; `none` where it fails. The operation and the payload are
those of the entry staged on the scratch log. -/
def validateRequest (sha : Sha256) (request : Value) : Option Request :=
  match request.fields? requestFields with
  | some [.str key, .str op, payload] =>
    if validKey key = false then none
    else
      match Wal.append sha (Wal.pure Wal.canonicalPayload) (.list [])
          (.object Wal.requestFields [.str op, payload]) with
      | .error _ => none
      | .ok (_, staged) => some ⟨key, staged.op, staged.identity, staged.record⟩
  | _ => none

/-- The body of the loop of `_validate_ledger`, after receipts with these keys and
this last sequence number. -/
def validateReceipt (sha : Sha256) (log : List Entry) (seen : List Text) (last : ℕ)
    (receipt : Value) : Option Receipt :=
  match receipt.fields? receiptFields with
  | some [.str rid, .str key, .str token, .str entryId, .int sequence] =>
    if validKey key = false ∨ tokenGrammar token = false ∨ Wal.entryGrammar entryId = false ∨
        receiptGrammar rid = false then none
    else if sequence ≤ last ∨ (log.length : ℤ) < sequence then none
    else if key ∈ seen then none
    else if rid ≠ deriveReceiptId sha key token entryId sequence.toNat then none
    else
      match log[sequence.toNat - 1]? with
      | none => none
      | some e =>
        if e.entryId ≠ entryId ∨ requestFingerprint sha e.op e.identity e.record ≠ token then none
        else some ⟨rid, key, token, entryId, sequence.toNat⟩
  | _ => none

/-- The loop of `_validate_ledger`. -/
def validateReceipts (sha : Sha256) (log : List Entry) :
    List Text → ℕ → List Value → Option (List Receipt)
  | _, _, [] => some []
  | seen, last, receipt :: ledger =>
    match validateReceipt sha log seen last receipt with
    | none => none
    | some r =>
      (validateReceipts sha log (r.idempotencyKey :: seen) r.sequence ledger).map (r :: ·)

/-- `_validate_ledger`, with the frozen ledger. -/
def validateLedger (sha : Sha256) (log : List Entry) (ledger : Value) : Option (List Receipt) :=
  match ledger with
  | .list receipts => validateReceipts sha log [] 0 receipts
  | _ => none

/-! ### The fingerprinter -/

/-- A call of the fingerprinter; `none` where it raises. -/
abbrev Fingerprinter := Wal.Request → Option Value

/-- `_fingerprint`, on the answer of the fingerprinter. -/
def fingerprint (sha : Sha256) (operation : Wal.Request) (answer : Option Value) :
    Except FailureClass Text :=
  match answer with
  | some (.str out) =>
    if tokenGrammar out = false then .error .divergentFingerprint
    else if out ≠ requestFingerprint sha operation.op operation.identity operation.record then
      .error .divergentFingerprint
    else .ok out
  | _ => .error .divergentFingerprint

/-! ### Apply -/

/-- An accepted request, with the frozen log and ledger. -/
structure Plan where
  request : Request
  log : List Entry
  ledger : List Receipt

/-- The checks of `apply` before the fingerprinter is called. A log whose keys are
not exact strings does not replay, and the state id of a replay never fails. -/
def plan (sha : Sha256) (log ledger request : Value) : Except FailureClass Plan :=
  match validateRequest sha request with
  | none => .error .malformedIdempotencyRequest
  | some request =>
    match log with
    | .list entries =>
      match Wal.replay sha (Wal.pure Wal.canonicalPayload) log with
      | .error _ => .error .corruptSource
      | .ok _ =>
        match Wal.validateLog sha entries with
        | .error _ => .error .corruptSource
        | .ok frozen =>
          match validateLedger sha frozen ledger with
          | none => .error .corruptLedger
          | some receipts => .ok ⟨request, frozen, receipts⟩
    | _ => .error .corruptSource

def Plan.stored (p : Plan) : Option Receipt :=
  p.ledger.reverse.find? fun r => r.idempotencyKey == p.request.key

def receiptOf (sha : Sha256) (key token : Text) (staged : Entry) : Receipt :=
  ⟨deriveReceiptId sha key token staged.entryId staged.sequence, key, token, staged.entryId,
    staged.sequence⟩

/-- The `try` block: the receipt, and the staged entry under a new key. -/
def Plan.settle (sha : Sha256) (p : Plan) (answer : Option Value) :
    Except Failure (Receipt × Option Entry) :=
  match fingerprint sha p.request.operation answer with
  | .error e => .error (.idempotency e)
  | .ok token =>
    match p.stored with
    | some stored =>
      if stored.requestFingerprint ≠ token then .error (.idempotency .keyConflict)
      else .ok (stored, none)
    | none =>
      match Wal.append sha (Wal.pure Wal.canonicalPayload) (.list (p.log.map Entry.toValue))
          (.object Wal.requestFields [.str p.request.operation.op.text,
            Wal.payloadValue p.request.operation.identity p.request.operation.record]) with
      | .error e => .error (.wal e)
      | .ok (_, staged) => .ok (receiptOf sha p.request.key token staged, some staged)

inductive Outcome
  | applied
  | replayed
  deriving DecidableEq, Repr

structure Result where
  outcome : Outcome
  receipt : Receipt
  deriving DecidableEq, Repr

/-- `items.append(v)`. -/
def push (v items : Value) : Value :=
  match items with
  | .list items => .list (items ++ [v])
  | w => w

/-- `apply`: the log and the ledger it leaves, and the receipt. -/
def apply (sha : Sha256) (fingerprinter : Fingerprinter) (log ledger request : Value) :
    Except Failure (Value × Value × Result) :=
  match plan sha log ledger request with
  | .error e => .error (.idempotency e)
  | .ok p =>
    match p.settle sha (fingerprinter p.request.operation) with
    | .error e => .error e
    | .ok (receipt, none) => .ok (log, ledger, ⟨.replayed, receipt⟩)
    | .ok (receipt, some staged) =>
      .ok (push staged.toValue log, push receipt.toValue ledger, ⟨.applied, receipt⟩)

def honest (sha : Sha256) : Fingerprinter := fun q =>
  some (.str (requestFingerprint sha q.op q.identity q.record))

end Idempotency
end OpenChess

/-!
## Accepted keyed requests

A request is accepted when its key has the declared form and the log engine accepts
its payload. On an empty log and ledger an accepted request with its own fingerprint
is staged.
-/

namespace OpenChess
namespace Idempotency

open PositionDigest (Sha256)
open Wal (Entry canonicalPayload)

variable {sha : Sha256} {v payload log ledger request : Value} {q : Request} {op : Text}
  {e : Entry} {p : Plan} {answer : Option Value} {r : Receipt} {es : List Entry}

theorem opOf?_eq_some {t : Text} {op : Wal.Op} (h : Wal.opOf? t = some op) : op.text = t := by
  have hfound := List.find?_some h
  simpa using hfound

theorem append_scratch {log' : Value} : Wal.append sha (Wal.pure canonicalPayload) (.list [])
      (.object Wal.requestFields [.str op, payload]) = .ok (log', e) →
    e.op.text = op ∧ Wal.validatePayload sha payload = .ok (e.identity, e.record) := by
  intro h
  obtain ⟨vs, es, q, -, -, hq, rfl, -⟩ := Wal.append_eq_ok.mp h
  have hnodup : Wal.requestFields.Nodup := by decide
  unfold Wal.validateRequest at hq
  rw [Value.fields?_object hnodup rfl] at hq
  simp only at hq
  cases hop : Wal.opOf? op with
  | none => simp [hop] at hq
  | some registered =>
    cases hpayload : Wal.validatePayload sha payload with
    | error err => simp [hop, hpayload] at hq
    | ok x =>
      simp only [hop, hpayload, Except.ok.injEq] at hq
      subst hq
      exact ⟨opOf?_eq_some hop, rfl⟩

theorem of_validateRequest (h : validateRequest sha v = some q) : ∃ payload,
    v.fields? requestFields = some [.str q.key, .str q.operation.op.text, payload] ∧
      validKey q.key = true ∧
      Wal.validatePayload sha payload = .ok (q.operation.identity, q.operation.record) := by
  unfold validateRequest at h
  split at h
  · rename_i key op payload hfields
    split_ifs at h with hkey
    split at h
    · cases h
    · rename_i happend
      obtain ⟨hop, hpayload⟩ := append_scratch happend
      rw [← Option.some.inj h]
      exact ⟨payload, by rw [hop]; exact hfields, by simpa using hkey, hpayload⟩
  · cases h

/-- A written request under a valid key is accepted. -/
theorem validateRequest_object {key : Text} {q : Wal.Request} (hkey : validKey key = true)
    (hq : Node.Linked sha q.identity q.record) :
    validateRequest sha (.object requestFields [.str key, .str q.op.text,
      Wal.payloadValue q.identity q.record]) = some ⟨key, q⟩ := by
  have hnodup : requestFields.Nodup := by decide
  have hempty : Wal.Accepted sha canonicalPayload [] [] := Wal.Accepted.nil
  have happend := Wal.append_eq_ok.mpr
    ⟨[], [], q, rfl, hempty, Wal.validateRequest_toValue hq, rfl, rfl⟩
  unfold Wal.Request.toValue at happend
  unfold validateRequest
  rw [Value.fields?_object hnodup rfl]
  simp only [hkey, Bool.true_eq_false, if_false, happend]
  rfl

/-- What the checks of `apply` establish. -/
theorem of_plan (h : plan sha log ledger request = .ok p) : ∃ entries receipts,
    log = .list entries ∧ ledger = .list receipts ∧
      validateRequest sha request = some p.request ∧
      Wal.Accepted sha canonicalPayload entries p.log ∧
      validateReceipts sha p.log [] 0 receipts = some p.ledger := by
  unfold plan at h
  split at h
  · cases h
  · rename_i q hrequest
    split at h
    · rename_i entries
      split at h
      · cases h
      · rename_i hreplay
        obtain ⟨es, haccepted, -⟩ := Wal.replay_list_eq_ok.mp hreplay
        simp only [haccepted.validated] at h
        cases hledger : validateLedger sha es ledger with
        | none => simp [hledger] at h
        | some rs =>
          simp only [hledger, Except.ok.injEq] at h
          subst h
          cases ledger with
          | list receipts =>
            exact ⟨entries, receipts, rfl, rfl, hrequest, haccepted, hledger⟩
          | _ => cases hledger
    · cases h

theorem of_fingerprint {token : Text} (h : fingerprint sha q.operation answer = .ok token) :
    answer = honest sha q.operation := by
  unfold fingerprint at h
  split at h
  · split_ifs at h with hgrammar hsame
    rw [not_not] at hsame
    rw [hsame]
    rfl
  · cases h

theorem fingerprint_honest (sha : Sha256) (q : Wal.Request) : fingerprint sha q (honest sha q) =
    .ok (requestFingerprint sha q.op q.identity q.record) := by
  have hgrammar : tokenGrammar (requestFingerprint sha q.op q.identity q.record) = true :=
    sha.tagged _ _
  simp only [fingerprint, honest, hgrammar, Bool.true_eq_false, if_false, ne_eq, not_true_eq_false]

/-- A settled plan was answered by the fingerprint of its request, and a staged entry is
the one its receipt names. -/
theorem of_settle {staged : Option Entry} (h : p.settle sha answer = .ok (r, staged)) :
    answer = honest sha p.request.operation ∧
      ∀ e, staged = some e → e.entryId = r.entryId ∧ e.sequence = r.sequence := by
  unfold Plan.settle at h
  split at h
  · cases h
  · rename_i token htoken
    refine ⟨of_fingerprint htoken, fun e he => ?_⟩
    subst he
    split at h
    · split_ifs at h
      cases h
    · split at h
      · cases h
      · cases h
        exact ⟨rfl, rfl⟩

/-- The first request of an empty log is staged. -/
theorem settle_empty (hq : validateRequest sha v = some q) : ∃ r e,
    (Plan.mk q [] []).settle sha (honest sha q.operation) = .ok (r, some e) := by
  obtain ⟨payload, -, -, hpayload⟩ := of_validateRequest hq
  have hrequest := Wal.validateRequest_toValue (Wal.linked_of_validatePayload hpayload)
  have hempty : Wal.Accepted sha canonicalPayload [] [] := Wal.Accepted.nil
  have happend := Wal.append_eq_ok.mpr ⟨[], [], q.operation, rfl, hempty, hrequest, rfl, rfl⟩
  unfold Wal.Request.toValue at happend
  simp only [Plan.settle, fingerprint_honest, Plan.stored, List.reverse_nil, List.find?_nil,
    List.map_nil, happend]
  exact ⟨_, _, rfl⟩

theorem plan_empty (hq : validateRequest sha v = some q) :
    plan sha (.list []) (.list []) v = .ok ⟨q, [], []⟩ := by
  have hreplay := Wal.replay_list_eq_ok.mpr
    ⟨[], (Wal.Accepted.nil : Wal.Accepted sha canonicalPayload [] []), rfl⟩
  simp only [plan, hq, hreplay]
  rfl

/-- No object is both an entry and a receipt. -/
theorem not_entry_of_receipt {n m : ℕ} {tip : Text} {seen : List Text}
    (hentry : Wal.validateEntry sha n tip v = .ok e)
    (hreceipt : validateReceipt sha es seen m v = some r) : False := by
  have hkeys : ∀ (names : List Text) (vs : List Value), v.fields? names = some vs →
      ∃ members, v.members? = some members ∧ (members.map Prod.fst).Perm names := by
    intro names vs hfields
    unfold Value.fields? at hfields
    split at hfields
    · cases hfields
    · rename_i members hmembers
      split_ifs at hfields with hperm
      exact ⟨members, hmembers, hperm⟩
  have hentryFields : ∃ vs, v.fields? Wal.entryFields = some vs := by
    unfold Wal.validateEntry at hentry
    split at hentry
    · exact ⟨_, by assumption⟩
    · cases hentry
  have hreceiptFields : ∃ vs, v.fields? receiptFields = some vs := by
    unfold validateReceipt at hreceipt
    split at hreceipt
    · exact ⟨_, by assumption⟩
    · cases hreceipt
  obtain ⟨vs, hvs⟩ := hentryFields
  obtain ⟨ws, hws⟩ := hreceiptFields
  obtain ⟨members, hmembers, hperm⟩ := hkeys _ _ hvs
  obtain ⟨members', hmembers', hperm'⟩ := hkeys _ _ hws
  obtain rfl := Option.some.inj (hmembers.symm.trans hmembers')
  have hsame : "op".toList ∈ receiptFields :=
    (hperm'.mem_iff.mp (hperm.mem_iff.mpr (by decide)))
  exact absurd hsame (by decide)

theorem validateReceipts_cons {seen : List Text} {n : ℕ} {vs : List Value} {rs : List Receipt} :
    validateReceipts sha es seen n (v :: vs) = some rs ↔ ∃ r rs',
      validateReceipt sha es seen n v = some r ∧
      validateReceipts sha es (r.idempotencyKey :: seen) r.sequence vs = some rs' ∧
      rs = r :: rs' := by
  rw [validateReceipts]
  cases hr : validateReceipt sha es seen n v with
  | none => simp
  | some r => simp [eq_comm]

end Idempotency
end OpenChess
