import OpenChess.Jobs.Cancel
import OpenChess.Lib.TokenBucket

/-!
# Limits of jobs

Model of `server/jobs_limit.py`: a token bucket for each key. A decision is made on one
request that carries the record of the previous decision, and answers with the next
record.
-/

namespace OpenChess
namespace Limit

open Jobs (nameGrammar taggedDigest)
open TokenBucket (Bucket)

inductive FailureClass
  | malformedLimitRequest
  | invalidLimitPolicy
  | corruptPreviousBucket
  | limitConflict
  | clockOverflow
  deriving DecidableEq, Repr

inductive ErrorCode
  | malformedRequest
  | invalidPolicy
  | corruptRecord
  | limitConflict
  | clockOverflow
  | internal
  deriving DecidableEq, Repr

/-- `failures.mapping` of the contract. -/
def FailureClass.error : FailureClass → ErrorCode
  | .malformedLimitRequest => .malformedRequest
  | .invalidLimitPolicy => .invalidPolicy
  | .corruptPreviousBucket => .corruptRecord
  | .limitConflict => .limitConflict
  | .clockOverflow => .clockOverflow

def maxCapacity : ℕ := 1000000

def maxRefill : ℕ := 86400000

def maxNow : ℕ := 2 ^ 53 - 1

/-- `identifiers.key.grammar`. -/
def keyGrammar : Text → Bool := nameGrammar 64

/-- `identifiers.limit_id.grammar`. -/
def limitIdGrammar (t : Text) : Bool := Hex.tagged "lm1:".toList 64 t

/-! ### Requests -/

def requestFields : List Text :=
  ["op".toList, "key".toList, "cost".toList, "now".toList, "policy".toList, "previous".toList]

def policyFields : List Text := ["capacity".toList, "refill_ms".toList]

/-- A request whose policy and previous record are not checked yet. -/
structure Request where
  key : Text
  cost : ℕ
  now : ℕ
  policy : Value
  previous : Value

/-- `_request_ok`: the request, or none where it is rejected. -/
def requestOk (request : Value) : Option Request :=
  match request.fields? requestFields with
  | some [op, key, cost, now, policy, previous] =>
    match op.text?.filter (· == "admit".toList), key.text?.filter keyGrammar,
        cost.nat? 1 maxCapacity, now.nat? 0 maxNow with
    | some _, some key, some cost, some now =>
      if policy.isDict && (previous.isNull || previous.isDict) then
        some ⟨key, cost, now, policy, previous⟩
      else none
    | _, _, _, _ => none
  | _ => none

/-- The policy of a bucket. -/
structure Policy where
  capacity : ℕ
  refillMs : ℕ

/-- `_policy_ok`: the policy, or none where it is rejected. -/
def policyOk (policy : Value) : Option Policy :=
  match policy.fields? policyFields with
  | some [capacity, refillMs] =>
    match capacity.nat? 1 maxCapacity, refillMs.nat? 1 maxRefill with
    | some capacity, some refillMs => some ⟨capacity, refillMs⟩
    | _, _ => none
  | _ => none

/-! ### Records -/

/-- `record.decisions` of the contract. -/
inductive Decision
  | admitted
  | deny
  deriving DecidableEq, Repr

def Decision.text : Decision → Text
  | .admitted => "admit".toList
  | .deny => "deny".toList

def decisions : List Decision := [.admitted, .deny]

def decisionOf? (t : Text) : Option Decision := decisions.find? fun d => d.text == t

structure Record where
  key : Text
  policy : Policy
  cost : ℕ
  decision : Decision
  tokens : ℕ
  updatedAt : ℕ
  retryAfterMs : Option ℕ
  previousId : Option Text
  limitId : Text

/-- `_RECORD_FIELDS[:-1]`. -/
def bodyFields : List Text :=
  ["op".toList, "key".toList, "capacity".toList, "refill_ms".toList, "cost".toList,
    "decision".toList, "tokens".toList, "updated_at".toList, "retry_after_ms".toList,
    "previous_id".toList]

def recordFields : List Text := bodyFields ++ ["limit_id".toList]

def Record.bodyValues (r : Record) : List Value :=
  [.str "admit".toList, .str r.key, .int r.policy.capacity, .int r.policy.refillMs, .int r.cost,
    .str r.decision.text, .int r.tokens, .int r.updatedAt,
    (r.retryAfterMs.map fun n : ℕ => Value.int n).getD .null,
    (r.previousId.map Value.str).getD .null]

def Record.body (r : Record) : Value := .object bodyFields r.bodyValues

def Record.toValue (r : Record) : Value :=
  .object recordFields (r.bodyValues ++ [.str r.limitId])

/-- `_limit_id`. -/
def limitIdFor (sha : Hex.Hash 64) (body : Value) : Text := taggedDigest sha "lm1".toList body

def Record.bucket (r : Record) : Bucket := ⟨r.tokens, r.updatedAt⟩

/-- The identifier of an earlier record, or none. -/
def previousIdOk (previousId : Value) : Option (Option Text) :=
  if previousId.isNull then some none
  else (previousId.text?.filter limitIdGrammar).map some

def retryOk (policy : Policy) (cost tokens updatedAt : ℕ) (retry : Value) :
    Decision → Option (Option ℕ)
  | .admitted => if retry.isNull = false ∨ policy.capacity - cost < tokens then none else some none
  | .deny =>
    match retry.nat? 1 maxNow with
    | none => none
    | some ms =>
      if tokens < cost ∧ (cost - tokens - 1) * policy.refillMs < ms ∧
          ms ≤ (cost - tokens) * policy.refillMs ∧ updatedAt + ms ≤ maxNow then some (some ms)
      else none

/-- `_previous_ok`: the record, or none where it is rejected. -/
def previousOk (sha : Hex.Hash 64) (prev : Value) : Option Record :=
  match prev.fields? recordFields with
  | some [op, key, capacity, refillMs, cost, decision, tokens, updatedAt, retry, previousId,
      limitId] =>
    match op.text?.filter (· == "admit".toList), key.text?.filter keyGrammar,
        capacity.nat? 1 maxCapacity, refillMs.nat? 1 maxRefill with
    | some _, some key', some capacity', some refillMs' =>
      match cost.nat? 1 capacity', decision.text?.bind decisionOf?, tokens.nat? 0 capacity',
          updatedAt.nat? 0 maxNow with
      | some cost', some decision', some tokens', some updatedAt' =>
        match previousIdOk previousId, limitId.text?.filter limitIdGrammar,
            retryOk ⟨capacity', refillMs'⟩ cost' tokens' updatedAt' retry decision' with
        | some previousId', some limitId', some retry' =>
          if limitId' = limitIdFor sha (.object bodyFields
              [op, key, capacity, refillMs, cost, decision, tokens, updatedAt, retry,
                previousId]) then
            some ⟨key', ⟨capacity', refillMs'⟩, cost', decision', tokens', updatedAt', retry',
              previousId', limitId'⟩
          else none
        | _, _, _ => none
      | _, _, _, _ => none
    | _, _, _, _ => none
  | _ => none

/-! ### The decision -/

/-- `_chain_ok`. -/
def chainOk (q : Request) (policy : Policy) (prev : Record) : Prop :=
  q.key = prev.key ∧ policy.capacity = prev.policy.capacity ∧
    policy.refillMs = prev.policy.refillMs ∧ prev.updatedAt ≤ q.now

instance (q : Request) (policy : Policy) (prev : Record) : Decidable (chainOk q policy prev) :=
  inferInstanceAs (Decidable (_ ∧ _ ∧ _ ∧ _))

/-- The refilled bucket; a fresh one is full. -/
def refilled (policy : Policy) (now : ℕ) : Option Record → Bucket
  | none => ⟨policy.capacity, now⟩
  | some prev => prev.bucket.refill policy.capacity policy.refillMs now

def recordOf (sha : Hex.Hash 64) (q : Request) (policy : Policy) (prev : Option Record)
    (decision : Decision) (bucket : Bucket) (retry : Option ℕ) : Record :=
  let body : Record := ⟨q.key, policy, q.cost, decision, bucket.tokens, bucket.since, retry,
    prev.map Record.limitId, []⟩
  { body with limitId := limitIdFor sha body.body }

/-- The decision on a checked request. A bucket below the cost is below its capacity, so
that the clock has not passed a whole period since. -/
def decision (sha : Hex.Hash 64) (q : Request) (policy : Policy) (prev : Option Record) :
    Except FailureClass Record :=
  let filled := refilled policy q.now prev
  if q.cost ≤ filled.tokens then
    .ok (recordOf sha q policy prev .admitted ⟨filled.tokens - q.cost, filled.since⟩ none)
  else
    let retry := (q.cost - filled.tokens) * policy.refillMs - (q.now - filled.since)
    if maxNow < q.now + retry then .error .clockOverflow
    else .ok (recordOf sha q policy prev .deny filled (some retry))

/-- `admit` of the module. -/
def admitRequest (sha : Hex.Hash 64) (request : Value) : Except FailureClass Record :=
  match requestOk request with
  | none => .error .malformedLimitRequest
  | some q =>
    match policyOk q.policy with
    | none => .error .invalidLimitPolicy
    | some policy =>
      if policy.capacity < q.cost then .error .malformedLimitRequest
      else if q.previous.isNull then decision sha q policy none
      else
        match previousOk sha q.previous with
        | none => .error .corruptPreviousBucket
        | some prev =>
          if chainOk q policy prev then decision sha q policy (some prev)
          else .error .limitConflict

end Limit
end OpenChess
