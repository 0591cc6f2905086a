import OpenChess.Jobs.Job

/-!
# Cancellations and burials

Model of `server/jobs_cancel.py` and `server/jobs_dead_letter.py`. Both decide on one
job presented with the request, check it by their own copies of the queue's rules, and
bind it by a digest.
-/

namespace OpenChess

open Jobs

namespace Jobs

/-- `2 ** 53 - 2`. -/
def maxSeq : ℕ := 2 ^ 53 - 2

def taggedDigest (sha : Hex.Hash 64) (tag : Text) (v : Value) : Text :=
  tag ++ ':' :: sha.hexdigest (tag ++ Char.ofNat 0 :: Json.dumps true v)

def earlierId (grammar : Text → Bool) (id : Value) : Option (Option Text) :=
  if id.isNull then some none else (id.text?.filter grammar).map some

end Jobs

namespace Cancel

inductive FailureClass
  | malformedCancelRequest
  | corruptJob
  | jobNotCancellable
  deriving DecidableEq, Repr

inductive ErrorCode
  | malformedRequest
  | corruptJob
  | jobNotCancellable
  | internal
  deriving DecidableEq, Repr

/-- `failures.mapping` of the contract. -/
def FailureClass.error : FailureClass → ErrorCode
  | .malformedCancelRequest => .malformedRequest
  | .corruptJob => .corruptJob
  | .jobNotCancellable => .jobNotCancellable

def maxAttempts : ℕ := 5

def maxNow : ℕ := 2 ^ 53 - 1

def maxPriority : ℕ := 9

def maxDepth : ℕ := 64

def maxIntDigits : ℕ := 4000

def maxIntBits : ℕ := 13288

def bounds : Bounds := ⟨maxPriority, maxAttempts, maxNow, ⟨maxDepth, maxIntBits, maxIntDigits⟩⟩

def requestFields : List Text := ["op".toList, "job".toList, "requester".toList, "now".toList]

/-- `record.statuses_before` of the contract. -/
def cancellable : List Status := [.ready, .leased]

/-- `_job_ok`: the job, or none where it is rejected. -/
def jobOk (job : PyObj) : Option Job := (Jobs.jobOk bounds 0 maxSeq [] job).map Prod.fst

/-- `_request_ok`: the job, the requester and the clock. -/
def requestOk (request : PyObj) : Option (PyObj × Text × ℕ) :=
  match request.fields? requestFields with
  | some [op, .dict id entries, requester, now] =>
    match op.text? (· == "cancel".toList), requester.text? workerGrammar, now.nat? 0 maxNow with
    | some _, some requester, some now => some (.dict id entries, requester, now)
    | _, _, _ => none
  | _ => none

structure Record where
  jobId : Text
  seq : ℕ
  priority : ℕ
  payloadDigest : Text
  statusBefore : Status
  attempts : ℕ
  requester : Text
  cancelledAt : ℕ
  decisionId : Text

def recordValue (j : Job) (payloadDigest requester : Text) (now : ℕ) : Value :=
  .object ["op".toList, "job_id".toList, "seq".toList, "priority".toList, "payload_digest".toList,
      "status_before".toList, "attempts".toList, "requester".toList, "cancelled_at".toList]
    [.str "cancel".toList, .str j.jobId, .int j.seq, .int j.priority, .str payloadDigest,
      .str j.status.text, .int j.attempts, .str requester, .int now]

def record (sha : Hex.Hash 64) (j : Job) (requester : Text) (now : ℕ) : Record :=
  let payloadDigest := taggedDigest sha "pd1".toList j.payload
  ⟨j.jobId, j.seq, j.priority, payloadDigest, j.status, j.attempts, requester, now,
    taggedDigest sha "cd1".toList (recordValue j payloadDigest requester now)⟩

/-- `cancel`. -/
def cancel (sha : Hex.Hash 64) (request : PyObj) : Except FailureClass Record :=
  match requestOk request with
  | none => .error .malformedCancelRequest
  | some (job, requester, now) =>
    match jobOk job with
    | none => .error .corruptJob
    | some j =>
      if j.status ∉ cancellable then .error .jobNotCancellable
      else .ok (record sha j requester now)

end Cancel

namespace DeadLetter

inductive FailureClass
  | malformedBuryRequest
  | corruptJob
  | jobNotDead
  deriving DecidableEq, Repr

inductive ErrorCode
  | malformedRequest
  | corruptJob
  | jobNotDead
  | internal
  deriving DecidableEq, Repr

/-- `failures.mapping` of the contract. -/
def FailureClass.error : FailureClass → ErrorCode
  | .malformedBuryRequest => .malformedRequest
  | .corruptJob => .corruptJob
  | .jobNotDead => .jobNotDead

def maxAttempts : ℕ := 5

def maxNow : ℕ := 2 ^ 53 - 1

def maxPriority : ℕ := 9

def maxDepth : ℕ := 64

def maxDigits : ℕ := 4000

def maxBits : ℕ := 13288

def bounds : Bounds := ⟨maxPriority, maxAttempts, maxNow, ⟨maxDepth, maxBits, maxDigits⟩⟩

def requestFields : List Text := ["op".toList, "job".toList, "reason".toList, "now".toList]

inductive Reason
  | exhausted
  | permanent
  deriving DecidableEq, Repr

def Reason.text : Reason → Text
  | .exhausted => "exhausted".toList
  | .permanent => "permanent".toList

/-- `request.reasons` of the contract. -/
def reasons : List Reason := [.exhausted, .permanent]

def reasonOf? (t : Text) : Option Reason := reasons.find? fun r => r.text == t

/-- `_job_ok`: the job, or none where it is rejected. -/
def jobOk (job : PyObj) : Option Job := (Jobs.jobOk bounds 0 maxSeq [] job).map Prod.fst

/-- `_request_ok`: the job, the reason and the clock. -/
def requestOk (request : PyObj) : Option (PyObj × Reason × ℕ) :=
  match request.fields? requestFields with
  | some [op, .dict id entries, reason, now] =>
    match op.text? (· == "bury".toList), (reason.text? fun _ => true).bind reasonOf?,
        now.nat? 0 maxNow with
    | some _, some reason, some now => some (.dict id entries, reason, now)
    | _, _, _ => none
  | _ => none

structure Record where
  jobId : Text
  seq : ℕ
  priority : ℕ
  payloadDigest : Text
  attempts : ℕ
  reason : Reason
  buriedAt : ℕ
  entryId : Text

def recordValue (j : Job) (payloadDigest : Text) (reason : Reason) (now : ℕ) : Value :=
  .object ["op".toList, "job_id".toList, "seq".toList, "priority".toList, "payload_digest".toList,
      "attempts".toList, "reason".toList, "buried_at".toList]
    [.str "bury".toList, .str j.jobId, .int j.seq, .int j.priority, .str payloadDigest,
      .int j.attempts, .str reason.text, .int now]

def record (sha : Hex.Hash 64) (j : Job) (reason : Reason) (now : ℕ) : Record :=
  let payloadDigest := taggedDigest sha "pd1".toList j.payload
  ⟨j.jobId, j.seq, j.priority, payloadDigest, j.attempts, reason, now,
    taggedDigest sha "dl1".toList (recordValue j payloadDigest reason now)⟩

/-- `bury`. -/
def bury (sha : Hex.Hash 64) (request : PyObj) : Except FailureClass Record :=
  match requestOk request with
  | none => .error .malformedBuryRequest
  | some (job, reason, now) =>
    match jobOk job with
    | none => .error .corruptJob
    | some j => if j.status ≠ .dead then .error .jobNotDead else .ok (record sha j reason now)

end DeadLetter
end OpenChess
