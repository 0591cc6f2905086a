import OpenChess.Jobs.Job

/-!
# The jobs queue

Model of `server/jobs_queue.py`: the checks of a state and of a request, and the four
transitions. A transition works on a detached copy of the state, and the new state takes
the place of the old one last.
-/

namespace OpenChess
namespace Queue

open Jobs
open Payload (Limits payloadsOk)

inductive FailureClass
  | malformedQueueRequest
  | unknownJob
  | leaseConflict
  | dedupeConflict
  | capacityExceeded
  | corruptQueue
  deriving DecidableEq, Repr

inductive ErrorCode
  | malformedRequest
  | unknownJob
  | leaseConflict
  | dedupeConflict
  | capacityExceeded
  | corruptQueue
  | internal
  deriving DecidableEq, Repr

/-- `failures.mapping` of the contract. -/
def FailureClass.error : FailureClass → ErrorCode
  | .malformedQueueRequest => .malformedRequest
  | .unknownJob => .unknownJob
  | .leaseConflict => .leaseConflict
  | .dedupeConflict => .dedupeConflict
  | .capacityExceeded => .capacityExceeded
  | .corruptQueue => .corruptQueue

/-! ### Bounds -/

def maxJobs : ℕ := 10000

def maxAttempts : ℕ := 5

def maxNow : ℕ := 2 ^ 53 - 1

def maxLeaseMs : ℕ := 3600000

def maxPriority : ℕ := 9

def maxDepth : ℕ := 64

def maxIntDigits : ℕ := 4000

/-- `_INT_BITS`, the ceiling of `MAX_INT_DIGITS * log2(10)`. -/
def intBits : ℕ := Nat.clog 2 (10 ^ maxIntDigits)

def bounds : Bounds := ⟨maxPriority, maxAttempts, maxNow, ⟨maxDepth, intBits, maxIntDigits⟩⟩

/-- `SEQ_LIMIT`. -/
def seqLimit : ℕ := maxNow

/-- `CLOCK_LIMIT`. -/
def clockLimit : ℕ := maxNow

/-! ### States -/

/-- `_job_ok`, for a job with this id. -/
def jobOk (jobId : Text) (lowestSeq nextSeq : ℕ) (visited : List ℕ) (job : PyObj) :
    Option (Job × List ℕ) :=
  match job.fields? jobFields with
  | some [_, seq, priority, payload, status, attempts, owner, expires] =>
    readJob bounds lowestSeq ((nextSeq : ℤ) - 1) visited jobId seq priority payload status attempts
      owner expires
  | _ => none

/-- The loop of `_check_state`. -/
def checkJobs (nextSeq : ℕ) : List Text → List ℕ → ℕ → List PyObj → Option (List Job)
  | _, _, _, [] => some []
  | ids, visited, lowestSeq, job :: jobs =>
    match job.fields? jobFields with
    | some (jobId :: _) =>
      match jobId.text? jobIdGrammar with
      | none => none
      | some jobId =>
        if jobId ∈ ids then none
        else
          match jobOk jobId lowestSeq nextSeq visited job with
          | none => none
          | some (j, met) => (checkJobs nextSeq (jobId :: ids) met (j.seq + 1) jobs).map (j :: ·)
    | _ => none

/-- `_check_state`: the state, or none where it is rejected. -/
def checkState (state : PyObj) : Option State :=
  match state.fields? stateFields with
  | some [.list _ jobs, nextSeq] =>
    match nextSeq.nat? 0 maxNow with
    | none => none
    | some nextSeq =>
      if maxJobs < jobs.length then none
      else (checkJobs nextSeq [] [] 0 jobs).map fun jobs => ⟨jobs, nextSeq⟩
  | _ => none

/-! ### Requests -/

inductive Op
  | enqueue
  | claim
  | ack
  | nack
  deriving DecidableEq, Repr

def Op.text : Op → Text
  | .enqueue => "enqueue".toList
  | .claim => "claim".toList
  | .ack => "ack".toList
  | .nack => "nack".toList

/-- `request.operations` of the contract. -/
def Op.fields : Op → List Text
  | .enqueue => ["op".toList, "dedupe_key".toList, "priority".toList, "payload".toList]
  | .claim => ["op".toList, "worker".toList, "now".toList, "lease_ms".toList]
  | .ack => ["op".toList, "job_id".toList, "worker".toList, "now".toList]
  | .nack => ["op".toList, "job_id".toList, "worker".toList, "now".toList]

def ops : List Op := [.enqueue, .claim, .ack, .nack]

def opOf? (t : Text) : Option Op := ops.find? fun op => op.text == t

/-- An accepted request. -/
inductive Request
  | enqueue (dedupeKey : Text) (priority : ℕ) (payload : Value)
  | claim (worker : Text) (now leaseMs : ℕ)
  | ack (worker : Text) (now : ℕ) (jobId : Text)
  | nack (worker : Text) (now : ℕ) (jobId : Text)

def Request.op : Request → Op
  | .enqueue .. => .enqueue
  | .claim .. => .claim
  | .ack .. => .ack
  | .nack .. => .nack

/-- The worker, the clock and the job of an `ack` or a `nack`. -/
def checkSettle (jobId worker now : PyObj) : Option (Text × ℕ × Text) :=
  match worker.text? workerGrammar, now.nat? 0 maxNow with
  | some worker, some now => (jobId.text? jobIdGrammar).map fun jobId => (worker, now, jobId)
  | _, _ => none

/-- `_check_request`: the request, or none where it is rejected. -/
def checkRequest (clockLimit : ℕ) (request : PyObj) : Option Request :=
  match request.member? "op".toList with
  | some (.atom (.str op)) =>
    match opOf? op with
    | none => none
    | some op =>
      match op, request.fields? op.fields with
      | .enqueue, some [_, key, priority, payload] =>
        match key.text? dedupeKeyGrammar, priority.nat? 0 maxPriority,
            payloadsOk bounds.payload [payload] [] with
        | some key, some priority, some _ => some (.enqueue key priority (Json.copy payload.content))
        | _, _, _ => none
      | .claim, some [_, worker, now, leaseMs] =>
        match worker.text? workerGrammar, now.nat? 0 maxNow, leaseMs.nat? 1 maxLeaseMs with
        | some worker, some now, some leaseMs =>
          if clockLimit < now + leaseMs then none else some (.claim worker now leaseMs)
        | _, _, _ => none
      | .ack, some [_, jobId, worker, now] =>
        (checkSettle jobId worker now).map fun q => .ack q.1 q.2.1 q.2.2
      | .nack, some [_, jobId, worker, now] =>
        (checkSettle jobId worker now).map fun q => .nack q.1 q.2.1 q.2.2
      | _, _ => none
  | _ => none

/-! ### Transitions -/

/-- `_by_id`. -/
def byId (jobs : List Job) (jobId : Text) : Option Job := jobs.find? fun j => j.jobId == jobId

def put (s : State) (j : Job) : State :=
  ⟨s.jobs.map fun k => if k.jobId = j.jobId then j else k, s.nextSeq⟩

def newJob (sha : Hex.Hash 64) (s : State) (key : Text) (priority : ℕ) (payload : Value) : Job :=
  ⟨jobIdFor sha key, s.nextSeq, priority, payload, .ready, 0, none, none⟩

/-- `_enqueue`. -/
def enqueue (sha : Hex.Hash 64) (work : State) (key : Text) (priority : ℕ) (payload : Value) :
    Except FailureClass (State × Option Job) :=
  match byId work.jobs (jobIdFor sha key) with
  | some existing =>
    if existing.priority = priority ∧ Json.dumps false existing.payload = Json.dumps false payload
    then .ok (work, some existing)
    else .error .dedupeConflict
  | none =>
    if maxJobs ≤ work.jobs.length ∨ seqLimit ≤ work.nextSeq then .error .capacityExceeded
    else .ok (⟨work.jobs ++ [newJob sha work key priority payload], work.nextSeq + 1⟩,
      some (newJob sha work key priority payload))

def claimable (now : ℕ) (j : Job) : Bool :=
  j.status == .ready ||
    (j.status == .leased && j.leaseExpiresAt.any fun expires => decide (expires ≤ now))

/-- The order of claims, by priority and then by sequence number. -/
def before (j k : Job) : Prop := j.priority < k.priority ∨ (j.priority = k.priority ∧ j.seq ≤ k.seq)

instance : DecidableRel before := fun j k =>
  inferInstanceAs (Decidable (j.priority < k.priority ∨ (j.priority = k.priority ∧ j.seq ≤ k.seq)))

/-- The loop of `_claim` over the claimable jobs. -/
def claimFrom (worker : Text) (now leaseMs : ℕ) : List Job → State → State × Option Job
  | [], work => (work, none)
  | j :: rest, work =>
    if maxAttempts ≤ j.attempts then claimFrom worker now leaseMs rest (put work (j.unleased .dead))
    else (put work (j.leasedTo worker (now + leaseMs)), some (j.leasedTo worker (now + leaseMs)))

/-- `_claim`. -/
def claim (work : State) (worker : Text) (now leaseMs : ℕ) : State × Option Job :=
  claimFrom worker now leaseMs ((work.jobs.filter (claimable now)).insertionSort before) work

/-- `_settle`. -/
def settle (work : State) (worker : Text) (now : ℕ) (jobId : Text) (status : Status) :
    Except FailureClass (State × Option Job) :=
  match byId work.jobs jobId with
  | none => .error .unknownJob
  | some j =>
    if j.held worker now = false then .error .leaseConflict
    else .ok (put work (j.unleased status), some (j.unleased status))

/-- The transition of a request on the working copy. -/
def perform (sha : Hex.Hash 64) (work : State) :
    Request → Except FailureClass (State × Option Job)
  | .enqueue key priority payload => enqueue sha work key priority payload
  | .claim worker now leaseMs => .ok (claim work worker now leaseMs)
  | .ack worker now jobId => settle work worker now jobId .done
  | .nack worker now jobId => settle work worker now jobId .ready

structure Receipt where
  op : Op
  jobId : Option Text
  status : Option Status
  attempts : Option ℕ
  leaseExpiresAt : Option ℕ
  stateId : Text

def receiptOf (sha : Hex.Hash 64) (op : Op) (work : State) (job : Option Job) : Receipt :=
  ⟨op, job.map Job.jobId, job.map Job.status, job.map Job.attempts,
    job.bind Job.leaseExpiresAt, stateIdFor sha work⟩

/-- `QueueEngine.apply`: the new state, and the receipt. -/
def apply (sha : Hex.Hash 64) (state request : PyObj) : Except FailureClass (State × Receipt) :=
  match checkRequest clockLimit request with
  | none => .error .malformedQueueRequest
  | some req =>
    match checkState state with
    | none => .error .corruptQueue
    | some s =>
      match perform sha s.copy req with
      | .error e => .error e
      | .ok (work, job) => .ok (work, receiptOf sha req.op work job)

end Queue
end OpenChess
