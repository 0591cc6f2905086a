import OpenChess.Jobs.Job

/-!
# Worker restarts

Model of `server/jobs_restart.py`: every live lease of a restarted worker is released.
The module checks the state by its own copy of the queue's rules.
-/

namespace OpenChess
namespace Restart

open Jobs

inductive FailureClass
  | malformedRestartRequest
  | corruptQueue
  deriving DecidableEq, Repr

inductive ErrorCode
  | malformedRequest
  | corruptQueue
  | internal
  deriving DecidableEq, Repr

/-- `failures.mapping` of the contract. -/
def FailureClass.error : FailureClass → ErrorCode
  | .malformedRestartRequest => .malformedRequest
  | .corruptQueue => .corruptQueue

/-! ### Bounds -/

def maxAttempts : ℕ := 5

def maxNow : ℕ := 2 ^ 53 - 1

def maxJobs : ℕ := 10000

def maxPriority : ℕ := 9

def maxDepth : ℕ := 64

def maxDigits : ℕ := 4000

def maxBits : ℕ := 13288

def bounds : Bounds := ⟨maxPriority, maxAttempts, maxNow, ⟨maxDepth, maxBits, maxDigits⟩⟩

/-! ### States and requests -/

/-- `_job_ok`. -/
def jobOk (priorSeq : ℤ) (nextSeq : ℕ) (containers : List ℕ) (job : PyObj) :
    Option (Job × List ℕ) :=
  Jobs.jobOk bounds (priorSeq + 1) ((nextSeq : ℤ) - 1) containers job

/-- The loop of `_state_ok`. -/
def jobsOk (nextSeq : ℕ) : List Text → ℤ → List ℕ → List PyObj → Option (List Job)
  | _, _, _, [] => some []
  | ids, priorSeq, containers, job :: jobs =>
    match jobOk priorSeq nextSeq containers job with
    | none => none
    | some (j, met) =>
      if j.jobId ∈ ids then none
      else (jobsOk nextSeq (j.jobId :: ids) j.seq met jobs).map (j :: ·)

/-- `_state_ok`: the state, or none where it is rejected. -/
def stateOk (state : PyObj) : Option State :=
  match state.fields? stateFields with
  | some [.list _ jobs, nextSeq] =>
    match nextSeq.nat? 0 maxNow with
    | none => none
    | some nextSeq =>
      if maxJobs < jobs.length then none
      else (jobsOk nextSeq [] (-1) [] jobs).map fun jobs => ⟨jobs, nextSeq⟩
  | _ => none

def requestFields : List Text := ["op".toList, "worker".toList, "now".toList]

structure Request where
  worker : Text
  now : ℕ

/-- `_request_ok`: the request, or none where it is rejected. -/
def requestOk (request : PyObj) : Option Request :=
  match request.fields? requestFields with
  | some [op, worker, now] =>
    match op.text? (· == "restart".toList), worker.text? workerGrammar, now.nat? 0 maxNow with
    | some _, some worker, some now => some ⟨worker, now⟩
    | _, _, _ => none
  | _ => none

/-! ### The restart -/

structure Record where
  worker : Text
  restartedAt : ℕ
  released : List Text
  priorStateId : Text
  stateId : Text
  restartId : Text

def recordValue (worker : Text) (restartedAt : ℕ) (released : List Text)
    (priorStateId stateId : Text) : Value :=
  .object ["op".toList, "worker".toList, "restarted_at".toList, "released".toList,
      "prior_state_id".toList, "state_id".toList]
    [.str "restart".toList, .str worker, .int restartedAt, .list (released.map Value.str),
      .str priorStateId, .str stateId]

/-- `_restart_id`. -/
def restartId (sha : Hex.Hash 64) (record : Value) : Text :=
  "rst1:".toList ++ sha.hexdigest ("rst1".toList ++ Char.ofNat 0 :: Json.dumps true record)

def release (work : State) (worker : Text) (now : ℕ) : State :=
  ⟨work.jobs.map fun j => if j.held worker now then j.unleased .ready else j, work.nextSeq⟩

def released (work : State) (worker : Text) (now : ℕ) : List Text :=
  (work.jobs.filter fun j => j.held worker now).map Job.jobId

def record (sha : Hex.Hash 64) (work : State) (q : Request) : Record :=
  let prior := stateIdFor sha work
  let next := stateIdFor sha (release work q.worker q.now)
  let ids := released work q.worker q.now
  ⟨q.worker, q.now, ids, prior, next, restartId sha (recordValue q.worker q.now ids prior next)⟩

/-- `restart`: the new state, and the record. -/
def restart (sha : Hex.Hash 64) (state request : PyObj) : Except FailureClass (State × Record) :=
  match requestOk request with
  | none => .error .malformedRestartRequest
  | some q =>
    match stateOk state with
    | none => .error .corruptQueue
    | some s => .ok (release s.copy q.worker q.now, record sha s.copy q)

end Restart
end OpenChess
