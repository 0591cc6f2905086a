import OpenChess.Jobs.Cancel

/-!
# Retry decisions

Model of `server/jobs_retry.py`. One request for one failed attempt is decided: the job is dead, or
it is retried after a delay that grows with the attempts up to the maximum of the policy. The delays
of a policy are its base at first, never decrease, and stay at the maximum once they reach it.
-/

namespace OpenChess
namespace Retry

open Jobs (jobIdGrammar taggedDigest)

inductive FailureClass
  | malformedRetryRequest
  | invalidRetryPolicy
  | clockOverflow
  deriving DecidableEq, Repr

inductive ErrorCode
  | malformedRequest
  | invalidPolicy
  | clockOverflow
  | internal
  deriving DecidableEq, Repr

/-- `failures.mapping` of the contract. -/
def FailureClass.error : FailureClass → ErrorCode
  | .malformedRetryRequest => .malformedRequest
  | .invalidRetryPolicy => .invalidPolicy
  | .clockOverflow => .clockOverflow

def maxAttempts : ℕ := 5

def maxNow : ℕ := 2 ^ 53 - 1

def maxBaseDelayMs : ℕ := 3600000

def maxMultiplier : ℕ := 10

def maxDelayMs : ℕ := 86400000

def requestFields : List Text :=
  ["op".toList, "job_id".toList, "attempts".toList, "failure".toList, "now".toList,
    "policy".toList]

def policyFields : List Text :=
  ["base_delay_ms".toList, "multiplier".toList, "max_delay_ms".toList]

inductive Failure
  | transient
  | timeout
  | permanent
  deriving DecidableEq, Repr

def Failure.text : Failure → Text
  | .transient => "transient".toList
  | .timeout => "timeout".toList
  | .permanent => "permanent".toList

/-- `request.failures` of the contract. -/
def failures : List Failure := [.transient, .timeout, .permanent]

def failureOf? (t : Text) : Option Failure := failures.find? fun f => f.text == t

/-- A request but for its policy. -/
structure Request where
  jobId : Text
  attempts : ℕ
  failure : Failure
  now : ℕ

structure Policy where
  baseDelayMs : ℕ
  multiplier : ℕ
  maxDelayMs : ℕ

/-- `_request_ok`: the request, and its policy unchecked. -/
def requestOk (request : PyObj) : Option (Request × PyObj) :=
  match request.fields? requestFields with
  | some [op, jobId, attempts, failure, now, .dict id entries] =>
    match op.text? (· == "decide".toList), jobId.text? jobIdGrammar, attempts.nat? 1 maxAttempts,
        (failure.text? fun _ => true).bind failureOf?, now.nat? 0 maxNow with
    | some _, some jobId, some attempts, some failure, some now =>
      some (⟨jobId, attempts, failure, now⟩, .dict id entries)
    | _, _, _, _, _ => none
  | _ => none

/-- `_policy_ok`: the policy, or none where it is rejected. -/
def policyOk (policy : PyObj) : Option Policy :=
  match policy.fields? policyFields with
  | some [base, multiplier, maxDelay] =>
    match base.nat? 1 maxBaseDelayMs, multiplier.nat? 1 maxMultiplier with
    | some base, some multiplier =>
      (maxDelay.nat? base maxDelayMs).map fun maxDelay => ⟨base, multiplier, maxDelay⟩
    | _, _ => none
  | _ => none

inductive Decision
  | retry
  | dead
  deriving DecidableEq, Repr

def Decision.text : Decision → Text
  | .retry => "retry".toList
  | .dead => "dead".toList

structure Record where
  jobId : Text
  decision : Decision
  attempts : ℕ
  delayMs : Option ℕ
  retryAt : Option ℕ
  decisionId : Text

def Policy.toValue (p : Policy) : Value :=
  .object policyFields [.int p.baseDelayMs, .int p.multiplier, .int p.maxDelayMs]

def Request.toValue (q : Request) (p : Policy) : Value :=
  .object requestFields [.str "decide".toList, .str q.jobId, .int q.attempts, .str q.failure.text,
    .int q.now, p.toValue]

def optional (n : Option ℕ) : Value := (n.map fun n => Value.int n).getD .null

def recordValue (q : Request) (decision : Decision) (delayMs retryAt : Option ℕ) : Value :=
  .object ["op".toList, "job_id".toList, "decision".toList, "attempts".toList, "delay_ms".toList,
      "retry_at".toList]
    [.str "decide".toList, .str q.jobId, .str decision.text, .int q.attempts, optional delayMs,
      optional retryAt]

/-- What the id of a decision is the digest of. -/
def boundValue (q : Request) (p : Policy) (decision : Decision) (delayMs retryAt : Option ℕ) :
    Value :=
  .object ["request".toList, "record".toList]
    [q.toValue p, recordValue q decision delayMs retryAt]

def record (sha : Hex.Hash 64) (q : Request) (p : Policy) (decision : Decision)
    (delayMs retryAt : Option ℕ) : Record :=
  ⟨q.jobId, decision, q.attempts, delayMs, retryAt,
    taggedDigest sha "rd1".toList (boundValue q p decision delayMs retryAt)⟩

def Request.Hopeless (q : Request) : Prop := q.failure = .permanent ∨ maxAttempts ≤ q.attempts

instance (q : Request) : Decidable q.Hopeless := inferInstanceAs (Decidable (_ ∨ _))

def Policy.delay (p : Policy) (attempts : ℕ) : ℕ :=
  min p.maxDelayMs (p.baseDelayMs * p.multiplier ^ (attempts - 1))

/-- `decide`. -/
def decide (sha : Hex.Hash 64) (request : PyObj) : Except FailureClass Record :=
  match requestOk request with
  | none => .error .malformedRetryRequest
  | some (q, policy) =>
    match policyOk policy with
    | none => .error .invalidRetryPolicy
    | some p =>
      if q.Hopeless then .ok (record sha q p .dead none none)
      else if maxNow < q.now + p.delay q.attempts then .error .clockOverflow
      else .ok (record sha q p .retry (some (p.delay q.attempts))
        (some (q.now + p.delay q.attempts)))

/-! ### Decisions -/

def Asks (request : PyObj) (q : Request) (p : Policy) : Prop :=
  ∃ policy, requestOk request = some (q, policy) ∧ policyOk policy = some p

/-- The bounds of a checked policy. -/
structure Policy.Valid (p : Policy) : Prop where
  base : 1 ≤ p.baseDelayMs
  multiplier : 1 ≤ p.multiplier
  ordered : p.baseDelayMs ≤ p.maxDelayMs
  bounded : p.maxDelayMs ≤ Retry.maxDelayMs

variable {sha : Hex.Hash 64} {request policy : PyObj} {q : Request} {p : Policy} {r : Record}
  {a b d : ℕ}

theorem nat_bounds {o : PyObj} {lo hi n : ℕ} (h : o.nat? lo hi = some n) : lo ≤ n ∧ n ≤ hi := by
  obtain ⟨m, -, hlo, hhi, rfl⟩ := PyObj.nat?_eq_some.mp h
  omega

theorem valid_of_policyOk (h : policyOk policy = some p) : p.Valid := by
  unfold policyOk at h
  split at h
  · rename_i base multiplier maxDelay _
    split at h
    · rename_i b m hb hm
      obtain ⟨n, hn, rfl⟩ := Option.map_eq_some_iff.mp h
      exact ⟨(nat_bounds hb).1, (nat_bounds hm).1, (nat_bounds hn).1, (nat_bounds hn).2⟩
    · cases h
  · cases h

theorem one_le_attempts (h : requestOk request = some (q, policy)) : 1 ≤ q.attempts := by
  unfold requestOk at h
  split at h
  · split at h
    · rename_i hattempts _ _
      obtain ⟨rfl, -⟩ := Prod.mk.inj (Option.some.inj h)
      exact (nat_bounds hattempts).1
    · cases h
  · cases h

/-- What a request is decided as. -/
theorem decide_of_asks (h : Asks request q p) : decide sha request =
    if q.Hopeless then .ok (record sha q p .dead none none)
    else if maxNow < q.now + p.delay q.attempts then .error .clockOverflow
    else .ok (record sha q p .retry (some (p.delay q.attempts))
      (some (q.now + p.delay q.attempts))) := by
  obtain ⟨policy, hrequest, hpolicy⟩ := h
  simp only [decide, hrequest, hpolicy]

/-- An accepted decision is dead where there is no hope, and else a retry at a time of the clock. -/
theorem decide_eq_ok : decide sha request = .ok r ↔ ∃ q p, Asks request q p ∧
    (q.Hopeless ∧ r = record sha q p .dead none none ∨
      ¬ q.Hopeless ∧ q.now + p.delay q.attempts ≤ maxNow ∧
        r = record sha q p .retry (some (p.delay q.attempts))
          (some (q.now + p.delay q.attempts))) := by
  constructor
  · intro h
    cases hrequest : requestOk request with
    | none => simp [decide, hrequest] at h
    | some e =>
      obtain ⟨q, policy⟩ := e
      cases hpolicy : policyOk policy with
      | none => simp [decide, hrequest, hpolicy] at h
      | some p =>
        have hasks : Asks request q p := ⟨policy, hrequest, hpolicy⟩
        rw [decide_of_asks hasks] at h
        refine ⟨q, p, hasks, ?_⟩
        split_ifs at h with hhopeless hclock
        · exact .inl ⟨hhopeless, (Except.ok.inj h).symm⟩
        · exact .inr ⟨hhopeless, not_lt.mp hclock, (Except.ok.inj h).symm⟩
  · rintro ⟨q, p, hasks, ⟨hhopeless, rfl⟩ | ⟨hhopeless, hclock, rfl⟩⟩
    · rw [decide_of_asks hasks, if_pos hhopeless]
    · rw [decide_of_asks hasks, if_neg hhopeless, if_neg (not_lt.mpr hclock)]

theorem asks_unique {q' : Request} {p' : Policy} (h : Asks request q p) (h' : Asks request q' p') :
    q = q' ∧ p = p' := by
  obtain ⟨policy, hrequest, hpolicy⟩ := h
  obtain ⟨policy', hrequest', hpolicy'⟩ := h'
  rw [hrequest] at hrequest'
  obtain ⟨rfl, rfl⟩ := Prod.mk.inj (Option.some.inj hrequest')
  rw [hpolicy] at hpolicy'
  exact ⟨rfl, Option.some.inj hpolicy'⟩

/-! ### Delays -/

theorem Policy.Valid.delay_one (h : p.Valid) : p.delay 1 = p.baseDelayMs := by
  rw [Policy.delay, Nat.sub_self, pow_zero, mul_one]
  exact min_eq_right h.ordered

theorem Policy.Valid.delay_mono (h : p.Valid) (hle : a ≤ b) : p.delay a ≤ p.delay b :=
  min_le_min_left _ (Nat.mul_le_mul_left _ (Nat.pow_le_pow_right h.multiplier (by omega)))

theorem Policy.Valid.delay_bounds (h : p.Valid) (ha : 1 ≤ a) :
    p.baseDelayMs ≤ p.delay a ∧ p.delay a ≤ p.maxDelayMs := by
  refine ⟨?_, min_le_left _ _⟩
  rw [← h.delay_one]
  exact h.delay_mono ha

end Retry
end OpenChess
