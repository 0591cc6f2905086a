import OpenChess.Jobs.Payload

/-!
# Jobs and queue states

The data of the queue contract, and the checks of one job that its modules share. A
checked job keeps its values; its payload is kept as a value.
-/

namespace OpenChess
namespace Jobs

open Payload (Limits payloadsOk)

inductive Status
  | ready
  | leased
  | done
  | dead
  deriving DecidableEq, Repr

def Status.text : Status → Text
  | .ready => "ready".toList
  | .leased => "leased".toList
  | .done => "done".toList
  | .dead => "dead".toList

/-- `state.statuses` of the contract. -/
def statuses : List Status := [.ready, .leased, .done, .dead]

def statusOf? (t : Text) : Option Status := statuses.find? fun s => s.text == t

structure Job where
  jobId : Text
  seq : ℕ
  priority : ℕ
  payload : Value
  status : Status
  attempts : ℕ
  leaseOwner : Option Text
  leaseExpiresAt : Option ℕ

structure State where
  jobs : List Job
  nextSeq : ℕ

def stateFields : List Text := ["jobs".toList, "next_seq".toList]

def jobFields : List Text :=
  ["job_id".toList, "seq".toList, "priority".toList, "payload".toList, "status".toList,
    "attempts".toList, "lease_owner".toList, "lease_expires_at".toList]

def Job.toValue (j : Job) : Value :=
  .object jobFields [.str j.jobId, .int j.seq, .int j.priority, j.payload, .str j.status.text,
    .int j.attempts, (j.leaseOwner.map Value.str).getD .null,
    (j.leaseExpiresAt.map fun e => Value.int e).getD .null]

def State.toValue (s : State) : Value :=
  .object stateFields [.list (s.jobs.map Job.toValue), .int s.nextSeq]

/-- `json.loads` of the canonical text of a state. -/
def State.copy (s : State) : State :=
  ⟨s.jobs.map fun j => { j with payload := Json.copy j.payload }, s.nextSeq⟩

/-! ### Identifiers -/

def jobIdTag : Text := "job1:".toList

def stateIdTag : Text := "qs1:".toList

/-- `identifiers.job_id.grammar`. -/
def jobIdGrammar (t : Text) : Bool := Hex.tagged jobIdTag 64 t

def nameChar (c : Char) : Bool := c.isAlphanum || ['.', '_', ':', '-'].contains c

def nameGrammar (n : ℕ) (t : Text) : Bool :=
  decide (1 ≤ t.length) && decide (t.length ≤ n) && t.all nameChar

/-- `identifiers.worker.grammar`. -/
def workerGrammar : Text → Bool := nameGrammar 64

/-- `identifiers.dedupe_key.grammar`. -/
def dedupeKeyGrammar : Text → Bool := nameGrammar 128

/-- `job_id_for`. -/
def jobIdFor (sha : Hex.Hash 64) (dedupeKey : Text) : Text :=
  jobIdTag ++ sha.hexdigest ("job1|".toList ++ dedupeKey)

/-- `state_id_for`. -/
def stateIdFor (sha : Hex.Hash 64) (s : State) : Text :=
  stateIdTag ++ sha.hexdigest (Json.dumps false s.toValue)

/-! ### One job -/

/-- The bounds of a module. -/
structure Bounds where
  maxPriority : ℕ
  maxAttempts : ℕ
  maxNow : ℕ
  payload : Limits

def readLease (B : Bounds) (status : Status) (attempts : ℕ) (owner expires : PyObj) :
    Option (Option Text × Option ℕ) :=
  if status = .leased then
    match owner.text? workerGrammar, expires.nat? 1 B.maxNow with
    | some worker, some expiry => if 1 ≤ attempts then some (some worker, some expiry) else none
    | _, _ => none
  else if owner.isNull && expires.isNull then some (none, none)
  else none

/-- The checks of `_job_ok` but for the id, on the values under the names of a job, with
the containers met so far. -/
def readJob (B : Bounds) (lowest highest : ℤ) (visited : List ℕ) (jobId : Text)
    (seq priority payload status attempts owner expires : PyObj) : Option (Job × List ℕ) :=
  match seq.nat? lowest highest, priority.nat? 0 B.maxPriority,
      (status.text? fun _ => true).bind statusOf?, attempts.nat? 0 B.maxAttempts with
  | some seq, some priority, some status, some attempts =>
    match readLease B status attempts owner expires with
    | none => none
    | some (owner, expires) =>
      if status = .dead ∧ attempts ≠ B.maxAttempts then none
      else if status = .done ∧ attempts < 1 then none
      else (payloadsOk B.payload [payload] visited).map fun met =>
        (⟨jobId, seq, priority, payload.content, status, attempts, owner, expires⟩, met)
  | _, _, _, _ => none

/-- `_job_ok` of the modules that check the id with the job. -/
def jobOk (B : Bounds) (lowest highest : ℤ) (visited : List ℕ) (job : PyObj) :
    Option (Job × List ℕ) :=
  match job.fields? jobFields with
  | some [jobId, seq, priority, payload, status, attempts, owner, expires] =>
    match jobId.text? jobIdGrammar with
    | none => none
    | some jobId =>
      readJob B lowest highest visited jobId seq priority payload status attempts owner expires
  | _ => none

/-! ### Transitions of one job -/

/-- `job.update(status=status, lease_owner=None, lease_expires_at=None)`. -/
def Job.unleased (j : Job) (status : Status) : Job :=
  { j with status := status, leaseOwner := none, leaseExpiresAt := none }

def Job.leasedTo (j : Job) (worker : Text) (expires : ℕ) : Job :=
  { j with
    status := .leased
    attempts := j.attempts + 1
    leaseOwner := some worker
    leaseExpiresAt := some expires }

def Job.held (j : Job) (worker : Text) (now : ℕ) : Bool :=
  j.status == .leased && j.leaseOwner == some worker &&
    j.leaseExpiresAt.any fun expires => decide (now < expires)

end Jobs
end OpenChess

/-!
## Checked jobs

What the checks of a job establish. They look at the sequence bounds and at the
containers met before only to refuse a job, so wider bounds and fewer containers accept
the same job.
-/

namespace OpenChess
namespace Jobs

open Payload (payloadsOk Plain Passes trail)

variable {B : Bounds} {lowest highest : ℤ} {visited met : List ℕ} {jobId : Text}
  {seq priority payload status attempts owner expires : PyObj} {j : Job}

theorem statusOf?_eq_some {t : Text} {s : Status} : statusOf? t = some s ↔ t = s.text := by
  constructor
  · intro h
    have hfound := List.find?_some h
    exact (beq_iff_eq.mp hfound).symm
  · intro h
    subst h
    cases s <;> decide

theorem isNull_iff {o : PyObj} : o.isNull = true ↔ o = .atom .null := by
  cases o with
  | atom a => cases a <;> simp [PyObj.isNull]
  | _ => simp [PyObj.isNull]

/-- A leased job has a worker and an expiry, and any other job has neither. -/
theorem readLease_eq_some {s : Status} {a : ℕ} {worker : Option Text} {expiry : Option ℕ} :
    readLease B s a owner expires = some (worker, expiry) ↔
      (s = .leased ∧ ∃ w e, owner = .atom (.str w) ∧ workerGrammar w = true ∧
        expires.nat? 1 B.maxNow = some e ∧ 1 ≤ a ∧ worker = some w ∧ expiry = some e) ∨
      (s ≠ .leased ∧ owner = .atom .null ∧ expires = .atom .null ∧ worker = none ∧
        expiry = none) := by
  unfold readLease
  by_cases hs : s = .leased
  · simp only [hs, if_true, true_and, ne_eq, not_true_eq_false, false_and, or_false]
    cases howner : owner.text? workerGrammar with
    | none =>
      simp only [reduceCtorEq, false_iff]
      intro h
      obtain ⟨w, e, rfl, hw, -⟩ := h
      rw [PyObj.text?_eq_some.mpr ⟨rfl, hw⟩] at howner
      cases howner
    | some w =>
      obtain ⟨rfl, hw⟩ := PyObj.text?_eq_some.mp howner
      cases hexpires : expires.nat? 1 B.maxNow with
      | none => simp
      | some e =>
        simp only
        split_ifs with ha
        · simp only [Option.some.injEq, Prod.mk.injEq]
          constructor
          · intro h
            obtain ⟨rfl, rfl⟩ := h
            exact ⟨w, e, rfl, hw, rfl, ha, rfl, rfl⟩
          · intro h
            obtain ⟨w', e', hw', -, rfl, -, rfl, rfl⟩ := h
            simp only [PyObj.atom.injEq, Live.Atom.str.injEq] at hw'
            rw [hw']
            exact ⟨rfl, rfl⟩
        · simp only [false_iff]
          intro h
          obtain ⟨-, -, -, -, -, ha', -⟩ := h
          exact ha ha'
  · simp only [hs, if_false, false_and, false_or, ne_eq, not_false_eq_true, true_and]
    split_ifs with hnull
    · rw [Bool.and_eq_true, isNull_iff, isNull_iff] at hnull
      simp [hnull, eq_comm]
    · simp only [false_iff]
      intro h
      apply hnull
      rw [Bool.and_eq_true, isNull_iff, isNull_iff]
      exact ⟨h.1, h.2.1⟩

/-- The values of the fields a job is read from. -/
structure Reads (B : Bounds) (jobId : Text)
    (seq priority payload status attempts owner expires : PyObj) (j : Job) : Prop where
  jobId : j.jobId = jobId
  seq : seq = .atom (.int j.seq)
  priority : priority.nat? 0 B.maxPriority = some j.priority
  payload : j.payload = payload.content
  status : status = .atom (.str j.status.text)
  attempts : attempts.nat? 0 B.maxAttempts = some j.attempts
  lease : readLease B j.status j.attempts owner expires = some (j.leaseOwner, j.leaseExpiresAt)
  dead : j.status = .dead → j.attempts = B.maxAttempts
  done : j.status = .done → 1 ≤ j.attempts

theorem readStatus_eq_some {s : Status} :
    (status.text? fun _ => true).bind statusOf? = some s ↔ status = .atom (.str s.text) := by
  rw [Option.bind_eq_some_iff]
  constructor
  · intro h
    obtain ⟨t, ht, hs⟩ := h
    rw [← statusOf?_eq_some.mp hs]
    exact (PyObj.text?_eq_some.mp ht).1
  · intro h
    exact ⟨s.text, PyObj.text?_eq_some.mpr ⟨h, rfl⟩, statusOf?_eq_some.mpr rfl⟩

theorem readJob_eq_some (hlowest : 0 ≤ lowest) :
    readJob B lowest highest visited jobId seq priority payload status attempts owner expires =
        some (j, met) ↔
      Reads B jobId seq priority payload status attempts owner expires j ∧
        lowest ≤ j.seq ∧ (j.seq : ℤ) ≤ highest ∧ payloadsOk B.payload [payload] visited = some met := by
  unfold readJob
  constructor
  · intro h
    cases hseq : seq.nat? lowest highest with
    | none => simp [hseq] at h
    | some n =>
      cases hpriority : priority.nat? 0 B.maxPriority with
      | none => simp [hseq, hpriority] at h
      | some p =>
        cases hstatus : (status.text? fun _ => true).bind statusOf? with
        | none => simp [hseq, hpriority, hstatus] at h
        | some s =>
          cases hattempts : attempts.nat? 0 B.maxAttempts with
          | none => simp [hseq, hpriority, hstatus, hattempts] at h
          | some a =>
            cases hlease : readLease B s a owner expires with
            | none => simp [hseq, hpriority, hstatus, hattempts, hlease] at h
            | some l =>
              simp only [hseq, hpriority, hstatus, hattempts, hlease] at h
              split_ifs at h with hdead hdone
              obtain ⟨m, hm, hj⟩ := Option.map_eq_some_iff.mp h
              obtain ⟨rfl, rfl⟩ := Prod.mk.inj hj
              obtain ⟨k, rfl, hlo, hhi, rfl⟩ := PyObj.nat?_eq_some.mp hseq
              have hk : ((k.toNat : ℕ) : ℤ) = k := by omega
              refine ⟨⟨rfl, by rw [hk], hpriority, rfl, readStatus_eq_some.mp hstatus, hattempts,
                hlease, fun hs => ?_, fun hs => ?_⟩, by rw [hk]; exact hlo, by rw [hk]; exact hhi, hm⟩
              · exact not_not.mp fun hne => hdead ⟨hs, hne⟩
              · exact not_lt.mp fun hlt => hdone ⟨hs, hlt⟩
  · intro h
    obtain ⟨hreads, hlo, hhi, hm⟩ := h
    have hseq : seq.nat? lowest highest = some j.seq :=
      PyObj.nat?_eq_some.mpr ⟨j.seq, hreads.seq, hlo, hhi, Int.toNat_natCast _⟩
    have hdead : ¬ (j.status = .dead ∧ j.attempts ≠ B.maxAttempts) :=
      fun hne => hne.2 (hreads.dead hne.1)
    have hdone : ¬ (j.status = .done ∧ j.attempts < 1) :=
      fun hlt => absurd (hreads.done hlt.1) (not_le.mpr hlt.2)
    simp only [hseq, hreads.priority, readStatus_eq_some.mpr hreads.status, hreads.attempts,
      hreads.lease, hdead, hdone, if_false, hm, Option.map_some, ← hreads.payload, ← hreads.jobId]

/-- Wider bounds and fewer containers accept the same job. -/
theorem readJob_weaken {lowest' highest' : ℤ} {visited' : List ℕ} (hlowest : 0 ≤ lowest)
    (hlowest' : 0 ≤ lowest')
    (h : readJob B lowest highest visited jobId seq priority payload status attempts owner expires =
      some (j, met))
    (hlo : lowest' ≤ j.seq) (hhi : (j.seq : ℤ) ≤ highest') (hvisited : visited' ⊆ visited) :
    ∃ met', readJob B lowest' highest' visited' jobId seq priority payload status attempts owner
      expires = some (j, met') := by
  obtain ⟨hreads, -, -, hm⟩ := (readJob_eq_some hlowest).mp h
  obtain ⟨hpasses, -⟩ := Payload.payloadsOk_eq_some.mp hm
  have hpasses' : Passes B.payload 1 visited' payload :=
    { hpasses with fresh := fun p hp hv => hpasses.fresh p hp (hvisited hv) }
  exact ⟨_, (readJob_eq_some hlowest').mpr
    ⟨hreads, hlo, hhi, Payload.payloadsOk_eq_some.mpr ⟨hpasses', rfl⟩⟩⟩

/-- A checked job has the fields of a job, and its id has the form of one. -/
theorem jobOk_eq_some {job : PyObj} : jobOk B lowest highest visited job = some (j, met) ↔
    ∃ seq priority payload status attempts owner expires,
      job.fields? jobFields = some [.atom (.str j.jobId), seq, priority, payload, status, attempts,
        owner, expires] ∧
      jobIdGrammar j.jobId = true ∧
      readJob B lowest highest visited j.jobId seq priority payload status attempts owner expires =
        some (j, met) := by
  have hid : ∀ {jobId seq priority payload status attempts owner expires},
      readJob B lowest highest visited jobId seq priority payload status attempts owner expires =
        some (j, met) → j.jobId = jobId := by
    intro jobId seq priority payload status attempts owner expires h
    unfold readJob at h
    split at h
    · split at h
      · cases h
      · split_ifs at h
        obtain ⟨m, -, hj⟩ := Option.map_eq_some_iff.mp h
        obtain ⟨rfl, -⟩ := Prod.mk.inj hj
        rfl
    · cases h
  constructor
  · intro h
    unfold jobOk at h
    split at h
    · rename_i jobId seq priority payload status attempts owner expires hfields
      split at h
      · cases h
      · rename_i t ht
        obtain ⟨rfl, hgrammar⟩ := PyObj.text?_eq_some.mp ht
        obtain rfl := hid h
        exact ⟨seq, priority, payload, status, attempts, owner, expires, hfields, hgrammar, h⟩
    · cases h
  · intro h
    obtain ⟨seq, priority, payload, status, attempts, owner, expires, hfields, hgrammar, hread⟩ := h
    have htext : (PyObj.atom (.str j.jobId)).text? jobIdGrammar = some j.jobId :=
      PyObj.text?_eq_some.mpr ⟨rfl, hgrammar⟩
    simp only [jobOk, hfields, htext, hread]

end Jobs
end OpenChess
