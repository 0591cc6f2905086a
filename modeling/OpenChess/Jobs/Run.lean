import OpenChess.Jobs.QueueSpec
import OpenChess.Jobs.Restart

/-!
# Runs of a queue

Queue requests and worker restarts on one state, each accepted or rejected. One call
moves every job at most once, and the answer of the call says how. The states a run
reaches are valid, and each is its own canonical copy.
-/

namespace OpenChess
namespace Jobs

open Queue (maxAttempts maxJobs maxNow claimable)
open Payload (Plain)

inductive Call
  | queue (request : PyObj)
  | restart (request : PyObj)

/-- What a call returned, with its request. -/
inductive Answer
  | queue (q : Queue.Request) (r : Queue.Receipt)
  | restart (r : Restart.Record)

def Call.perform (sha : Hex.Hash 64) (state : PyObj) : Call → Option (State × Answer)
  | .queue request =>
    match Queue.checkRequest Queue.clockLimit request, Queue.apply sha state request with
    | some q, .ok (s, r) => some (s, .queue q r)
    | _, _ => none
  | .restart request =>
    match Restart.restart sha state request with
    | .ok (s, r) => some (s, .restart r)
    | .error _ => none

/-- The state a run has reached, and the answers of its accepted calls in order. -/
structure Trail where
  state : State
  history : List Answer

def Trail.start : Trail := ⟨⟨[], 0⟩, []⟩

/-- The trail after a call; a rejected call leaves it. -/
def Trail.step (sha : Hex.Hash 64) (t : Trail) (c : Call) : Trail :=
  match c.perform sha t.state.object with
  | some (s, a) => ⟨s, t.history ++ [a]⟩
  | none => t

def run (sha : Hex.Hash 64) (calls : List Call) : Trail := calls.foldl (Trail.step sha) .start

/-! ### Answers -/

/-- The job of a request: the one it names, else the one its receipt names. -/
def subject (r : Queue.Receipt) : Queue.Request → Option Text
  | .ack _ _ jobId => some jobId
  | .nack _ _ jobId => some jobId
  | _ => r.jobId

def Answer.on (op : Queue.Op) (jobId : Text) : Answer → Bool
  | .queue q r => q.op == op && subject r q == some jobId
  | .restart _ => false

def Answer.releases (jobId : Text) : Answer → Bool
  | .queue .. => false
  | .restart r => r.released.contains jobId

def Answer.touches (jobId : Text) (a : Answer) : Bool :=
  a.on .claim jobId || a.on .ack jobId || a.on .nack jobId || a.releases jobId

def Answer.jobIds (sha : Hex.Hash 64) : Answer → List Text
  | .queue (.enqueue key _ _) _ => [jobIdFor sha key]
  | .queue q r => (subject r q).toList
  | .restart r => r.released

variable {sha : Hex.Hash 64} {s s' : State} {a : Answer} {j j' k : Job} {js js' : List Job}
  {jobId : Text} {c : Call} {t : Trail}

theorem Answer.mem_jobIds (h : a.touches jobId = true) : jobId ∈ a.jobIds sha := by
  cases a with
  | queue q r =>
    simp only [touches, on, releases, Bool.or_false, ← Bool.and_or_distrib_right, Bool.and_eq_true,
      beq_iff_eq] at h
    cases q with
    | enqueue key priority payload => cases h.1
    | claim worker now leaseMs => exact Option.mem_toList.mpr h.2
    | ack worker now id => exact Option.mem_toList.mpr h.2
    | nack worker now id => exact Option.mem_toList.mpr h.2
  | restart r =>
    simp only [touches, on, releases, Bool.false_or, List.contains_iff_mem] at h
    exact h

theorem Answer.on_of_touches (op : Queue.Op) (hop : op ≠ .enqueue) (h : a.touches jobId = false) :
    a.on op jobId = false := by
  simp only [touches, Bool.or_eq_false_iff] at h
  obtain ⟨⟨⟨hclaim, hack⟩, hnack⟩, -⟩ := h
  cases op with
  | enqueue => exact absurd rfl hop
  | claim => exact hclaim
  | ack => exact hack
  | nack => exact hnack

/-! ### Transitions -/

/-- What a call with this answer does to one job. -/
inductive Moves (a : Answer) (j : Job) : Job → Prop
  | kept (h : a.touches j.jobId = false) : Moves a j j
  | buried (h : a.touches j.jobId = false) (hstatus : j.status = .ready ∨ j.status = .leased)
      (hattempts : maxAttempts ≤ j.attempts) : Moves a j (j.unleased .dead)
  | claimed {worker : Text} {now leaseMs : ℕ} {r : Queue.Receipt}
      (h : a = .queue (.claim worker now leaseMs) r) (hr : r.jobId = some j.jobId)
      (hexpires : r.leaseExpiresAt = some (now + leaseMs)) (hworker : workerGrammar worker = true)
      (hlease : 1 ≤ leaseMs) (hlimit : now + leaseMs ≤ maxNow) (hclaimable : claimable now j = true)
      (hattempts : j.attempts < maxAttempts) : Moves a j (j.leasedTo worker (now + leaseMs))
  | acked {worker : Text} {now : ℕ} {r : Queue.Receipt} (h : a = .queue (.ack worker now j.jobId) r)
      (hheld : j.held worker now = true) : Moves a j (j.unleased .done)
  | nacked {worker : Text} {now : ℕ} {r : Queue.Receipt}
      (h : a = .queue (.nack worker now j.jobId) r) (hheld : j.held worker now = true) :
      Moves a j (j.unleased .ready)
  | released {r : Restart.Record} (h : a = .restart r) (hmem : j.jobId ∈ r.released)
      (hheld : j.held r.worker r.restartedAt = true) : Moves a j (j.unleased .ready)

/-- What a call with this answer does to a state. -/
inductive Transition (sha : Hex.Hash 64) (a : Answer) (s : State) : State → Prop
  | moved {s' : State} (next : s'.nextSeq = s.nextSeq) (jobs : List.Forall₂ (Moves a) s.jobs s'.jobs)
      (known : ∀ jobId ∈ a.jobIds sha, jobId ∈ s.jobs.map Job.jobId) : Transition sha a s s'
  | enqueued {key : Text} {priority : ℕ} {payload : Value} {r : Queue.Receipt}
      (h : a = .queue (.enqueue key priority payload) r) (hr : r.jobId = some (jobIdFor sha key))
      (hpriority : priority ≤ Queue.maxPriority)
      (hpayload : Plain Queue.bounds.payload Queue.maxDepth payload)
      (hcopy : Json.copy payload = payload)
      (hfresh : jobIdFor sha key ∉ s.jobs.map Job.jobId) (hlength : s.jobs.length < maxJobs)
      (hnext : s.nextSeq < maxNow) :
      Transition sha a s
        ⟨s.jobs ++ [Queue.newJob sha s key priority payload], s.nextSeq + 1⟩

theorem held_status {worker : Text} {now : ℕ} (h : j.held worker now = true) :
    j.status = .leased ∧ j.leaseOwner = some worker ∧
      ∃ expires, j.leaseExpiresAt = some expires ∧ now < expires := by
  simp only [Job.held, Bool.and_eq_true, beq_iff_eq, Option.any_eq_true, decide_eq_true_eq] at h
  exact ⟨h.1.1, h.1.2, h.2⟩

theorem claimable_status {now : ℕ} (h : claimable now j = true) :
    j.status = .ready ∨ (j.status = .leased ∧
      ∃ expires, j.leaseExpiresAt = some expires ∧ expires ≤ now) := by
  simp only [claimable, Bool.or_eq_true, Bool.and_eq_true, beq_iff_eq, Option.any_eq_true,
    decide_eq_true_eq] at h
  exact h

/-! ### The transition of a call -/

def State.Canonical (s : State) : Prop := ∀ j ∈ s.jobs, Json.copy j.payload = j.payload

theorem State.Canonical.copy (h : s.Canonical) : s.copy = s := by
  have hjobs : (s.jobs.map fun j => { j with payload := Json.copy j.payload }) = s.jobs := by
    rw [List.map_congr_left (g := id), List.map_id]
    intro j hj
    rw [h j hj]
    rfl
  rw [State.copy, hjobs]

theorem canonical_copy (s : State) : s.copy.Canonical := by
  intro j hj
  obtain ⟨k, -, rfl⟩ := List.mem_map.mp hj
  exact Json.copy_copy k.payload

/-- A copy of a valid state is valid. -/
theorem State.Valid.copy (h : s.Valid) : s.copy.Valid := by
  have hids : s.copy.jobs.map Job.jobId = s.jobs.map Job.jobId := List.map_map
  have hseqs : s.copy.jobs.map Job.seq = s.jobs.map Job.seq := List.map_map
  refine ⟨h.nextSeq, by rw [State.copy, List.length_map]; exact h.length, fun j hj => ?_,
    by rw [hids]; exact h.ids, by rw [hseqs]; exact h.increasing, fun j hj => ?_⟩
  · obtain ⟨k, hk, rfl⟩ := List.mem_map.mp hj
    exact { h.jobs k hk with payload := (h.jobs k hk).payload.copy }
  · obtain ⟨k, hk, rfl⟩ := List.mem_map.mp hj
    exact h.below k hk

theorem moves_refl (h : ∀ jobId, a.touches jobId = false) (js : List Job) :
    List.Forall₂ (Moves a) js js :=
  List.forall₂_same.mpr fun j _ => .kept (h j.jobId)

theorem transition_enqueue {key : Text} {priority : ℕ} {payload : Value} {out : Option Job}
    (hq : (Queue.Request.enqueue key priority payload).Valid maxNow)
    (h : Queue.enqueue sha s key priority payload = .ok (s', out)) :
    Transition sha (.queue (.enqueue key priority payload) (Queue.receiptOf sha .enqueue s' out)) s
      s' := by
  obtain ⟨hpriority, hplain, hcopy⟩ := hq
  rcases Queue.enqueue_eq_ok h with ⟨j, hj, hid, rfl, rfl⟩ | ⟨hfresh, hlength, hnext, rfl, rfl⟩
  · refine .moved rfl (moves_refl (fun jobId => rfl) _) fun jobId hmem => ?_
    rw [List.mem_singleton.mp hmem, ← hid]
    exact List.mem_map_of_mem hj
  · exact .enqueued rfl rfl hpriority hplain hcopy hfresh hlength hnext

theorem on_claim {worker : Text} {now leaseMs : ℕ} {out : Option Job} :
    (Answer.queue (.claim worker now leaseMs) (Queue.receiptOf sha .claim s out)).touches jobId =
      decide (out.map Job.jobId = some jobId) := by
  simp [Answer.touches, Answer.on, Answer.releases, Queue.Request.op, subject, Queue.receiptOf,
    beq_eq_decide]

theorem transition_claim {worker : Text} {now leaseMs : ℕ}
    (hq : (Queue.Request.claim worker now leaseMs).Valid maxNow)
    (hids : (s.jobs.map Job.jobId).Nodup) :
    Transition sha (.queue (.claim worker now leaseMs) (Queue.receiptOf sha .claim
      (Queue.claim s worker now leaseMs).1 (Queue.claim s worker now leaseMs).2)) s
      (Queue.claim s worker now leaseMs).1 := by
  obtain ⟨hworker, hlease, hlimit⟩ := hq
  have hspec : (Queue.claim s worker now leaseMs).1.nextSeq = s.nextSeq ∧
      List.Forall₂ (Queue.Claims worker now leaseMs (Queue.claim s worker now leaseMs).2) s.jobs
        (Queue.claim s worker now leaseMs).1.jobs := Queue.claim_spec hids
  obtain ⟨hnext, hjobs⟩ := hspec
  refine .moved hnext (hjobs.imp fun k k' h => ?_) fun jobId hmem => ?_
  · cases h with
    | kept hout => exact .kept (by rw [on_claim, decide_eq_false hout])
    | buried hclaimable hattempts hout =>
      exact .buried (by rw [on_claim, decide_eq_false hout])
        ((claimable_status hclaimable).imp_right And.left) hattempts
    | leased hclaimable hattempts hout =>
      exact .claimed rfl (by rw [Queue.receiptOf, hout]; rfl) (by rw [Queue.receiptOf, hout]; rfl)
        hworker hlease hlimit hclaimable hattempts
  · obtain ⟨j, hout, rfl⟩ := Option.map_eq_some_iff.mp (Option.mem_toList.mp hmem)
    obtain ⟨k, hk, rfl⟩ := Queue.claim_eq_some hout
    exact List.mem_map.mpr ⟨k, hk, rfl⟩

theorem on_settle {worker : Text} {now : ℕ} {jobId' : Text} {q : Queue.Request}
    {r : Queue.Receipt} (hq : q = .ack worker now jobId' ∨ q = .nack worker now jobId') :
    (Answer.queue q r).touches jobId = decide (jobId' = jobId) := by
  rcases hq with rfl | rfl <;>
    simp [Answer.touches, Answer.on, Answer.releases, Queue.Request.op, subject, beq_eq_decide]

/-- An `ack` or a `nack` moves the job it names. -/
theorem transition_settle {worker : Text} {now : ℕ} {status : Status} {out : Option Job}
    {q : Queue.Request} {r : Queue.Receipt}
    (hq : q = .ack worker now jobId ∨ q = .nack worker now jobId)
    (hmoves : ∀ j, j.jobId = jobId → j.held worker now = true →
      Moves (.queue q r) j (j.unleased status))
    (hids : (s.jobs.map Job.jobId).Nodup)
    (h : Queue.settle s worker now jobId status = .ok (s', out)) :
    Transition sha (.queue q r) s s' := by
  obtain ⟨j, hj, rfl, hheld, rfl, rfl⟩ := Queue.settle_eq_ok h
  refine .moved rfl (Queue.forall₂_put (fun k hk hid => ?_) fun k _ hne => .kept ?_)
    fun id hmem => ?_
  · obtain rfl := Queue.job_unique hids hk hj hid
    exact hmoves k rfl hheld
  · have hother : j.jobId ≠ k.jobId := Ne.symm hne
    rw [on_settle hq, decide_eq_false hother]
  · have hid : id = j.jobId := by
      rcases hq with rfl | rfl <;> exact List.mem_singleton.mp hmem
    exact List.mem_map.mpr ⟨j, hj, hid.symm⟩

theorem mem_released {worker : Text} {now : ℕ} (hids : (s.jobs.map Job.jobId).Nodup)
    (hj : j ∈ s.jobs) : j.jobId ∈ Restart.released s worker now ↔ j.held worker now = true := by
  constructor
  · intro h
    obtain ⟨k, hk, hid⟩ := List.mem_map.mp h
    obtain ⟨hk, hheld⟩ := List.mem_filter.mp hk
    rwa [Queue.job_unique hids hj hk hid.symm]
  · intro h
    exact List.mem_map_of_mem (List.mem_filter.mpr ⟨hj, h⟩)

theorem transition_restart (q : Restart.Request) (hids : (s.jobs.map Job.jobId).Nodup) :
    Transition sha (.restart (Restart.record sha s q)) s (Restart.release s q.worker q.now) := by
  have hreleased : (Restart.record sha s q).released = Restart.released s q.worker q.now := rfl
  refine .moved rfl ?_ fun id hmem => ?_
  · unfold Restart.release
    rw [List.forall₂_map_right_iff, List.forall₂_same]
    intro k hk
    split_ifs with hheld
    · exact .released rfl ((mem_released hids hk).mpr hheld) hheld
    · refine .kept ?_
      rw [Bool.eq_false_iff]
      intro htouches
      have hmem : k.jobId ∈ (Answer.restart (Restart.record sha s q)).jobIds sha :=
        Answer.mem_jobIds htouches
      exact hheld ((mem_released hids hk).mp hmem)
  · obtain ⟨k, hk, rfl⟩ := List.mem_map.mp hmem
    exact List.mem_map_of_mem (List.mem_of_mem_filter hk)

/-- An accepted call makes a transition. -/
theorem transition_of_perform (hvalid : s.Valid) (hcanonical : s.Canonical)
    (h : c.perform sha s.object = some (s', a)) : Transition sha a s s' := by
  cases c with
  | queue request =>
    cases hq : Queue.checkRequest Queue.clockLimit request with
    | none => simp [Call.perform, hq] at h
    | some q =>
      have hqvalid := Queue.valid_of_checkRequest hq
      cases hperform : Queue.perform sha s q with
      | error f =>
        simp [Call.perform, Queue.apply, hq, hvalid.checkState, hcanonical.copy, hperform] at h
      | ok p =>
        obtain ⟨s'', out⟩ := p
        simp only [Call.perform, Queue.apply, hq, hvalid.checkState, hcanonical.copy, hperform,
          Option.some.injEq, Prod.mk.injEq] at h
        obtain ⟨rfl, rfl⟩ := h
        cases q with
        | enqueue key priority payload => exact transition_enqueue hqvalid hperform
        | claim worker now leaseMs =>
          obtain ⟨rfl, rfl⟩ := Prod.mk.inj (Except.ok.inj hperform)
          exact transition_claim hqvalid hvalid.ids
        | ack worker now jobId =>
          refine transition_settle (.inl rfl) (fun j hid hheld => ?_) hvalid.ids hperform
          subst hid
          exact .acked rfl hheld
        | nack worker now jobId =>
          refine transition_settle (.inr rfl) (fun j hid hheld => ?_) hvalid.ids hperform
          subst hid
          exact .nacked rfl hheld
  | restart request =>
    have haccepted := hvalid.checkState
    rw [checkState_eq] at haccepted
    cases hq : Restart.requestOk request with
    | none => simp [Call.perform, Restart.restart, hq] at h
    | some q =>
      simp only [Call.perform, Restart.restart, hq, haccepted, hcanonical.copy, Option.some.injEq,
        Prod.mk.injEq] at h
      obtain ⟨rfl, rfl⟩ := h
      exact transition_restart q hvalid.ids

end Jobs
end OpenChess
