import OpenChess.Jobs.LifeCycle

/-!
# A restart as a series of nacks

A restart leaves the state that the queue reaches when each live lease of the worker is
given back by a nack of its own, in any order. A second restart finds no lease.
-/

namespace OpenChess
namespace Jobs

variable {sha : Hex.Hash 64} {s : State} {j : Job} {js : List Job} {worker : Text} {now : ℕ}
  {state request : PyObj} {requests : List PyObj} {q : Restart.Request}

/-- The state an object holds, with its payloads in canonical form. -/
def stateOf (o : PyObj) : Option State := (Queue.checkState o).map State.copy

def applyAll (sha : Hex.Hash 64) : PyObj → List PyObj → Option PyObj
  | state, [] => some state
  | state, request :: requests =>
    match Queue.apply sha state request with
    | .ok (s, _) => applyAll sha s.object requests
    | .error _ => none

def Nacks (worker : Text) (now : ℕ) (jobId : Text) (request : PyObj) : Prop :=
  Queue.checkRequest Queue.clockLimit request = some (.nack worker now jobId)

/-- A valid state whose payloads are in canonical form, as a commit leaves it. -/
structure State.Settled (s : State) : Prop where
  valid : s.Valid
  canonical : s.Canonical

theorem settled_copy (h : Queue.checkState state = some s) : s.copy.Settled :=
  ⟨(valid_of_checkState h).copy, canonical_copy s⟩

theorem State.Settled.stateOf (h : s.Settled) : stateOf s.object = some s := by
  rw [Jobs.stateOf, h.valid.checkState, Option.map_some, h.canonical.copy]

/-! ### Nacks -/

def nackRequest (worker : Text) (now : ℕ) (jobId : Text) : PyObj :=
  .object 0 Queue.Op.nack.fields
    [.atom (.str Queue.Op.nack.text), .atom (.str jobId), .atom (.str worker), .atom (.int now)]

theorem nacks_nackRequest {jobId : Text} (hworker : workerGrammar worker = true)
    (hnow : now ≤ Queue.maxNow) (hjobId : jobIdGrammar jobId = true) :
    Nacks worker now jobId (nackRequest worker now jobId) := by
  have hfields : (nackRequest worker now jobId).fields? Queue.Op.nack.fields =
      some [.atom (.str Queue.Op.nack.text), .atom (.str jobId), .atom (.str worker),
        .atom (.int now)] := PyObj.fields?_object 0 (by decide) rfl
  have hop : (nackRequest worker now jobId).member? "op".toList =
      some (.atom (.str Queue.Op.nack.text)) :=
    PyObj.member?_of_fields? (i := 0) hfields rfl
  have hknown : Queue.opOf? Queue.Op.nack.text = some .nack := by decide
  have hclock : (PyObj.atom (.int now)).nat? 0 Queue.maxNow = some now :=
    PyObj.nat?_eq_some.mpr ⟨now, rfl, by omega, by omega, Int.toNat_natCast now⟩
  simp only [Nacks, Queue.checkRequest, hop, hknown, hfields, Queue.checkSettle, hclock,
    PyObj.text?_eq_some.mpr ⟨rfl, hworker⟩, PyObj.text?_eq_some.mpr ⟨rfl, hjobId⟩, Option.map_some]

theorem settle_held (status : Status) (hids : (s.jobs.map Job.jobId).Nodup) (hj : j ∈ s.jobs)
    (hheld : j.held worker now = true) : Queue.settle s worker now j.jobId status =
      .ok (Queue.put s (j.unleased status), some (j.unleased status)) := by
  have hfound : Queue.byId s.jobs j.jobId = some j := by
    cases hfound : Queue.byId s.jobs j.jobId with
    | none => exact absurd (List.mem_map_of_mem hj) (Queue.byId_eq_none.mp hfound)
    | some k =>
      obtain ⟨hk, hid⟩ := Queue.byId_eq_some hfound
      rw [Queue.job_unique hids hk hj hid]
  rw [Queue.settle, hfound]
  simp only [hheld, Bool.true_eq_false, if_false]

theorem apply_nack (hstate : stateOf state = some s) (hrequest : Nacks worker now j.jobId request)
    (hids : (s.jobs.map Job.jobId).Nodup) (hj : j ∈ s.jobs) (hheld : j.held worker now = true) :
    ∃ r, Queue.apply sha state request = .ok (Queue.put s (j.unleased .ready), r) := by
  obtain ⟨s', hs', rfl⟩ := Option.map_eq_some_iff.mp hstate
  rw [Nacks] at hrequest
  simp only [Queue.apply, hrequest, hs', Queue.perform, settle_held .ready hids hj hheld]
  exact ⟨_, rfl⟩

theorem settled_put (h : s.Settled) (hj : j ∈ s.jobs) (hheld : j.held worker now = true) :
    (Queue.put s (j.unleased .ready)).Settled := by
  let q : Queue.Request := .nack worker now j.jobId
  let r : Queue.Receipt := Queue.receiptOf (.lengths 64) .nack s none
  have hstep : Transition (.lengths 64) (.queue q r) s (Queue.put s (j.unleased .ready)) := by
    refine transition_settle (.inr rfl) (fun k hid hk => ?_) h.valid.ids
      (settle_held .ready h.valid.ids hj hheld)
    have hq : q = .nack worker now k.jobId := by rw [hid]
    rw [hq]
    exact .nacked rfl hk
  exact ⟨hstep.valid h.valid, hstep.canonical h.canonical⟩

theorem applyAll_nacks (hsettled : s.Settled) (hstate : stateOf state = some s)
    (hrequests : List.Forall₂ (Nacks worker now) (js.map Job.jobId) requests)
    (hjs : ∀ j ∈ js, j ∈ s.jobs ∧ j.held worker now = true) (hnodup : (js.map Job.jobId).Nodup) :
    ∃ state', applyAll sha state requests = some state' ∧
      stateOf state' = some (Queue.putAll (fun j => j.unleased .ready) js s) := by
  induction js generalizing s state requests with
  | nil =>
    cases hrequests
    exact ⟨state, rfl, hstate⟩
  | cons j js ih =>
    rw [List.map_cons] at hrequests hnodup
    cases hrequests with
    | @cons _ request _ requests hrequest hrequests =>
      rw [List.forall_mem_cons] at hjs
      rw [List.nodup_cons] at hnodup
      obtain ⟨⟨hj, hheld⟩, hjs⟩ := hjs
      obtain ⟨r, happly⟩ : ∃ r, Queue.apply sha _ request = .ok (Queue.put s (j.unleased .ready), r) :=
        apply_nack hstate hrequest hsettled.valid.ids hj hheld
      have hnext := settled_put hsettled hj hheld
      have hkeep : ∀ k ∈ js, k ∈ (Queue.put s (j.unleased .ready)).jobs ∧
          k.held worker now = true := by
        intro k hk
        have hne : k.jobId ≠ j.jobId := fun hid => hnodup.1 (hid ▸ List.mem_map_of_mem hk)
        exact ⟨Queue.mem_put (hjs k hk).1 hne, (hjs k hk).2⟩
      obtain ⟨state', hall, hfinal⟩ := ih hnext hnext.stateOf hrequests hkeep hnodup.2
      refine ⟨state', ?_, hfinal⟩
      simp only [applyAll, happly, hall]

/-! ### Releases -/

def heldJobs (s : State) (worker : Text) (now : ℕ) : List Job :=
  s.jobs.filter fun j => j.held worker now

theorem mem_heldJobs : j ∈ heldJobs s worker now ↔ j ∈ s.jobs ∧ j.held worker now = true := by
  rw [heldJobs, List.mem_filter]

theorem nodup_heldJobs (h : s.Valid) : ((heldJobs s worker now).map Job.jobId).Nodup :=
  h.ids.sublist (List.filter_sublist.map Job.jobId)

theorem putAll_held (h : s.Valid) (hperm : js.Perm (heldJobs s worker now)) :
    Queue.putAll (fun j => j.unleased .ready) js s = Restart.release s worker now := by
  have hmem : ∀ j ∈ js, j ∈ s.jobs ∧ j.held worker now = true :=
    fun j hj => mem_heldJobs.mp (hperm.mem_iff.mp hj)
  rw [Queue.putAll_eq (f := fun j => j.unleased .ready) (fun _ => rfl) h.ids
    (fun j hj => (hmem j hj).1) ((hperm.map Job.jobId).nodup_iff.mpr (nodup_heldJobs h)), Restart.release]
  refine congrArg (State.mk · s.nextSeq) (List.map_congr_left fun k hk => ?_)
  have hiff : k.jobId ∈ js.map Job.jobId ↔ k.held worker now = true := by
    rw [(hperm.map Job.jobId).mem_iff]
    exact mem_released h.ids hk
  by_cases hheld : k.held worker now = true
  · rw [if_pos (hiff.mpr hheld), if_pos hheld]
  · rw [if_neg fun hid => hheld (hiff.mp hid), if_neg hheld]

theorem settled_release (h : s.Settled) : (Restart.release s worker now).Settled := by
  have hstep : Transition (.lengths 64) _ s (Restart.release s worker now) :=
    transition_restart ⟨worker, now⟩ h.valid.ids
  exact ⟨hstep.valid h.valid, hstep.canonical h.canonical⟩

theorem heldJobs_release : heldJobs (Restart.release s worker now) worker now = [] := by
  rw [heldJobs, List.filter_eq_nil_iff]
  intro k hk
  obtain ⟨j, -, rfl⟩ := List.mem_map.mp hk
  split_ifs with hheld
  · exact Bool.false_ne_true
  · exact hheld

theorem release_of_heldJobs (h : heldJobs s worker now = []) :
    Restart.release s worker now = s := by
  rw [heldJobs, List.filter_eq_nil_iff] at h
  have hjobs : (s.jobs.map fun j => if j.held worker now then j.unleased .ready else j) =
      s.jobs.map id := List.map_congr_left fun j hj => if_neg (h j hj)
  rw [Restart.release, hjobs, List.map_id]

/-! ### Restarts -/

theorem requestOk_bounds (h : Restart.requestOk request = some q) :
    workerGrammar q.worker = true ∧ q.now ≤ Queue.maxNow := by
  unfold Restart.requestOk at h
  split at h
  · split at h
    · rename_i worker now _ hworker hnow
      obtain rfl := Option.some.inj h
      obtain ⟨m, -, hlo, hhi, rfl⟩ := PyObj.nat?_eq_some.mp hnow
      have hmax : m ≤ Queue.maxNow := hhi
      have hclock : m.toNat ≤ Queue.maxNow := by omega
      exact ⟨(PyObj.text?_eq_some.mp hworker).2, hclock⟩
    · cases h
  · cases h

theorem restart_eq (hstate : stateOf state = some s)
    (hrequest : Restart.requestOk request = some q) : Restart.restart sha state request =
    .ok (Restart.release s q.worker q.now, Restart.record sha s q) := by
  obtain ⟨s', hs', rfl⟩ := Option.map_eq_some_iff.mp hstate
  rw [checkState_eq] at hs'
  simp only [Restart.restart, hrequest, hs']

/-- A restart leaves the state that nacks of the live leases of its worker leave, in any order.
It names their jobs by sequence number, and a second restart changes nothing. -/
theorem restart_nacks (sha : Hex.Hash 64) (hstate : stateOf state = some s)
    (hrequest : Restart.requestOk request = some q) :
    ∃ s' r, Restart.restart sha state request = .ok (s', r) ∧
      (∃ held : List Job, r.released = held.map Job.jobId ∧ (held.map Job.seq).Pairwise (· < ·) ∧
        ∀ j, j ∈ held ↔ j ∈ s.jobs ∧ j.held q.worker q.now = true) ∧
      (∀ order, order.Perm r.released →
        List.Forall₂ (Nacks q.worker q.now) order (order.map (nackRequest q.worker q.now)) ∧
        ∀ requests, List.Forall₂ (Nacks q.worker q.now) order requests →
          ∃ state', applyAll sha state requests = some state' ∧ stateOf state' = some s') ∧
      ∃ r', Restart.restart sha s'.object request = .ok (s', r') ∧ r'.released = [] := by
  have hsettled : s.Settled := by
    obtain ⟨s', hs', rfl⟩ := Option.map_eq_some_iff.mp hstate
    exact settled_copy hs'
  refine ⟨_, _, restart_eq hstate hrequest, ?_, ?_, ?_⟩
  · exact ⟨heldJobs s q.worker q.now, rfl,
      hsettled.valid.increasing.sublist (List.filter_sublist.map Job.seq), fun j => mem_heldJobs⟩
  · intro order hperm
    have hmap := congrFun₂ (List.eq_map_comp_perm Job.jobId) order (heldJobs s q.worker q.now)
    obtain ⟨js, rfl, hjs⟩ := hmap.mpr hperm
    have hheld : ∀ j ∈ js, j ∈ s.jobs ∧ j.held q.worker q.now = true :=
      fun j hj => mem_heldJobs.mp (hjs.mem_iff.mp hj)
    refine ⟨?_, fun requests hrequests => ?_⟩
    · obtain ⟨hworker, hnow⟩ := requestOk_bounds hrequest
      rw [List.forall₂_map_right_iff, List.forall₂_same]
      intro jobId hmem
      obtain ⟨j, hj, rfl⟩ := List.mem_map.mp hmem
      exact nacks_nackRequest hworker hnow (hsettled.valid.jobs j (hheld j hj).1).jobId
    rw [← putAll_held hsettled.valid hjs]
    exact applyAll_nacks hsettled hstate hrequests hheld
      ((hjs.map Job.jobId).nodup_iff.mpr (nodup_heldJobs hsettled.valid))
  · refine ⟨Restart.record sha (Restart.release s q.worker q.now) q, ?_, ?_⟩
    · rw [restart_eq (settled_release hsettled).stateOf hrequest,
        release_of_heldJobs heldJobs_release]
    · exact congrArg (List.map Job.jobId) heldJobs_release

/-- Two leases of one worker, one of them on the last attempt. -/
def twoLeases : State :=
  ⟨[⟨jobIdTag ++ List.replicate 64 'a', 0, 1, .null, .leased, 5, some ['w'], some 11⟩,
    ⟨jobIdTag ++ List.replicate 64 'b', 3, 0, .null, .leased, 1, some ['w'], some 20⟩], 4⟩

def restartRequest : PyObj :=
  .object 0 Restart.requestFields
    [.atom (.str "restart".toList), .atom (.str ['w']), .atom (.int 10)]

/-- A restart of a worker with two leases. -/
theorem restart_nacks_twoLeases : ∃ s' r,
    Restart.restart (.lengths 64) twoLeases.object restartRequest = .ok (s', r) := by
  have hstate : stateOf twoLeases.object = some twoLeases := by rfl
  have hrequest : Restart.requestOk restartRequest = some ⟨['w'], 10⟩ := by rfl
  obtain ⟨s', r, hrestart, -⟩ := restart_nacks (.lengths 64) hstate hrequest
  exact ⟨s', r, hrestart⟩

end Jobs
end OpenChess
