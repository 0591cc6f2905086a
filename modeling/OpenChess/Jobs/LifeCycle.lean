import OpenChess.Lib.Growth
import OpenChess.Jobs.Run

/-!
# The life cycle of a job

Every state of a run from the empty one is accepted again. Jobs are only appended, each
keeps what it was enqueued with, and a settled or buried job never changes. The attempts
of a job count the receipts of its claims.
-/

namespace OpenChess
namespace Jobs

open Growth (Grows)
open Queue (maxAttempts maxJobs maxNow)

variable {sha : Hex.Hash 64} {s s' : State} {a : Answer} {j j' k : Job} {c : Call}
  {t : Trail}

/-! ### One job -/

def Job.fixed (j : Job) : Text × ℕ × ℕ × Value := (j.jobId, j.seq, j.priority, j.payload)

def Job.final (j : Job) : Prop := j.status = .done ∨ j.status = .dead

/-- How a job changes over time. -/
structure Evolves (j j' : Job) : Prop where
  fixed : j'.fixed = j.fixed
  attempts : j.attempts ≤ j'.attempts
  final : j.final → j' = j

theorem Evolves.refl (j : Job) : Evolves j j := ⟨rfl, le_refl _, fun _ => rfl⟩

theorem Evolves.trans (j k l : Job) (h : Evolves j k) (h' : Evolves k l) : Evolves j l := by
  refine ⟨h'.fixed.trans h.fixed, le_trans h.attempts h'.attempts, fun hfinal => ?_⟩
  obtain rfl := h.final hfinal
  exact h'.final hfinal

theorem not_final_of_held {worker : Text} {now : ℕ} (h : j.held worker now = true) : ¬ j.final := by
  obtain ⟨hleased, -⟩ := held_status h
  simp [Job.final, hleased]

theorem Moves.fixed (h : Moves a j j') : j'.fixed = j.fixed := by
  cases h <;> rfl

theorem Moves.jobId (h : Moves a j j') : j'.jobId = j.jobId := congrArg Prod.fst h.fixed

theorem Moves.final (h : Moves a j j') (hfinal : j.final) : j' = j := by
  cases h with
  | kept _ => rfl
  | buried _ hstatus _ =>
    rcases hstatus with hstatus | hstatus <;> simp [Job.final, hstatus] at hfinal
  | claimed _ _ _ _ _ _ hclaimable _ =>
    rcases claimable_status hclaimable with hstatus | ⟨hstatus, -⟩ <;>
      simp [Job.final, hstatus] at hfinal
  | acked _ hheld => exact absurd hfinal (not_final_of_held hheld)
  | nacked _ hheld => exact absurd hfinal (not_final_of_held hheld)
  | released _ _ hheld => exact absurd hfinal (not_final_of_held hheld)

/-- A job is attempted once more by every claim of it. -/
theorem Moves.attempts (h : Moves a j j') :
    j'.attempts = j.attempts + if a.on .claim j.jobId then 1 else 0 := by
  cases h with
  | kept h => simp [Answer.on_of_touches .claim (by decide) h]
  | buried h _ _ => simp [Answer.on_of_touches .claim (by decide) h, Job.unleased]
  | claimed h hr _ _ _ _ _ _ => simp [h, hr, Answer.on, subject, Queue.Request.op, Job.leasedTo]
  | acked h _ => simp [h, Answer.on, Queue.Request.op, Job.unleased]
  | nacked h _ => simp [h, Answer.on, Queue.Request.op, Job.unleased]
  | released h _ _ => simp [h, Answer.on, Job.unleased]

theorem Moves.evolves (h : Moves a j j') : Evolves j j' :=
  ⟨h.fixed, by rw [h.attempts]; exact Nat.le_add_right _ _, h.final⟩

theorem valid_unleased {status : Status} (h : j.Valid) (hleased : status ≠ .leased)
    (hdead : status = .dead → j.attempts = maxAttempts) (hdone : status = .done → 1 ≤ j.attempts) :
    (j.unleased status).Valid :=
  ⟨h.jobId, h.priority, h.attempts, fun hs => absurd hs hleased, fun _ => ⟨rfl, rfl⟩, hdead, hdone,
    h.payload⟩

theorem Job.Valid.attempted (h : j.Valid) (hleased : j.status = .leased) : 1 ≤ j.attempts := by
  obtain ⟨_, _, _, _, _, _, _, ha⟩ := h.leased hleased
  exact ha

theorem Moves.valid (h : Moves a j j') (hj : j.Valid) : j'.Valid := by
  cases h with
  | kept _ => exact hj
  | buried _ _ hattempts =>
    exact valid_unleased hj (fun hs => by cases hs) (fun _ => le_antisymm hj.attempts hattempts)
      (fun hdone => by cases hdone)
  | @claimed worker now leaseMs _ _ _ _ hworker hlease hlimit _ hattempts =>
    exact ⟨hj.jobId, hj.priority, hattempts,
      fun _ => ⟨worker, now + leaseMs, rfl, rfl, hworker, by omega, hlimit, Nat.succ_pos _⟩,
      fun hs => absurd rfl hs, (fun hs => by cases hs), (fun hs => by cases hs), hj.payload⟩
  | acked _ hheld =>
    exact valid_unleased hj (fun hs => by cases hs) (fun hdead => by cases hdead)
      (fun _ => hj.attempted (held_status hheld).1)
  | nacked _ _ =>
    exact valid_unleased hj (fun hs => by cases hs) (fun hdead => by cases hdead)
      (fun hdone => by cases hdone)
  | released _ _ _ =>
    exact valid_unleased hj (fun hs => by cases hs) (fun hdead => by cases hdead)
      (fun hdone => by cases hdone)

/-! ### One call -/

theorem jobIdGrammar_jobIdFor (sha : Hex.Hash 64) (key : Text) :
    jobIdGrammar (jobIdFor sha key) = true := sha.tagged _ _

theorem valid_newJob {key : Text} {priority : ℕ} {payload : Value}
    (hpriority : priority ≤ Queue.maxPriority)
    (hpayload : Payload.Plain Queue.bounds.payload Queue.maxDepth payload) :
    (Queue.newJob sha s key priority payload).Valid :=
  ⟨jobIdGrammar_jobIdFor sha key, hpriority, Nat.zero_le _, (fun hs => by cases hs),
    fun _ => ⟨rfl, rfl⟩, (fun hs => by cases hs), (fun hs => by cases hs), hpayload⟩

theorem Transition.grows (h : Transition sha a s s') : Grows Evolves s.jobs s'.jobs := by
  cases h with
  | moved _ jobs _ => exact .of_forall₂ (jobs.imp fun _ _ h => h.evolves)
  | enqueued => exact .append Evolves.refl _ _

/-- A transition keeps the invariant of a state. -/
theorem Transition.valid (h : Transition sha a s s') (hs : s.Valid) : s'.Valid := by
  cases h with
  | moved next jobs _ =>
    have hids : s'.jobs.map Job.jobId = s.jobs.map Job.jobId :=
      Growth.map_eq_of_forall₂ (fun _ _ h => h.jobId) jobs
    have hseqs : s'.jobs.map Job.seq = s.jobs.map Job.seq :=
      Growth.map_eq_of_forall₂ (fun _ _ h => congrArg (fun f => f.2.1) h.fixed) jobs
    refine ⟨by rw [next]; exact hs.nextSeq, by rw [← jobs.length_eq]; exact hs.length, fun k hk => ?_,
      by rw [hids]; exact hs.ids, by rw [hseqs]; exact hs.increasing, fun k hk => ?_⟩
    · obtain ⟨j, hj, hmoves⟩ := Growth.exists_of_forall₂ jobs hk
      exact hmoves.valid (hs.jobs j hj)
    · have hmem : k.seq ∈ s.jobs.map Job.seq := hseqs ▸ List.mem_map_of_mem hk
      obtain ⟨j, hj, hseq⟩ := List.mem_map.mp hmem
      rw [next, ← hseq]
      exact hs.below j hj
  | enqueued _ _ hpriority hpayload _ hfresh hlength hnext =>
    refine ⟨hnext, ?_, fun j hj => ?_, ?_, ?_, fun j hj => ?_⟩
    · rw [List.length_append, List.length_singleton]
      exact hlength
    · rcases List.mem_append.mp hj with hj | hj
      · exact hs.jobs j hj
      · rw [List.mem_singleton.mp hj]
        exact valid_newJob hpriority hpayload
    · rw [List.map_append, List.map_singleton]
      exact hs.ids.append (List.nodup_singleton _) (List.disjoint_singleton.mpr hfresh)
    · rw [List.map_append, List.map_singleton, List.pairwise_append]
      refine ⟨hs.increasing, List.pairwise_singleton _ _, fun n hn m hm => ?_⟩
      obtain ⟨j, hj, rfl⟩ := List.mem_map.mp hn
      rw [List.mem_singleton.mp hm]
      exact hs.below j hj
    · rcases List.mem_append.mp hj with hj | hj
      · exact Nat.lt_succ_of_lt (hs.below j hj)
      · rw [List.mem_singleton.mp hj]
        exact Nat.lt_succ_self _

theorem Transition.canonical (h : Transition sha a s s') (hs : s.Canonical) : s'.Canonical := by
  cases h with
  | moved _ jobs _ =>
    intro k hk
    obtain ⟨j, hj, hmoves⟩ := Growth.exists_of_forall₂ jobs hk
    have hpayload : k.payload = j.payload := congrArg (fun f => f.2.2.2) hmoves.fixed
    rw [hpayload]
    exact hs j hj
  | enqueued _ _ _ _ hcopy _ _ _ =>
    intro k hk
    rcases List.mem_append.mp hk with hk | hk
    · exact hs k hk
    · rw [List.mem_singleton.mp hk]
      exact hcopy

theorem Transition.known (h : Transition sha a s s') :
    ∀ jobId ∈ a.jobIds sha, jobId ∈ s'.jobs.map Job.jobId := by
  cases h with
  | moved _ jobs known =>
    rw [Growth.map_eq_of_forall₂ (fun _ _ h => h.jobId) jobs]
    exact known
  | enqueued h =>
    intro jobId hid
    rw [h] at hid
    rw [List.mem_singleton.mp hid, List.map_append]
    exact List.mem_append_right _ (List.mem_singleton_self _)

theorem perform_known {key : Text} {priority : ℕ} {payload : Value} {request : PyObj}
    (hs : s.Valid) (hcanonical : s.Canonical)
    (hq : Queue.checkRequest Queue.clockLimit request = some (.enqueue key priority payload))
    (hknown : jobIdFor sha key ∈ s.jobs.map Job.jobId)
    (h : Call.perform sha s.object (.queue request) = some (s', a)) : s' = s := by
  cases henqueue : Queue.enqueue sha s key priority payload with
  | error f =>
    simp [Call.perform, Queue.apply, hq, hs.checkState, hcanonical.copy, Queue.perform,
      henqueue] at h
  | ok p =>
    obtain ⟨s'', out⟩ := p
    simp only [Call.perform, Queue.apply, hq, hs.checkState, hcanonical.copy, Queue.perform,
      henqueue, Option.some.injEq, Prod.mk.injEq] at h
    obtain ⟨rfl, -⟩ := h
    rcases Queue.enqueue_eq_ok henqueue with ⟨_, _, _, rfl, _⟩ | ⟨hfresh, _⟩
    · rfl
    · exact absurd hknown hfresh

/-! ### Runs -/

/-- What holds of a trail after every call. -/
structure Sound (sha : Hex.Hash 64) (t : Trail) : Prop where
  valid : t.state.Valid
  canonical : t.state.Canonical
  counted : ∀ j ∈ t.state.jobs, j.attempts = t.history.countP (Answer.on .claim j.jobId)
  known : ∀ a ∈ t.history, ∀ jobId ∈ a.jobIds sha, jobId ∈ t.state.jobs.map Job.jobId
  enqueued : ∀ j ∈ t.state.jobs, ∃ key r,
    .queue (.enqueue key j.priority j.payload) r ∈ t.history ∧ j.jobId = jobIdFor sha key

theorem Sound.start (sha : Hex.Hash 64) : Sound sha .start := by
  have hnone : ∀ j : Job, j ∉ Trail.start.state.jobs := fun j => List.not_mem_nil
  refine ⟨⟨Nat.zero_le _, Nat.zero_le _, fun j hj => absurd hj (hnone j), List.nodup_nil,
    List.Pairwise.nil, fun j hj => absurd hj (hnone j)⟩, fun j hj => absurd hj (hnone j),
    fun j hj => absurd hj (hnone j), fun a ha => ?_, fun j hj => absurd hj (hnone j)⟩
  exact absurd ha List.not_mem_nil

/-- No answer touches a job before it is enqueued. -/
theorem Sound.untouched (h : Sound sha t) {jobId : Text}
    (hfresh : jobId ∉ t.state.jobs.map Job.jobId) : ∀ a ∈ t.history, a.touches jobId = false := by
  intro a ha
  rw [Bool.eq_false_iff]
  intro htouches
  exact hfresh (h.known a ha jobId (Answer.mem_jobIds htouches))

theorem countP_untouched {jobId : Text} {history : List Answer} (op : Queue.Op)
    (hop : op ≠ .enqueue) (h : ∀ a ∈ history, a.touches jobId = false) :
    history.countP (Answer.on op jobId) = 0 := by
  rw [List.countP_eq_zero]
  intro a ha
  rw [Answer.on_of_touches op hop (h a ha)]
  exact Bool.false_ne_true

theorem Sound.transition (h : Sound sha t) (hstep : Transition sha a t.state s') :
    Sound sha ⟨s', t.history ++ [a]⟩ := by
  refine ⟨hstep.valid h.valid, hstep.canonical h.canonical, fun k hk => ?_, fun b hb id hid => ?_,
    fun k hk => ?_⟩
  · rw [List.countP_append, List.countP_singleton]
    cases hstep with
    | moved _ jobs _ =>
      obtain ⟨j, hj, hmoves⟩ := Growth.exists_of_forall₂ jobs hk
      rw [hmoves.attempts, hmoves.jobId, h.counted j hj]
    | enqueued ha _ _ _ _ hfresh _ _ =>
      have hnone : a.on .claim k.jobId = false := by
        rw [ha]
        rfl
      rw [hnone]
      rcases List.mem_append.mp hk with hk | hk
      · exact h.counted k hk
      · rw [List.mem_singleton.mp hk]
        exact (countP_untouched .claim (by decide) (h.untouched hfresh)).symm
  · rcases List.mem_append.mp hb with hb | hb
    · obtain ⟨j, hj, rfl⟩ := List.mem_map.mp (h.known b hb id hid)
      obtain ⟨k, hk, hevolves⟩ := hstep.grows.exists_mem hj
      exact List.mem_map.mpr ⟨k, hk, congrArg Prod.fst hevolves.fixed⟩
    · rw [List.mem_singleton.mp hb] at hid
      exact hstep.known id hid
  · cases hstep with
    | moved _ jobs _ =>
      obtain ⟨j, hj, hmoves⟩ := Growth.exists_of_forall₂ jobs hk
      obtain ⟨key, r, hr, hid⟩ := h.enqueued j hj
      have hpriority : k.priority = j.priority := congrArg (fun f => f.2.2.1) hmoves.fixed
      have hpayload : k.payload = j.payload := congrArg (fun f => f.2.2.2) hmoves.fixed
      rw [hmoves.jobId, hpriority, hpayload]
      exact ⟨key, r, List.mem_append_left _ hr, hid⟩
    | @enqueued key priority payload r ha =>
      rcases List.mem_append.mp hk with hk | hk
      · obtain ⟨key, r, hr, hid⟩ := h.enqueued k hk
        exact ⟨key, r, List.mem_append_left _ hr, hid⟩
      · rw [List.mem_singleton.mp hk, ha]
        exact ⟨key, r, List.mem_append_right _ (List.mem_singleton_self _), rfl⟩

/-- A call that is not rejected makes a transition, and any other leaves the trail. -/
theorem Sound.step_cases (h : Sound sha t) (c : Call) :
    t.step sha c = t ∨ ∃ s' a, c.perform sha t.state.object = some (s', a) ∧
      t.step sha c = ⟨s', t.history ++ [a]⟩ ∧ Transition sha a t.state s' := by
  unfold Trail.step
  cases hperform : c.perform sha t.state.object with
  | none => exact .inl rfl
  | some p => exact .inr ⟨p.1, p.2, rfl, rfl, transition_of_perform h.valid h.canonical hperform⟩

theorem Sound.step (h : Sound sha t) (c : Call) :
    Sound sha (t.step sha c) ∧ Grows Evolves t.state.jobs (t.step sha c).state.jobs := by
  rcases h.step_cases c with hsame | ⟨s', a, -, hstep, htransition⟩
  · rw [hsame]
    exact ⟨h, .refl Evolves.refl _⟩
  · rw [hstep]
    exact ⟨h.transition htransition, htransition.grows⟩

theorem Sound.run (h : Sound sha t) (calls : List Call) :
    Sound sha (calls.foldl (Trail.step sha) t) ∧
      Grows Evolves t.state.jobs (calls.foldl (Trail.step sha) t).state.jobs := by
  induction calls generalizing t with
  | nil => exact ⟨h, .refl Evolves.refl _⟩
  | cons c calls ih =>
    obtain ⟨hsound, hgrows⟩ := h.step c
    obtain ⟨hsound', hgrows'⟩ := ih hsound
    exact ⟨hsound', hgrows.trans Evolves.trans hgrows'⟩

theorem sound_run (sha : Hex.Hash 64) (calls : List Call) : Sound sha (run sha calls) :=
  ((Sound.start sha).run calls).1

/-- Every state of a run is accepted as the object it is committed as. Its jobs have
distinct ids, the ids of dedupe keys that were enqueued with their priority and payload,
and increasing sequence numbers; their attempts are within the maximum and count the
receipts of their claims. An enqueue of a known key leaves the state. In a later state of
the run every job is at its place, with what it was enqueued with; its attempts have not
decreased, and if it was done or dead then it is the same job. -/
theorem job_history (sha : Hex.Hash 64) (calls : List Call) :
    Queue.checkState (run sha calls).state.object = some (run sha calls).state ∧
    ((run sha calls).state.jobs.map Job.jobId).Nodup ∧
    ((run sha calls).state.jobs.map Job.seq).Pairwise (· < ·) ∧
    (∀ j ∈ (run sha calls).state.jobs, j.attempts ≤ maxAttempts ∧
      j.attempts = (run sha calls).history.countP (Answer.on .claim j.jobId) ∧
      ∃ key r, .queue (.enqueue key j.priority j.payload) r ∈ (run sha calls).history ∧
        j.jobId = jobIdFor sha key) ∧
    (∀ key priority payload r priority' payload' request,
      .queue (.enqueue key priority payload) r ∈ (run sha calls).history →
      Queue.checkRequest Queue.clockLimit request = some (.enqueue key priority' payload') →
      ((run sha calls).step sha (.queue request)).state = (run sha calls).state) ∧
    ∀ calls', Grows Evolves (run sha calls).state.jobs (run sha (calls ++ calls')).state.jobs := by
  have h := sound_run sha calls
  refine ⟨h.valid.checkState, h.valid.ids, h.valid.increasing, fun j hj =>
    ⟨(h.valid.jobs j hj).attempts, h.counted j hj, h.enqueued j hj⟩, ?_, fun calls' => ?_⟩
  · intro key priority payload r priority' payload' request hr hq
    have hknown := h.known _ hr _ (List.mem_singleton_self _)
    rcases h.step_cases (.queue request) with hsame | ⟨s', a, hperform, hstep, -⟩
    · rw [hsame]
    · rw [hstep]
      exact perform_known h.valid h.canonical hq hknown hperform
  · have hrun : run sha (calls ++ calls') = calls'.foldl (Trail.step sha) (run sha calls) :=
      List.foldl_append
    rw [hrun]
    exact (h.run calls').2

def nullRequest : PyObj :=
  .object 0 Queue.Op.enqueue.fields
    [.atom (.str Queue.Op.enqueue.text), .atom (.str ['k']), .atom (.int 0), .atom .null]

/-- A repeated enqueue of a null payload leaves the state. -/
theorem job_history_nullRequest :
    ((run (.lengths 64) [.queue nullRequest]).step (.lengths 64) (.queue nullRequest)).state =
      (run (.lengths 64) [.queue nullRequest]).state := by
  obtain ⟨-, -, -, -, hknown, -⟩ := job_history (.lengths 64) [.queue nullRequest]
  exact hknown ['k'] 0 .null _ 0 .null nullRequest (List.mem_singleton_self _) rfl

end Jobs
end OpenChess
