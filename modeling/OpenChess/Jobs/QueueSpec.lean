import OpenChess.Jobs.Commit

/-!
# Transitions of the queue

What each transition does to every job. A claim buries the exhausted jobs it meets
before it leases one. The new state of a valid state is valid.
-/

namespace OpenChess
namespace Queue

open Jobs
open Payload (Plain payloadsOk)

variable {sha : Hex.Hash 64} {s s' work : State} {j k : Job} {l : List Job} {worker : Text}
  {now leaseMs limit : ℕ} {request : PyObj} {q : Request} {out : Option Job}

/-! ### Requests -/

/-- What the checks of a request establish. -/
def Request.Valid (limit : ℕ) : Request → Prop
  | .enqueue _ priority payload => priority ≤ maxPriority ∧
      Plain bounds.payload maxDepth payload ∧ Json.copy payload = payload
  | .claim worker now leaseMs => workerGrammar worker = true ∧ 1 ≤ leaseMs ∧ now + leaseMs ≤ limit
  | .ack _ _ _ => True
  | .nack _ _ _ => True

theorem valid_of_checkRequest (h : checkRequest limit request = some q) : q.Valid limit := by
  unfold checkRequest at h
  split at h
  · split at h
    · cases h
    · split at h
      · split at h
        · rename_i key priority visited _ hpriority hvisited
          obtain rfl := Option.some.inj h
          obtain ⟨m, -, hlo, hhi, rfl⟩ := PyObj.nat?_eq_some.mp hpriority
          obtain ⟨hpasses, -⟩ := Payload.payloadsOk_eq_some.mp hvisited
          refine ⟨by omega, Plain.copy hpasses.plain, Json.copy_copy _⟩
        · cases h
      · split at h
        · rename_i worker now leaseMs hworker hnow hlease
          split_ifs at h with hlimit
          obtain rfl := Option.some.inj h
          obtain ⟨m, -, hlo, hhi, rfl⟩ := PyObj.nat?_eq_some.mp hlease
          exact ⟨(PyObj.text?_eq_some.mp hworker).2, by omega, by omega⟩
        · cases h
      · obtain ⟨_, -, rfl⟩ := Option.map_eq_some_iff.mp h
        trivial
      · obtain ⟨_, -, rfl⟩ := Option.map_eq_some_iff.mp h
        trivial
      · cases h
  · cases h

/-! ### Replacing jobs -/

theorem byId_eq_some (h : byId s.jobs worker = some j) : j ∈ s.jobs ∧ j.jobId = worker := by
  have hfound := List.find?_some h
  exact ⟨List.mem_of_find?_eq_some h, beq_iff_eq.mp hfound⟩

theorem byId_eq_none {jobs : List Job} {jobId : Text} :
    byId jobs jobId = none ↔ jobId ∉ jobs.map Job.jobId := by
  simp only [byId, List.find?_eq_none, beq_iff_eq, List.mem_map, not_exists, not_and]

/-- Two jobs of a valid state with one id are the same. -/
theorem job_unique (h : (s.jobs.map Job.jobId).Nodup) (hj : j ∈ s.jobs) (hk : k ∈ s.jobs)
    (hid : j.jobId = k.jobId) : j = k := List.inj_on_of_nodup_map h hj hk hid

/-- A put replaces the jobs with the id of its job, and keeps the others. -/
theorem forall₂_put {R : Job → Job → Prop} (hput : ∀ k ∈ s.jobs, k.jobId = j.jobId → R k j)
    (hkeep : ∀ k ∈ s.jobs, k.jobId ≠ j.jobId → R k k) :
    List.Forall₂ R s.jobs (put s j).jobs := by
  unfold put
  rw [List.forall₂_map_right_iff, List.forall₂_same]
  intro k hk
  split_ifs with hid
  · exact hput k hk hid
  · exact hkeep k hk hid

theorem ids_put (s : State) (j : Job) :
    (put s j).jobs.map Job.jobId = s.jobs.map Job.jobId := by
  unfold put
  rw [List.map_map]
  apply List.map_congr_left
  intro k _
  rw [Function.comp_apply]
  split_ifs with hid
  · exact hid.symm
  · rfl

theorem mem_put (hk : k ∈ s.jobs) (hne : k.jobId ≠ j.jobId) : k ∈ (put s j).jobs :=
  List.mem_map.mpr ⟨k, hk, if_neg hne⟩

def putAll (f : Job → Job) (l : List Job) (s : State) : State := l.foldl (fun s j => put s (f j)) s

/-- Puts of distinct jobs replace exactly these jobs, in whatever order. -/
theorem putAll_eq {f : Job → Job} (hf : ∀ j, (f j).jobId = j.jobId)
    (hids : (s.jobs.map Job.jobId).Nodup) (hl : ∀ j ∈ l, j ∈ s.jobs) (hnodup : (l.map Job.jobId).Nodup) :
    putAll f l s =
      ⟨s.jobs.map fun k => if k.jobId ∈ l.map Job.jobId then f k else k, s.nextSeq⟩ := by
  induction l generalizing s with
  | nil => simp [putAll]
  | cons j rest ih =>
    rw [List.forall_mem_cons] at hl
    obtain ⟨hj, hrest⟩ := hl
    rw [List.map_cons, List.nodup_cons] at hnodup
    obtain ⟨hfresh, hnodup⟩ := hnodup
    have hkeep : ∀ k ∈ rest, k ∈ (put s (f j)).jobs := by
      intro k hk
      have hne : k.jobId ≠ (f j).jobId :=
        fun hid => hfresh (List.mem_map.mpr ⟨k, hk, hid.trans (hf j)⟩)
      exact mem_put (hrest k hk) hne
    have hput : putAll f (j :: rest) s = putAll f rest (put s (f j)) := rfl
    rw [hput, ih (by rwa [ids_put]) hkeep hnodup]
    refine congrArg (State.mk · s.nextSeq) ?_
    rw [put, List.map_map]
    apply List.map_congr_left
    intro k hk
    rw [Function.comp_apply, hf]
    by_cases hid : k.jobId = j.jobId
    · obtain rfl := job_unique hids hk hj hid
      rw [if_pos rfl, hf, if_neg hfresh, List.map_cons, if_pos List.mem_cons_self]
    · simp only [hid, if_false, List.map_cons, List.mem_cons, false_or]

/-! ### Claims -/

/-- What a claim that leases this job does to a job. -/
inductive Claims (worker : Text) (now leaseMs : ℕ) (out : Option Job) (k : Job) : Job → Prop
  | kept (h : out.map Job.jobId ≠ some k.jobId) : Claims worker now leaseMs out k k
  | buried (hclaimable : claimable now k = true) (hattempts : maxAttempts ≤ k.attempts)
      (h : out.map Job.jobId ≠ some k.jobId) : Claims worker now leaseMs out k (k.unleased .dead)
  | leased (hclaimable : claimable now k = true) (hattempts : k.attempts < maxAttempts)
      (h : out = some (k.leasedTo worker (now + leaseMs))) :
      Claims worker now leaseMs out k (k.leasedTo worker (now + leaseMs))

theorem claimable_dead (k : Job) : claimable now (k.unleased .dead) = false := rfl

theorem Claims.of_buried (h : Claims worker now leaseMs out (j.unleased .dead) k)
    (hclaimable : claimable now j = true) (hattempts : maxAttempts ≤ j.attempts) :
    Claims worker now leaseMs out j k := by
  cases h with
  | kept hout => exact .buried hclaimable hattempts hout
  | buried hdead _ _ => exact absurd hdead (Bool.eq_false_iff.mp (claimable_dead j))
  | leased hdead _ _ => exact absurd hdead (Bool.eq_false_iff.mp (claimable_dead j))

theorem claimFrom_spec (hl : ∀ j ∈ l, j ∈ work.jobs ∧ claimable now j = true)
    (hnodup : (l.map Job.jobId).Nodup) (hids : (work.jobs.map Job.jobId).Nodup) :
    (claimFrom worker now leaseMs l work).1.nextSeq = work.nextSeq ∧
      List.Forall₂ (Claims worker now leaseMs (claimFrom worker now leaseMs l work).2) work.jobs
        (claimFrom worker now leaseMs l work).1.jobs := by
  induction l generalizing work with
  | nil =>
    refine ⟨rfl, List.forall₂_same.mpr fun k _ => .kept ?_⟩
    intro h
    cases h
  | cons j rest ih =>
    rw [List.forall_mem_cons] at hl
    obtain ⟨⟨hj, hclaimable⟩, hrest⟩ := hl
    rw [List.map_cons, List.nodup_cons] at hnodup
    have hsame : ∀ k ∈ work.jobs, k.jobId = j.jobId → k = j :=
      fun k hk hid => job_unique hids hk hj hid
    rw [claimFrom]
    split_ifs with hattempts
    · have hkeep : ∀ k ∈ rest, k ∈ (put work (j.unleased .dead)).jobs ∧ claimable now k = true := by
        intro k hk
        have hne : k.jobId ≠ j.jobId := fun hid => hnodup.1 (hid ▸ List.mem_map_of_mem hk)
        exact ⟨mem_put (hrest k hk).1 hne, (hrest k hk).2⟩
      obtain ⟨hnext, hjobs⟩ := ih hkeep hnodup.2 (by rwa [ids_put])
      refine ⟨hnext, ?_⟩
      have hput : (put work (j.unleased .dead)).jobs =
          work.jobs.map fun k => if k.jobId = j.jobId then j.unleased .dead else k := rfl
      rw [hput, List.forall₂_map_left_iff] at hjobs
      have hboth := (List.forall₂_and_left _ _).mpr ⟨fun k hk => hk, hjobs⟩
      refine hboth.imp fun k k' h => ?_
      obtain ⟨hk, hclaims⟩ := h
      split_ifs at hclaims with hid
      · obtain rfl := hsame k hk hid
        exact hclaims.of_buried hclaimable hattempts
      · exact hclaims
    · refine ⟨rfl, forall₂_put (fun k hk hid => ?_) fun k _ hne => .kept ?_⟩
      · obtain rfl := hsame k hk hid
        exact .leased hclaimable (Nat.lt_of_not_le hattempts) rfl
      · intro h
        exact hne (Option.some.inj h).symm

theorem claimFrom_eq_some (h : (claimFrom worker now leaseMs l work).2 = some j) :
    ∃ k ∈ l, j = k.leasedTo worker (now + leaseMs) := by
  induction l generalizing work with
  | nil => cases h
  | cons k rest ih =>
    rw [claimFrom] at h
    split_ifs at h
    · obtain ⟨k', hk', hj⟩ := ih h
      exact ⟨k', List.mem_cons_of_mem _ hk', hj⟩
    · exact ⟨k, List.mem_cons_self, (Option.some.inj h).symm⟩

theorem claim_eq_some (h : (claim work worker now leaseMs).2 = some j) :
    ∃ k ∈ work.jobs, j = k.leasedTo worker (now + leaseMs) := by
  obtain ⟨k, hk, hj⟩ := claimFrom_eq_some h
  have hperm := List.perm_insertionSort before (work.jobs.filter (claimable now))
  exact ⟨k, List.mem_of_mem_filter (hperm.mem_iff.mp hk), hj⟩

/-- A claim gives every job its place, and leases at most one. -/
theorem claim_spec (h : (work.jobs.map Job.jobId).Nodup) :
    (claim work worker now leaseMs).1.nextSeq = work.nextSeq ∧
      List.Forall₂ (Claims worker now leaseMs (claim work worker now leaseMs).2) work.jobs
        (claim work worker now leaseMs).1.jobs := by
  have hperm := List.perm_insertionSort before (work.jobs.filter (claimable now))
  refine claimFrom_spec (fun j hj => ?_) ?_ h
  · exact List.mem_filter.mp (hperm.mem_iff.mp hj)
  · exact ((hperm.map Job.jobId).nodup_iff).mpr (h.sublist (List.filter_sublist.map Job.jobId))

/-! ### Settling and enqueuing -/

theorem settle_eq_ok {jobId : Text} {status : Status}
    (h : settle work worker now jobId status = .ok (s', out)) :
    ∃ j ∈ work.jobs, j.jobId = jobId ∧ j.held worker now = true ∧
      s' = put work (j.unleased status) ∧ out = some (j.unleased status) := by
  unfold settle at h
  cases hfound : byId work.jobs jobId with
  | none => simp [hfound] at h
  | some j =>
    simp only [hfound] at h
    split_ifs at h with hheld
    obtain ⟨rfl, rfl⟩ := Prod.mk.inj (Except.ok.inj h)
    obtain ⟨hj, hid⟩ := byId_eq_some hfound
    exact ⟨j, hj, hid, Bool.eq_true_of_not_eq_false hheld, rfl, rfl⟩

/-- An accepted enqueue finds its job, or appends it. -/
theorem enqueue_eq_ok {key : Text} {priority : ℕ} {payload : Value}
    (h : enqueue sha work key priority payload = .ok (s', out)) :
    (∃ j ∈ work.jobs, j.jobId = jobIdFor sha key ∧ s' = work ∧ out = some j) ∨
      (jobIdFor sha key ∉ work.jobs.map Job.jobId ∧ work.jobs.length < maxJobs ∧
        work.nextSeq < maxNow ∧ out = some (newJob sha work key priority payload) ∧
        s' = ⟨work.jobs ++ [newJob sha work key priority payload], work.nextSeq + 1⟩) := by
  unfold enqueue at h
  cases hfound : byId work.jobs (jobIdFor sha key) with
  | none =>
    simp only [hfound] at h
    split_ifs at h with hcapacity
    obtain ⟨rfl, rfl⟩ := Prod.mk.inj (Except.ok.inj h)
    have hlimit : seqLimit = maxNow := rfl
    exact .inr ⟨byId_eq_none.mp hfound, by omega, by omega, rfl, rfl⟩
  | some j =>
    simp only [hfound] at h
    split_ifs at h
    obtain ⟨rfl, rfl⟩ := Prod.mk.inj (Except.ok.inj h)
    obtain ⟨hj, hid⟩ := byId_eq_some hfound
    exact .inl ⟨j, hj, hid, rfl, rfl⟩

end Queue
end OpenChess
