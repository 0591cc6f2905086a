import OpenChess.Jobs.Run
import Mathlib.Data.List.TakeWhile
import Mathlib.Data.Prod.Lex

/-!
# The order of claims

A claim leases the first of the jobs it may lease, by priority and then by sequence
number. On its way it buries the exhausted jobs that come before, and no other.
-/

namespace OpenChess
namespace Queue

open Jobs

variable {sha : Hex.Hash 64} {s work : State} {j k : Job} {l dead rest : List Job} {worker : Text}
  {now leaseMs : ℕ} {state request : PyObj}

def claimKey (j : Job) : ℕ ×ₗ ℕ := toLex (j.priority, j.seq)

def Leasable (now : ℕ) (j : Job) : Prop := claimable now j = true ∧ j.attempts < maxAttempts

def Exhausted (now : ℕ) (j : Job) : Prop := claimable now j = true ∧ maxAttempts ≤ j.attempts

/-- The pick is the first of the jobs that may be leased; none where there are none. -/
structure Picks (now : ℕ) (jobs : List Job) (pick : Option Job) : Prop where
  leasable : ∀ j, pick = some j → j ∈ jobs ∧ Leasable now j
  first : ∀ j, pick = some j → ∀ k ∈ jobs, Leasable now k → claimKey j ≤ claimKey k
  none : pick = none → ∀ k ∈ jobs, ¬ Leasable now k

def Buried (now : ℕ) (pick : Option Job) (k : Job) : Prop :=
  Exhausted now k ∧ ∀ j, pick = some j → claimKey k < claimKey j

/-- What a claim with this pick makes of a job. -/
structure Outcome (worker : Text) (now leaseMs : ℕ) (pick : Option Job) (k k' : Job) : Prop where
  leased : pick = some k → k' = k.leasedTo worker (now + leaseMs)
  buried : Buried now pick k → k' = k.unleased .dead
  kept : pick ≠ some k → ¬ Buried now pick k → k' = k

/-! ### The sorted jobs -/

theorem before_iff : before j k ↔ claimKey j ≤ claimKey k := by
  rw [before, claimKey, claimKey, Prod.Lex.toLex_le_toLex]

def queueOrder (now : ℕ) (jobs : List Job) : List Job :=
  (jobs.filter (claimable now)).insertionSort before

theorem mem_queueOrder {jobs : List Job} :
    j ∈ queueOrder now jobs ↔ j ∈ jobs ∧ claimable now j = true := by
  rw [queueOrder, (List.perm_insertionSort before _).mem_iff, List.mem_filter]

theorem sorted_queueOrder (now : ℕ) (jobs : List Job) :
    (queueOrder now jobs).Pairwise fun j k => claimKey j ≤ claimKey k := by
  have htotal : Std.Total before :=
    ⟨fun j k => by rw [before_iff, before_iff]; exact le_total _ _⟩
  have htrans : IsTrans Job before :=
    ⟨fun j k l h h' => by rw [before_iff] at *; exact le_trans h h'⟩
  exact (List.pairwise_insertionSort before _).imp before_iff.mp

theorem nodup_queueOrder {jobs : List Job} (h : (jobs.map Job.jobId).Nodup) :
    ((queueOrder now jobs).map Job.jobId).Nodup := by
  rw [queueOrder, ((List.perm_insertionSort before _).map Job.jobId).nodup_iff]
  exact h.sublist (List.filter_sublist.map Job.jobId)

theorem claimFrom_append (hdead : ∀ j ∈ dead, maxAttempts ≤ j.attempts) :
    claimFrom worker now leaseMs (dead ++ rest) work =
      claimFrom worker now leaseMs rest (putAll (fun j => j.unleased .dead) dead work) := by
  induction dead generalizing work with
  | nil => rfl
  | cons j dead ih =>
    rw [List.forall_mem_cons] at hdead
    rw [List.cons_append, claimFrom, if_pos hdead.1, ih hdead.2]
    rfl

theorem claimFrom_rest (hrest : ∀ j, rest.head? = some j → j.attempts < maxAttempts) :
    claimFrom worker now leaseMs rest work =
      (((rest.head?.map fun j => put work (j.leasedTo worker (now + leaseMs))).getD work),
        rest.head?.map fun j => j.leasedTo worker (now + leaseMs)) := by
  cases rest with
  | nil => rfl
  | cons j rest =>
    have hattempts : ¬ maxAttempts ≤ j.attempts := not_le.mpr (hrest j rfl)
    rw [claimFrom, if_neg hattempts]
    rfl

/-! ### The pick -/

/-- The sorted jobs are the ones to bury, and then the rest, whose first is the pick. -/
structure Splits (now : ℕ) (jobs dead rest : List Job) : Prop where
  append : queueOrder now jobs = dead ++ rest
  dead : ∀ j ∈ dead, maxAttempts ≤ j.attempts
  rest : ∀ j, rest.head? = some j → j.attempts < maxAttempts

theorem exists_splits (now : ℕ) (jobs : List Job) : ∃ dead rest, Splits now jobs dead rest := by
  let exhausted : Job → Bool := fun j => decide (maxAttempts ≤ j.attempts)
  refine ⟨(queueOrder now jobs).takeWhile exhausted, (queueOrder now jobs).dropWhile exhausted,
    List.takeWhile_append_dropWhile.symm, fun j hj => ?_, fun j hj => ?_⟩
  · have hexhausted : exhausted j = true := List.mem_takeWhile_imp hj
    exact of_decide_eq_true hexhausted
  · have hnot := List.head?_dropWhile_not exhausted (queueOrder now jobs)
    rw [hj] at hnot
    exact not_le.mp (of_decide_eq_false hnot)

variable {jobs : List Job}

theorem Splits.mem (h : Splits now jobs dead rest) :
    (j ∈ jobs ∧ claimable now j = true) ↔ j ∈ dead ∨ j ∈ rest := by
  rw [← mem_queueOrder, h.append, List.mem_append]

theorem Splits.head_le (h : Splits now jobs dead rest) (hhead : rest.head? = some j)
    (hk : k ∈ rest) : claimKey j ≤ claimKey k := by
  have hsorted := sorted_queueOrder now jobs
  rw [h.append, List.pairwise_append] at hsorted
  obtain ⟨tail, rfl⟩ := List.head?_eq_some_iff.mp hhead
  rcases List.mem_cons.mp hk with rfl | hk
  · exact le_refl _
  · exact List.rel_of_pairwise_cons hsorted.2.1 hk

theorem Splits.dead_le (h : Splits now jobs dead rest) (hk : k ∈ dead) (hj : j ∈ rest) :
    claimKey k ≤ claimKey j := by
  have hsorted := sorted_queueOrder now jobs
  rw [h.append, List.pairwise_append] at hsorted
  exact hsorted.2.2 k hk j hj

theorem Splits.leasable_mem_rest (h : Splits now jobs dead rest) (hk : k ∈ jobs)
    (hleasable : Leasable now k) : k ∈ rest := by
  rcases h.mem.mp ⟨hk, hleasable.1⟩ with hdead | hrest
  · exact absurd (h.dead k hdead) (not_le.mpr hleasable.2)
  · exact hrest

theorem Splits.picks (h : Splits now jobs dead rest) : Picks now jobs rest.head? := by
  refine ⟨fun j hj => ?_, fun j hj k hk hleasable => ?_, fun hnone k hk hleasable => ?_⟩
  · obtain ⟨hmem, hclaimable⟩ := h.mem.mpr (.inr (List.mem_of_mem_head? hj))
    exact ⟨hmem, hclaimable, h.rest j hj⟩
  · exact h.head_le hj (h.leasable_mem_rest hk hleasable)
  · rw [List.head?_eq_none_iff] at hnone
    have hmem := h.leasable_mem_rest hk hleasable
    rw [hnone] at hmem
    exact List.not_mem_nil hmem

theorem claimKey_inj (hseqs : (jobs.map Job.seq).Pairwise (· < ·)) (hj : j ∈ jobs) (hk : k ∈ jobs)
    (h : claimKey j = claimKey k) : j = k := by
  have hseq : j.seq = k.seq := (Prod.mk.inj (toLex_inj.mp h)).2
  exact List.inj_on_of_nodup_map (hseqs.imp Nat.ne_of_lt) hj hk hseq

theorem Splits.mem_dead (h : Splits now jobs dead rest)
    (hseqs : (jobs.map Job.seq).Pairwise (· < ·)) (hk : k ∈ jobs) :
    k ∈ dead ↔ Buried now rest.head? k := by
  constructor
  · intro hdead
    obtain ⟨-, hclaimable⟩ := h.mem.mpr (.inl hdead)
    refine ⟨⟨hclaimable, h.dead k hdead⟩, fun j hj => ?_⟩
    have hmem := h.mem.mpr (.inr (List.mem_of_mem_head? hj))
    refine lt_of_le_of_ne (h.dead_le hdead (List.mem_of_mem_head? hj)) fun hkey => ?_
    obtain rfl := claimKey_inj hseqs hk hmem.1 hkey
    exact absurd (h.dead k hdead) (not_le.mpr (h.rest k hj))
  · intro hburied
    obtain ⟨⟨hclaimable, _⟩, hfirst⟩ := hburied
    rcases h.mem.mp ⟨hk, hclaimable⟩ with hdead | hrest
    · exact hdead
    · cases rest with
      | nil => cases hrest
      | cons j tail => exact absurd (h.head_le rfl hrest) (not_le.mpr (hfirst j rfl))

/-! ### The claim -/

theorem claim_splits (h : Splits now work.jobs dead rest) : claim work worker now leaseMs =
    (((rest.head?.map fun j => put (putAll (fun j => j.unleased .dead) dead work)
        (j.leasedTo worker (now + leaseMs))).getD (putAll (fun j => j.unleased .dead) dead work)),
      rest.head?.map fun j => j.leasedTo worker (now + leaseMs)) := by
  have hclaim : claim work worker now leaseMs =
      claimFrom worker now leaseMs (queueOrder now work.jobs) work := rfl
  rw [hclaim, h.append, claimFrom_append h.dead, claimFrom_rest h.rest]

theorem claim_outcome (worker : Text) (now leaseMs : ℕ) (hids : (work.jobs.map Job.jobId).Nodup)
    (hseqs : (work.jobs.map Job.seq).Pairwise (· < ·)) : ∃ pick, Picks now work.jobs pick ∧
      (claim work worker now leaseMs).2 = pick.map (fun j => j.leasedTo worker (now + leaseMs)) ∧
      (claim work worker now leaseMs).1.nextSeq = work.nextSeq ∧
      List.Forall₂ (Outcome worker now leaseMs pick) work.jobs
        (claim work worker now leaseMs).1.jobs := by
  obtain ⟨dead, rest, hsplits⟩ := exists_splits now work.jobs
  have hnodup : ((queueOrder now work.jobs).map Job.jobId).Nodup := nodup_queueOrder hids
  rw [hsplits.append, List.map_append] at hnodup
  have hdead : ∀ j ∈ dead, j ∈ work.jobs := fun j hj => (hsplits.mem.mpr (.inl hj)).1
  have hmem : ∀ k ∈ work.jobs, (k.jobId ∈ dead.map Job.jobId ↔ Buried now rest.head? k) := by
    intro k hk
    rw [← hsplits.mem_dead hseqs hk]
    constructor
    · intro hid
      obtain ⟨j, hj, hid⟩ := List.mem_map.mp hid
      rwa [job_unique hids hk (hdead j hj) hid.symm]
    · exact List.mem_map_of_mem
  have hburied := putAll_eq (f := fun j => j.unleased .dead) (fun _ => rfl) hids hdead
    (List.nodup_append.mp hnodup).1
  refine ⟨rest.head?, hsplits.picks, ?_⟩
  rw [claim_splits hsplits, hburied]
  cases hpick : rest.head? with
  | none =>
    refine ⟨rfl, rfl, ?_⟩
    rw [Option.map_none, Option.getD_none, List.forall₂_map_right_iff, List.forall₂_same]
    intro k hk
    have hiff := hmem k hk
    rw [hpick] at hiff
    exact ⟨fun h => (by cases h), fun h => if_pos (hiff.mpr h),
      fun _ h => if_neg fun hid => h (hiff.mp hid)⟩
  | some j =>
    refine ⟨rfl, rfl, ?_⟩
    obtain ⟨hj, hleasable⟩ := hsplits.picks.leasable j hpick
    rw [Option.map_some, Option.getD_some, put, List.map_map, List.forall₂_map_right_iff,
      List.forall₂_same]
    intro k hk
    have hiff := hmem k hk
    rw [hpick] at hiff
    have hput : (if k.jobId ∈ dead.map Job.jobId then k.unleased .dead else k).jobId = k.jobId := by
      split_ifs <;> rfl
    have hleased : (j.leasedTo worker (now + leaseMs)).jobId = j.jobId := rfl
    rw [Function.comp_apply, hput, hleased]
    by_cases hid : k.jobId = j.jobId
    · obtain rfl := job_unique hids hk hj hid
      rw [if_pos rfl]
      refine ⟨fun _ => rfl, fun h => ?_, fun h _ => absurd rfl h⟩
      exact absurd h.1.2 (not_le.mpr hleasable.2)
    · rw [if_neg hid]
      exact ⟨fun h => absurd (congrArg Job.jobId (Option.some.inj h)).symm hid,
        fun h => if_pos (hiff.mpr h), fun _ h => if_neg fun hmem => h (hiff.mp hmem)⟩

/-- A claim of an accepted state leases the first job that may be leased, buries the exhausted
jobs that come before it, and leaves every other job; its receipt names the leased job. -/
theorem claim_order (sha : Hex.Hash 64) (hstate : checkState state = some s)
    (hrequest : checkRequest clockLimit request = some (.claim worker now leaseMs)) :
    ∃ pick work receipt, apply sha state request = .ok (work, receipt) ∧
      Picks now s.copy.jobs pick ∧ work.nextSeq = s.nextSeq ∧
      List.Forall₂ (Outcome worker now leaseMs pick) s.copy.jobs work.jobs ∧
      receipt.jobId = pick.map Job.jobId ∧
      (receipt.jobId = none ↔ ∀ k ∈ s.copy.jobs, ¬ Leasable now k) := by
  have hvalid := (valid_of_checkState hstate).copy
  obtain ⟨pick, hpicks, hout, hnext, hjobs⟩ :=
    claim_outcome worker now leaseMs hvalid.ids hvalid.increasing
  have happly : apply sha state request = .ok ((claim s.copy worker now leaseMs).1,
      receiptOf sha .claim (claim s.copy worker now leaseMs).1
        (claim s.copy worker now leaseMs).2) := by
    simp only [apply, hrequest, hstate, perform, Request.op]
  have hid : (receiptOf sha .claim (claim s.copy worker now leaseMs).1
      (claim s.copy worker now leaseMs).2).jobId = pick.map Job.jobId := by
    rw [receiptOf, hout, Option.map_map]
    rfl
  refine ⟨pick, _, _, happly, hpicks, hnext, hjobs, hid, ?_⟩
  rw [hid, Option.map_eq_none_iff]
  constructor
  · exact hpicks.none
  · intro h
    cases pick with
    | none => rfl
    | some j =>
      obtain ⟨hj, hleasable⟩ := hpicks.leasable j rfl
      exact absurd hleasable (h j hj)

/-- An exhausted job before a job of the same priority. -/
def twoJobs : State :=
  ⟨[⟨jobIdTag ++ List.replicate 64 'a', 0, 1, .null, .ready, 5, none, none⟩,
    ⟨jobIdTag ++ List.replicate 64 'b', 3, 1, .null, .leased, 1, some ['w'], some 10⟩], 4⟩

def claimRequest : PyObj :=
  .object 0 Op.claim.fields
    [.atom (.str Op.claim.text), .atom (.str ['v']), .atom (.int 10), .atom (.int 5)]

/-- A claim leases the job whose lease expires at this very moment. -/
theorem claim_order_twoJobs : ∃ work receipt, apply (.lengths 64) twoJobs.object claimRequest =
    .ok (work, receipt) ∧ receipt.jobId ≠ none := by
  have hstate : checkState twoJobs.object = some twoJobs := by rfl
  have hrequest : checkRequest clockLimit claimRequest = some (.claim ['v'] 10 5) := by rfl
  obtain ⟨-, work, receipt, happly, -, -, -, -, hnone⟩ := claim_order (.lengths 64) hstate hrequest
  refine ⟨work, receipt, happly, fun h => ?_⟩
  refine hnone.mp h _ (List.mem_cons_of_mem _ (List.mem_singleton_self _)) ?_
  exact ⟨rfl, by decide⟩

end Queue
end OpenChess
