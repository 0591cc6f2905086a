import OpenChess.Jobs.Cancel
import OpenChess.Jobs.Job
import OpenChess.Jobs.Queue
import OpenChess.Jobs.Restart

/-!
# The job validators

The queue and the restart read a state alike, whatever object they are given. The jobs
of the states they accept are the jobs that cancellation and burial accept, and each of
these decides by the status alone.
-/

namespace OpenChess
namespace Jobs

variable {sha : Hex.Hash 64} {o job request : PyObj} {j : Job} {s : State} {js : List Job}

theorem intBits_eq : Queue.intBits = 13288 := by
  apply le_antisymm
  · exact Nat.clog_le_of_le_pow (by decide +kernel)
  · exact (Nat.lt_clog_iff_pow_lt Nat.one_lt_two).mpr (by decide +kernel)

/-- The modules hold the same bounds. -/
theorem bounds_eq : Queue.bounds = Restart.bounds ∧ Cancel.bounds = Restart.bounds ∧
    DeadLetter.bounds = Restart.bounds := by
  refine ⟨?_, rfl, rfl⟩
  unfold Queue.bounds Restart.bounds
  rw [intBits_eq]
  rfl

/-! ### States -/

/-- The two loops over the jobs of a state agree. -/
theorem checkJobs_eq (nextSeq : ℕ) (ids : List Text) (visited : List ℕ) (lowestSeq : ℕ)
    (jobs : List PyObj) : Queue.checkJobs nextSeq ids visited lowestSeq jobs =
      Restart.jobsOk nextSeq ids ((lowestSeq : ℤ) - 1) visited jobs := by
  induction jobs generalizing ids visited lowestSeq with
  | nil => rfl
  | cons job jobs ih =>
    have hlowest : (lowestSeq : ℤ) - 1 + 1 = lowestSeq := by omega
    rw [Queue.checkJobs, Restart.jobsOk, Restart.jobOk, Jobs.jobOk, hlowest]
    cases hfields : job.fields? jobFields with
    | none => rfl
    | some values =>
      have hlength : values.length = 8 := PyObj.length_fields? hfields
      obtain ⟨jobId, seq, priority, payload, status, attempts, owner, expires, rfl⟩ :
          ∃ a b c d e f g h, values = [a, b, c, d, e, f, g, h] := by
        rcases values with _ | ⟨a, _ | ⟨b, _ | ⟨c, _ | ⟨d, _ | ⟨e, _ | ⟨f, _ | ⟨g, _ | ⟨h, _ | ⟨i, l⟩⟩⟩⟩⟩⟩⟩⟩⟩
        all_goals first
          | exact ⟨_, _, _, _, _, _, _, _, rfl⟩
          | simp at hlength
      simp only
      cases hid : jobId.text? jobIdGrammar with
      | none => rfl
      | some t =>
        simp only [Queue.jobOk, hfields, bounds_eq.1]
        cases hread : readJob Restart.bounds (lowestSeq : ℤ) ((nextSeq : ℤ) - 1) visited t seq
            priority payload status attempts owner expires with
        | none => simp only [ite_self]
        | some p =>
          obtain ⟨j, met⟩ := p
          have hreads := ((readJob_eq_some (by omega)).mp hread).1
          have hnext : ((j.seq + 1 : ℕ) : ℤ) - 1 = j.seq := by omega
          simp only [hreads.jobId, ih, hnext]

/-- The queue and the restart accept the same states, and read them alike. -/
theorem checkState_eq (o : PyObj) : Queue.checkState o = Restart.stateOk o := by
  unfold Queue.checkState Restart.stateOk
  simp only [checkJobs_eq]
  rfl

/-! ### Jobs -/

/-- The jobs of a state. -/
def jobsOf (o : PyObj) : List PyObj :=
  match o.member? "jobs".toList with
  | some (.list _ jobs) => jobs
  | _ => []

def Occurs (job : PyObj) : Prop := ∃ o, (Queue.checkState o).isSome = true ∧ job ∈ jobsOf o

theorem checkState_eq_some : Queue.checkState o = some s ↔ ∃ id jobs,
    o.fields? stateFields = some [.list id jobs, .atom (.int s.nextSeq)] ∧
      s.nextSeq ≤ Queue.maxNow ∧ jobs.length ≤ Queue.maxJobs ∧
      Queue.checkJobs s.nextSeq [] [] 0 jobs = some s.jobs := by
  constructor
  · intro h
    unfold Queue.checkState at h
    split at h
    · rename_i id jobs next hfields
      split at h
      · cases h
      · rename_i nextSeq hnext
        split_ifs at h with hlength
        obtain ⟨js, hjs, rfl⟩ := Option.map_eq_some_iff.mp h
        obtain ⟨m, rfl, hlo, hhi, rfl⟩ := PyObj.nat?_eq_some.mp hnext
        have hm : ((m.toNat : ℕ) : ℤ) = m := by omega
        refine ⟨id, jobs, by rw [hm]; exact hfields, ?_, not_lt.mp hlength, hjs⟩
        change m.toNat ≤ Queue.maxNow
        omega
    · cases h
  · intro h
    obtain ⟨id, jobs, hfields, hnext, hlength, hjobs⟩ := h
    have hread : (PyObj.atom (.int s.nextSeq)).nat? 0 Queue.maxNow = some s.nextSeq :=
      PyObj.nat?_eq_some.mpr ⟨s.nextSeq, rfl, by omega, by omega, Int.toNat_natCast _⟩
    simp only [Queue.checkState, hfields, hread, not_lt.mpr hlength, if_false, hjobs]
    rfl

theorem jobsOf_eq {id : ℕ} {jobs : List PyObj} {next : PyObj}
    (h : o.fields? stateFields = some [.list id jobs, next]) : jobsOf o = jobs := by
  have hname : stateFields[0]? = some "jobs".toList := rfl
  simp only [jobsOf, PyObj.member?_of_fields? h hname]
  rfl

theorem jobOk_of_checkJobs {nextSeq lowestSeq : ℕ} {ids : List Text} {visited : List ℕ}
    {jobs : List PyObj} (hnext : nextSeq ≤ Queue.maxNow)
    (h : Queue.checkJobs nextSeq ids visited lowestSeq jobs = some js) :
    ∀ job ∈ jobs, ∃ j ∈ js, ∃ met, jobOk Restart.bounds 0 maxSeq [] job = some (j, met) := by
  rw [checkJobs_eq] at h
  induction jobs generalizing ids visited lowestSeq js with
  | nil => exact fun job hjob => absurd hjob List.not_mem_nil
  | cons job jobs ih =>
    have hlowest : (lowestSeq : ℤ) - 1 + 1 = lowestSeq := by omega
    rw [Restart.jobsOk, Restart.jobOk, hlowest] at h
    cases hjob : jobOk Restart.bounds (lowestSeq : ℤ) ((nextSeq : ℤ) - 1) visited job with
    | none => simp [hjob] at h
    | some p =>
      obtain ⟨j, met⟩ := p
      simp only [hjob] at h
      split_ifs at h with hid
      obtain ⟨js', hjs, rfl⟩ := Option.map_eq_some_iff.mp h
      have hprior : (j.seq : ℤ) = ((j.seq + 1 : ℕ) : ℤ) - 1 := by omega
      rw [hprior] at hjs
      obtain ⟨seq, priority, payload, status, attempts, owner, expires, hfields, hgrammar, hread⟩ :=
        jobOk_eq_some.mp hjob
      obtain ⟨-, -, hhi, -⟩ := (readJob_eq_some (by omega)).mp hread
      have hmax : (j.seq : ℤ) ≤ maxSeq := by
        simp only [Queue.maxNow] at hnext
        simp only [maxSeq]
        omega
      obtain ⟨met', hread'⟩ := readJob_weaken (by omega) (le_refl 0) hread (by omega) hmax
        (List.nil_subset visited)
      rw [List.forall_mem_cons]
      refine ⟨⟨j, List.mem_cons_self, met', jobOk_eq_some.mpr ⟨seq, priority, payload, status,
        attempts, owner, expires, hfields, hgrammar, hread'⟩⟩, fun job' hjob' => ?_⟩
      obtain ⟨j', hj', hok⟩ := ih hjs job' hjob'
      exact ⟨j', List.mem_cons_of_mem _ hj', hok⟩

theorem checkState_single {met : List ℕ} (h : jobOk Restart.bounds 0 maxSeq [] job = some (j, met))
    (id id' : ℕ) : Queue.checkState (.object id stateFields
      [.list id' [job], .atom (.int (j.seq + 1 : ℕ))]) = some ⟨[j], j.seq + 1⟩ := by
  obtain ⟨seq, priority, payload, status, attempts, owner, expires, hfields, hgrammar, hread⟩ :=
    jobOk_eq_some.mp h
  obtain ⟨-, -, hhi, -⟩ := (readJob_eq_some (le_refl 0)).mp hread
  obtain ⟨met', hread'⟩ := readJob_weaken (le_refl 0) (le_refl 0) hread (by omega)
    (show (j.seq : ℤ) ≤ ((j.seq + 1 : ℕ) : ℤ) - 1 by omega) (List.nil_subset [])
  have hok := jobOk_eq_some.mpr ⟨seq, priority, payload, status, attempts, owner, expires, hfields,
    hgrammar, hread'⟩
  have hnodup : stateFields.Nodup := by decide
  refine checkState_eq_some.mpr ⟨id', [job], PyObj.fields?_object id hnodup rfl, ?_, ?_, ?_⟩
  · simp only [maxSeq] at hhi
    simp only [Queue.maxNow]
    omega
  · simp [Queue.maxJobs]
  · rw [checkJobs_eq]
    simp only [Restart.jobsOk, Restart.jobOk, Int.natCast_zero, zero_sub, neg_add_cancel, hok,
      List.not_mem_nil, if_false]
    rfl

theorem occurs_iff : Occurs job ↔ (jobOk Restart.bounds 0 maxSeq [] job).isSome = true := by
  constructor
  · intro h
    obtain ⟨o, ho, hjob⟩ := h
    obtain ⟨s, hs⟩ := Option.isSome_iff_exists.mp ho
    obtain ⟨id, jobs, hfields, hnext, -, hjobs⟩ := checkState_eq_some.mp hs
    rw [jobsOf_eq hfields] at hjob
    obtain ⟨j, -, met, hok⟩ := jobOk_of_checkJobs hnext hjobs job hjob
    rw [hok]
    rfl
  · intro h
    obtain ⟨⟨j, met⟩, hok⟩ := Option.isSome_iff_exists.mp h
    have hnodup : stateFields.Nodup := by decide
    refine ⟨_, by rw [checkState_single hok 0 0]; rfl, ?_⟩
    rw [jobsOf_eq (PyObj.fields?_object 0 hnodup rfl)]
    exact List.mem_cons_self

def Presents (job : PyObj) (s : Status) : Prop :=
  job.member? "status".toList = some (.atom (.str s.text))

theorem presents_iff {met : List ℕ} {s : Status}
    (h : jobOk Restart.bounds 0 maxSeq [] job = some (j, met)) : Presents job s ↔ j.status = s := by
  obtain ⟨seq, priority, payload, status, attempts, owner, expires, hfields, -, hread⟩ :=
    jobOk_eq_some.mp h
  have hstatus := ((readJob_eq_some (le_refl 0)).mp hread).1.status
  have hname : jobFields[4]? = some "status".toList := rfl
  rw [Presents, PyObj.member?_of_fields? hfields hname, hstatus]
  constructor
  · intro htext
    have htext : j.status.text = s.text := by simpa using htext
    exact Option.some.inj ((statusOf?_eq_some.mpr htext).symm.trans (statusOf?_eq_some.mpr rfl)).symm
  · rintro rfl
    rfl

/-! ### Decisions -/

theorem jobOk_cancel : Cancel.jobOk job = some j ↔
    ∃ met, jobOk Restart.bounds 0 maxSeq [] job = some (j, met) := by
  rw [Cancel.jobOk, bounds_eq.2.1, Option.map_eq_some_iff]
  constructor
  · intro h
    obtain ⟨⟨j', met⟩, hok, rfl⟩ := h
    exact ⟨met, hok⟩
  · intro h
    obtain ⟨met, hok⟩ := h
    exact ⟨_, hok, rfl⟩

/-- Cancellation and burial check a job alike. -/
theorem jobOk_bury (job : PyObj) : DeadLetter.jobOk job = Cancel.jobOk job := rfl

theorem isSome_jobOk : (Cancel.jobOk job).isSome = true ↔ Occurs job := by
  rw [occurs_iff, Cancel.jobOk, bounds_eq.2.1, Option.isSome_map]

theorem dict_of_jobOk {met : List ℕ} (h : jobOk Restart.bounds 0 maxSeq [] job = some (j, met)) :
    ∃ id entries, job = .dict id entries := by
  obtain ⟨seq, priority, payload, status, attempts, owner, expires, hfields, -, -⟩ :=
    jobOk_eq_some.mp h
  cases job with
  | dict id entries => exact ⟨id, entries, rfl⟩
  | _ => cases hfields

/-- A cancellation, well formed but for its job. -/
def CancelRequest (request job : PyObj) : Prop :=
  ∃ requester now requesterText nowValue,
    request.fields? Cancel.requestFields =
        some [.atom (.str "cancel".toList), job, requester, now] ∧
      requester.text? workerGrammar = some requesterText ∧
      now.nat? 0 Cancel.maxNow = some nowValue

/-- A burial, well formed but for its job. -/
def BuryRequest (request job : PyObj) : Prop :=
  ∃ now reason nowValue,
    request.fields? DeadLetter.requestFields =
        some [.atom (.str "bury".toList), job, .atom (.str (DeadLetter.Reason.text reason)), now] ∧
      now.nat? 0 DeadLetter.maxNow = some nowValue

theorem cancel_iff (sha : Hex.Hash 64) (h : CancelRequest request job) :
    (∃ r, Cancel.cancel sha request = .ok r) ↔
      Occurs job ∧ ∃ s ∈ Cancel.cancellable, Presents job s := by
  obtain ⟨requester, now, requesterText, nowValue, hfields, hrequester, hnow⟩ := h
  have hop : (PyObj.atom (.str "cancel".toList)).text? (· == "cancel".toList) =
      some "cancel".toList := PyObj.text?_eq_some.mpr ⟨rfl, BEq.rfl⟩
  rw [occurs_iff]
  constructor
  · intro hok
    obtain ⟨r, hr⟩ := hok
    unfold Cancel.cancel at hr
    split at hr
    · cases hr
    · rename_i job' requester' now' hrequest
      split at hr
      · cases hr
      · rename_i j hj
        split_ifs at hr with hstatus
        have hsame : job' = job := by
          cases job with
          | dict id entries =>
            simp only [Cancel.requestOk, hfields, hop, hrequester, hnow] at hrequest
            exact (Prod.mk.inj (Option.some.inj hrequest)).1.symm
          | _ =>
            simp only [Cancel.requestOk, hfields] at hrequest
            cases hrequest
        subst hsame
        obtain ⟨met, hok⟩ := jobOk_cancel.mp hj
        refine ⟨by rw [hok]; rfl, j.status, hstatus, ?_⟩
        exact (presents_iff hok).mpr rfl
  · intro hok
    obtain ⟨hisSome, s, hs, hpresents⟩ := hok
    obtain ⟨⟨j, met⟩, hok⟩ := Option.isSome_iff_exists.mp hisSome
    obtain ⟨id, entries, rfl⟩ := dict_of_jobOk hok
    obtain rfl := (presents_iff hok).mp hpresents
    have hjob := jobOk_cancel.mpr ⟨met, hok⟩
    have hrequest : Cancel.requestOk request = some (.dict id entries, requesterText, nowValue) := by
      simp only [Cancel.requestOk, hfields, hop, hrequester, hnow]
    simp only [Cancel.cancel, hrequest, hjob]
    rw [if_neg (not_not.mpr hs)]
    exact ⟨_, rfl⟩

theorem reasonOf?_text (r : DeadLetter.Reason) : DeadLetter.reasonOf? r.text = some r := by
  cases r <;> decide

theorem bury_iff (sha : Hex.Hash 64) (h : BuryRequest request job) :
    (∃ r, DeadLetter.bury sha request = .ok r) ↔ Occurs job ∧ Presents job .dead := by
  obtain ⟨now, reason, nowValue, hfields, hnow⟩ := h
  have hop : (PyObj.atom (.str "bury".toList)).text? (· == "bury".toList) = some "bury".toList :=
    PyObj.text?_eq_some.mpr ⟨rfl, BEq.rfl⟩
  have hreason : ((PyObj.atom (.str reason.text)).text? fun _ => true).bind
      DeadLetter.reasonOf? = some reason := reasonOf?_text reason
  rw [occurs_iff]
  constructor
  · intro hok
    obtain ⟨r, hr⟩ := hok
    unfold DeadLetter.bury at hr
    split at hr
    · cases hr
    · rename_i job' reason' now' hrequest
      split at hr
      · cases hr
      · rename_i j hj
        split_ifs at hr with hstatus
        have hsame : job' = job := by
          cases job with
          | dict id entries =>
            simp only [DeadLetter.requestOk, hfields, hop, hreason, hnow] at hrequest
            exact (Prod.mk.inj (Option.some.inj hrequest)).1.symm
          | _ =>
            simp only [DeadLetter.requestOk, hfields] at hrequest
            cases hrequest
        subst hsame
        rw [jobOk_bury] at hj
        obtain ⟨met, hok⟩ := jobOk_cancel.mp hj
        exact ⟨by rw [hok]; rfl, (presents_iff hok).mpr (not_not.mp hstatus)⟩
  · intro hok
    obtain ⟨hisSome, hpresents⟩ := hok
    obtain ⟨⟨j, met⟩, hok⟩ := Option.isSome_iff_exists.mp hisSome
    obtain ⟨id, entries, rfl⟩ := dict_of_jobOk hok
    have hdead := (presents_iff hok).mp hpresents
    have hjob := (jobOk_bury _).trans (jobOk_cancel.mpr ⟨met, hok⟩)
    have hrequest : DeadLetter.requestOk request = some (.dict id entries, reason, nowValue) := by
      simp only [DeadLetter.requestOk, hfields, hop, hreason, hnow]
    simp only [DeadLetter.bury, hrequest, hjob]
    rw [if_neg (not_not.mpr hdead)]
    exact ⟨_, rfl⟩

/-- The queue and the restart accept the same states. The jobs of accepted states are
the jobs cancellation accepts, and the jobs burial accepts. With all else well formed, a
cancellation succeeds for the ready and the leased ones of these, and a burial for the
dead ones. -/
theorem validators_agree (sha : Hex.Hash 64) :
    (∀ o, (Queue.checkState o).isSome = true ↔ (Restart.stateOk o).isSome = true) ∧
    (∀ job, Occurs job → (Cancel.jobOk job).isSome = true ∧ (DeadLetter.jobOk job).isSome = true) ∧
    (∀ job, (Cancel.jobOk job).isSome = true ∨ (DeadLetter.jobOk job).isSome = true → Occurs job) ∧
    (∀ request job, CancelRequest request job →
      ((∃ r, Cancel.cancel sha request = .ok r) ↔
        Occurs job ∧ (Presents job .ready ∨ Presents job .leased))) ∧
    ∀ request job, BuryRequest request job →
      ((∃ r, DeadLetter.bury sha request = .ok r) ↔ Occurs job ∧ Presents job .dead) := by
  refine ⟨fun o => by rw [checkState_eq], ?_, ?_, ?_, fun _ _ => bury_iff sha⟩
  · intro job hjob
    have hok := isSome_jobOk.mpr hjob
    exact ⟨hok, by rwa [jobOk_bury]⟩
  · intro job hok
    rw [jobOk_bury, or_self] at hok
    exact isSome_jobOk.mp hok
  · intro request job hrequest
    rw [cancel_iff sha hrequest]
    simp [Cancel.cancellable]

/-- A job never claimed, with no payload, under a job id of zeros. -/
def readyJob : PyObj :=
  .object 2 jobFields [.atom (.str (jobIdTag ++ List.replicate 64 '0')), .atom (.int 0),
    .atom (.int 0), .atom .null, .atom (.str "ready".toList), .atom (.int 0), .atom .null,
    .atom .null]

/-- Such a job can be cancelled, and cannot be buried. -/
theorem validators_agree_readyJob :
    (∃ r, Cancel.cancel (.lengths 64) (.object 1 Cancel.requestFields
      [.atom (.str "cancel".toList), readyJob, .atom (.str ['w']), .atom (.int 0)]) = .ok r) ∧
    ¬ ∃ r, DeadLetter.bury (.lengths 64) (.object 1 DeadLetter.requestFields
      [.atom (.str "bury".toList), readyJob, .atom (.str "permanent".toList), .atom (.int 0)]) =
        .ok r := by
  have hjobFields : jobFields.Nodup := by decide
  have hready : Presents readyJob .ready := by
    rw [Presents, readyJob, PyObj.member?_of_fields? (PyObj.fields?_object 2 hjobFields rfl)
      (show jobFields[4]? = some "status".toList from rfl)]
    rfl
  obtain ⟨-, -, hoccurs, hcancel, hbury⟩ := validators_agree (.lengths 64)
  have hjob : Occurs readyJob := hoccurs readyJob (.inl (by decide +kernel))
  refine ⟨(hcancel _ readyJob ⟨_, _, _, _, PyObj.fields?_object 1 (by decide) rfl, rfl, rfl⟩).mpr
    ⟨hjob, .inl hready⟩, fun hok => ?_⟩
  obtain ⟨-, hdead⟩ := (hbury _ readyJob
    ⟨_, .permanent, _, PyObj.fields?_object 1 (by decide) rfl, rfl⟩).mp hok
  have hsame := hready.symm.trans hdead
  simp only [Option.some.injEq, PyObj.atom.injEq, Live.Atom.str.injEq] at hsame
  exact absurd hsame (by decide)

end Jobs
end OpenChess
