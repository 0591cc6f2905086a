import OpenChess.Jobs.JsonRoundTrip
import OpenChess.Jobs.LifeCycle
import OpenChess.Jobs.Retry
import OpenChess.Jobs.Validators

/-!
# Decisions about the jobs of a queue

Cancellations, burials and retries decide on one job, and the queue goes on without them. What a
decision says of a job still holds later in the run, as far as the job can change; and the id of a
decision tells which job and which payload it was about.
-/

namespace OpenChess
namespace Jobs

open Json (Exact)

def preimage (tag : Text) (v : Value) : Text := tag ++ Char.ofNat 0 :: Json.dumps true v

def Cancels (request : PyObj) (j : Job) (requester : Text) (now : ℕ) : Prop :=
  ∃ job, Cancel.requestOk request = some (job, requester, now) ∧ Cancel.jobOk job = some j

def Buries (request : PyObj) (j : Job) (reason : DeadLetter.Reason) (now : ℕ) : Prop :=
  ∃ job, DeadLetter.requestOk request = some (job, reason, now) ∧ DeadLetter.jobOk job = some j

def Retries (request : PyObj) (j : Job) (q : Retry.Request) (p : Retry.Policy) : Prop :=
  Retry.Asks request q p ∧ q.jobId = j.jobId ∧ q.attempts = j.attempts

variable {sha : Hex.Hash 64} {request request' : PyObj} {j j' : Job} {requester : Text} {now : ℕ}
  {reason : DeadLetter.Reason} {tag : Text} {v v' : Value} {names : List Text}
  {values values' : List Value} {calls : List Call} {rc : Cancel.Record}
  {rb : DeadLetter.Record} {q q' : Retry.Request} {p p' : Retry.Policy} {r r' : Retry.Record}

/-! ### One decision -/

theorem cancel_of_final (h : Cancels request j requester now) (hfinal : j.final) :
    Cancel.cancel sha request = .error .jobNotCancellable := by
  obtain ⟨job, hrequest, hjob⟩ := h
  have hstatus : j.status ∉ Cancel.cancellable := by
    rcases hfinal with hstatus | hstatus <;> rw [hstatus] <;> decide
  simp only [Cancel.cancel, hrequest, hjob]
  rw [if_pos hstatus]

theorem cancel_eq_ok (h : Cancels request j requester now) : Cancel.cancel sha request = .ok rc ↔
    ¬ j.final ∧ rc = Cancel.record sha j requester now := by
  by_cases hfinal : j.final
  · rw [cancel_of_final h hfinal]
    exact iff_of_false (fun heq => by cases heq) fun hok => hok.1 hfinal
  · obtain ⟨job, hrequest, hjob⟩ := h
    have hstatus : ¬ j.status ∉ Cancel.cancellable := by
      unfold Job.final at hfinal
      revert hfinal
      cases j.status <;> decide
    simp only [Cancel.cancel, hrequest, hjob]
    rw [if_neg hstatus, Except.ok.injEq, eq_comm]
    exact (and_iff_right hfinal).symm

theorem bury_eq_ok (h : Buries request j reason now) : DeadLetter.bury sha request = .ok rb ↔
    j.status = .dead ∧ rb = DeadLetter.record sha j reason now := by
  obtain ⟨job, hrequest, hjob⟩ := h
  simp only [DeadLetter.bury, hrequest, hjob]
  by_cases hdead : j.status = .dead
  · rw [if_neg (not_not.mpr hdead), Except.ok.injEq, eq_comm]
    exact (and_iff_right hdead).symm
  · rw [if_pos hdead]
    exact iff_of_false (fun heq => by cases heq) fun hok => hdead hok.1

def present (j : Job) : PyObj := (build 0 j.toValue).1

theorem presented_of_valid (h : j.Valid) (hseq : j.seq ≤ maxSeq) :
    Cancel.jobOk (present j) = some j ∧ DeadLetter.jobOk (present j) = some j := by
  have hbuilt : jobOk Restart.bounds 0 maxSeq [] (build 0 j.toValue).1 =
      some (j, Payload.trail (build 0 j.payload).1 ++ []) :=
    jobOk_build h (fun p hp => absurd hp List.not_mem_nil) (le_refl 0) (by omega) (by omega)
  have hjob := jobOk_cancel.mpr ⟨_, hbuilt⟩
  exact ⟨hjob, (jobOk_bury _).trans hjob⟩

def cancelRequest (j : Job) (requester : Text) (now : ℕ) : PyObj :=
  .object 0 Cancel.requestFields [.atom (.str "cancel".toList), present j, .atom (.str requester),
    .atom (.int now)]

def buryRequest (j : Job) (reason : DeadLetter.Reason) (now : ℕ) : PyObj :=
  .object 0 DeadLetter.requestFields [.atom (.str "bury".toList), present j,
    .atom (.str reason.text), .atom (.int now)]

theorem nat?_clock {limit : ℕ} (hnow : now ≤ limit) :
    (PyObj.atom (.int now)).nat? 0 limit = some now :=
  PyObj.nat?_eq_some.mpr ⟨_, rfl, Int.natCast_nonneg now, by exact_mod_cast hnow,
    Int.toNat_natCast now⟩

theorem cancels_cancelRequest (hjob : Cancel.jobOk (present j) = some j)
    (hrequester : workerGrammar requester = true) (hnow : now ≤ Cancel.maxNow) :
    Cancels (cancelRequest j requester now) j requester now := by
  obtain ⟨id, entries, hdict⟩ : ∃ id entries, present j = .dict id entries := ⟨_, _, rfl⟩
  refine ⟨present j, ?_, hjob⟩
  rw [Cancel.requestOk, cancelRequest, PyObj.fields?_object 0 (by decide) rfl, hdict]
  simp [nat?_clock hnow, PyObj.text?, hrequester]

theorem buries_buryRequest (hjob : DeadLetter.jobOk (present j) = some j)
    (hnow : now ≤ DeadLetter.maxNow) : Buries (buryRequest j reason now) j reason now := by
  obtain ⟨id, entries, hdict⟩ : ∃ id entries, present j = .dict id entries := ⟨_, _, rfl⟩
  refine ⟨present j, ?_, hjob⟩
  rw [DeadLetter.requestOk, buryRequest, PyObj.fields?_object 0 (by decide) rfl, hdict]
  simp [nat?_clock hnow, PyObj.text?, reasonOf?_text]

/-! ### Runs -/

theorem exists_later (later : List Call) (hj : j ∈ (run sha calls).state.jobs) :
    ∃ j' ∈ (run sha (calls ++ later)).state.jobs, Evolves j j' := by
  have hrun : run sha (calls ++ later) = later.foldl (Trail.step sha) (run sha calls) :=
    List.foldl_append
  rw [hrun]
  exact ((sound_run sha calls).run later).2.exists_mem hj

theorem presented_of_run (hj : j ∈ (run sha calls).state.jobs) :
    Cancel.jobOk (present j) = some j ∧ DeadLetter.jobOk (present j) = some j := by
  have hvalid := (sound_run sha calls).valid
  refine presented_of_valid (hvalid.jobs j hj) ?_
  have hbelow := hvalid.below j hj
  have hnext := hvalid.nextSeq
  simp only [Queue.maxNow] at hnext
  simp only [maxSeq]
  omega

/-- Over any run, every job of a state can be presented to the decisions, and is there in each later
state. A job that was buried is buried there with the same record, and cannot be cancelled any more.
A job that is cancelled there could be cancelled before, with a record of the same job and payload
and of no more attempts. -/
theorem decisions_over_runs (sha : Hex.Hash 64) (calls later : List Call) :
    ∀ j ∈ (run sha calls).state.jobs,
      (∃ job, Cancel.jobOk job = some j ∧ DeadLetter.jobOk job = some j) ∧
      ∃ j' ∈ (run sha (calls ++ later)).state.jobs, j'.jobId = j.jobId ∧
        (∀ request reason now rb, Buries request j reason now →
          DeadLetter.bury sha request = .ok rb →
          (∀ request', Buries request' j' reason now → DeadLetter.bury sha request' = .ok rb) ∧
          ∀ request' requester now', Cancels request' j' requester now' →
            Cancel.cancel sha request' = .error .jobNotCancellable) ∧
        ∀ request' requester now rc', Cancels request' j' requester now →
          Cancel.cancel sha request' = .ok rc' →
          ∀ request, Cancels request j requester now → ∃ rc, Cancel.cancel sha request = .ok rc ∧
            rc.jobId = rc'.jobId ∧ rc.seq = rc'.seq ∧ rc.priority = rc'.priority ∧
            rc.payloadDigest = rc'.payloadDigest ∧ rc.attempts ≤ rc'.attempts := by
  intro j hj
  obtain ⟨j', hj', hevolves⟩ := exists_later later hj
  refine ⟨⟨_, presented_of_run hj⟩, j', hj', congrArg Prod.fst hevolves.fixed, ?_, ?_⟩
  · intro request reason now rb hburies hok
    obtain ⟨hdead, rfl⟩ := (bury_eq_ok hburies).mp hok
    obtain rfl := hevolves.final (.inr hdead)
    exact ⟨fun request' hburies' => (bury_eq_ok hburies').mpr ⟨hdead, rfl⟩,
      fun request' requester now' hcancels => cancel_of_final hcancels (.inr hdead)⟩
  · intro request' requester now rc' hcancels' hok' request hcancels
    obtain ⟨hlive', rfl⟩ := (cancel_eq_ok hcancels').mp hok'
    have hlive : ¬ j.final := fun hfinal => hlive' (hevolves.final hfinal ▸ hfinal)
    obtain ⟨hid, hrest⟩ := Prod.mk.inj hevolves.fixed
    obtain ⟨hseq, hrest⟩ := Prod.mk.inj hrest
    obtain ⟨hpriority, hpayload⟩ := Prod.mk.inj hrest
    refine ⟨_, (cancel_eq_ok hcancels).mpr ⟨hlive, rfl⟩, hid.symm, hseq.symm, hpriority.symm, ?_,
      hevolves.attempts⟩
    simp only [Cancel.record, hpayload]

/-- A claim for one tick. -/
def claimAt (now : ℕ) : PyObj :=
  .object 0 Queue.Op.claim.fields [.atom (.str Queue.Op.claim.text), .atom (.str ['w']),
    .atom (.int now), .atom (.int 1)]

/-- The calls that leave a job dead: one claim more than it has attempts, each when the lease before
it has run out. -/
def exhausting : List Call := .queue nullRequest :: (List.range 6).map fun n => .queue (claimAt n)

/-- A dead job is buried with the same record later on and no longer cancelled, and a job that is
cancelled after a claim could be cancelled before. -/
theorem decisions_over_runs_claimAt :
    (∃ j ∈ (run (.lengths 64) exhausting).state.jobs,
      ∃ j' ∈ (run (.lengths 64) (exhausting ++ [.queue (claimAt 9)])).state.jobs, ∃ rb,
        DeadLetter.bury (.lengths 64) (buryRequest j .exhausted 7) = .ok rb ∧
        DeadLetter.bury (.lengths 64) (buryRequest j' .exhausted 7) = .ok rb ∧
        Cancel.cancel (.lengths 64) (cancelRequest j' ['w'] 8) = .error .jobNotCancellable) ∧
    ∃ j ∈ (run (.lengths 64) [.queue nullRequest]).state.jobs,
      ∃ j' ∈ (run (.lengths 64) [.queue nullRequest, .queue (claimAt 0)]).state.jobs, ∃ rc rc',
        Cancel.cancel (.lengths 64) (cancelRequest j ['w'] 8) = .ok rc ∧
        Cancel.cancel (.lengths 64) (cancelRequest j' ['w'] 8) = .ok rc' ∧
        rc.payloadDigest = rc'.payloadDigest ∧ rc.attempts ≤ rc'.attempts := by
  constructor
  · obtain ⟨j, hj, hdead⟩ : ∃ j ∈ (run (.lengths 64) exhausting).state.jobs, j.status = .dead := by
      decide +kernel
    obtain ⟨-, j', hj', -, hburied, -⟩ := decisions_over_runs (.lengths 64) exhausting
      [.queue (claimAt 9)] j hj
    have hburies : Buries (buryRequest j .exhausted 7) j .exhausted 7 :=
      buries_buryRequest (presented_of_run hj).2 (by decide)
    have hok : DeadLetter.bury (.lengths 64) (buryRequest j .exhausted 7) = .ok _ :=
      (bury_eq_ok hburies).mpr ⟨hdead, rfl⟩
    obtain ⟨hagain, hgone⟩ := hburied _ _ _ _ hburies hok
    exact ⟨j, hj, j', hj', _, hok,
      hagain _ (buries_buryRequest (presented_of_run hj').2 (by decide)),
      hgone _ _ _ (cancels_cancelRequest (presented_of_run hj').1 rfl (by decide))⟩
  · obtain ⟨j, hj, -⟩ : ∃ j ∈ (run (.lengths 64) [.queue nullRequest]).state.jobs,
        j.status = .ready := by decide +kernel
    have hleased : ∀ j ∈ (run (.lengths 64) [.queue nullRequest, .queue (claimAt 0)]).state.jobs,
        j.status = .leased := by decide +kernel
    obtain ⟨-, j', hj', -, -, hcancelled⟩ := decisions_over_runs (.lengths 64) [.queue nullRequest]
      [.queue (claimAt 0)] j hj
    have hlive : ¬ j'.final := by
      rw [Job.final, hleased j' hj']
      decide
    have hcancels : Cancels (cancelRequest j' ['w'] 8) j' ['w'] 8 :=
      cancels_cancelRequest (presented_of_run hj').1 rfl (by decide)
    have hok : Cancel.cancel (.lengths 64) (cancelRequest j' ['w'] 8) = .ok _ :=
      (cancel_eq_ok hcancels).mpr ⟨hlive, rfl⟩
    obtain ⟨rc, hbefore, -, -, -, hdigest, hattempts⟩ := hcancelled _ _ _ _ hcancels hok _
      (cancels_cancelRequest (presented_of_run hj).1 rfl (by decide))
    exact ⟨j, hj, j', hj', rc, _, hbefore, hok, hdigest, hattempts⟩

/-- Over any run, a job that is dead to the retries by its attempts is claimed no more. Until then
every delay of a policy lies between its bounds, no later delay is shorter, and a later decision for
a job that was dead so is dead again. -/
theorem retries_over_runs (sha : Hex.Hash 64) (calls later : List Call) :
    ∀ j ∈ (run sha calls).state.jobs, ∃ j' ∈ (run sha (calls ++ later)).state.jobs,
      j'.jobId = j.jobId ∧
      ∀ request q p r, Retries request j q p → Retry.decide sha request = .ok r →
        (r.decision = .dead → q.failure ≠ .permanent → j'.attempts = j.attempts ∧
          (run sha (calls ++ later)).history.countP (Answer.on .claim j.jobId) =
            (run sha calls).history.countP (Answer.on .claim j.jobId)) ∧
        ∀ request' q' r', Retries request' j' q' p → Retry.decide sha request' = .ok r' →
          (r.decision = .dead → q.failure ≠ .permanent → r'.decision = .dead) ∧
          ∀ d d', r.delayMs = some d → r'.delayMs = some d' →
            p.baseDelayMs ≤ d ∧ d ≤ d' ∧ d' ≤ p.maxDelayMs := by
  intro j hj
  obtain ⟨j', hj', hevolves⟩ := exists_later later hj
  have hid : j'.jobId = j.jobId := congrArg Prod.fst hevolves.fixed
  refine ⟨j', hj', hid, ?_⟩
  rintro request q p r ⟨hasks, -, hattempts⟩ hok
  obtain ⟨q₀, p₀, hasks₀, hcases⟩ := Retry.decide_eq_ok.mp hok
  obtain ⟨rfl, rfl⟩ := Retry.asks_unique hasks hasks₀
  -- A job that is dead without a permanent failure has used all its attempts.
  have hexhausted : r.decision = .dead → q.failure ≠ .permanent → Retry.maxAttempts ≤ j.attempts := by
    intro hdead hfailure
    rcases hcases with ⟨hhopeless, -⟩ | ⟨-, -, rfl⟩
    · rw [← hattempts]
      exact hhopeless.resolve_left hfailure
    · cases hdead
  have hsound := sound_run sha (calls ++ later)
  refine ⟨fun hdead hfailure => ?_, ?_⟩
  · have hmax := hexhausted hdead hfailure
    have hle : j'.attempts ≤ Retry.maxAttempts := (hsound.valid.jobs j' hj').attempts
    have hsame : j'.attempts = j.attempts := le_antisymm (hle.trans hmax) hevolves.attempts
    refine ⟨hsame, ?_⟩
    rw [← (sound_run sha calls).counted j hj, ← hsame, hsound.counted j' hj', hid]
  · rintro request' q' r' ⟨hasks', -, hattempts'⟩ hok'
    obtain ⟨q₁, p₁, hasks₁, hcases'⟩ := Retry.decide_eq_ok.mp hok'
    obtain ⟨rfl, rfl⟩ := Retry.asks_unique hasks' hasks₁
    refine ⟨fun hdead hfailure => ?_, fun d d' hd hd' => ?_⟩
    · have hmax := (hexhausted hdead hfailure).trans hevolves.attempts
      rcases hcases' with ⟨-, rfl⟩ | ⟨hhopeless, -⟩
      · rfl
      · exact absurd (.inr (hattempts'.symm ▸ hmax)) hhopeless
    · obtain ⟨policy, hrequest, hpolicy⟩ := hasks
      have hvalid := Retry.valid_of_policyOk hpolicy
      rcases hcases with ⟨-, rfl⟩ | ⟨-, -, rfl⟩
      · cases hd
      rcases hcases' with ⟨-, rfl⟩ | ⟨-, -, rfl⟩
      · cases hd'
      obtain rfl := Option.some.inj hd
      obtain rfl := Option.some.inj hd'
      have hpos : 1 ≤ q.attempts := Retry.one_le_attempts hrequest
      have hle : q.attempts ≤ q'.attempts := by
        rw [hattempts, hattempts']
        exact hevolves.attempts
      exact ⟨(hvalid.delay_bounds hpos).1, hvalid.delay_mono hle,
        (hvalid.delay_bounds (hpos.trans hle)).2⟩

/-- A transient failure of a job, with delays from 100 to 150 that double. -/
def failureAfter (attempts : ℕ) : PyObj :=
  .object 0 Retry.requestFields [.atom (.str "decide".toList),
    .atom (.str (jobIdFor (.lengths 64) ['k'])), .atom (.int attempts),
    .atom (.str Retry.Failure.transient.text), .atom (.int 0),
    .object 1 Retry.policyFields [.atom (.int 100), .atom (.int 2), .atom (.int 150)]]

/-- The second delay of a job that was claimed twice is not below the first. -/
theorem retries_over_runs_failureAfter : ∃ r r' : Retry.Record,
    Retry.decide (.lengths 64) (failureAfter 1) = .ok r ∧
      Retry.decide (.lengths 64) (failureAfter 2) = .ok r' ∧
      ∃ d d', r.delayMs = some d ∧ r'.delayMs = some d' ∧ 100 ≤ d ∧ d ≤ d' ∧ d' ≤ 150 := by
  obtain ⟨j', hj', -, hdecisions⟩ := retries_over_runs (.lengths 64)
    [.queue nullRequest, .queue (claimAt 0)] [.queue (claimAt 1)] _ (List.mem_singleton_self _)
  obtain rfl := List.mem_singleton.mp hj'
  have hasks : Retry.Asks (failureAfter 1) ⟨_, 1, .transient, 0⟩ ⟨100, 2, 150⟩ := ⟨_, rfl, rfl⟩
  have hasks' : Retry.Asks (failureAfter 2) ⟨_, 2, .transient, 0⟩ ⟨100, 2, 150⟩ := ⟨_, rfl, rfl⟩
  have hok : Retry.decide (.lengths 64) (failureAfter 1) = .ok _ :=
    Retry.decide_eq_ok.mpr ⟨_, _, hasks, .inr ⟨by decide, by decide, rfl⟩⟩
  have hok' : Retry.decide (.lengths 64) (failureAfter 2) = .ok _ :=
    Retry.decide_eq_ok.mpr ⟨_, _, hasks', .inr ⟨by decide, by decide, rfl⟩⟩
  obtain ⟨-, hlater⟩ := hdecisions _ _ _ _ ⟨hasks, rfl, rfl⟩ hok
  obtain ⟨-, hdelays⟩ := hlater _ _ _ ⟨hasks', rfl, rfl⟩ hok'
  exact ⟨_, _, hok, hok', _, _, rfl, rfl, hdelays _ _ rfl rfl⟩

/-! ### Ids -/

theorem copy_of_digest (hv : Exact v) (hv' : Exact v')
    (hsha : sha.Separates (preimage tag v) (preimage tag v'))
    (h : taggedDigest sha tag v = taggedDigest sha tag v') : Json.copy v = Json.copy v' := by
  have hdigest := (List.cons.inj (List.append_cancel_left h)).2
  have htext := (List.cons.inj (List.append_cancel_left (hsha hdigest))).2
  exact Json.copy_eq_of_dumps true hv hv' htext

/-- A text, a number or null. -/
def leaf : Value → Bool
  | .str _ => true
  | .int _ => true
  | .null => true
  | _ => false

theorem exact_leaf (h : leaf v = true) : Exact v ∧ Json.copy v = v := by
  cases v with
  | str t => exact ⟨.str t, rfl⟩
  | int n => exact ⟨.int n, rfl⟩
  | null => exact ⟨.null, rfl⟩
  | _ => cases h

theorem exact_leaves (hnodup : names.Nodup) (hlength : names.length = values.length)
    (h : values.all leaf = true) : Exact (.object names values) :=
  Json.exact_object hnodup hlength fun v hv => (exact_leaf (List.all_eq_true.mp h v hv)).1

theorem leaves_of_copy (hnodup : names.Nodup) (hlength : names.length = values.length)
    (hlength' : names.length = values'.length) (h : values.all leaf = true)
    (h' : values'.all leaf = true)
    (heq : Json.copy (.object names values) = Json.copy (.object names values')) :
    values = values' := by
  have hcopies : ∀ {vs : List Value}, vs.all leaf = true → vs.map Json.copy = vs := by
    intro vs hvs
    rw [List.map_congr_left (g := id), List.map_id]
    exact fun v hv => (exact_leaf (List.all_eq_true.mp hvs v hv)).2
  rw [← hcopies h, ← hcopies h']
  exact Json.copies_of_same_object hnodup hlength hlength' heq

theorem leaves_of_digest (hnodup : names.Nodup) (hlength : names.length = values.length)
    (hlength' : names.length = values'.length) (hv : values.all leaf = true)
    (hv' : values'.all leaf = true)
    (hsha : sha.Separates (preimage tag (.object names values)) (preimage tag (.object names values')))
    (h : taggedDigest sha tag (.object names values) = taggedDigest sha tag (.object names values')) :
    values = values' :=
  leaves_of_copy hnodup hlength hlength' hv hv' (copy_of_digest (exact_leaves hnodup hlength hv)
    (exact_leaves hnodup hlength' hv') hsha h)

theorem status_inj {s s' : Status} (h : s.text = s'.text) : s = s' :=
  Option.some.inj ((statusOf?_eq_some.mpr rfl).symm.trans (statusOf?_eq_some.mpr h))

theorem reason_inj {s s' : DeadLetter.Reason} (h : s.text = s'.text) : s = s' := by
  have hread := reasonOf?_text s
  rw [h, reasonOf?_text] at hread
  exact (Option.some.inj hread).symm

theorem failure_inj {f f' : Retry.Failure} (h : f.text = f'.text) : f = f' := by
  have hread : ∀ f : Retry.Failure, Retry.failureOf? f.text = some f := by
    intro f
    cases f <;> decide
  have hsame := hread f
  rw [h, hread] at hsame
  exact (Option.some.inj hsame).symm

theorem request_inj (h : Json.copy (q.toValue p) = Json.copy (q'.toValue p')) : q = q' ∧ p = p' := by
  have hvalues := Json.copies_of_same_object (by decide) rfl rfl h
  simp only [List.map_cons, List.map_nil, List.cons.injEq, and_true] at hvalues
  obtain ⟨-, hjob, hattempts, hfailure, hnow, hpolicy⟩ := hvalues
  have hpolicies := leaves_of_copy (by decide) rfl rfl rfl rfl hpolicy
  simp only [List.cons.injEq, Value.int.injEq, Int.natCast_inj, and_true] at hpolicies
  obtain ⟨hbase, hmultiplier, hmax⟩ := hpolicies
  refine ⟨?_, ?_⟩
  · rw [Retry.Request.mk.injEq]
    exact ⟨Value.str.inj hjob, Int.ofNat_inj.mp (Value.int.inj hattempts),
      failure_inj (Value.str.inj hfailure), Int.ofNat_inj.mp (Value.int.inj hnow)⟩
  · rw [Retry.Policy.mk.injEq]
    exact ⟨hbase, hmultiplier, hmax⟩

theorem exact_bound (q : Retry.Request) (p : Retry.Policy) (decision : Retry.Decision)
    (delayMs retryAt : Option ℕ) : Exact (Retry.boundValue q p decision delayMs retryAt) := by
  have hpolicy : Exact p.toValue := exact_leaves (by decide) rfl rfl
  have hrequest : Exact (q.toValue p) := by
    refine Json.exact_object (by decide) rfl fun v hv => ?_
    simp only [List.mem_cons, List.not_mem_nil, or_false] at hv
    rcases hv with rfl | rfl | rfl | rfl | rfl | rfl
    · exact .str _
    · exact .str _
    · exact .int _
    · exact .str _
    · exact .int _
    · exact hpolicy
  have hoptional : ∀ n, leaf (Retry.optional n) = true := fun n => by cases n <;> rfl
  have hrecord : Exact (Retry.recordValue q decision delayMs retryAt) := by
    refine exact_leaves (by decide) rfl (List.all_eq_true.mpr fun v hv => ?_)
    simp only [List.mem_cons, List.not_mem_nil, or_false] at hv
    rcases hv with rfl | rfl | rfl | rfl | rfl | rfl
    · rfl
    · rfl
    · rfl
    · rfl
    · exact hoptional _
    · exact hoptional _
  refine Json.exact_object (by decide) rfl fun v hv => ?_
  simp only [List.mem_cons, List.not_mem_nil, or_false] at hv
  rcases hv with rfl | rfl
  · exact hrequest
  · exact hrecord

/-- No two accepted decisions of a kind have one id, unless the hash collides on what the id or the
payload digest is of. Cancellations and burials with one id are equal records, of jobs with the same
payload; retries with one id answer the same request under the same policy. -/
theorem decisions_bind (sha : Hex.Hash 64) :
    (∀ request request' j j' requester requester' now now' rc rc',
      Cancels request j requester now → Cancels request' j' requester' now' →
      Cancel.cancel sha request = .ok rc → Cancel.cancel sha request' = .ok rc' →
      Exact j.payload → Exact j'.payload →
      sha.Separates (preimage "pd1".toList j.payload) (preimage "pd1".toList j'.payload) →
      sha.Separates
        (preimage "cd1".toList (Cancel.recordValue j rc.payloadDigest requester now))
        (preimage "cd1".toList (Cancel.recordValue j' rc'.payloadDigest requester' now')) →
      rc.decisionId = rc'.decisionId → rc = rc' ∧ Json.copy j.payload = Json.copy j'.payload) ∧
    (∀ request request' j j' reason reason' now now' rb rb',
      Buries request j reason now → Buries request' j' reason' now' →
      DeadLetter.bury sha request = .ok rb → DeadLetter.bury sha request' = .ok rb' →
      Exact j.payload → Exact j'.payload →
      sha.Separates (preimage "pd1".toList j.payload) (preimage "pd1".toList j'.payload) →
      sha.Separates
        (preimage "dl1".toList (DeadLetter.recordValue j rb.payloadDigest reason now))
        (preimage "dl1".toList (DeadLetter.recordValue j' rb'.payloadDigest reason' now')) →
      rb.entryId = rb'.entryId → rb = rb' ∧ Json.copy j.payload = Json.copy j'.payload) ∧
    ∀ request request' q q' p p' r r', Retry.Asks request q p → Retry.Asks request' q' p' →
      Retry.decide sha request = .ok r → Retry.decide sha request' = .ok r' →
      sha.Separates
        (preimage "rd1".toList (Retry.boundValue q p r.decision r.delayMs r.retryAt))
        (preimage "rd1".toList (Retry.boundValue q' p' r'.decision r'.delayMs r'.retryAt)) →
      r.decisionId = r'.decisionId → q = q' ∧ p = p' ∧ r = r' := by
  refine ⟨?_, ?_, ?_⟩
  · intro request request' j j' requester requester' now now' rc rc' hcancels hcancels' hok hok'
      hexact hexact' hpayload hrecord hid
    obtain ⟨-, rfl⟩ := (cancel_eq_ok hcancels).mp hok
    obtain ⟨-, rfl⟩ := (cancel_eq_ok hcancels').mp hok'
    have hvalues := leaves_of_digest (by decide) rfl rfl rfl rfl hrecord hid
    simp only [List.cons.injEq, Value.str.injEq, Value.int.injEq, Int.natCast_inj, and_true,
      true_and] at hvalues
    obtain ⟨hjob, hseq, hpriority, hdigest, hstatus, hattempts, hrequester, hnow⟩ := hvalues
    have hstatus : j.status = j'.status := status_inj hstatus
    refine ⟨?_, copy_of_digest hexact hexact' hpayload hdigest⟩
    rw [Cancel.record, Cancel.record, Cancel.Record.mk.injEq]
    exact ⟨hjob, hseq, hpriority, hdigest, hstatus, hattempts, hrequester, hnow, hid⟩
  · intro request request' j j' reason reason' now now' rb rb' hburies hburies' hok hok' hexact
      hexact' hpayload hrecord hid
    obtain ⟨-, rfl⟩ := (bury_eq_ok hburies).mp hok
    obtain ⟨-, rfl⟩ := (bury_eq_ok hburies').mp hok'
    have hvalues := leaves_of_digest (by decide) rfl rfl rfl rfl hrecord hid
    simp only [List.cons.injEq, Value.str.injEq, Value.int.injEq, Int.natCast_inj, and_true,
      true_and] at hvalues
    obtain ⟨hjob, hseq, hpriority, hdigest, hattempts, hreason, hnow⟩ := hvalues
    have hreason : reason = reason' := reason_inj hreason
    refine ⟨?_, copy_of_digest hexact hexact' hpayload hdigest⟩
    rw [DeadLetter.record, DeadLetter.record, DeadLetter.Record.mk.injEq]
    exact ⟨hjob, hseq, hpriority, hdigest, hattempts, hreason, hnow, hid⟩
  · intro request request' q q' p p' r r' hasks hasks' hok hok' hsha hid
    obtain ⟨q₀, p₀, hasks₀, hcases⟩ := Retry.decide_eq_ok.mp hok
    obtain ⟨rfl, rfl⟩ := Retry.asks_unique hasks hasks₀
    obtain ⟨q₁, p₁, hasks₁, hcases'⟩ := Retry.decide_eq_ok.mp hok'
    obtain ⟨rfl, rfl⟩ := Retry.asks_unique hasks' hasks₁
    have hr : r.decisionId =
        taggedDigest sha "rd1".toList (Retry.boundValue q p r.decision r.delayMs r.retryAt) := by
      rcases hcases with ⟨-, rfl⟩ | ⟨-, -, rfl⟩ <;> rfl
    have hr' : r'.decisionId =
        taggedDigest sha "rd1".toList (Retry.boundValue q' p' r'.decision r'.delayMs r'.retryAt) := by
      rcases hcases' with ⟨-, rfl⟩ | ⟨-, -, rfl⟩ <;> rfl
    have hcopy := copy_of_digest (exact_bound _ _ _ _ _) (exact_bound _ _ _ _ _) hsha
      (hr.symm.trans (hid.trans hr'))
    have hvalues := Json.copies_of_same_object (by decide) rfl rfl hcopy
    obtain ⟨rfl, rfl⟩ := request_inj (List.cons.inj hvalues).1
    rw [Retry.decide_of_asks hasks] at hok
    rw [Retry.decide_of_asks hasks'] at hok'
    exact ⟨rfl, rfl, Except.ok.inj (hok.symm.trans hok')⟩

def nullJob : Job := Queue.newJob (.lengths 64) ⟨[], 0⟩ ['k'] 0 .null

def deadJob : Job := { nullJob with status := .dead, attempts := Queue.maxAttempts }

theorem valid_nullJob : nullJob.Valid := by
  refine valid_newJob (Nat.zero_le _) ?_
  rw [Payload.Plain]
  · rfl
  · intro items h
    cases h
  · intro entries h
    cases h

theorem valid_deadJob : deadJob.Valid :=
  ⟨valid_nullJob.jobId, valid_nullJob.priority, le_refl _, (fun hs => by cases hs), fun _ => ⟨rfl, rfl⟩,
    fun _ => rfl, (fun hs => by cases hs), valid_nullJob.payload⟩

/-- Cancellations of a job by two requesters, its burials at two times, and the answers to its first
and to its last failure have different ids. -/
theorem decisions_bind_nullJob :
    (∃ rc rc', Cancel.cancel (.lengths 64) (cancelRequest nullJob ['w'] 8) = .ok rc ∧
      Cancel.cancel (.lengths 64) (cancelRequest nullJob ['w', 'w'] 8) = .ok rc' ∧
      rc.decisionId ≠ rc'.decisionId) ∧
    (∃ rb rb', DeadLetter.bury (.lengths 64) (buryRequest deadJob .exhausted 7) = .ok rb ∧
      DeadLetter.bury (.lengths 64) (buryRequest deadJob .exhausted 10) = .ok rb' ∧
      rb.entryId ≠ rb'.entryId) ∧
    ∃ r r', Retry.decide (.lengths 64) (failureAfter 1) = .ok r ∧
      Retry.decide (.lengths 64) (failureAfter 5) = .ok r' ∧ r.decisionId ≠ r'.decisionId := by
  obtain ⟨hcancels, hburies, hretries⟩ := decisions_bind (.lengths 64)
  have hnull := presented_of_valid valid_nullJob (by decide)
  have hdead := presented_of_valid valid_deadJob (by decide)
  refine ⟨?_, ?_, ?_⟩
  · have hfirst : Cancels (cancelRequest nullJob ['w'] 8) nullJob ['w'] 8 :=
      cancels_cancelRequest hnull.1 rfl (by decide)
    have hsecond : Cancels (cancelRequest nullJob ['w', 'w'] 8) nullJob ['w', 'w'] 8 :=
      cancels_cancelRequest hnull.1 rfl (by decide)
    have hlive : ¬ nullJob.final := by
      rw [Job.final]
      decide
    have hok : Cancel.cancel (.lengths 64) (cancelRequest nullJob ['w'] 8) = .ok _ :=
      (cancel_eq_ok hfirst).mpr ⟨hlive, rfl⟩
    have hok' : Cancel.cancel (.lengths 64) (cancelRequest nullJob ['w', 'w'] 8) = .ok _ :=
      (cancel_eq_ok hsecond).mpr ⟨hlive, rfl⟩
    refine ⟨_, _, hok, hok', fun hid => ?_⟩
    obtain ⟨hsame, -⟩ := hcancels _ _ _ _ _ _ _ _ _ _ hfirst hsecond hok hok' .null .null
      (fun _ => rfl) (fun h => absurd h (by decide +kernel)) hid
    exact absurd (congrArg Cancel.Record.requester hsame) (by decide)
  · have hfirst : Buries (buryRequest deadJob .exhausted 7) deadJob .exhausted 7 :=
      buries_buryRequest hdead.2 (by decide)
    have hsecond : Buries (buryRequest deadJob .exhausted 10) deadJob .exhausted 10 :=
      buries_buryRequest hdead.2 (by decide)
    have hok : DeadLetter.bury (.lengths 64) (buryRequest deadJob .exhausted 7) = .ok _ :=
      (bury_eq_ok hfirst).mpr ⟨rfl, rfl⟩
    have hok' : DeadLetter.bury (.lengths 64) (buryRequest deadJob .exhausted 10) = .ok _ :=
      (bury_eq_ok hsecond).mpr ⟨rfl, rfl⟩
    refine ⟨_, _, hok, hok', fun hid => ?_⟩
    obtain ⟨hsame, -⟩ := hburies _ _ _ _ _ _ _ _ _ _ hfirst hsecond hok hok' .null .null
      (fun _ => rfl) (fun h => absurd h (by decide +kernel)) hid
    exact absurd (congrArg DeadLetter.Record.buriedAt hsame) (by decide)
  · have hasks : Retry.Asks (failureAfter 1) ⟨_, 1, .transient, 0⟩ ⟨100, 2, 150⟩ := ⟨_, rfl, rfl⟩
    have hasks' : Retry.Asks (failureAfter 5) ⟨_, 5, .transient, 0⟩ ⟨100, 2, 150⟩ := ⟨_, rfl, rfl⟩
    have hok : Retry.decide (.lengths 64) (failureAfter 1) = .ok _ :=
      Retry.decide_eq_ok.mpr ⟨_, _, hasks, .inr ⟨by decide, by decide, rfl⟩⟩
    have hok' : Retry.decide (.lengths 64) (failureAfter 5) = .ok _ :=
      Retry.decide_eq_ok.mpr ⟨_, _, hasks', .inl ⟨.inr (by decide), rfl⟩⟩
    refine ⟨_, _, hok, hok', fun hid => ?_⟩
    obtain ⟨hsame, -, -⟩ := hretries _ _ _ _ _ _ _ _ hasks hasks' hok hok'
      (fun h => absurd h (by decide +kernel)) hid
    exact absurd (congrArg Retry.Request.attempts hsame) (by decide)

end Jobs
end OpenChess
