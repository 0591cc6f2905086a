import OpenChess.Jobs.Cancel
import OpenChess.Jobs.LimitSpec

/-!
# Progress of jobs

Model of `server/jobs_progress.py`: one report of a worker on its job. A report carries
the record of the previous one, and answers with the next record.
-/

namespace OpenChess
namespace Progress

open Jobs (jobIdGrammar workerGrammar taggedDigest earlierId)

inductive FailureClass
  | malformedProgressRequest
  | corruptPreviousRecord
  | progressConflict
  deriving DecidableEq, Repr

inductive ErrorCode
  | malformedRequest
  | corruptRecord
  | progressConflict
  | internal
  deriving DecidableEq, Repr

/-- `failures.mapping` of the contract. -/
def FailureClass.error : FailureClass → ErrorCode
  | .malformedProgressRequest => .malformedRequest
  | .corruptPreviousRecord => .corruptRecord
  | .progressConflict => .progressConflict

def maxTotal : ℕ := 2 ^ 53 - 1

def maxNow : ℕ := 2 ^ 53 - 1

/-- `BP`, the percent of a completed job in basis points. -/
def bp : ℕ := 10000

/-- `identifiers.progress_id.grammar`. -/
def progressIdGrammar (t : Text) : Bool := Hex.tagged "pg1:".toList 64 t

/-! ### Requests -/

def requestFields : List Text :=
  ["op".toList, "job_id".toList, "worker".toList, "done".toList, "total".toList, "now".toList,
    "previous".toList]

/-- A request whose previous record is not checked yet. -/
structure Request where
  jobId : Text
  worker : Text
  done : ℕ
  total : ℕ
  now : ℕ
  previous : Value

/-- `_request_ok`: the request, or none where it is rejected. -/
def requestOk (request : Value) : Option Request :=
  match request.fields? requestFields with
  | some [op, jobId, worker, done, total, now, previous] =>
    match op.text?.filter (· == "report".toList), jobId.text?.filter jobIdGrammar,
        worker.text?.filter workerGrammar, total.nat? 1 maxTotal with
    | some _, some jobId, some worker, some total =>
      match done.nat? 0 total, now.nat? 0 maxNow with
      | some done, some now =>
        if previous.isNull || previous.isDict then some ⟨jobId, worker, done, total, now, previous⟩
        else none
      | _, _ => none
    | _, _, _, _ => none
  | _ => none

/-! ### Records -/

structure Record where
  jobId : Text
  worker : Text
  done : ℕ
  total : ℕ
  percentBp : ℕ
  reportedAt : ℕ
  previousId : Option Text
  progressId : Text

/-- `_RECORD_FIELDS[:-1]`. -/
def bodyFields : List Text :=
  ["op".toList, "job_id".toList, "worker".toList, "done".toList, "total".toList,
    "percent_bp".toList, "reported_at".toList, "previous_id".toList]

def recordFields : List Text := bodyFields ++ ["progress_id".toList]

def Record.bodyValues (r : Record) : List Value :=
  [.str "report".toList, .str r.jobId, .str r.worker, .int r.done, .int r.total, .int r.percentBp,
    .int r.reportedAt, (r.previousId.map Value.str).getD .null]

/-- The record without its id. -/
def Record.body (r : Record) : Value := .object bodyFields r.bodyValues

def Record.toValue (r : Record) : Value :=
  .object recordFields (r.bodyValues ++ [.str r.progressId])

/-- `_progress_id`. -/
def progressIdFor (sha : Hex.Hash 64) (body : Value) : Text := taggedDigest sha "pg1".toList body

def percent (done total : ℕ) : ℕ := done * bp / total

/-- `_previous_ok`: the record, or none where it is rejected. -/
def previousOk (sha : Hex.Hash 64) (prev : Value) : Option Record :=
  match prev.fields? recordFields with
  | some [op, jobId, worker, done, total, percentBp, reportedAt, previousId, progressId] =>
    match op.text?.filter (· == "report".toList), jobId.text?.filter jobIdGrammar,
        worker.text?.filter workerGrammar, total.nat? 1 maxTotal with
    | some _, some jobId', some worker', some total' =>
      match done.nat? 0 total', reportedAt.nat? 0 maxNow with
      | some done', some reportedAt' =>
        if percentBp.int? = some (percent done' total' : ℤ) then
          match earlierId progressIdGrammar previousId, progressId.text?.filter progressIdGrammar with
          | some previousId', some progressId' =>
            if progressId' = progressIdFor sha (.object bodyFields
                [op, jobId, worker, done, total, percentBp, reportedAt, previousId]) then
              some ⟨jobId', worker', done', total', percent done' total', reportedAt', previousId',
                progressId'⟩
            else none
          | _, _ => none
        else none
      | _, _ => none
    | _, _, _, _ => none
  | _ => none

/-! ### The report -/

/-- `_chain_ok`. -/
def chainOk (q : Request) (prev : Record) : Prop :=
  q.jobId = prev.jobId ∧ q.worker = prev.worker ∧ q.total = prev.total ∧ prev.done < prev.total ∧
    prev.done ≤ q.done ∧ prev.reportedAt ≤ q.now

instance (q : Request) (prev : Record) : Decidable (chainOk q prev) :=
  inferInstanceAs (Decidable (_ ∧ _ ∧ _ ∧ _ ∧ _ ∧ _))

def recordOf (sha : Hex.Hash 64) (q : Request) (prev : Option Record) : Record :=
  let body : Record := ⟨q.jobId, q.worker, q.done, q.total, percent q.done q.total, q.now,
    prev.map Record.progressId, []⟩
  { body with progressId := progressIdFor sha body.body }

/-- `report`. -/
def report (sha : Hex.Hash 64) (request : Value) : Except FailureClass Record :=
  match requestOk request with
  | none => .error .malformedProgressRequest
  | some q =>
    if q.previous.isNull then .ok (recordOf sha q none)
    else
      match previousOk sha q.previous with
      | none => .error .corruptPreviousRecord
      | some prev =>
        if chainOk q prev then .ok (recordOf sha q (some prev)) else .error .progressConflict

end Progress
end OpenChess

/-!
## Chains of progress records

Every record of a report is accepted as the previous one of the next. Along a chain the
job, the worker and the total are fixed, and the progress never goes back. A completed
record ends its chain.
-/

namespace OpenChess
namespace Progress

open Jobs (jobIdGrammar workerGrammar earlierId)
open Limit (filter_text isNull_iff earlierId_eq_some)

variable {sha : Hex.Hash 64} {request v : Value} {q : Request} {prev : Option Record}
  {r : Record} {done done' total : ℕ}

/-! ### Percentages -/

theorem percent_le (h : done ≤ done') : percent done total ≤ percent done' total :=
  Nat.div_le_div_right (Nat.mul_le_mul_right bp h)

/-- The percentage is full exactly when all is done, however large the total is. -/
theorem percent_eq_bp (htotal : 1 ≤ total) (h : done ≤ total) :
    percent done total = bp ↔ done = total := by
  have hpositive : 0 < bp := by decide
  constructor
  · intro hfull
    have hscaled : bp * total ≤ done * bp := (Nat.le_div_iff_mul_le htotal).mp (le_of_eq hfull.symm)
    rw [Nat.mul_comm done] at hscaled
    exact le_antisymm h (Nat.le_of_mul_le_mul_left hscaled hpositive)
  · rintro rfl
    exact Nat.mul_div_cancel_left bp htotal

/-! ### Valid records -/

/-- The invariant of a record. -/
structure Record.Valid (sha : Hex.Hash 64) (r : Record) : Prop where
  jobId : jobIdGrammar r.jobId = true
  worker : workerGrammar r.worker = true
  total : 1 ≤ r.total ∧ r.total ≤ maxTotal
  done : r.done ≤ r.total
  percentBp : r.percentBp = percent r.done r.total
  reportedAt : r.reportedAt ≤ maxNow
  previousId : ∀ t ∈ r.previousId, progressIdGrammar t = true
  progressId : r.progressId = progressIdFor sha r.body

theorem int?_eq_some {n : ℤ} : v.int? = some n ↔ v = .int n := by
  cases v <;> simp [Value.int?]

/-- The accepted values are those of valid records. -/
theorem previousOk_eq_some : previousOk sha v = some r ↔
    v.fields? recordFields = some (r.bodyValues ++ [.str r.progressId]) ∧
      progressIdGrammar r.progressId = true ∧ r.Valid sha := by
  constructor
  · intro h
    unfold previousOk at h
    split at h
    · rename_i op jobId worker done total percentBp reportedAt previousId progressId hfields
      split at h
      · rename_i op' jobId' worker' total' hop hjob hworker htotal
        split at h
        · rename_i done' reportedAt' hdone hreported
          split_ifs at h with hpercent
          split at h
          · rename_i previousId' progressId' hprevious hprogress
            split_ifs at h with hid
            obtain rfl := Option.some.inj h
            obtain ⟨rfl, hreport⟩ := filter_text.mp hop
            obtain ⟨rfl, hjobId⟩ := filter_text.mp hjob
            obtain ⟨rfl, hgrammar⟩ := filter_text.mp hworker
            obtain ⟨rfl, htotalBounds⟩ := Value.of_nat? htotal
            obtain ⟨rfl, -, hdoneBound⟩ := Value.of_nat? hdone
            obtain ⟨rfl, -, hreportedBound⟩ := Value.of_nat? hreported
            obtain ⟨rfl, hpreviousId⟩ := earlierId_eq_some.mp hprevious
            obtain ⟨rfl, hprogressId⟩ := filter_text.mp hprogress
            obtain rfl := int?_eq_some.mp hpercent
            obtain rfl := beq_iff_eq.mp hreport
            exact ⟨hfields, hprogressId, hjobId, hgrammar, htotalBounds, hdoneBound, rfl,
              hreportedBound, hpreviousId, hid⟩
          · cases h
        · cases h
      · cases h
    · cases h
  · intro h
    obtain ⟨hfields, hprogress, hvalid⟩ := h
    have hop : (Value.str "report".toList).text?.filter (· == "report".toList) =
        some "report".toList := filter_text.mpr ⟨rfl, BEq.rfl⟩
    have hjob := filter_text.mpr ⟨rfl, hvalid.jobId⟩
    have hworker := filter_text.mpr ⟨rfl, hvalid.worker⟩
    have hid := filter_text.mpr ⟨rfl, hprogress⟩
    have htotal : (Value.int (r.total : ℤ)).nat? 1 maxTotal = some _ :=
      Value.nat?_int hvalid.total.1 hvalid.total.2
    have hdone : (Value.int (r.done : ℤ)).nat? 0 r.total = some _ :=
      Value.nat?_int (Nat.zero_le _) hvalid.done
    have hreported : (Value.int (r.reportedAt : ℤ)).nat? 0 maxNow = some _ :=
      Value.nat?_int (Nat.zero_le _) hvalid.reportedAt
    have hpercent : (Value.int (r.percentBp : ℤ)).int? = some (percent r.done r.total : ℤ) := by
      rw [hvalid.percentBp]
      rfl
    have hprevious := earlierId_eq_some.mpr ⟨rfl, hvalid.previousId⟩
    have hbody : r.progressId = progressIdFor sha (.object bodyFields r.bodyValues) :=
      hvalid.progressId
    have hsame := hvalid.percentBp
    simp only [Record.bodyValues, List.cons_append, List.nil_append] at hfields hbody
    simp only [previousOk, hfields, hop, hjob, hworker, hid, htotal, hdone, hreported, hpercent,
      hprevious, ← hbody, ← hsame, if_true]

theorem Record.Valid.previousOk (h : r.Valid sha) : previousOk sha r.toValue = some r := by
  have hnodup : recordFields.Nodup := by decide
  refine previousOk_eq_some.mpr ⟨Value.fields?_object hnodup rfl, ?_, h⟩
  rw [h.progressId]
  exact sha.tagged "pg1:".toList _

/-! ### One report -/

structure Checked (sha : Hex.Hash 64) (request : Value) (q : Request) (prev : Option Record) :
    Prop where
  jobId : jobIdGrammar q.jobId = true
  worker : workerGrammar q.worker = true
  total : 1 ≤ q.total ∧ q.total ≤ maxTotal
  done : q.done ≤ q.total
  now : q.now ≤ maxNow
  previous : request.member? "previous".toList = some q.previous
  fresh : prev = none → q.previous = .null
  chained : ∀ p, prev = some p → previousOk sha q.previous = some p ∧ chainOk q p

theorem of_requestOk (h : requestOk request = some q) :
    jobIdGrammar q.jobId = true ∧ workerGrammar q.worker = true ∧
      (1 ≤ q.total ∧ q.total ≤ maxTotal) ∧ q.done ≤ q.total ∧ q.now ≤ maxNow ∧
      request.member? "previous".toList = some q.previous := by
  unfold requestOk at h
  split at h
  · rename_i op jobId worker done total now previous hfields
    split at h
    · rename_i hop hjob hworker htotal
      split at h
      · rename_i hdone hnow
        split_ifs at h
        obtain rfl := Option.some.inj h
        obtain ⟨-, hjobId⟩ := filter_text.mp hjob
        obtain ⟨-, hgrammar⟩ := filter_text.mp hworker
        obtain ⟨-, htotalBounds⟩ := Value.of_nat? htotal
        obtain ⟨-, -, hdoneBound⟩ := Value.of_nat? hdone
        obtain ⟨-, -, hnowBound⟩ := Value.of_nat? hnow
        have hlast : requestFields[6]? = some "previous".toList := rfl
        exact ⟨hjobId, hgrammar, htotalBounds, hdoneBound, hnowBound,
          Value.member?_of_fields? hfields hlast⟩
      · cases h
    · cases h
  · cases h

theorem report_eq_ok (h : report sha request = .ok r) : ∃ q prev,
    Checked sha request q prev ∧ r = recordOf sha q prev := by
  unfold report at h
  cases hq : requestOk request with
  | none => simp [hq] at h
  | some q =>
    simp only [hq] at h
    obtain ⟨hjob, hworker, htotal, hdone, hnow, hprevious⟩ := of_requestOk hq
    split_ifs at h with hnull
    · refine ⟨q, none, ⟨hjob, hworker, htotal, hdone, hnow, hprevious,
        fun _ => isNull_iff.mp hnull, fun p hp => ?_⟩, (Except.ok.inj h).symm⟩
      cases hp
    · cases hprev : previousOk sha q.previous with
      | none => simp [hprev] at h
      | some p =>
        simp only [hprev] at h
        split_ifs at h with hchain
        refine ⟨q, some p, ⟨hjob, hworker, htotal, hdone, hnow, hprevious, fun hp => ?_,
          fun p' hp => ?_⟩, (Except.ok.inj h).symm⟩
        · cases hp
        · obtain rfl := Option.some.inj hp
          exact ⟨hprev, hchain⟩

theorem Checked.valid (h : Checked sha request q prev) : (recordOf sha q prev).Valid sha := by
  refine ⟨h.jobId, h.worker, h.total, h.done, rfl, h.now, fun t ht => ?_, rfl⟩
  obtain ⟨p, rfl, rfl⟩ := Option.map_eq_some_iff.mp (Option.mem_def.mp ht)
  exact (previousOk_eq_some.mp (h.chained p rfl).1).2.1

/-! ### Chains -/

structure Call (sha : Hex.Hash 64) where
  request : Value
  record : Record
  reported : report sha request = .ok record

def Call.Follows (c d : Call sha) : Prop :=
  ∃ v, d.request.member? "previous".toList = some v ∧ previousOk sha v = some c.record

/-- How a record continues an earlier one. -/
structure Record.Continues (r r' : Record) : Prop where
  jobId : r'.jobId = r.jobId
  worker : r'.worker = r.worker
  total : r'.total = r.total
  done : r.done ≤ r'.done
  reportedAt : r.reportedAt ≤ r'.reportedAt
  percentBp : r.percentBp ≤ r'.percentBp
  incomplete : r.done < r.total

theorem Record.Continues.trans {r r' r'' : Record} (h : r.Continues r') (h' : r'.Continues r'') :
    r.Continues r'' :=
  ⟨h'.jobId.trans h.jobId, h'.worker.trans h.worker, h'.total.trans h.total,
    le_trans h.done h'.done, le_trans h.reportedAt h'.reportedAt,
    le_trans h.percentBp h'.percentBp, h.incomplete⟩

variable {c d : Call sha}

theorem Call.valid (c : Call sha) : c.record.Valid sha := by
  obtain ⟨q, prev, hchecked, hrecord⟩ := report_eq_ok c.reported
  rw [hrecord]
  exact hchecked.valid

theorem Call.Follows.continues (h : c.Follows d) : c.record.Continues d.record := by
  obtain ⟨v, hmember, hread⟩ := h
  obtain ⟨q, prev, hchecked, hrecord⟩ := report_eq_ok d.reported
  obtain rfl : q.previous = v := Option.some.inj (hchecked.previous.symm.trans hmember)
  cases prev with
  | none =>
    rw [hchecked.fresh rfl] at hread
    cases hread
  | some p =>
    obtain ⟨hp, hjob, hworker, htotal, hopen, hdone, hclock⟩ := hchecked.chained p rfl
    rw [hread] at hp
    obtain rfl := Option.some.inj hp
    have hpercent : c.record.percentBp ≤ percent q.done q.total := by
      rw [c.valid.percentBp, htotal]
      exact percent_le hdone
    rw [hrecord]
    exact ⟨hjob, hworker, htotal, hdone, hclock, hpercent, hopen⟩

/-- Along a chain the job, the worker and the total are fixed, the progress never goes back,
and only the last record may be complete. Every record is accepted as a previous one, and its
percentage is full exactly when all is done. -/
theorem progress_chains (sha : Hex.Hash 64) :
    (∀ request r, report sha request = .ok r → previousOk sha r.toValue = some r ∧
      (r.percentBp = bp ↔ r.done = r.total)) ∧
    ∀ calls : List (Call sha), List.IsChain Call.Follows calls →
      calls.Pairwise fun c d => c.record.Continues d.record := by
  refine ⟨fun request r h => ?_, fun calls h => ?_⟩
  · have hvalid := Call.valid ⟨request, r, h⟩
    refine ⟨hvalid.previousOk, ?_⟩
    have hpercent := hvalid.percentBp
    rw [hpercent]
    exact percent_eq_bp hvalid.total.1 hvalid.done
  · have htrans : IsTrans (Call sha) fun c d => c.record.Continues d.record :=
      ⟨fun _ _ _ h h' => h.trans h'⟩
    exact (h.imp fun _ _ h => h.continues).pairwise

def job : Text := Jobs.jobIdTag ++ List.replicate 64 'a'

def partsRequest (done now : ℕ) (previous : Value) : Value :=
  .object requestFields [.str "report".toList, .str job, .str ['w'], .int done, .int 3, .int now,
    previous]

def firstRecord : Record := recordOf (.lengths 64) ⟨job, ['w'], 1, 3, 0, .null⟩ none

def firstCall : Call (.lengths 64) := ⟨partsRequest 1 0 .null, firstRecord, rfl⟩

def lastRecord : Record :=
  recordOf (.lengths 64) ⟨job, ['w'], 3, 3, 5, firstRecord.toValue⟩ (some firstRecord)

theorem report_partsRequest :
    report (.lengths 64) (partsRequest 3 5 firstRecord.toValue) = .ok lastRecord := by
  have hq : requestOk (partsRequest 3 5 firstRecord.toValue) =
      some ⟨job, ['w'], 3, 3, 5, firstRecord.toValue⟩ := rfl
  have hnull : firstRecord.toValue.isNull = false := rfl
  have hprev : previousOk (.lengths 64) firstRecord.toValue = some firstRecord :=
    firstCall.valid.previousOk
  simp only [report, hq, hnull, hprev]
  rfl

def lastCall : Call (.lengths 64) :=
  ⟨partsRequest 3 5 firstRecord.toValue, lastRecord, report_partsRequest⟩

/-- The last report of the job continues the first. -/
theorem progress_chains_parts : firstRecord.Continues lastRecord := by
  obtain ⟨-, hchain⟩ := progress_chains (.lengths 64)
  have hfollows : firstCall.Follows lastCall := by
    have hnodup : requestFields.Nodup := by decide
    have hname : requestFields[6]? = some "previous".toList := rfl
    exact ⟨_, Value.member?_of_fields? (Value.fields?_object hnodup rfl) hname,
      firstCall.valid.previousOk⟩
  exact List.rel_of_pairwise_cons (hchain [firstCall, lastCall] (List.isChain_pair.mpr hfollows))
    (List.mem_singleton_self _)

end Progress
end OpenChess
