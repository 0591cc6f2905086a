import OpenChess.Jobs.Limit

/-!
# Chains of limit records

Every record of a decision is accepted as the previous one of the next. Along a chain the
bucket neither gains nor loses more than its refill: the admitted cost is covered by the
tokens before it and the periods since.
-/

namespace OpenChess
namespace Limit

open TokenBucket (Bucket Flow)

variable {sha : Hex.Hash 64} {request v : Value} {q : Request} {policy : Policy}
  {prev : Option Record} {r a b : Record}

/-! ### Valid records -/

/-- The invariant of a record. -/
structure Record.Valid (sha : Hex.Hash 64) (r : Record) : Prop where
  key : keyGrammar r.key = true
  capacity : 1 ≤ r.policy.capacity ∧ r.policy.capacity ≤ maxCapacity
  refillMs : 1 ≤ r.policy.refillMs ∧ r.policy.refillMs ≤ maxRefill
  cost : 1 ≤ r.cost ∧ r.cost ≤ r.policy.capacity
  tokens : r.tokens ≤ r.policy.capacity
  updatedAt : r.updatedAt ≤ maxNow
  previousId : ∀ t ∈ r.previousId, limitIdGrammar t = true
  admitted : r.decision = .admitted → r.retryAfterMs = none ∧ r.tokens ≤ r.policy.capacity - r.cost
  denied : r.decision = .deny → ∃ ms, r.retryAfterMs = some ms ∧ 1 ≤ ms ∧ ms ≤ maxNow ∧
    r.tokens < r.cost ∧ (r.cost - r.tokens - 1) * r.policy.refillMs < ms ∧
    ms ≤ (r.cost - r.tokens) * r.policy.refillMs ∧ r.updatedAt + ms ≤ maxNow
  limitId : r.limitId = limitIdFor sha r.body

theorem filter_text {t : Text} {grammar : Text → Bool} :
    v.text?.filter grammar = some t ↔ v = .str t ∧ grammar t = true := by
  rw [Option.filter_eq_some_iff, Value.text?_eq_some]

theorem decisionOf?_eq_some {t : Text} {d : Decision} : decisionOf? t = some d ↔ t = d.text := by
  constructor
  · intro h
    have hfound := List.find?_some h
    exact (beq_iff_eq.mp hfound).symm
  · intro h
    subst h
    cases d <;> decide

theorem isNull_iff : v.isNull = true ↔ v = .null := by
  cases v <;> simp [Value.isNull]

theorem earlierId_eq_some {grammar : Text → Bool} {id : Option Text} :
    Jobs.earlierId grammar v = some id ↔ v = (id.map Value.str).getD .null ∧
      ∀ t ∈ id, grammar t = true := by
  unfold Jobs.earlierId
  split_ifs with hnull
  · obtain rfl := isNull_iff.mp hnull
    cases id <;> simp
  · rw [isNull_iff] at hnull
    simp only [Option.map_eq_some_iff, filter_text]
    cases id with
    | none => simp [hnull]
    | some t => simp

theorem previousIdOk_eq_some {previousId : Option Text} :
    previousIdOk v = some previousId ↔ v = (previousId.map Value.str).getD .null ∧
      ∀ t ∈ previousId, limitIdGrammar t = true := earlierId_eq_some

theorem retryOk_eq_some {cost tokens updatedAt : ℕ} {d : Decision} {retry : Option ℕ} :
    retryOk policy cost tokens updatedAt v d = some retry ↔
      v = (retry.map fun n : ℕ => Value.int n).getD .null ∧
        (d = .admitted → retry = none ∧ tokens ≤ policy.capacity - cost) ∧
        (d = .deny → ∃ ms, retry = some ms ∧ 1 ≤ ms ∧ ms ≤ maxNow ∧ tokens < cost ∧
          (cost - tokens - 1) * policy.refillMs < ms ∧ ms ≤ (cost - tokens) * policy.refillMs ∧
          updatedAt + ms ≤ maxNow) := by
  cases d with
  | admitted =>
    simp only [retryOk, forall_const, reduceCtorEq, false_implies, and_true]
    split_ifs with hrefused
    · simp only [false_iff]
      intro h
      obtain ⟨rfl, rfl, htokens⟩ := h
      rcases hrefused with hnull | hlt
      · cases hnull
      · omega
    · simp only [not_or, Bool.not_eq_false, isNull_iff, not_lt] at hrefused
      obtain ⟨rfl, htokens⟩ := hrefused
      constructor
      · intro h
        obtain rfl := Option.some.inj h
        exact ⟨rfl, rfl, htokens⟩
      · intro h
        rw [h.2.1]
  | deny =>
    simp only [retryOk, forall_const, reduceCtorEq, false_implies, true_and]
    constructor
    · intro h
      cases hms : v.nat? 1 maxNow with
      | none => simp [hms] at h
      | some ms =>
        simp only [hms] at h
        split_ifs at h with hbounds
        obtain rfl := Option.some.inj h
        obtain ⟨rfl, hlo, hhi⟩ := Value.of_nat? hms
        exact ⟨rfl, ms, rfl, hlo, hhi, hbounds⟩
    · intro h
      obtain ⟨rfl, ms, rfl, hlo, hhi, hbounds⟩ := h
      have hms : (Value.int (ms : ℤ)).nat? 1 maxNow = some ms := Value.nat?_int hlo hhi
      simp only [Option.map_some, Option.getD_some, hms, if_pos hbounds]

/-- The accepted values are those of valid records. -/
theorem previousOk_eq_some : previousOk sha v = some r ↔
    v.fields? recordFields = some (r.bodyValues ++ [.str r.limitId]) ∧
      limitIdGrammar r.limitId = true ∧ r.Valid sha := by
  constructor
  · intro h
    unfold previousOk at h
    split at h
    · rename_i op key capacity refillMs cost decision tokens updatedAt retry previousId limitId hfields
      split at h
      · rename_i op' key' capacity' refillMs' hop hkey hcapacity hrefill
        split at h
        · rename_i cost' decision' tokens' updatedAt' hcost hdecision htokens hupdated
          split at h
          · rename_i previousId' limitId' retry' hprevious hlimit hretry
            split_ifs at h with hid
            obtain rfl := Option.some.inj h
            obtain ⟨rfl, hallowed⟩ := filter_text.mp hop
            obtain ⟨rfl, hgrammar⟩ := filter_text.mp hkey
            obtain ⟨rfl, hcapacityBounds⟩ := Value.of_nat? hcapacity
            obtain ⟨rfl, hrefillBounds⟩ := Value.of_nat? hrefill
            obtain ⟨rfl, hcostBounds⟩ := Value.of_nat? hcost
            obtain ⟨t, ht, hname⟩ := Option.bind_eq_some_iff.mp hdecision
            obtain rfl := Value.text?_eq_some.mp ht
            obtain rfl := decisionOf?_eq_some.mp hname
            obtain ⟨rfl, -, htokensBound⟩ := Value.of_nat? htokens
            obtain ⟨rfl, -, hupdatedBound⟩ := Value.of_nat? hupdated
            obtain ⟨rfl, hpreviousId⟩ := previousIdOk_eq_some.mp hprevious
            obtain ⟨rfl, hlimitId⟩ := filter_text.mp hlimit
            obtain ⟨rfl, hadmitted, hdenied⟩ := retryOk_eq_some.mp hretry
            obtain rfl := beq_iff_eq.mp hallowed
            exact ⟨hfields, hlimitId, hgrammar, hcapacityBounds, hrefillBounds, hcostBounds,
              htokensBound, hupdatedBound, hpreviousId, hadmitted, hdenied, hid⟩
          · cases h
        · cases h
      · cases h
    · cases h
  · intro h
    obtain ⟨hfields, hlimit, hvalid⟩ := h
    have hop : (Value.str "admit".toList).text?.filter (· == "admit".toList) =
        some "admit".toList := filter_text.mpr ⟨rfl, BEq.rfl⟩
    have hkey := filter_text.mpr ⟨rfl, hvalid.key⟩
    have hid := filter_text.mpr ⟨rfl, hlimit⟩
    have hcapacity : (Value.int (r.policy.capacity : ℤ)).nat? 1 maxCapacity = some _ :=
      Value.nat?_int hvalid.capacity.1 hvalid.capacity.2
    have hrefill : (Value.int (r.policy.refillMs : ℤ)).nat? 1 maxRefill = some _ :=
      Value.nat?_int hvalid.refillMs.1 hvalid.refillMs.2
    have hcost : (Value.int (r.cost : ℤ)).nat? 1 r.policy.capacity = some _ :=
      Value.nat?_int hvalid.cost.1 hvalid.cost.2
    have htokens : (Value.int (r.tokens : ℤ)).nat? 0 r.policy.capacity = some _ :=
      Value.nat?_int (Nat.zero_le _) hvalid.tokens
    have hupdated : (Value.int (r.updatedAt : ℤ)).nat? 0 maxNow = some _ :=
      Value.nat?_int (Nat.zero_le _) hvalid.updatedAt
    have hdecision : (Value.str r.decision.text).text?.bind decisionOf? = some r.decision :=
      decisionOf?_eq_some.mpr rfl
    have hprevious := previousIdOk_eq_some.mpr ⟨rfl, hvalid.previousId⟩
    have hretry := retryOk_eq_some.mpr ⟨rfl, hvalid.admitted, hvalid.denied⟩
    have hbody : r.limitId = limitIdFor sha (.object bodyFields r.bodyValues) := hvalid.limitId
    simp only [Record.bodyValues, List.cons_append, List.nil_append] at hfields hbody
    simp only [previousOk, hfields, hop, hkey, hid, hcapacity, hrefill, hcost, htokens, hupdated,
      hdecision, hprevious, hretry, ← hbody, if_true]

theorem Record.Valid.previousOk (h : r.Valid sha) : previousOk sha r.toValue = some r := by
  have hnodup : recordFields.Nodup := by decide
  refine previousOk_eq_some.mpr ⟨Value.fields?_object hnodup rfl, ?_, h⟩
  rw [h.limitId]
  exact sha.tagged "lm1:".toList _

/-! ### One decision -/

/-- What the checks of an admitted or denied request establish. -/
structure Checked (sha : Hex.Hash 64) (request : Value) (q : Request) (policy : Policy)
    (prev : Option Record) : Prop where
  key : keyGrammar q.key = true
  cost : 1 ≤ q.cost ∧ q.cost ≤ policy.capacity
  now : q.now ≤ maxNow
  nowMember : request.member? "now".toList = some (.int q.now)
  capacity : 1 ≤ policy.capacity ∧ policy.capacity ≤ maxCapacity
  refillMs : 1 ≤ policy.refillMs ∧ policy.refillMs ≤ maxRefill
  previous : request.member? "previous".toList = some q.previous
  fresh : prev = none → q.previous = .null
  chained : ∀ p, prev = some p → previousOk sha q.previous = some p ∧ chainOk q policy p

theorem of_requestOk (h : requestOk request = some q) :
    keyGrammar q.key = true ∧ 1 ≤ q.cost ∧ q.now ≤ maxNow ∧
      request.member? "now".toList = some (.int q.now) ∧
      request.member? "previous".toList = some q.previous := by
  unfold requestOk at h
  split at h
  · rename_i op key cost now policy previous hfields
    split at h
    · rename_i hop hkey hcost hnow
      split_ifs at h
      obtain rfl := Option.some.inj h
      obtain ⟨-, hgrammar⟩ := filter_text.mp hkey
      obtain ⟨-, hpositive, -⟩ := Value.of_nat? hcost
      obtain ⟨rfl, -, hlimit⟩ := Value.of_nat? hnow
      have hthird : requestFields[3]? = some "now".toList := rfl
      have hlast : requestFields[5]? = some "previous".toList := rfl
      exact ⟨hgrammar, hpositive, hlimit, Value.member?_of_fields? hfields hthird,
        Value.member?_of_fields? hfields hlast⟩
    · cases h
  · cases h

theorem of_policyOk (h : policyOk v = some policy) :
    (1 ≤ policy.capacity ∧ policy.capacity ≤ maxCapacity) ∧
      (1 ≤ policy.refillMs ∧ policy.refillMs ≤ maxRefill) := by
  unfold policyOk at h
  split at h
  · split at h
    · rename_i hcapacity hrefill
      obtain rfl := Option.some.inj h
      exact ⟨(Value.of_nat? hcapacity).2, (Value.of_nat? hrefill).2⟩
    · cases h
  · cases h

theorem admitRequest_eq_ok (h : admitRequest sha request = .ok r) : ∃ q policy prev,
    Checked sha request q policy prev ∧ decision sha q policy prev = .ok r := by
  unfold admitRequest at h
  cases hq : requestOk request with
  | none => simp [hq] at h
  | some q =>
    cases hpolicy : policyOk q.policy with
    | none => simp [hq, hpolicy] at h
    | some policy =>
      simp only [hq, hpolicy] at h
      obtain ⟨hkey, hcost, hnow, hnowMember, hprevious⟩ := of_requestOk hq
      obtain ⟨hcapacity, hrefill⟩ := of_policyOk hpolicy
      split_ifs at h with hover hnull
      · refine ⟨q, policy, none, ⟨hkey, ⟨hcost, not_lt.mp hover⟩, hnow, hnowMember, hcapacity,
          hrefill, hprevious, fun _ => isNull_iff.mp hnull, fun p hp => ?_⟩, h⟩
        cases hp
      · cases hprev : previousOk sha q.previous with
        | none => simp [hprev] at h
        | some p =>
          simp only [hprev] at h
          split_ifs at h with hchain
          refine ⟨q, policy, some p, ⟨hkey, ⟨hcost, not_lt.mp hover⟩, hnow, hnowMember, hcapacity,
            hrefill, hprevious, fun hp => ?_, fun p' hp => ?_⟩, h⟩
          · cases hp
          · obtain rfl := Option.some.inj hp
            exact ⟨hprev, hchain⟩

def start (policy : Policy) (now : ℕ) (prev : Option Record) : Bucket :=
  prev.elim ⟨policy.capacity, now⟩ Record.bucket

def Record.spent (r : Record) : ℕ := if r.decision = .admitted then r.cost else 0

/-- A bucket is refilled up to its capacity and to a time within a period before now. -/
theorem Checked.fill (h : Checked sha request q policy prev) :
    (refilled policy q.now prev).tokens ≤ policy.capacity ∧
      (refilled policy q.now prev).since ≤ q.now ∧
      ((refilled policy q.now prev).tokens < policy.capacity →
        q.now - (refilled policy q.now prev).since < policy.refillMs) ∧
      Flow policy.refillMs 0 (start policy q.now prev) (refilled policy q.now prev) := by
  cases prev with
  | none => exact ⟨le_refl _, le_refl _, fun hlt => absurd hlt (lt_irrefl _), Flow.refl _⟩
  | some p =>
    obtain ⟨-, -, -, -, hclock⟩ := h.chained p rfl
    exact ⟨TokenBucket.refill_tokens_le, TokenBucket.refill_since_le hclock,
      TokenBucket.refill_rest_lt h.refillMs.1, TokenBucket.flow_refill hclock⟩

/-- A decided record is valid, keeps the key and the policy, and spends tokens of its
bucket only. -/
structure Decided (sha : Hex.Hash 64) (q : Request) (policy : Policy) (prev : Option Record)
    (r : Record) : Prop where
  valid : r.Valid sha
  sameKey : r.key = q.key
  samePolicy : r.policy = policy
  updatedAt : r.updatedAt ≤ q.now
  flow : Flow policy.refillMs r.spent (start policy q.now prev) r.bucket

theorem Checked.previousId (h : Checked sha request q policy prev) :
    ∀ t ∈ prev.map Record.limitId, limitIdGrammar t = true := by
  intro t ht
  obtain ⟨p, rfl, rfl⟩ := Option.map_eq_some_iff.mp (Option.mem_def.mp ht)
  exact (previousOk_eq_some.mp (h.chained p rfl).1).2.1

theorem Checked.decided (h : Checked sha request q policy prev)
    (hdecision : decision sha q policy prev = .ok r) : Decided sha q policy prev r := by
  obtain ⟨htokens, hsince, hrest, hflow⟩ := h.fill
  have hnow := h.now
  unfold decision at hdecision
  generalize refilled policy q.now prev = filled at *
  simp only at hdecision
  split_ifs at hdecision with hcost hclock
  · obtain rfl := Except.ok.inj hdecision
    refine ⟨⟨h.key, h.capacity, h.refillMs, h.cost, le_trans (Nat.sub_le _ _) htokens,
      le_trans hsince hnow, h.previousId, fun _ => ⟨rfl, Nat.sub_le_sub_right htokens _⟩,
      (fun hdeny => by cases hdeny), rfl⟩, rfl, rfl, hsince, ?_⟩
    have hspend := hflow.trans (TokenBucket.flow_spend hcost)
    rwa [Nat.zero_add] at hspend
  · obtain rfl := Except.ok.inj hdecision
    have hlt : filled.tokens < policy.capacity := lt_of_lt_of_le (not_le.mp hcost) h.cost.2
    have hpartial := hrest hlt
    obtain ⟨missing, hmissing⟩ : ∃ m, q.cost - filled.tokens = m + 1 :=
      ⟨q.cost - filled.tokens - 1, by omega⟩
    have hscaled : (missing + 1) * policy.refillMs = missing * policy.refillMs + policy.refillMs :=
      Nat.succ_mul _ _
    rw [hmissing] at hclock
    refine ⟨⟨h.key, h.capacity, h.refillMs, h.cost, htokens, le_trans hsince hnow, h.previousId,
      (fun hallowed => by cases hallowed), fun _ => ⟨_, rfl, ?_⟩, rfl⟩, rfl, rfl, hsince, hflow⟩
    simp only [recordOf, hmissing, Nat.add_sub_cancel]
    omega

/-! ### Chains -/

structure Call (sha : Hex.Hash 64) where
  request : Value
  record : Record
  decided : admitRequest sha request = .ok record

def Call.now (c : Call sha) : ℕ :=
  ((c.request.member? "now".toList).bind (Value.nat? 0 maxNow)).getD 0

def Call.Follows (c d : Call sha) : Prop :=
  d.request.member? "previous".toList = some c.record.toValue

def Call.Fresh (c : Call sha) : Prop := c.request.member? "previous".toList = some .null

/-- The cost admitted by these calls. -/
def spent (cs : List (Call sha)) : ℕ := (cs.map fun c => c.record.spent).sum

variable {c d : Call sha} {cs : List (Call sha)}

theorem Checked.clock (h : Checked sha c.request q policy prev) : c.now = q.now := by
  have hnow : (Value.int (q.now : ℤ)).nat? 0 maxNow = some q.now :=
    Value.nat?_int (Nat.zero_le _) h.now
  rw [Call.now, h.nowMember, Option.bind_some, hnow, Option.getD_some]

theorem Call.valid (c : Call sha) : c.record.Valid sha := by
  obtain ⟨q, policy, prev, hchecked, hdecision⟩ := admitRequest_eq_ok c.decided
  exact (hchecked.decided hdecision).valid

theorem Call.updatedAt_le (c : Call sha) : c.record.updatedAt ≤ c.now := by
  obtain ⟨q, policy, prev, hchecked, hdecision⟩ := admitRequest_eq_ok c.decided
  rw [hchecked.clock]
  exact (hchecked.decided hdecision).updatedAt

theorem Call.Follows.flow (h : c.Follows d) : d.record.policy = c.record.policy ∧
    Flow c.record.policy.refillMs d.record.spent c.record.bucket d.record.bucket := by
  obtain ⟨q, policy, prev, hchecked, hdecision⟩ := admitRequest_eq_ok d.decided
  have hdecided := hchecked.decided hdecision
  have hprevious : q.previous = c.record.toValue := Option.some.inj (hchecked.previous.symm.trans h)
  cases prev with
  | none =>
    have hnull := hchecked.fresh rfl
    rw [hprevious] at hnull
    cases hnull
  | some p =>
    obtain ⟨hread, -, hcapacity, hrefill, -⟩ := hchecked.chained p rfl
    rw [hprevious, c.valid.previousOk] at hread
    obtain rfl := Option.some.inj hread
    have hpolicy : policy = c.record.policy := by
      cases policy
      cases hsame : c.record.policy
      rw [hsame] at hcapacity hrefill
      rw [Policy.mk.injEq]
      exact ⟨hcapacity, hrefill⟩
    subst hpolicy
    exact ⟨hdecided.samePolicy, hdecided.flow⟩

theorem Call.Fresh.flow (h : c.Fresh) : Flow c.record.policy.refillMs c.record.spent
    ⟨c.record.policy.capacity, c.now⟩ c.record.bucket := by
  obtain ⟨q, policy, prev, hchecked, hdecision⟩ := admitRequest_eq_ok c.decided
  have hdecided := hchecked.decided hdecision
  have hprevious : q.previous = .null := Option.some.inj (hchecked.previous.symm.trans h)
  cases prev with
  | none =>
    rw [hdecided.samePolicy, hchecked.clock]
    exact hdecided.flow
  | some p =>
    obtain ⟨hread, -⟩ := hchecked.chained p rfl
    rw [hprevious] at hread
    cases hread

theorem flow_chain (h : List.IsChain Call.Follows (c :: cs)) :
    Flow c.record.policy.refillMs (spent cs) c.record.bucket (cs.getLastD c).record.bucket := by
  induction cs generalizing c with
  | nil => exact Flow.refl _
  | cons d cs ih =>
    obtain ⟨hfollows, hrest⟩ := List.isChain_cons_cons.mp h
    obtain ⟨hpolicy, hflow⟩ := hfollows.flow
    have hflow' := ih hrest
    rw [hpolicy] at hflow'
    rw [List.getLastD_cons, spent, List.map_cons, List.sum_cons]
    exact hflow.trans hflow'

/-- Every record is accepted as a previous one, and its tokens are within its capacity.
The cost admitted in a segment of a chain after a call is covered by the tokens of its
record and the periods until the last record of the segment. A chain that starts with no
record admits its capacity and the elapsed periods at most. -/
theorem conservation (sha : Hex.Hash 64) :
    (∀ request r, admitRequest sha request = .ok r →
      previousOk sha r.toValue = some r ∧ r.tokens ≤ r.policy.capacity) ∧
    (∀ (before : List (Call sha)) c segment after,
      List.IsChain Call.Follows (before ++ c :: (segment ++ after)) →
      c.record.updatedAt ≤ (segment.getLastD c).record.updatedAt ∧
      spent segment ≤ c.record.tokens +
        ((segment.getLastD c).record.updatedAt - c.record.updatedAt) /
          c.record.policy.refillMs) ∧
    ∀ (c : Call sha) rest, c.Fresh → List.IsChain Call.Follows (c :: rest) →
      spent (c :: rest) ≤ c.record.policy.capacity +
        ((rest.getLastD c).now - c.now) / c.record.policy.refillMs := by
  refine ⟨fun request r h => ?_, fun before c segment after h => ?_, fun c rest hfresh h => ?_⟩
  · have hvalid := Call.valid ⟨request, r, h⟩
    exact ⟨hvalid.previousOk, hvalid.tokens⟩
  · have hchain := h.right_of_append
    rw [← List.cons_append] at hchain
    have hflow := flow_chain hchain.left_of_append
    exact ⟨hflow.since, hflow.spent_le c.valid.refillMs.1⟩
  · have hflow := hfresh.flow.trans (flow_chain h)
    have hspent := hflow.spent_le c.valid.refillMs.1
    have helapsed : ((rest.getLastD c).record.updatedAt - c.now) / c.record.policy.refillMs ≤
        ((rest.getLastD c).now - c.now) / c.record.policy.refillMs :=
      Nat.div_le_div_right (Nat.sub_le_sub_right (rest.getLastD c).updatedAt_le _)
    exact le_trans hspent (Nat.add_le_add_left helapsed _)

/-- A request for the only token of a bucket, at time zero. -/
def tokenRequest (previous : Value) : Value :=
  .object requestFields [.str "admit".toList, .str ['k'], .int 1, .int 0,
    .object policyFields [.int 1, .int 1], previous]

def tokenRecord : Record :=
  recordOf (.lengths 64) ⟨['k'], 1, 0, .null, .null⟩ ⟨1, 1⟩ none .admitted ⟨0, 0⟩ none

def tokenCall : Call (.lengths 64) := ⟨tokenRequest .null, tokenRecord, rfl⟩

def laterRecord : Record :=
  recordOf (.lengths 64) ⟨['k'], 1, 0, .null, .null⟩ ⟨1, 1⟩ (some tokenRecord) .deny ⟨0, 0⟩ (some 1)

theorem admit_tokenRequest :
    admitRequest (.lengths 64) (tokenRequest tokenRecord.toValue) = .ok laterRecord := by
  have hq : requestOk (tokenRequest tokenRecord.toValue) =
      some ⟨['k'], 1, 0, .object policyFields [.int 1, .int 1], tokenRecord.toValue⟩ := rfl
  have hpolicy : policyOk (.object policyFields [.int 1, .int 1]) = some ⟨1, 1⟩ := rfl
  have hnull : tokenRecord.toValue.isNull = false := rfl
  have hprev : previousOk (.lengths 64) tokenRecord.toValue = some tokenRecord :=
    tokenCall.valid.previousOk
  simp only [admitRequest, hq, hpolicy, hnull, hprev]
  rfl

def laterCall : Call (.lengths 64) :=
  ⟨tokenRequest tokenRecord.toValue, laterRecord, admit_tokenRequest⟩

/-- The two calls spend one token. -/
theorem conservation_tokenCalls : spent [tokenCall, laterCall] ≤ 1 + (0 - 0) / 1 := by
  obtain ⟨-, -, hfresh⟩ := conservation (.lengths 64)
  have hfollows : tokenCall.Follows laterCall := by
    have hnodup : requestFields.Nodup := by decide
    have hname : requestFields[5]? = some "previous".toList := rfl
    exact Value.member?_of_fields? (Value.fields?_object hnodup rfl) hname
  exact hfresh tokenCall [laterCall] rfl (List.isChain_pair.mpr hfollows)

end Limit
end OpenChess

/-!
## The wait of a denial

A denial names the instant at which its tokens are due. The same request is denied with
the same instant until then, and admitted at it.
-/

namespace OpenChess
namespace Limit

open TokenBucket (Bucket)

variable {sha : Hex.Hash 64} {request : Value} {q : Request} {policy : Policy}
  {prev : Option Record} {r : Record} {c : Call sha} {t : ℕ}

/-- The request repeats the key, the cost and the policy of the record, with the record as
the previous one. -/
def Repeats (sha : Hex.Hash 64) (r : Record) (t : ℕ) (request : Value) : Prop :=
  ∃ q, requestOk request = some q ∧ q.key = r.key ∧ q.cost = r.cost ∧ q.now = t ∧
    policyOk q.policy = some r.policy ∧ previousOk sha q.previous = some r

def policyValue (policy : Policy) : Value :=
  .object policyFields [.int policy.capacity, .int policy.refillMs]

theorem policyOk_policyValue (h : r.Valid sha) : policyOk (policyValue r.policy) = some r.policy := by
  have hnodup : policyFields.Nodup := by decide
  have hfields : (policyValue r.policy).fields? policyFields =
      some [.int r.policy.capacity, .int r.policy.refillMs] := Value.fields?_object hnodup rfl
  have hcapacity : (Value.int (r.policy.capacity : ℤ)).nat? 1 maxCapacity = some _ :=
    Value.nat?_int h.capacity.1 h.capacity.2
  have hrefill : (Value.int (r.policy.refillMs : ℤ)).nat? 1 maxRefill = some _ :=
    Value.nat?_int h.refillMs.1 h.refillMs.2
  simp only [policyOk, hfields, hcapacity, hrefill]

def repeatRequest (r : Record) (t : ℕ) : Value :=
  .object requestFields [.str "admit".toList, .str r.key, .int r.cost, .int t,
    policyValue r.policy, r.toValue]

theorem repeats_repeatRequest (h : r.Valid sha) (ht : t ≤ maxNow) :
    Repeats sha r t (repeatRequest r t) := by
  have hnodup : requestFields.Nodup := by decide
  have hfields : (repeatRequest r t).fields? requestFields = some [.str "admit".toList, .str r.key,
      .int r.cost, .int t, policyValue r.policy, r.toValue] := Value.fields?_object hnodup rfl
  have hop : (Value.str "admit".toList).text?.filter (· == "admit".toList) =
      some "admit".toList := filter_text.mpr ⟨rfl, BEq.rfl⟩
  have hkey := filter_text.mpr ⟨rfl, h.key⟩
  have hcost : (Value.int (r.cost : ℤ)).nat? 1 maxCapacity = some _ :=
    Value.nat?_int h.cost.1 (le_trans h.cost.2 h.capacity.2)
  have hnow : (Value.int (t : ℤ)).nat? 0 maxNow = some _ := Value.nat?_int (Nat.zero_le _) ht
  refine ⟨⟨r.key, r.cost, t, policyValue r.policy, r.toValue⟩, ?_, rfl, rfl, rfl,
    policyOk_policyValue h, h.previousOk⟩
  simp only [requestOk, hfields, hop, hkey, hcost, hnow]
  rfl

theorem Checked.denied (h : Checked sha request q policy prev)
    (hdecision : decision sha q policy prev = .ok r) (hdeny : r.decision = .deny) :
    r.cost = q.cost ∧ r.tokens < q.cost ∧ q.now - r.updatedAt < policy.refillMs ∧
      r.updatedAt ≤ q.now ∧
      ∃ ms, r.retryAfterMs = some ms ∧ q.now + ms ≤ maxNow ∧
        q.now + ms = r.bucket.due policy.refillMs q.cost := by
  obtain ⟨-, hsince, hrest, -⟩ := h.fill
  unfold decision at hdecision
  generalize refilled policy q.now prev = filled at *
  simp only at hdecision
  split_ifs at hdecision with hcost hclock
  · obtain rfl := Except.ok.inj hdecision
    cases hdeny
  · obtain rfl := Except.ok.inj hdecision
    have hshort := not_le.mp hcost
    have hpartial := hrest (lt_of_lt_of_le hshort h.cost.2)
    exact ⟨rfl, hshort, hpartial, hsince, _, rfl, not_lt.mp hclock,
      TokenBucket.add_wait hshort hpartial hsince⟩

/-- A repeated request is decided on the bucket of the record. -/
theorem Repeats.admitRequest (h : Repeats sha r t request) (hvalid : r.Valid sha)
    (ht : r.updatedAt ≤ t) : ∃ q, q.cost = r.cost ∧ q.now = t ∧
      admitRequest sha request = decision sha q r.policy (some r) := by
  obtain ⟨q, hq, hkey, hcost, hnow, hpolicy, hprevious⟩ := h
  have hcovered : ¬ r.policy.capacity < q.cost := by
    rw [hcost]
    exact not_lt.mpr hvalid.cost.2
  have hnull : q.previous.isNull = false := by
    rw [Bool.eq_false_iff]
    intro hnull
    rw [isNull_iff.mp hnull] at hprevious
    cases hprevious
  have hchain : chainOk q r.policy r := ⟨hkey, rfl, rfl, by rwa [hnow]⟩
  refine ⟨q, hcost, hnow, ?_⟩
  simp only [Limit.admitRequest, hq, hpolicy, if_neg hcovered, hnull, hprevious, if_pos hchain,
    Bool.false_eq_true, if_false]

theorem decision_due (hvalid : r.Valid sha) (hq : q.cost = r.cost) (hnow : r.updatedAt ≤ q.now)
    (hdue : r.bucket.due r.policy.refillMs r.cost ≤ maxNow) :
    ∃ r', decision sha q r.policy (some r) = .ok r' ∧
      (r.bucket.due r.policy.refillMs r.cost ≤ q.now → r'.decision = .admitted) ∧
      (q.now < r.bucket.due r.policy.refillMs r.cost → r'.decision = .deny ∧
        ∃ ms, r'.retryAfterMs = some ms ∧
          q.now + ms = r.bucket.due r.policy.refillMs r.cost) := by
  have hiff := TokenBucket.le_refill_tokens_iff (b := r.bucket) hvalid.refillMs.1 hvalid.cost.2 hnow
  have hfilled : refilled r.policy q.now (some r) =
      r.bucket.refill r.policy.capacity r.policy.refillMs q.now := rfl
  unfold decision
  rw [hfilled, hq]
  by_cases hcost : r.cost ≤ (r.bucket.refill r.policy.capacity r.policy.refillMs q.now).tokens
  · simp only [if_pos hcost]
    exact ⟨_, rfl, fun _ => rfl, fun hlt => absurd (hiff.mp hcost) (not_le.mpr hlt)⟩
  · have hshort := not_le.mp hcost
    have hrest := TokenBucket.refill_rest_lt hvalid.refillMs.1 (lt_of_lt_of_le hshort hvalid.cost.2)
    have hwait := TokenBucket.add_wait hshort hrest (TokenBucket.refill_since_le hnow)
    rw [TokenBucket.due_refill hvalid.cost.2 hshort] at hwait
    have hclock : ¬ maxNow < q.now + ((r.cost -
        (r.bucket.refill r.policy.capacity r.policy.refillMs q.now).tokens) * r.policy.refillMs -
        (q.now - (r.bucket.refill r.policy.capacity r.policy.refillMs q.now).since)) := by
      rw [hwait]
      exact not_lt.mpr hdue
    simp only [if_neg hcost, if_neg hclock]
    exact ⟨_, rfl, fun hle => absurd (hiff.mpr hle) hcost, fun _ => ⟨rfl, _, rfl, hwait⟩⟩

/-- A denied request is denied with the same instant before that instant, and admitted at it. -/
theorem retry_exact (c : Call sha) (hdeny : c.record.decision = .deny) :
    ∃ ms, c.record.retryAfterMs = some ms ∧ c.now + ms ≤ maxNow ∧
      (∀ t, c.now ≤ t → t ≤ c.now + ms → Repeats sha c.record t (repeatRequest c.record t)) ∧
      (∀ t request, Repeats sha c.record t request → c.now ≤ t → t < c.now + ms →
        ∃ r, admitRequest sha request = .ok r ∧ r.decision = .deny ∧
          ∃ ms', r.retryAfterMs = some ms' ∧ t + ms' = c.now + ms) ∧
      ∀ request, Repeats sha c.record (c.now + ms) request →
        ∃ r, admitRequest sha request = .ok r ∧ r.decision = .admitted := by
  have hvalid := c.valid
  obtain ⟨q, policy, prev, hchecked, hdecision⟩ := admitRequest_eq_ok c.decided
  have hdecided := hchecked.decided hdecision
  obtain ⟨hcost, -, -, hsince, ms, hms, hclock, hdue⟩ := hchecked.denied hdecision hdeny
  rw [← hchecked.clock] at hclock hdue hsince
  rw [← hcost, ← hdecided.samePolicy] at hdue
  rw [hdue] at hclock
  refine ⟨ms, hms, by rwa [hdue], fun t _ ht => repeats_repeatRequest hvalid (by omega),
    fun t request hrepeats ht hbefore => ?_, fun request hrepeats => ?_⟩
  · obtain ⟨q', hq', rfl, hadmits⟩ := hrepeats.admitRequest hvalid (le_trans hsince ht)
    obtain ⟨r, hr, -, hwait⟩ := decision_due (q := q') hvalid hq' (le_trans hsince ht) hclock
    rw [hadmits]
    rw [hdue] at hbefore ⊢
    exact ⟨r, hr, hwait hbefore⟩
  · have hlater : c.record.updatedAt ≤ c.now + ms := le_trans hsince (Nat.le_add_right _ _)
    obtain ⟨q', hq', hnow', hadmits⟩ := hrepeats.admitRequest hvalid hlater
    rw [← hnow'] at hlater
    obtain ⟨r, hr, hadmitted, -⟩ := decision_due (q := q') hvalid hq' hlater hclock
    rw [hadmits]
    exact ⟨r, hr, hadmitted (by rw [hnow', hdue])⟩

/-- The token that was refused at time zero is admitted at time one. -/
theorem retry_exact_laterCall : ∃ ms, laterCall.record.retryAfterMs = some ms ∧
    ∀ request, Repeats (.lengths 64) laterCall.record (laterCall.now + ms) request →
      ∃ r, admitRequest (.lengths 64) request = .ok r ∧ r.decision = .admitted := by
  obtain ⟨ms, hms, -, -, -, hadmitted⟩ := retry_exact laterCall rfl
  exact ⟨ms, hms, hadmitted⟩

end Limit
end OpenChess
