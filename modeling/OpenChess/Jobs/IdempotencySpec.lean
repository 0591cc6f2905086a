import OpenChess.Jobs.Idempotency
import OpenChess.Jobs.LifeCycle

/-!
# Checks of the keyed queue

A request that passed its checks passes them again when it is read back from its
canonical text, so the staged transition is the one the queue makes for the caller's own
request. A validated ledger stays one when the receipt of a transition from the live
state is appended.
-/

namespace OpenChess
namespace KeyedQueue

open Jobs
open Payload (Plain)

variable {sha : Hex.Hash 64} {limit : ℕ} {o request state ledger : PyObj} {q : Queue.Request}
  {s s' : State} {requests : List PyObj}

/-! ### Requests -/

def Checked (limit : ℕ) : Queue.Request → Prop
  | .enqueue key priority payload => dedupeKeyGrammar key = true ∧ priority ≤ Queue.maxPriority ∧
      Plain Queue.bounds.payload Queue.maxDepth payload ∧ Json.copy payload = payload
  | .claim worker now leaseMs => workerGrammar worker = true ∧ now ≤ Queue.maxNow ∧ 1 ≤ leaseMs ∧
      leaseMs ≤ Queue.maxLeaseMs ∧ now + leaseMs ≤ limit
  | .ack worker now jobId => workerGrammar worker = true ∧ now ≤ Queue.maxNow ∧
      jobIdGrammar jobId = true
  | .nack worker now jobId => workerGrammar worker = true ∧ now ≤ Queue.maxNow ∧
      jobIdGrammar jobId = true

theorem le_of_nat? {lo hi n : ℕ} (h : o.nat? lo hi = some n) : lo ≤ n ∧ n ≤ hi := by
  obtain ⟨m, -, hlo, hhi, rfl⟩ := PyObj.nat?_eq_some.mp h
  omega

theorem nat?_of_le {lo hi : ℤ} {n : ℕ} (hlo : lo ≤ n) (hhi : (n : ℤ) ≤ hi) :
    (PyObj.atom (.int n)).nat? lo hi = some n :=
  PyObj.nat?_eq_some.mpr ⟨n, rfl, hlo, hhi, Int.toNat_natCast n⟩

theorem of_checkSettle {jobId worker now : PyObj} {out : Text × ℕ × Text}
    (h : Queue.checkSettle jobId worker now = some out) :
    workerGrammar out.1 = true ∧ out.2.1 ≤ Queue.maxNow ∧ jobIdGrammar out.2.2 = true := by
  unfold Queue.checkSettle at h
  split at h
  · rename_i w n hw hn
    obtain ⟨id, hid, rfl⟩ := Option.map_eq_some_iff.mp h
    exact ⟨(PyObj.text?_eq_some.mp hw).2, (le_of_nat? hn).2, (PyObj.text?_eq_some.mp hid).2⟩
  · cases h

theorem checked_of_checkRequest (h : Queue.checkRequest limit request = some q) :
    Checked limit q := by
  unfold Queue.checkRequest at h
  split at h
  · split at h
    · cases h
    · split at h
      · split at h
        · rename_i key priority met hkey hpriority hmet
          obtain rfl := Option.some.inj h
          obtain ⟨hpasses, -⟩ := Payload.payloadsOk_eq_some.mp hmet
          exact ⟨(PyObj.text?_eq_some.mp hkey).2, (le_of_nat? hpriority).2,
            Plain.copy hpasses.plain, Json.copy_copy _⟩
        · cases h
      · split at h
        · rename_i worker now leaseMs hworker hnow hlease
          split_ifs at h with hlimit
          obtain rfl := Option.some.inj h
          obtain ⟨hone, hmax⟩ := le_of_nat? hlease
          exact ⟨(PyObj.text?_eq_some.mp hworker).2, (le_of_nat? hnow).2, hone, hmax, by omega⟩
        · cases h
      · obtain ⟨out, hout, rfl⟩ := Option.map_eq_some_iff.mp h
        exact of_checkSettle hout
      · obtain ⟨out, hout, rfl⟩ := Option.map_eq_some_iff.mp h
        exact of_checkSettle hout
      · cases h
  · cases h

theorem opOf?_text (op : Queue.Op) : Queue.opOf? op.text = some op := by
  cases op <;> decide

theorem fields?_queueRequest (q : Queue.Request) :
    (queueRequest q).fields? q.op.fields = some (buildItems 0 (valuesOf q)).1 := by
  have hnodup : ∀ op : Queue.Op, op.fields.Nodup := by
    intro op
    cases op <;> decide
  exact fields?_build 0 (hnodup q.op) (by cases q <;> rfl)

theorem member?_queueRequest (q : Queue.Request) :
    (queueRequest q).member? "op".toList = some (.atom (.str q.op.text)) := by
  have hname : q.op.fields[0]? = some "op".toList := by cases q <;> rfl
  rw [PyObj.member?_of_fields? (fields?_queueRequest q) hname]
  cases q <;> rfl

theorem checkSettle_atoms {worker jobId : Text} {now : ℕ} (hworker : workerGrammar worker = true)
    (hnow : now ≤ Queue.maxNow) (hid : jobIdGrammar jobId = true) :
    Queue.checkSettle (.atom (.str jobId)) (.atom (.str worker)) (.atom (.int now)) =
      some (worker, now, jobId) := by
  have hw : (PyObj.atom (.str worker)).text? workerGrammar = some worker :=
    PyObj.text?_eq_some.mpr ⟨rfl, hworker⟩
  have hj : (PyObj.atom (.str jobId)).text? jobIdGrammar = some jobId :=
    PyObj.text?_eq_some.mpr ⟨rfl, hid⟩
  have hn : (PyObj.atom (.int now)).nat? 0 Queue.maxNow = some now :=
    nat?_of_le (by omega) (by omega)
  simp only [Queue.checkSettle, hw, hn, hj, Option.map_some]

theorem checkRequest_queueRequest (h : Checked limit q) :
    Queue.checkRequest limit (queueRequest q) = some q := by
  have hfields := fields?_queueRequest q
  have hmember := member?_queueRequest q
  have htext : ∀ {grammar : Text → Bool} {t : Text}, grammar t = true →
      (PyObj.atom (.str t)).text? grammar = some t :=
    fun h => PyObj.text?_eq_some.mpr ⟨rfl, h⟩
  unfold Queue.checkRequest
  cases q with
  | enqueue key priority payload =>
    obtain ⟨hkey, hpriority, hplain, hcopy⟩ := h
    have hpasses : Payload.Passes Queue.bounds.payload 1 [] (build 0 payload).1 :=
      passes_build hplain fun p hp => by cases hp
    have hwalk := Payload.payloadsOk_eq_some.mpr ⟨hpasses, rfl⟩
    have hbuilt := (built payload 0).content
    simp only [Queue.Request.op, valuesOf, buildItems, build] at hfields hmember
    have hp : (PyObj.atom (.int priority)).nat? 0 Queue.maxPriority = some priority :=
      nat?_of_le (by omega) (by omega)
    simp only [hmember, opOf?_text, hfields, htext hkey, hp, hwalk, hbuilt, hcopy]
  | claim worker now leaseMs =>
    obtain ⟨hworker, hnow, hone, hmax, hlimit⟩ := h
    simp only [Queue.Request.op, valuesOf, buildItems, build] at hfields hmember
    have hn : (PyObj.atom (.int now)).nat? 0 Queue.maxNow = some now :=
      nat?_of_le (by omega) (by omega)
    have hl : (PyObj.atom (.int leaseMs)).nat? 1 Queue.maxLeaseMs = some leaseMs :=
      nat?_of_le (by omega) (by omega)
    simp only [hmember, opOf?_text, hfields, htext hworker, hn, hl, if_neg (not_lt.mpr hlimit)]
  | ack worker now jobId =>
    obtain ⟨hworker, hnow, hid⟩ := h
    simp only [Queue.Request.op, valuesOf, buildItems, build] at hfields hmember
    simp only [hmember, opOf?_text, hfields, checkSettle_atoms hworker hnow hid, Option.map_some]
  | nack worker now jobId =>
    obtain ⟨hworker, hnow, hid⟩ := h
    simp only [Queue.Request.op, valuesOf, buildItems, build] at hfields hmember
    simp only [hmember, opOf?_text, hfields, checkSettle_atoms hworker hnow hid, Option.map_some]

/-! ### Transitions -/

/-- The queue looks at a state and a request only through their checks. -/
theorem apply_eq (hq : Queue.checkRequest Queue.clockLimit request = some q)
    (hs : Queue.checkState state = some s) :
    Queue.apply sha state request = Queue.apply sha s.copy.object (queueRequest q) := by
  have hvalid := valid_of_checkState hs
  have hread := checkRequest_queueRequest (checked_of_checkRequest hq)
  simp only [Queue.apply, hq, hs, hread, hvalid.copy.checkState, (canonical_copy s).copy]

/-- An accepted transition leaves a valid state. -/
theorem valid_of_apply (hs : Queue.checkState state = some s) {r : Queue.Receipt}
    (h : Queue.apply sha state request = .ok (s', r)) : s'.Valid := by
  have hvalid := (valid_of_checkState hs).copy
  cases hq : Queue.checkRequest Queue.clockLimit request with
  | none => simp [Queue.apply, hq] at h
  | some q =>
    have hcopied : Queue.apply sha s.copy.object request = .ok (s', r) := by
      rw [apply_eq hq hvalid.checkState, (canonical_copy s).copy, ← apply_eq hq hs]
      exact h
    have hperform : Call.perform sha s.copy.object (.queue request) = some (s', .queue q r) := by
      simp only [Call.perform, hq, hcopied]
    exact (transition_of_perform hvalid (canonical_copy s) hperform).valid hvalid

/-- The queue on its own: the state after these requests, or none where one is rejected. -/
def plain (sha : Hex.Hash 64) : State → List PyObj → Option State
  | s, [] => some s
  | s, request :: requests =>
    match Queue.apply sha s.object request with
    | .ok (s', _) => plain sha s' requests
    | .error _ => none

theorem plain_concat (h : plain sha s requests = some s') {r : Queue.Receipt} {s'' : State}
    (happly : Queue.apply sha s'.object request = .ok (s'', r)) :
    plain sha s (requests ++ [request]) = some s'' := by
  induction requests generalizing s with
  | nil =>
    obtain rfl := Option.some.inj h
    simp only [List.nil_append, plain, happly]
  | cons first requests ih =>
    rw [plain] at h
    rw [List.cons_append, plain]
    cases hfirst : Queue.apply sha s.object first with
    | error e => simp [hfirst] at h
    | ok p =>
      obtain ⟨t, rt⟩ := p
      simp only [hfirst] at h ⊢
      exact ih h

/-! ### Keyed requests -/

/-- The request for the queue in a keyed request. -/
def plainRequest (request : PyObj) : PyObj :=
  match request.fields? requestFields with
  | some [_, .atom (.str op), .dict id payload] => withOp op id payload
  | _ => request

/-- What the checks of a keyed request establish. -/
theorem of_validateRequest {p : Request} (h : validateRequest request = some p) :
    request.member? "idempotency_key".toList = some (.atom (.str p.key)) ∧
      keyGrammar p.key = true ∧
      Queue.checkRequest Queue.clockLimit (plainRequest request) = some p.operation := by
  have hname : requestFields[0]? = some "idempotency_key".toList := rfl
  unfold validateRequest at h
  split at h
  · rename_i key op id payload hfields
    split at h
    · cases h
    · rename_i t ht
      split_ifs at h
      obtain ⟨q, hq, rfl⟩ := Option.map_eq_some_iff.mp h
      obtain ⟨rfl, hgrammar⟩ := PyObj.text?_eq_some.mp ht
      refine ⟨PyObj.member?_of_fields? hfields hname, hgrammar, ?_⟩
      simp only [plainRequest, hfields]
      exact hq
  · cases h

/-! ### Ledgers -/

variable {rs : List Receipt} {r : Receipt} {receipts : List PyObj} {receipt : PyObj}
  {seen : List Text} {prevState : Option Text} {index id : ℕ}

def Receipt.object (id : ℕ) (r : Receipt) : PyObj :=
  .object id receiptFields [.atom (.str r.receiptId), .atom (.str r.idempotencyKey),
    .atom (.str r.requestFingerprint), .atom (.str r.priorStateId), .atom (.str r.stateId),
    .atom (.int r.sequence)]

/-- A receipt with its form, derived from its other fields. -/
structure Receipt.Formed (sha : Hex.Hash 64) (r : Receipt) : Prop where
  key : keyGrammar r.idempotencyKey = true
  token : tokenGrammar r.requestFingerprint = true
  prior : stateIdGrammar r.priorStateId = true
  stateId : stateIdGrammar r.stateId = true
  receiptId : r.receiptId = deriveReceiptId sha r.idempotencyKey r.requestFingerprint
    r.priorStateId r.stateId r.sequence

theorem validateReceipt_object (h : r.Formed sha) (hkey : r.idempotencyKey ∉ seen)
    (hprior : ∀ t ∈ prevState, t = r.priorStateId) :
    validateReceipt sha seen prevState r.sequence (r.object id) = some r := by
  have hnodup : receiptFields.Nodup := by decide
  have htext : ∀ {grammar : Text → Bool} {t : Text}, grammar t = true →
      (PyObj.atom (.str t)).text? grammar = some t :=
    fun h => PyObj.text?_eq_some.mpr ⟨rfl, h⟩
  have hreceipt : receiptGrammar r.receiptId = true := by
    rw [h.receiptId]
    exact sha.tagged _ _
  have hsequence : (PyObj.atom (.int r.sequence)).nat? r.sequence r.sequence = some r.sequence :=
    nat?_of_le (le_refl _) (le_refl _)
  have hchained : prevState.any (· != r.priorStateId) = false := by
    cases prevState with
    | none => rfl
    | some t => simp [hprior t rfl]
  unfold validateReceipt Receipt.object
  rw [PyObj.fields?_object id hnodup rfl]
  simp only [htext hreceipt, htext h.key, htext h.token, htext h.prior, htext h.stateId, hsequence,
    if_neg hkey, hchained, ← h.receiptId, ne_eq, not_true_eq_false, Bool.false_eq_true, if_false]

/-- The first receipt is validated on its own, and the others after it. -/
theorem validateReceipts_cons {first : PyObj} :
    validateReceipts sha seen prevState index (first :: receipts) = some rs ↔
      ∃ r₁ rs', validateReceipt sha seen prevState index first = some r₁ ∧
        validateReceipts sha (r₁.idempotencyKey :: seen) (some r₁.stateId) (index + 1) receipts =
          some rs' ∧ r₁ :: rs' = rs := by
  rw [validateReceipts]
  cases validateReceipt sha seen prevState index first with
  | none =>
    constructor
    · intro h
      cases h
    · intro h
      obtain ⟨r₁, rs', hfirst, -⟩ := h
      cases hfirst
  | some r₁ =>
    constructor
    · intro h
      obtain ⟨rs', hrs', hcons⟩ := Option.map_eq_some_iff.mp h
      exact ⟨r₁, rs', rfl, hrs', hcons⟩
    · intro h
      obtain ⟨r₂, rs', hfirst, hrs', hcons⟩ := h
      obtain rfl := Option.some.inj hfirst
      exact Option.map_eq_some_iff.mpr ⟨rs', hrs', hcons⟩

theorem validateReceipts_concat
    (h : validateReceipts sha seen prevState index receipts = some rs)
    (hr : validateReceipt sha ((rs.map Receipt.idempotencyKey).reverse ++ seen)
      ((rs.getLast?.map Receipt.stateId).or prevState) (index + receipts.length) receipt = some r) :
    validateReceipts sha seen prevState index (receipts ++ [receipt]) = some (rs ++ [r]) := by
  induction receipts generalizing seen prevState index rs with
  | nil =>
    obtain rfl := Option.some.inj h
    simp only [List.map_nil, List.reverse_nil, List.nil_append, List.getLast?_nil, Option.map_none,
      Option.none_or, List.length_nil, Nat.add_zero] at hr
    simp only [List.nil_append, validateReceipts, hr, Option.map_some]
  | cons first receipts ih =>
    obtain ⟨r₁, rs', hfirst, hrs', rfl⟩ := validateReceipts_cons.mp h
    have hlast : ((r₁ :: rs').getLast?.map Receipt.stateId).or prevState =
        (rs'.getLast?.map Receipt.stateId).or (some r₁.stateId) := by
      cases rs' with
      | nil => rfl
      | cons r₂ rs' => simp [List.getLast?_cons]
    have hindex : index + (first :: receipts).length = index + 1 + receipts.length := by
      rw [List.length_cons]
      omega
    rw [hlast, hindex, List.map_cons, List.reverse_cons, List.append_assoc] at hr
    exact validateReceipts_cons.mpr ⟨r₁, rs' ++ [r], hfirst, ih hrs' hr, rfl⟩

theorem length_validateReceipts
    (h : validateReceipts sha seen prevState index receipts = some rs) :
    rs.length = receipts.length := by
  induction receipts generalizing seen prevState index rs with
  | nil =>
    obtain rfl := Option.some.inj h
    rfl
  | cons first receipts ih =>
    obtain ⟨r₁, rs', hfirst, hrs', rfl⟩ := validateReceipts_cons.mp h
    rw [List.length_cons, ih hrs', List.length_cons]

theorem fresh_of_validateReceipt (h : validateReceipt sha seen prevState index receipt = some r) :
    r.idempotencyKey ∉ seen := by
  unfold validateReceipt at h
  split at h
  · split at h
    · split_ifs at h with hseen
      obtain rfl := Option.some.inj h
      exact hseen
    · cases h
  · cases h

/-- The keys of validated receipts are distinct. -/
theorem keys_of_validateReceipts
    (h : validateReceipts sha seen prevState index receipts = some rs) :
    (rs.map Receipt.idempotencyKey).Nodup ∧ ∀ r ∈ rs, r.idempotencyKey ∉ seen := by
  induction receipts generalizing seen prevState index rs with
  | nil =>
    obtain rfl := Option.some.inj h
    exact ⟨List.nodup_nil, fun r hr => by cases hr⟩
  | cons first receipts ih =>
    obtain ⟨r₁, rs', hfirst, hrs', rfl⟩ := validateReceipts_cons.mp h
    obtain ⟨hnodup, hfresh⟩ := ih hrs'
    refine ⟨?_, List.forall_mem_cons.mpr ⟨fresh_of_validateReceipt hfirst, fun r hr hmem =>
      hfresh r hr (List.mem_cons_of_mem _ hmem)⟩⟩
    rw [List.map_cons, List.nodup_cons]
    refine ⟨fun hmem => ?_, hnodup⟩
    obtain ⟨r, hr, hkey⟩ := List.mem_map.mp hmem
    exact hfresh r hr (hkey ▸ List.mem_cons_self)

theorem validateLedger_eq_some {live : Text} : validateLedger sha live ledger = some rs ↔
    ∃ id receipts, ledger = .list id receipts ∧
      validateReceipts sha [] none 0 receipts = some rs ∧
      ∀ r ∈ rs.getLast?, r.stateId = live := by
  cases ledger with
  | list id receipts =>
    simp only [validateLedger, PyObj.list.injEq]
    cases hrs : validateReceipts sha [] none 0 receipts with
    | none => simp [hrs]
    | some rs' =>
      simp only
      constructor
      · intro h
        split_ifs at h with hlast
        obtain rfl := Option.some.inj h
        refine ⟨id, receipts, ⟨rfl, rfl⟩, hrs, fun r hr => ?_⟩
        rw [Option.mem_def] at hr
        simpa [hr] using hlast
      · intro h
        obtain ⟨_, _, ⟨rfl, rfl⟩, hrs', hlast⟩ := h
        obtain rfl := Option.some.inj (hrs.symm.trans hrs')
        rw [if_neg]
        cases hget : rs'.getLast? with
        | none => simp
        | some r => simp [hlast r hget]
  | _ => simp [validateLedger]

/-- A validated ledger with the receipt of a transition from the live state is validated
for the new state. -/
theorem validateLedger_concat {live : Text}
    (h : validateLedger sha live (.list id receipts) = some rs) (hr : r.Formed sha)
    (hkey : r.idempotencyKey ∉ rs.map Receipt.idempotencyKey) (hprior : r.priorStateId = live)
    (hsequence : r.sequence = rs.length) (n : ℕ) :
    validateLedger sha r.stateId (.list id (receipts ++ [r.object n])) = some (rs ++ [r]) := by
  obtain ⟨_, _, hlist, hrs, hlast⟩ := validateLedger_eq_some.mp h
  obtain ⟨rfl, rfl⟩ := PyObj.list.inj hlist
  refine validateLedger_eq_some.mpr ⟨id, _, rfl, validateReceipts_concat hrs ?_, ?_⟩
  · rw [Nat.zero_add, ← length_validateReceipts hrs, ← hsequence]
    refine validateReceipt_object hr (by simpa using hkey) fun t ht => ?_
    rw [Option.or_none, Option.mem_def, Option.map_eq_some_iff] at ht
    obtain ⟨last, hget, rfl⟩ := ht
    rw [hlast last hget, hprior]
  · intro r' hr'
    rw [List.getLast?_concat, Option.mem_def] at hr'
    rw [Option.some.inj hr']

end KeyedQueue
end OpenChess
