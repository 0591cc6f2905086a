import OpenChess.Jobs.LiveQueue

/-!
# The keyed queue refines the queue

A run of keyed calls from a valid state and an empty ledger, each call with a
fingerprinter of its own that may rewrite every container. The state of the run is the
one the queue reaches on its own with the applied requests, and the ledger holds their
receipts. Between two calls the caller leaves the containers of the state and of the
ledger as they are.
-/

namespace OpenChess
namespace KeyedQueue

open Jobs
open Live (Handle Objects Oracle)
open ObjectHeap.Heap (capture restore)
open Payload (trail)

variable {sha : Hex.Hash 64} {state ledger request : Handle} {h h' h₀ g : Objects} {s s₀ s' : State}
  {o : Oracle Queue.Request} {p : Plan} {answer : Option Value}

/-! ### Runs -/

/-- An applied request, with its receipt. -/
structure Applied where
  request : PyObj
  receipt : Receipt

/-- What a call with this answer applies. -/
def accepted (request : PyObj) : Except Failure Result → List Applied
  | .ok ⟨.applied, r⟩ => [⟨request, r⟩]
  | _ => []

/-- What a run has applied, and the heap it has reached. -/
inductive Run (sha : Hex.Hash 64) (state ledger : Handle) (h₀ : Objects) :
    List Applied → Objects → Prop
  | start : Run sha state ledger h₀ [] h₀
  | call {done : List Applied} {h : Objects} (hrun : Run sha state ledger h₀ done h)
      (o : Oracle Queue.Request) (request : Handle) :
      Run sha state ledger h₀
        (done ++ accepted (read h request) (apply sha o state ledger request h).1)
        (apply sha o state ledger request h).2
  | caller {done : List Applied} {h h' : Objects} (hrun : Run sha state ledger h₀ done h)
      (grows : h.next ≤ h'.next)
      (kept : ∀ q ∈ trail (read h state) ++ trail (read h ledger), h'.cells q = h.cells q) :
      Run sha state ledger h₀ done h'

/-! ### Settling -/

theorem fingerprint_eq_some {q : Queue.Request} {token : Text} :
    fingerprint sha q answer = some token ↔
      answer = some (.str token) ∧ token = requestFingerprint sha q := by
  have hgrammar : tokenGrammar (requestFingerprint sha q) = true := sha.tagged _ _
  unfold fingerprint
  split
  · rename_i out
    split_ifs with hform hne
    · simp only [false_iff, Option.some.injEq, Value.str.injEq]
      intro h
      obtain ⟨rfl, rfl⟩ := h
      rw [hgrammar] at hform
      cases hform
    · simp only [false_iff, Option.some.injEq, Value.str.injEq]
      intro h
      obtain ⟨rfl, htoken⟩ := h
      exact hne htoken
    · simp only [Option.some.injEq, Value.str.injEq]
      constructor
      · intro h
        subst h
        exact ⟨rfl, not_not.mp hne⟩
      · exact fun h => h.1
  · rename_i hnone
    simp only [reduceCtorEq, false_iff, not_and]
    intro h
    exact absurd h (hnone token)

theorem stored_eq_some {r : Receipt} (hr : p.stored = some r) :
    r ∈ p.ledger ∧ r.idempotencyKey = p.request.key := by
  have hfound := List.find?_some hr
  exact ⟨List.mem_reverse.mp (List.mem_of_find?_eq_some hr), beq_iff_eq.mp hfound⟩

theorem stored_eq_none : p.stored = none ↔
    p.request.key ∉ p.ledger.map Receipt.idempotencyKey := by
  simp only [Plan.stored, List.find?_eq_none, List.mem_reverse, beq_iff_eq, List.mem_map, not_exists,
    not_and]

/-- How a plan is settled. -/
inductive Settles (sha : Hex.Hash 64) (p : Plan) (answer : Option Value) :
    Except Failure (Receipt × Option State) → Prop
  | diverged (h : answer ≠ some (.str (requestFingerprint sha p.request.operation))) :
      Settles sha p answer (.error (.idempotency .divergentFingerprint))
  | conflicting (h : answer = some (.str (requestFingerprint sha p.request.operation)))
      (r : Receipt) (hr : r ∈ p.ledger) (hkey : r.idempotencyKey = p.request.key)
      (htoken : r.requestFingerprint ≠ requestFingerprint sha p.request.operation) :
      Settles sha p answer (.error (.idempotency .keyConflict))
  | replayed (h : answer = some (.str (requestFingerprint sha p.request.operation)))
      (r : Receipt) (hr : r ∈ p.ledger) (hkey : r.idempotencyKey = p.request.key)
      (htoken : r.requestFingerprint = requestFingerprint sha p.request.operation) :
      Settles sha p answer (.ok (r, none))
  | rejected (e : Queue.FailureClass) (hkey : p.request.key ∉ p.ledger.map Receipt.idempotencyKey)
      (happly : Queue.apply sha p.state.copy.copy.object (queueRequest p.request.operation) =
        .error e) : Settles sha p answer (.error (.queue e))
  | applied (staged : State) (r : Queue.Receipt)
      (hkey : p.request.key ∉ p.ledger.map Receipt.idempotencyKey)
      (happly : Queue.apply sha p.state.copy.copy.object (queueRequest p.request.operation) =
        .ok (staged, r)) :
      Settles sha p answer
        (.ok (p.receipt sha (requestFingerprint sha p.request.operation) staged, some staged))

theorem settles (sha : Hex.Hash 64) (p : Plan) (answer : Option Value) :
    Settles sha p answer (p.settle sha answer) := by
  unfold Plan.settle
  cases hfingerprint : fingerprint sha p.request.operation answer with
  | none =>
    refine .diverged fun hanswer => ?_
    rw [fingerprint_eq_some.mpr ⟨hanswer, rfl⟩] at hfingerprint
    cases hfingerprint
  | some token =>
    obtain ⟨hanswer, rfl⟩ := fingerprint_eq_some.mp hfingerprint
    cases hstored : p.stored with
    | some r =>
      obtain ⟨hr, hkey⟩ := stored_eq_some hstored
      simp only
      split_ifs with htoken
      · exact .conflicting hanswer r hr hkey htoken
      · exact .replayed hanswer r hr hkey (not_not.mp htoken)
    | none =>
      have hkey := stored_eq_none.mp hstored
      simp only
      cases happly : Queue.apply sha p.state.copy.copy.object
          (queueRequest p.request.operation) with
      | error e => exact .rejected e hkey happly
      | ok out => exact .applied out.1 out.2 hkey happly

/-! ### One call -/

theorem plan_eq_ok {so lo ro : PyObj} (hplan : plan sha so lo ro = .ok p) :
    validateRequest ro = some p.request ∧ Queue.checkState so = some p.state ∧
      validateLedger sha (stateIdFor sha p.state) lo = some p.ledger := by
  unfold plan at hplan
  cases hq : validateRequest ro with
  | none => simp [hq] at hplan
  | some q =>
    cases hs : Queue.checkState so with
    | none => simp [hq, hs] at hplan
    | some s =>
      cases hrs : validateLedger sha (stateIdFor sha s) lo with
      | none => simp [hq, hs, hrs] at hplan
      | some rs =>
        simp only [hq, hs, hrs] at hplan
        split_ifs at hplan
        obtain rfl := Except.ok.inj hplan
        exact ⟨rfl, rfl, hrs⟩

def restored (h : Objects) (state ledger request : Handle) (g : Objects) : Objects :=
  restore (capture h (containers h state ledger request)) g

/-- What a call does: it is refused before the fingerprinter is called, or it settles its
plan on the restored heap. -/
inductive Calls (sha : Hex.Hash 64) (o : Oracle Queue.Request) (state ledger request : Handle)
    (h : Objects) : Except Failure Result × Objects → Prop
  | refused (e : FailureClass)
      (hplan : plan sha (read h state) (read h ledger) (read h request) = .error e) :
      Calls sha o state ledger request h (.error (.idempotency e), h)
  | failed (p : Plan) (g : Objects) (e : Failure) (grows : h.next ≤ g.next)
      (hplan : plan sha (read h state) (read h ledger) (read h request) = .ok p)
      (hsettles : Settles sha p (o.call 0 p.request.operation h).1 (.error e)) :
      Calls sha o state ledger request h (.error e, restored h state ledger request g)
  | replayed (p : Plan) (g : Objects) (r : Receipt) (grows : h.next ≤ g.next)
      (hplan : plan sha (read h state) (read h ledger) (read h request) = .ok p)
      (hsettles : Settles sha p (o.call 0 p.request.operation h).1 (.ok (r, none))) :
      Calls sha o state ledger request h (.ok ⟨.replayed, r⟩, restored h state ledger request g)
  | applied (p : Plan) (g : Objects) (r : Receipt) (staged : State) (grows : h.next ≤ g.next)
      (hplan : plan sha (read h state) (read h ledger) (read h request) = .ok p)
      (hsettles : Settles sha p (o.call 0 p.request.operation h).1 (.ok (r, some staged))) :
      Calls sha o state ledger request h (.ok ⟨.applied, r⟩,
        pushReceipt ledger r (writeState state staged (restored h state ledger request g)))

theorem calls (sha : Hex.Hash 64) (o : Oracle Queue.Request) (state ledger request : Handle)
    (h : Objects) : Calls sha o state ledger request h (apply sha o state ledger request h) := by
  unfold apply
  cases hplan : plan sha (read h state) (read h ledger) (read h request) with
  | error e => exact .refused e hplan
  | ok p =>
    have hsettles := settles sha p (o.call 0 p.request.operation h).1
    have hgrows := o.grows 0 p.request.operation h
    simp only
    cases hsettle : p.settle sha (o.call 0 p.request.operation h).1 with
    | error e =>
      rw [hsettle] at hsettles
      exact .failed p _ e hgrows hplan hsettles
    | ok out =>
      rw [hsettle] at hsettles
      obtain ⟨r, staged⟩ := out
      cases staged with
      | none => exact .replayed p _ r hgrows hplan hsettles
      | some staged => exact .applied p _ r staged hgrows hplan hsettles

theorem read_restored (h : Objects) (state ledger request : Handle) (g : Objects) :
    read (restored h state ledger request g) state = read h state ∧
      read (restored h state ledger request g) ledger = read h ledger := by
  constructor
  · exact read_restore g fun q hq => List.mem_append_left _ (List.mem_append_left _ hq)
  · exact read_restore g fun q hq => List.mem_append_left _ (List.mem_append_right _ hq)

theorem next_restored (h : Objects) (state ledger request : Handle) (g : Objects) :
    (restored h state ledger request g).next = g.next := ObjectHeap.Heap.next_restore _ _

/-! ### Soundness -/

variable {done : List Applied}

/-- What holds of every heap a run reaches. -/
structure Sound (sha : Hex.Hash 64) (s₀ : State) (state ledger : Handle) (done : List Applied)
    (h : Objects) (s : State) : Prop where
  checked : Queue.checkState (read h state) = some s
  validated : validateLedger sha (stateIdFor sha s) (read h ledger) = some (done.map Applied.receipt)
  plain : plain sha s₀ (done.map fun a => plainRequest a.request) = some s
  keys : ∀ a ∈ done, a.request.member? "idempotency_key".toList =
    some (.atom (.str a.receipt.idempotencyKey))
  below : ∀ q ∈ trail (read h state) ++ trail (read h ledger), q < h.next

/-- A heap with the same state and ledger is sound. -/
theorem Sound.kept (hsound : Sound sha s₀ state ledger done h s) (hgrows : h.next ≤ h'.next)
    (hstate : read h' state = read h state) (hledger : read h' ledger = read h ledger) :
    Sound sha s₀ state ledger done h' s := by
  refine ⟨by rw [hstate]; exact hsound.checked, by rw [hledger]; exact hsound.validated, hsound.plain,
    hsound.keys, fun q hq => ?_⟩
  rw [hstate, hledger] at hq
  exact (hsound.below q hq).trans_le hgrows

/-- The plan of a call is about the state and the ledger of the run. -/
theorem Sound.of_plan (hsound : Sound sha s₀ state ledger done h s)
    (hplan : plan sha (read h state) (read h ledger) (read h request) = .ok p) :
    p.state = s ∧ p.ledger = done.map Applied.receipt := by
  obtain ⟨-, hs, hrs⟩ := plan_eq_ok hplan
  obtain rfl := Option.some.inj (hsound.checked.symm.trans hs)
  exact ⟨rfl, Option.some.inj (hrs.symm.trans hsound.validated)⟩

/-- The containers of a checked state and of a validated ledger: the dictionary of the
state, the list of the ledger, and the dictionaries of the receipts. -/
structure Placed (h : Objects) (state ledger : Handle) (a b : ℕ) (items : List PyObj) : Prop where
  statePtr : state = .ptr a
  ledgerPtr : ledger = .ptr b
  list : read h ledger = .list b items
  below : a < h.next ∧ b < h.next
  distinct : a ≠ b
  items : ∀ x ∈ items, ∀ q ∈ trail x, q < h.next ∧ q ≠ a ∧ q ≠ b

theorem Sound.placed (hsound : Sound sha s₀ state ledger done h s) :
    ∃ a b items, Placed h state ledger a b items := by
  obtain ⟨_, _, hfields, -, -, -⟩ := checkState_eq_some.mp hsound.checked
  obtain ⟨a, entries, hread, hkeys, -⟩ := keys_of_fields? hfields
  obtain ⟨rfl, members, hcell, hmembers⟩ := cell_of_dict (d := liveDepth) hread
  obtain ⟨b, items, hlist, hrs, -⟩ := validateLedger_eq_some.mp hsound.validated
  obtain ⟨rfl, l, hcell', rfl⟩ := cell_of_list (d := Queue.maxDepth + 2) hlist
  have ha : a < h.next := hsound.below a (List.mem_append_left _ (by
    rw [hread]
    exact mem_trail_dict.mpr (.inl rfl)))
  have hb : b < h.next := hsound.below b (List.mem_append_right _ (by
    rw [hlist]
    exact mem_trail_list.mpr (.inl rfl)))
  have hne : a ≠ b := by
    intro heq
    rw [heq, hcell'] at hcell
    cases hcell
  refine ⟨a, b, _, rfl, rfl, hlist, ⟨ha, hb⟩, hne, fun x hx q hq => ?_⟩
  obtain ⟨id, entries', hx', hkeys', hid⟩ := records_of_validateReceipts hrs x hx
  obtain rfl := hid q hq
  obtain ⟨c, hc, hunfold⟩ := List.mem_map.mp hx
  obtain ⟨rfl, members', hcell'', hmembers'⟩ :=
    cell_of_dict (d := Queue.maxDepth + 2) (hunfold.trans hx')
  refine ⟨hsound.below q (List.mem_append_right _ ?_), ?_, ?_⟩
  · rw [hlist]
    exact mem_trail_list.mpr (.inr ⟨x, hx, hq⟩)
  · intro heq
    rw [heq, hcell] at hcell''
    obtain rfl := ObjectHeap.Cell.dict.inj hcell''
    have hlength := (hkeys.symm.trans (hmembers ▸ hmembers' ▸ hkeys')).length_eq
    simp [stateFields, receiptFields] at hlength
  · intro heq
    rw [heq, hcell'] at hcell''
    cases hcell''

/-- The state and the ledger after a commit. -/
theorem committed {a b : ℕ} {items : List PyObj} (hplaced : Placed h state ledger a b items)
    (hs : s'.Valid) (r : Receipt) :
    Queue.checkState (read (pushReceipt ledger r (writeState state s' h)) state) = some s' ∧
      (∃ n, read (pushReceipt ledger r (writeState state s' h)) ledger =
        .list b (items ++ [r.object n])) ∧
      ∀ q ∈ trail (read (pushReceipt ledger r (writeState state s' h)) state) ++
        trail (read (pushReceipt ledger r (writeState state s' h)) ledger),
          q < (pushReceipt ledger r (writeState state s' h)).next := by
  obtain ⟨rfl, rfl, hlist, ⟨ha, hb⟩, hne, hitems⟩ := hplaced
  have hwrote := wroteState ha hs
  have hgrows := hwrote.grows
  have hledger : read (writeState (.ptr a) s' h) (.ptr b) = .list b items := by
    rw [← hlist]
    apply unfold_congr
    intro q hq
    change q ∈ trail (read h (.ptr b)) at hq
    rw [hlist] at hq
    rcases mem_trail_list.mp hq with rfl | ⟨x, hx, hq⟩
    · exact hwrote.frame q hb hne.symm
    · exact hwrote.frame q (hitems x hx q hq).1 (hitems x hx q hq).2.1
  have hpushed := pushedReceipt r hledger (hb.trans_le hgrows) fun x hx q hq =>
    ⟨(hitems x hx q hq).1.trans_le hgrows, (hitems x hx q hq).2.2⟩
  have hnext := hpushed.next
  have hstate : read (pushReceipt (.ptr b) r (writeState (.ptr a) s' h)) (.ptr a) =
      read (writeState (.ptr a) s' h) (.ptr a) := by
    apply unfold_congr
    intro q hq
    rcases hwrote.trail q hq with rfl | ⟨hlow, hhigh⟩
    · exact hpushed.frame q (ha.trans_le hgrows) hne
    · exact hpushed.frame q hhigh (by omega)
  refine ⟨by rw [hstate]; exact hwrote.state, ⟨_, hpushed.ledger⟩, fun q hq => ?_⟩
  rw [hstate, hpushed.ledger] at hq
  rw [hnext]
  rcases List.mem_append.mp hq with hq | hq
  · rcases hwrote.trail q hq with rfl | ⟨-, hhigh⟩ <;> omega
  · rcases mem_trail_list.mp hq with rfl | ⟨x, hx, hq⟩
    · omega
    · rcases List.mem_append.mp hx with hx | hx
      · have hlt := (hitems x hx q hq).1
        omega
      · rw [List.mem_singleton.mp hx] at hq
        rcases mem_trail_dict.mp hq with rfl | ⟨e, he, hq⟩
        · omega
        · simp only [receiptFields, List.zip_cons_cons, List.zip_nil_right, List.map_cons,
            List.map_nil, List.mem_cons, List.not_mem_nil, or_false] at he
          rcases he with rfl | rfl | rfl | rfl | rfl | rfl <;> cases hq

theorem formed_receipt (sha : Hex.Hash 64) (p : Plan) (s' : State)
    (hkey : keyGrammar p.request.key = true) :
    (p.receipt sha (requestFingerprint sha p.request.operation) s').Formed sha :=
  ⟨hkey, sha.tagged _ _, sha.tagged _ _, sha.tagged _ _, rfl⟩

/-- An applied call keeps the run sound. -/
theorem Sound.applied (hsound : Sound sha s₀ state ledger done h s)
    (hplan : plan sha (read h state) (read h ledger) (read h request) = .ok p)
    (hgrows : h.next ≤ g.next) {r : Receipt}
    (hsettles : Settles sha p answer (.ok (r, some s'))) :
    Sound sha s₀ state ledger (done ++ [⟨read h request, r⟩])
      (pushReceipt ledger r (writeState state s' (restored h state ledger request g))) s' := by
  obtain ⟨hs, hrs⟩ := hsound.of_plan hplan
  obtain ⟨hq, -, -⟩ := plan_eq_ok hplan
  obtain ⟨hmember, hgrammar, hrequest⟩ := of_validateRequest hq
  obtain ⟨hstate, hledger⟩ := read_restored h state ledger request g
  have hrestored := hsound.kept (by rwa [next_restored]) hstate hledger
  obtain ⟨a, b, items, hplaced⟩ := hrestored.placed
  have hvalid := valid_of_checkState hsound.checked
  cases hsettles with
  | applied _ out hkey happly =>
    rw [hs, (canonical_copy s).copy] at happly
    obtain ⟨hchecked, ⟨n, hread⟩, hbelow⟩ := committed hplaced (valid_of_apply hvalid.copy.checkState
      happly) (p.receipt sha (requestFingerprint sha p.request.operation) s')
    refine ⟨hchecked, ?_, ?_, ?_, hbelow⟩
    · rw [hread, List.map_append, List.map_singleton, ← hrs]
      have hledger' := hsound.validated
      rw [← hledger, hplaced.list, ← hrs, ← hs] at hledger'
      exact validateLedger_concat hledger' (formed_receipt sha p s' hgrammar) hkey rfl rfl n
    · rw [List.map_append, List.map_singleton]
      refine plain_concat hsound.plain (r := out) ?_
      rw [apply_eq hrequest hvalid.checkState]
      exact happly
    · intro x hx
      rcases List.mem_append.mp hx with hx | hx
      · exact hsound.keys x hx
      · rw [List.mem_singleton.mp hx]
        exact hmember

/-- A call keeps the run sound. -/
theorem Sound.call (hsound : Sound sha s₀ state ledger done h s) (o : Oracle Queue.Request)
    (request : Handle) :
    ∃ s', Sound sha s₀ state ledger
      (done ++ accepted (read h request) (apply sha o state ledger request h).1)
      (apply sha o state ledger request h).2 s' := by
  have hcalls := calls sha o state ledger request h
  generalize apply sha o state ledger request h = out at hcalls
  have hnone : ∀ e : Failure, done ++ accepted (read h request) (.error e) = done :=
    fun e => List.append_nil done
  cases hcalls with
  | refused e _ =>
    rw [hnone]
    exact ⟨s, hsound⟩
  | failed p g e hgrows _ _ =>
    obtain ⟨hstate, hledger⟩ := read_restored h state ledger request g
    rw [hnone]
    exact ⟨s, hsound.kept (by rwa [next_restored]) hstate hledger⟩
  | replayed p g r hgrows _ _ =>
    obtain ⟨hstate, hledger⟩ := read_restored h state ledger request g
    simp only [accepted, List.append_nil]
    exact ⟨s, hsound.kept (by rwa [next_restored]) hstate hledger⟩
  | applied p g r staged hgrows hplan hsettles =>
    exact ⟨staged, hsound.applied hplan hgrows hsettles⟩

theorem sound_of_run {id : ℕ} (hclosed : h₀.Closed) (hstate : h₀.Live state)
    (hledger : h₀.Live ledger) (hvalid : Queue.checkState (read h₀ state) = some s₀)
    (hempty : read h₀ ledger = .list id []) (hrun : Run sha state ledger h₀ done h) :
    ∃ s, Sound sha s₀ state ledger done h s := by
  induction hrun with
  | start =>
    refine ⟨s₀, hvalid, by rw [hempty]; rfl, rfl, (fun a ha => by cases ha), fun q hq => ?_⟩
    rcases List.mem_append.mp hq with hq | hq
    · exact trail_lt hclosed hstate q hq
    · exact trail_lt hclosed hledger q hq
  | call _ o request ih =>
    obtain ⟨s, hsound⟩ := ih
    exact hsound.call o request
  | caller _ hgrows hkept ih =>
    obtain ⟨s, hsound⟩ := ih
    exact ⟨s, hsound.kept hgrows (unfold_congr fun q hq => hkept q (List.mem_append_left _ hq))
      (unfold_congr fun q hq => hkept q (List.mem_append_right _ hq))⟩

/-! ### Answers -/

/-- What a call answers after these applied requests, and what it leaves. -/
structure Answered (sha : Hex.Hash 64) (o : Oracle Queue.Request) (state ledger request : Handle)
    (done : List Applied) (h : Objects) (out : Except Failure Result) (h' : Objects) : Prop where
  unchanged : (∀ r, out ≠ .ok ⟨.applied, r⟩) →
    read h' state = read h state ∧ read h' ledger = read h ledger
  replayed : ∀ r, out = .ok ⟨.replayed, r⟩ → ∃ a ∈ done, a.receipt = r ∧
    (read h request).member? "idempotency_key".toList = some (.atom (.str r.idempotencyKey))
  applied : ∀ r, out = .ok ⟨.applied, r⟩ → ∀ a ∈ done,
    a.receipt.idempotencyKey ≠ r.idempotencyKey
  retried : ∀ p, plan sha (read h state) (read h ledger) (read h request) = .ok p →
    ∀ a ∈ done, a.receipt.idempotencyKey = p.request.key →
      (o.call 0 p.request.operation h).1 =
        some (.str (requestFingerprint sha p.request.operation)) →
      out = if a.receipt.requestFingerprint = requestFingerprint sha p.request.operation then
        .ok ⟨.replayed, a.receipt⟩ else .error (.idempotency .keyConflict)

/-- Two receipts of a run with one key are the same. -/
theorem Sound.unique (hsound : Sound sha s₀ state ledger done h s) {r r' : Receipt}
    (hr : r ∈ done.map Applied.receipt) (hr' : r' ∈ done.map Applied.receipt)
    (hkey : r.idempotencyKey = r'.idempotencyKey) : r = r' := by
  obtain ⟨_, _, -, hrs, -⟩ := validateLedger_eq_some.mp hsound.validated
  exact List.inj_on_of_nodup_map (keys_of_validateReceipts hrs).1 hr hr' hkey

theorem Sound.answered (hsound : Sound sha s₀ state ledger done h s) (o : Oracle Queue.Request)
    (request : Handle) :
    Answered sha o state ledger request done h (apply sha o state ledger request h).1
      (apply sha o state ledger request h).2 := by
  have hcalls := calls sha o state ledger request h
  generalize apply sha o state ledger request h = out at hcalls
  cases hcalls with
  | refused e hplan =>
    refine ⟨fun _ => ⟨rfl, rfl⟩, (fun r hr => by cases hr), (fun r hr => by cases hr),
      fun p hp => ?_⟩
    rw [hplan] at hp
    cases hp
  | failed p g e _ hplan hsettles =>
    obtain ⟨-, hrs⟩ := hsound.of_plan hplan
    refine ⟨fun _ => read_restored h state ledger request g, (fun r hr => by cases hr),
      (fun r hr => by cases hr), fun p' hp' a ha hkey hanswer => ?_⟩
    obtain rfl := Except.ok.inj (hplan.symm.trans hp')
    have hmem : a.receipt ∈ done.map Applied.receipt := List.mem_map_of_mem ha
    cases hsettles with
    | diverged hne => exact absurd hanswer hne
    | conflicting _ r hr hkey' htoken =>
      rw [hrs] at hr
      obtain rfl := hsound.unique hr hmem (hkey'.trans hkey.symm)
      rw [if_neg htoken]
    | rejected _ hfresh _ =>
      rw [hrs, ← hkey] at hfresh
      exact absurd (List.mem_map_of_mem hmem) hfresh
  | replayed p g r _ hplan hsettles =>
    obtain ⟨-, hrs⟩ := hsound.of_plan hplan
    obtain ⟨hq, -, -⟩ := plan_eq_ok hplan
    obtain ⟨hmember, -, -⟩ := of_validateRequest hq
    cases hsettles with
    | replayed _ _ hr hkey' htoken =>
      rw [hrs] at hr
      refine ⟨fun _ => read_restored h state ledger request g, fun r' hr' => ?_,
        (fun r' hr' => by cases hr'), fun p' hp' a ha hkey hanswer => ?_⟩
      · cases hr'
        obtain ⟨a, ha, hreceipt⟩ := List.mem_map.mp hr
        exact ⟨a, ha, hreceipt, by rw [hkey']; exact hmember⟩
      · obtain rfl := Except.ok.inj (hplan.symm.trans hp')
        obtain rfl := hsound.unique hr (List.mem_map_of_mem ha) (hkey'.trans hkey.symm)
        rw [if_pos htoken]
  | applied p g r staged _ hplan hsettles =>
    obtain ⟨-, hrs⟩ := hsound.of_plan hplan
    cases hsettles with
    | applied _ _ hfresh _ =>
      rw [hrs] at hfresh
      refine ⟨fun hne => absurd rfl (hne _), (fun r' hr' => by cases hr'), fun r' hr' a ha => ?_,
        fun p' hp' a ha hkey hanswer => ?_⟩
      · cases hr'
        exact fun hkey => hfresh (List.mem_map.mpr ⟨_, List.mem_map_of_mem ha, hkey⟩)
      · obtain rfl := Except.ok.inj (hplan.symm.trans hp')
        exact absurd (List.mem_map.mpr ⟨_, List.mem_map_of_mem ha, hkey⟩) hfresh

theorem apply_refused {rs : List Receipt} (hrs : rs ≠ [])
    (hledger : validateLedger sha (stateIdFor sha s) (read h ledger) = some rs)
    (hchanged : ∀ s', Queue.checkState (read h state) = some s' →
      stateIdFor sha s' ≠ stateIdFor sha s) (o : Oracle Queue.Request) (request : Handle) :
    ∃ e, apply sha o state ledger request h = (.error e, h) := by
  have hcalls := calls sha o state ledger request h
  have hnot : ∀ p, plan sha (read h state) (read h ledger) (read h request) ≠ .ok p := by
    intro p hplan
    obtain ⟨-, hs, hlive⟩ := plan_eq_ok hplan
    obtain ⟨_, receipts, hlist, hread, hlast⟩ := validateLedger_eq_some.mp hledger
    obtain ⟨_, receipts', hlist', hread', hlast'⟩ := validateLedger_eq_some.mp hlive
    obtain ⟨-, rfl⟩ := PyObj.list.inj (hlist.symm.trans hlist')
    obtain rfl := Option.some.inj (hread.symm.trans hread')
    have hmem := Option.mem_def.mpr (List.getLast?_eq_some_getLast hrs)
    exact hchanged _ hs ((hlast' _ hmem).symm.trans (hlast _ hmem))
  generalize apply sha o state ledger request h = out at hcalls
  cases hcalls with
  | refused e _ => exact ⟨_, rfl⟩
  | failed p _ _ _ hplan _ => exact absurd hplan (hnot p)
  | replayed p _ _ _ hplan _ => exact absurd hplan (hnot p)
  | applied p _ _ _ _ hplan _ => exact absurd hplan (hnot p)

/-- In every run from a valid state and an empty ledger, the ledger is validated and holds
the receipts of the applied requests, and the state is the one the queue reaches with
these requests on its own. A call that does not apply its request leaves state and ledger,
and a replay returns the receipt of the key. Once the ledger holds a receipt, every call
is refused on a state with another id. -/
theorem keyed_refines {id : ℕ} {done : List Applied} (hclosed : h₀.Closed)
    (hstate : h₀.Live state) (hledger : h₀.Live ledger)
    (hvalid : Queue.checkState (read h₀ state) = some s₀) (hempty : read h₀ ledger = .list id [])
    (hrun : Run sha state ledger h₀ done h) :
    ∃ s, Queue.checkState (read h state) = some s ∧
      validateLedger sha (stateIdFor sha s) (read h ledger) = some (done.map Applied.receipt) ∧
      plain sha s₀ (done.map fun a => plainRequest a.request) = some s ∧
      (∀ a ∈ done, a.request.member? "idempotency_key".toList =
        some (.atom (.str a.receipt.idempotencyKey))) ∧
      (∀ o request, Answered sha o state ledger request done h
        (apply sha o state ledger request h).1 (apply sha o state ledger request h).2) ∧
      (done ≠ [] → ∀ h' : Objects, read h' ledger = read h ledger →
        (∀ s', Queue.checkState (read h' state) = some s' →
          stateIdFor sha s' ≠ stateIdFor sha s) →
        ∀ o request, ∃ e, apply sha o state ledger request h' = (.error e, h')) := by
  obtain ⟨s, hsound⟩ := sound_of_run hclosed hstate hledger hvalid hempty hrun
  refine ⟨s, hsound.checked, hsound.validated, hsound.plain, hsound.keys, hsound.answered, ?_⟩
  intro hdone h' hsame hchanged o request
  have hreceipts : done.map Applied.receipt ≠ [] := by rwa [ne_eq, List.map_eq_nil_iff]
  exact apply_refused hreceipts (by rw [hsame]; exact hsound.validated) hchanged o request

/-! ### A claim on an empty queue -/

def honest (sha : Hex.Hash 64) : Oracle Queue.Request :=
  ⟨fun _ q h => (some (.str (requestFingerprint sha q)), h), fun _ _ _ => le_refl _⟩

/-- A queue without jobs and an empty ledger, and a request to claim under a key. -/
def claimObjects (nextSeq : ℕ) : Objects where
  cells
    | 0 => Live.dict stateFields [.ptr 1, .atom (.int nextSeq)]
    | 3 => Live.dict requestFields [Live.text ['k'], Live.text Queue.Op.claim.text, .ptr 4]
    | 4 => Live.dict Queue.Op.claim.fields.tail [Live.text ['w'], .atom (.int 0), .atom (.int 1)]
    | _ => .list []
  next := 5

def claimed (nextSeq : ℕ) : Except Failure Result × Objects :=
  apply (.lengths 64) (honest (.lengths 64)) (.ptr 0) (.ptr 2) (.ptr 3) (claimObjects nextSeq)

def isApplied : Except Failure Result → Bool
  | .ok r => r.outcome == .applied
  | .error _ => false

theorem isApplied_claimed :
    isApplied (claimed 0).1 = true ∧ isApplied (claimed 10).1 = true := by decide +kernel

theorem closed_claimObjects (n : ℕ) : (claimObjects n).Closed := by
  intro p hp c hc
  have hp' : p < 5 := hp
  interval_cases p
  all_goals
    simp only [claimObjects, Live.dict, ObjectHeap.Cell.children, stateFields, requestFields,
      Queue.Op.fields, List.tail_cons, List.zip_cons_cons, List.zip_nil_right, List.map_cons,
      List.map_nil, List.mem_cons, List.not_mem_nil, or_false] at hc
  · rcases hc with rfl | rfl
    · exact (by decide : 1 < 5)
    · trivial
  · rcases hc with rfl | rfl | rfl
    · trivial
    · trivial
    · exact (by decide : 4 < 5)
  · rcases hc with rfl | rfl | rfl <;> trivial

theorem checkState_claimObjects :
    Queue.checkState (read (claimObjects 0) (.ptr 0)) = some ⟨[], 0⟩ ∧
      Queue.checkState (read (claimObjects 10) (.ptr 0)) = some ⟨[], 10⟩ := ⟨rfl, rfl⟩

/-- The state was changed before the first call, and the call is not refused. -/
theorem emptyLedger_not_refused :
    ¬ ∀ (sha : Hex.Hash 64) (state ledger : Handle) (h₀ h h' : Objects) (s₀ s : State) (id : ℕ)
      (done : List Applied), h₀.Closed → h₀.Live state → h₀.Live ledger →
      Queue.checkState (read h₀ state) = some s₀ → read h₀ ledger = .list id [] →
      Run sha state ledger h₀ done h → Queue.checkState (read h state) = some s →
      read h' ledger = read h ledger →
      (∀ s', Queue.checkState (read h' state) = some s' → stateIdFor sha s' ≠ stateIdFor sha s) →
      ∀ o request, ∃ e, apply sha o state ledger request h' = (.error e, h') := by
  intro hall
  have hne : stateIdFor (.lengths 64) ⟨[], 10⟩ ≠ stateIdFor (.lengths 64) ⟨[], 0⟩ := by
    decide +kernel
  obtain ⟨e, he⟩ := hall (.lengths 64) (.ptr 0) (.ptr 2) (claimObjects 0) (claimObjects 0)
    (claimObjects 10) ⟨[], 0⟩ ⟨[], 0⟩ 2 [] (closed_claimObjects 0) (by decide : 0 < 5)
    (by decide : 2 < 5) checkState_claimObjects.1 rfl .start checkState_claimObjects.1 rfl
    (fun s' hs' => by
      rw [checkState_claimObjects.2] at hs'
      obtain rfl := Option.some.inj hs'
      exact hne) (honest (.lengths 64)) (.ptr 3)
  have happlied := isApplied_claimed.2
  rw [claimed, he] at happlied
  cases happlied

/-- After the claim the ledger holds its receipt, and calls on a changed state are
refused. -/
theorem keyed_refines_claim :
    ∃ s, Queue.checkState (read (claimed 0).2 (.ptr 0)) = some s ∧
      plain (.lengths 64) ⟨[], 0⟩ [plainRequest (read (claimObjects 0) (.ptr 3))] = some s ∧
      ∀ h' : Objects, read h' (.ptr 2) = read (claimed 0).2 (.ptr 2) →
        (∀ s', Queue.checkState (read h' (.ptr 0)) = some s' →
          stateIdFor (.lengths 64) s' ≠ stateIdFor (.lengths 64) s) →
        ∀ o request, ∃ e, apply (.lengths 64) o (.ptr 0) (.ptr 2) request h' = (.error e, h') := by
  have hrun : Run (.lengths 64) (.ptr 0) (.ptr 2) (claimObjects 0)
      ([] ++ accepted (read (claimObjects 0) (.ptr 3)) (claimed 0).1) (claimed 0).2 :=
    .call .start (honest (.lengths 64)) (.ptr 3)
  obtain ⟨r, hr⟩ : ∃ r, (claimed 0).1 = .ok ⟨.applied, r⟩ := by
    have happlied := isApplied_claimed.1
    cases hout : (claimed 0).1 with
    | error e =>
      rw [hout] at happlied
      cases happlied
    | ok result =>
      obtain ⟨outcome, r⟩ := result
      rw [hout] at happlied
      have houtcome : outcome = .applied := beq_iff_eq.mp happlied
      exact ⟨r, by rw [houtcome]⟩
  rw [hr] at hrun
  have hstate : (claimObjects 0).Live (.ptr 0) := (by decide : 0 < 5)
  have hledger : (claimObjects 0).Live (.ptr 2) := (by decide : 2 < 5)
  have hempty : read (claimObjects 0) (.ptr 2) = .list 2 [] := rfl
  obtain ⟨s, hs, -, hplain, -, -, hrefused⟩ := keyed_refines (closed_claimObjects 0) hstate hledger
    checkState_claimObjects.1 hempty hrun
  exact ⟨s, hs, hplain, hrefused (by simp [accepted])⟩

end KeyedQueue
end OpenChess
