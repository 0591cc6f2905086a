import OpenChess.ControlPlane.MockRetry
import OpenChess.ControlPlane.Session

/-!
# A call over a lossy link

The client sends a call again under the same key where no usable answer came back. Between its
attempts the control plane serves others, and on the way a request or an answer may get lost.
A call acts on the control plane once at most, and once where it succeeds.
-/

namespace OpenChess
namespace Mock

open ControlPlane (Op Setup Callables World Failure ControlPlaneError Reply Request verdict
  writeOnlyValues attempts send freshKey project)
open Prog (Ensures)
open Receiver (Desk Route)

/-! ### The link -/

/-- The call a request arrives as. A token with lone surrogates has no header. -/
def Call.ofRequest (r : Request) : Call :=
  { method := r.method.text, path := r.path
    authorization := match r.authorization with
      | some (.str token) => .str (bearerScheme ++ token)
      | _ => .str []
    idempotencyKey := r.idempotencyKey.getD (.str []), body := r.body }

/-- The way of an attempt: its request is lost, its answer is lost, or both arrive. -/
inductive Hop
  | lost
  | unanswered (m : Moment)
  | answered (m : Moment)

/-- The requests of others before an attempt, and the way of the attempt. -/
structure Leg where
  others : List Event
  hop : Hop

/-- What reaches the control plane of an attempt. -/
def Hop.arrival (c : Call) : Hop → List Event
  | .lost => []
  | .unanswered m => [(m, c)]
  | .answered m => [(m, c)]

def Leg.arrivals (c : Call) (leg : Leg) : List Event := leg.others ++ leg.hop.arrival c

/-- What reaches the control plane in the first attempts. -/
def arrivals (legs : ℕ → Leg) (c : Call) : ℕ → List Event
  | 0 => []
  | n + 1 => arrivals legs c n ++ (legs n).arrivals c

/-- The transport raises where something is lost, and otherwise hands over the answer. -/
def Carries (s : Server) (c : Call) (leg : Leg) (reply : Reply) : Prop :=
  match leg.hop with
  | .answered m => ∃ obj, obj.content = (handle (Trace.run step s leg.others) m c).1.payload ∧
      reply = .pair (.int (handle (Trace.run step s leg.others) m c).1.status) obj
  | _ => reply = .raised

variable {setup : Setup} {env : Callables} {w : World} {name key : Text} {op : Op} {body : Value}
  {s : Server} {c : Call} {leg : Leg} {reply : Reply} {payload : Value} {needles : List Value}
  {legs : ℕ → Leg} {earlier calls : List Event}

/-! ### Attempts -/

theorem ensures_attempts (setup : Setup) (env : Callables) (name : Text) (op : Op) (body : Value)
    (key : Option Value) (n : ℕ) (last : Option ControlPlaneError) (w : World) :
    Ensures (· = w) (attempts setup env name op body key n last)
      (fun payload w' => ∃ i < n, w'.turn = w.turn + (i + 1) ∧
        verdict setup op (writeOnlyValues op.request body)
          (env.transport (w.turn + i) (ControlPlane.request op key body w.client)) = .accepted payload)
      (fun _ w' => ∃ k ≤ n, w'.turn = w.turn + k) := by
  induction n generalizing last w with
  | zero =>
    cases last with
    | none => exact Prog.ensures_throw fun w' hw' => ⟨0, le_rfl, by rw [hw']; rfl⟩
    | some e => exact Prog.ensures_throw fun w' hw' => ⟨0, le_rfl, by rw [hw']; rfl⟩
  | succ n ih =>
    refine Prog.ensures_get_bind ?_
    rintro w rfl
    set reply := env.transport w.turn (ControlPlane.request op key body w.client) with hreply
    refine Prog.ensures_bind (Q := fun _ w' => w' = w.note (.answered name body reply))
      (Prog.ensures_modify fun _ h => h ▸ rfl) fun _ => ?_
    cases hcase : verdict setup op (writeOnlyValues op.request body) reply with
    | accepted payload =>
      refine Prog.ensures_pure ?_
      rintro _ rfl
      exact ⟨0, n.succ_pos, rfl, hcase⟩
    | refused e =>
      refine Prog.ensures_throw ?_
      rintro _ rfl
      exact ⟨1, by omega, rfl⟩
    | lapsed e =>
      refine Prog.ensures_bind (Q := fun _ w' => w'.turn = w.turn + 1) (Prog.ensures_modify ?_)
        fun _ => Prog.ensures_throw fun w' hw' => ⟨1, by omega, hw'⟩
      rintro _ rfl
      rfl
    | again e =>
      refine (ih (some e) (w.note (.answered name body reply))).mono (fun _ h => h) ?_ ?_
      · rintro payload w' ⟨i, hi, hturn, haccepted⟩
        refine ⟨i + 1, by omega, ?_, ?_⟩
        · rw [hturn]
          change w.turn + 1 + (i + 1) = _
          omega
        · have hnext : (w.note (.answered name body reply)).turn + i = w.turn + (i + 1) := by
            change w.turn + 1 + i = _
            omega
          rw [hnext] at haccepted
          exact haccepted
      · rintro _ w' ⟨k, hk, hturn⟩
        refine ⟨k + 1, by omega, ?_⟩
        rw [hturn]
        change w.turn + 1 + k = _
        omega

theorem of_accepted {status : ℤ} {obj : PyObj}
    (h : verdict setup op needles (.pair (.int status) obj) = .accepted payload) :
    200 ≤ status ∧ status < 300 ∧ payload = project obj.content op.response := by
  cases obj with
  | atom a => simp [verdict, ControlPlane.checkResult] at h
  | list id items => simp [verdict, ControlPlane.checkResult] at h
  | dict id entries =>
    unfold verdict ControlPlane.checkResult at h
    by_cases hrange : 100 ≤ status ∧ status ≤ 599
    · simp only [if_pos hrange] at h
      by_cases hsuccess : 200 ≤ status ∧ status < 300
      · simp only [if_pos hsuccess] at h
        split_ifs at h
        exact ⟨hsuccess.1, hsuccess.2, (ControlPlane.Verdict.accepted.inj h).symm⟩
      · simp only [if_neg hsuccess] at h
        unfold ControlPlane.errorVerdict at h
        cases hcheck : ControlPlane.checkError setup op (.dict id entries) needles with
        | error e => simp [hcheck] at h
        | ok checked =>
          simp only [hcheck] at h
          split_ifs at h
    · simp [if_neg hrange] at h

theorem carried_of_accepted (hcarries : Carries s c leg reply)
    (haccepted : verdict setup op needles reply = .accepted payload) :
    ∃ m, leg.hop = .answered m ∧
      200 ≤ (handle (Trace.run step s leg.others) m c).1.status ∧
      (handle (Trace.run step s leg.others) m c).1.status < 300 ∧
      payload = project (handle (Trace.run step s leg.others) m c).1.payload op.response := by
  unfold Carries at hcarries
  cases hhop : leg.hop with
  | lost =>
    rw [hhop] at hcarries
    subst hcarries
    simp [verdict] at haccepted
  | unanswered m =>
    rw [hhop] at hcarries
    subst hcarries
    simp [verdict] at haccepted
  | answered m =>
    rw [hhop] at hcarries
    obtain ⟨obj, hcontent, rfl⟩ := hcarries
    obtain ⟨hlow, hhigh, hpayload⟩ := of_accepted haccepted
    refine ⟨m, rfl, by omega, by omega, ?_⟩
    rw [hpayload, hcontent]

/-! ### Calls -/

def effectsOf (key : Text) (calls : List Event) : List (Scope × Event) :=
  (effects calls).filter fun f => readKey f.2.2.idempotencyKey == some key

/-- The key is one that no request of others bears, before or between the attempts of the call. -/
def Unused (key : Text) (earlier : List Event) (legs : ℕ → Leg) : Prop :=
  (∀ e ∈ earlier, readKey e.2.idempotencyKey ≠ some key) ∧
    ∀ i, ∀ e ∈ (legs i).others, readKey e.2.idempotencyKey ≠ some key

theorem mem_arrival {hop : Hop} {e : Event} (h : e ∈ hop.arrival c) : e.2 = c := by
  cases hop with
  | lost => cases h
  | unanswered m => rw [List.mem_singleton.mp h]
  | answered m => rw [List.mem_singleton.mp h]

theorem Unused.of_arrivals (h : Unused key earlier legs) {n : ℕ} {e : Event}
    (he : e ∈ arrivals legs c n) (hkey : readKey e.2.idempotencyKey = some key) : e.2 = c := by
  induction n with
  | zero => exact absurd he List.not_mem_nil
  | succ n ih =>
    rw [arrivals] at he
    obtain he | he := List.mem_append.mp he
    · exact ih he
    obtain he | he := List.mem_append.mp he
    · exact absurd hkey (h.2 n e he)
    · exact mem_arrival he

theorem Unused.after_earlier (h : Unused key earlier legs) {n : ℕ} {before after : List Event}
    {e : Event} (hsplit : earlier ++ arrivals legs c n = before ++ e :: after)
    (hkey : readKey e.2.idempotencyKey = some key) :
    ∃ own, arrivals legs c n = own ++ e :: after := by
  obtain ⟨k, -, hright⟩ | ⟨k, hleft, hright⟩ := List.append_eq_append_iff.mp hsplit
  · exact ⟨k, hright⟩
  · cases k with
    | nil => exact ⟨[], by rw [List.nil_append] at hright; exact hright.symm⟩
    | cons e' k =>
      obtain ⟨rfl, -⟩ := List.cons.inj hright
      exact absurd hkey (h.1 e (by rw [hleft]; simp))

theorem Unused.length_effectsOf (h : Unused key earlier legs)
    (hundrawn : ∀ i token, bearerToken c.authorization = some token →
      NotDrawn token ((legs i).arrivals c)) (n : ℕ) :
    (effectsOf key (earlier ++ arrivals legs c n)).length ≤ 1 := by
  have hdraws : ∀ token, bearerToken c.authorization = some token →
      NotDrawn token (arrivals legs c n) := by
    intro token htoken
    induction n with
    | zero => exact fun e he => absurd he List.not_mem_nil
    | succ n ih => exact fun e he => (List.mem_append.mp he).elim (ih e) (hundrawn n token htoken e)
  refine @Receiver.length_filings_le_one _ _ _ _ _ _ _ service Server.new.desk _
    (fun e => readKey e.2.idempotencyKey == some key) rfl ?_
  intro before e between e' after scope print scope' print' hcalls hmine hmine' hroute hroute'
  have hkey : readKey e.2.idempotencyKey = some key := beq_iff_eq.mp hmine
  have hkey' : readKey e'.2.idempotencyKey = some key := beq_iff_eq.mp hmine'
  obtain ⟨k, hsuffix⟩ := h.after_earlier hcalls hkey
  have hcall : e.2 = c := h.of_arrivals (by rw [hsuffix]; simp) hkey
  have hcall' : e'.2 = c := h.of_arrivals (by rw [hsuffix]; simp) hkey'
  obtain ⟨m, rfl⟩ : ∃ m, e = (m, c) := ⟨e.1, Prod.ext rfl hcall⟩
  obtain ⟨m', rfl⟩ : ∃ m, e' = (m, c) := ⟨e'.1, Prod.ext rfl hcall'⟩
  have hfresh : ∀ token, bearerToken c.authorization = some token →
      NotDrawn token ((m, c) :: between) := by
    intro token htoken e he
    refine hdraws token htoken e ?_
    rw [hsuffix]
    simp only [List.mem_append, List.mem_cons] at he ⊢
    tauto
  have hrun : (run before).desk = Receiver.run service Server.new.desk before :=
    desk_run Server.new before
  have hrun' : (Trace.run step (run before) ((m, c) :: between)).desk =
      Receiver.run service Server.new.desk (before ++ (m, c) :: between) := by
    rw [← desk_run, Trace.run_append]
    rfl
  rw [← hrun] at hroute
  rw [← hrun'] at hroute'
  have hagain := @route_again (run before) m m' c between scope print (owned_run before) hroute hfresh
  change route _ _ = _ at hroute'
  rw [hroute'] at hagain
  rcases hagain with hsame | ⟨_, _, _, -, -, -, hrefused⟩
  · exact ((Route.file.inj hsame).1).symm
  · cases hrefused

theorem status_of_refuse {d : Desk Plane Scope Text Answer} {m : Moment} {out : Answer}
    (h : route d (m, c) = .refuse out) : 400 ≤ out.status := by
  cases hop : findOp c.method c.path with
  | none =>
    simp only [route, hop, Route.refuse.injEq] at h
    simp [← h, err]
  | some found =>
    obtain ⟨name, op⟩ := found
    rw [route_eq d hop, routeFound] at h
    cases hreplayed : replayed d.filed name op c with
    | some scope => simp [hreplayed] at h
    | none =>
      cases hrefusal : refusalOf op d.state m c with
      | some refusal =>
        simp only [hreplayed, hrefusal, Route.refuse.injEq] at h
        subst h
        unfold refusalOf at hrefusal
        split_ifs at hrefusal
        cases hbearer : bearer d.state m c.authorization with
        | ok r => simp [hbearer, Bearer.refusal] at hrefusal
        | _ =>
          simp only [hbearer, Bearer.refusal, Option.some.injEq] at hrefusal
          simp [← hrefusal, err]
      | none =>
        cases hkey : readKey c.idempotencyKey with
        | some key => cases hmutating : op.mutating <;> simp [hreplayed, hrefusal, hkey, hmutating] at h
        | none =>
          cases hmutating : op.mutating with
          | false => simp [hreplayed, hrefusal, hmutating] at h
          | true =>
            simp only [hreplayed, hrefusal, hkey, hmutating, if_true, Route.refuse.injEq] at h
            simp [← h, err]

theorem filed_of_success {before : List Event} {m : Moment} {name : Text} {op : Op}
    (hop : findOp c.method c.path = some (name, op)) (hmutating : op.mutating = true)
    (hsuccess : (handle (run before) m c).1.status < 300) :
    ∃ scope first f after, before ++ [(m, c)] = first ++ f :: after ∧
      (scope, f) ∈ effects (before ++ [(m, c)]) ∧
      readKey c.idempotencyKey = some scope.key ∧
      (handle (run before) m c).1 = (act (run first).plane f).1 := by
  have hanswer := congrArg Prod.fst (handle_eq (run before) m c)
  have hdesk : Receiver.run service Server.new.desk (before ++ [(m, c)]) =
      (Receiver.handle service (run before).desk (m, c)).2 := by
    rw [Receiver.run_append, ← desk_run]
    rfl
  cases hroute : route (run before).desk (m, c) with
  | refuse out =>
    have hroute' : service.route (run before).desk (m, c) = .refuse out := hroute
    rw [Receiver.handle_refuse hroute'] at hanswer
    rw [hanswer] at hsuccess
    have hstatus := status_of_refuse hroute
    change out.status < 300 at hsuccess
    omega
  | pass =>
    rw [route_eq _ hop, routeFound] at hroute
    cases hreplayed : replayed (run before).desk.filed name op c with
    | some scope => simp [hreplayed] at hroute
    | none =>
      cases hrefusal : refusalOf op (run before).desk.state m c with
      | some refusal => simp [hreplayed, hrefusal] at hroute
      | none => cases hkey : readKey c.idempotencyKey <;>
          simp [hreplayed, hrefusal, hmutating, hkey] at hroute
  | file scope print =>
    have hroute' : service.route (run before).desk (m, c) = .file scope print := hroute
    obtain ⟨entry, hentry, hout⟩ := Receiver.exists_filed hroute'
    rw [← hdesk] at hentry
    rw [← hanswer] at hout
    obtain ⟨first, f, after, hsplit, hmem, hact⟩ := Receiver.exists_filing hentry rfl
    refine ⟨scope, first, f, after, hsplit, hmem, (scope_of_file hroute).1, ?_⟩
    split_ifs at hout with hprint
    · rw [hout, hact, ← desk_run]
      rfl
    · rw [hout] at hsuccess
      exact absurd hsuccess (by decide)

/-- The call that the attempts of a `send` arrive as. -/
def callOf (op : Op) (key : Text) (body : Value) (w : World) : Call :=
  .ofRequest (ControlPlane.request op (some (.str key)) body w.client)

/-- A link between a client and the control plane, for one `send`: the key factory returns a key
that no other request bears, no one draws the presented token meanwhile, and the transport carries
each attempt its way. -/
structure Link (env : Callables) (w : World) (op : Op) (body : Value) (key : Text)
    (earlier : List Event) (legs : ℕ → Leg) : Prop where
  keyed : env.keyFactory w.turn = some (.str key)
  unused : Unused key earlier legs
  undrawn : ∀ i token, bearerToken (callOf op key body w).authorization = some token →
    NotDrawn token ((legs i).arrivals (callOf op key body w))
  carries : ∀ i, Carries (run (earlier ++ arrivals legs (callOf op key body w) i))
    (callOf op key body w) (legs i)
    (env.transport (w.turn + 1 + i) (ControlPlane.request op (some (.str key)) body w.client))

theorem findOp_callOf (hop : ControlPlane.operations.lookup name = some op) (key : Text)
    (body : Value) (w : World) : findOp (callOf op key body w).method (callOf op key body w).path =
      some (name, op) := by
  have hall : ControlPlane.operations.map (fun f => findOp f.2.method.text f.2.path) =
      ControlPlane.operations.map some := rfl
  exact List.map_inj_left.mp hall _ (Dict.mem_of_lookup hop)

/-- The attempts of a `send` of an operation that changes something. -/
theorem ensures_send (setup : Setup) (name : Text) (body : Value) (hmutating : op.mutating = true)
    (hkey : env.keyFactory w.turn = some (.str key)) :
    Ensures (· = w) (send setup env name op body)
      (fun payload w' => ∃ i < setup.maxAttempts, w'.turn = w.turn + 1 + (i + 1) ∧
        verdict setup op (writeOnlyValues op.request body) (env.transport (w.turn + 1 + i)
          (ControlPlane.request op (some (.str key)) body w.client)) = .accepted payload)
      (fun _ w' => ∃ k ≤ setup.maxAttempts, w'.turn = w.turn + 1 + k) := by
  unfold send
  rw [if_pos hmutating]
  refine Prog.ensures_bind (Q := fun k w' => k = .str key ∧ w' = w.note (.key (some (.str key))))
    ?_ fun k => ?_
  · unfold freshKey
    refine Prog.ensures_get_bind ?_
    rintro w rfl
    rw [hkey]
    refine Prog.ensures_bind (Q := fun _ w' => w' = w.note (.key (some (.str key))))
      (Prog.ensures_modify fun _ h => h ▸ rfl) fun _ => ?_
    simp only
    split_ifs
    · exact Prog.ensures_pure fun _ h => ⟨rfl, h⟩
    · refine Prog.ensures_throw ?_
      rintro _ rfl
      exact ⟨0, Nat.zero_le _, rfl⟩
  · refine Prog.ensures_of_forall ?_
    rintro w' ⟨rfl, rfl⟩
    exact ensures_attempts setup env name op body _ _ none _

/-- After a number of attempts, one request with the key at most acted on the control plane. If
the call succeeded, it was one attempt of the call, and the call returns what that was answered. -/
def ActsOnce (setup : Setup) (env : Callables) (w : World) (name : Text) (op : Op) (body : Value)
    (key : Text) (earlier : List Event) (legs : ℕ → Leg) : Prop :=
  ∃ n ≤ setup.maxAttempts, ((send setup env name op body).exec w).2.turn = w.turn + 1 + n ∧
    (effectsOf key (earlier ++ arrivals legs (callOf op key body w) n)).length ≤ 1 ∧
    ∀ payload w', (send setup env name op body).exec w = (.ok payload, w') →
      ∃ scope m first after, (earlier ++ arrivals legs (callOf op key body w) n) =
          first ++ (m, callOf op key body w) :: after ∧
        effectsOf key (earlier ++ arrivals legs (callOf op key body w) n) =
          [(scope, m, callOf op key body w)] ∧
        payload = project (act (run first).plane (m, callOf op key body w)).1.payload op.response

/-- Over a link that loses requests and answers, a call acts on the control plane once at most,
however many attempts it makes and whatever others send between them, and once if it succeeds. -/
theorem send_acts_once (setup : Setup) (hop : ControlPlane.operations.lookup name = some op)
    (hmutating : op.mutating = true) (hlink : Link env w op body key earlier legs) :
    ActsOnce setup env w name op body key earlier legs := by
  unfold ActsOnce
  have hmeets := ensures_send setup name body hmutating hlink.keyed w rfl
  generalize (send setup env name op body).exec w = out at hmeets
  obtain ⟨result, w'⟩ := out
  cases result with
  | error e =>
    obtain ⟨k, hk, hturn⟩ := hmeets
    exact ⟨k, hk, hturn, hlink.unused.length_effectsOf hlink.undrawn k, fun payload w' h => by cases h⟩
  | ok payload =>
    obtain ⟨i, hi, hturn, haccepted⟩ := hmeets
    have hle := hlink.unused.length_effectsOf hlink.undrawn (i + 1)
    refine ⟨i + 1, hi, hturn, hle, ?_⟩
    rintro payload' w'' hout
    obtain ⟨hresult, -⟩ := Prod.mk.inj hout
    obtain rfl := Except.ok.inj hresult
    obtain ⟨m, hhop, -, hsuccess, hpayload⟩ := carried_of_accepted (hlink.carries i) haccepted
    set c := callOf op key body w with hc
    have hbefore : Trace.run step (run (earlier ++ arrivals legs c i)) (legs i).others =
        run (earlier ++ arrivals legs c i ++ (legs i).others) := (Trace.run_append _ _).symm
    rw [hbefore] at hsuccess hpayload
    have hhistory : earlier ++ arrivals legs c (i + 1) =
        earlier ++ arrivals legs c i ++ (legs i).others ++ [(m, c)] := by
      rw [arrivals, Leg.arrivals, hhop, Hop.arrival]
      simp
    obtain ⟨scope, first, f, after, hsplit, hmem, hkey, hact⟩ :=
      filed_of_success (findOp_callOf hop key body w) hmutating hsuccess
    rw [← hhistory] at hsplit hmem
    have hscope : scope.key = key := by
      obtain ⟨htext, -⟩ := Option.filter_eq_some_iff.mp hkey
      exact (Option.some.inj htext).symm
    have hfkey : readKey f.2.idempotencyKey = some key := hscope ▸ (scope_of_effect hmem).1
    have hmine : (scope, f) ∈ effectsOf key (earlier ++ arrivals legs c (i + 1)) :=
      List.mem_filter.mpr ⟨hmem, beq_iff_eq.mpr hfkey⟩
    obtain ⟨own, hown⟩ := hlink.unused.after_earlier hsplit hfkey
    have hcall : f.2 = c := hlink.unused.of_arrivals (by rw [hown]; simp) hfkey
    obtain ⟨m', rfl⟩ : ∃ m', f = (m', c) := ⟨f.1, Prod.ext rfl hcall⟩
    refine ⟨scope, m', first, after, hsplit, ?_, ?_⟩
    · obtain ⟨f, hone⟩ := List.length_eq_one_iff.mp
        (le_antisymm hle (List.length_pos_of_mem hmine))
      rw [hone] at hmine ⊢
      rw [List.mem_singleton.mp hmine]
    · rw [hpayload, hact]

/-! ### A registration whose first answer is lost -/

def registerOp : Op := (ControlPlane.operations.head (List.cons_ne_nil _ _)).2

def twoAttempts : Setup :=
  ⟨fun _ => false, fun _ _ => false, fun _ => 0, fun _ _ => none, 2, by decide, 60, false⟩

def newcomer : World := ⟨.new, [], [], 0⟩

/-- The first answer is lost, and the second arrives. -/
def secondArrives : ℕ → Leg
  | 0 => ⟨[], .unanswered firstMoment⟩
  | 1 => ⟨[], .answered firstMoment⟩
  | _ => ⟨[], .lost⟩

def registeredAnswer : PyObj :=
  .dict 0 [(.str "account_id".toList, .atom (.str "acct-a".toList)),
    (.str "token".toList, .atom (.str "b".toList)),
    (.str "token_expires_at".toList, .atom (.int (truncated 0 + 3600)))]

def secondAnswers : Callables :=
  ⟨fun _ => none, fun _ => some (.str "k".toList),
    fun turn _ => if turn = 2 then .pair (.int 200) registeredAnswer else .raised, fun _ _ => true⟩

theorem link_registration : Link secondAnswers newcomer registerOp registration.body "k".toList []
    secondArrives where
  keyed := rfl
  unused := by
    refine ⟨fun e he => absurd he List.not_mem_nil, fun i e he => ?_⟩
    obtain _ | _ | i := i <;> cases he
  undrawn := fun i token h => by cases h
  carries := by
    intro i
    obtain _ | _ | i := i
    · rfl
    · exact ⟨registeredAnswer, rfl, rfl⟩
    · have hturn : ¬ newcomer.turn + 1 + (i + 2) = 2 := by omega
      exact if_neg hturn

/-- The call succeeds at its second attempt. -/
theorem send_acts_once_registration :
    ActsOnce twoAttempts secondAnswers newcomer "identity.register".toList registerOp
        registration.body "k".toList [] secondArrives ∧
      ((send twoAttempts secondAnswers "identity.register".toList registerOp
        registration.body).exec newcomer).1.isOk = true :=
  ⟨send_acts_once twoAttempts rfl rfl link_registration, rfl⟩

end Mock
end OpenChess
