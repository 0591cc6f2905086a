import OpenChess.ControlPlane.MockSessions

/-!
# Repeated requests

The reference control plane acts on a request that changes something once at most for each
idempotency scope, and a request sent again is answered as it was the first time.
-/

namespace OpenChess
namespace Mock

open ControlPlane (Op selfDestructive operations)
open Receiver (Desk Route)

variable {s : Server} {p : Plane} {m m' : Moment} {c : Call} {e : Event} {name token : Text}
  {op : Op} {calls before between : List Event} {record : TokenRecord} {scope : Scope} {print : Text}
  {d : Desk Plane Scope Text Answer}

/-! ### Effects -/

def Scope.key : Scope → Text
  | .credential _ _ _ key => key
  | .account _ _ _ key => key

def Scope.target : Scope → Text × Text
  | .credential _ method path _ => (method, path)
  | .account _ method path _ => (method, path)

def effects (calls : List Event) : List (Scope × Event) :=
  Receiver.filings service Server.new.desk calls

theorem logic_readOnly (hop : findOp c.method c.path = some (name, op))
    (hread : op.mutating = false) : (logic name op m c p).2 = p := by
  have hall : ∀ f ∈ operations, f.2.mutating = false → f.1 = "entitlements.get".toList ∨
      f.1 = "billing.get_subscription".toList ∨ f.1 = "provider_routing.route".toList := by decide
  unfold logic
  cases validate c.body name op.request with
  | some problem => rfl
  | none => rcases hall _ (List.mem_of_find?_eq_some hop) hread with rfl | rfl | rfl <;> rfl

theorem auth_of_selfDestructive (hop : findOp c.method c.path = some (name, op))
    (hname : selfDestructive.contains name = true) : op.auth = .required := by
  have hall : ∀ f ∈ operations, selfDestructive.contains f.1 = true → f.2.auth = .required := by
    decide
  exact hall _ (List.mem_of_find?_eq_some hop) hname

/-- What holds of a request that gets a scope: it is of an operation that changes something, and
either ends a session or is not refused for its bearer. -/
theorem of_file (h : route d (m, c) = .file scope print) : ∃ name op key,
    findOp c.method c.path = some (name, op) ∧ op.mutating = true ∧
      readKey c.idempotencyKey = some key ∧ print = fingerprint c.body ∧
      ((selfDestructive.contains name = true ∧ ∃ token, bearerToken c.authorization = some token ∧
          scope = .credential token c.method c.path key) ∨
        selfDestructive.contains name = false ∧ refusalOf op d.state m c = none ∧
          scope = .account ((accountOf op d.state m c.authorization).getD "public".toList)
            c.method c.path key) := by
  cases hop : findOp c.method c.path with
  | none => simp [route, hop] at h
  | some found =>
    obtain ⟨name, op⟩ := found
    rw [route_eq d hop, routeFound] at h
    cases hreplayed : replayed d.filed name op c with
    | some scope' =>
      obtain ⟨hmutating, hscope, -⟩ := of_replayed hreplayed
      simp only [hreplayed, Route.file.injEq] at h
      obtain ⟨rfl, rfl⟩ := h
      unfold credentialScope at hscope
      split_ifs at hscope with hname
      cases hkey : readKey c.idempotencyKey with
      | none => simp [hkey] at hscope
      | some key =>
        cases htoken : bearerToken c.authorization with
        | none => simp [hkey, htoken] at hscope
        | some token =>
          simp only [hkey, htoken, Option.some.injEq] at hscope
          exact ⟨name, op, key, rfl, hmutating, rfl, rfl, .inl ⟨hname, token, rfl, hscope.symm⟩⟩
    | none =>
      cases hrefusal : refusalOf op d.state m c with
      | some refusal => simp [hreplayed, hrefusal] at h
      | none =>
        by_cases hmutating : op.mutating = true
        · cases hkey : readKey c.idempotencyKey with
          | none => simp [hreplayed, hrefusal, hmutating, hkey] at h
          | some key =>
            simp only [hreplayed, hrefusal, if_pos hmutating, hkey, Route.file.injEq] at h
            obtain ⟨rfl, rfl⟩ := h
            refine ⟨name, op, key, rfl, hmutating, rfl, rfl, ?_⟩
            unfold scopeOf
            by_cases hname : selfDestructive.contains name = true
            · obtain ⟨r, hbearer, -⟩ := bearer_of_refusal (auth_of_selfDestructive hop hname) hrefusal
              obtain ⟨token, htoken, -⟩ := of_bearer hbearer
              rw [if_pos hname, htoken]
              exact .inl ⟨hname, token, rfl, rfl⟩
            · rw [if_neg hname]
              exact .inr ⟨Bool.eq_false_of_not_eq_true hname, hrefusal, rfl⟩
        · simp [hreplayed, hrefusal, hmutating] at h

theorem scope_of_file (h : route d (m, c) = .file scope print) :
    readKey c.idempotencyKey = some scope.key ∧ scope.target = (c.method, c.path) := by
  obtain ⟨name, op, key, -, -, hkey, -, hscope⟩ := of_file h
  obtain ⟨-, token, -, rfl⟩ | ⟨-, -, rfl⟩ := hscope
  · exact ⟨hkey, rfl⟩
  · exact ⟨hkey, rfl⟩

theorem scope_of_effect {f : Scope × Event} (h : f ∈ effects calls) :
    readKey f.2.2.idempotencyKey = some f.1.key ∧ f.1.target = (f.2.2.method, f.2.2.path) := by
  obtain ⟨before, after, -, -, print, hroute⟩ := Receiver.of_mem_filings h
  exact scope_of_file hroute

/-- Over every run the plane is what the requests with effects lead to, one after the other. No
two of them have the same scope, which holds the method, the path and the key of the request. -/
theorem acts_once (calls : List Event) :
    (run calls).plane =
        Trace.run (fun p e => (act p e).2) Server.new.plane ((effects calls).map Prod.snd) ∧
      ((effects calls).map Prod.snd).Sublist calls ∧ ((effects calls).map Prod.fst).Nodup ∧
      ∀ f ∈ effects calls, readKey f.2.2.idempotencyKey = some f.1.key ∧
        f.1.target = (f.2.2.method, f.2.2.path) := by
  have hpass : ∀ (d : Desk Plane Scope Text Answer) e, service.route d e = .pass →
      (service.act d.state e).2 = d.state := by
    intro d e h
    obtain ⟨m, c⟩ := e
    change route d (m, c) = .pass at h
    change (act d.state (m, c)).2 = d.state
    cases hop : findOp c.method c.path with
    | none => simp [route, hop] at h
    | some found =>
      obtain ⟨name, op⟩ := found
      simp only [act, hop]
      by_cases hmutating : op.mutating = true
      · rw [route_eq d hop, routeFound] at h
        cases hreplayed : replayed d.filed name op c with
        | some scope => simp [hreplayed] at h
        | none =>
          cases hrefusal : refusalOf op d.state m c with
          | some refusal => simp [hreplayed, hrefusal] at h
          | none => cases hkey : readKey c.idempotencyKey <;>
              simp [hreplayed, hrefusal, hmutating, hkey] at h
      · exact logic_readOnly hop (Bool.eq_false_of_not_eq_true hmutating)
  refine ⟨?_, Receiver.sublist_filings service _ calls, ?_, fun f hf => scope_of_effect hf⟩
  · have hstate := congrArg Desk.state (desk_run Server.new calls)
    exact hstate.trans (Receiver.state_run_filings hpass Server.new.desk calls)
  · unfold effects
    rw [Receiver.map_fst_filings]
    exact Receiver.nodup_served rfl calls

/-! ### Repetitions -/

def NotDrawn (token : Text) (calls : List Event) : Prop :=
  ∀ e ∈ calls, e.1.draws 0 ≠ token ∧ e.1.draws 1 ≠ token

theorem NotDrawn.not_mints (h : NotDrawn token calls) (he : e ∈ calls) : ¬ Mints s e token record := by
  intro hmints
  obtain ⟨-, htoken, -⟩ | ⟨-, htoken, -⟩ | ⟨-, htoken, -⟩ := hmints
  · exact (h e he).2 htoken.symm
  · exact (h e he).1 htoken.symm
  · exact (h e he).1 htoken.symm

theorem NotDrawn.lookup_of_run (h : NotDrawn token calls) (howned : Owned s.plane)
    (hfound : (Trace.run step s calls).plane.tokens.lookup token = some record) :
    s.plane.tokens.lookup token = some record := by
  induction calls generalizing s with
  | nil => exact hfound
  | cons e calls ih =>
    have hstep := ih (fun e' he' => h e' (List.mem_cons_of_mem e he')) (owned_step s e howned) hfound
    rcases ((session_change s e.1 e.2).lookup_iff howned).mp hstep with hmints | ⟨-, hfound⟩
    · exact absurd hmints (h.not_mints List.mem_cons_self)
    · exact hfound

theorem NotDrawn.account_eq (h : NotDrawn token calls) (howned : Owned s.plane)
    (htoken : bearerToken c.authorization = some token) {r r' : TokenRecord}
    (hr : bearer s.plane m c.authorization = .ok r)
    (hr' : bearer (Trace.run step s calls).plane m' c.authorization = .ok r') : r' = r := by
  obtain ⟨token₁, htoken₁, hfound, -⟩ := of_bearer hr
  obtain ⟨token₂, htoken₂, hfound', -⟩ := of_bearer hr'
  rw [htoken] at htoken₁ htoken₂
  obtain rfl := Option.some.inj htoken₁
  obtain rfl := Option.some.inj htoken₂
  have hsame := h.lookup_of_run howned hfound'
  rw [hfound] at hsame
  exact (Option.some.inj hsame).symm

theorem handle_of_desk {out : Answer} (h : Receiver.handle service s.desk (m, c) = (out, s.desk)) :
    handle s m c = (out, s) := by
  rw [← handle_eq] at h
  obtain ⟨hanswer, hdesk⟩ := Prod.mk.inj h
  exact Prod.ext hanswer
    (congrArg (fun d : Desk Plane Scope Text Answer => Server.mk d.state d.filed) hdesk)

/-- The scope of a request sent again, unless the request is refused for its bearer. -/
theorem route_again (howned : Owned s.plane) (haccepted : route s.desk (m, c) = .file scope print)
    (hfresh : ∀ token, bearerToken c.authorization = some token →
      NotDrawn token ((m, c) :: between)) :
    route (Trace.run step s ((m, c) :: between)).desk (m', c) = .file scope print ∨
      ∃ name op refusal, findOp c.method c.path = some (name, op) ∧
        selfDestructive.contains name = false ∧
        refusalOf op (Trace.run step s ((m, c) :: between)).plane m' c = some refusal ∧
        route (Trace.run step s ((m, c) :: between)).desk (m', c) = .refuse refusal := by
  have hfiled : ∃ entry,
      (Trace.run step s ((m, c) :: between)).desk.filed.lookup scope = some entry := by
    have haccepted' : service.route s.desk (m, c) = .file scope print := haccepted
    obtain ⟨entry, hentry, -⟩ := Receiver.exists_filed haccepted'
    have hlast := Receiver.lookup_run service hentry between
    rw [← Receiver.run_cons, ← desk_run] at hlast
    exact ⟨entry, hlast⟩
  obtain ⟨entry, hentry⟩ := hfiled
  generalize (m, c) :: between = calls at hentry hfresh ⊢
  obtain ⟨name, op, key, hop, hmutating, hkey, rfl, hscope⟩ := of_file haccepted
  rw [route_eq _ hop, routeFound]
  obtain ⟨hname, token, htoken, rfl⟩ | ⟨hname, hrefusal, rfl⟩ := hscope
  · have hcredential : credentialScope name c = some (.credential token c.method c.path key) := by
      unfold credentialScope
      simp only [if_pos hname, hkey, htoken]
    have hreplayed : replayed (Trace.run step s calls).desk.filed name op c =
        some (.credential token c.method c.path key) := by
      unfold replayed
      simp [if_pos hmutating, hcredential, hentry]
    rw [hreplayed]
    exact .inl rfl
  · have hcredential : credentialScope name c = none := by
      unfold credentialScope
      rw [if_neg (by rw [hname]; exact Bool.false_ne_true)]
    have hreplayed : replayed (Trace.run step s calls).desk.filed name op c = none := by
      unfold replayed
      simp [hcredential]
    rw [hreplayed]
    cases hrefused : refusalOf op (Trace.run step s calls).plane m' c with
    | some refusal =>
      have hrefused' : refusalOf op (Trace.run step s calls).desk.state m' c = some refusal := hrefused
      exact .inr ⟨name, op, refusal, hop, hname, hrefused, by simp only [hrefused']⟩
    | none =>
      have hrefused' : refusalOf op (Trace.run step s calls).desk.state m' c = none := hrefused
      refine .inl ?_
      have haccount : accountOf op (Trace.run step s calls).plane m' c.authorization =
          accountOf op s.plane m c.authorization := by
        by_cases hauth : op.auth = .required
        · have hrefusal' : refusalOf op s.plane m c = none := hrefusal
          obtain ⟨r, hbearer, hr⟩ := bearer_of_refusal hauth hrefusal'
          obtain ⟨r', hbearer', hr'⟩ := bearer_of_refusal hauth hrefused
          obtain ⟨token, htoken, -⟩ := of_bearer hbearer
          rw [hr', hr, (hfresh token htoken).account_eq howned htoken hbearer hbearer']
        · unfold accountOf
          rw [if_neg hauth, if_neg hauth]
      simp only [hrefused', if_pos hmutating, hkey]
      unfold scopeOf
      rw [if_neg (by rw [hname]; exact Bool.false_ne_true)]
      change Route.file (Scope.account ((accountOf op (Trace.run step s calls).plane m'
        c.authorization).getD _) _ _ _) _ = _
      rw [haccount]
      rfl

/-- A request that changes something and passed the checks is answered, when it is sent again at
any time, as it was the first time and without another effect, unless its bearer is refused by then;
a request that ends a session is not refused. No request may draw the presented token again. -/
theorem answer_retry (before between : List Event) (m m' : Moment) (c : Call)
    (haccepted : route (run before).desk (m, c) = .file scope print)
    (hfresh : ∀ token, bearerToken c.authorization = some token →
      NotDrawn token ((m, c) :: between)) :
    handle (run (before ++ (m, c) :: between)) m' c =
        ((handle (run before) m c).1, run (before ++ (m, c) :: between)) ∨
      ∃ name op refusal, findOp c.method c.path = some (name, op) ∧
        selfDestructive.contains name = false ∧
        refusalOf op (run (before ++ (m, c) :: between)).plane m' c = some refusal ∧
        handle (run (before ++ (m, c) :: between)) m' c =
          (refusal, run (before ++ (m, c) :: between)) := by
  have hrun : run (before ++ (m, c) :: between) =
      Trace.run step (run before) ((m, c) :: between) := Trace.run_append _ _
  rw [hrun]
  have hdesk := desk_run (run before) ((m, c) :: between)
  have haccepted' : service.route (run before).desk (m, c) = .file scope print := haccepted
  rcases route_again (owned_run before) haccepted hfresh with
    hroute | ⟨name, op, refusal, hop, hname, hrefusal, hroute⟩
  · left
    apply handle_of_desk
    have hanswer := congrArg Prod.fst (handle_eq (run before) m c)
    rw [hanswer, hdesk]
    rw [hdesk] at hroute
    exact Receiver.answer_repeated haccepted' hroute
  · exact .inr ⟨name, op, refusal, hop, hname, hrefusal,
      handle_of_desk (Receiver.handle_refuse hroute)⟩

def firstMoment : Moment :=
  ⟨fun _ => 0, fun n => if n = 0 then "a".toList else "b".toList, fun t => t + 1⟩

def registration : Call :=
  { method := "POST".toList, path := "/identity/register".toList, authorization := .str []
    idempotencyKey := .str "k".toList
    body := .ofMembers [("email".toList, .str "ada@example.test".toList),
      ("password_hash_client".toList, .str "h0".toList)] }

def momentOf (draw : Text) : Moment := ⟨fun _ => 1, fun _ => draw, fun t => t + 1⟩

/-- A reservation for the account of that registration. -/
def reservation (key : Text) : Call :=
  { method := "POST".toList, path := "/quota/reserve".toList
    authorization := .str "Bearer b".toList, idempotencyKey := .str key
    body := .ofMembers [("operation_kind".toList, .str "analysis".toList),
      ("estimated_units".toList, .int 4), ("hold_seconds".toList, .int 60)] }

def reservations : List Event :=
  [(firstMoment, registration)] ++ (momentOf "c".toList, reservation "r".toList) ::
    [(momentOf "d".toList, reservation "s".toList)]

/-- The first reservation, sent again after the second, is granted as it was. -/
theorem answer_retry_reservation :
    handle (run reservations) (momentOf "e".toList) (reservation "r".toList) =
        ((handle (run [(firstMoment, registration)]) (momentOf "c".toList)
          (reservation "r".toList)).1, run reservations) ∧
      (handle (run reservations) (momentOf "e".toList) (reservation "r".toList)).1.status = 200 := by
  have haccepted : route (run [(firstMoment, registration)]).desk
      (momentOf "c".toList, reservation "r".toList) =
        .file (.account "acct-a".toList "POST".toList "/quota/reserve".toList "r".toList)
          (fingerprint (reservation "r".toList).body) := by
    with_unfolding_all rfl
  have hbearer : (findOp "POST".toList "/quota/reserve".toList).all (fun e =>
      (refusalOf e.2 (run reservations).plane (momentOf "e".toList)
        (reservation "r".toList)).isNone) = true := by
    decide +kernel
  have hfresh : ∀ token, bearerToken (reservation "r".toList).authorization = some token →
      NotDrawn token [(momentOf "c".toList, reservation "r".toList),
        (momentOf "d".toList, reservation "s".toList)] := by
    intro token htoken e he
    obtain rfl := Option.some.inj htoken
    simp only [List.mem_cons, List.not_mem_nil, or_false] at he
    rcases he with rfl | rfl <;> decide
  refine ⟨?_, by decide +kernel⟩
  rcases answer_retry _ [(momentOf "d".toList, reservation "s".toList)] _ (momentOf "e".toList) _
    haccepted hfresh with hagain | ⟨name, op, refusal, hop, -, hrefusal, -⟩
  · exact hagain
  · have hop : findOp "POST".toList "/quota/reserve".toList = some (name, op) := hop
    have hrefusal : refusalOf op (run reservations).plane (momentOf "e".toList)
        (reservation "r".toList) = some refusal := hrefusal
    rw [hop, Option.all_some, hrefusal] at hbearer
    cases hbearer

end Mock
end OpenChess
