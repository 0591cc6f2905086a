import OpenChess.ControlPlane.Mock
import OpenChess.Lib.Receiver

/-!
# What one request does

The reference control plane is a receiver that remembers its answers. What an operation does
to the plane is one of a few changes, each with what was checked before it.
-/

namespace OpenChess
namespace Mock

open ControlPlane (Op selfDestructive operations)
open Receiver (Desk Route Service)

/-- A request together with what it meets. -/
abbrev Event := Moment × Call

variable {s : Server} {p p' : Plane} {m : Moment} {c : Call} {e : Event} {name : Text} {op : Op}
  {out : Answer} {account : Text} {body : Value}

/-! ### The receiver -/

def Server.desk (s : Server) : Desk Plane Scope Text Answer := ⟨s.plane, s.idempotency⟩

def credentialScope (name : Text) (c : Call) : Option Scope :=
  if selfDestructive.contains name then
    match readKey c.idempotencyKey, bearerToken c.authorization with
    | some key, some token => some (.credential token c.method c.path key)
    | _, _ => none
  else none

/-- The scope of the presented credential, where an outcome is stored for it. -/
def replayed (filed : List (Scope × Text × Answer)) (name : Text) (op : Op) (c : Call) :
    Option Scope :=
  (if op.mutating then credentialScope name c else none).filter fun scope =>
    (filed.lookup scope).isSome

/-- What becomes of a request before its operation, once that is found. -/
def routeFound (d : Desk Plane Scope Text Answer) (name : Text) (op : Op) (m : Moment) (c : Call) :
    Route Scope Text Answer :=
  match replayed d.filed name op c with
  | some scope => .file scope (fingerprint c.body)
  | none =>
    match refusalOf op d.state m c with
    | some refusal => .refuse refusal
    | none =>
      if op.mutating then
        match readKey c.idempotencyKey with
        | none => .refuse (err "malformed_request".toList "Idempotency-Key header required".toList
            false 400)
        | some key => .file (scopeOf name op m c d.state key) (fingerprint c.body)
      else .pass

/-- What becomes of a request before its operation. -/
def route (d : Desk Plane Scope Text Answer) (e : Event) : Route Scope Text Answer :=
  match findOp e.2.method e.2.path with
  | none => .refuse (err "malformed_request".toList "unknown operation".toList false 404)
  | some (name, op) => routeFound d name op e.1 e.2

def act (p : Plane) (e : Event) : Answer × Plane :=
  match findOp e.2.method e.2.path with
  | none => (err "malformed_request".toList "unknown operation".toList false 404, p)
  | some (name, op) => logic name op e.1 e.2 p

def service : Service Plane Event Scope Text Answer := ⟨route, act, idempotencyConflict⟩

theorem priorByCredential_eq (s : Server) (name : Text) (c : Call) :
    priorByCredential s name c = (credentialScope name c).bind fun scope =>
      s.idempotency.lookup scope := by
  unfold priorByCredential credentialScope
  split_ifs
  · cases readKey c.idempotencyKey with
    | none => rfl
    | some key => cases bearerToken c.authorization <;> rfl
  · rfl

theorem of_replayed {filed : List (Scope × Text × Answer)} {scope : Scope}
    (h : replayed filed name op c = some scope) : op.mutating = true ∧
      credentialScope name c = some scope ∧ ∃ prior, filed.lookup scope = some prior := by
  unfold replayed at h
  obtain ⟨hscope, hfiled⟩ := Option.filter_eq_some_iff.mp h
  split_ifs at hscope with hmutating
  exact ⟨hmutating, hscope, Option.isSome_iff_exists.mp hfiled⟩

theorem not_replayed {filed : List (Scope × Text × Answer)} (hmutating : op.mutating = true)
    (h : replayed filed name op c = none) {scope : Scope}
    (hscope : credentialScope name c = some scope) : filed.lookup scope = none := by
  unfold replayed at h
  rw [if_pos hmutating, hscope, Option.filter_some] at h
  split_ifs at h with hfiled
  exact Option.not_isSome_iff_eq_none.mp hfiled

theorem prior_eq (s : Server) (name : Text) (op : Op) (c : Call) :
    (if op.mutating then priorByCredential s name c else none) =
      (replayed s.idempotency name op c).bind fun scope => s.idempotency.lookup scope := by
  cases hscope : replayed s.idempotency name op c with
  | some scope =>
    obtain ⟨hmutating, hscope, -⟩ := of_replayed hscope
    rw [if_pos hmutating, priorByCredential_eq, hscope]
  | none =>
    by_cases hmutating : op.mutating = true
    · rw [if_pos hmutating, priorByCredential_eq]
      cases hcredential : credentialScope name c with
      | none => rfl
      | some scope => exact not_replayed hmutating hscope hcredential
    · rw [if_neg hmutating]
      rfl

theorem route_eq (d : Desk Plane Scope Text Answer)
    (hop : findOp c.method c.path = some (name, op)) :
    route d (m, c) = routeFound d name op m c := by
  simp only [route, hop]

/-- A request is handled as the receiver handles it. -/
theorem handle_eq (s : Server) (m : Moment) (c : Call) :
    ((handle s m c).1, (handle s m c).2.desk) = Receiver.handle service s.desk (m, c) := by
  cases hop : findOp c.method c.path with
  | none =>
    have hroute : route s.desk (m, c) = .refuse (err "malformed_request".toList
        "unknown operation".toList false 404) := by simp only [route, hop]
    rw [Receiver.handle_refuse hroute]
    simp only [handle, hop]
  | some found =>
    obtain ⟨name, op⟩ := found
    have hroute : route s.desk (m, c) = routeFound s.desk name op m c := route_eq s.desk hop
    unfold routeFound at hroute
    have hact : act s.plane (m, c) = logic name op m c s.plane := by simp only [act, hop]
    unfold handle
    simp only [hop, prior_eq]
    cases hreplayed : replayed s.idempotency name op c with
    | some scope =>
      obtain ⟨-, -, prior, hprior⟩ := of_replayed hreplayed
      have hreplayed' : replayed s.desk.filed name op c = some scope := hreplayed
      rw [hreplayed'] at hroute
      rw [Receiver.handle_filed hroute hprior]
      simp only [Option.bind_some, hprior]
      rfl
    | none =>
      have hreplayed' : replayed s.desk.filed name op c = none := hreplayed
      rw [hreplayed'] at hroute
      simp only [Option.bind_none]
      cases hrefusal : refusalOf op s.plane m c with
      | some refusal =>
        have hrefusal' : refusalOf op s.desk.state m c = some refusal := hrefusal
        rw [hrefusal'] at hroute
        rw [Receiver.handle_refuse hroute]
      | none =>
        have hrefusal' : refusalOf op s.desk.state m c = none := hrefusal
        rw [hrefusal'] at hroute
        by_cases hmutating : op.mutating = true
        · simp only [if_pos hmutating] at hroute ⊢
          cases hkey : readKey c.idempotencyKey with
          | none =>
            rw [hkey] at hroute
            rw [Receiver.handle_refuse hroute]
          | some key =>
            rw [hkey] at hroute
            cases hprior : s.idempotency.lookup (scopeOf name op m c s.plane key) with
            | some prior =>
              rw [Receiver.handle_filed hroute hprior]
              simp only [hprior]
              rfl
            | none =>
              rw [Receiver.handle_new hroute hprior]
              simp only [hprior]
              change _ = ((act s.plane (m, c)).1, _)
              rw [← hact]
              rfl
        · simp only [if_neg hmutating] at hroute ⊢
          rw [Receiver.handle_pass hroute]
          change _ = ((act s.plane (m, c)).1, _)
          rw [← hact]
          rfl

/-! ### Runs -/

def step (s : Server) (e : Event) : Server := (handle s e.1 e.2).2

def run (calls : List Event) : Server := Trace.run step Server.new calls

def reaches (s : Server) (e : Event) : Bool := (Receiver.serves service s.desk e).isSome

theorem desk_run (s : Server) (calls : List Event) :
    (Trace.run step s calls).desk = Receiver.run service s.desk calls := by
  induction calls generalizing s with
  | nil => rfl
  | cons e calls ih =>
    have hstep : (step s e).desk = (Receiver.handle service s.desk e).2 :=
      congrArg Prod.snd (handle_eq s e.1 e.2)
    rw [Receiver.run_cons, ← hstep]
    exact ih (step s e)

/-- A request leaves the plane as it is, or it reaches its operation, which the answer and the
plane come from. -/
theorem step_cases (s : Server) (e : Event) :
    reaches s e = false ∧ step s e = s ∨
    reaches s e = true ∧ (handle s e.1 e.2).1 = (act s.plane e).1 ∧
      (step s e).plane = (act s.plane e).2 := by
  have hanswer := congrArg Prod.fst (handle_eq s e.1 e.2)
  have hdesk := congrArg Prod.snd (handle_eq s e.1 e.2)
  rcases Receiver.handle_cases service s.desk e with
    ⟨hserves, hd⟩ | ⟨hserves, -, hout⟩ | ⟨_, _, hserves, -, -, hout⟩
  · refine .inl ⟨by simp [reaches, hserves], ?_⟩
    have hsame : (step s e).desk = s.desk := hdesk.trans hd
    exact congrArg (fun d : Desk Plane Scope Text Answer => Server.mk d.state d.filed) hsame
  all_goals
    rw [hout] at hanswer hdesk
    exact .inr ⟨by simp [reaches, hserves], hanswer, congrArg Desk.state hdesk⟩

end Mock
end OpenChess
