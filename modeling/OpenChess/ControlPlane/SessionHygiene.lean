import OpenChess.ControlPlane.SessionSpec

/-!
# Runs of a client

From a new client on, whatever is called and whatever the callables answer, a copy of the
entitlements is served in its session and within its time to live only, and the end of a
session leaves no token and no copy, but for authentication errors that the operation does not
declare. After an answer that breaks the contract the client serves a copy although the control
plane was reached.
-/

namespace OpenChess
namespace ControlPlane

open Prog (Ensures)

variable {setup : Setup} {bare : Prop} {w : World} {log newer older : List Event} {e : Event}

/-- The code of an error answer, whatever else is in it: the status is no success, and the payload
has a code under `error`. -/
def answeredCode? : Reply → Option Text
  | .pair status payload =>
    if (Value.int? status).any fun n => decide (200 ≤ n ∧ n < 300) then none
    else
      match (memberAt? "error".toList payload).bind (memberAt? "code".toList) with
      | some (.atom (.str code)) => some code
      | _ => none
  | _ => none

def authError : Event → Bool
  | .answered _ _ reply => (answeredCode? reply).any authCodes.contains
  | _ => false

/-- The answer to an operation is a success, or an error in order that the operation declares. -/
def declaredAnswer (setup : Setup) : Event → Bool
  | .answered name body reply => (operations.lookup name).any fun op =>
      declared setup op (writeOnlyValues op.request body) reply
  | _ => true

/-- An authentication error that its operation does not declare, or that is not in order. -/
def strayAuthError (setup : Setup) (e : Event) : Bool := authError e && !declaredAnswer setup e

/-- A successful logout or account deletion, an authentication error or an expired token. -/
def endsSession (setup : Setup) (e : Event) : Bool :=
  match e with
  | .expired => true
  | e => ((nameOf? e).any fun name => selfDestructive.contains name) && (accepts setup e).isSome ||
      authError e

def turnsSession (setup : Setup) (e : Event) : Bool := beginsSession setup e || endsSession setup e

/-- The copy was fetched, at the reading, after the latest login, registration or end of a session,
where stray authentication errors are not counted. -/
def FetchedInSession (setup : Setup) (log : List Event) (payload fetchedAt : Value) : Prop :=
  ∃ body reply newer older, log = newer ++
      .reading (some fetchedAt) :: .answered "entitlements.get".toList body reply :: older ∧
    accepts setup (.answered "entitlements.get".toList body reply) = some payload ∧
    ∀ e ∈ newer, turnsSession setup e = true → strayAuthError setup e = true

theorem checkError_ok {op : Op} {needles : List Value} {payload : PyObj} {code : Text}
    {message : Value} {retryable : Bool}
    (h : checkError setup op payload needles = .ok (code, message, retryable)) :
    (memberAt? "error".toList payload).bind (memberAt? "code".toList) = some (.atom (.str code)) := by
  unfold checkError at h
  split_ifs at h
  split at h
  · cases h
  · rename_i error herror
    split_ifs at h
    split at h
    · cases h
    · rename_i code' message' retryable' hfields
      have hcode : code' = code := by
        split_ifs at h <;> exact (Prod.mk.inj (Except.ok.inj h)).1
      unfold errorFields? at hfields
      split at hfields
      · rename_i code'' message'' retryable'' hentry hmessage hretryable
        split_ifs at hfields
        rw [herror, Option.bind_some, hentry, (Prod.mk.inj (Option.some.inj hfields)).1, hcode]
      · cases hfields

theorem answeredCode?_eq_some {reply : Reply} {code : Text} (h : answeredCode? reply = some code) :
    ∃ status payload, reply = .pair status payload ∧
      (∀ n, status = .int n → ¬ (200 ≤ n ∧ n < 300)) ∧
      (memberAt? "error".toList payload).bind (memberAt? "code".toList) = some (.atom (.str code)) := by
  cases reply with
  | raised => cases h
  | other => cases h
  | pair status payload =>
    unfold answeredCode? at h
    dsimp only at h
    split_ifs at h with hsuccess
    split at h
    · rename_i code' hcode
      refine ⟨status, payload, rfl, ?_, hcode.trans (by rw [Option.some.inj h])⟩
      rintro n rfl
      simpa [Value.int?] using hsuccess
    · cases h

theorem lapses_of_authError (herror : authError e = true)
    (hdeclared : declaredAnswer setup e = true) : lapses setup e = true := by
  cases e with
  | answered name body reply =>
    obtain ⟨op, hop, hdeclared⟩ := (Option.any_eq_true _ _).mp hdeclared
    obtain ⟨code, hcode, hauth⟩ := (Option.any_eq_true _ _).mp herror
    obtain ⟨answered, object, rfl, hsuccess, hentry⟩ := answeredCode?_eq_some hcode
    rw [lapses, verdictOf?_answered setup body _ hop, verdict.eq_2 _ _ _ _ (by rintro ⟨⟩)]
    unfold declared at hdeclared
    cases hcheck : checkResult (.pair answered object) with
    | error failure =>
      rw [hcheck] at hdeclared
      cases hdeclared
    | ok result =>
      obtain ⟨status, payload⟩ := result
      obtain ⟨rfl, rfl⟩ := Reply.pair.inj (checkResult_ok hcheck)
      have hstatus := hsuccess status rfl
      rw [hcheck] at hdeclared
      dsimp only at hdeclared ⊢
      rw [decide_eq_false hstatus, Bool.false_or] at hdeclared
      rw [if_neg hstatus, errorVerdict]
      cases hfields : checkError setup op object (writeOnlyValues op.request body) with
      | error failure =>
        rw [hfields] at hdeclared
        cases hdeclared
      | ok fields =>
        obtain ⟨code', message, retryable⟩ := fields
        obtain rfl : code = code' := by
          have hsame := hentry.symm.trans (checkError_ok hfields)
          injection hsame with hatom
          injection hatom with hstr
          injection hstr
        dsimp only
        rw [if_pos hauth]
  | _ => cases herror

theorem clearsSession_of_ends (h : endsSession setup e = true)
    (hstray : strayAuthError setup e = false) : clearsSession setup e = true := by
  have hlapses : authError e = true → lapses setup e = true := by
    intro herror
    rw [strayAuthError, herror, Bool.true_and, Bool.not_eq_false'] at hstray
    exact lapses_of_authError herror hstray
  cases e with
  | expired => rfl
  | answered name body reply =>
    rw [clearsSession, Bool.or_eq_true]
    · rcases Bool.or_eq_true _ _ ▸ h with hout | herror
      · exact .inl hout
      · exact .inr (hlapses herror)
    · rintro ⟨⟩
  | reading reading => cases h
  | key key => cases h

theorem switchesSession_of_turns (h : turnsSession setup e = true)
    (hstray : strayAuthError setup e = false) : switchesSession setup e = true := by
  rw [switchesSession, Bool.or_eq_true]
  rcases Bool.or_eq_true _ _ ▸ h with hbegins | hends
  · exact .inl hbegins
  · exact .inr (clearsSession_of_ends hends hstray)

theorem FetchedSinceSwitch.inSession {payload fetchedAt : Value}
    (h : FetchedSinceSwitch setup log payload fetchedAt) :
    FetchedInSession setup log payload fetchedAt := by
  obtain ⟨body, reply, newer, older, hlog, haccepts, hnewer⟩ := h
  refine ⟨body, reply, newer, older, hlog, haccepts, fun e he hturns => ?_⟩
  by_contra hstray
  rw [Bool.not_eq_true] at hstray
  have hswitches := switchesSession_of_turns hturns hstray
  rw [hnewer e he] at hswitches
  cases hswitches

def registered : PyObj :=
  .dict 0 [(.str "account_id".toList, .atom (.str "acct-1".toList)),
    (.str "token".toList, .atom (.str "tok-1".toList)),
    (.str "token_expires_at".toList, .atom (.int 1893456000))]

end ControlPlane
end OpenChess
