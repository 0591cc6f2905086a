import OpenChess.ControlPlane.Session

/-!
# What a client keeps of its sessions

The log of a client tells where sessions begin and end and where entitlements are fetched.
A cached copy is always one fetched in the session that is on, and without a session there
is no token and no copy. A copy is served after an attempt that failed, unless the clock,
the key factory or the transport broke the contract.
-/

namespace OpenChess
namespace ControlPlane

open Prog (Ensures)

variable (setup : Setup)

/-! ### Sessions of a log -/

def verdictOf? : Event → Option Verdict
  | .answered name body reply => (operations.lookup name).map fun op =>
      verdict setup op (writeOnlyValues op.request body) reply
  | _ => none

def accepts (e : Event) : Option Value :=
  match verdictOf? setup e with
  | some (.accepted payload) => some payload
  | _ => none

/-- The client takes the answer for an authentication error. -/
def lapses (e : Event) : Bool :=
  match verdictOf? setup e with
  | some (.lapsed _) => true
  | _ => false

def nameOf? : Event → Option Text
  | .answered name _ _ => some name
  | _ => none

def beginsSession (e : Event) : Bool := (nameOf? e).any signsIn && (accepts setup e).isSome

/-- What makes the client drop its session. -/
def clearsSession : Event → Bool
  | .expired => true
  | e => ((nameOf? e).any fun name => selfDestructive.contains name) && (accepts setup e).isSome ||
      lapses setup e

def switchesSession (e : Event) : Bool := beginsSession setup e || clearsSession setup e

def InSession (log : List Event) : Prop :=
  (log.find? (switchesSession setup)).any (beginsSession setup) = true

/-- The copy was fetched, at the reading, after the latest switch. -/
def FetchedSinceSwitch (log : List Event) (payload fetchedAt : Value) : Prop :=
  ∃ body reply newer older, log = newer ++
      .reading (some fetchedAt) :: .answered "entitlements.get".toList body reply :: older ∧
    accepts setup (.answered "entitlements.get".toList body reply) = some payload ∧
    ∀ e ∈ newer, switchesSession setup e = false

/-! ### Attempts of a log -/

/-- The transport raised, or answered with a status of at least 500. -/
def failedAnswer : Event → Bool
  | .answered _ _ .raised => true
  | .answered _ _ (.pair (.int status) _) => decide (500 ≤ status)
  | _ => false

def lastFailed (taken : List Event) : Bool :=
  (taken.find? fun e => (nameOf? e).isSome).any failedAnswer

/-- The answer is a pair with a success or with an error that the operation declares. -/
def declared (op : Op) (needles : List Value) (reply : Reply) : Bool :=
  match checkResult reply with
  | .error _ => false
  | .ok (status, payload) =>
    decide (200 ≤ status ∧ status < 300) || (checkError setup op payload needles).isOk

/-- A reading is a number, a key can be used, and an answer is declared or tells of a failure. -/
def conforms : Event → Bool
  | .reading reading => reading.any (itemOk setup.lone .number)
  | .key key => key.any (usableKey setup)
  | .answered name body reply => failedAnswer (.answered name body reply) ||
      (operations.lookup name).any fun op =>
        declared setup op (writeOnlyValues op.request body) reply
  | .expired => true

/-- Something that was taken does not conform, or the last attempt failed. -/
def Excused (taken : List Event) : Prop :=
  (∃ e ∈ taken, conforms setup e = false) ∨ lastFailed taken = true

/-! ### The invariant -/

/-- What holds between two turns of a call; `bare` is for a call that began without a copy. -/
structure Kept (bare : Prop) (w : World) : Prop where
  fetched : ∀ payload fetchedAt, w.client.entitlements = some (payload, fetchedAt) →
    FetchedSinceSwitch setup w.log payload fetchedAt
  signedOut : ¬ InSession setup w.log → w.client.session = none ∧ w.client.entitlements = none
  bare : bare → w.client.entitlements = none

variable {setup} {bare bare' asked asked' : Prop} {w : World} {e : Event} {log : List Event}
  {payload fetchedAt : Value} {f : Client → Client} {failure : Failure}

theorem inSession_cons (h : switchesSession setup e = false) :
    InSession setup (e :: log) ↔ InSession setup log := by
  rw [InSession, List.find?_cons_of_neg (by rw [h]; exact Bool.false_ne_true), InSession]

theorem FetchedSinceSwitch.cons (h : FetchedSinceSwitch setup log payload fetchedAt)
    (he : switchesSession setup e = false) :
    FetchedSinceSwitch setup (e :: log) payload fetchedAt := by
  obtain ⟨body, reply, newer, older, rfl, haccepts, hnewer⟩ := h
  exact ⟨body, reply, e :: newer, older, rfl, haccepts, List.forall_mem_cons.mpr ⟨he, hnewer⟩⟩

theorem Kept.mono (h : Kept setup bare w) (hbare : bare' → bare) : Kept setup bare' w :=
  ⟨h.fetched, h.signedOut, fun hb => h.bare (hbare hb)⟩

/-- The invariant is about the client and the log. -/
theorem Kept.congr {w' : World} (h : Kept setup bare w)
    (hsession : w'.client.session = w.client.session)
    (hcopy : w'.client.entitlements = w.client.entitlements) (hlog : w'.log = w.log) :
    Kept setup bare w' := by
  refine ⟨fun payload fetchedAt hsome => ?_, fun hout => ?_, fun hbare => ?_⟩
  · rw [hlog]
    exact h.fetched payload fetchedAt (hcopy.symm.trans hsome)
  · rw [hlog] at hout
    rw [hsession, hcopy]
    exact h.signedOut hout
  · exact hcopy.trans (h.bare hbare)

theorem Kept.note (h : Kept setup bare w) (he : switchesSession setup e = false) :
    Kept setup bare (w.note e) := by
  refine ⟨fun payload fetchedAt hsome => ?_, fun hout => ?_, h.bare⟩
  · exact (h.fetched payload fetchedAt hsome).cons he
  · exact h.signedOut fun hin => hout ((inSession_cons he).mpr hin)

theorem Kept.inSession (h : Kept setup bare w) {session : Session}
    (hsession : w.client.session = some session) : InSession setup w.log := by
  by_contra hout
  rw [(h.signedOut hout).1] at hsession
  cases hsession

theorem Excused.cons {taken : List Event} (h : Excused setup taken) (he : nameOf? e = none) :
    Excused setup (e :: taken) := by
  rcases h with ⟨e', he', hbad⟩ | hlast
  · exact .inl ⟨e', List.mem_cons_of_mem e he', hbad⟩
  · right
    rw [lastFailed, List.find?_cons_of_neg (by rw [he]; exact Bool.false_ne_true)]
    exact hlast

variable {env : Callables} {name : Text} {op : Op} {body : Value} {reply : Reply}
  {needles : List Value} {error : ControlPlaneError}

theorem Kept.turn (h : Kept setup bare w) (turn : ℕ) : Kept setup bare { w with turn := turn } :=
  h.congr rfl rfl rfl

theorem checkResult_ok {status : ℤ} {payload : PyObj}
    (h : checkResult reply = .ok (status, payload)) : reply = .pair (.int status) payload := by
  unfold checkResult at h
  split at h
  · split_ifs at h
    obtain ⟨rfl, rfl⟩ := Prod.mk.inj (Except.ok.inj h)
    rfl
  · cases h
  · cases h

theorem verdictOf?_answered (setup : Setup) (body : Value) (reply : Reply)
    (hop : operations.lookup name = some op) :
    verdictOf? setup (.answered name body reply) =
      some (verdict setup op (writeOnlyValues op.request body) reply) := by
  rw [verdictOf?, hop, Option.map_some]

/-- What holds before an attempt: an operation with a token has a session. -/
structure Ready (setup : Setup) (bare : Prop) (op : Op) (w : World) : Prop where
  kept : Kept setup bare w
  inSession : op.auth = .required → InSession setup w.log

theorem Ready.note (h : Ready setup bare op w) (he : switchesSession setup e = false) :
    Ready setup bare op (w.note e) :=
  ⟨h.kept.note he, fun hauth => (inSession_cons he).mpr (h.inSession hauth)⟩

def Answered (setup : Setup) (bare : Prop) (name : Text) (op : Op) (body payload : Value)
    (w : World) : Prop :=
  ∃ reply before, Ready setup bare op before ∧ w = before.note (.answered name body reply) ∧
    accepts setup (.answered name body reply) = some payload

/-- What holds after a call that returns; the copy may be new. -/
def Done (setup : Setup) (bare : Prop) (name : Text) (w : World) : Prop :=
  Kept setup (bare ∧ name ≠ "entitlements.get".toList) w ∧
    (name = "identity.refresh".toList → InSession setup w.log)

theorem Done.turn (h : Done setup bare name w) (turn : ℕ) :
    Done setup bare name { w with turn := turn } := ⟨h.1.turn turn, h.2⟩

end ControlPlane
end OpenChess
