import OpenChess.ControlPlane.Operations
import OpenChess.ControlPlane.Projection
import OpenChess.Ingest.Movetext
import OpenChess.Lib.Assoc
import OpenChess.Lib.Triple

/-!
# Sessions of the client

Model of `ControlPlaneClient` of `server/control_plane_client.py`: its calls, the session,
the cached entitlements and the reservations. The clock, the key factory, the transport and
the ledger answer anything at any turn. What a call took from them is kept in a log, which
the client does not read. The `log` seam changes no outcome and is left out.
-/

namespace OpenChess
namespace ControlPlane

/-! ### The parties -/

/-- `ControlPlaneError`. -/
structure ControlPlaneError where
  code : Text
  message : Value
  retryable : Bool
  status : Option ℤ

/-- `_fail`. -/
def refused (code message : String) (status : Option ℤ) : ControlPlaneError :=
  ⟨code.toList, .str message.toList, false, status⟩

/-- How a call fails: typed, by the refusal of a ledger, or by another exception. -/
inductive Failure
  | typed (error : ControlPlaneError)
  | refusal
  | escaped

/-- What a transport is called with; the header `Authorization` carries the token. -/
structure Request where
  method : Method
  path : Text
  authorization : Option Value
  idempotencyKey : Option Value
  body : Value

/-- What a transport does: it raises, returns a pair, or returns anything else. -/
inductive Reply
  | raised
  | pair (status : Value) (payload : PyObj)
  | other

/-- What an event tells; the outcome is `failed` where there is an error code. -/
structure OperationEvent where
  operation : Text
  errorCode : Option Text

/-- The callables of a client: what they answer at each turn of a call. -/
structure Callables where
  clock : ℕ → Option Value
  keyFactory : ℕ → Option Value
  transport : ℕ → Request → Reply
  publish : ℕ → OperationEvent → Bool

/-- The options of a client, and the interpreter's strings and floats: `foreign` is the search
in strings with lone surrogates, `float` the number a finite float is, and `floatMinus` the
difference of two numbers that are not both integers. -/
structure Setup where
  lone : ℕ → Bool
  foreign : Value → Value → Bool
  float : Text → ℚ
  floatMinus : Value → Value → Option Value
  maxAttempts : ℕ
  attempts_bounds : 1 ≤ maxAttempts ∧ maxAttempts ≤ 10
  skew : ℕ
  eventLedger : Bool

/-- `token` and `token_expires_at`, which are held and dropped together. -/
structure Session where
  token : Value
  expiresAt : ℤ

inductive Origin
  | live
  | cache
  | free
  deriving DecidableEq, Repr

structure Client where
  session : Option Session
  accountId : Option Value
  entitlements : Option (Value × Value)
  entitlementsSource : Option Origin
  reservations : List (Scalar × ℤ)

/-- `__init__`. -/
def Client.new : Client := ⟨none, none, none, none, []⟩

/-- What a call takes from its callables, and the expiry of a token it notices. -/
inductive Event
  | reading (now : Option Value)
  | key (key : Option Value)
  | answered (name : Text) (body : Value) (reply : Reply)
  | expired

/-- A client in the middle of a call, with the log of the call and that of earlier calls,
the latest first. -/
structure World where
  client : Client
  taken : List Event
  earlier : List Event
  turn : ℕ

def World.log (w : World) : List Event := w.taken ++ w.earlier

def World.note (w : World) (e : Event) : World :=
  { w with taken := e :: w.taken, turn := w.turn + 1 }

def World.update (w : World) (f : Client → Client) : World := { w with client := f w.client }

abbrev Run := Prog World Failure

def note (e : Event) : Run Unit := modify fun w => w.note e

def update (f : Client → Client) : Run Unit := modify fun w => w.update f

/-! ### Numbers -/

variable (setup : Setup) (env : Callables)

/-- `value < n`. -/
def below : Value → ℤ → Bool
  | .int m, n => decide (m < n)
  | .float true t, n => decide (setup.float t < n)
  | .float false t, _ => decide (t = "-inf".toList)
  | _, _ => false

/-- `m - n`. -/
def minus : Value → Value → Option Value
  | .int m, .int n => some (.int (m - n))
  | m, n => setup.floatMinus m n

/-- `now - fetched_at < payload[TTL_FIELD]`. -/
def withinTtl (now fetchedAt payload : Value) : Option Bool :=
  match minus setup now fetchedAt, (get? ttlField payload).bind Value.int? with
  | some age, some ttl => some (below setup age ttl)
  | _, _ => none

/-- The key is an exact string that is not blank. -/
def usableKey : Value → Bool
  | .str t => !t.all Pgn.isSpace
  | key => isStr setup.lone key

/-! ### Answers -/

/-- `_exact_keys`. -/
def exactKeys (lone : ℕ → Bool) : PyObj → Bool
  | .dict _ entries => entries.all fun e => isKey lone e.1
  | _ => false

/-- `payload.get(name)`. -/
def memberAt? (name : Text) : PyObj → Option PyObj
  | .dict _ entries => entries.lookup (.str name)
  | _ => none

/-- `_check_result`. -/
def checkResult : Reply → Except ControlPlaneError (ℤ × PyObj)
  | .pair (.int status) (.dict id entries) =>
    if 100 ≤ status ∧ status ≤ 599 then .ok (status, .dict id entries)
    else .error (refused "internal" "transport result has a bad status or payload" none)
  | .pair _ _ => .error (refused "internal" "transport result has a bad status or payload" none)
  | _ => .error (refused "internal" "transport result is not a (status, payload) pair" none)

/-- The fields of an error, with their types and the codes checked. -/
def errorFields? (op : Op) (error : PyObj) : Option (Text × PyObj × Bool) :=
  match memberAt? "code".toList error, memberAt? "message".toList error,
    memberAt? "retryable".toList error with
  | some (.atom (.str code)), some message, some (.atom (.bool retryable)) =>
    if codes.contains code && op.errors.contains code && isStr setup.lone message.content then
      some (code, message, retryable)
    else none
  | _, _, _ => none

/-- `_check_error`. -/
def checkError (op : Op) (payload : PyObj) (needles : List Value) :
    Except ControlPlaneError (Text × Value × Bool) :=
  if !exactKeys setup.lone payload then
    .error (refused "internal" "error response has a non-plain key" none)
  else
    match memberAt? "error".toList payload with
    | none => .error (refused "internal" "error response without a plain error object" none)
    | some error =>
      if !exactKeys setup.lone error then
        .error (refused "internal" "error response without a plain error object" none)
      else
        match errorFields? setup op error with
        | none => .error (refused "internal" "error response violates the contract" none)
        | some (code, message, retryable) =>
          if contains setup.lone setup.foreign secretNames message needles then
            .ok (code, .str "redacted".toList, retryable)
          else .ok (code, message.content, retryable)

/-- What an attempt comes to: a payload, an error that is raised, with the session cleared or
not, or an error after which there is another attempt. -/
inductive Verdict
  | accepted (payload : Value)
  | refused (error : ControlPlaneError)
  | lapsed (error : ControlPlaneError)
  | again (error : ControlPlaneError)

def errorVerdict (op : Op) (needles : List Value) (status : ℤ) (payload : PyObj) : Verdict :=
  match checkError setup op payload needles with
  | .error e => .refused e
  | .ok (code, message, retryable) =>
    if authCodes.contains code then .lapsed ⟨code, message, false, some status⟩
    else if !retryable then .refused ⟨code, message, false, some status⟩
    else .again ⟨code, message, true, some status⟩

/-- The body of the loop of `_send`, after the transport. -/
def verdict (op : Op) (needles : List Value) : Reply → Verdict
  | .raised => .again ⟨"internal".toList, .str "control plane unreachable".toList, true, none⟩
  | reply =>
    match checkResult reply with
    | .error e => .refused e
    | .ok (status, payload) =>
      if 200 ≤ status ∧ status < 300 then
        if !valid setup.lone false payload.content op.response ||
            contains setup.lone setup.foreign secretNames payload needles then
          .refused (refused "internal" "response violates the contract" (some status))
        else .accepted (project payload.content op.response)
      else errorVerdict setup op needles status payload

/-! ### Calls -/

/-- `_now`. -/
def now : Run Value := do
  let w ← get
  note (.reading (env.clock w.turn))
  match env.clock w.turn with
  | none => throw (.typed (refused "internal" "clock failed" none))
  | some reading =>
    if itemOk setup.lone .number reading then pure reading
    else throw (.typed (refused "internal" "clock returned a non-number" none))

/-- `_clear_session`. -/
def clearSession (c : Client) : Client := { c with session := none, entitlements := none }

/-- `_ensure_token`; `refresh` is the call of `identity.refresh`. -/
def ensureToken (refresh : Run Value) (name : Text) : Run Unit := do
  let w ← get
  match w.client.session with
  | none => throw (.typed (refused "auth_invalid" "no bearer token held" (some 401)))
  | some session => do
    let reading ← now setup env
    if !below setup reading session.expiresAt then do
      note .expired
      update clearSession
      throw (.typed (refused "auth_expired" "bearer token expired" (some 401)))
    else if name ≠ "identity.refresh".toList ∧
        below setup reading (session.expiresAt - setup.skew) = false then do
      let _ ← refresh
      pure ()
    else pure ()

def textKey? (name : String) (body : Value) : Option Scalar :=
  match get? name.toList body with
  | some (.str t) => some (.str t)
  | some (.foreign tag) => some (.foreign tag)
  | _ => none

/-- `_reservation_shortcut`. -/
def reservationShortcut (name : Text) (body : Value) : Run (Option Value) :=
  if name = "quota.commit".toList ∨ name = "quota.release".toList then
    match textKey? "reservation_id" body with
    | none => throw .escaped
    | some id => do
      let w ← get
      match w.client.reservations.lookup id with
      | none => pure none
      | some expiresAt => do
        let reading ← now setup env
        if below setup reading expiresAt then pure none
        else do
          update fun c => { c with reservations := Assoc.erase c.reservations id }
          if name = "quota.release".toList then pure (some (.dict []))
          else throw (.typed (refused "quota_reservation_expired"
            "reservation expired; treated as released" none))
  else pure none

/-- What the transport is called with; `_headers` included. -/
def request (op : Op) (key : Option Value) (body : Value) (c : Client) : Request :=
  { method := op.method, path := op.path
    authorization := if op.auth = .required then c.session.map Session.token else none
    idempotencyKey := key, body := body }

/-- The loop of `_send`; `last` is the error of the last attempt. -/
def attempts (name : Text) (op : Op) (body : Value) (key : Option Value) :
    ℕ → Option ControlPlaneError → Run Value
  | 0, none => throw .escaped
  | 0, some last => throw (.typed last)
  | n + 1, _ => do
    let w ← get
    let reply := env.transport w.turn (request op key body w.client)
    note (.answered name body reply)
    match verdict setup op (writeOnlyValues op.request body) reply with
    | .accepted payload => pure payload
    | .refused e => throw (.typed e)
    | .lapsed e => do
      update clearSession
      throw (.typed e)
    | .again e => attempts name op body key n (some e)

/-- The key of a call of an operation that changes something. -/
def freshKey : Run Value := do
  let w ← get
  note (.key (env.keyFactory w.turn))
  match env.keyFactory w.turn with
  | none => throw (.typed (refused "internal" "key factory failed" none))
  | some key =>
    if usableKey setup key then pure key
    else throw (.typed (refused "internal" "key factory returned an unusable key" none))

/-- `_send`. -/
def send (name : Text) (op : Op) (body : Value) : Run Value :=
  if op.mutating then do
    let key ← freshKey setup env
    attempts setup env name op body (some key) setup.maxAttempts none
  else attempts setup env name op body none setup.maxAttempts none

def session? (payload : Value) : Option Session :=
  match get? "token".toList payload, (get? "token_expires_at".toList payload).bind Value.int? with
  | some token, some expiresAt => some ⟨token, expiresAt⟩
  | _, _ => none

def signsIn (name : Text) : Bool :=
  decide (name = "identity.register".toList ∨ name = "identity.login".toList)

/-- `_after_success`. -/
def afterSuccess (name : Text) (body payload : Value) : Run Unit :=
  if signsIn name then
    match get? "account_id".toList payload, session? payload with
    | some accountId, some session => update fun c =>
        { c with accountId := some accountId, session := some session, entitlements := none }
    | _, _ => throw .escaped
  else if name = "identity.refresh".toList then
    match session? payload with
    | some session => update fun c => { c with session := some session }
    | none => throw .escaped
  else if selfDestructive.contains name then
    update fun c => { clearSession c with accountId := none, reservations := [] }
  else if name = "entitlements.get".toList then do
    let reading ← now setup env
    update fun c => { c with entitlements := some (payload, reading) }
  else if name = "quota.reserve".toList then
    match textKey? "reservation_id" payload, (get? expiryField payload).bind Value.int? with
    | some id, some expiresAt => update fun c =>
        { c with reservations := Assoc.assign c.reservations id expiresAt }
    | _, _ => throw .escaped
  else if name = "quota.commit".toList ∨ name = "quota.release".toList then
    match textKey? "reservation_id" body with
    | some id => update fun c => { c with reservations := Assoc.erase c.reservations id }
    | none => throw .escaped
  else pure ()

/-- `_record_event`. -/
def recordEvent (name : Text) (errorCode : Option Text) : Run Unit :=
  if setup.eventLedger then do
    let w ← get
    modify fun w => { w with turn := w.turn + 1 }
    if env.publish w.turn ⟨name, errorCode⟩ then pure () else throw .refusal
  else pure ()

/-- A typed failure is recorded before it is raised again. -/
def recorded {A : Type} (name : Text) (x : Run A) : Run A :=
  tryCatch x fun
    | .typed e => do
      recordEvent setup env name (some e.code)
      throw (.typed e)
    | failure => throw failure

def preflight (ensure : Text → Run Unit) (name : Text) (op : Op) : Run Unit :=
  if op.auth = .required then ensure name else pure ()

/-- The body of `call` after the checks of the request. -/
def execute (ensure : Text → Run Unit) (name : Text) (op : Op) (body : Value) : Run Value := do
  let early ← recorded setup env name do
    let early ← reservationShortcut setup env name body
    if early.isSome then do
      recordEvent setup env name none
      pure early
    else pure early
  match early with
  | some payload => pure payload
  | none => do
    preflight ensure name op
    let payload ← recorded setup env name do
      let payload ← send setup env name op body
      afterSuccess setup env name body payload
      pure payload
    recordEvent setup env name none
    pure payload

/-- `call`, by the check of the token. -/
def callWith (ensure : Text → Run Unit) (name body : Value) : Run Value :=
  match operation? name with
  | none => throw (.typed (refused "malformed_request" "unknown operation" none))
  | some (name, op) =>
    let body := if body.isNull then .dict [] else body
    if valid setup.lone true body op.request then execute setup env ensure name op body
    else throw (.typed (refused "malformed_request" "request does not match the contract" none))

/-- The call of `identity.refresh` in `_ensure_token`; it does not call itself again. -/
def refresh : Run Value :=
  callWith setup env (ensureToken setup env (throw .escaped)) (.str "identity.refresh".toList) .null

/-- `call`. -/
def call (name body : Value) : Run Value :=
  callWith setup env (ensureToken setup env (refresh setup env)) name body

/-- `_unreachable`. -/
def unreachable (e : ControlPlaneError) : Bool :=
  !authCodes.contains e.code && e.status.all fun status => decide (500 ≤ status)

def setSource (origin : Origin) : Run Unit :=
  update fun c => { c with entitlementsSource := some origin }

/-- The handler of `entitlements`. -/
def degrade (e : ControlPlaneError) : Run Value :=
  if unreachable e then do
    let reading ← now setup env
    let w ← get
    match w.client.entitlements with
    | none => do
      setSource .free
      pure freeTier
    | some (payload, fetchedAt) =>
      match withinTtl setup reading fetchedAt payload with
      | none => throw .escaped
      | some true => do
        setSource .cache
        pure payload
      | some false => do
        setSource .free
        pure freeTier
  else throw (.typed e)

/-- `entitlements`. -/
def entitlements : Run Value :=
  tryCatch
    (do
      let payload ← call setup env (.str "entitlements.get".toList) .null
      setSource .live
      pure payload)
    fun
      | .typed e => degrade setup env e
      | failure => throw failure

/-! ### Sequences of calls -/

inductive Action
  | call (name body : Value)
  | entitlements

def perform : Action → Run Value
  | .call name body => call setup env name body
  | .entitlements => entitlements setup env

def step (w : World) (s : Callables × Action) : Except Failure Value × World :=
  (perform setup s.1 s.2).exec { client := w.client, taken := [], earlier := w.log, turn := 0 }

def runAll (steps : List (Callables × Action)) : World :=
  steps.foldl (fun w s => (step setup w s).2) ⟨Client.new, [], [], 0⟩

end ControlPlane
end OpenChess
