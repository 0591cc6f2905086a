import OpenChess.ControlPlane.Operations
import OpenChess.Ingest.Movetext
import OpenChess.Jobs.Json
import OpenChess.Lib.Assoc

/-!
# The reference control plane

Model of `tools/control_plane_mock.py`: one request against the state of the control plane.
The clock and the random texts come with each request. The stored outcomes are apart from the
rest of the state, which the handlers of the operations change.
-/

namespace OpenChess
namespace Mock

open ControlPlane (Fields Spec ItemKind Op get? operations selfDestructive)

/-! ### Requests and answers -/

/-- A request; an absent header reads as the empty string. -/
structure Call where
  method : Text
  path : Text
  authorization : Value
  idempotencyKey : Value
  body : Value

/-- What a request meets: the readings of `time.time()` and the draws of `secrets.token_hex` in
their order, and the float sum of a reading and an hour. -/
structure Moment where
  readings : ℕ → ℚ
  draws : ℕ → Text
  hourAfter : ℚ → ℚ

structure Answer where
  status : ℕ
  payload : Value

/-- `_err`. -/
def err (code message : Text) (retryable : Bool) (status : ℕ) : Answer :=
  ⟨status, .ofMembers [("error".toList, .ofMembers [("code".toList, .str code),
    ("message".toList, .str message), ("retryable".toList, .bool retryable)])]⟩

def findOp (method path : Text) : Option (Text × Op) :=
  operations.find? fun e => e.2.method.text == method && e.2.path == path

def bearerScheme : Text := "Bearer ".toList

/-- `_bearer_token`. -/
def bearerToken (authorization : Value) : Option Text :=
  authorization.text?.bind fun t =>
    if bearerScheme.isPrefixOf t then some (t.drop bearerScheme.length) else none

def readKey (key : Value) : Option Text := key.text?.filter fun t => !t.all Pgn.isSpace

/-- `_fingerprint`. -/
def fingerprint (body : Value) : Text := Json.dumps true body

/-! ### Request validation -/

/-- `_ITEM_OK`. -/
def itemOk : ItemKind → Value → Bool
  | .string, .str _ => true
  | .integer, .int _ => true
  | .number, .int _ => true
  | .number, .float _ _ => true
  | .boolean, .bool _ => true
  | _, _ => false

/-- The check of a value against the type of its field. -/
def typeOk : Spec → Value → Bool
  | .item .string _ _ _, value => value.text?.any fun t => !t.all Pgn.isSpace
  | .item kind _ _ _, value => itemOk kind value
  | .array .., .list _ => true
  | .object .., .dict _ => true
  | _, _ => false

mutual

/-- The check below a value of the right type. -/
def validateBelow (value : Value) (place : Text) : Spec → Option Text
  | .item .. => none
  | .array items _ _ _ =>
    match value with
    | .list values =>
      if values.all (itemOk items) then none else some (place ++ ": wrong item type".toList)
    | _ => none
  | .object fields _ _ => validate value place fields

/-- `_validate`: the first problem. -/
def validate (body : Value) (place : Text) : Fields → Option Text
  | [] => none
  | (name, spec) :: fields =>
    match (get? name body).getD .null with
    | .null =>
      if spec.required then some (place ++ '.' :: name ++ ": required field missing".toList)
      else validate body place fields
    | value =>
      if !typeOk spec value then some (place ++ '.' :: name ++ ": wrong type".toList)
      else
        match validateBelow value (place ++ '.' :: name) spec with
        | some problem => some problem
        | none => validate body place fields

end

/-! ### State -/

structure Account where
  accountId : Text
  password : Text
  deriving DecidableEq, Repr

structure TokenRecord where
  accountId : Text
  expiresAt : ℚ
  deriving DecidableEq, Repr

structure Reservation where
  units : ℤ
  expiresAt : ℤ
  deriving DecidableEq, Repr

/-- What the operations read and change; `keys` holds the provider kinds. -/
structure Plane where
  accounts : List (Text × Account)
  tokens : List (Text × TokenRecord)
  reservations : List (Text × Reservation)
  quotaUnits : ℤ
  keys : List (Text × Text)
  subscription : Option Value

/-- The scope of a stored outcome: the presented credential, or the account. -/
inductive Scope
  | credential (token method path key : Text)
  | account (owner method path key : Text)
  deriving DecidableEq, Repr

/-- `MockControlPlane`. -/
structure Server where
  plane : Plane
  idempotency : List (Scope × Text × Answer)

/-- `__init__`. -/
def Server.new : Server := ⟨⟨[], [], [], 1000, [], none⟩, []⟩

/-- What `_bearer` finds. -/
inductive Bearer
  | missing
  | unknown
  | expired
  | ok (record : TokenRecord)
  deriving DecidableEq, Repr

/-- `_bearer`. -/
def bearer (p : Plane) (m : Moment) (authorization : Value) : Bearer :=
  match bearerToken authorization with
  | none => .missing
  | some token =>
    match p.tokens.lookup token with
    | none => .unknown
    | some record => if record.expiresAt < m.readings 0 then .expired else .ok record

/-! ### Operations -/

def textOf (name : String) (body : Value) : Text := ((get? name.toList body).bind Value.text?).getD []

def intOf (name : String) (body : Value) : ℤ := ((get? name.toList body).bind Value.int?).getD 0

/-- `int` of a float. -/
def truncated (x : ℚ) : ℤ := if 0 ≤ x then ⌊x⌋ else ⌈x⌉

/-- `_mint`, from the n-th reading and the k-th draw: its payload, and the tokens after it. -/
def mint (m : Moment) (n k : ℕ) (accountId : Text) (p : Plane) : List (Text × Value) × Plane :=
  ([("token".toList, .str (m.draws k)),
      ("token_expires_at".toList, .int (truncated (m.readings (n + 1)) + 3600))],
    { p with tokens := Assoc.assign p.tokens (m.draws k) ⟨accountId, m.hourAfter (m.readings n)⟩ })

/-- `_op_identity_register`. -/
def register (m : Moment) (body : Value) (p : Plane) : Answer × Plane :=
  let email := textOf "email" body
  if !email.contains '@' then
    (err "malformed_request".toList "invalid email".toList false 400, p)
  else if (p.accounts.lookup email).isSome then
    (err "conflict".toList "account exists".toList false 409, p)
  else
    let accountId := "acct-".toList ++ m.draws 0
    let account : Account := ⟨accountId, textOf "password_hash_client" body⟩
    let minted := mint m 0 1 accountId { p with accounts := Assoc.assign p.accounts email account }
    (⟨200, .ofMembers (("account_id".toList, .str accountId) :: minted.1)⟩, minted.2)

/-- `_op_identity_login`. -/
def login (m : Moment) (body : Value) (p : Plane) : Answer × Plane :=
  match (p.accounts.lookup (textOf "email" body)).filter
      fun account => account.password == textOf "password_hash_client" body with
  | none => (err "auth_invalid".toList "bad credentials".toList false 401, p)
  | some account =>
    let minted := mint m 0 0 account.accountId p
    (⟨200, .ofMembers (("account_id".toList, .str account.accountId) :: minted.1)⟩, minted.2)

/-- `_op_identity_refresh`; the bearer check takes the first reading. -/
def refresh (m : Moment) (accountId : Text) (p : Plane) : Answer × Plane :=
  let minted := mint m 1 0 accountId p
  (⟨200, .ofMembers minted.1⟩, minted.2)

/-- `_op_identity_logout`. -/
def logout (authorization : Value) (p : Plane) : Answer × Plane :=
  match bearerToken authorization with
  | none => (⟨200, .ofMembers []⟩, p)
  | some token => (⟨200, .ofMembers []⟩, { p with tokens := Assoc.erase p.tokens token })

/-- `_op_identity_delete_account`. -/
def deleteAccount (body : Value) (accountId : Text) (p : Plane) : Answer × Plane :=
  if textOf "confirm" body ≠ "DELETE".toList then
    (err "malformed_request".toList "confirm must be exactly DELETE".toList false 400, p)
  else
    (⟨200, .ofMembers []⟩, { p with
      accounts := p.accounts.filter fun e => decide (e.2.accountId ≠ accountId)
      tokens := p.tokens.filter fun e => decide (e.2.accountId ≠ accountId) })

/-- The payload of `_op_entitlements_get`. -/
def entitlements : Value :=
  .ofMembers [("tier".toList, .str "free".toList),
    ("features".toList, .list [.str "local-analysis".toList]),
    ("cache_ttl_seconds".toList, .int 300),
    ("cost_caps".toList, .ofMembers [("per_request_usd".toList, .float true "0.1".toList),
      ("per_day_usd".toList, .float true "2.0".toList)])]

/-- `_op_quota_reserve`; the bearer check takes the first reading. -/
def reserve (m : Moment) (body : Value) (p : Plane) : Answer × Plane :=
  let units := intOf "estimated_units" body
  if units ≤ 0 ∨ intOf "hold_seconds" body ≤ 0 then
    (err "malformed_request".toList "units and hold must be positive".toList false 400, p)
  else if p.quotaUnits < units then
    (err "quota_exhausted".toList "not enough quota".toList true 429, p)
  else
    let id := "rsv-".toList ++ m.draws 0
    let expires := truncated (m.readings 1) + intOf "hold_seconds" body
    (⟨200, .ofMembers [("reservation_id".toList, .str id), ("granted_units".toList, .int units),
        ("expires_at".toList, .int expires)]⟩,
      { p with quotaUnits := p.quotaUnits - units
               reservations := Assoc.assign p.reservations id ⟨units, expires⟩ })

/-- `_op_quota_commit`. -/
def commit (m : Moment) (body : Value) (p : Plane) : Answer × Plane :=
  let id := textOf "reservation_id" body
  if intOf "actual_units" body < 0 then
    (err "malformed_request".toList "actual_units may not be negative".toList false 400, p)
  else
    match p.reservations.lookup id with
    | none => (err "not_found".toList "unknown reservation".toList false 404, p)
    | some reservation =>
      let p := { p with reservations := Assoc.erase p.reservations id }
      if (reservation.expiresAt : ℚ) < m.readings 1 then
        (err "quota_reservation_expired".toList "reservation expired".toList true 409,
          { p with quotaUnits := p.quotaUnits + reservation.units })
      else
        let left := p.quotaUnits + max 0 (reservation.units - intOf "actual_units" body)
        (⟨200, .ofMembers [("remaining_units".toList, .int left)]⟩, { p with quotaUnits := left })

/-- `_op_quota_release`. -/
def release (body : Value) (p : Plane) : Answer × Plane :=
  let id := textOf "reservation_id" body
  match p.reservations.lookup id with
  | none => (err "not_found".toList "unknown reservation".toList false 404, p)
  | some reservation => (⟨200, .ofMembers []⟩,
      { p with reservations := Assoc.erase p.reservations id
               quotaUnits := p.quotaUnits + reservation.units })

/-- `_op_billing_create_checkout`. -/
def createCheckout (m : Moment) (body : Value) (p : Plane) : Answer × Plane :=
  match ["success_url", "cancel_url"].find? fun field =>
      !"https://".toList.isPrefixOf (textOf field body) with
  | some field =>
    (err "malformed_request".toList (field.toList ++ " must be an https URL".toList) false 400, p)
  | none => (⟨200, .ofMembers
      [("checkout_url".toList, .str ("https://payments.example/checkout/".toList ++ m.draws 0)),
        ("expires_at".toList, .int (truncated (m.readings 1) + 1800))]⟩, p)

/-- `_op_billing_get_subscription`. -/
def getSubscription (p : Plane) : Answer :=
  match p.subscription with
  | none => err "not_found".toList "no subscription".toList false 404
  | some subscription => ⟨200, subscription⟩

/-- `_op_provider_routing_register_key`. -/
def registerKey (m : Moment) (body : Value) (p : Plane) : Answer × Plane :=
  if (textOf "key_material" body).length < 8 then
    (err "provider_key_invalid".toList "key too short".toList false 400, p)
  else
    let ref := "key-".toList ++ m.draws 0
    (⟨200, .ofMembers [("key_ref".toList, .str ref)]⟩,
      { p with keys := Assoc.assign p.keys ref (textOf "provider_kind" body) })

/-- `_op_provider_routing_revoke_key`. -/
def revokeKey (body : Value) (p : Plane) : Answer × Plane :=
  match p.keys.lookup (textOf "key_ref" body) with
  | none => (err "not_found".toList "unknown key_ref".toList false 404, p)
  | some _ => (⟨200, .ofMembers []⟩, { p with keys := Assoc.erase p.keys (textOf "key_ref" body) })

/-- `_op_provider_routing_route`. -/
def routeProvider (p : Plane) : Answer :=
  match (p.keys.insertionSort fun e e' => e.1 ≤ e'.1).head? with
  | some (ref, kind) => ⟨200, .ofMembers [("provider_kind".toList, .str kind),
      ("key_ref".toList, .str ref), ("estimated_cost_usd".toList, .float true "0.0".toList)]⟩
  | none => ⟨200, .ofMembers [("provider_kind".toList, .str "platform".toList),
      ("estimated_cost_usd".toList, .float true "0.02".toList)]⟩

/-- The handlers, by the name of the operation. -/
def perform (name : Text) (m : Moment) (authorization body : Value) (accountId : Text)
    (p : Plane) : Answer × Plane :=
  if name = "identity.register".toList then register m body p
  else if name = "identity.login".toList then login m body p
  else if name = "identity.refresh".toList then refresh m accountId p
  else if name = "identity.logout".toList then logout authorization p
  else if name = "identity.delete_account".toList then deleteAccount body accountId p
  else if name = "entitlements.get".toList then (⟨200, entitlements⟩, p)
  else if name = "quota.reserve".toList then reserve m body p
  else if name = "quota.commit".toList then commit m body p
  else if name = "quota.release".toList then release body p
  else if name = "billing.create_checkout".toList then createCheckout m body p
  else if name = "billing.get_subscription".toList then (getSubscription p, p)
  else if name = "provider_routing.register_key".toList then registerKey m body p
  else if name = "provider_routing.revoke_key".toList then revokeKey body p
  else (routeProvider p, p)

/-- The account of a request; a public operation has none. -/
def accountOf (op : Op) (p : Plane) (m : Moment) (authorization : Value) : Option Text :=
  if op.auth = .required then
    match bearer p m authorization with
    | .ok record => some record.accountId
    | _ => none
  else none

/-- `_logic`. -/
def logic (name : Text) (op : Op) (m : Moment) (c : Call) (p : Plane) : Answer × Plane :=
  match validate c.body name op.request with
  | some problem => (err "malformed_request".toList problem false 400, p)
  | none => perform name m c.authorization c.body ((accountOf op p m c.authorization).getD []) p

def Bearer.refusal : Bearer → Option Answer
  | .missing => some (err "auth_invalid".toList "bearer token missing".toList false 401)
  | .unknown => some (err "auth_invalid".toList "bearer token unknown".toList false 401)
  | .expired => some (err "auth_expired".toList "bearer token expired".toList false 401)
  | .ok _ => none

def refusalOf (op : Op) (p : Plane) (m : Moment) (c : Call) : Option Answer :=
  if op.auth = .required then (bearer p m c.authorization).refusal else none

def idempotencyConflict : Answer :=
  err "idempotency_conflict".toList "same Idempotency-Key with a different body".toList false 409

def replay (prior : Text × Answer) (body : Value) : Answer :=
  if prior.1 = fingerprint body then prior.2 else idempotencyConflict

/-- The outcome of a self-destructive operation stored for the presented credential. -/
def priorByCredential (s : Server) (name : Text) (c : Call) : Option (Text × Answer) :=
  if selfDestructive.contains name then
    match readKey c.idempotencyKey, bearerToken c.authorization with
    | some key, some token => s.idempotency.lookup (.credential token c.method c.path key)
    | _, _ => none
  else none

/-- The scope of a request that changes something. -/
def scopeOf (name : Text) (op : Op) (m : Moment) (c : Call) (p : Plane) (key : Text) : Scope :=
  if selfDestructive.contains name then
    .credential ((bearerToken c.authorization).getD []) c.method c.path key
  else .account ((accountOf op p m c.authorization).getD "public".toList) c.method c.path key

/-- `handle`. -/
def handle (s : Server) (m : Moment) (c : Call) : Answer × Server :=
  match findOp c.method c.path with
  | none => (err "malformed_request".toList "unknown operation".toList false 404, s)
  | some (name, op) =>
    match if op.mutating then priorByCredential s name c else none with
    | some prior => (replay prior c.body, s)
    | none =>
      match refusalOf op s.plane m c with
      | some refusal => (refusal, s)
      | none =>
        if op.mutating then
          match readKey c.idempotencyKey with
          | none => (err "malformed_request".toList "Idempotency-Key header required".toList false
              400, s)
          | some key =>
            let scope := scopeOf name op m c s.plane key
            match s.idempotency.lookup scope with
            | some prior => (replay prior c.body, s)
            | none =>
              let done := logic name op m c s.plane
              (done.1, ⟨done.2, s.idempotency ++ [(scope, fingerprint c.body, done.1)]⟩)
        else
          let done := logic name op m c s.plane
          (done.1, { s with plane := done.2 })

end Mock
end OpenChess
