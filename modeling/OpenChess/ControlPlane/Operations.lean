import OpenChess.ControlPlane.Versioning

/-!
# Payload checks of the client

Model of `_valid` of `server/control_plane_client.py`: the exact types of a payload are
checked against declared fields. The request side refuses undeclared keys, and the
response side ignores them.
-/

namespace OpenChess
namespace ControlPlane

/-- `_TYPE_OK`, for the types of items. -/
def itemOk (lone : ℕ → Bool) : ItemKind → Value → Bool
  | .string, v => isStr lone v
  | .integer, .int _ => true
  | .number, .int _ => true
  | .number, .float finite _ => finite
  | .boolean, .bool _ => true
  | _, _ => false

/-- The check of a key; a closed payload has declared keys only. -/
def keyOk (lone : ℕ → Bool) (closed : Bool) (fields : Fields) (key : Scalar) : Bool :=
  isKey lone key && (!closed || fields.any fun f => key == .str f.1)

mutual

/-- The check of a value against the declaration of its field. -/
def validSpec (lone : ℕ → Bool) (closed : Bool) (value : Value) : Spec → Bool
  | .item kind _ _ _ => itemOk lone kind value
  | .array items _ _ _ =>
    match value with
    | .list values => values.all (itemOk lone items)
    | _ => false
  | .object fields _ _ =>
    match value with
    | .dict entries => decide (entries.map Prod.fst).Nodup &&
        entries.all (fun e => keyOk lone closed fields e.1) &&
        validFields lone closed entries fields
    | _ => false

/-- The loop over the declared fields. -/
def validFields (lone : ℕ → Bool) (closed : Bool) (entries : List (Scalar × Value)) :
    Fields → Bool
  | [] => true
  | (name, spec) :: fields =>
    (match entries.lookup (.str name) with
      | none => !spec.required
      | some value => validSpec lone closed value spec) && validFields lone closed entries fields

end

/-- `_valid`. The keys of a dictionary are distinct. -/
def valid (lone : ℕ → Bool) (closed : Bool) (payload : Value) (fields : Fields) : Bool :=
  match payload with
  | .dict entries => decide (entries.map Prod.fst).Nodup &&
      entries.all (fun e => keyOk lone closed fields e.1) && validFields lone closed entries fields
  | _ => false

theorem validSpec_object (lone : ℕ → Bool) (closed : Bool) (value : Value) (fields : Fields)
    (required writeOnly : Bool) : validSpec lone closed value (.object fields required writeOnly) =
      valid lone closed value fields := by
  cases value <;> rfl

variable {lone : ℕ → Bool} {closed : Bool} {entries : List (Scalar × Value)} {fields : Fields}
  {payload : Value}

/-- The value under a name passes the declaration, and is there where it is required. -/
def Passes (lone : ℕ → Bool) (closed : Bool) (found : Option Value) (spec : Spec) : Prop :=
  (found = none → spec.required = false) ∧
    ∀ v, found = some v → validSpec lone closed v spec = true

theorem validFields_iff : validFields lone closed entries fields = true ↔
    ∀ f ∈ fields, Passes lone closed (entries.lookup (.str f.1)) f.2 := by
  induction fields with
  | nil => simp [validFields]
  | cons f fields ih =>
    obtain ⟨name, spec⟩ := f
    rw [validFields, Bool.and_eq_true, ih, List.forall_mem_cons]
    apply and_congr_left'
    unfold Passes
    cases entries.lookup (.str name) <;> simp

/-- What a valid payload is. -/
theorem valid_iff : valid lone closed payload fields = true ↔
    ∃ entries, payload = .dict entries ∧ (entries.map Prod.fst).Nodup ∧
      (∀ e ∈ entries, keyOk lone closed fields e.1 = true) ∧
      ∀ f ∈ fields, Passes lone closed (entries.lookup (.str f.1)) f.2 := by
  cases payload with
  | dict entries =>
    simp [valid, Bool.and_eq_true, validFields_iff, List.all_eq_true, and_assoc]
  | _ => simp [valid]

end ControlPlane
end OpenChess

/-!
## Operations of the control plane

The operations and names `server/control_plane_client.py` reads from
`data/contracts/control-plane.yaml`.
-/

namespace OpenChess
namespace ControlPlane

def must (name : String) (kind : ItemKind) : Text × Spec := (name.toList, .item kind true false none)

def may (name : String) (kind : ItemKind) : Text × Spec := (name.toList, .item kind false false none)

def identityOps : List (Text × Op) :=
  [("identity.register".toList,
      { method := .post, path := "/identity/register".toList, auth := .anonymous, mutating := true
        request := [must "email" .string, must "password_hash_client" .string,
          may "display_name" .string]
        response := [must "account_id" .string, must "token" .string,
          must "token_expires_at" .integer, may "display_name" .string]
        errors := ["malformed_request".toList, "conflict".toList, "rate_limited".toList,
          "idempotency_conflict".toList, "internal".toList] }),
    ("identity.login".toList,
      { method := .post, path := "/identity/login".toList, auth := .anonymous, mutating := true
        request := [must "email" .string, must "password_hash_client" .string]
        response := [must "account_id" .string, must "token" .string,
          must "token_expires_at" .integer]
        errors := ["malformed_request".toList, "auth_invalid".toList, "rate_limited".toList,
          "idempotency_conflict".toList, "internal".toList] }),
    ("identity.refresh".toList,
      { method := .post, path := "/identity/refresh".toList, auth := .required, mutating := true
        request := []
        response := [must "token" .string, must "token_expires_at" .integer]
        errors := ["auth_expired".toList, "auth_invalid".toList, "idempotency_conflict".toList,
          "internal".toList] }),
    ("identity.logout".toList,
      { method := .post, path := "/identity/logout".toList, auth := .required, mutating := true
        request := []
        response := []
        errors := ["auth_invalid".toList, "idempotency_conflict".toList, "internal".toList] }),
    ("identity.delete_account".toList,
      { method := .post, path := "/identity/delete-account".toList, auth := .required
        mutating := true
        request := [must "confirm" .string]
        response := []
        errors := ["auth_invalid".toList, "malformed_request".toList,
          "idempotency_conflict".toList, "internal".toList] })]

def entitlementsOps : List (Text × Op) :=
  [("entitlements.get".toList,
      { method := .get, path := "/entitlements".toList, auth := .required, mutating := false
        request := []
        response := [must "tier" .string, ("features".toList, .array .string true false none),
          must "cache_ttl_seconds" .integer, ("cost_caps".toList, .object
            [must "per_request_usd" .number, must "per_day_usd" .number] true false)]
        errors := ["auth_expired".toList, "auth_invalid".toList, "internal".toList] })]

def quotaOps : List (Text × Op) :=
  [("quota.reserve".toList,
      { method := .post, path := "/quota/reserve".toList, auth := .required, mutating := true
        request := [must "operation_kind" .string, must "estimated_units" .integer,
          must "hold_seconds" .integer]
        response := [must "reservation_id" .string, must "granted_units" .integer,
          must "expires_at" .integer]
        errors := ["auth_expired".toList, "auth_invalid".toList, "quota_exhausted".toList,
          "malformed_request".toList, "idempotency_conflict".toList, "internal".toList] }),
    ("quota.commit".toList,
      { method := .post, path := "/quota/commit".toList, auth := .required, mutating := true
        request := [must "reservation_id" .string, must "actual_units" .integer]
        response := [must "remaining_units" .integer]
        errors := ["auth_expired".toList, "auth_invalid".toList,
          "quota_reservation_expired".toList, "not_found".toList, "malformed_request".toList,
          "idempotency_conflict".toList, "internal".toList] }),
    ("quota.release".toList,
      { method := .post, path := "/quota/release".toList, auth := .required, mutating := true
        request := [must "reservation_id" .string]
        response := []
        errors := ["auth_expired".toList, "auth_invalid".toList, "not_found".toList,
          "idempotency_conflict".toList, "internal".toList] })]

def billingOps : List (Text × Op) :=
  [("billing.create_checkout".toList,
      { method := .post, path := "/billing/checkout".toList, auth := .required, mutating := true
        request := [must "price_id" .string, must "success_url" .string,
          must "cancel_url" .string]
        response := [must "checkout_url" .string, must "expires_at" .integer]
        errors := ["auth_expired".toList, "auth_invalid".toList, "malformed_request".toList,
          "provider_unavailable".toList, "idempotency_conflict".toList, "internal".toList] }),
    ("billing.get_subscription".toList,
      { method := .get, path := "/billing/subscription".toList, auth := .required
        mutating := false
        request := []
        response := [must "status" .string, must "tier" .string,
          must "current_period_end" .integer, must "cancel_at_period_end" .boolean]
        errors := ["auth_expired".toList, "auth_invalid".toList, "not_found".toList,
          "internal".toList] })]

def providerRoutingOps : List (Text × Op) :=
  [("provider_routing.register_key".toList,
      { method := .post, path := "/provider-keys/register".toList, auth := .required
        mutating := true
        request := [must "provider_kind" .string,
          ("key_material".toList, .item .string true true none), may "label" .string]
        response := [must "key_ref" .string]
        errors := ["auth_expired".toList, "auth_invalid".toList, "provider_key_invalid".toList,
          "malformed_request".toList, "idempotency_conflict".toList, "internal".toList] }),
    ("provider_routing.revoke_key".toList,
      { method := .post, path := "/provider-keys/revoke".toList, auth := .required
        mutating := true
        request := [must "key_ref" .string]
        response := []
        errors := ["auth_expired".toList, "auth_invalid".toList, "not_found".toList,
          "idempotency_conflict".toList, "internal".toList] }),
    ("provider_routing.route".toList,
      { method := .post, path := "/provider-routing/route".toList, auth := .required
        mutating := false
        request := [must "capability" .string, ("policy".toList, .object
          [may "prefer" .string, may "max_cost_usd" .number] false false)]
        response := [must "provider_kind" .string, may "key_ref" .string,
          must "estimated_cost_usd" .number]
        errors := ["auth_expired".toList, "auth_invalid".toList, "entitlement_missing".toList,
          "cost_cap_exceeded".toList, "provider_unavailable".toList, "malformed_request".toList,
          "internal".toList] })]

/-- `OPS`. -/
def operations : List (Text × Op) :=
  identityOps ++ entitlementsOps ++ quotaOps ++ billingOps ++ providerRoutingOps

/-- `OPS[name]`, for an exact text. -/
def operation? (name : Value) : Option (Text × Op) :=
  name.text?.bind fun t => (operations.lookup t).map fun op => (t, op)

def selfDestructive : List Text := ["identity.logout".toList, "identity.delete_account".toList]

/-- `TTL_FIELD`. -/
def ttlField : Text := "cache_ttl_seconds".toList

/-- `EXPIRY_FIELD`. -/
def expiryField : Text := "expires_at".toList

/-- `_AUTH_CODES`. -/
def authCodes : List Text := ["auth_expired".toList, "auth_invalid".toList]

/-- `FREE_TIER`. -/
def freeTier : Value :=
  .dict [(.str "tier".toList, .str "free".toList), (.str "features".toList, .list []),
    (.str ttlField, .int 0),
    (.str "cost_caps".toList, .dict
      [(.str "per_request_usd".toList, .float true "0.0".toList),
        (.str "per_day_usd".toList, .float true "0.0".toList)])]

/-! ### Secrets -/

def Spec.writeOnly : Spec → Bool
  | .item _ _ writeOnly _ => writeOnly
  | .array _ _ writeOnly _ => writeOnly
  | .object _ _ writeOnly => writeOnly

mutual

def writeOnlyBelow (value : Value) : Spec → List Value
  | .object fields _ _ => writeOnlyValues fields value
  | .item .. => []
  | .array .. => []

/-- `_write_only_values`. -/
def writeOnlyValues : Fields → Value → List Value
  | [], _ => []
  | (name, spec) :: fields, body =>
    (match get? name body with
      | none => []
      | some value => if spec.writeOnly then [value] else writeOnlyBelow value spec) ++
      writeOnlyValues fields body

end

mutual

def writeOnlyNamesBelow : Spec → List Text
  | .object fields _ _ => writeOnlyNames fields
  | .item .. => []
  | .array .. => []

/-- `_write_only_names`. -/
def writeOnlyNames : Fields → List Text
  | [] => []
  | (name, spec) :: fields =>
    (if spec.writeOnly then [name] else []) ++ writeOnlyNamesBelow spec ++ writeOnlyNames fields

end

/-- `_SECRET_NAMES`. -/
def secretNames : List Text := operations.flatMap fun e => writeOnlyNames e.2.request

end ControlPlane
end OpenChess
