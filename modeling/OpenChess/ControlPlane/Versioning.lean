import OpenChess.ControlPlane.Schema

/-!
# Compatibility of contract sources

Model of `server/control_plane_versioning.py`: the checks of a contract source, and the
verdict on two of them. A document is a finite tree, so that the walk for cycles finds
none.
-/

namespace OpenChess
namespace ControlPlane

/-! ### Documents -/

/-- `type(key) is str`. -/
def isKey (lone : ℕ → Bool) : Scalar → Bool
  | .str _ => true
  | .foreign tag => lone tag

/-- `type(value) is str`. -/
def isStr (lone : ℕ → Bool) : Value → Bool
  | .str _ => true
  | .foreign tag => lone tag
  | _ => false

mutual

/-- `_safe_tree`. The keys of a dictionary are distinct. -/
def safeTree (lone : ℕ → Bool) : Value → Bool
  | .list items => safeItems lone items
  | .dict entries => decide (entries.map Prod.fst).Nodup && safeMembers lone entries
  | .foreign tag => lone tag
  | _ => true

def safeItems (lone : ℕ → Bool) : List Value → Bool
  | [] => true
  | v :: items => safeTree lone v && safeItems lone items

def safeMembers (lone : ℕ → Bool) : List (Scalar × Value) → Bool
  | [] => true
  | (k, v) :: entries => isKey lone k && safeTree lone v && safeMembers lone entries

end

variable {lone : ℕ → Bool} {items : List Value} {entries : List (Scalar × Value)}

theorem safeItems_iff : safeItems lone items = true ↔ ∀ v ∈ items, safeTree lone v = true := by
  induction items with
  | nil => simp [safeItems]
  | cons v items ih => rw [safeItems, Bool.and_eq_true, ih, List.forall_mem_cons]

theorem safeMembers_iff : safeMembers lone entries = true ↔
    ∀ e ∈ entries, isKey lone e.1 = true ∧ safeTree lone e.2 = true := by
  induction entries with
  | nil => simp [safeMembers]
  | cons e entries ih =>
    rw [safeMembers, Bool.and_eq_true, Bool.and_eq_true, ih, List.forall_mem_cons]

theorem safeTree_dict : safeTree lone (.dict entries) = true ↔
    (entries.map Prod.fst).Nodup ∧ ∀ e ∈ entries, isKey lone e.1 = true ∧
      safeTree lone e.2 = true := by
  rw [safeTree, Bool.and_eq_true, decide_eq_true_eq, safeMembers_iff]

def get? (name : Text) : Value → Option Value
  | .dict entries => entries.lookup (.str name)
  | _ => none

/-- `_unique_strings`. -/
def uniqueStrings : Value → Option (List Text)
  | .list items =>
    match items.mapM Value.text? with
    | none => none
    | some texts => if texts.Nodup then some texts else none
  | _ => none

def sameSet (l l' : List Text) : Bool := l.all (l'.contains ·) && l'.all (l.contains ·)

/-- The major version of a base path by `BASE`, or none where it is none. -/
def majorOf? : Text → Option ℕ
  | '/' :: t =>
    match (t.takeWhile lowerChar), (t.dropWhile lowerChar) with
    | _ :: _, '/' :: 'v' :: digits =>
      if digits.all digitChar && decide (1 ≤ digits.length) && decide (digits.length ≤ 3) &&
          decide (digits.head? ≠ some '0') then
        some (digits.foldl (fun n c => 10 * n + (c.toNat - '0'.toNat)) 0)
      else none
    | _, _ => none
  | _ => none

/-- `PATH`. -/
def pathGrammar : Text → Bool
  | '/' :: t =>
    let segments := t.splitOn '/'
    decide (segments.length ≤ 8) && segments.all fun s =>
      decide (1 ≤ s.length) && decide (s.length ≤ 32) &&
        s.all fun c => lowerChar c || digitChar c || c == '-'
  | _ => false

/-- `CODES`. -/
def codes : List Text :=
  ["auth_expired".toList, "auth_invalid".toList, "idempotency_conflict".toList,
    "quota_exhausted".toList, "quota_reservation_expired".toList, "entitlement_missing".toList,
    "provider_key_invalid".toList, "provider_unavailable".toList, "cost_cap_exceeded".toList,
    "rate_limited".toList, "malformed_request".toList, "not_found".toList, "conflict".toList,
    "internal".toList]

/-! ### Sources -/

inductive Method
  | get
  | post
  deriving DecidableEq, Repr

def Method.text : Method → Text
  | .get => "GET".toList
  | .post => "POST".toList

def methods : List Method := [.get, .post]

def methodOf? (t : Text) : Option Method := methods.find? fun m => m.text == t

inductive Auth
  | anonymous
  | required
  deriving DecidableEq, Repr

def Auth.text : Auth → Text
  | .anonymous => "public".toList
  | .required => "required".toList

def auths : List Auth := [.anonymous, .required]

def authOf? (t : Text) : Option Auth := auths.find? fun a => a.text == t

structure Op where
  method : Method
  path : Text
  auth : Auth
  mutating : Bool
  request : Fields
  response : Fields
  errors : List Text

/-- An area, with its members other than the operations. -/
structure Area where
  notes : List (Scalar × Value)
  ops : List (Text × Op)

/-- A checked contract source. -/
structure Source where
  contract : Value
  basePath : Text
  major : ℕ
  publicOperations : List Text
  readOnlyOperations : List Text
  areas : List (Text × Area)

def Source.op? (s : Source) (area name : Text) : Option Op :=
  (s.areas.lookup area).bind fun a => a.ops.lookup name

def Source.ops (s : Source) : List (Text × Text × Op) :=
  s.areas.flatMap fun a => a.2.ops.map fun o => (a.1, o.1, o.2)

/-- `f"{area}.{op}"`. -/
def opName (area name : Text) : Text := area ++ '.' :: name

/-- `OP_KEYS`. -/
def opKeys : List Text :=
  ["method".toList, "path".toList, "auth".toList, "mutating".toList, "request".toList,
    "response".toList, "errors".toList]

def readBody (side : Side) (body : Value) : Option Fields :=
  match body.fields? ["fields".toList] with
  | some [fields] => readFields side topLevels fields
  | _ => none

/-- The errors of an operation: distinct ones of the closed list. -/
def readErrors (closed : List Text) (errors : Value) : Option (List Text) :=
  match uniqueStrings errors with
  | none => none
  | some errors => if errors ≠ [] ∧ errors.all (closed.contains ·) = true then some errors else none

/-- The checks of an operation. -/
def readOp (closed : List Text) (name : Text) (op : Value) : Option Op :=
  if areaGrammar name = false then none
  else
    match op.fields? opKeys with
    | some [method, path, auth, .bool mutating, request, response, errors] =>
      match method.text?.bind methodOf?, path.text?.filter pathGrammar, auth.text?.bind authOf? with
      | some method, some path, some auth =>
        match readBody .request request, readBody .response response, readErrors closed errors with
        | some request, some response, some errors =>
          if method = .get ∧ (mutating = true ∨ request ≠ []) then none
          else some ⟨method, path, auth, mutating, request, response, errors⟩
        | _, _, _ => none
      | _, _, _ => none
    | _ => none

/-- The checks of an area. -/
def readArea (lone : ℕ → Bool) (closed : List Text) (name : Text) (area : Value) : Option Area :=
  if areaGrammar name = false then none
  else
    match area with
    | .dict entries =>
      let notes := entries.filter fun e => e.1 != .str "ops".toList
      match (entries.lookup (.str "ops".toList)).bind (Value.readMembers (readOp closed)) with
      | none => none
      | some ops =>
        if notes.all (fun e => isStr lone e.2) && decide (1 ≤ ops.length) && decide (ops.length ≤ 64)
        then some ⟨notes, ops⟩ else none
    | _ => none

/-- The names of the error fields, in their order. -/
def errorNames : List Text := ["code".toList, "message".toList, "retryable".toList]

/-- The shape of an error: its three fields, the code by example one of the closed list. -/
def errorFieldsOk (closed : List Text) : Fields → Bool
  | [(code, .item .string true _ sample), (message, .item .string true _ _),
      (retryable, .item .boolean true _ _)] =>
    decide ([code, message, retryable] = errorNames) &&
      sample.all fun v => v.text?.any (closed.contains ·)
  | _ => false

/-- The checks of `transport.errors`: the closed list. -/
def readClosed (errors : Value) : Option (List Text) :=
  match get? "shape".toList errors, (get? "closed_enum".toList errors).bind uniqueStrings with
  | some shape, some closed =>
    if closed = [] ∨ closed.all (codes.contains ·) = false then none
    else
      match (shape.fields? ["error".toList]) with
      | some [error] =>
        match (error.fields? ["fields".toList]) with
        | some [fields] =>
          if ((readFields .response topLevels fields).any (errorFieldsOk closed)) then some closed
          else none
        | _ => none
      | _ => none
  | _, _ => none

def stripAuth : Value → Value
  | .dict entries => .dict (entries.filter fun e => e.1 != .str "public_operations".toList)
  | v => v

def stripTransport : Value → Value
  | .dict entries =>
    .dict ((entries.filter fun e =>
        e.1 != .str "read_only_operations".toList && e.1 != .str "auth".toList) ++
      [(.str "auth".toList, stripAuth ((entries.lookup (.str "auth".toList)).getD .null))])
  | v => v

/-- `strip_contract`. -/
def stripContract : Value → Value
  | .dict entries => .dict (entries.map fun e =>
      if e.1 = .str "transport".toList then (e.1, stripTransport e.2) else e)
  | v => v

def namesOf (p : Op → Bool) (ops : List (Text × Text × Op)) : List Text :=
  (ops.filter fun o => p o.2.2).map fun o => opName o.1 o.2.1

/-- `spec["auth"] == "public"`. -/
def Op.isPublic (o : Op) : Bool := o.auth == .anonymous

/-- `spec["mutating"] is False`. -/
def Op.isReadOnly (o : Op) : Bool := !o.mutating

/-- `_source`: the source, or none where it is rejected. -/
def source (lone : ℕ → Bool) (doc : Value) : Option Source :=
  if safeTree lone doc = false then none
  else
    match doc.fields? ["schema_version".toList, "contract".toList, "areas".toList] with
    | some [.int 2, contract, areas] =>
      let transport := (get? "transport".toList contract).getD .null
      let auth := (get? "auth".toList transport).getD .null
      match (get? "versioning".toList contract).bind (get? "base_path".toList),
          (get? "public_operations".toList auth).bind uniqueStrings,
          (get? "read_only_operations".toList transport).bind uniqueStrings,
          (get? "errors".toList transport).bind readClosed with
      | some (.str basePath), some publicOperations, some readOnlyOperations, some closed =>
        match majorOf? basePath, areas.readMembers (readArea lone closed) with
        | some major, some areas =>
          let s : Source := ⟨contract, basePath, major, publicOperations, readOnlyOperations, areas⟩
          if 1 ≤ areas.length ∧ areas.length ≤ 64 ∧ (s.ops.map fun o => o.2.2.path).Nodup ∧
              sameSet (namesOf Op.isPublic s.ops) publicOperations = true ∧
              sameSet (namesOf Op.isReadOnly s.ops) readOnlyOperations = true then some s
          else none
        | _, _ => none
      | _, _, _, _ => none
    | _ => none

/-! ### The verdict -/

def newOptional (before after : Fields) : Bool :=
  after.all fun f => (before.lookup f.1).isSome || !f.2.required

mutual

/-- The loop of `_additive_fields` over the fields before. -/
def keepsFields (lone : ℕ → Bool) (after : Fields) : Fields → Bool
  | [] => true
  | (name, original) :: before =>
    (match after.lookup name with
      | none => false
      | some updated => keepsSpec lone updated original) && keepsFields lone after before

/-- The loop body: two objects are compared by their fields, and all else by `_equal`. -/
def keepsSpec (lone : ℕ → Bool) (updated : Spec) : Spec → Bool
  | .object fields required writeOnly =>
    match updated with
    | .object fields' required' writeOnly' =>
      required == required' && writeOnly == writeOnly' &&
        (keepsFields lone fields' fields && newOptional fields fields')
    | _ => equal lone (Spec.object fields required writeOnly).toValue updated.toValue
  | .item kind required writeOnly sample =>
    equal lone (Spec.item kind required writeOnly sample).toValue updated.toValue
  | .array items required writeOnly sample =>
    equal lone (Spec.array items required writeOnly sample).toValue updated.toValue

end

/-- `_additive_fields`. -/
def additiveFields (lone : ℕ → Bool) (before after : Fields) : Bool :=
  keepsFields lone after before && newOptional before after

/-- An operation of the same name, of old and of new. -/
def keepsOp (lone : ℕ → Bool) (op updated : Op) : Bool :=
  decide (op.method = updated.method ∧ op.path = updated.path ∧ op.auth = updated.auth ∧
      op.mutating = updated.mutating ∧ op.errors = updated.errors) &&
    additiveFields lone op.request updated.request &&
    additiveFields lone op.response updated.response

/-- An area of the same name, of old and of new. -/
def keepsArea (lone : ℕ → Bool) (area current : Area) : Bool :=
  equal lone (.dict area.notes) (.dict current.notes) &&
    area.ops.all fun o => (current.ops.lookup o.1).any (keepsOp lone o.2)

def additions (old new : Source) : List (Text × Text × Op) :=
  new.ops.filter fun o => (old.op? o.1 o.2.1).isNone

/-- `_same_major`. -/
def sameMajor (lone : ℕ → Bool) (old new : Source) : Bool :=
  sameSet new.readOnlyOperations
      (old.readOnlyOperations ++ namesOf Op.isReadOnly (additions old new)) &&
    sameSet new.publicOperations
      (old.publicOperations ++ namesOf Op.isPublic (additions old new)) &&
    equal lone (stripContract old.contract) (stripContract new.contract) &&
    (old.areas.all fun a => (new.areas.lookup a.1).any (keepsArea lone a.2)) &&
    (additions old new).all fun o =>
      old.ops.all fun o' => decide ((o.2.2.method, o.2.2.path) ≠ (o'.2.2.method, o'.2.2.path))

def maxMinor : ℕ := 2147483647

/-- `compare`: the verdict, or none where an argument is rejected. -/
def compare (lone : ℕ → Bool) (old new oldMinor newMinor : Value) : Option Bool :=
  match oldMinor.nat? 0 maxMinor, newMinor.nat? 0 maxMinor, source lone old, source lone new with
  | some oldMinor, some newMinor, some old, some new =>
    if new.major < old.major then none
    else if new.major = old.major then
      if newMinor < oldMinor then none
      else if old.basePath ≠ new.basePath then some false
      else some (sameMajor lone old new)
    else some true
  | _, _, _, _ => none

end ControlPlane
end OpenChess
