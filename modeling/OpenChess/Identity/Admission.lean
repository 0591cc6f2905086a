import OpenChess.Chess.Value

/-!
# Admission of identity operations

Model of `server/identity_admission.py`: one decision over a store of counters, two of
which an admission adds to. A store is a dictionary of pairs of numbers under triples,
and anything else is foreign.
-/

namespace OpenChess
namespace Admission

/-- The codes of a refusal. -/
inductive Refusal
  | malformedRequest
  | idempotencyConflict
  | internal
  | rateLimited
  deriving DecidableEq, Repr

/-- `_OPERATIONS`. -/
def operations : List Text := ["identity.register".toList, "identity.login".toList]

/-- `_MAX_INTEGER`. -/
def maxInteger : ℕ := 2 ^ 53 - 1

inductive Scope
  | account
  | source
  deriving DecidableEq, Repr

def Scope.text : Scope → Text
  | .account => "account".toList
  | .source => "source".toList

/-! ### Policies -/

structure Bucket where
  capacity : ℕ
  windowMs : ℕ

/-- `_policy_bucket`. -/
def policyBucket (v : Value) : Option Bucket :=
  match v.fields? ["capacity".toList, "window_ms".toList] with
  | some [capacity, windowMs] =>
    match capacity.nat? 1 maxInteger, windowMs.nat? 1 maxInteger with
    | some capacity, some windowMs => some ⟨capacity, windowMs⟩
    | _, _ => none
  | _ => none

/-- The buckets of both scopes. -/
structure Limits where
  account : Bucket
  source : Bucket

def Limits.bucket (l : Limits) : Scope → Bucket
  | .account => l.account
  | .source => l.source

/-- `type(n) is int and n >= 1`. -/
def versionOk : Value → Bool
  | .int n => decide (1 ≤ n)
  | _ => false

/-- The checks of a policy: its limits, or none where it is rejected. The source compares sets of keys,
so it takes keys of a subclass of `str` as well, which are rejected here. -/
def policyOk (policy : Value) : Option Limits :=
  match policy.fields? ["version".toList, "account".toList, "source".toList] with
  | some [version, account, source] =>
    if versionOk version = false then none
    else
      match policyBucket account, policyBucket source with
      | some account, some source => some ⟨account, source⟩
      | _, _ => none
  | _ => none

/-! ### Stores -/

/-- A tuple of three. -/
structure SlotKey where
  operation : Scalar
  scope : Scalar
  identifier : Scalar
  deriving DecidableEq

inductive StoreKey
  | tuple (key : SlotKey)
  | foreign (tag : ℕ)
  deriving DecidableEq

/-- What is stored under a key: a tuple of two, or any other object. -/
inductive StoreCell
  | pair (slot count : Value)
  | foreign (tag : ℕ)

inductive Store
  | dict (entries : Dict StoreKey StoreCell)
  | foreign (tag : ℕ)

/-- `type(number) is int and number >= 0`. -/
def natural? : Value → Option ℕ
  | .int n => if 0 ≤ n then some n.toNat else none
  | _ => none

def StoreCell.counts? : StoreCell → Option (ℕ × ℕ)
  | .pair slot count =>
    match natural? slot, natural? count with
    | some slot, some count => some (slot, count)
    | _, _ => none
  | .foreign _ => none

def StoreKey.isTuple : StoreKey → Bool
  | .tuple _ => true
  | .foreign _ => false

/-- The checks of a store: its entries, or none where it is rejected. -/
def storeOk : Store → Option (Dict StoreKey StoreCell)
  | .foreign _ => none
  | .dict entries =>
    if ∀ k ∈ entries.keys, k.isTuple = true ∧ ((entries.lookup k).bind StoreCell.counts?).isSome = true
    then some entries else none

/-! ### Requests -/

/-- The arguments of a call but for the policy and the state. -/
structure Call where
  operation : Value
  account : Value
  source : Value
  now : Value
  replay : Value
  bodySame : Value
  storeAvailable : Value
  effectOk : Value

structure Request where
  operation : Text
  account : Text
  source : Text
  now : ℕ

def Request.identifier (q : Request) : Scope → Text
  | .account => q.account
  | .source => q.source

/-- `(operation, scope, identifier)`. -/
def slotKey (operation : Text) (scope : Scope) (identifier : Text) : SlotKey :=
  ⟨.str operation, .str scope.text, .str identifier⟩

def Request.key (q : Request) (scope : Scope) : SlotKey :=
  slotKey q.operation scope (q.identifier scope)

/-- `now // duration`. -/
def Request.slot (q : Request) (limits : Limits) (scope : Scope) : ℕ :=
  q.now / (limits.bucket scope).windowMs

/-- `value.startswith("opaque:")`. -/
def isOpaque (t : Text) : Bool := "opaque:".toList.isPrefixOf t

/-- The checks of the operation, the identifiers and the clock. -/
def requestOk (c : Call) : Option Request :=
  match c.operation.text?.filter (operations.contains ·), c.account.text?.filter isOpaque,
      c.source.text?.filter isOpaque, c.now.nat? 0 maxInteger with
  | some operation, some account, some source, some now => some ⟨operation, account, source, now⟩
  | _, _, _, _ => none

/-- `type(value) is bool and value`. -/
def isTrue : Value → Bool
  | .bool b => b
  | _ => false

/-! ### The decision -/

def stored (entries : Dict StoreKey StoreCell) (key : SlotKey) : Option (ℕ × ℕ) :=
  (entries.lookup (.tuple key)).bind StoreCell.counts?

def bump (capacity slot : ℕ) (previous : ℕ × ℕ) : Except Refusal (ℕ × ℕ) :=
  if slot < previous.1 ∨ (previous.1 = slot ∧ capacity < previous.2) then .error .internal
  else
    let count := if previous.1 = slot then previous.2 else 0
    if capacity ≤ count then .error .rateLimited else .ok (slot, count + 1)

/-- The update of one scope. -/
def admitScope (entries : Dict StoreKey StoreCell) (q : Request) (limits : Limits) (scope : Scope) :
    Except Refusal (ℕ × ℕ) :=
  let slot := q.slot limits scope
  bump (limits.bucket scope).capacity slot ((stored entries (q.key scope)).getD (slot, 0))

def put (entries : Dict StoreKey StoreCell) (key : SlotKey) (update : ℕ × ℕ) :
    Dict StoreKey StoreCell :=
  entries.insert (.tuple key) (.pair (.int update.1) (.int update.2))

inductive Outcome
  | admitted
  | replay
  deriving DecidableEq, Repr

def decideNew (policy : Value) (state : Store) (c : Call) : Except Refusal (Outcome × Store) :=
  match requestOk c, policyOk policy with
  | some q, some limits =>
    match storeOk state with
    | none => .error .internal
    | some entries =>
      if isTrue c.storeAvailable = false then .error .internal
      else
        match admitScope entries q limits .account with
        | .error e => .error e
        | .ok account =>
          match admitScope entries q limits .source with
          | .error e => .error e
          | .ok source =>
            if isTrue c.effectOk = false then .error .internal
            else
              .ok (.admitted, .dict (put (put entries (q.key .account) account) (q.key .source) source))
  | _, _ => .error .malformedRequest

/-- `decide`. A cached result is returned with the state as it is. -/
def decide (policy : Value) (state : Store) (c : Call) : Except Refusal (Outcome × Store) :=
  match c.bodySame, c.replay with
  | .bool bodySame, .str replay =>
    if replay = "new".toList then decideNew policy state c
    else if replay = "cached".toList then
      if bodySame then .ok (.replay, state) else .error .idempotencyConflict
    else .error .malformedRequest
  | _, _ => .error .malformedRequest

end Admission
end OpenChess
