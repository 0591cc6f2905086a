import OpenChess.Jobs.JsonRoundTrip
import OpenChess.Lib.Assoc
import OpenChess.Lib.Trace

/-!
# The approval gate

Model of `brand/approval.py`. What a proposal changes is data of any type: `dumps` is the text of
its JSON with sorted keys, where it has one, and `sha256` is any digest. The clock and the texts of
refusals are left out; a moment tells which expiries are past.
-/

namespace OpenChess
namespace ApprovalGate

variable {D : Type}

/-! ### Proposals and grants -/

/-- `Proposal`. -/
structure Proposal (D : Type) where
  action : Text
  target : Text
  before : D
  after : D

def member (name : String) (text : Text) : Text :=
  Json.quoted true name.toList ++ ':' :: ' ' :: text

/-- `_canonical`. -/
def canonical (dumps : D → Option Text) (p : Proposal D) : Option Text :=
  match dumps p.before, dumps p.after with
  | some before, some after => some (Char.ofNat 0x7b ::
      ((Json.comma true).intercalate [member "action" (Json.quoted true p.action),
        member "after" after, member "before" before,
        member "target" (Json.quoted true p.target)] ++ [Char.ofNat 0x7d]))
  | _, _ => none

/-- `CapabilityGrant`. -/
structure Grant where
  grantee : Text
  action : Text
  targetScope : Text
  grantedBy : Text
  capability : Text
  expiresAt : Option Text

/-- `CapabilityGrant.covers`. -/
def Grant.covers (g : Grant) (action target : Text) : Bool :=
  if action ≠ g.action then false
  else if "/*".toList.isSuffixOf g.targetScope then g.targetScope.dropLast.isPrefixOf target
  else decide (target = g.targetScope)

/-- `DESTRUCTIVE`. -/
def destructive : Text := "user-data-destructive".toList

/-- `DEFAULT_CAPABILITY`. -/
def defaultCapability : Text := "user-data-write".toList

def userRole : Text := "user".toList

/-- `ROLE_CAPABILITIES`. -/
def roleCapabilities : List (Text × List Text) :=
  [(userRole, [defaultCapability, destructive]), ("reviewer".toList, []), ("service".toList, []),
    ("admin".toList, [])]

/-- `ACTION_CAPABILITIES`. -/
def actionCapabilities : List (Text × Text) :=
  [("delete_game".toList, destructive), ("delete_games".toList, destructive),
    ("delete_all_user_data".toList, destructive)]

/-- `_required_capability`. -/
def requiredCapability (action : Text) : Text :=
  (actionCapabilities.lookup action).getD defaultCapability

/-! ### The gate -/

/-- How a request is refused; `escaped` is another exception than `SilentWriteError`. -/
inductive Refusal
  | unserializable
  | unregistered (identity : Text)
  | destructive (action : Text)
  | unauthorized (identity role action target capability : Text)
  | unapproved (action hash : Text)
  | differs
  | escaped
  deriving DecidableEq, Repr

/-- `Approval`. -/
structure Approval where
  artifactHash : Text
  canonicalArtifact : Text
  approverIdentity : Text
  approverRole : Text
  authorization : Text
  approvedAt : Text
  deriving DecidableEq, Repr

/-- An entry of `audit_log`. -/
structure Entry where
  action : Text
  target : Text
  artifactHash : Text
  approverIdentity : Text
  approverRole : Text
  authorization : Text
  approvedAt : Text
  deriving DecidableEq, Repr

/-- What a request meets: whether an expiry is past, where it can be read, and the time text. -/
structure Moment where
  past : Text → Option Bool
  approvedAt : Text

/-- What a gate is made of. -/
structure Registry where
  approvers : List (Text × Text)
  grants : List Grant

/-- What a gate changes. -/
structure Gate where
  approvals : List (Text × Approval)
  auditLog : List Entry

/-- `__init__`. -/
def Gate.new : Gate := ⟨[], []⟩

/-- The loop over the grants in `_authorize`; the first that fits. -/
def findGrant (r : Registry) (past : Text → Option Bool) (action target identity : Text) :
    List Grant → Except Refusal (Option Grant)
  | [] => .ok none
  | g :: grants =>
    if g.grantee ≠ identity ∨ g.covers action target = false ∨
        r.approvers.lookup g.grantedBy ≠ some userRole ∨ g.capability ≠ requiredCapability action then
      findGrant r past action target identity grants
    else
      match g.expiresAt with
      | none => .ok (some g)
      | some expiry =>
        match past expiry with
        | none => .error .escaped
        | some true => findGrant r past action target identity grants
        | some false => .ok (some g)

/-- `_authorize`. -/
def authorize (r : Registry) (past : Text → Option Bool) (action target identity role : Text) :
    Except Refusal Text :=
  let capability := requiredCapability action
  if ((roleCapabilities.lookup role).getD []).contains capability then .ok ("role:".toList ++ role)
  else if capability = destructive then .error (.destructive action)
  else
    match findGrant r past action target identity r.grants with
    | .error refusal => .error refusal
    | .ok (some g) => .ok ("grant:".toList ++ g.grantedBy)
    | .ok none => .error (.unauthorized identity role action target capability)

inductive Request (D : Type)
  | approve (proposal : Proposal D) (identity : Text)
  | commit (proposal : Proposal D)

variable (r : Registry) (dumps : D → Option Text) (sha256 : Text → Text)

/-- `approve`. A proposal that does not change has one artifact hash. -/
def approve (m : Moment) (p : Proposal D) (identity : Text) (g : Gate) : Except Refusal Approval × Gate :=
  match r.approvers.lookup identity with
  | none => (.error (.unregistered identity), g)
  | some role =>
    match authorize r m.past p.action p.target identity role with
    | .error refusal => (.error refusal, g)
    | .ok authorization =>
      match canonical dumps p with
      | none => (.error .unserializable, g)
      | some artifact =>
        let approval : Approval := ⟨sha256 artifact, artifact, identity, role, authorization, m.approvedAt⟩
        (.ok approval, { g with approvals := Assoc.assign g.approvals (sha256 artifact) approval })

/-- `commit`. -/
def commit (p : Proposal D) (g : Gate) : Except Refusal Unit × Gate :=
  match canonical dumps p with
  | none => (.error .unserializable, g)
  | some artifact =>
    match g.approvals.lookup (sha256 artifact) with
    | none => (.error (.unapproved p.action (sha256 artifact)), g)
    | some a =>
      if sha256 artifact = a.artifactHash ∧ artifact = a.canonicalArtifact then
        (.ok (), ⟨Assoc.erase g.approvals (sha256 artifact), g.auditLog ++ [⟨p.action, p.target,
          sha256 artifact, a.approverIdentity, a.approverRole, a.authorization, a.approvedAt⟩]⟩)
      else (.error .differs, g)

def step (g : Gate) (e : Moment × Request D) : Gate :=
  match e.2 with
  | .approve p identity => (approve r dumps sha256 e.1 p identity g).2
  | .commit p => (commit dumps sha256 p g).2

def run (calls : List (Moment × Request D)) : Gate := Trace.run (step r dumps sha256) Gate.new calls

end ApprovalGate
end OpenChess
