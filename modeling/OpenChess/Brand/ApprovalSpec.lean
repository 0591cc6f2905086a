import OpenChess.Brand.Approval

/-!
# Single use of approvals

A commit succeeds exactly where the last request that touched its artifact approved it, and each
entry of the audit log has an approval of its own, by someone who may give it.
-/

namespace OpenChess
namespace ApprovalGate

variable {D : Type} {r : Registry} {dumps : D → Option Text} {sha256 : Text → Text} {g : Gate}
  {e : Moment × Request D} {m : Moment} {p q : Proposal D} {identity artifact hash : Text}
  {a : Approval} {calls : List (Moment × Request D)}

/-! ### The artifact -/

def Stores (r : Registry) (dumps : D → Option Text) (sha256 : Text → Text) (a : Approval) (g : Gate)
    (e : Moment × Request D) : Prop :=
  ∃ p identity, e.2 = .approve p identity ∧ (approve r dumps sha256 e.1 p identity g).1 = .ok a

def Spends (dumps : D → Option Text) (sha256 : Text → Text) (hash : Text) (g : Gate)
    (e : Moment × Request D) : Prop :=
  ∃ p artifact, e.2 = .commit p ∧ canonical dumps p = some artifact ∧ sha256 artifact = hash ∧
    (commit dumps sha256 p g).1 = .ok ()

def Touches (r : Registry) (dumps : D → Option Text) (sha256 : Text → Text) (hash : Text) (g : Gate)
    (e : Moment × Request D) : Prop :=
  (∃ a, Stores r dumps sha256 a g e ∧ a.artifactHash = hash) ∨ Spends dumps sha256 hash g e

/-- Who may approve: a role that holds the capability, or, unless it is the destructive one, whom a
user granted this action on this target, with an expiry that is not past. -/
def MayApprove (r : Registry) (past : Text → Option Bool) (action target identity : Text) : Prop :=
  ∃ role, r.approvers.lookup identity = some role ∧
    (requiredCapability action ∈ (roleCapabilities.lookup role).getD [] ∨
      requiredCapability action ≠ destructive ∧ ∃ grant ∈ r.grants, grant.grantee = identity ∧
        grant.covers action target = true ∧ r.approvers.lookup grant.grantedBy = some userRole ∧
        grant.capability = requiredCapability action ∧
        ∀ expiry, grant.expiresAt = some expiry → past expiry = some false)

theorem of_findGrant {past : Text → Option Bool} {action target : Text} {grants : List Grant}
    {grant : Grant} (h : findGrant r past action target identity grants = .ok (some grant)) :
    grant ∈ grants ∧ grant.grantee = identity ∧ grant.covers action target = true ∧
      r.approvers.lookup grant.grantedBy = some userRole ∧
      grant.capability = requiredCapability action ∧
      ∀ expiry, grant.expiresAt = some expiry → past expiry = some false := by
  induction grants with
  | nil => cases h
  | cons x grants ih =>
    rw [findGrant] at h
    split_ifs at h with hskip
    · obtain ⟨hmem, hfits⟩ := ih h
      exact ⟨List.mem_cons_of_mem x hmem, hfits⟩
    · simp only [not_or, ne_eq, not_not, Bool.not_eq_false] at hskip
      obtain ⟨hgrantee, hcovers, hrole, hcapability⟩ := hskip
      cases hexpiry : x.expiresAt with
      | none =>
        simp only [hexpiry, Except.ok.injEq, Option.some.injEq] at h
        subst h
        exact ⟨List.mem_cons_self, hgrantee, hcovers, hrole, hcapability,
          fun expiry heq => by rw [hexpiry] at heq; cases heq⟩
      | some expiry =>
        cases hpast : past expiry with
        | none => simp [hexpiry, hpast] at h
        | some late =>
          cases late with
          | true =>
            simp only [hexpiry, hpast] at h
            obtain ⟨hmem, hfits⟩ := ih h
            exact ⟨List.mem_cons_of_mem x hmem, hfits⟩
          | false =>
            simp only [hexpiry, hpast, Except.ok.injEq, Option.some.injEq] at h
            subst h
            refine ⟨List.mem_cons_self, hgrantee, hcovers, hrole, hcapability, fun text heq => ?_⟩
            rw [hexpiry] at heq
            rw [← Option.some.inj heq, hpast]

theorem mayApprove_of_authorize {past : Text → Option Bool} {action target role text : Text}
    (hrole : r.approvers.lookup identity = some role)
    (h : authorize r past action target identity role = .ok text) :
    MayApprove r past action target identity := by
  unfold authorize at h
  simp only at h
  split_ifs at h with hholds hdestructive
  · exact ⟨role, hrole, .inl (List.contains_iff_mem.mp hholds)⟩
  · cases hgrant : findGrant r past action target identity r.grants with
    | error refusal => simp [hgrant] at h
    | ok found =>
      cases found with
      | none => simp [hgrant] at h
      | some grant =>
        obtain ⟨hmem, hfits⟩ := of_findGrant hgrant
        exact ⟨role, hrole, .inr ⟨hdestructive, grant, hmem, hfits⟩⟩

theorem approve_cases (r : Registry) (dumps : D → Option Text) (sha256 : Text → Text) (m : Moment)
    (p : Proposal D) (identity : Text) (g : Gate) :
    (∃ refusal, approve r dumps sha256 m p identity g = (.error refusal, g)) ∨
    ∃ a, approve r dumps sha256 m p identity g =
        (.ok a, { g with approvals := Assoc.assign g.approvals a.artifactHash a }) ∧
      canonical dumps p = some a.canonicalArtifact ∧ a.artifactHash = sha256 a.canonicalArtifact ∧
      a.approverIdentity = identity ∧ MayApprove r m.past p.action p.target identity := by
  unfold approve
  cases hrole : r.approvers.lookup identity with
  | none => exact .inl ⟨_, rfl⟩
  | some role =>
    cases hauthorize : authorize r m.past p.action p.target identity role with
    | error refusal => exact .inl ⟨refusal, by simp only [hauthorize]⟩
    | ok authorization =>
      cases hcanonical : canonical dumps p with
      | none => exact .inl ⟨.unserializable, by simp only [hauthorize]⟩
      | some artifact =>
        exact .inr ⟨⟨sha256 artifact, artifact, identity, role, authorization, m.approvedAt⟩,
          by simp only [hauthorize], rfl, rfl, rfl, mayApprove_of_authorize hrole hauthorize⟩

def entryOf (p : Proposal D) (a : Approval) : Entry :=
  ⟨p.action, p.target, a.artifactHash, a.approverIdentity, a.approverRole, a.authorization, a.approvedAt⟩

theorem commit_cases (dumps : D → Option Text) (sha256 : Text → Text) (p : Proposal D) (g : Gate) :
    ((∃ refusal, commit dumps sha256 p g = (.error refusal, g)) ∧
      ∀ artifact a, canonical dumps p = some artifact →
        g.approvals.lookup (sha256 artifact) = some a →
        ¬ (sha256 artifact = a.artifactHash ∧ artifact = a.canonicalArtifact)) ∨
    ∃ artifact a, canonical dumps p = some artifact ∧
      g.approvals.lookup (sha256 artifact) = some a ∧ sha256 artifact = a.artifactHash ∧
      artifact = a.canonicalArtifact ∧ commit dumps sha256 p g = (.ok (),
        ⟨Assoc.erase g.approvals (sha256 artifact), g.auditLog ++ [entryOf p a]⟩) := by
  unfold commit
  cases hcanonical : canonical dumps p with
  | none => exact .inl ⟨⟨_, rfl⟩, fun artifact a h => by cases h⟩
  | some artifact =>
    cases hfound : g.approvals.lookup (sha256 artifact) with
    | none =>
      refine .inl ⟨⟨.unapproved p.action (sha256 artifact), by simp only [hfound]⟩,
        fun artifact' a h hlookup => ?_⟩
      obtain rfl := Option.some.inj h
      rw [hfound] at hlookup
      cases hlookup
    | some a =>
      simp only [hfound]
      split_ifs with hsame
      · refine .inr ⟨artifact, a, rfl, hfound, hsame.1, hsame.2, ?_⟩
        rw [entryOf, ← hsame.1]
      · refine .inl ⟨⟨_, rfl⟩, fun artifact' a' h hlookup => ?_⟩
        obtain rfl := Option.some.inj h
        rw [hfound] at hlookup
        obtain rfl := Option.some.inj hlookup
        exact hsame

/-- What is stored under a hash after a request was stored by it, or it was there and the request
did not touch it. -/
theorem lookup_step (g : Gate) (e : Moment × Request D) (hash : Text) (a : Approval) :
    (step r dumps sha256 g e).approvals.lookup hash = some a ↔
      Stores r dumps sha256 a g e ∧ a.artifactHash = hash ∨
        ¬ Touches r dumps sha256 hash g e ∧ g.approvals.lookup hash = some a := by
  obtain ⟨m, request⟩ := e
  cases request with
  | approve p identity =>
    have hspends : ¬ Spends dumps sha256 hash g (m, .approve p identity) := by
      rintro ⟨q, artifact, hq, -⟩
      cases hq
    have hstores : ∀ a', Stores r dumps sha256 a' g (m, .approve p identity) ↔
        (approve r dumps sha256 m p identity g).1 = .ok a' := by
      intro a'
      constructor
      · rintro ⟨q, identity', hq, hok⟩
        cases hq
        exact hok
      · exact fun hok => ⟨p, identity, rfl, hok⟩
    unfold Touches
    simp only [step, hstores, hspends, or_false]
    rcases approve_cases r dumps sha256 m p identity g with ⟨refusal, hout⟩ | ⟨a', hout, -⟩
    · rw [hout]
      simp
    · rw [hout]
      simp only [Assoc.lookup_assign, Except.ok.injEq]
      by_cases hhash : hash = a'.artifactHash
      · rw [if_pos hhash, hhash]
        constructor
        · intro hsome
          obtain rfl := Option.some.inj hsome
          exact .inl ⟨rfl, rfl⟩
        · rintro (⟨rfl, -⟩ | ⟨huntouched, -⟩)
          · rfl
          · exact absurd ⟨a', rfl, rfl⟩ huntouched
      · rw [if_neg hhash]
        have hnot : ¬ ∃ x, a' = x ∧ x.artifactHash = hash := by
          rintro ⟨_, rfl, rfl⟩
          exact hhash rfl
        constructor
        · exact fun hfound => .inr ⟨hnot, hfound⟩
        · rintro (⟨rfl, rfl⟩ | ⟨-, hfound⟩)
          · exact absurd rfl hhash
          · exact hfound
  | commit p =>
    have hstores : ∀ a', ¬ Stores r dumps sha256 a' g (m, .commit p) := by
      rintro a' ⟨q, identity, hq, -⟩
      cases hq
    have hspends : Spends dumps sha256 hash g (m, .commit p) ↔ ∃ artifact,
        canonical dumps p = some artifact ∧ sha256 artifact = hash ∧
          (commit dumps sha256 p g).1 = .ok () := by
      constructor
      · rintro ⟨q, artifact, hq, hrest⟩
        cases hq
        exact ⟨artifact, hrest⟩
      · rintro ⟨artifact, hrest⟩
        exact ⟨p, artifact, rfl, hrest⟩
    unfold Touches
    simp only [step, hstores, hspends, false_and, exists_false, false_or]
    rcases commit_cases dumps sha256 p g with ⟨⟨refusal, hout⟩, -⟩ | ⟨artifact, a', hp, -, -, -, hout⟩
    · rw [hout]
      simp
    · rw [hout, Assoc.lookup_erase]
      by_cases hhash : hash = sha256 artifact
      · rw [if_pos hhash]
        simp [hp, hhash]
      · rw [if_neg hhash]
        have hnot : ¬ ∃ x, canonical dumps p = some x ∧ sha256 x = hash ∧
            (Except.ok () : Except Refusal Unit) = .ok () := by
          rintro ⟨x, hx, rfl, -⟩
          rw [hp] at hx
          exact hhash (by rw [Option.some.inj hx])
        exact ⟨fun hfound => ⟨hnot, hfound⟩, And.right⟩

theorem lookup_run (calls : List (Moment × Request D)) (hash : Text) (a : Approval) :
    (run r dumps sha256 calls).approvals.lookup hash = some a ↔
      Trace.Last (step r dumps sha256) Gate.new
        (fun g e => Stores r dumps sha256 a g e ∧ a.artifactHash = hash)
        (Touches r dumps sha256 hash) calls :=
  @Trace.holds_iff_last _ _ _ _ _ _ (fun g => g.approvals.lookup hash = some a)
    (by simp [Gate.new]) (fun g e => lookup_step g e hash a) calls

/-- After any run a commit succeeds exactly where the last request that stored or spent an approval
under the hash of its artifact was an approval of an artifact with the same text. No two artifacts
need have different hashes. -/
theorem commit_iff_last (r : Registry) (dumps : D → Option Text) (sha256 : Text → Text)
    (calls : List (Moment × Request D)) (p : Proposal D) :
    (commit dumps sha256 p (run r dumps sha256 calls)).1 = .ok () ↔
      ∃ a, canonical dumps p = some a.canonicalArtifact ∧
        Trace.Last (step r dumps sha256) Gate.new (Stores r dumps sha256 a)
          (Touches r dumps sha256 (sha256 a.canonicalArtifact)) calls := by
  have hstored : ∀ {g e a}, Stores r dumps sha256 a g e →
      a.artifactHash = sha256 a.canonicalArtifact := by
    rintro g ⟨m, _⟩ a ⟨q, identity, rfl, hok⟩
    rcases approve_cases r dumps sha256 m q identity g with ⟨refusal, hout⟩ | ⟨a', hout, -, hhash, -⟩
    · rw [hout] at hok
      cases hok
    · rw [hout] at hok
      obtain rfl := Except.ok.inj hok
      exact hhash
  have hlast : ∀ {hash a}, Trace.Last (step r dumps sha256) Gate.new
      (fun g e => Stores r dumps sha256 a g e ∧ a.artifactHash = hash)
      (Touches r dumps sha256 hash) calls → sha256 a.canonicalArtifact = hash ∧
        Trace.Last (step r dumps sha256) Gate.new (Stores r dumps sha256 a)
          (Touches r dumps sha256 hash) calls := by
    rintro hash a ⟨before, e, after, hcalls, ⟨hsets, hhash⟩, hafter⟩
    exact ⟨by rw [← hstored hsets, hhash], before, e, after, hcalls, hsets, hafter⟩
  constructor
  · intro hok
    rcases commit_cases dumps sha256 p (run r dumps sha256 calls) with
      ⟨⟨refusal, hout⟩, -⟩ | ⟨artifact, a, hp, hfound, -, rfl, -⟩
    · rw [hout] at hok
      cases hok
    · exact ⟨a, hp, (hlast ((lookup_run calls _ a).mp hfound)).2⟩
  · rintro ⟨a, hp, before, e, after, hcalls, hsets, hafter⟩
    have hhash := hstored hsets
    have hfound := (lookup_run calls (sha256 a.canonicalArtifact) a).mpr
      ⟨before, e, after, hcalls, ⟨hsets, hhash⟩, hafter⟩
    rcases commit_cases dumps sha256 p (run r dumps sha256 calls) with
      ⟨-, hdiffers⟩ | ⟨artifact, a', -, -, -, -, hout⟩
    · exact absurd ⟨hhash.symm, rfl⟩ (hdiffers _ a hp hfound)
    · rw [hout]

/-! ### The audit log -/

theorem userRole_of_destructive {role : Text}
    (h : destructive ∈ (roleCapabilities.lookup role).getD []) : role = userRole := by
  cases hfound : roleCapabilities.lookup role with
  | none =>
    rw [hfound] at h
    cases h
  | some held =>
    rw [hfound] at h
    have hall : ∀ e ∈ roleCapabilities, destructive ∈ e.2 → e.1 = userRole := by decide
    exact hall _ (Dict.mem_of_lookup hfound) h

theorem MayApprove.destructive {past : Text → Option Bool} {action target : Text}
    (h : MayApprove r past action target identity)
    (hdestructive : requiredCapability action = destructive) :
    r.approvers.lookup identity = some userRole := by
  obtain ⟨role, hrole, hheld | ⟨hnot, -⟩⟩ := h
  · rw [hdestructive] at hheld
    rw [hrole, userRole_of_destructive hheld]
  · exact absurd hdestructive hnot

end ApprovalGate
end OpenChess
