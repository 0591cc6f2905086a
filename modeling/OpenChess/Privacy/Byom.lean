import OpenChess.Privacy.CloudOff

/-!
# Accepted provider terms

Model of `desktop/privacy/byom.py`. A send passes the schema of its payload, the cloud
verdict, and the comparison of its terms with those that were accepted for the provider.
-/

namespace OpenChess
namespace Privacy

inductive ByomFailure
  | malformedByomRequest
  | payloadRejected
  | unknownProvider
  | staleRevision
  | approvalMissing
  | cloudModeOff
  | collectionSensitive
  | termsNotAccepted
  | termsChanged
  | revisionExhausted
  deriving DecidableEq, Repr

def lowercase (c : Char) : Bool := decide ('a' ≤ c) && decide (c ≤ 'z')

/-- The grammar of a provider. -/
def providerOk (t : Text) : Bool :=
  "prv1:".toList.isPrefixOf t && decide (1 ≤ (t.drop 5).length) && decide ((t.drop 5).length ≤ 32) &&
    (t.drop 5).all fun c => lowercase c || (decide ('0' ≤ c) && decide (c ≤ '9'))

def byomApprovalOk : Text → Bool := Hex.tagged "byt1:".toList 64

def regionOk (t : Text) : Bool := t.length == 2 && t.all lowercase

/-! ### Terms -/

/-- `_MAX_DAYS`. -/
def maxDays : ℕ := 3650

structure ProviderTerms where
  retentionDays : ℕ
  region : Text
  trainsOnInputs : Bool
  deriving DecidableEq, Repr

/-- `terms_digest`. -/
def termsDigest (sha : Hex.Hash 64) (terms : ProviderTerms) : Text :=
  boundToken sha "trm1:".toList
    [Nat.toDigits 10 terms.retentionDays, terms.region,
      if terms.trainsOnInputs then "true".toList else "false".toList]

/-- The checks of `_terms`. -/
def readTerms (v : Value) : Option ProviderTerms :=
  match v.fields? ["retention_days".toList, "region".toList, "trains_on_inputs".toList] with
  | some [days, region, .bool trains] =>
    match days.nat? 0 maxDays, readId regionOk region with
    | some days, some region => some ⟨days, region, trains⟩
    | _, _ => none
  | _ => none

def byomParts (install provider digest : Text) (expected : ℕ) : List Text :=
  [install, provider, digest, Nat.toDigits 10 expected]

/-- `byom_approval_for`. -/
def byomApprovalFor (sha : Hex.Hash 64) (install provider digest : Text) (expected : ℕ) : Text :=
  boundToken sha "byt1:".toList (byomParts install provider digest expected)

/-! ### Payloads -/

/-- `_printable`. -/
def printable (low : ℕ) (t : Text) : Bool :=
  t.all fun c => decide (low ≤ c.toNat) && decide (c.toNat ≤ 0x7e)

def printableStr (low max : ℕ) (v : Value) : Bool :=
  v.text?.any fun t => decide (1 ≤ t.length) && decide (t.length ≤ max) && printable low t

/-- `_TASKS`. -/
def tasks : List Text :=
  ["delta-explanation".toList, "error-diagnosis".toList, "weekly-plan".toList,
    "review-conversation".toList]

def movesOk : Value → Bool
  | .list moves => decide (moves.length ≤ 512) && moves.all (printableStr 0x21 16)
  | _ => false

/-- `_PAYLOAD_KEYS`. -/
def payloadKeys : List Text := ["fen".toList, "moves".toList, "task".toList, "max-tokens".toList]

/-- `_MANDATORY`. -/
def mandatoryKeys : List Text := ["fen".toList, "task".toList]

/-- `_payload`. -/
def payloadOk (v : Value) : Bool :=
  match v.members? with
  | none => false
  | some members =>
    (members.map Prod.fst).all (payloadKeys.contains ·) &&
      mandatoryKeys.all ((members.map Prod.fst).contains ·) &&
      (members.lookup "fen".toList).any (printableStr 0x20 128) &&
      (members.lookup "moves".toList).all movesOk &&
      (members.lookup "task".toList).any (fun v => v.text?.any (tasks.contains ·)) &&
      (members.lookup "max-tokens".toList).all fun v => (v.nat? 1 4096).isSome

/-! ### Accepted terms -/

/-- The state of a provider of an install. -/
structure Terms where
  accepted : Option Text
  revision : ℕ
  deriving DecidableEq, Repr

abbrev Providers := Dict (Text × Text) Terms

def readPair (install provider : Value) : Option (Text × Text) :=
  match readId installOk install, readId providerOk provider with
  | some install, some provider => some (install, provider)
  | _, _ => none

/-- `record`. -/
def Terms.record (c : Terms) (pair : Text × Text) : Value :=
  Value.object ["install_id".toList, "provider_id".toList, "accepted_terms".toList,
      "revision".toList]
    [.str pair.1, .str pair.2, (c.accepted.map Value.str).getD .null, .int c.revision]

/-- `register`. -/
def registerProvider (cells : Providers) (install provider : Value) :
    Except ByomFailure (Value × Providers) :=
  match readPair install provider with
  | none => .error .malformedByomRequest
  | some pair =>
    .ok (((cells.lookup pair).getD ⟨none, 0⟩).record pair, Cells.setDefault cells pair ⟨none, 0⟩)

/-- `accepted`. -/
def acceptedTerms (cells : Providers) (pair : Text × Text) : Option Text :=
  (cells.lookup pair).bind Terms.accepted

/-- The request of a transition: the terms to accept, or none to revoke. -/
structure TermsRequest where
  pair : Text × Text
  terms : Option ProviderTerms
  expected : ℕ
  token : Option Text

def readOptionalTerms (v : Value) : Option (Option ProviderTerms) :=
  match v with
  | .null => some none
  | v => (readTerms v).map some

def readTermsTransition (req : Value) : Option TermsRequest :=
  match req.fields? ["install_id".toList, "provider_id".toList, "terms".toList,
      "expected_revision".toList, "approval".toList] with
  | some [install, provider, terms, expected, approval] =>
    match readPair install provider, readOptionalTerms terms, readRev expected,
        readToken byomApprovalOk approval with
    | some pair, some terms, some expected, some token => some ⟨pair, terms, expected, token⟩
    | _, _, _, _ => none
  | _ => none

def TermsRequest.target (sha : Hex.Hash 64) (r : TermsRequest) : Option Text :=
  r.terms.map (termsDigest sha)

/-- `_approval_ok`. -/
def TermsRequest.approved (sha : Hex.Hash 64) (r : TermsRequest) : Bool :=
  (r.target sha).any fun digest =>
    decide (r.token = some (byomApprovalFor sha r.pair.1 r.pair.2 digest r.expected))

/-- `transition`, on the state of the provider. A revoke at the last revision keeps it. -/
def Terms.transition (approved : Bool) (expected : ℕ) (target : Option Text) (c : Terms) :
    Except ByomFailure Terms :=
  if expected ≠ c.revision then .error .staleRevision
  else if target = c.accepted then .ok c
  else if target.isSome = true ∧ approved = false then .error .approvalMissing
  else if target = none ∧ c.revision = maxRev then .ok ⟨none, c.revision⟩
  else
    match bump c.revision with
    | none => .error .revisionExhausted
    | some revision => .ok ⟨target, revision⟩

/-- `transition`. -/
def termsTransition (sha : Hex.Hash 64) (cells : Providers) (req : Value) :
    Except ByomFailure (Value × Providers) :=
  match readTermsTransition req with
  | none => .error .malformedByomRequest
  | some r =>
    match Cells.update cells r.pair .unknownProvider
        (Terms.transition (r.approved sha) r.expected (r.target sha)) with
    | .error e => .error e
    | .ok (c, cells') => .ok (c.record r.pair, cells')

/-! ### Sends -/

/-- A send that is well formed. -/
structure SendRequest where
  pair : Text × Text
  collection : Text
  terms : ProviderTerms

/-- The checks of a send before any state is read. -/
def readSend (req : Value) : Except ByomFailure SendRequest :=
  match req.fields? ["install_id".toList, "provider_id".toList, "collection_id".toList,
      "terms".toList, "payload".toList] with
  | some [install, provider, collection, terms, payload] =>
    match readPair install provider, readId collectionOk collection, readTerms terms with
    | some pair, some collection, some terms =>
      if payloadOk payload = true then .ok ⟨pair, collection, terms⟩ else .error .payloadRejected
    | _, _, _ => .error .malformedByomRequest
  | _ => .error .malformedByomRequest

/-- `_cloud_refusal`. -/
def cloudRefusal (switches : Switches) (flags : Flags) (install collection : Text) :
    Option ByomFailure :=
  match cloudVerdict switches flags
      (Value.object ["install_id".toList, "collection_id".toList, "destination".toList]
        [.str install, .str collection, .str "cloud".toList]) with
  | .ok () => none
  | .error .cloudModeOff => some .cloudModeOff
  | .error .collectionSensitive => some .collectionSensitive
  | .error _ => some .malformedByomRequest

/-- `send`. -/
def send (sha : Hex.Hash 64) (switches : Switches) (flags : Flags) (cells : Providers)
    (req : Value) : Except ByomFailure Value :=
  match readSend req with
  | .error e => .error e
  | .ok r =>
    match cloudRefusal switches flags r.pair.1 r.collection with
    | some e => .error e
    | none =>
      match acceptedTerms cells r.pair with
      | none => .error .termsNotAccepted
      | some accepted =>
        if accepted ≠ termsDigest sha r.terms then .error .termsChanged
        else .ok (Value.object ["verdict".toList, "terms_digest".toList]
          [.str "allow".toList, .str (termsDigest sha r.terms)])

variable {approved : Bool} {expected : ℕ} {target : Option Text} {c c' : Terms}

/-- What a transition writes: nothing where the provider has that value, and else the value
with the next revision; an approval where it accepts terms. -/
theorem Terms.of_transition (h : c.transition approved expected target = .ok c') :
    expected = c.revision ∧ (c' = c ∨ target ≠ c.accepted ∧
      (target.isSome = true → approved = true ∧ c.revision < maxRev) ∧ c'.accepted = target ∧
        (c.revision < maxRev ∧ c'.revision = c.revision + 1 ∨
          target = none ∧ c.revision = maxRev ∧ c'.revision = maxRev)) := by
  unfold Terms.transition at h
  split_ifs at h with hexpected hsame happroval hrevoke
  · exact ⟨not_not.mp hexpected, Or.inl (Except.ok.inj h).symm⟩
  · obtain rfl := Except.ok.inj h
    obtain ⟨rfl, hmax⟩ := hrevoke
    exact ⟨not_not.mp hexpected, Or.inr ⟨hsame, by simp, rfl, Or.inr ⟨rfl, hmax, hmax⟩⟩⟩
  · split at h
    · cases h
    · rename_i n hbump
      obtain ⟨hlt, rfl⟩ := bump_eq_some.mp hbump
      obtain rfl := Except.ok.inj h
      exact ⟨not_not.mp hexpected, Or.inr ⟨hsame, fun hsome =>
        ⟨approved_of_not happroval hsome, hlt⟩, rfl, Or.inl ⟨hlt, rfl⟩⟩⟩

/-! ### What a send needs -/

variable {sha : Hex.Hash 64} {switches : Switches} {flags : Flags} {cells : Providers}
  {req : Value} {r : SendRequest} {install collection : Text}

theorem cloudVerdict_cloud (hinstall : installOk install = true)
    (hcollection : collectionOk collection = true) :
    cloudVerdict switches flags
      (Value.object ["install_id".toList, "collection_id".toList, "destination".toList]
        [.str install, .str collection, .str "cloud".toList]) =
      if readsOff switches install = true then .error .cloudModeOff
      else if readsSensitive flags collection = true then .error .collectionSensitive
      else .ok () := by
  have hfields : (Value.object ["install_id".toList, "collection_id".toList, "destination".toList]
      [.str install, .str collection, .str "cloud".toList]).fields?
        ["install_id".toList, "collection_id".toList, "destination".toList] =
      some [.str install, .str collection, .str "cloud".toList] :=
    Value.fields?_object (by decide) rfl
  have hcloud : readDestination (.str "cloud".toList) = some .cloud := by decide
  unfold cloudVerdict
  simp only [hfields, hcloud, readId_eq_some.mpr ⟨rfl, hinstall⟩,
    readId_eq_some.mpr ⟨rfl, hcollection⟩]
  rw [if_neg (by decide)]

theorem cloudRefusal_eq_none (hinstall : installOk install = true)
    (hcollection : collectionOk collection = true) :
    cloudRefusal switches flags install collection = none ↔
      readsOff switches install = false ∧ readsSensitive flags collection = false := by
  unfold cloudRefusal
  rw [cloudVerdict_cloud hinstall hcollection]
  cases readsOff switches install <;> cases readsSensitive flags collection <;> simp

theorem of_readSend (h : readSend req = .ok r) :
    installOk r.pair.1 = true ∧ collectionOk r.collection = true := by
  unfold readSend at h
  split at h
  · split at h
    · rename_i hpair hcollection _
      split_ifs at h
      obtain rfl := Except.ok.inj h
      unfold readPair at hpair
      split at hpair
      · rename_i hinstall _
        obtain rfl := Option.some.inj hpair
        exact ⟨(readId_eq_some.mp hinstall).2, (readId_eq_some.mp hcollection).2⟩
      · cases hpair
    · cases h
  · cases h

/-- A well-formed send is allowed where the switch is on, the flag of the collection is
lowered, and the accepted terms are those of the request. -/
theorem send_isOk_iff (h : readSend req = .ok r) :
    (∃ reply, send sha switches flags cells req = .ok reply) ↔
      readsOff switches r.pair.1 = false ∧ readsSensitive flags r.collection = false ∧
        acceptedTerms cells r.pair = some (termsDigest sha r.terms) := by
  obtain ⟨hinstall, hcollection⟩ := of_readSend h
  have hverdict : cloudRefusal switches flags r.pair.1 r.collection = none ↔ _ :=
    cloudRefusal_eq_none hinstall hcollection
  unfold send
  simp only [h]
  cases hrefusal : cloudRefusal switches flags r.pair.1 r.collection with
  | some e =>
    rw [hrefusal] at hverdict
    simp only [reduceCtorEq, false_iff, exists_false] at hverdict ⊢
    exact fun hall => hverdict ⟨hall.1, hall.2.1⟩
  | none =>
    obtain ⟨hon, hlowered⟩ := hverdict.mp hrefusal
    cases acceptedTerms cells r.pair with
    | none => simp
    | some accepted =>
      by_cases hsame : accepted = termsDigest sha r.terms <;> simp [hsame, hon, hlowered]

end Privacy
end OpenChess
