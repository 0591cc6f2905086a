import OpenChess.Privacy.Consent

/-!
# Consents of a send

A send leaves the device where three consents stand: the last effective transition of the
install turned it on, the flag of the collection is lowered, and the last effective
transition of the provider accepted the terms of the send. Registrations, rejected requests
and requests that change nothing neither open the gate nor keep it open.
-/

namespace OpenChess
namespace Privacy

variable {sha : Hex.Hash 64} {s : Stores} {call : Call} {install collection digest : Text}
  {pair : Text × Text} {mode : Mode}

/-! ### Effective calls -/

def TurnsTo (sha : Hex.Hash 64) (install : Text) (mode : Mode) (s : Stores) (call : Call) : Prop :=
  ∃ req r, call = .cloudTransition req ∧ readCloudTransition req = some r ∧ r.install = install ∧
    r.target = mode ∧ (step sha s call).switches ≠ s.switches

def Turns (sha : Hex.Hash 64) (install : Text) (s : Stores) (call : Call) : Prop :=
  ∃ mode, TurnsTo sha install mode s call

def Call.flagRequest? : Call → Option FlagRequest
  | .flagTransition req => (readFlagTransition req).map Prod.fst
  | .flagRollback req => readRollback req
  | _ => none

/-- An effective transition or rollback of the flag of a collection. -/
def SetsFlag (sha : Hex.Hash 64) (collection : Text) (s : Stores) (call : Call) : Prop :=
  ∃ r, call.flagRequest? = some r ∧ r.collection = collection ∧
    (step sha s call).flags ≠ s.flags

/-- An effective transition or rollback, with an approval, that lowers the flag. -/
def Lowers (sha : Hex.Hash 64) (collection : Text) (s : Stores) (call : Call) : Prop :=
  ∃ r, call.flagRequest? = some r ∧ r.collection = collection ∧
    (step sha s call).flags ≠ s.flags ∧ r.approved sha = true ∧
    readsSensitive (step sha s call).flags collection = false

def SetsTerms (sha : Hex.Hash 64) (pair : Text × Text) (s : Stores) (call : Call) : Prop :=
  ∃ req r, call = .termsTransition req ∧ readTermsTransition req = some r ∧ r.pair = pair ∧
    (step sha s call).providers ≠ s.providers

def Accepts (sha : Hex.Hash 64) (pair : Text × Text) (digest : Text) (s : Stores) (call : Call) :
    Prop :=
  ∃ req r, call = .termsTransition req ∧ readTermsTransition req = some r ∧ r.pair = pair ∧
    (step sha s call).providers ≠ s.providers ∧ r.target sha = some digest ∧
    r.approved sha = true

/-! ### What a call does to each store -/

theorem switches_cases (sha : Hex.Hash 64) (s : Stores) (call : Call) :
    (step sha s call).switches = s.switches ∨
      (∃ new, s.switches.lookup new = none ∧
        (step sha s call).switches = s.switches.insert new ⟨.off, 0⟩ ∧
        ∀ install, ¬ Turns sha install s call) ∨
      ∃ req r c, call = .cloudTransition req ∧ readCloudTransition req = some r ∧
        s.switches.lookup r.install = some c ∧ r.expected = c.revision ∧
        (r.target = .on → r.approved sha = true) ∧
        (step sha s call).switches = s.switches.insert r.install ⟨r.target, c.revision + 1⟩ := by
  have heffect := step_effect sha s call
  generalize hafter : step sha s call = after at heffect
  cases heffect with
  | registerInstall hnew =>
    refine Or.inr (Or.inl ⟨_, hnew, rfl, fun install hturns => ?_⟩)
    obtain ⟨_, _, _, hcall, -⟩ := hturns
    cases hcall
  | turn hread hcell hexpected hconsent hmax =>
    exact Or.inr (Or.inr ⟨_, _, _, rfl, hread, hcell, hexpected, hconsent, rfl⟩)
  | _ => exact Or.inl rfl

theorem flags_cases (sha : Hex.Hash 64) (s : Stores) (call : Call) :
    (step sha s call).flags = s.flags ∨
      (∃ new, s.flags.lookup new = none ∧
        (step sha s call).flags = s.flags.insert new ⟨true, 0, []⟩ ∧
        ∀ collection, ¬ SetsFlag sha collection s call) ∨
      ∃ r target c history, call.flagRequest? = some r ∧ s.flags.lookup r.collection = some c ∧
        (target = false → r.approved sha = true) ∧
        (step sha s call).flags = s.flags.insert r.collection ⟨target, c.revision + 1, history⟩ := by
  have heffect := step_effect sha s call
  generalize hafter : step sha s call = after at heffect
  cases heffect with
  | registerCollection hnew =>
    refine Or.inr (Or.inl ⟨_, hnew, rfl, fun collection hsets => ?_⟩)
    obtain ⟨_, hcall, -⟩ := hsets
    cases hcall
  | setFlag hread hcell hexpected hconsent hmax =>
    exact Or.inr (Or.inr ⟨_, _, _, _, by simp [Call.flagRequest?, hread], hcell, hconsent, rfl⟩)
  | rollBack hread hcell htarget hexpected hconsent hmax =>
    exact Or.inr (Or.inr ⟨_, _, _, _, hread, hcell, hconsent, rfl⟩)
  | _ => exact Or.inl rfl

theorem providers_cases (sha : Hex.Hash 64) (s : Stores) (call : Call) :
    (step sha s call).providers = s.providers ∨
      (∃ new, s.providers.lookup new = none ∧
        (step sha s call).providers = s.providers.insert new ⟨none, 0⟩ ∧
        ∀ pair, ¬ SetsTerms sha pair s call) ∨
      ∃ req r c, call = .termsTransition req ∧ readTermsTransition req = some r ∧
        ((r.target sha).isSome = true → r.approved sha = true) ∧ c.accepted = r.target sha ∧
        (step sha s call).providers = s.providers.insert r.pair c := by
  have heffect := step_effect sha s call
  generalize hafter : step sha s call = after at heffect
  cases heffect with
  | registerProvider hnew =>
    refine Or.inr (Or.inl ⟨_, hnew, rfl, fun pair hsets => ?_⟩)
    obtain ⟨_, _, hcall, -⟩ := hsets
    cases hcall
  | setTerms hread hcell hexpected hchanged hconsent haccepted hrevision =>
    exact Or.inr (Or.inr ⟨_, _, _, rfl, hread, fun hsome => (hconsent hsome).1, haccepted, rfl⟩)
  | _ => exact Or.inl rfl

/-! ### The switch -/

/-- After an effective transition of an install its mode is the one asked for, and turning
it on took an opt-in. -/
theorem of_turnsTo (h : TurnsTo sha install mode s call) :
    readsOff (step sha s call).switches install = decide (mode ≠ .on) := by
  obtain ⟨req, r, rfl, hread, rfl, rfl, hne⟩ := h
  obtain hsame | ⟨_, -, -, hnone⟩ | ⟨req', r', c, hcall, hread', -, -, -, hafter⟩ :=
    switches_cases sha s (.cloudTransition req)
  · exact absurd hsame hne
  · exact absurd ⟨r.target, req, r, rfl, hread, rfl, rfl, hne⟩ (hnone r.install)
  · obtain rfl := Call.cloudTransition.inj hcall
    obtain rfl := Option.some.inj (hread.symm.trans hread')
    rw [hafter, readsOff, Finmap.lookup_insert]

theorem readsOff_of_not_turns (h : ¬ Turns sha install s call) :
    readsOff (step sha s call).switches install = readsOff s.switches install := by
  obtain hsame | ⟨new, hnew, hafter, -⟩ | ⟨req, r, c, rfl, hread, hcell, -, -, hafter⟩ :=
    switches_cases sha s call
  · rw [hsame]
  · rw [hafter]
    by_cases hk : install = new
    · subst hk
      simp [readsOff, hnew]
    · simp [readsOff, Finmap.lookup_insert_of_ne _ hk]
  · by_cases hk : install = r.install
    · subst hk
      refine absurd ⟨r.target, req, r, rfl, hread, rfl, rfl, fun hsame => ?_⟩ h
      rw [hsame] at hafter
      have hlookup := congrArg (Finmap.lookup r.install) hafter
      rw [hcell, Finmap.lookup_insert] at hlookup
      exact absurd (congrArg Switch.revision (Option.some.inj hlookup))
        (Nat.ne_of_lt (Nat.lt_succ_self _))
    · rw [hafter, readsOff, readsOff, Finmap.lookup_insert_of_ne _ hk]

/-- An install is on after a call that turned it on, and after a call that did not turn it
where it was on before. -/
theorem readsOff_step (sha : Hex.Hash 64) (install : Text) (s : Stores) (call : Call) :
    readsOff (step sha s call).switches install = false ↔ TurnsTo sha install .on s call ∨
      ¬ Turns sha install s call ∧ readsOff s.switches install = false := by
  by_cases hturns : Turns sha install s call
  · obtain ⟨mode, hmode⟩ := hturns
    rw [of_turnsTo hmode]
    constructor
    · intro hon
      obtain rfl : mode = .on := by simpa using hon
      exact Or.inl hmode
    · intro hon
      obtain hon | ⟨hnot, -⟩ := hon
      · rw [← of_turnsTo hmode, of_turnsTo hon]
        rfl
      · exact absurd ⟨mode, hmode⟩ hnot
  · have hon : ¬ TurnsTo sha install .on s call := fun hon => hturns ⟨.on, hon⟩
    rw [readsOff_of_not_turns hturns]
    simp [hturns, hon]

/-! ### The flags -/

theorem readsSensitive_of_not_sets (h : ¬ SetsFlag sha collection s call) :
    readsSensitive (step sha s call).flags collection = readsSensitive s.flags collection := by
  obtain hsame | ⟨new, hnew, hafter, -⟩ | ⟨r, target, c, history, hread, hcell, -, hafter⟩ :=
    flags_cases sha s call
  · rw [hsame]
  · rw [hafter]
    by_cases hk : collection = new
    · subst hk
      simp [readsSensitive, hnew]
    · simp [readsSensitive, Finmap.lookup_insert_of_ne _ hk]
  · by_cases hk : collection = r.collection
    · subst hk
      refine absurd ⟨r, hread, rfl, fun hsame => ?_⟩ h
      rw [hsame] at hafter
      have hlookup := congrArg (Finmap.lookup r.collection) hafter
      rw [hcell, Finmap.lookup_insert] at hlookup
      exact absurd (congrArg Flag.revision (Option.some.inj hlookup))
        (Nat.ne_of_lt (Nat.lt_succ_self _))
    · rw [hafter, readsSensitive, readsSensitive, Finmap.lookup_insert_of_ne _ hk]

theorem lowers_of_setsFlag (h : SetsFlag sha collection s call)
    (hlowered : readsSensitive (step sha s call).flags collection = false) :
    Lowers sha collection s call := by
  obtain ⟨r, hread, rfl, hne⟩ := h
  obtain hsame | ⟨_, -, -, hnone⟩ | ⟨r', target, c, history, hread', -, hconsent, hafter⟩ :=
    flags_cases sha s call
  · exact absurd hsame hne
  · exact absurd ⟨r, hread, rfl, hne⟩ (hnone r.collection)
  · obtain rfl := Option.some.inj (hread.symm.trans hread')
    refine ⟨r, hread, rfl, hne, hconsent ?_, hlowered⟩
    rw [hafter, readsSensitive, Finmap.lookup_insert] at hlowered
    exact hlowered

theorem readsSensitive_step (sha : Hex.Hash 64) (collection : Text) (s : Stores) (call : Call) :
    readsSensitive (step sha s call).flags collection = false ↔ Lowers sha collection s call ∨
      ¬ SetsFlag sha collection s call ∧ readsSensitive s.flags collection = false := by
  constructor
  · intro hlowered
    by_cases hsets : SetsFlag sha collection s call
    · exact Or.inl (lowers_of_setsFlag hsets hlowered)
    · rw [readsSensitive_of_not_sets hsets] at hlowered
      exact Or.inr ⟨hsets, hlowered⟩
  · intro h
    obtain ⟨r, -, -, -, -, hlowered⟩ | ⟨hnot, hlowered⟩ := h
    · exact hlowered
    · rw [readsSensitive_of_not_sets hnot]
      exact hlowered

/-! ### The accepted terms -/

theorem acceptedTerms_of_not_sets (h : ¬ SetsTerms sha pair s call) :
    acceptedTerms (step sha s call).providers pair = acceptedTerms s.providers pair := by
  obtain hsame | ⟨new, hnew, hafter, -⟩ | ⟨req, r, c, rfl, hread, -, -, hafter⟩ :=
    providers_cases sha s call
  · rw [hsame]
  · rw [hafter]
    by_cases hk : pair = new
    · subst hk
      simp [acceptedTerms, hnew]
    · simp [acceptedTerms, Finmap.lookup_insert_of_ne _ hk]
  · by_cases hk : pair = r.pair
    · subst hk
      by_cases hsame : (step sha s (.termsTransition req)).providers = s.providers
      · rw [hsame]
      · exact absurd ⟨req, r, rfl, hread, rfl, hsame⟩ h
    · rw [hafter, acceptedTerms, acceptedTerms, Finmap.lookup_insert_of_ne _ hk]

theorem accepts_of_setsTerms (h : SetsTerms sha pair s call)
    (haccepted : acceptedTerms (step sha s call).providers pair = some digest) :
    Accepts sha pair digest s call := by
  obtain ⟨req, r, rfl, hread, rfl, hne⟩ := h
  obtain hsame | ⟨_, -, -, hnone⟩ | ⟨req', r', c, hcall, hread', hconsent, htarget, hafter⟩ :=
    providers_cases sha s (.termsTransition req)
  · exact absurd hsame hne
  · exact absurd ⟨req, r, rfl, hread, rfl, hne⟩ (hnone r.pair)
  · obtain rfl := Call.termsTransition.inj hcall
    obtain rfl := Option.some.inj (hread.symm.trans hread')
    rw [hafter, acceptedTerms, Finmap.lookup_insert, Option.bind_some, htarget] at haccepted
    exact ⟨req, r, rfl, hread, rfl, hne, haccepted, hconsent (by rw [haccepted]; rfl)⟩

theorem acceptedTerms_of_accepts (h : Accepts sha pair digest s call) :
    acceptedTerms (step sha s call).providers pair = some digest := by
  obtain ⟨req, r, rfl, hread, rfl, hne, hdigest, -⟩ := h
  obtain hsame | ⟨_, -, -, hnone⟩ | ⟨req', r', c, hcall, hread', -, htarget, hafter⟩ :=
    providers_cases sha s (.termsTransition req)
  · exact absurd hsame hne
  · exact absurd ⟨req, r, rfl, hread, rfl, hne⟩ (hnone r.pair)
  · obtain rfl := Call.termsTransition.inj hcall
    obtain rfl := Option.some.inj (hread.symm.trans hread')
    rw [hafter, acceptedTerms, Finmap.lookup_insert, Option.bind_some, htarget, hdigest]

theorem acceptedTerms_step (sha : Hex.Hash 64) (pair : Text × Text) (digest : Text) (s : Stores)
    (call : Call) : acceptedTerms (step sha s call).providers pair = some digest ↔
      Accepts sha pair digest s call ∨
        ¬ SetsTerms sha pair s call ∧ acceptedTerms s.providers pair = some digest := by
  constructor
  · intro haccepted
    by_cases hsets : SetsTerms sha pair s call
    · exact Or.inl (accepts_of_setsTerms hsets haccepted)
    · rw [acceptedTerms_of_not_sets hsets] at haccepted
      exact Or.inr ⟨hsets, haccepted⟩
  · intro h
    obtain haccepts | ⟨hnot, haccepted⟩ := h
    · exact acceptedTerms_of_accepts haccepts
    · rw [acceptedTerms_of_not_sets hnot]
      exact haccepted

/-! ### Runs -/

def LastOn (sha : Hex.Hash 64) (install : Text) (calls : List Call) : Prop :=
  Trace.Last (step sha) Stores.empty (TurnsTo sha install .on) (Turns sha install) calls

def LastLowered (sha : Hex.Hash 64) (collection : Text) (calls : List Call) : Prop :=
  Trace.Last (step sha) Stores.empty (Lowers sha collection) (SetsFlag sha collection) calls

/-- The last effective transition of the provider accepted these terms with an approval. -/
def LastAccepted (sha : Hex.Hash 64) (pair : Text × Text) (digest : Text) (calls : List Call) :
    Prop :=
  Trace.Last (step sha) Stores.empty (Accepts sha pair digest) (SetsTerms sha pair) calls

theorem readsOff_run (sha : Hex.Hash 64) (install : Text) (calls : List Call) :
    readsOff (run sha calls).switches install = false ↔ LastOn sha install calls := by
  let on : Stores → Prop := fun s => readsOff s.switches install = false
  have hstart : ¬ on Stores.empty := by simp [on, readsOff, Stores.empty]
  exact Trace.holds_iff_last hstart (readsOff_step sha install) calls

theorem readsSensitive_run (sha : Hex.Hash 64) (collection : Text) (calls : List Call) :
    readsSensitive (run sha calls).flags collection = false ↔
      LastLowered sha collection calls := by
  let lowered : Stores → Prop := fun s => readsSensitive s.flags collection = false
  have hstart : ¬ lowered Stores.empty := by simp [lowered, readsSensitive, Stores.empty]
  exact Trace.holds_iff_last hstart (readsSensitive_step sha collection) calls

theorem acceptedTerms_run (sha : Hex.Hash 64) (pair : Text × Text) (digest : Text)
    (calls : List Call) : acceptedTerms (run sha calls).providers pair = some digest ↔
      LastAccepted sha pair digest calls := by
  let accepted : Stores → Prop := fun s => acceptedTerms s.providers pair = some digest
  have hstart : ¬ accepted Stores.empty := by simp [accepted, acceptedTerms, Stores.empty]
  exact Trace.holds_iff_last hstart (acceptedTerms_step sha pair digest) calls

/-- An effective transition that turns an install on carries the opt-in of the install at
its revision. -/
theorem optIn_of_turnsTo (h : TurnsTo sha install .on s call) :
    ∃ req r c, call = .cloudTransition req ∧ readCloudTransition req = some r ∧
      s.switches.lookup install = some c ∧
      r.token = some (optInFor sha install c.revision) := by
  obtain ⟨req, r, rfl, hread, rfl, hon, hne⟩ := h
  obtain hsame | ⟨_, -, -, hnone⟩ | ⟨req', r', c, hcall, hread', hcell, hexpected, hconsent, -⟩ :=
    switches_cases sha s (.cloudTransition req)
  · exact absurd hsame hne
  · exact absurd ⟨r.target, req, r, rfl, hread, rfl, rfl, hne⟩ (hnone r.install)
  · obtain rfl := Call.cloudTransition.inj hcall
    obtain rfl := Option.some.inj (hread.symm.trans hread')
    have htoken := of_decide_eq_true (hconsent hon)
    rw [hexpected] at htoken
    exact ⟨req, r, c, rfl, hread, hcell, htoken⟩

/-- A well-formed send is allowed after a run exactly where the last effective transition of
the install turned it on, the collection is registered and its flag is lowered, and the last
effective transition of the provider accepted the terms of the send with an approval. Turning
on takes an opt-in, and the flag is lowered where the last effective call on it lowered it
with an approval. -/
theorem send_allowed_iff (sha : Hex.Hash 64) (calls : List Call) {req : Value} {r : SendRequest}
    (h : readSend req = .ok r) :
    ((∃ reply, send sha (run sha calls).switches (run sha calls).flags (run sha calls).providers
        req = .ok reply) ↔
      LastOn sha r.pair.1 calls ∧
        (∃ c, (run sha calls).flags.lookup r.collection = some c ∧ c.sensitive = false) ∧
        LastAccepted sha r.pair (termsDigest sha r.terms) calls) ∧
    (∀ s call, TurnsTo sha r.pair.1 .on s call → ∃ req' r' c, call = .cloudTransition req' ∧
      readCloudTransition req' = some r' ∧ s.switches.lookup r.pair.1 = some c ∧
      r'.token = some (optInFor sha r.pair.1 c.revision)) ∧
    ((∃ c, (run sha calls).flags.lookup r.collection = some c ∧ c.sensitive = false) ↔
      LastLowered sha r.collection calls) := by
  have hflag : (∃ c, (run sha calls).flags.lookup r.collection = some c ∧ c.sensitive = false) ↔
      readsSensitive (run sha calls).flags r.collection = false := by
    unfold readsSensitive
    cases (run sha calls).flags.lookup r.collection <;> simp
  refine ⟨?_, fun s call => optIn_of_turnsTo, ?_⟩
  · rw [send_isOk_iff h, readsOff_run, acceptedTerms_run, hflag]
  · rw [hflag, readsSensitive_run]

/-! ### A send that is allowed -/

def sampleInstall : Text := "ins1:".toList ++ List.replicate 64 '0'

def sampleCollection : Text := "col1:".toList ++ List.replicate 64 '0'

def sampleProvider : Text := "prv1:a".toList

def sampleTerms : Value :=
  Value.object ["retention_days".toList, "region".toList, "trains_on_inputs".toList]
    [.int 30, .str "eu".toList, .bool false]

def sampleSha : Hex.Hash 64 := Hex.Hash.lengths 64

/-- Registrations, then the three consents. -/
def sampleCalls : List Call :=
  [.registerInstall (.str sampleInstall), .registerCollection (.str sampleCollection),
    .registerProvider (.str sampleInstall) (.str sampleProvider),
    .cloudTransition (Value.object
      ["install_id".toList, "cloud_mode".toList, "expected_revision".toList, "opt_in".toList]
      [.str sampleInstall, .str "on".toList, .int 0, .str (optInFor sampleSha sampleInstall 0)]),
    .flagTransition (Value.object
      ["collection_id".toList, "sensitive".toList, "expected_revision".toList, "approval".toList]
      [.str sampleCollection, .bool false, .int 0,
        .str (approvalFor sampleSha sampleCollection 0)]),
    .termsTransition (Value.object
      ["install_id".toList, "provider_id".toList, "terms".toList, "expected_revision".toList,
        "approval".toList]
      [.str sampleInstall, .str sampleProvider, sampleTerms, .int 0,
        .str (byomApprovalFor sampleSha sampleInstall sampleProvider
          (termsDigest sampleSha ⟨30, "eu".toList, false⟩) 0)])]

def sampleSend : Value :=
  Value.object ["install_id".toList, "provider_id".toList, "collection_id".toList,
      "terms".toList, "payload".toList]
    [.str sampleInstall, .str sampleProvider, .str sampleCollection, sampleTerms,
      Value.object ["fen".toList, "task".toList] [.str "8/8".toList, .str "weekly-plan".toList]]

theorem exists_of_isOk {E A : Type} {result : Except E A} (h : result.isOk = true) :
    ∃ a, result = .ok a := by
  cases result with
  | error e => cases h
  | ok a => exact ⟨a, rfl⟩

theorem send_allowed_sample : LastOn sampleSha sampleInstall sampleCalls ∧
    LastAccepted sampleSha (sampleInstall, sampleProvider)
      (termsDigest sampleSha ⟨30, "eu".toList, false⟩) sampleCalls := by
  have hread : readSend sampleSend =
      .ok ⟨(sampleInstall, sampleProvider), sampleCollection, ⟨30, "eu".toList, false⟩⟩ := by rfl
  have hsent : (send sampleSha (run sampleSha sampleCalls).switches
      (run sampleSha sampleCalls).flags (run sampleSha sampleCalls).providers
      sampleSend).isOk = true := by decide +kernel
  obtain ⟨hallowed, -⟩ := send_allowed_iff sampleSha sampleCalls hread
  obtain ⟨hon, -, haccepted⟩ := hallowed.mp (exists_of_isOk hsent)
  exact ⟨hon, haccepted⟩

end Privacy
end OpenChess
