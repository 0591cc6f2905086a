import OpenChess.Privacy.Egress

/-!
# Approvals are used once

A token is bound to a subject at a revision. A change that needs it raises the revision, and
revisions never go back, so that no token authorises two changes.
-/

namespace OpenChess
namespace Privacy

variable {sha : Hex.Hash 64} {s : Stores} {call : Call}

/-! ### Subjects and revisions -/

/-- What a change is about. -/
inductive Subject
  | install (id : Text)
  | collection (id : Text)
  | provider (pair : Text × Text)
  deriving DecidableEq

/-- The state of a subject. -/
inductive Cell
  | switch (c : Switch)
  | flag (c : Flag)
  | terms (c : Terms)
  deriving DecidableEq

def Cell.revision : Cell → ℕ
  | .switch c => c.revision
  | .flag c => c.revision
  | .terms c => c.revision

def Stores.cell (s : Stores) : Subject → Option Cell
  | .install id => (s.switches.lookup id).map Cell.switch
  | .collection id => (s.flags.lookup id).map Cell.flag
  | .provider pair => (s.providers.lookup pair).map Cell.terms

def Stores.revision (s : Stores) (k : Subject) : ℕ := ((s.cell k).map Cell.revision).getD 0

/-! ### Tokens -/

/-- A change that needs a token: what it is about, and the revision it expects. -/
inductive Consent
  | optIn (install : Text) (expected : ℕ)
  | lower (collection : Text) (expected : ℕ)
  | accept (pair : Text × Text) (digest : Text) (expected : ℕ)

def Consent.subject : Consent → Subject
  | .optIn install _ => .install install
  | .lower collection _ => .collection collection
  | .accept pair _ _ => .provider pair

def Consent.expected : Consent → ℕ
  | .optIn _ expected => expected
  | .lower _ expected => expected
  | .accept _ _ expected => expected

/-- The token the change needs. -/
def Consent.token (sha : Hex.Hash 64) : Consent → Text
  | .optIn install expected => optInFor sha install expected
  | .lower collection expected => approvalFor sha collection expected
  | .accept pair digest expected => byomApprovalFor sha pair.1 pair.2 digest expected

/-- The fields of the text that is hashed for the token. -/
def Consent.parts : Consent → List Text
  | .optIn install expected => optInParts install expected
  | .lower collection expected => flagParts collection expected
  | .accept pair digest expected => byomParts pair.1 pair.2 digest expected

/-- The identifiers have their grammars. -/
def Consent.WellFormed : Consent → Prop
  | .optIn install _ => installOk install = true
  | .lower collection _ => collectionOk collection = true
  | .accept pair digest _ => installOk pair.1 = true ∧ providerOk pair.2 = true ∧
      Hex.tagged "trm1:".toList 64 digest = true

/-- The consent a call needs: to turn an install on, to lower a flag, and to accept terms. -/
def Call.consent? (sha : Hex.Hash 64) (s : Stores) : Call → Option Consent
  | .cloudTransition req =>
    match readCloudTransition req with
    | some r => if r.target = .on then some (.optIn r.install r.expected) else none
    | none => none
  | .flagTransition req =>
    match readFlagTransition req with
    | some (r, target) => if target = false then some (.lower r.collection r.expected) else none
    | none => none
  | .flagRollback req =>
    match readRollback req with
    | some r =>
      if (s.flags.lookup r.collection).bind (fun c => c.history.getLast?) = some false then
        some (.lower r.collection r.expected)
      else none
    | none => none
  | .termsTransition req =>
    match readTermsTransition req with
    | some r => (r.target sha).map fun digest => .accept r.pair digest r.expected
    | none => none
  | _ => none

def Call.request? : Call → Option (Subject × ℕ × Option Text)
  | .cloudTransition req =>
    (readCloudTransition req).map fun r => (.install r.install, r.expected, r.token)
  | .flagTransition req =>
    (readFlagTransition req).map fun p => (.collection p.1.collection, p.1.expected, p.1.token)
  | .flagRollback req =>
    (readRollback req).map fun r => (.collection r.collection, r.expected, r.token)
  | .termsTransition req =>
    (readTermsTransition req).map fun r => (.provider r.pair, r.expected, r.token)
  | _ => none

/-- A call that changes the state by a consent, with its token. -/
def Authorises (sha : Hex.Hash 64) (s : Stores) (call : Call) (consent : Consent) : Prop :=
  call.consent? sha s = some consent ∧ step sha s call ≠ s ∧
    ∃ subject expected, call.request? = some (subject, expected, some (consent.token sha))

def Needed (sha : Hex.Hash 64) (calls : List Call) (consent : Consent) : Prop :=
  ∃ before call after, calls = before ++ call :: after ∧
    call.consent? sha (run sha before) = some consent

/-! ### Cells -/

variable {k : Subject}

theorem cell_insert_switch (s : Stores) (id : Text) (c : Switch) (k : Subject) :
    { s with switches := s.switches.insert id c }.cell k =
      if k = .install id then some (.switch c) else s.cell k := by
  cases k with
  | install id' =>
    by_cases hid : id' = id
    · subst hid
      simp [Stores.cell]
    · simp [Stores.cell, hid, Finmap.lookup_insert_of_ne _ hid]
  | _ => rfl

theorem cell_insert_flag (s : Stores) (id : Text) (c : Flag) (k : Subject) :
    { s with flags := s.flags.insert id c }.cell k =
      if k = .collection id then some (.flag c) else s.cell k := by
  cases k with
  | collection id' =>
    by_cases hid : id' = id
    · subst hid
      simp [Stores.cell]
    · simp [Stores.cell, hid, Finmap.lookup_insert_of_ne _ hid]
  | _ => rfl

theorem cell_insert_terms (s : Stores) (pair : Text × Text) (c : Terms) (k : Subject) :
    { s with providers := s.providers.insert pair c }.cell k =
      if k = .provider pair then some (.terms c) else s.cell k := by
  cases k with
  | provider pair' =>
    by_cases hpair : pair' = pair
    · subst hpair
      simp [Stores.cell]
    · simp [Stores.cell, hpair, Finmap.lookup_insert_of_ne _ hpair]
  | _ => rfl

/-- What a call does to the stores, by subjects: nothing, a fresh cell, or a change of one
cell that raises its revision by one; only a revoke at the last revision keeps it. A change
expects the revision of its cell, and where it needs a consent it carries the token. -/
inductive Change (sha : Hex.Hash 64) (s : Stores) (call : Call) (s' : Stores) : Prop
  | keep (hsame : s' = s)
  | fresh {k : Subject} {c : Cell} (hnew : s.cell k = none) (hrevision : c.revision = 0)
      (hcell : ∀ k', s'.cell k' = if k' = k then some c else s.cell k')
      (hrequest : call.request? = none)
  | write {k : Subject} {c c' : Cell} (token : Option Text) (hold : s.cell k = some c)
      (hrequest : call.request? = some (k, c.revision, token))
      (hcell : ∀ k', s'.cell k' = if k' = k then some c' else s.cell k')
      (hconsent : ∀ consent, call.consent? sha s = some consent →
        token = some (consent.token sha) ∧ consent.subject = k ∧
          consent.expected = c.revision ∧ c.revision < maxRev)
      (hrevision : c.revision < maxRev ∧ c'.revision = c.revision + 1 ∨
        c.revision = maxRev ∧ c'.revision = maxRev ∧ ∃ req r, call = .termsTransition req ∧
          readTermsTransition req = some r ∧ r.terms = none)

theorem step_change (sha : Hex.Hash 64) (s : Stores) (call : Call) :
    Change sha s call (step sha s call) := by
  have heffect := step_effect sha s call
  generalize step sha s call = after at heffect ⊢
  cases heffect with
  | keep => exact .keep rfl
  | registerInstall hnew =>
    rename_i id install
    refine .fresh (k := .install install) ?_ ?_ (cell_insert_switch s install _) rfl
    · simp [Stores.cell, hnew]
    · rfl
  | registerCollection hnew =>
    rename_i id collection
    refine .fresh (k := .collection collection) ?_ ?_ (cell_insert_flag s collection _) rfl
    · simp [Stores.cell, hnew]
    · rfl
  | registerProvider hnew =>
    rename_i install provider pair
    refine .fresh (k := .provider pair) ?_ ?_ (cell_insert_terms s pair _) rfl
    · simp [Stores.cell, hnew]
    · rfl
  | turn hread hcell hexpected hconsent hmax =>
    rename_i req r c
    refine .write (k := .install r.install) (c := .switch c) r.token ?_ ?_
      (cell_insert_switch s r.install _) ?_ (Or.inl ⟨hmax, rfl⟩)
    · simp [Stores.cell, hcell]
    · simp [Call.request?, hread, hexpected, Cell.revision]
    · intro consent hneeded
      simp only [Call.consent?, hread] at hneeded
      split_ifs at hneeded with hon
      obtain rfl := Option.some.inj hneeded
      exact ⟨of_decide_eq_true (hconsent hon), rfl, hexpected, hmax⟩
  | setFlag hread hcell hexpected hconsent hmax =>
    rename_i req r target c
    refine .write (k := .collection r.collection) (c := .flag c) r.token ?_ ?_
      (cell_insert_flag s r.collection _) ?_ (Or.inl ⟨hmax, rfl⟩)
    · simp [Stores.cell, hcell]
    · simp [Call.request?, hread, hexpected, Cell.revision]
    · intro consent hneeded
      simp only [Call.consent?, hread] at hneeded
      split_ifs at hneeded with hfalse
      obtain rfl := Option.some.inj hneeded
      exact ⟨of_decide_eq_true (hconsent hfalse), rfl, hexpected, hmax⟩
  | rollBack hread hcell htarget hexpected hconsent hmax =>
    rename_i req r target c
    refine .write (k := .collection r.collection) (c := .flag c) r.token ?_ ?_
      (cell_insert_flag s r.collection _) ?_ (Or.inl ⟨hmax, rfl⟩)
    · simp [Stores.cell, hcell]
    · simp [Call.request?, hread, hexpected, Cell.revision]
    · intro consent hneeded
      simp only [Call.consent?, hread, hcell, Option.bind_some, htarget] at hneeded
      split_ifs at hneeded with hfalse
      obtain rfl := Option.some.inj hneeded
      exact ⟨of_decide_eq_true (hconsent (Option.some.inj hfalse)), rfl, hexpected, hmax⟩
  | setTerms hread hcell hexpected hchanged hconsent haccepted hrevision =>
    rename_i req r c c'
    refine .write (k := .provider r.pair) (c := .terms c) r.token ?_ ?_
      (cell_insert_terms s r.pair _) ?_ ?_
    · simp [Stores.cell, hcell]
    · simp [Call.request?, hread, hexpected, Cell.revision]
    · intro consent hneeded
      simp only [Call.consent?, hread] at hneeded
      obtain ⟨digest, hdigest, rfl⟩ := Option.map_eq_some_iff.mp hneeded
      obtain ⟨happroved, hmax⟩ := hconsent (by rw [hdigest]; rfl)
      simp only [TermsRequest.approved, hdigest, Option.any_some] at happroved
      exact ⟨of_decide_eq_true happroved, rfl, hexpected, hmax⟩
    · obtain hraised | ⟨hnone, hmax, hkept⟩ := hrevision
      · exact Or.inl hraised
      · exact Or.inr ⟨hmax, hkept, req, r, rfl, hread, Option.map_eq_none_iff.mp hnone⟩

theorem Change.revision_le {s' : Stores} (h : Change sha s call s') (k : Subject) :
    s.revision k ≤ s'.revision k := by
  cases h with
  | keep hsame => rw [hsame]
  | fresh hnew hrevision hcell hrequest =>
    rename_i k₀ c
    simp only [Stores.revision, hcell]
    split_ifs with hk
    · subst hk
      simp [hnew]
    · exact le_rfl
  | write token hold hrequest hcell hconsent hrevision =>
    rename_i k₀ c c'
    simp only [Stores.revision, hcell]
    split_ifs with hk
    · subst hk
      simp only [hold, Option.map_some, Option.getD_some]
      omega
    · exact le_rfl

/-- A consent that is used is spent: it is for the revision of its subject, which is higher
afterwards. -/
theorem authorises_spends {consent : Consent} (h : Authorises sha s call consent) :
    s.revision consent.subject = consent.expected ∧
      consent.expected < (step sha s call).revision consent.subject := by
  obtain ⟨hneeded, hchanged, subject, expected, hrequest⟩ := h
  have hchange := step_change sha s call
  cases hchange with
  | keep hsame => exact absurd hsame hchanged
  | fresh hnew hrevision hcell hnone =>
    rw [hnone] at hrequest
    cases hrequest
  | write token hold hrequest' hcell hconsent hrevision =>
    obtain ⟨-, rfl, hexpected, hmax⟩ := hconsent consent hneeded
    constructor
    · simp [Stores.revision, hold, hexpected]
    · simp only [Stores.revision, hcell, if_true, Option.map_some, Option.getD_some]
      omega

/-! ### Tokens determine their consent -/

theorem bar_not_mem_provider {t : Text} (h : providerOk t = true) : '|' ∉ t := by
  simp only [providerOk, Bool.and_eq_true, List.isPrefixOf_iff_prefix, List.all_eq_true] at h
  obtain ⟨⟨⟨⟨rest, rfl⟩, -⟩, -⟩, hall⟩ := h
  have hrest : ("prv1:".toList ++ rest).drop 5 = rest := rfl
  rw [hrest] at hall
  intro hc
  rcases List.mem_append.mp hc with hc | hc
  · exact absurd hc (by decide)
  · exact absurd (hall _ hc) (by decide)

theorem bar_not_mem_parts {consent : Consent} (h : consent.WellFormed) :
    ∀ part ∈ consent.parts, '|' ∉ part := by
  have hinstall : '|' ∉ "ins1:".toList := by decide
  have hcollection : '|' ∉ "col1:".toList := by decide
  have hterms : '|' ∉ "trm1:".toList := by decide
  have hon : '|' ∉ "on".toList := by decide
  have hfalse : '|' ∉ "false".toList := by decide
  cases consent with
  | optIn install expected =>
    simp only [Consent.parts, optInParts, List.forall_mem_cons]
    exact ⟨bar_not_mem_tagged hinstall h, bar_not_mem_digits expected, hon, by simp⟩
  | lower collection expected =>
    simp only [Consent.parts, flagParts, List.forall_mem_cons]
    exact ⟨bar_not_mem_tagged hcollection h, bar_not_mem_digits expected, hfalse, by simp⟩
  | accept pair digest expected =>
    simp only [Consent.parts, byomParts, List.forall_mem_cons]
    exact ⟨bar_not_mem_tagged hinstall h.1, bar_not_mem_provider h.2.1,
      bar_not_mem_tagged hterms h.2.2, bar_not_mem_digits expected, by simp⟩

theorem parts_ne_nil (consent : Consent) : consent.parts ≠ [] := by
  cases consent <;> simp [Consent.parts, optInParts, flagParts, byomParts]

/-- Consents of one kind with one token are the same, where the hash separates their texts;
tokens of different kinds have different tags. -/
theorem eq_of_token_eq {consent consent' : Consent} (h : consent.WellFormed)
    (h' : consent'.WellFormed)
    (hsep : sha.Separates (bindingText consent.parts) (bindingText consent'.parts))
    (htoken : consent.token sha = consent'.token sha) : consent = consent' := by
  have hparts : bindingText consent.parts = bindingText consent'.parts →
      consent.parts = consent'.parts :=
    bindingText_inj (parts_ne_nil _) (parts_ne_nil _) (bar_not_mem_parts h) (bar_not_mem_parts h')
  have hhead := congrArg List.head? htoken
  cases consent with
  | optIn install expected =>
    cases consent' with
    | optIn install' expected' =>
      have heq := hparts (boundToken_inj hsep htoken)
      simp only [Consent.parts, optInParts, List.cons.injEq, and_true] at heq
      rw [heq.1, Separated.toDigits_injective heq.2]
    | lower => exact absurd hhead (show some 'o' ≠ some 'a' by decide)
    | accept => exact absurd hhead (show some 'o' ≠ some 'b' by decide)
  | lower collection expected =>
    cases consent' with
    | optIn => exact absurd hhead (show some 'a' ≠ some 'o' by decide)
    | lower collection' expected' =>
      have heq := hparts (boundToken_inj hsep htoken)
      simp only [Consent.parts, flagParts, List.cons.injEq, and_true] at heq
      rw [heq.1, Separated.toDigits_injective heq.2]
    | accept => exact absurd hhead (show some 'a' ≠ some 'b' by decide)
  | accept pair digest expected =>
    cases consent' with
    | optIn => exact absurd hhead (show some 'b' ≠ some 'o' by decide)
    | lower => exact absurd hhead (show some 'b' ≠ some 'a' by decide)
    | accept pair' digest' expected' =>
      have heq := hparts (boundToken_inj hsep htoken)
      simp only [Consent.parts, byomParts, List.cons.injEq, and_true] at heq
      obtain ⟨hinstall, hprovider, hdigest, hexpected⟩ := heq
      rw [Prod.ext hinstall hprovider, hdigest, Separated.toDigits_injective hexpected]

theorem of_readPair {install provider : Value} {pair : Text × Text}
    (h : readPair install provider = some pair) :
    installOk pair.1 = true ∧ providerOk pair.2 = true := by
  unfold readPair at h
  split at h
  · rename_i hinstall hprovider
    obtain rfl := Option.some.inj h
    exact ⟨(readId_eq_some.mp hinstall).2, (readId_eq_some.mp hprovider).2⟩
  · cases h

theorem of_readCloudTransition {req : Value} {r : CloudRequest}
    (h : readCloudTransition req = some r) : installOk r.install = true := by
  unfold readCloudTransition at h
  split at h
  · split at h
    · rename_i hinstall _ _ _
      obtain rfl := Option.some.inj h
      exact (readId_eq_some.mp hinstall).2
    · cases h
  · cases h

theorem of_readFlag {collection expected approval : Value} {r : FlagRequest}
    (h : readFlag collection expected approval = some r) : collectionOk r.collection = true := by
  unfold readFlag at h
  split at h
  · rename_i hcollection _ _
    obtain rfl := Option.some.inj h
    exact (readId_eq_some.mp hcollection).2
  · cases h

theorem of_readTermsTransition {req : Value} {r : TermsRequest}
    (h : readTermsTransition req = some r) :
    installOk r.pair.1 = true ∧ providerOk r.pair.2 = true := by
  unfold readTermsTransition at h
  split at h
  · split at h
    · rename_i hpair _ _ _
      obtain rfl := Option.some.inj h
      exact of_readPair hpair
    · cases h
  · cases h

theorem wellFormed_of_consent? {consent : Consent} (h : call.consent? sha s = some consent) :
    consent.WellFormed := by
  cases call with
  | cloudTransition req =>
    simp only [Call.consent?] at h
    cases hread : readCloudTransition req with
    | none => simp [hread] at h
    | some r =>
      simp only [hread] at h
      split_ifs at h
      obtain rfl := Option.some.inj h
      exact of_readCloudTransition hread
  | flagTransition req =>
    simp only [Call.consent?] at h
    cases hread : readFlagTransition req with
    | none => simp [hread] at h
    | some p =>
      simp only [hread] at h
      split_ifs at h
      obtain rfl := Option.some.inj h
      unfold readFlagTransition at hread
      split at hread
      · obtain ⟨r, hr, rfl⟩ := Option.map_eq_some_iff.mp hread
        exact of_readFlag hr
      · cases hread
  | flagRollback req =>
    simp only [Call.consent?] at h
    cases hread : readRollback req with
    | none => simp [hread] at h
    | some r =>
      simp only [hread] at h
      split_ifs at h
      obtain rfl := Option.some.inj h
      unfold readRollback at hread
      split at hread
      · exact of_readFlag hread
      · cases hread
  | termsTransition req =>
    simp only [Call.consent?] at h
    cases hread : readTermsTransition req with
    | none => simp [hread] at h
    | some r =>
      simp only [hread] at h
      obtain ⟨digest, hdigest, rfl⟩ := Option.map_eq_some_iff.mp h
      obtain ⟨terms, -, rfl⟩ := Option.map_eq_some_iff.mp hdigest
      obtain ⟨hinstall, hprovider⟩ := of_readTermsTransition hread
      exact ⟨hinstall, hprovider, Hex.Hash.tagged sha _ _⟩
  | _ => cases h

/-! ### Runs -/

theorem revision_le_maxRev (sha : Hex.Hash 64) (calls : List Call) (k : Subject) :
    (run sha calls).revision k ≤ maxRev := by
  induction calls using List.reverseRecOn with
  | nil =>
    have hempty : Stores.empty.cell k = none := by
      cases k <;> simp [Stores.cell, Stores.empty]
    simp [run, Stores.revision, hempty]
  | append_singleton calls call ih =>
    rw [run, Trace.run_snoc]
    have hchange := step_change sha (Trace.run (step sha) Stores.empty calls) call
    generalize step sha (Trace.run (step sha) Stores.empty calls) call = after at hchange ⊢
    cases hchange with
    | keep hsame =>
      rw [hsame]
      exact ih
    | fresh hnew hrevision hcell hrequest =>
      rw [Stores.revision, hcell]
      split_ifs with hk
      · simp [hrevision]
      · exact ih
    | write token hold hrequest hcell hconsent hrevision =>
      rw [Stores.revision, hcell]
      split_ifs with hk
      · simp only [Option.map_some, Option.getD_some]
        omega
      · exact ih

/-- Approvals are used once. Over every run in which the hash separates the texts of the
consents that are needed: no token authorises two changes; a change raises the revision of
its cell by one, but for a revoke at the last revision, which keeps it; a request with
another revision, or without the token where a consent is needed, changes nothing; and no
revision exceeds the bound. -/
theorem single_use (sha : Hex.Hash 64) (calls : List Call)
    (hsep : ∀ consent consent', Needed sha calls consent → Needed sha calls consent' →
      sha.Separates (bindingText consent.parts) (bindingText consent'.parts)) :
    (∀ before call between call' after consent consent',
      calls = before ++ call :: (between ++ call' :: after) →
      Authorises sha (run sha before) call consent →
      Authorises sha (run sha (before ++ call :: between)) call' consent' →
      consent.token sha ≠ consent'.token sha) ∧
    (∀ before call after k c c', calls = before ++ call :: after →
      (run sha before).cell k = some c → (run sha (before ++ [call])).cell k = some c' → c' ≠ c →
      c'.revision = c.revision + 1 ∨
        c.revision = maxRev ∧ c'.revision = maxRev ∧ ∃ req r, call = .termsTransition req ∧
          readTermsTransition req = some r ∧ r.terms = none) ∧
    (∀ before call after k expected token, calls = before ++ call :: after →
      call.request? = some (k, expected, token) →
      ((∀ c, (run sha before).cell k = some c → c.revision ≠ expected) ∨
        ∃ consent, call.consent? sha (run sha before) = some consent ∧
          token ≠ some (consent.token sha)) →
      run sha (before ++ [call]) = run sha before) ∧
    ∀ before after, calls = before ++ after → ∀ k, (run sha before).revision k ≤ maxRev := by
  refine ⟨?_, ?_, ?_, fun before after hcalls k => revision_le_maxRev sha before k⟩
  · intro before call between call' after consent consent' hcalls huse huse' htoken
    have hneeded : Needed sha calls consent := ⟨before, call, _, hcalls, huse.1⟩
    have hneeded' : Needed sha calls consent' :=
      ⟨before ++ call :: between, call', after, by simp [hcalls], huse'.1⟩
    have hsame : consent = consent' :=
      eq_of_token_eq (wellFormed_of_consent? huse.1) (wellFormed_of_consent? huse'.1)
        (hsep consent consent' hneeded hneeded') htoken
    subst hsame
    -- the consent was spent by the first call
    let spends : Stores → Call → Subject → ℕ → Prop := fun s call k n =>
      s.revision k = n ∧ n < (step sha s call).revision k
    have hspent : spends (run sha before) call consent.subject consent.expected :=
      authorises_spends huse
    have hspent' : spends (run sha (before ++ call :: between)) call' consent.subject
        consent.expected := authorises_spends huse'
    exact Trace.used_once (fun s call k => (step_change sha s call).revision_le k)
      (fun s call k n (huses : spends s call k n) => huses) hspent hspent'
  · intro before call after k c c' hcalls hold hnew hne
    rw [run, Trace.run_snoc] at hnew
    cases hchange : step_change sha (run sha before) call with
    | keep hsame =>
      have hkept : (step sha (run sha before) call).cell k = some c := by rw [hsame, hold]
      exact absurd (Option.some.inj (hnew.symm.trans hkept)) hne
    | fresh habsent hrevision hcell hrequest =>
      have hafter := (hcell k).symm.trans hnew
      split_ifs at hafter with hk
      · rw [hk, habsent] at hold
        cases hold
      · exact absurd (Option.some.inj (hafter.symm.trans hold)) hne
    | write token hcellOld hrequest hcell hconsent hrevision =>
      have hafter := (hcell k).symm.trans hnew
      split_ifs at hafter with hk
      · rw [hk, hcellOld] at hold
        obtain rfl := Option.some.inj hold
        obtain rfl := Option.some.inj hafter
        obtain ⟨-, hraised⟩ | hkept := hrevision
        · exact Or.inl hraised
        · exact Or.inr hkept
      · exact absurd (Option.some.inj (hafter.symm.trans hold)) hne
  · intro before call after k expected token hcalls hrequest hrefused
    rw [run, Trace.run_snoc]
    cases hchange : step_change sha (run sha before) call with
    | keep hsame => exact hsame
    | fresh habsent hrevision hcell hnone =>
      rw [hnone] at hrequest
      cases hrequest
    | write token' hcellOld hrequest' hcell hconsent hrevision =>
      obtain ⟨rfl, hexpected, rfl⟩ := by simpa using hrequest'.symm.trans hrequest
      obtain hstale | ⟨consent, hneeded, hwrong⟩ := hrefused
      · exact absurd hexpected (hstale _ hcellOld)
      · exact absurd (hconsent consent hneeded).1 hwrong

/-! ### A token that is sent again -/

def sampleTurn (mode : Mode) (expected : ℕ) (optIn : Value) : Call :=
  .cloudTransition (Value.object
    ["install_id".toList, "cloud_mode".toList, "expected_revision".toList, "opt_in".toList]
    [.str sampleInstall, .str mode.text, .int expected, optIn])

def sampleOptIn : Text := optInFor sampleSha sampleInstall 0

def sampleTurns : List Call :=
  [.registerInstall (.str sampleInstall), sampleTurn .on 0 (.str sampleOptIn),
    sampleTurn .off 1 .null]

theorem read_sampleTurn_on : readCloudTransition (Value.object
    ["install_id".toList, "cloud_mode".toList, "expected_revision".toList, "opt_in".toList]
    [.str sampleInstall, .str Mode.on.text, .int (0 : ℕ), .str sampleOptIn]) =
      some ⟨sampleInstall, .on, 0, some sampleOptIn⟩ := by rfl

theorem single_use_replay :
    run sampleSha (sampleTurns ++ [sampleTurn .on 0 (.str sampleOptIn)]) =
      run sampleSha sampleTurns := by
  have hon : ∀ s, (sampleTurn .on 0 (.str sampleOptIn)).consent? sampleSha s =
      some (.optIn sampleInstall 0) := by
    intro s
    simp only [sampleTurn, Call.consent?, read_sampleTurn_on, if_true]
  have hneeded : ∀ consent, Needed sampleSha
      (sampleTurns ++ [sampleTurn .on 0 (.str sampleOptIn)]) consent →
        consent = .optIn sampleInstall 0 := by
    intro consent hneeded
    obtain ⟨before, call, after, hcalls, hconsent⟩ := hneeded
    have hmem : call ∈ sampleTurns ++ [sampleTurn .on 0 (.str sampleOptIn)] := by
      rw [hcalls]
      simp
    simp only [sampleTurns, List.cons_append, List.nil_append, List.mem_cons, List.not_mem_nil,
      or_false] at hmem
    obtain rfl | rfl | rfl | rfl := hmem
    · cases hconsent
    · exact (Option.some.inj ((hon _).symm.trans hconsent)).symm
    · cases hconsent
    · exact (Option.some.inj ((hon _).symm.trans hconsent)).symm
  obtain ⟨-, -, hrefused, -⟩ := single_use sampleSha
    (sampleTurns ++ [sampleTurn .on 0 (.str sampleOptIn)]) fun consent consent' h h' _ => by
      rw [hneeded consent h, hneeded consent' h']
  refine hrefused sampleTurns (sampleTurn .on 0 (.str sampleOptIn)) [] (.install sampleInstall) 0
    (some sampleOptIn) rfl ?_ (Or.inl fun c hc => ?_)
  · simp only [sampleTurn, Call.request?, read_sampleTurn_on, Option.map_some]
  · have hcell : (run sampleSha sampleTurns).cell (.install sampleInstall) =
        some (.switch ⟨.off, 2⟩) := by decide +kernel
    obtain rfl := Option.some.inj (hcell.symm.trans hc)
    simp [Cell.revision]

end Privacy
end OpenChess
