import OpenChess.ControlPlane.MockSpec

/-!
# Sessions of the reference control plane

A bearer token is accepted for an account exactly where the last request that touched the
token minted it for that account, and every token belongs to an account that is there.
-/

namespace OpenChess
namespace Mock

open ControlPlane (Op)

variable {s : Server} {p : Plane} {m : Moment} {c : Call} {e : Event} {name token : Text} {op : Op}
  {body : Value} {calls : List Event} {record : TokenRecord}

/-! ### Bearers -/

/-- The request reached the operation and succeeded. -/
def Succeeds (s : Server) (e : Event) (name : String) : Prop :=
  (∃ op, findOp e.2.method e.2.path = some (name.toList, op)) ∧ reaches s e = true ∧
    (handle s e.1 e.2).1.status = 200

def Mints (s : Server) (e : Event) (token : Text) (record : TokenRecord) : Prop :=
  Succeeds s e "identity.register" ∧ token = e.1.draws 1 ∧
      record = ⟨"acct-".toList ++ e.1.draws 0, e.1.hourAfter (e.1.readings 0)⟩ ∨
    Succeeds s e "identity.login" ∧ token = e.1.draws 0 ∧
      (∃ account, s.plane.accounts.lookup (textOf "email" e.2.body) = some account ∧
        record = ⟨account.accountId, e.1.hourAfter (e.1.readings 0)⟩) ∨
    Succeeds s e "identity.refresh" ∧ token = e.1.draws 0 ∧
      ∃ r, bearer s.plane e.1 e.2.authorization = .ok r ∧
        record = ⟨r.accountId, e.1.hourAfter (e.1.readings 1)⟩

/-- The request logs the token out, or deletes its account. -/
def Revokes (s : Server) (e : Event) (token : Text) : Prop :=
  Succeeds s e "identity.logout" ∧ bearerToken e.2.authorization = some token ∨
    Succeeds s e "identity.delete_account" ∧
      ∃ r r', bearer s.plane e.1 e.2.authorization = .ok r ∧
        s.plane.tokens.lookup token = some r' ∧ r'.accountId = r.accountId

theorem Succeeds.unique {n n' : String} (h : Succeeds s e n) (h' : Succeeds s e n') :
    n.toList = n'.toList := by
  obtain ⟨⟨op, hop⟩, -⟩ := h
  obtain ⟨⟨op', hop'⟩, -⟩ := h'
  rw [hop] at hop'
  exact congrArg Prod.fst (Option.some.inj hop')

theorem refusal_of_reaches (hop : findOp c.method c.path = some (name, op))
    (h : reaches s (m, c) = true) : refusalOf op s.plane m c = none := by
  have hroute : service.route s.desk (m, c) = routeFound s.desk name op m c := route_eq s.desk hop
  unfold reaches Receiver.serves at h
  rw [hroute, routeFound] at h
  cases hreplayed : replayed s.desk.filed name op c with
  | some scope =>
    obtain ⟨-, -, prior, hprior⟩ := of_replayed hreplayed
    simp [hreplayed, hprior] at h
  | none =>
    cases hrefusal : refusalOf op s.plane m c with
    | none => rfl
    | some refusal =>
      have hrefusal' : refusalOf op s.desk.state m c = some refusal := hrefusal
      simp [hreplayed, hrefusal'] at h

theorem auth_of_findOp (hop : findOp c.method c.path = some (name, op))
    (hname : name = "identity.refresh".toList ∨ name = "identity.logout".toList ∨
      name = "identity.delete_account".toList) : op.auth = .required := by
  have hall : ∀ f ∈ ControlPlane.operations, (f.1 = "identity.refresh".toList ∨
      f.1 = "identity.logout".toList ∨ f.1 = "identity.delete_account".toList) →
      f.2.auth = .required := by decide
  exact hall _ (List.mem_of_find?_eq_some hop) hname

/-- An operation that is not refused for its bearer has one where it needs one. -/
theorem bearer_of_refusal (hauth : op.auth = .required) (h : refusalOf op p m c = none) :
    ∃ r, bearer p m c.authorization = .ok r ∧
      accountOf op p m c.authorization = some r.accountId := by
  unfold refusalOf at h
  rw [if_pos hauth] at h
  unfold accountOf
  rw [if_pos hauth]
  cases hbearer : bearer p m c.authorization with
  | ok r => exact ⟨r, rfl, rfl⟩
  | missing => simp [hbearer, Bearer.refusal] at h
  | unknown => simp [hbearer, Bearer.refusal] at h
  | expired => simp [hbearer, Bearer.refusal] at h

theorem bearer_of_reaches (hop : findOp c.method c.path = some (name, op))
    (h : reaches s (m, c) = true) (hauth : op.auth = .required) :
    ∃ r, bearer s.plane m c.authorization = .ok r ∧
      accountOf op s.plane m c.authorization = some r.accountId :=
  bearer_of_refusal hauth (refusal_of_reaches hop h)

/-! ### The operations -/

theorem register_cases (m : Moment) (body : Value) (p : Plane) :
    (register m body p).1.status ≠ 200 ∧ (register m body p).2 = p ∨
    (register m body p).1.status = 200 ∧ p.accounts.lookup (textOf "email" body) = none ∧
      (register m body p).2.accounts = Assoc.assign p.accounts (textOf "email" body)
        ⟨"acct-".toList ++ m.draws 0, textOf "password_hash_client" body⟩ ∧
      (register m body p).2.tokens = Assoc.assign p.tokens (m.draws 1)
        ⟨"acct-".toList ++ m.draws 0, m.hourAfter (m.readings 0)⟩ := by
  unfold register
  simp only
  split_ifs with hemail hfound
  · exact .inl ⟨by simp [err], rfl⟩
  · exact .inl ⟨by simp [err], rfl⟩
  · exact .inr ⟨rfl, Option.not_isSome_iff_eq_none.mp hfound, rfl, rfl⟩

theorem login_cases (m : Moment) (body : Value) (p : Plane) :
    (login m body p).1.status ≠ 200 ∧ (login m body p).2 = p ∨
    (login m body p).1.status = 200 ∧
      ∃ account, p.accounts.lookup (textOf "email" body) = some account ∧
        (login m body p).2.accounts = p.accounts ∧
        (login m body p).2.tokens = Assoc.assign p.tokens (m.draws 0)
          ⟨account.accountId, m.hourAfter (m.readings 0)⟩ := by
  unfold login
  cases hfound : (p.accounts.lookup (textOf "email" body)).filter
      fun account => account.password == textOf "password_hash_client" body with
  | none => exact .inl ⟨by simp [err], rfl⟩
  | some account =>
    exact .inr ⟨rfl, account, (Option.filter_eq_some_iff.mp hfound).1, rfl, rfl⟩

theorem delete_cases (body : Value) (account : Text) (p : Plane) :
    (deleteAccount body account p).1.status ≠ 200 ∧ (deleteAccount body account p).2 = p ∨
    (deleteAccount body account p).1.status = 200 ∧
      (deleteAccount body account p).2.accounts =
        p.accounts.filter (fun e => decide (e.2.accountId ≠ account)) ∧
      (deleteAccount body account p).2.tokens =
        p.tokens.filter (fun e => decide (e.2.accountId ≠ account)) := by
  unfold deleteAccount
  split_ifs
  · exact .inl ⟨by simp [err], rfl⟩
  · exact .inr ⟨rfl, rfl, rfl⟩

theorem perform_sessions (m : Moment) (p : Plane) (authorization body : Value) (account : Text)
    (hregister : name ≠ "identity.register".toList) (hlogin : name ≠ "identity.login".toList)
    (hrefresh : name ≠ "identity.refresh".toList) (hlogout : name ≠ "identity.logout".toList)
    (hdelete : name ≠ "identity.delete_account".toList) :
    (perform name m authorization body account p).2.accounts = p.accounts ∧
      (perform name m authorization body account p).2.tokens = p.tokens := by
  unfold perform
  simp only [if_neg hregister, if_neg hlogin, if_neg hrefresh, if_neg hlogout, if_neg hdelete]
  split_ifs
  · exact ⟨rfl, rfl⟩
  · unfold reserve
    simp only
    split_ifs <;> exact ⟨rfl, rfl⟩
  · unfold commit
    simp only
    split_ifs
    · exact ⟨rfl, rfl⟩
    · split
      · exact ⟨rfl, rfl⟩
      · split_ifs <;> exact ⟨rfl, rfl⟩
  · unfold release
    simp only
    split <;> exact ⟨rfl, rfl⟩
  · unfold createCheckout
    split <;> exact ⟨rfl, rfl⟩
  · exact ⟨rfl, rfl⟩
  · unfold registerKey
    split_ifs <;> exact ⟨rfl, rfl⟩
  · unfold revokeKey
    split <;> exact ⟨rfl, rfl⟩
  · exact ⟨rfl, rfl⟩

/-! ### One request -/

/-- The tokens have distinct texts, and each belongs to an account that is there. -/
structure Owned (p : Plane) : Prop where
  nodup : (p.tokens.map Prod.fst).Nodup
  owner : ∀ t ∈ p.tokens, ∃ a ∈ p.accounts, a.2.accountId = t.2.accountId

/-- What a request does to the accounts and the tokens. -/
inductive SessionChange (s : Server) (e : Event) (p' : Plane) : Prop
  | same : (∀ t r, ¬ Mints s e t r) → (∀ t, ¬ Revokes s e t) →
      p'.accounts = s.plane.accounts → p'.tokens = s.plane.tokens → SessionChange s e p'
  | minted (token : Text) (record : TokenRecord) :
      (∀ t r, Mints s e t r ↔ t = token ∧ r = record) → (∀ t, ¬ Revokes s e t) →
      (∀ a ∈ s.plane.accounts, a ∈ p'.accounts) →
      (Owned s.plane → ∃ a ∈ p'.accounts, a.2.accountId = record.accountId) →
      p'.tokens = Assoc.assign s.plane.tokens token record → SessionChange s e p'
  | revoked (keep : Text × TokenRecord → Bool) : (∀ t r, ¬ Mints s e t r) →
      (∀ t r, s.plane.tokens.lookup t = some r → (keep (t, r) = false ↔ Revokes s e t)) →
      p'.tokens = s.plane.tokens.filter keep →
      (∀ a ∈ s.plane.accounts, a ∈ p'.accounts ∨
        ∀ t ∈ p'.tokens, t.2.accountId ≠ a.2.accountId) → SessionChange s e p'

/-- No operation of a session succeeded. -/
theorem untouched (h : ∀ n ∈ ["identity.register", "identity.login", "identity.refresh",
      "identity.logout", "identity.delete_account"], ¬ Succeeds s e n) :
    (∀ t r, ¬ Mints s e t r) ∧ ∀ t, ¬ Revokes s e t := by
  refine ⟨fun t r hmints => ?_, fun t hrevokes => ?_⟩
  · obtain ⟨hdone, -⟩ | ⟨hdone, -⟩ | ⟨hdone, -⟩ := hmints
    · exact h _ (by simp) hdone
    · exact h _ (by simp) hdone
    · exact h _ (by simp) hdone
  · obtain ⟨hdone, -⟩ | ⟨hdone, -⟩ := hrevokes
    · exact h _ (by simp) hdone
    · exact h _ (by simp) hdone

theorem Succeeds.mints_register (h : Succeeds s e "identity.register") (t : Text)
    (r : TokenRecord) : Mints s e t r ↔ t = e.1.draws 1 ∧
      r = ⟨"acct-".toList ++ e.1.draws 0, e.1.hourAfter (e.1.readings 0)⟩ := by
  constructor
  · intro hmints
    obtain ⟨-, ht, hr⟩ | ⟨hdone, -⟩ | ⟨hdone, -⟩ := hmints
    · exact ⟨ht, hr⟩
    · exact absurd (h.unique hdone) (by decide)
    · exact absurd (h.unique hdone) (by decide)
  · exact fun htr => .inl ⟨h, htr⟩

theorem Succeeds.mints_login {account : Account} (h : Succeeds s e "identity.login")
    (haccount : s.plane.accounts.lookup (textOf "email" e.2.body) = some account) (t : Text)
    (r : TokenRecord) : Mints s e t r ↔ t = e.1.draws 0 ∧
      r = ⟨account.accountId, e.1.hourAfter (e.1.readings 0)⟩ := by
  constructor
  · intro hmints
    obtain ⟨hdone, -⟩ | ⟨-, ht, account', haccount', hr⟩ | ⟨hdone, -⟩ := hmints
    · exact absurd (h.unique hdone) (by decide)
    · rw [haccount] at haccount'
      obtain rfl := Option.some.inj haccount'
      exact ⟨ht, hr⟩
    · exact absurd (h.unique hdone) (by decide)
  · exact fun htr => .inr (.inl ⟨h, htr.1, account, haccount, htr.2⟩)

theorem Succeeds.mints_refresh {r₀ : TokenRecord} (h : Succeeds s e "identity.refresh")
    (hbearer : bearer s.plane e.1 e.2.authorization = .ok r₀) (t : Text)
    (r : TokenRecord) : Mints s e t r ↔ t = e.1.draws 0 ∧
      r = ⟨r₀.accountId, e.1.hourAfter (e.1.readings 1)⟩ := by
  constructor
  · intro hmints
    obtain ⟨hdone, -⟩ | ⟨hdone, -⟩ | ⟨-, ht, r', hbearer', hr⟩ := hmints
    · exact absurd (h.unique hdone) (by decide)
    · exact absurd (h.unique hdone) (by decide)
    · rw [hbearer] at hbearer'
      obtain rfl := Bearer.ok.inj hbearer'
      exact ⟨ht, hr⟩
  · exact fun htr => .inr (.inr ⟨h, htr.1, r₀, hbearer, htr.2⟩)

theorem Succeeds.not_revokes {n : String} (h : Succeeds s e n)
    (hlogout : n.toList ≠ "identity.logout".toList)
    (hdelete : n.toList ≠ "identity.delete_account".toList) (t : Text) : ¬ Revokes s e t := by
  intro hrevokes
  obtain ⟨hdone, -⟩ | ⟨hdone, -⟩ := hrevokes
  · exact hlogout (h.unique hdone)
  · exact hdelete (h.unique hdone)

theorem Succeeds.not_mints {n : String} (h : Succeeds s e n)
    (hregister : n.toList ≠ "identity.register".toList)
    (hlogin : n.toList ≠ "identity.login".toList)
    (hrefresh : n.toList ≠ "identity.refresh".toList) (t : Text) (r : TokenRecord) :
    ¬ Mints s e t r := by
  intro hmints
  obtain ⟨hdone, -⟩ | ⟨hdone, -⟩ | ⟨hdone, -⟩ := hmints
  · exact hregister (h.unique hdone)
  · exact hlogin (h.unique hdone)
  · exact hrefresh (h.unique hdone)

/-- The bearer that is accepted is one of the tokens. -/
theorem of_bearer {authorization : Value} (h : bearer p m authorization = .ok record) :
    ∃ token, bearerToken authorization = some token ∧ p.tokens.lookup token = some record ∧
      ¬ record.expiresAt < m.readings 0 := by
  unfold bearer at h
  cases htoken : bearerToken authorization with
  | none => simp [htoken] at h
  | some token =>
    cases hfound : p.tokens.lookup token with
    | none => simp [htoken, hfound] at h
    | some r =>
      simp only [htoken, hfound] at h
      split_ifs at h with hlate
      obtain rfl := Bearer.ok.inj h
      exact ⟨token, rfl, hfound, hlate⟩

theorem step_logic (hop : findOp c.method c.path = some (name, op))
    (hreaches : reaches s (m, c) = true) :
    (handle s m c).1 = (logic name op m c s.plane).1 ∧
      (step s (m, c)).plane = (logic name op m c s.plane).2 := by
  have hact : act s.plane (m, c) = logic name op m c s.plane := by simp only [act, hop]
  rcases step_cases s (m, c) with ⟨hnot, -⟩ | ⟨-, hanswer, hplane⟩
  · rw [hreaches] at hnot
    cases hnot
  · rw [hact] at hanswer hplane
    exact ⟨hanswer, hplane⟩

theorem session_change (s : Server) (m : Moment) (c : Call) :
    SessionChange s (m, c) (step s (m, c)).plane := by
  have hrest : (∀ n ∈ ["identity.register", "identity.login", "identity.refresh",
      "identity.logout", "identity.delete_account"], ¬ Succeeds s (m, c) n) →
      (step s (m, c)).plane.accounts = s.plane.accounts →
      (step s (m, c)).plane.tokens = s.plane.tokens →
      SessionChange s (m, c) (step s (m, c)).plane := fun h haccounts htokens =>
    .same (untouched h).1 (untouched h).2 haccounts htokens
  rcases step_cases s (m, c) with ⟨hnot, hsame⟩ | ⟨hreaches, -, -⟩
  · refine hrest (fun n _ h => ?_) (by rw [hsame]) (by rw [hsame])
    rw [h.2.1] at hnot
    cases hnot
  cases hop : findOp c.method c.path with
  | none =>
    have hact : (act s.plane (m, c)).2 = s.plane := by simp only [act, hop]
    have hplane : (step s (m, c)).plane = s.plane := by
      rcases step_cases s (m, c) with ⟨-, hsame⟩ | ⟨-, -, hplane⟩
      · rw [hsame]
      · rw [hplane, hact]
    refine hrest (fun n _ h => ?_) (by rw [hplane]) (by rw [hplane])
    obtain ⟨⟨op, hop'⟩, -⟩ := h
    rw [hop] at hop'
    cases hop'
  | some found =>
    obtain ⟨name, op⟩ := found
    obtain ⟨hanswer, hplane⟩ := step_logic hop hreaches
    unfold logic at hanswer hplane
    cases hvalid : validate c.body name op.request with
    | some problem =>
      simp only [hvalid] at hanswer hplane
      refine hrest (fun n _ h => ?_) (by rw [hplane]) (by rw [hplane])
      have hstatus := h.2.2
      rw [hanswer] at hstatus
      exact absurd hstatus (by simp [err])
    | none =>
      simp only [hvalid] at hanswer hplane
      have hsucceeds : ∀ n : String, name = n.toList → (handle s m c).1.status = 200 →
          Succeeds s (m, c) n := fun n hn hstatus => ⟨⟨op, by rw [hop, hn]⟩, hreaches, hstatus⟩
      have hfailed : (handle s m c).1.status ≠ 200 → (step s (m, c)).plane = s.plane →
          SessionChange s (m, c) (step s (m, c)).plane := fun hstatus hp =>
        hrest (fun n _ h => hstatus h.2.2) (by rw [hp]) (by rw [hp])
      by_cases hregister : name = "identity.register".toList
      · subst hregister
        change _ = (register m c.body s.plane).1 at hanswer
        change _ = (register m c.body s.plane).2 at hplane
        rcases register_cases m c.body s.plane with
          ⟨hstatus, hp⟩ | ⟨hstatus, hnew, haccounts, htokens⟩
        · exact hfailed (by rwa [hanswer]) (by rw [hplane, hp])
        · have hdone := hsucceeds "identity.register" rfl (by rw [hanswer, hstatus])
          rw [← hplane] at haccounts htokens
          rw [Assoc.assign_of_notMem (Dict.lookup_eq_none_iff.mp hnew)] at haccounts
          refine .minted _ _ hdone.mints_register (hdone.not_revokes (by decide) (by decide))
            (fun a ha => ?_) (fun _ => ⟨(textOf "email" c.body, ⟨"acct-".toList ++ m.draws 0,
              textOf "password_hash_client" c.body⟩), ?_, rfl⟩) htokens
          · rw [haccounts]
            exact List.mem_append_left _ ha
          · rw [haccounts]
            exact List.mem_append_right _ (List.mem_singleton_self _)
      by_cases hlogin : name = "identity.login".toList
      · subst hlogin
        change _ = (login m c.body s.plane).1 at hanswer
        change _ = (login m c.body s.plane).2 at hplane
        rcases login_cases m c.body s.plane with
          ⟨hstatus, hp⟩ | ⟨hstatus, account, hfound, haccounts, htokens⟩
        · exact hfailed (by rwa [hanswer]) (by rw [hplane, hp])
        · have hdone := hsucceeds "identity.login" rfl (by rw [hanswer, hstatus])
          rw [← hplane] at haccounts htokens
          refine .minted _ _ (hdone.mints_login hfound) (hdone.not_revokes (by decide) (by decide))
            (fun a ha => by rwa [haccounts]) (fun _ => ⟨(textOf "email" c.body, account), ?_, rfl⟩)
            htokens
          rw [haccounts]
          exact Dict.mem_of_lookup hfound
      by_cases hrefresh : name = "identity.refresh".toList
      · subst hrefresh
        obtain ⟨r, hbearer, haccount⟩ := bearer_of_reaches hop hreaches
          (auth_of_findOp hop (.inl rfl))
        rw [haccount] at hanswer hplane
        change _ = (refresh m r.accountId s.plane).1 at hanswer
        change _ = (refresh m r.accountId s.plane).2 at hplane
        have hdone := hsucceeds "identity.refresh" rfl (by rw [hanswer]; rfl)
        refine .minted _ _ (hdone.mints_refresh hbearer) (hdone.not_revokes (by decide) (by decide))
          (fun a ha => by rw [hplane]; exact ha) (fun howned => ?_) (by rw [hplane]; rfl)
        obtain ⟨token, -, hfound, -⟩ := of_bearer hbearer
        rw [hplane]
        exact howned.owner _ (Dict.mem_of_lookup hfound)
      by_cases hlogout : name = "identity.logout".toList
      · subst hlogout
        obtain ⟨r, hbearer, -⟩ := bearer_of_reaches hop hreaches
          (auth_of_findOp hop (.inr (.inl rfl)))
        obtain ⟨token, htoken, hfound, -⟩ := of_bearer hbearer
        change _ = (logout c.authorization s.plane).1 at hanswer
        change _ = (logout c.authorization s.plane).2 at hplane
        unfold logout at hanswer hplane
        simp only [htoken] at hanswer hplane
        have hdone := hsucceeds "identity.logout" rfl (by rw [hanswer])
        refine .revoked (fun t => decide (t.1 ≠ token))
          (hdone.not_mints (by decide) (by decide) (by decide)) (fun t _ _ => ?_)
          (by rw [hplane]; rfl) (fun a ha => .inl (by rw [hplane]; exact ha))
        constructor
        · intro hgone
          have ht : t = token := by simpa using hgone
          exact .inl ⟨hdone, by rw [ht]; exact htoken⟩
        · intro hrevokes
          obtain ⟨-, ht⟩ | ⟨hdeleted, -⟩ := hrevokes
          · have ht : t = token := Option.some.inj (ht.symm.trans htoken)
            simp [ht]
          · exact absurd (hdone.unique hdeleted) (by decide)
      by_cases hdelete : name = "identity.delete_account".toList
      · subst hdelete
        obtain ⟨r, hbearer, haccount⟩ := bearer_of_reaches hop hreaches
          (auth_of_findOp hop (.inr (.inr rfl)))
        rw [haccount] at hanswer hplane
        change _ = (deleteAccount c.body r.accountId s.plane).1 at hanswer
        change _ = (deleteAccount c.body r.accountId s.plane).2 at hplane
        rcases delete_cases c.body r.accountId s.plane with
          ⟨hstatus, hp⟩ | ⟨hstatus, haccounts, htokens⟩
        · exact hfailed (by rwa [hanswer]) (by rw [hplane, hp])
        · have hdone := hsucceeds "identity.delete_account" rfl (by rw [hanswer, hstatus])
          rw [← hplane] at haccounts htokens
          refine .revoked (fun t => decide (t.2.accountId ≠ r.accountId))
            (hdone.not_mints (by decide) (by decide) (by decide)) (fun t r' hr' => ?_) htokens
            (fun a ha => ?_)
          · constructor
            · intro hgone
              exact .inr ⟨hdone, r, r', hbearer, hr', by simpa using hgone⟩
            · intro hrevokes
              obtain ⟨hlogout, -⟩ | ⟨-, r₁, r₂, hbearer', hr₂, hsame⟩ := hrevokes
              · exact absurd (hdone.unique hlogout) (by decide)
              · rw [hbearer] at hbearer'
                obtain rfl := Bearer.ok.inj hbearer'
                rw [hr'] at hr₂
                obtain rfl := Option.some.inj hr₂
                simpa using hsame
          · by_cases ha' : a.2.accountId = r.accountId
            · refine .inr fun t ht => ?_
              rw [htokens, List.mem_filter] at ht
              rw [ha']
              simpa using ht.2
            · rw [haccounts, List.mem_filter]
              exact .inl ⟨ha, by simpa using ha'⟩
      obtain ⟨haccounts, htokens⟩ := perform_sessions m s.plane c.authorization c.body
        ((accountOf op s.plane m c.authorization).getD []) hregister hlogin hrefresh hlogout hdelete
      rw [← hplane] at haccounts htokens
      refine hrest (fun n hn h => ?_) haccounts htokens
      obtain ⟨⟨op', hop'⟩, -⟩ := h
      rw [hop] at hop'
      have hname := congrArg Prod.fst (Option.some.inj hop')
      simp only [List.mem_cons, List.not_mem_nil, or_false] at hn
      rcases hn with rfl | rfl | rfl | rfl | rfl <;> contradiction

/-! ### Runs -/

def Touches (token : Text) (s : Server) (e : Event) : Prop :=
  (∃ r, Mints s e token r) ∨ Revokes s e token

theorem SessionChange.owned {p' : Plane} (h : SessionChange s e p') (howned : Owned s.plane) :
    Owned p' := by
  obtain ⟨hnodup, howner⟩ := howned
  cases h with
  | same _ _ haccounts htokens =>
    exact ⟨by rwa [htokens], by rwa [haccounts, htokens]⟩
  | minted token record _ _ haccounts hnew htokens =>
    refine ⟨by rw [htokens]; exact Assoc.nodup_assign hnodup, fun t ht => ?_⟩
    rw [htokens] at ht
    obtain rfl | ht := Assoc.mem_of_mem_assign ht
    · exact hnew ⟨hnodup, howner⟩
    · obtain ⟨a, ha, hsame⟩ := howner t ht
      exact ⟨a, haccounts a ha, hsame⟩
  | revoked keep _ _ htokens haccounts =>
    refine ⟨by rw [htokens]; exact hnodup.sublist (List.filter_sublist.map _), fun t ht => ?_⟩
    have hold : t ∈ s.plane.tokens := by
      rw [htokens] at ht
      exact (List.mem_filter.mp ht).1
    obtain ⟨a, ha, hsame⟩ := howner t hold
    obtain ha | hgone := haccounts a ha
    · exact ⟨a, ha, hsame⟩
    · exact absurd hsame.symm (hgone t ht)

/-- A token is there after a request that minted it, or that left it there. -/
theorem SessionChange.lookup_iff {p' : Plane} (h : SessionChange s e p')
    (howned : Owned s.plane) : p'.tokens.lookup token = some record ↔
      Mints s e token record ∨
        ¬ Touches token s e ∧ s.plane.tokens.lookup token = some record := by
  unfold Touches
  cases h with
  | same hmints hrevokes _ htokens => simp [htokens, hmints, hrevokes]
  | minted t r hmints hrevokes _ _ htokens =>
    rw [htokens, Assoc.lookup_assign]
    by_cases ht : token = t
    · simp [ht, hmints, eq_comm]
    · simp [ht, hmints, hrevokes]
  | revoked keep hmints hrevokes htokens _ =>
    rw [htokens, Assoc.lookup_filter howned.nodup, Option.filter_eq_some_iff]
    constructor
    · rintro ⟨hfound, hkept⟩
      refine .inr ⟨?_, hfound⟩
      rintro (⟨r, hr⟩ | hgone)
      · exact hmints _ _ hr
      · rw [(hrevokes token record hfound).mpr hgone] at hkept
        cases hkept
    · rintro (hminted | ⟨huntouched, hfound⟩)
      · exact absurd hminted (hmints _ _)
      · refine ⟨hfound, Bool.eq_true_of_not_eq_false fun hgone => huntouched (.inr ?_)⟩
        exact (hrevokes token record hfound).mp hgone

theorem owned_new : Owned Server.new.plane :=
  ⟨List.nodup_nil, fun _ ht => absurd ht List.not_mem_nil⟩

theorem owned_step (s : Server) (e : Event) (h : Owned s.plane) : Owned (step s e).plane :=
  (session_change s e.1 e.2).owned h

theorem owned_run (calls : List Event) : Owned (run calls).plane :=
  @Trace.run_invariant _ _ _ _ (fun s : Server => Owned s.plane) owned_new owned_step calls

/-- After any run a bearer is accepted, as an account, exactly where it is not past the expiry of
its token and the last request that minted or revoked the token minted it for that account with
that expiry. Every token that is there belongs to an account that is there. -/
theorem session_accepted_iff (calls : List Event) :
    (∀ m authorization record, bearer (run calls).plane m authorization = .ok record ↔
      ∃ token, bearerToken authorization = some token ∧ ¬ record.expiresAt < m.readings 0 ∧
        Trace.Last step Server.new (fun s e => Mints s e token record) (Touches token) calls) ∧
    ∀ t ∈ (run calls).plane.tokens, ∃ a ∈ (run calls).plane.accounts,
      a.2.accountId = t.2.accountId := by
  refine ⟨fun m authorization record => ?_, (owned_run calls).owner⟩
  have htoken : ∀ token, (run calls).plane.tokens.lookup token = some record ↔
      Trace.Last step Server.new (fun s e => Mints s e token record) (Touches token) calls :=
    fun token => @Trace.holds_iff_last_of_invariant _ _ _ _ _ _
      (fun s : Server => s.plane.tokens.lookup token = some record) (fun s => Owned s.plane) owned_new
      owned_step (by simp [Server.new]) (fun s e h => (session_change s e.1 e.2).lookup_iff h) calls
  constructor
  · intro h
    obtain ⟨token, hbearer, hfound, hlate⟩ := of_bearer h
    exact ⟨token, hbearer, hlate, (htoken token).mp hfound⟩
  · rintro ⟨token, hbearer, hlate, hlast⟩
    simp only [bearer, hbearer, (htoken token).mpr hlast, if_neg hlate]

end Mock
end OpenChess
