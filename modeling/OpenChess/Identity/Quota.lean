import OpenChess.Identity.Admission
import OpenChess.Lib.TokenBucket

/-!
# Quotas of slots

Runs of decisions under one policy from the empty store. Each key of the store is the
counter of one scope: what it keeps is the number of admissions in its latest slot, and
no slot has more than the capacity of the scope.
-/

namespace OpenChess
namespace Admission

open SlotCounter (Admits Tracks counted)

/-- The state of a run, and its admitted requests in order. -/
structure Trail where
  entries : Dict StoreKey StoreCell
  admitted : List Request

def Trail.start : Trail := ⟨∅, []⟩

def Trail.step (policy : Value) (t : Trail) (c : Call) : Trail :=
  match decide policy (.dict t.entries) c, requestOk c with
  | .ok (.admitted, .dict entries), some q => ⟨entries, t.admitted ++ [q]⟩
  | _, _ => t

def run (policy : Value) (calls : List Call) : Trail := calls.foldl (Trail.step policy) .start

def slotsOf (limits : Limits) (scope : Scope) (key : SlotKey) (admitted : List Request) : List ℕ :=
  (admitted.filter fun q => q.key scope = key).map fun q => q.slot limits scope

variable {policy : Value} {limits : Limits} {entries entries' : Dict StoreKey StoreCell}
  {state state' : Store} {c : Call} {q : Request} {scope : Scope} {key : SlotKey} {t : Trail}
  {bumped : ℕ × ℕ} {outcome : Outcome}

/-! ### One decision -/

theorem natural?_int (n : ℕ) : natural? (.int n) = some n := by
  simp [natural?]

theorem stored_put_self : stored (put entries key bumped) key = some bumped := by
  rw [stored, put, Finmap.lookup_insert]
  simp [StoreCell.counts?, natural?_int]

theorem stored_put_of_ne {key' : SlotKey} (h : key' ≠ key) :
    stored (put entries key bumped) key' = stored entries key' := by
  have hkey : StoreKey.tuple key' ≠ .tuple key := fun hsame => h (StoreKey.tuple.inj hsame)
  rw [stored, put, Finmap.lookup_insert_of_ne _ hkey]
  rfl

theorem scope_text_injective {scope scope' : Scope} (h : scope.text = scope'.text) :
    scope = scope' := by
  cases scope <;> cases scope' <;> first | rfl | exact absurd h (by decide)

/-- Keys of different scopes are different. -/
theorem key_ne {scope' : Scope} {operation identifier : Text} (h : scope ≠ scope') :
    slotKey operation scope identifier ≠ q.key scope' := by
  intro hsame
  have hscope := congrArg SlotKey.scope hsame
  exact h (scope_text_injective (Scalar.str.inj hscope))

theorem bump_eq_ok {capacity slot : ℕ} {previous : ℕ × ℕ}
    (h : bump capacity slot previous = .ok bumped) :
    previous.1 ≤ slot ∧ (if previous.1 = slot then previous.2 else 0) < capacity ∧
      bumped = (slot, (if previous.1 = slot then previous.2 else 0) + 1) := by
  unfold bump at h
  by_cases hcorrupt : slot < previous.1 ∨ (previous.1 = slot ∧ capacity < previous.2)
  · rw [if_pos hcorrupt] at h
    cases h
  · rw [if_neg hcorrupt] at h
    by_cases hcapacity : capacity ≤ if previous.1 = slot then previous.2 else 0
    · simp only [hcapacity, if_true] at h
      cases h
    · simp only [hcapacity, if_false] at h
      obtain rfl := Except.ok.inj h
      exact ⟨not_lt.mp (not_or.mp hcorrupt).1, not_le.mp hcapacity, rfl⟩

theorem admits_of_admitScope (h : admitScope entries q limits scope = .ok bumped) :
    Admits (limits.bucket scope).capacity (q.slot limits scope) (stored entries (q.key scope))
      bumped := by
  obtain ⟨hlater, hbelow, hnext⟩ := bump_eq_ok h
  cases hstored : stored entries (q.key scope) with
  | none =>
    rw [hstored, Option.getD_none] at hbelow hnext
    rw [if_pos rfl] at hbelow hnext
    exact ⟨(fun p hp => by cases hp), hbelow, hnext⟩
  | some p =>
    rw [hstored, Option.getD_some] at hlater hbelow hnext
    refine ⟨fun p' hp => ?_, hbelow, hnext⟩
    obtain rfl := Option.some.inj hp
    exact hlater

theorem storeOk_dict (h : storeOk (.dict entries) = some entries') : entries' = entries := by
  simp only [storeOk] at h
  split_ifs at h
  exact (Option.some.inj h).symm

theorem decideNew_eq_ok (h : decideNew policy state c = .ok (outcome, state')) :
    outcome = .admitted ∧ ∃ limits q entries account source, policyOk policy = some limits ∧
      requestOk c = some q ∧ storeOk state = some entries ∧
      admitScope entries q limits .account = .ok account ∧
      admitScope entries q limits .source = .ok source ∧
      state' = .dict (put (put entries (q.key .account) account) (q.key .source) source) := by
  unfold decideNew at h
  cases hq : requestOk c with
  | none => simp [hq] at h
  | some q =>
    cases hpolicy : policyOk policy with
    | none => simp [hq, hpolicy] at h
    | some limits =>
      cases hstore : storeOk state with
      | none => simp [hq, hpolicy, hstore] at h
      | some entries =>
        simp only [hq, hpolicy, hstore] at h
        by_cases havailable : isTrue c.storeAvailable = false
        · rw [if_pos havailable] at h
          cases h
        · rw [if_neg havailable] at h
          cases haccount : admitScope entries q limits .account with
          | error e => simp [haccount] at h
          | ok account =>
            cases hsource : admitScope entries q limits .source with
            | error e => simp [haccount, hsource] at h
            | ok source =>
              simp only [haccount, hsource] at h
              split_ifs at h
              obtain ⟨rfl, rfl⟩ := Prod.mk.inj (Except.ok.inj h)
              exact ⟨rfl, limits, q, entries, account, source, rfl, rfl, rfl, haccount, hsource,
                rfl⟩

/-- Only a cached call is answered without a decision, and leaves the state. -/
theorem decide_eq_ok (h : decide policy state c = .ok (outcome, state')) :
    (c.replay = .str "cached".toList ∧ outcome = .replay ∧ state' = state) ∨
      decideNew policy state c = .ok (outcome, state') := by
  unfold decide at h
  split at h
  · rename_i hreplay
    split_ifs at h with hnew hcached
    · exact .inr h
    · obtain ⟨rfl, rfl⟩ := Prod.mk.inj (Except.ok.inj h)
      exact .inl ⟨by rw [hreplay, hcached], rfl, rfl⟩
  · cases h

/-! ### Runs -/

theorem Trail.step_cases (policy : Value) (t : Trail) (c : Call) :
    t.step policy c = t ∨ ∃ limits q account source, policyOk policy = some limits ∧
      requestOk c = some q ∧ admitScope t.entries q limits .account = .ok account ∧
      admitScope t.entries q limits .source = .ok source ∧
      t.step policy c = ⟨put (put t.entries (q.key .account) account) (q.key .source) source,
        t.admitted ++ [q]⟩ := by
  cases hdecide : decide policy (.dict t.entries) c with
  | error e => exact .inl (by simp [Trail.step, hdecide])
  | ok p =>
    obtain ⟨outcome, state'⟩ := p
    rcases decide_eq_ok hdecide with ⟨-, rfl, rfl⟩ | hnew
    · exact .inl (by simp [Trail.step, hdecide])
    · obtain ⟨rfl, limits, q, entries, account, source, hpolicy, hq, hstore, haccount, hsource, rfl⟩ :=
        decideNew_eq_ok hnew
      obtain rfl := storeOk_dict hstore
      exact .inr ⟨limits, q, account, source, hpolicy, hq, haccount, hsource,
        by simp [Trail.step, hdecide, hq]⟩

def update (entries : Dict StoreKey StoreCell) (q : Request) (updates : Scope → ℕ × ℕ) :
    Dict StoreKey StoreCell :=
  put (put entries (q.key .account) (updates .account)) (q.key .source) (updates .source)

theorem stored_update_self {updates : Scope → ℕ × ℕ} (scope : Scope) :
    stored (update entries q updates) (q.key scope) = some (updates scope) := by
  cases scope with
  | account =>
    have hscope : Scope.account ≠ .source := by decide
    have hne : q.key .account ≠ q.key .source := key_ne hscope
    rw [update, stored_put_of_ne hne, stored_put_self]
  | source => rw [update, stored_put_self]

theorem lookup_update_of_ne {updates : Scope → ℕ × ℕ} {k : StoreKey}
    (h : ∀ scope, k ≠ .tuple (q.key scope)) :
    (update entries q updates).lookup k = entries.lookup k := by
  rw [update, put, put, Finmap.lookup_insert_of_ne _ (h .source),
    Finmap.lookup_insert_of_ne _ (h .account)]

theorem stored_update_of_ne {updates : Scope → ℕ × ℕ} {operation identifier : Text}
    (h : slotKey operation scope identifier ≠ q.key scope) :
    stored (update entries q updates) (slotKey operation scope identifier) =
      stored entries (slotKey operation scope identifier) := by
  unfold stored
  rw [lookup_update_of_ne]
  intro scope' hsame
  by_cases hscope : scope = scope'
  · subst hscope
    exact h (StoreKey.tuple.inj hsame)
  · exact key_ne hscope (StoreKey.tuple.inj hsame)

/-- The updates of both scopes. -/
def pick (account source : ℕ × ℕ) : Scope → ℕ × ℕ
  | .account => account
  | .source => source

/-- A call that admits a request adds to the counters of both scopes. -/
structure Admitted (policy : Value) (t : Trail) (c : Call) (limits : Limits) (q : Request)
    (updates : Scope → ℕ × ℕ) : Prop where
  accepted : policyOk policy = some limits
  request : requestOk c = some q
  counters : ∀ scope, Admits (limits.bucket scope).capacity (q.slot limits scope)
    (stored t.entries (q.key scope)) (updates scope)
  step : t.step policy c = ⟨update t.entries q updates, t.admitted ++ [q]⟩

theorem Trail.step_eq (policy : Value) (t : Trail) (c : Call) :
    t.step policy c = t ∨ ∃ limits q updates, Admitted policy t c limits q updates := by
  rcases t.step_cases policy c with hsame | ⟨limits, q, account, source, hpolicy, hq, haccount,
    hsource, hstep⟩
  · exact .inl hsame
  · refine .inr ⟨limits, q, pick account source, hpolicy, hq, fun scope => ?_, hstep⟩
    cases scope with
    | account => exact admits_of_admitScope haccount
    | source => exact admits_of_admitScope hsource

/-- Every key is a counter of the admissions under it. -/
def Sound (limits : Limits) (t : Trail) : Prop :=
  ∀ scope operation identifier, Tracks (limits.bucket scope).capacity
    (slotsOf limits scope (slotKey operation scope identifier) t.admitted)
    (stored t.entries (slotKey operation scope identifier))

theorem slotsOf_concat (limits : Limits) (scope : Scope) (key : SlotKey) (admitted : List Request)
    (q : Request) : slotsOf limits scope key (admitted ++ [q]) =
      slotsOf limits scope key admitted ++ if q.key scope = key then [q.slot limits scope] else [] := by
  unfold slotsOf
  rw [List.filter_append, List.map_append]
  by_cases hkey : q.key scope = key <;> simp [hkey]

theorem Sound.step (hpolicy : policyOk policy = some limits) (h : Sound limits t) (c : Call) :
    Sound limits (t.step policy c) := by
  rcases t.step_eq policy c with hsame | ⟨limits', q, updates, hadmitted⟩
  · rwa [hsame]
  · obtain rfl := Option.some.inj (hpolicy.symm.trans hadmitted.accepted)
    rw [hadmitted.step]
    intro scope operation identifier
    rw [slotsOf_concat]
    split_ifs with hkey
    · rw [← hkey, stored_update_self]
      have htracks := h scope operation identifier
      rw [← hkey] at htracks
      exact htracks.step (hadmitted.counters scope)
    · rw [List.append_nil, stored_update_of_ne (Ne.symm hkey)]
      exact h scope operation identifier

theorem sound_run (hpolicy : policyOk policy = some limits) (calls : List Call) :
    Sound limits (run policy calls) := by
  unfold run
  induction calls using List.reverseRecOn with
  | nil => exact fun scope operation identifier => .start _
  | append_singleton calls c ih =>
    rw [List.foldl_append]
    exact ih.step hpolicy c

/-- An admission counts one more under both keys of the request, and keeps all others. -/
structure Counts (limits : Limits) (q : Request) (t t' : Trail) : Prop where
  admitted : t'.admitted = t.admitted ++ [q]
  counters : ∀ scope, stored t'.entries (q.key scope) = some (q.slot limits scope,
    counted (q.slot limits scope) (stored t.entries (q.key scope)) + 1)
  others : ∀ k : StoreKey, (∀ scope, k ≠ .tuple (q.key scope)) →
    t'.entries.lookup k = t.entries.lookup k

theorem Admitted.counts {updates : Scope → ℕ × ℕ} (h : Admitted policy t c limits q updates) :
    Counts limits q t (t.step policy c) := by
  rw [h.step]
  refine ⟨rfl, fun scope => ?_, fun k hk => lookup_update_of_ne hk⟩
  rw [stored_update_self, (h.counters scope).next]

theorem step_of_decide (h : decide policy (.dict t.entries) c = .ok (.admitted, state')) :
    ∃ limits q, policyOk policy = some limits ∧ requestOk c = some q ∧
      state' = .dict (t.step policy c).entries ∧ Counts limits q t (t.step policy c) := by
  rcases decide_eq_ok h with ⟨-, hreplay, -⟩ | hnew
  · cases hreplay
  · obtain ⟨-, -, q, entries, account, source, -, hq, -, -, -, rfl⟩ := decideNew_eq_ok hnew
    have hstep : t.step policy c =
        ⟨put (put entries (q.key .account) account) (q.key .source) source, t.admitted ++ [q]⟩ := by
      simp only [Trail.step, h, hq]
    rcases t.step_eq policy c with hsame | ⟨limits, q', updates, hadmitted⟩
    · rw [hsame] at hstep
      have hlength := congrArg (fun t => t.admitted.length) hstep
      simp at hlength
    · obtain rfl := Option.some.inj (hq.symm.trans hadmitted.request)
      exact ⟨limits, q, hadmitted.accepted, hq, by rw [hstep], hadmitted.counts⟩

theorem step_of_not_admitted (h : ∀ state', decide policy (.dict t.entries) c ≠ .ok (.admitted, state')) :
    t.step policy c = t := by
  cases hdecide : decide policy (.dict t.entries) c with
  | error e => simp [Trail.step, hdecide]
  | ok p =>
    obtain ⟨outcome, state'⟩ := p
    cases outcome with
    | admitted => exact absurd hdecide (h state')
    | replay => simp [Trail.step, hdecide]

theorem refused_of_earlier {slot n : ℕ} (hpolicy : policyOk policy = some limits)
    (hq : requestOk c = some q) (hstored : stored t.entries (q.key scope) = some (slot, n))
    (hearlier : q.slot limits scope < slot) (hreplay : c.replay ≠ .str "cached".toList) :
    ∃ e, decide policy (.dict t.entries) c = .error e := by
  cases hdecide : decide policy (.dict t.entries) c with
  | error e => exact ⟨e, rfl⟩
  | ok p =>
    obtain ⟨outcome, state'⟩ := p
    rcases decide_eq_ok hdecide with ⟨hcached, -⟩ | hnew
    · exact absurd hcached hreplay
    · obtain ⟨rfl, -⟩ := decideNew_eq_ok hnew
      rcases t.step_eq policy c with hsame | ⟨limits', q', updates, hadmitted⟩
      · obtain ⟨_, _, _, _, _, hcounts⟩ := step_of_decide hdecide
        have hlength := congrArg List.length hcounts.admitted
        rw [hsame] at hlength
        simp at hlength
      · obtain rfl := Option.some.inj (hpolicy.symm.trans hadmitted.accepted)
        obtain rfl := Option.some.inj (hq.symm.trans hadmitted.request)
        have hlater := (hadmitted.counters scope).later _ hstored
        exact absurd hearlier (not_lt.mpr hlater)

/-- Under one policy and from the empty store, no slot of a key has more admissions than
the capacity of its scope, and the stored count is the number of admissions in the stored
slot. An admission counts one more under both keys of its request; a refusal or a cached
result leaves the store. A request with a slot before a stored one is refused. -/
theorem slot_quota (policy : Value) (calls : List Call) :
    (∀ limits scope operation identifier, policyOk policy = some limits →
      (∀ slot, (slotsOf limits scope (slotKey operation scope identifier)
        (run policy calls).admitted).count slot ≤ (limits.bucket scope).capacity) ∧
      ∀ slot n, stored (run policy calls).entries (slotKey operation scope identifier) =
          some (slot, n) →
        (slotsOf limits scope (slotKey operation scope identifier)
          (run policy calls).admitted).count slot = n) ∧
    ∀ c,
      (∀ state', decide policy (.dict (run policy calls).entries) c = .ok (.admitted, state') →
        ∃ limits q, policyOk policy = some limits ∧ requestOk c = some q ∧
          state' = .dict ((run policy calls).step policy c).entries ∧
          Counts limits q (run policy calls) ((run policy calls).step policy c)) ∧
      ((∀ state', decide policy (.dict (run policy calls).entries) c ≠ .ok (.admitted, state')) →
        (run policy calls).step policy c = run policy calls) ∧
      (∀ state', decide policy (.dict (run policy calls).entries) c = .ok (.replay, state') →
        state' = .dict (run policy calls).entries) ∧
      ∀ limits q scope slot n, policyOk policy = some limits → requestOk c = some q →
        stored (run policy calls).entries (q.key scope) = some (slot, n) →
        q.slot limits scope < slot → c.replay ≠ .str "cached".toList →
        ∃ e, decide policy (.dict (run policy calls).entries) c = .error e := by
  refine ⟨fun limits scope operation identifier hpolicy => ?_, fun c => ⟨fun _ => step_of_decide,
    step_of_not_admitted, fun state' h => ?_, fun _ _ _ _ _ => refused_of_earlier⟩⟩
  · have htracks := sound_run hpolicy calls scope operation identifier
    exact ⟨htracks.bound, fun slot n hstored => (htracks.latest _ hstored).1⟩
  · rcases decide_eq_ok h with ⟨-, -, hsame⟩ | hnew
    · exact hsame
    · obtain ⟨hallowed, -⟩ := decideNew_eq_ok hnew
      cases hallowed

/-- A policy of one admission in every millisecond. -/
def onePolicy : Value :=
  let bucket : Value := .object ["capacity".toList, "window_ms".toList] [.int 1, .int 1]
  .object ["version".toList, "account".toList, "source".toList] [.int 1, bucket, bucket]

/-- A login at this time. -/
def loginAt (now : ℕ) : Call :=
  ⟨.str "identity.login".toList, .str "opaque:a".toList, .str "opaque:s".toList, .int now,
    .str "new".toList, .bool true, .bool true, .bool true⟩

/-- After a login at time one, a login at time zero is refused. -/
theorem slot_quota_login : (run onePolicy [loginAt 1]).admitted.length = 1 ∧
    ∃ e, decide onePolicy (.dict (run onePolicy [loginAt 1]).entries) (loginAt 0) = .error e := by
  obtain ⟨-, hcalls⟩ := slot_quota onePolicy [loginAt 1]
  obtain ⟨-, -, -, hrefused⟩ := hcalls (loginAt 0)
  have hreplay : (loginAt 0).replay ≠ .str "cached".toList := by
    intro h
    exact absurd (Value.str.inj h) (by decide)
  exact ⟨rfl, hrefused ⟨⟨1, 1⟩, ⟨1, 1⟩⟩
    ⟨"identity.login".toList, "opaque:a".toList, "opaque:s".toList, 0⟩ .account 1 1 rfl rfl rfl
    Nat.zero_lt_one hreplay⟩

end Admission
end OpenChess
