import OpenChess.ControlPlane.MockSpec

/-!
# The quota of the reference control plane

Over every run the units of the quota are accounted for: they are left, held by an open
reservation, or used up by a commit in time, and no repeated request uses them up again.
-/

namespace OpenChess
namespace Mock

open ControlPlane (Op)

variable {s : Server} {p : Plane} {m : Moment} {c : Call} {e : Event} {name account : Text} {op : Op}
  {authorization body : Value} {calls : List Event}

/-! ### Units -/

def Plane.held (p : Plane) : ℤ := (p.reservations.map fun e => e.2.units).sum

def Plane.worth (p : Plane) : ℤ := p.quotaUnits + p.held

/-- The units an operation uses up: those a commit in time reports, up to those reserved. -/
def usedBy (p : Plane) (e : Event) : ℤ :=
  match findOp e.2.method e.2.path with
  | some (name, _) =>
    if name = "quota.commit".toList ∧ (act p e).1.status = 200 then
      ((p.reservations.lookup (textOf "reservation_id" e.2.body)).map fun r =>
        min r.units (intOf "actual_units" e.2.body)).getD 0
    else 0
  | none => 0

/-- The units a request uses up; one that does not reach its operation uses up none. -/
def used (s : Server) (e : Event) : ℤ := if reaches s e then usedBy s.plane e else 0

/-- The units used up by requests one after the other. -/
def usedOver : Server → List Event → ℤ
  | _, [] => 0
  | s, e :: calls => used s e + usedOver (step s e) calls

def reservationId (m : Moment) : Text := "rsv-".toList ++ m.draws 0

/-- What an operation does to the quota. -/
inductive QuotaChange (m : Moment) (p p' : Plane) : ℤ → Prop
  | none : p'.quotaUnits = p.quotaUnits → p'.reservations = p.reservations → QuotaChange m p p' 0
  | reserved (units expires : ℤ) : 0 < units → units ≤ p.quotaUnits →
      p'.quotaUnits = p.quotaUnits - units →
      p'.reservations = Assoc.assign p.reservations (reservationId m) ⟨units, expires⟩ →
      QuotaChange m p p' 0
  | settled (id : Text) (r : Reservation) (used : ℤ) : p.reservations.lookup id = some r →
      (0 < r.units → 0 ≤ used ∧ used ≤ r.units) → p'.quotaUnits = p.quotaUnits + (r.units - used) →
      p'.reservations = Assoc.erase p.reservations id → QuotaChange m p p' used

theorem perform_frame (m : Moment) (p : Plane) (authorization body : Value) (account : Text)
    (hreserve : name ≠ "quota.reserve".toList)
    (hcommit : name ≠ "quota.commit".toList) (hrelease : name ≠ "quota.release".toList) :
    (perform name m authorization body account p).2.quotaUnits = p.quotaUnits ∧
      (perform name m authorization body account p).2.reservations = p.reservations := by
  unfold perform
  simp only [if_neg hreserve, if_neg hcommit, if_neg hrelease]
  split_ifs
  · unfold register
    simp only
    split_ifs <;> exact ⟨rfl, rfl⟩
  · unfold login
    split <;> exact ⟨rfl, rfl⟩
  · exact ⟨rfl, rfl⟩
  · unfold logout
    split <;> exact ⟨rfl, rfl⟩
  · unfold deleteAccount
    split_ifs <;> exact ⟨rfl, rfl⟩
  · exact ⟨rfl, rfl⟩
  · unfold createCheckout
    split <;> exact ⟨rfl, rfl⟩
  · exact ⟨rfl, rfl⟩
  · unfold registerKey
    split_ifs <;> exact ⟨rfl, rfl⟩
  · unfold revokeKey
    split <;> exact ⟨rfl, rfl⟩
  · exact ⟨rfl, rfl⟩

theorem reserve_change (m : Moment) (body : Value) (p : Plane) :
    QuotaChange m p (reserve m body p).2 0 := by
  unfold reserve
  simp only
  split_ifs with hpositive hquota
  · exact .none rfl rfl
  · exact .none rfl rfl
  · obtain ⟨hunits, -⟩ := not_or.mp hpositive
    exact .reserved _ _ (not_le.mp hunits) (not_lt.mp hquota) rfl rfl

/-- The units a commit uses up, by its answer. -/
def committed (m : Moment) (body : Value) (p : Plane) : ℤ :=
  if (commit m body p).1.status = 200 then
    ((p.reservations.lookup (textOf "reservation_id" body)).map fun r =>
      min r.units (intOf "actual_units" body)).getD 0
  else 0

theorem commit_change (m : Moment) (body : Value) (p : Plane) :
    QuotaChange m p (commit m body p).2 (committed m body p) := by
  have hrefused : (∃ out, commit m body p = (out, p) ∧ out.status ≠ 200) →
      QuotaChange m p (commit m body p).2 (committed m body p) := by
    intro h
    obtain ⟨out, hout, hstatus⟩ := h
    unfold committed
    rw [hout, if_neg hstatus]
    exact .none rfl rfl
  by_cases hactual : intOf "actual_units" body < 0
  · exact hrefused ⟨_, by simp only [commit, if_pos hactual]; rfl, by simp [err]⟩
  cases hfound : p.reservations.lookup (textOf "reservation_id" body) with
  | none => exact hrefused ⟨_, by simp only [commit, if_neg hactual, hfound]; rfl, by simp [err]⟩
  | some r =>
    by_cases hlate : (r.expiresAt : ℚ) < m.readings 1
    · have hused : committed m body p = 0 := by
        simp [committed, commit, hactual, hfound, hlate, err]
      rw [hused]
      refine .settled _ r 0 hfound (fun hunits => ⟨le_rfl, le_of_lt hunits⟩) ?_ ?_
      · simp [commit, hactual, hfound, hlate]
      · simp [commit, hactual, hfound, hlate]
    · have hused : committed m body p = min r.units (intOf "actual_units" body) := by
        simp [committed, commit, hactual, hfound, hlate]
      rw [hused]
      refine .settled _ r _ hfound (fun hunits => by omega) ?_ ?_
      · simp only [commit, if_neg hactual, hfound, if_neg hlate]
        omega
      · simp [commit, hactual, hfound, hlate]

theorem release_change (m : Moment) (body : Value) (p : Plane) :
    QuotaChange m p (release body p).2 0 := by
  unfold release
  simp only
  cases hfound : p.reservations.lookup (textOf "reservation_id" body) with
  | none => exact .none rfl rfl
  | some r => exact .settled _ r 0 hfound (fun hunits => ⟨le_rfl, le_of_lt hunits⟩) (by simp) rfl

theorem act_change (p : Plane) (e : Event) : QuotaChange e.1 p (act p e).2 (usedBy p e) := by
  unfold usedBy
  cases hop : findOp e.2.method e.2.path with
  | none =>
    have hact : (act p e).2 = p := by simp only [act, hop]
    rw [hact]
    exact .none rfl rfl
  | some found =>
    obtain ⟨name, op⟩ := found
    have hact : act p e = logic name op e.1 e.2 p := by simp only [act, hop]
    simp only [hact]
    unfold logic
    cases validate e.2.body name op.request with
    | some problem =>
      have hstatus : ¬(name = "quota.commit".toList ∧ (err "malformed_request".toList problem false
          400).status = 200) := fun h => absurd h.2 (by simp [err])
      simp only [if_neg hstatus]
      exact .none rfl rfl
    | none =>
      simp only
      by_cases hreserve : name = "quota.reserve".toList
      · subst hreserve
        exact reserve_change e.1 e.2.body p
      by_cases hcommit : name = "quota.commit".toList
      · subst hcommit
        change QuotaChange e.1 p (commit e.1 e.2.body p).2 (if _ ∧ (commit e.1 e.2.body p).1.status = 200 then _ else 0)
        simp only [true_and]
        exact commit_change e.1 e.2.body p
      by_cases hrelease : name = "quota.release".toList
      · subst hrelease
        exact release_change e.1 e.2.body p
      rw [if_neg (fun h => hcommit h.1)]
      obtain ⟨hunits, hheld⟩ := perform_frame e.1 p e.2.authorization e.2.body
        ((accountOf op p e.1 e.2.authorization).getD []) hreserve hcommit hrelease
      exact .none hunits hheld

/-- The quota is not overdrawn, and open reservations hold units. -/
structure Balanced (p : Plane) : Prop where
  nodup : (p.reservations.map Prod.fst).Nodup
  nonneg : 0 ≤ p.quotaUnits
  positive : ∀ e ∈ p.reservations, 0 < e.2.units

/-- A change keeps the balance; units get lost only where a reservation takes the id of an open
one. -/
theorem QuotaChange.balanced {p p' : Plane} {used : ℤ} (h : QuotaChange m p p' used)
    (hp : Balanced p) : Balanced p' ∧ 0 ≤ used ∧ p'.worth + used ≤ p.worth ∧
      (reservationId m ∉ p.reservations.map Prod.fst → p'.worth + used = p.worth) ∧
      ∀ id ∈ p'.reservations.map Prod.fst, id = reservationId m ∨ id ∈ p.reservations.map Prod.fst := by
  unfold Plane.worth Plane.held
  cases h with
  | none hunits hheld =>
    refine ⟨⟨by rw [hheld]; exact hp.nodup, by rw [hunits]; exact hp.nonneg,
      by rw [hheld]; exact hp.positive⟩, le_rfl, ?_, fun _ => ?_, fun id hid => ?_⟩
    · rw [hunits, hheld, add_zero]
    · rw [hunits, hheld, add_zero]
    · rw [hheld] at hid
      exact .inr hid
  | reserved units expires hpositive hquota hunits hheld =>
    have hsum := Assoc.sum_assign (k := reservationId m) (v := (⟨units, expires⟩ : Reservation))
      (l := p.reservations) (f := Reservation.units)
    rw [← hheld] at hsum
    change _ = _ + units at hsum
    have hkept : 0 ≤ ((p.reservations.lookup (reservationId m)).map Reservation.units).getD 0 := by
      cases hfound : p.reservations.lookup (reservationId m) with
      | none => exact le_rfl
      | some r => exact le_of_lt (hp.positive _ (Dict.mem_of_lookup hfound))
    refine ⟨⟨?_, by omega, fun e he => ?_⟩, le_rfl, by omega, fun hnew => ?_, fun id hid => ?_⟩
    · rw [hheld]
      exact Assoc.nodup_assign hp.nodup
    · rw [hheld] at he
      obtain rfl | he := Assoc.mem_of_mem_assign he
      · exact hpositive
      · exact hp.positive e he
    · rw [Dict.lookup_eq_none_iff.mpr hnew, Option.map_none, Option.getD_none] at hsum
      omega
    · rw [hheld] at hid
      exact Assoc.mem_map_fst_assign.mp hid
  | settled id r used hfound hused hunits hheld =>
    have hsum := Assoc.sum_erase (k := id) (l := p.reservations) (f := Reservation.units) hp.nodup
    rw [← hheld, hfound, Option.map_some, Option.getD_some] at hsum
    obtain ⟨hlow, hhigh⟩ := hused (hp.positive _ (Dict.mem_of_lookup hfound))
    have hnonneg := hp.nonneg
    refine ⟨⟨?_, by omega, fun e he => ?_⟩, hlow, by omega, fun _ => by omega, fun id' hid => ?_⟩
    · rw [hheld]
      exact Assoc.nodup_erase hp.nodup
    · rw [hheld] at he
      exact hp.positive e (Assoc.mem_erase.mp he).1
    · rw [hheld] at hid
      obtain ⟨e, he, rfl⟩ := List.mem_map.mp hid
      exact .inr (List.mem_map_of_mem (Assoc.mem_erase.mp he).1)

theorem step_change (s : Server) (e : Event) :
    QuotaChange e.1 s.plane (step s e).plane (used s e) := by
  rcases step_cases s e with ⟨hreaches, hsame⟩ | ⟨hreaches, -, hplane⟩
  · rw [hsame, used, hreaches]
    exact .none rfl rfl
  · rw [hplane, used, hreaches]
    exact act_change s.plane e

theorem worth_run (hp : Balanced s.plane) (calls : List Event) :
    Balanced (Trace.run step s calls).plane ∧ 0 ≤ usedOver s calls ∧
      (Trace.run step s calls).plane.worth + usedOver s calls ≤ s.plane.worth ∧
      ((calls.map fun e => reservationId e.1).Nodup →
        (∀ e ∈ calls, reservationId e.1 ∉ s.plane.reservations.map Prod.fst) →
        (Trace.run step s calls).plane.worth + usedOver s calls = s.plane.worth) := by
  induction calls generalizing s with
  | nil => exact ⟨hp, le_rfl, by simp [usedOver], fun _ _ => by simp [usedOver]⟩
  | cons e calls ih =>
    obtain ⟨hbalanced, hused, hle, heq, hids⟩ := (step_change s e).balanced hp
    obtain ⟨hlast, husedOver, hrest, hexact⟩ := ih hbalanced
    have hrun : Trace.run step s (e :: calls) = Trace.run step (step s e) calls := rfl
    rw [hrun, usedOver]
    refine ⟨hlast, by omega, by omega, fun hnodup hfresh => ?_⟩
    obtain ⟨hnotin, hnodup⟩ := List.nodup_cons.mp hnodup
    have hnow := heq (hfresh e List.mem_cons_self)
    have hlater := hexact hnodup fun e' he' hmem => by
      rcases hids _ hmem with hsame | hmem
      · have hmem := List.mem_map_of_mem (f := fun e : Event => reservationId e.1) he'
        rw [hsame] at hmem
        exact hnotin hmem
      · exact hfresh e' (List.mem_cons_of_mem e he') hmem
    omega

/-- Over every run the quota is not overdrawn, every open reservation holds units, and the units
that are left, held or used up are never more than at the start. They are as many as at the start
where no two requests draw the same reservation id. -/
theorem quota_conserved (calls : List Event) :
    0 ≤ (run calls).plane.quotaUnits ∧ (∀ e ∈ (run calls).plane.reservations, 0 < e.2.units) ∧
      0 ≤ usedOver Server.new calls ∧
      (run calls).plane.quotaUnits + (run calls).plane.held + usedOver Server.new calls ≤ 1000 ∧
      ((calls.map fun e => reservationId e.1).Nodup →
        (run calls).plane.quotaUnits + (run calls).plane.held + usedOver Server.new calls = 1000) := by
  have hstart : Balanced Server.new.plane :=
    ⟨List.nodup_nil, by decide, fun e he => absurd he List.not_mem_nil⟩
  obtain ⟨hbalanced, hused, hle, heq⟩ := worth_run hstart calls
  exact ⟨hbalanced.nonneg, hbalanced.positive, hused, hle,
    fun hnodup => heq hnodup fun e _ => List.not_mem_nil⟩

end Mock
end OpenChess
