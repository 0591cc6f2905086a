import OpenChess.Lib.Dict
import OpenChess.Lib.Trace

/-!
# Receivers that remember their answers

A receiver hands a call to its service, which acts on a state and answers. Some calls are
filed under a scope, with a print of what was asked: a scope is served once, and a repeated
call is answered from the file.
-/

namespace Receiver

/-- The state of the service, and the answers filed so far. -/
structure Desk (S K P O : Type*) where
  state : S
  filed : List (K × P × O)

/-- What becomes of a call: it is turned away, handed to the service, or handed to the
service unless its scope is filed. -/
inductive Route (K P O : Type*)
  | refuse (out : O)
  | pass
  | file (scope : K) (print : P)

structure Service (S C K P O : Type*) where
  route : Desk S K P O → C → Route K P O
  act : S → C → O × S
  conflict : O

variable {S C K P O : Type*} [DecidableEq K] [DecidableEq P]
  (service : Service S C K P O)

/-- The answer to a call, and the desk after it. -/
def handle (d : Desk S K P O) (c : C) : O × Desk S K P O :=
  match service.route d c with
  | .refuse out => (out, d)
  | .pass => ((service.act d.state c).1, { d with state := (service.act d.state c).2 })
  | .file scope print =>
    match d.filed.lookup scope with
    | some (print', out) => if print' = print then (out, d) else (service.conflict, d)
    | none => ((service.act d.state c).1,
        ⟨(service.act d.state c).2, d.filed ++ [(scope, print, (service.act d.state c).1)]⟩)

def run (d : Desk S K P O) (calls : List C) : Desk S K P O :=
  Trace.run (fun d c => (handle service d c).2) d calls

/-- The scope under which the service acts on the call now, if it acts on it. -/
def serves (d : Desk S K P O) (c : C) : Option (Option K) :=
  match service.route d c with
  | .refuse _ => none
  | .pass => some none
  | .file scope _ => if (d.filed.lookup scope).isSome then none else some (some scope)

def served : Desk S K P O → List C → List (Option K × C)
  | _, [] => []
  | d, c :: calls => ((serves service d c).map fun scope => (scope, c)).toList ++
      served (handle service d c).2 calls

variable {service} {d : Desk S K P O} {c : C} {calls : List C} {scope : K} {print : P}

/-! ### One call -/

theorem handle_refuse {out : O} (h : service.route d c = .refuse out) :
    handle service d c = (out, d) := by
  simp only [handle, h]

theorem handle_pass (h : service.route d c = .pass) : handle service d c =
    ((service.act d.state c).1, { d with state := (service.act d.state c).2 }) := by
  simp only [handle, h]

/-- A call with a new scope is served and filed. -/
theorem handle_new (h : service.route d c = .file scope print)
    (hnew : d.filed.lookup scope = none) : handle service d c = ((service.act d.state c).1,
      ⟨(service.act d.state c).2, d.filed ++ [(scope, print, (service.act d.state c).1)]⟩) := by
  simp only [handle, h, hnew]

/-- A call is answered without an effect, or the service acts on it; then its answer is filed
if it has a scope, which was not filed before. -/
theorem handle_cases (service : Service S C K P O) (d : Desk S K P O) (c : C) :
    serves service d c = none ∧ (handle service d c).2 = d ∨
    serves service d c = some none ∧ service.route d c = .pass ∧ handle service d c =
      ((service.act d.state c).1, { d with state := (service.act d.state c).2 }) ∨
    ∃ scope print, serves service d c = some (some scope) ∧ d.filed.lookup scope = none ∧
      service.route d c = .file scope print ∧ handle service d c = ((service.act d.state c).1,
        ⟨(service.act d.state c).2, d.filed ++ [(scope, print, (service.act d.state c).1)]⟩) := by
  unfold handle serves
  cases hroute : service.route d c with
  | refuse out => exact .inl ⟨rfl, rfl⟩
  | pass => exact .inr (.inl ⟨rfl, rfl, rfl⟩)
  | file scope print =>
    cases hfiled : d.filed.lookup scope with
    | none =>
      refine .inr (.inr ⟨scope, print, ?_, hfiled, rfl, ?_⟩)
      · simp [hfiled]
      · simp only [hfiled]
    | some entry =>
      refine .inl ⟨?_, ?_⟩
      · simp [hfiled]
      · simp only [hfiled]
        split_ifs <;> rfl

theorem lookup_handle {entry : P × O} (h : d.filed.lookup scope = some entry) (c : C) :
    (handle service d c).2.filed.lookup scope = some entry := by
  rcases handle_cases service d c with ⟨-, hd⟩ | ⟨-, -, hout⟩ | ⟨_, _, -, -, -, hout⟩
  · rwa [hd]
  · rwa [hout]
  · rw [hout, List.lookup_append, h]
    rfl

/-- The answer to a call whose scope is filed, with the same print or with another one. -/
theorem handle_filed {entry : P × O} (hroute : service.route d c = .file scope print)
    (h : d.filed.lookup scope = some entry) :
    handle service d c = (if entry.1 = print then entry.2 else service.conflict, d) := by
  unfold handle
  simp only [hroute, h]
  split_ifs <;> rfl

/-- A call with a scope leaves an answer on file, which is the answer to the call if the
print is the one it was filed with. -/
theorem exists_filed (hroute : service.route d c = .file scope print) :
    ∃ entry, (handle service d c).2.filed.lookup scope = some entry ∧
      (handle service d c).1 = if entry.1 = print then entry.2 else service.conflict := by
  cases hfiled : d.filed.lookup scope with
  | some entry =>
    rw [handle_filed hroute hfiled]
    exact ⟨entry, hfiled, rfl⟩
  | none =>
    refine ⟨(print, (service.act d.state c).1), ?_, ?_⟩
    · simp only [handle, hroute, hfiled, List.lookup_append]
      simp
    · simp only [handle, hroute, hfiled, if_true]

/-! ### Runs -/

@[simp] theorem run_nil : run service d [] = d := rfl

@[simp] theorem run_cons : run service d (c :: calls) = run service (handle service d c).2 calls :=
  rfl

theorem run_append (calls calls' : List C) :
    run service d (calls ++ calls') = run service (run service d calls) calls' :=
  Trace.run_append calls calls'

theorem lookup_run (service : Service S C K P O) {entry : P × O}
    (h : d.filed.lookup scope = some entry) (calls : List C) :
    (run service d calls).filed.lookup scope = some entry := by
  induction calls generalizing d with
  | nil => exact h
  | cons c calls ih => exact ih (lookup_handle h c)

theorem scopes_run (service : Service S C K P O) (d : Desk S K P O) (calls : List C) :
    (run service d calls).filed.map Prod.fst =
      d.filed.map Prod.fst ++ (served service d calls).filterMap Prod.fst := by
  induction calls generalizing d with
  | nil => simp [served]
  | cons c calls ih =>
    rw [run_cons, ih, served, List.filterMap_append]
    rcases handle_cases service d c with ⟨hserves, hd⟩ | ⟨hserves, -, hout⟩ | ⟨_, _, hserves, -, -, hout⟩
    · rw [hserves, hd]
      rfl
    · rw [hserves, hout]
      rfl
    · rw [hserves, hout, List.map_append, List.append_assoc]
      rfl

theorem nodup_run (h : (d.filed.map Prod.fst).Nodup) (calls : List C) :
    ((run service d calls).filed.map Prod.fst).Nodup := by
  induction calls generalizing d with
  | nil => exact h
  | cons c calls ih =>
    rw [run_cons]
    refine ih ?_
    rcases handle_cases service d c with ⟨-, hd⟩ | ⟨-, -, hout⟩ | ⟨scope, _, -, hnew, -, hout⟩
    · rwa [hd]
    · rwa [hout]
    · rw [hout, List.map_append]
      refine List.nodup_append.mpr ⟨h, List.nodup_singleton _, ?_⟩
      rintro k hk _ (_ | _)
      · rintro rfl
        exact OpenChess.Dict.lookup_eq_none_iff.mp hnew hk
      · contradiction

/-- A scope is served once at most. -/
theorem nodup_served (hstart : d.filed = []) (calls : List C) :
    ((served service d calls).filterMap Prod.fst).Nodup := by
  have hstart' : (d.filed.map Prod.fst).Nodup := by simp [hstart]
  have hnodup := @nodup_run _ _ _ _ _ _ _ service d hstart' calls
  rwa [scopes_run, hstart, List.map_nil, List.nil_append] at hnodup

/-! ### The calls on file -/

def filings (service : Service S C K P O) (d : Desk S K P O) (calls : List C) : List (K × C) :=
  (served service d calls).filterMap fun e => e.1.map fun scope => (scope, e.2)

theorem filings_cons : filings service d (c :: calls) =
    ((serves service d c).bind fun found => found.map fun scope => (scope, c)).toList ++
      filings service (handle service d c).2 calls := by
  unfold filings
  rw [served, List.filterMap_append]
  congr 1
  cases serves service d c with
  | none => rfl
  | some found => cases found <;> rfl

theorem map_fst_filings (service : Service S C K P O) (d : Desk S K P O) (calls : List C) :
    (filings service d calls).map Prod.fst = (served service d calls).filterMap Prod.fst := by
  unfold filings
  rw [List.map_filterMap]
  refine List.filterMap_congr fun e _ => ?_
  cases e.1 <;> rfl

theorem sublist_filings (service : Service S C K P O) (d : Desk S K P O) (calls : List C) :
    ((filings service d calls).map Prod.snd).Sublist calls := by
  induction calls generalizing d with
  | nil => exact List.Sublist.refl _
  | cons c calls ih =>
    rw [filings_cons, List.map_append]
    cases hserves : serves service d c with
    | none => exact (ih _).cons c
    | some found =>
      cases found with
      | none => exact (ih _).cons c
      | some scope => exact (ih _).cons_cons c

/-- Where calls that are passed on change nothing, the state is the one the calls on file lead
to. -/
theorem state_run_filings (hpass : ∀ (d : Desk S K P O) c, service.route d c = .pass →
      (service.act d.state c).2 = d.state) (d : Desk S K P O) (calls : List C) :
    (run service d calls).state = Trace.run (fun s c => (service.act s c).2) d.state
      ((filings service d calls).map Prod.snd) := by
  induction calls generalizing d with
  | nil => rfl
  | cons c calls ih =>
    rw [run_cons, ih, filings_cons, List.map_append, Trace.run_append]
    rcases handle_cases service d c with
      ⟨hserves, hd⟩ | ⟨hserves, hroute, hout⟩ | ⟨_, _, hserves, -, -, hout⟩
    · rw [hserves, hd]
      rfl
    · rw [hserves, hout]
      change Trace.run _ (service.act d.state c).2 _ = _
      rw [hpass d c hroute]
      rfl
    · rw [hserves, hout]
      rfl

/-- When a call on file was handled, its scope was new. -/
theorem of_mem_filings (h : (scope, c) ∈ filings service d calls) : ∃ before after,
    calls = before ++ c :: after ∧ (run service d before).filed.lookup scope = none ∧
      ∃ print, service.route (run service d before) c = .file scope print := by
  induction calls generalizing d with
  | nil => cases h
  | cons c' calls ih =>
    rw [filings_cons] at h
    obtain h | h := List.mem_append.mp h
    · rcases handle_cases service d c' with
        ⟨hserves, -⟩ | ⟨hserves, -, -⟩ | ⟨scope', print, hserves, hnew, hroute, -⟩
      · simp [hserves] at h
      · simp [hserves] at h
      · simp only [hserves, Option.bind_some, Option.map_some, Option.toList_some,
          List.mem_singleton, Prod.mk.injEq] at h
        obtain ⟨rfl, rfl⟩ := h
        exact ⟨[], calls, rfl, hnew, print, hroute⟩
    · obtain ⟨before, after, rfl, hfiled⟩ := ih h
      exact ⟨c' :: before, after, rfl, hfiled⟩

/-- What is on file at the end was on file at the start, or it is the answer to a call on file. -/
theorem exists_filing {entry : P × O} (h : (run service d calls).filed.lookup scope = some entry)
    (hnew : d.filed.lookup scope = none) : ∃ before c after, calls = before ++ c :: after ∧
      (scope, c) ∈ filings service d calls ∧
      entry.2 = (service.act (run service d before).state c).1 := by
  induction calls generalizing d with
  | nil =>
    rw [run_nil, hnew] at h
    cases h
  | cons c calls ih =>
    rw [run_cons] at h
    rw [filings_cons]
    have hlater : (handle service d c).2.filed.lookup scope = none →
        ∃ before c' after, c :: calls = before ++ c' :: after ∧
          (scope, c') ∈ ((serves service d c).bind fun found => found.map fun k => (k, c)).toList ++
            filings service (handle service d c).2 calls ∧
          entry.2 = (service.act (run service d before).state c').1 := by
      intro hnew'
      obtain ⟨before, c', after, rfl, hc', hanswer⟩ := ih h hnew'
      exact ⟨c :: before, c', after, rfl, List.mem_append_right _ hc', hanswer⟩
    rcases handle_cases service d c with
      ⟨-, hd⟩ | ⟨-, -, hout⟩ | ⟨scope', print, hserves, hfresh, -, hout⟩
    · exact hlater (by rwa [hd])
    · exact hlater (by rwa [hout])
    · by_cases hscope : scope = scope'
      · subst hscope
        have hentry : (handle service d c).2.filed.lookup scope =
            some (print, (service.act d.state c).1) := by
          rw [hout, List.lookup_append, hfresh]
          simp
        have hsame := lookup_run service hentry calls
        rw [h] at hsame
        obtain rfl := Option.some.inj hsame
        exact ⟨[], c, calls, rfl, List.mem_append_left _ (by simp [hserves]), rfl⟩
      · refine hlater ?_
        rw [hout, List.lookup_append, hnew, Option.none_or, List.lookup_cons, beq_false_of_ne hscope]
        rfl

/-- Of some calls that always get the same scope, one at most is on file. -/
theorem length_filings_le_one {mine : C → Bool} (hstart : d.filed = [])
    (halike : ∀ before c between c' after scope print scope' print',
      calls = before ++ c :: (between ++ c' :: after) → mine c = true → mine c' = true →
      service.route (run service d before) c = .file scope print →
      service.route (run service d (before ++ c :: between)) c' = .file scope' print' →
      scope = scope') :
    ((filings service d calls).filter fun f => mine f.2).length ≤ 1 := by
  have hsame : (filings service d calls).Pairwise fun f f' =>
      mine f.2 = true → mine f'.2 = true → f.1 = f'.1 := by
    clear hstart
    induction calls generalizing d with
    | nil => exact List.Pairwise.nil
    | cons c calls ih =>
      rw [filings_cons]
      refine List.pairwise_append.mpr ⟨?_, ih ?_, fun f hf f' hf' hmine hmine' => ?_⟩
      · cases (serves service d c).bind fun found => found.map fun k => (k, c) with
        | none => exact List.Pairwise.nil
        | some f => exact List.pairwise_singleton _ f
      · intro before c₁ between c₂ after scope print scope' print' hcalls h₁ h₂ hroute hroute'
        exact halike (c :: before) c₁ between c₂ after scope print scope' print'
          (congrArg (List.cons c) hcalls) h₁ h₂ hroute hroute'
      · rcases handle_cases service d c with
          ⟨hserves, -⟩ | ⟨hserves, -, -⟩ | ⟨scope, print, hserves, -, hroute, -⟩
        · simp [hserves] at hf
        · simp [hserves] at hf
        · simp only [hserves, Option.bind_some, Option.map_some, Option.toList_some,
            List.mem_singleton] at hf
          obtain rfl := hf
          obtain ⟨scope', c'⟩ := f'
          obtain ⟨between, after, rfl, -, print', hroute'⟩ := of_mem_filings hf'
          exact halike [] c between c' after scope print scope' print' rfl hmine hmine' hroute hroute'
  have hnodup : (filings service d calls).Pairwise fun f f' => f.1 ≠ f'.1 := by
    have hscopes := @nodup_served _ _ _ _ _ _ _ service d hstart calls
    rw [← map_fst_filings] at hscopes
    exact List.pairwise_map.mp hscopes
  have hnone := List.pairwise_filter.mpr ((hsame.and hnodup).imp fun {f f'} h hmine hmine' =>
    h.2 (h.1 hmine hmine'))
  cases hlist : (filings service d calls).filter fun f => mine f.2 with
  | nil => exact Nat.zero_le 1
  | cons f rest =>
    cases rest with
    | nil => exact le_rfl
    | cons f' rest =>
      rw [hlist] at hnone
      exact absurd (List.rel_of_pairwise_cons hnone List.mem_cons_self) id

/-- After a call with a scope, a call with that scope and print is answered alike, whatever came
between them, and has no effect. -/
theorem answer_repeated {between : List C} {c' : C}
    (hroute : service.route d c = .file scope print)
    (hroute' : service.route (run service d (c :: between)) c' = .file scope print) :
    handle service (run service d (c :: between)) c' =
      ((handle service d c).1, run service d (c :: between)) := by
  obtain ⟨entry, hfiled, hanswer⟩ := exists_filed hroute
  rw [handle_filed hroute' (lookup_run service hfiled between), hanswer]

end Receiver
