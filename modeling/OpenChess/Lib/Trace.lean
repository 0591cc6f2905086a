import Mathlib.Data.List.Basic
import Mathlib.Tactic

/-!
# Runs of calls

A run feeds a list of calls to a step function. What holds after a run is decided by the
last call that mattered, and a revision that never goes back is spent once at most.
-/

namespace Trace

variable {S C K : Type*} (step : S → C → S) (start : S)

def run (calls : List C) : S := calls.foldl step start

variable {step start} {calls before between : List C} {call call' : C}

@[simp] theorem run_nil : run step start [] = start := rfl

@[simp] theorem run_snoc (calls : List C) (call : C) :
    run step start (calls ++ [call]) = step (run step start calls) call := by
  simp [run]

/-- An invariant of the steps holds after every run. -/
theorem run_invariant {inv : S → Prop} (h : inv start) (hstep : ∀ s call, inv s → inv (step s call))
    (calls : List C) : inv (run step start calls) := by
  induction calls using List.reverseRecOn with
  | nil => exact h
  | append_singleton calls call ih =>
    rw [run_snoc]
    exact hstep _ call ih

/-! ### The last call that mattered -/

/-- Some call sets, seen from the state before it, and no later call touches. -/
def Last (step : S → C → S) (start : S) (sets touches : S → C → Prop) (calls : List C) : Prop :=
  ∃ before call after, calls = before ++ call :: after ∧ sets (run step start before) call ∧
    ∀ between call' rest, after = between ++ call' :: rest →
      ¬ touches (run step start (before ++ call :: between)) call'

variable {sets touches : S → C → Prop}

theorem last_nil : ¬ Last step start sets touches [] := by
  intro h
  obtain ⟨before, call, after, hcalls, -⟩ := h
  simp at hcalls

theorem last_snoc : Last step start sets touches (calls ++ [call]) ↔
    sets (run step start calls) call ∨
      ¬ touches (run step start calls) call ∧ Last step start sets touches calls := by
  constructor
  · intro h
    obtain ⟨before, call', after, hcalls, hsets, huntouched⟩ := h
    induction after using List.reverseRecOn with
    | nil =>
      obtain ⟨rfl, heq⟩ := List.append_inj' hcalls rfl
      obtain rfl := List.singleton_inj.mp heq
      exact Or.inl hsets
    | append_singleton after last _ =>
      have hsplit : before ++ call' :: (after ++ [last]) = (before ++ call' :: after) ++ [last] := by
        simp
      rw [hsplit] at hcalls
      obtain ⟨rfl, heq⟩ := List.append_inj' hcalls rfl
      obtain rfl := List.singleton_inj.mp heq
      refine Or.inr ⟨huntouched after call [] rfl, before, call', after, rfl, hsets, ?_⟩
      intro between call'' rest hafter
      refine huntouched between call'' (rest ++ [call]) ?_
      rw [hafter]
      simp
  · intro h
    obtain h | ⟨huntouched, before, call', after, rfl, hsets, hafter⟩ := h
    · refine ⟨calls, call, [], rfl, h, fun between call' rest hnil => ?_⟩
      simp at hnil
    · refine ⟨before, call', after ++ [call], by simp, hsets, fun between call'' rest hsplit => ?_⟩
      induction rest using List.reverseRecOn with
      | nil =>
        obtain ⟨rfl, heq⟩ := List.append_inj' hsplit rfl
        obtain rfl := List.singleton_inj.mp heq
        exact huntouched
      | append_singleton rest last _ =>
        have hassoc : between ++ call'' :: (rest ++ [last]) = (between ++ call'' :: rest) ++ [last] := by
          simp
        rw [hassoc] at hsplit
        obtain ⟨rfl, -⟩ := List.append_inj' hsplit rfl
        exact hafter between call'' rest rfl

/-- What every step makes true, leaves alone or makes false, holds after a run exactly
where the last call that touched it made it true. -/
theorem holds_iff_last {holds : S → Prop} (hstart : ¬ holds start)
    (hstep : ∀ s call, holds (step s call) ↔ sets s call ∨ ¬ touches s call ∧ holds s)
    (calls : List C) : holds (run step start calls) ↔ Last step start sets touches calls := by
  induction calls using List.reverseRecOn with
  | nil => exact iff_of_false hstart last_nil
  | append_singleton calls call ih => rw [run_snoc, hstep, last_snoc, ih]

/-- The same for steps that do so where an invariant holds. -/
theorem holds_iff_last_of_invariant {holds inv : S → Prop} (hinv : inv start)
    (hkeep : ∀ s call, inv s → inv (step s call)) (hstart : ¬ holds start)
    (hstep : ∀ s call, inv s → (holds (step s call) ↔ sets s call ∨ ¬ touches s call ∧ holds s))
    (calls : List C) : holds (run step start calls) ↔ Last step start sets touches calls := by
  induction calls using List.reverseRecOn with
  | nil => exact iff_of_false hstart last_nil
  | append_singleton calls call ih =>
    rw [run_snoc, hstep _ call (run_invariant hinv hkeep calls), last_snoc, ih]

/-! ### Revisions -/

theorem run_append (calls calls' : List C) :
    run step start (calls ++ calls') = run step (run step start calls) calls' := List.foldl_append

variable {revision : S → K → ℕ}

theorem revision_le_run (hmono : ∀ s call k, revision s k ≤ revision (step s call) k) (s : S)
    (calls : List C) (k : K) : revision s k ≤ revision (run step s calls) k := by
  induction calls using List.reverseRecOn with
  | nil => exact le_rfl
  | append_singleton calls call ih =>
    rw [run_snoc]
    exact ih.trans (hmono _ call k)

/-- Where a use of a key at a revision raises the revision of the key, no key is used at one
revision twice. -/
theorem used_once {uses : S → C → K → ℕ → Prop}
    (hmono : ∀ s call k, revision s k ≤ revision (step s call) k)
    (huse : ∀ s call k n, uses s call k n → revision s k = n ∧ n < revision (step s call) k)
    {k : K} {n : ℕ} (h : uses (run step start before) call k n) :
    ¬ uses (run step start (before ++ call :: between)) call' k n := by
  intro h'
  obtain ⟨-, hraised⟩ := huse _ _ _ _ h
  obtain ⟨hrevision, -⟩ := huse _ _ _ _ h'
  have hsplit : before ++ call :: between = (before ++ [call]) ++ between := by simp
  rw [hsplit, run_append, run_snoc] at hrevision
  have hle := revision_le_run hmono (step (run step start before) call) between k
  omega

/-! ### The first call that mattered -/

/-- Where a step keeps what a key holds, and an empty key takes what the call brings for it, a key
holds after a run what the first call brought that had something for it. -/
theorem find_run {V : Type*} {find : S → K → Option V} {brings : C → K → Option V}
    (hstep : ∀ s call k, find (step s call) k = (find s k).or (brings call k)) (calls : List C)
    (k : K) : find (run step start calls) k =
      (find start k).or (calls.findSome? fun call => brings call k) := by
  induction calls using List.reverseRecOn with
  | nil => exact Option.or_none.symm
  | append_singleton calls call ih =>
    rw [run_snoc, hstep, ih, List.findSome?_append, List.findSome?_singleton, Option.or_assoc]

/-- Where a step knows its call from then on, and does nothing on a call that is known, calls of a
run change nothing when they are made again. -/
theorem run_again {knows : S → C → Prop} (hsame : ∀ s call, knows s call → step s call = s)
    (hlearn : ∀ s call, knows (step s call) call)
    (hkeep : ∀ s call call', knows s call → knows (step s call') call) {calls again : List C}
    (h : ∀ call ∈ again, call ∈ calls) : run step start (calls ++ again) = run step start calls := by
  have hknown : ∀ call ∈ calls, knows (run step start calls) call := by
    clear h
    induction calls using List.reverseRecOn with
    | nil => exact fun call hcall => absurd hcall List.not_mem_nil
    | append_singleton calls call' ih =>
      intro call hcall
      rw [run_snoc]
      rcases List.mem_append.mp hcall with hcall | hcall
      · exact hkeep _ _ _ (ih call hcall)
      · rw [List.mem_singleton.mp hcall]
        exact hlearn _ _
  rw [run_append]
  induction again with
  | nil => rfl
  | cons call again ih =>
    obtain ⟨hcall, hagain⟩ := List.forall_mem_cons.mp h
    have hstep : run step (run step start calls) (call :: again) =
        run step (step (run step start calls) call) again := rfl
    rw [hstep, hsame _ _ (hknown call hcall), ih hagain]

end Trace

/-!
## Interrupted runs

A program changes a store by one operation after another and may stop after any of
them. What it leaves is the state after some first operations, and a property holds
throughout when it holds in each such state.
-/

namespace Trace

variable {S C : Type*} (step : S → C → S) (P : S → Prop)

/-- Wherever the run stops, it leaves a state with `P`. -/
def Throughout (start : S) (calls : List C) : Prop := ∀ n, P (run step start (calls.take n))

variable {step P} {Q : S → Prop} {start : S} {calls calls' : List C} {call : C}

theorem throughout_nil : Throughout step P start [] ↔ P start := by
  simp [Throughout]

theorem throughout_cons : Throughout step P start (call :: calls) ↔
    P start ∧ Throughout step P (step start call) calls := by
  constructor
  · intro h
    exact ⟨h 0, fun n => h (n + 1)⟩
  · intro h n
    obtain ⟨hstart, hrest⟩ := h
    cases n with
    | zero => exact hstart
    | succ n => exact hrest n

theorem throughout_append : Throughout step P start (calls ++ calls') ↔
    Throughout step P start calls ∧ Throughout step P (run step start calls) calls' := by
  induction calls generalizing start with
  | nil =>
    rw [throughout_nil, List.nil_append, run_nil]
    exact ⟨fun h => ⟨h 0, h⟩, fun h => h.2⟩
  | cons call calls ih =>
    rw [List.cons_append, throughout_cons, throughout_cons, ih, and_assoc]
    rfl

theorem Throughout.first (h : Throughout step P start calls) : P start := h 0

theorem Throughout.last (h : Throughout step P start calls) : P (run step start calls) := by
  have hlast := h calls.length
  rwa [List.take_length] at hlast

theorem Throughout.mono (h : Throughout step P start calls) (himp : ∀ s, P s → Q s) :
    Throughout step Q start calls := fun n => himp _ (h n)

/-- What each of the operations keeps holds throughout. -/
theorem throughout_of_keep (hstart : P start) (hkeep : ∀ c ∈ calls, ∀ s, P s → P (step s c)) :
    Throughout step P start calls := by
  induction calls generalizing start with
  | nil => exact throughout_nil.mpr hstart
  | cons call calls ih =>
    obtain ⟨hcall, hcalls⟩ := List.forall_mem_cons.mp hkeep
    exact throughout_cons.mpr ⟨hstart, ih (hcall start hstart) hcalls⟩

end Trace
