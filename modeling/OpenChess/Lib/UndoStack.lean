import Mathlib.Data.List.Basic
import Mathlib.Tactic

/-!
# Undo stacks

A value is set, and each value it replaces is kept; an undo puts the last kept value back
and is not kept itself. What is done and undone in between does not matter: an undo takes
back the last change that no other undo has taken back.
-/

namespace UndoStack

variable {V : Type*}

/-- A value, with the values it replaced. -/
structure Stack (V : Type*) where
  past : List V
  value : V

inductive Act (V : Type*)
  | set (v : V)
  | undo
  deriving DecidableEq

def Stack.set (s : Stack V) (v : V) : Stack V := ⟨s.past ++ [s.value], v⟩

def Stack.undo (s : Stack V) : Option (Stack V) := s.past.getLast?.map fun v => ⟨s.past.dropLast, v⟩

def Stack.act (s : Stack V) : Act V → Option (Stack V)
  | .set v => some (s.set v)
  | .undo => s.undo

def Stack.run (s : Stack V) (acts : List (Act V)) : Option (Stack V) := acts.foldlM Stack.act s

/-- Every change is taken back by a later undo, and every undo takes back a change. -/
inductive Balanced : List (Act V) → Prop
  | nil : Balanced []
  | cons (v : V) {inner rest : List (Act V)} (hinner : Balanced inner) (hrest : Balanced rest) :
      Balanced (.set v :: inner ++ .undo :: rest)

variable {s s' t : Stack V} {acts acts' : List (Act V)} {v : V}

@[simp] theorem undo_set (s : Stack V) (v : V) : (s.set v).undo = some s := by
  simp [Stack.undo, Stack.set]

@[simp] theorem run_nil (s : Stack V) : s.run [] = some s := rfl

theorem run_append (s : Stack V) (acts acts' : List (Act V)) :
    s.run (acts ++ acts') = (s.run acts).bind fun t => t.run acts' := List.foldlM_append

theorem run_cons (s : Stack V) (a : Act V) (acts : List (Act V)) :
    s.run (a :: acts) = (s.act a).bind fun t => t.run acts := List.foldlM_cons

/-- What is all taken back changes nothing. -/
theorem Balanced.run_eq (h : Balanced acts) (s : Stack V) : s.run acts = some s := by
  induction h generalizing s with
  | nil => rfl
  | cons v hinner hrest ihinner ihrest =>
    rw [List.cons_append, run_cons, Stack.act, Option.bind_some, run_append, ihinner,
      Option.bind_some, run_cons, Stack.act, undo_set, Option.bind_some, ihrest]

theorem Balanced.append (h : Balanced acts) (h' : Balanced acts') : Balanced (acts ++ acts') := by
  induction h with
  | nil => exact h'
  | cons v hinner hrest _ ihrest =>
    rw [List.append_assoc, List.cons_append]
    exact .cons v hinner ihrest

/-- An undo takes back the last change that was not taken back: there is one, what came
after it is balanced, and the stack is again what it was before it. -/
theorem exists_set_of_undo {s₀ : Stack V} (hempty : s₀.past = []) (hrun : s₀.run acts = some s)
    (hundo : s.undo = some s') :
    ∃ before v between, acts = before ++ .set v :: between ∧ Balanced between ∧
      s₀.run before = some s' := by
  induction hn : acts.length using Nat.strong_induction_on generalizing acts s s' with
  | _ n ih =>
    subst hn
    cases acts using List.reverseRecOn with
    | nil =>
      obtain rfl := Option.some.inj hrun
      rw [Stack.undo, hempty] at hundo
      cases hundo
    | append_singleton acts a =>
      rw [run_append, Option.bind_eq_some_iff] at hrun
      obtain ⟨t, ht, hlast⟩ := hrun
      rw [run_cons, Option.bind_eq_some_iff] at hlast
      obtain ⟨t', hact, hlast⟩ := hlast
      obtain rfl := Option.some.inj hlast
      cases a with
      | set v =>
        obtain rfl := Option.some.inj hact
        rw [undo_set] at hundo
        obtain rfl := Option.some.inj hundo
        exact ⟨acts, v, [], rfl, .nil, ht⟩
      | undo =>
        -- The change this undo took back comes first, and before it the one looked for.
        obtain ⟨before, v, between, rfl, hbetween, hbefore⟩ :=
          ih acts.length (by simp) ht hact rfl
        obtain ⟨before', v', between', rfl, hbetween', hbefore'⟩ :=
          ih before.length (by simp) hbefore hundo rfl
        refine ⟨before', v', between' ++ (.set v :: between ++ .undo :: []), by simp,
          hbetween'.append (.cons v hbetween .nil), hbefore'⟩

/-! ### The values kept -/

def Stack.trail (s : Stack V) : List V := s.past ++ [s.value]

@[simp] theorem trail_set (s : Stack V) (v : V) : (s.set v).trail = s.trail ++ [v] := rfl

theorem trail_undo (h : s.undo = some s') : s.trail = s'.trail ++ [s.value] := by
  obtain ⟨v, hv, rfl⟩ := Option.map_eq_some_iff.mp h
  have hpast : s.past.dropLast ++ [v] = s.past := List.dropLast_append_getLast? v hv
  rw [Stack.trail, Stack.trail, hpast]

def Stack.Alternates (s : Stack V) (first : V) : Prop :=
  s.trail.head? = some first ∧ s.trail.IsChain (· ≠ ·)

theorem Stack.Alternates.set {first : V} (h : s.Alternates first) (hv : v ≠ s.value) :
    (s.set v).Alternates first := by
  obtain ⟨hhead, hchain⟩ := h
  refine ⟨?_, ?_⟩
  · rw [trail_set, List.head?_append, hhead, Option.some_or]
  · rw [trail_set, List.isChain_append]
    refine ⟨hchain, List.isChain_singleton v, fun x hx y hy => ?_⟩
    rw [Stack.trail, List.getLast?_concat] at hx
    obtain rfl := Option.mem_some_iff.mp hx
    obtain rfl := Option.mem_some_iff.mp hy
    exact hv.symm

theorem Stack.Alternates.undo {first : V} (h : s.Alternates first) (hundo : s.undo = some s') :
    s'.Alternates first := by
  obtain ⟨hhead, hchain⟩ := h
  rw [trail_undo hundo] at hhead hchain
  refine ⟨?_, (List.isChain_append.mp hchain).1⟩
  have hsome : s'.trail.head?.isSome := by simp [Stack.trail]
  obtain ⟨u, hu⟩ := Option.isSome_iff_exists.mp hsome
  rwa [List.head?_append, hu, Option.some_or, ← hu] at hhead

end UndoStack
