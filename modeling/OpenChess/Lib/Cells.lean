import OpenChess.Lib.Dict

/-!
# Cells of a dictionary

A cell is created once, with a default, and afterwards replaced by what a function makes of
it. A function that fails leaves the dictionary alone.
-/

namespace OpenChess
namespace Cells

variable {K C E : Type*} [DecidableEq K]

/-- `cells.setdefault(k, c)`. -/
def setDefault (cells : Dict K C) (k : K) (c : C) : Dict K C :=
  match cells.lookup k with
  | some _ => cells
  | none => cells.insert k c

/-- The cell under a key replaced, with the new cell. -/
def update (cells : Dict K C) (k : K) (missing : E) (f : C → Except E C) :
    Except E (C × Dict K C) :=
  match cells.lookup k with
  | none => .error missing
  | some c =>
    match f c with
    | .error e => .error e
    | .ok c' => .ok (c', cells.insert k c')

/-- The dictionary after a call that may fail. -/
def kept {R : Type*} (cells : Dict K C) (result : Except E (R × Dict K C)) : Dict K C :=
  match result with
  | .error _ => cells
  | .ok (_, cells') => cells'

variable {cells cells' : Dict K C} {k k' : K} {c c' : C} {missing : E} {f : C → Except E C}

theorem lookup_setDefault : (setDefault cells k c).lookup k' =
    if k' = k then some ((cells.lookup k).getD c) else cells.lookup k' := by
  unfold setDefault
  cases hfound : cells.lookup k with
  | some c₀ =>
    by_cases hk : k' = k
    · subst hk
      simp [hfound]
    · simp [hk]
  | none =>
    by_cases hk : k' = k
    · subst hk
      simp
    · simp [hk, Finmap.lookup_insert_of_ne]

theorem update_eq_ok : update cells k missing f = .ok (c', cells') ↔
    ∃ c, cells.lookup k = some c ∧ f c = .ok c' ∧ cells' = cells.insert k c' := by
  unfold update
  cases hfound : cells.lookup k with
  | none => simp
  | some c =>
    cases hf : f c with
    | error e => simp [hf]
    | ok c₁ =>
      simp only [Except.ok.injEq, Prod.mk.injEq, Option.some.injEq, exists_eq_left', hf]
      constructor
      · intro h
        obtain ⟨rfl, rfl⟩ := h
        exact ⟨rfl, rfl⟩
      · intro h
        obtain ⟨rfl, rfl⟩ := h
        exact ⟨rfl, rfl⟩

theorem insert_lookup (h : cells.lookup k = some c) : cells.insert k c = cells := by
  refine Finmap.ext_lookup fun k' => ?_
  by_cases hk : k' = k
  · rw [hk, Finmap.lookup_insert, h]
  · rw [Finmap.lookup_insert_of_ne _ hk]

end Cells
end OpenChess
