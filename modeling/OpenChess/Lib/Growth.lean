import Mathlib.Data.List.Basic
import Mathlib.Data.List.Forall2
import Mathlib.Tactic

/-!
# Lists that grow

A list whose elements change along a relation, at their places, while new ones are
appended. Nothing is removed, and what the relation keeps is a prefix of what there is.
-/

namespace Growth

variable {α β : Type*}

/-- Every element of the first list is related to the one at its place in the second. -/
inductive Grows (R : α → α → Prop) : List α → List α → Prop
  | nil (new : List α) : Grows R [] new
  | cons {a b : α} {l l' : List α} (h : R a b) (hl : Grows R l l') : Grows R (a :: l) (b :: l')

variable {R : α → α → Prop} {a b : α} {l l' l'' : List α}

theorem Grows.of_forall₂ (h : List.Forall₂ R l l') : Grows R l l' := by
  induction h with
  | nil => exact .nil []
  | cons h _ ih => exact .cons h ih

theorem Grows.append (hrefl : ∀ a, R a a) (l new : List α) : Grows R l (l ++ new) := by
  induction l with
  | nil => exact .nil new
  | cons a l ih => exact .cons (hrefl a) ih

theorem Grows.refl (hrefl : ∀ a, R a a) (l : List α) : Grows R l l := by
  have h := Grows.append hrefl l []
  rwa [List.append_nil] at h

theorem Grows.trans (htrans : ∀ a b c, R a b → R b c → R a c) (h : Grows R l l')
    (h' : Grows R l' l'') : Grows R l l'' := by
  induction h generalizing l'' with
  | nil new => exact .nil l''
  | cons h _ ih =>
    cases h' with
    | cons h' hl' => exact .cons (htrans _ _ _ h h') (ih hl')

theorem Grows.exists_mem (h : Grows R l l') (ha : a ∈ l) : ∃ b ∈ l', R a b := by
  induction h with
  | nil new => cases ha
  | cons h _ ih =>
    rcases List.mem_cons.mp ha with rfl | ha
    · exact ⟨_, List.mem_cons_self, h⟩
    · obtain ⟨b, hb, hr⟩ := ih ha
      exact ⟨b, List.mem_cons_of_mem _ hb, hr⟩

theorem map_eq_of_forall₂ {f : α → β} (hf : ∀ a b, R a b → f b = f a) (h : List.Forall₂ R l l') :
    l'.map f = l.map f := by
  induction h with
  | nil => rfl
  | cons h _ ih => rw [List.map_cons, List.map_cons, hf _ _ h, ih]

theorem exists_of_forall₂ (h : List.Forall₂ R l l') (hb : b ∈ l') : ∃ a ∈ l, R a b := by
  induction h with
  | nil => cases hb
  | cons h _ ih =>
    rcases List.mem_cons.mp hb with rfl | hb
    · exact ⟨_, List.mem_cons_self, h⟩
    · obtain ⟨a, ha, hr⟩ := ih hb
      exact ⟨a, List.mem_cons_of_mem _ ha, hr⟩

end Growth

/-!
## Histories of a log

A log that is only extended by one entry or cut to a prefix passes through every
length again before it grows past it. So a prefix of the log is what the log was
when it last had that length.
-/

namespace LogHistory

variable {α : Type*} {log next : List α} {history : List (List α)} {t : ℕ}

/-- What one operation does to a log. -/
inductive Step (log : List α) : List α → Prop
  | push (x : α) : Step log (log ++ [x])
  | cut (n : ℕ) : Step log (log.take n)

theorem Step.keep (log : List α) : Step log log := by
  have hcut : Step log (log.take log.length) := .cut log.length
  rwa [List.take_length] at hcut

def latest (t : ℕ) (history : List (List α)) : Option (List α) :=
  history.find? fun l => l.length == t

theorem latest_cons_of_eq (h : log.length = t) : latest t (log :: history) = some log := by
  rw [latest, List.find?_cons, h, BEq.rfl]

theorem latest_cons_of_ne (h : log.length ≠ t) : latest t (log :: history) = latest t history := by
  rw [latest, List.find?_cons, beq_false_of_ne h]
  rfl

/-- Every prefix of the present log is the latest log of its length. -/
def Remembers (log : List α) (history : List (List α)) : Prop :=
  ∀ t ≤ log.length, latest t (log :: history) = some (log.take t)

theorem Remembers.start : Remembers ([] : List α) [] := by
  intro t ht
  obtain rfl : t = 0 := Nat.le_zero.mp ht
  rfl

theorem Remembers.step (h : Remembers log history) (hstep : Step log next) :
    Remembers next (log :: history) := by
  cases hstep with
  | push x =>
    intro t ht
    rw [List.length_append, List.length_singleton] at ht
    by_cases hlast : t = log.length + 1
    · rw [latest_cons_of_eq (by simp [hlast]), List.take_of_length_le (by simp [hlast])]
    · rw [latest_cons_of_ne (by simp [Ne.symm hlast]), h t (by omega),
        List.take_append_of_le_length (by omega)]
  | cut n =>
    intro t ht
    by_cases hlast : (log.take n).length = t
    · rw [latest_cons_of_eq hlast, List.take_of_length_le (le_of_eq hlast)]
    · rw [List.length_take] at ht hlast
      have htake : (log.take n).take t = log.take t := by
        rw [List.take_take, Nat.min_eq_left (by omega)]
      rw [latest_cons_of_ne (by rwa [List.length_take]), h t (by omega), htake]

end LogHistory
