import Mathlib.Data.List.Nodup
import Mathlib.Logic.Function.Basic
import Mathlib.Logic.Relation
import Mathlib.Order.Basic

/-!
# Lists grown parents first

Entries are appended one by one; the parents of a new entry are keys already
present, and only the first entry has none. Such a list is a rooted directed
acyclic graph.
-/

namespace OpenChess
namespace ParentsFirst

variable {K R : Type*} {parents : R → List K} {l : List (K × R)}

def keys (l : List (K × R)) : List K := l.map Prod.fst

/-- `p` is a parent of the entry under `k`. -/
def Parent (parents : R → List K) (l : List (K × R)) (p k : K) : Prop :=
  ∃ r, (k, r) ∈ l ∧ p ∈ parents r

inductive Grown (parents : R → List K) : List (K × R) → Prop
  | nil : Grown parents []
  | snoc {l : List (K × R)} {k : K} {r : R} : Grown parents l → k ∉ keys l →
      (∀ p ∈ parents r, p ∈ keys l) → (parents r = [] ↔ l = []) → Grown parents (l ++ [(k, r)])

theorem mem_keys_append {k k' : K} {r : R} : k ∈ keys (l ++ [(k', r)]) ↔ k ∈ keys l ∨ k = k' := by
  simp [keys]

theorem mem_keys {k : K} : k ∈ keys l ↔ ∃ r, (k, r) ∈ l := by simp [keys]

theorem Grown.nodup (h : Grown parents l) : (keys l).Nodup := by
  induction h with
  | nil => exact List.nodup_nil
  | @snoc l k r _ hnew _ _ ih =>
    have hkeys : keys (l ++ [(k, r)]) = keys l ++ [k] := by simp [keys]
    rw [hkeys]
    exact List.nodup_append.mpr ⟨ih, List.nodup_singleton k, fun a ha b hb heq =>
      hnew (List.mem_singleton.mp hb ▸ heq ▸ ha)⟩

/-- The parents of every entry are present. -/
theorem Grown.parent_mem (h : Grown parents l) {p k : K} (hp : Parent parents l p k) :
    p ∈ keys l := by
  induction h with
  | nil =>
    obtain ⟨r, hr, -⟩ := hp
    cases hr
  | @snoc l k' r' _ _ hparents _ ih =>
    obtain ⟨r, hr, hmem⟩ := hp
    rw [mem_keys_append]
    rcases List.mem_append.mp hr with hr | hr
    · exact .inl (ih ⟨r, hr, hmem⟩)
    · cases List.mem_singleton.mp hr
      exact .inl (hparents p hmem)

/-- The first entry is the one without parents. -/
theorem Grown.first (h : Grown parents l) (hne : l ≠ []) :
    ∃ k r rest, l = (k, r) :: rest ∧ parents r = [] ∧ ∀ e ∈ rest, parents e.2 ≠ [] := by
  induction h with
  | nil => exact absurd rfl hne
  | @snoc l k r _ _ _ hroot ih =>
    by_cases hl : l = []
    · subst hl
      exact ⟨k, r, [], rfl, hroot.mpr rfl, fun e he => by cases he⟩
    · obtain ⟨k₀, r₀, rest, rfl, hr₀, hrest⟩ := ih hl
      refine ⟨k₀, r₀, rest ++ [(k, r)], rfl, hr₀, fun e he => ?_⟩
      rcases List.mem_append.mp he with he | he
      · exact hrest e he
      · rw [List.mem_singleton.mp he]
        exact fun hnil => hl (hroot.mp hnil)

theorem Parent.append {p k : K} (h : Parent parents l p k) (e : K × R) :
    Parent parents (l ++ [e]) p k := by
  obtain ⟨r, hr, hmem⟩ := h
  exact ⟨r, List.mem_append_left _ hr, hmem⟩

/-- Every entry descends from the first one. -/
theorem Grown.descends (h : Grown parents l) {k₀ : K} {r₀ : R} {rest : List (K × R)}
    (hl : l = (k₀, r₀) :: rest) {k : K} (hk : k ∈ keys l) :
    Relation.ReflTransGen (Parent parents l) k₀ k := by
  induction h generalizing rest k with
  | nil => cases hl
  | @snoc l k' r' _ _ hparents hroot ih =>
    cases l with
    | nil =>
      simp only [List.nil_append, List.cons.injEq, Prod.mk.injEq] at hl
      obtain ⟨⟨rfl, rfl⟩, -⟩ := hl
      rw [mem_keys_append] at hk
      rcases hk with hk | rfl
      · cases hk
      · exact .refl
    | cons e l =>
      simp only [List.cons_append, List.cons.injEq] at hl
      obtain ⟨rfl, -⟩ := hl
      have hsub : ∀ p q, Parent parents ((k₀, r₀) :: l) p q →
          Parent parents ((k₀, r₀) :: l ++ [(k', r')]) p q := fun _ _ hp => hp.append _
      have hold : ∀ {q}, q ∈ keys ((k₀, r₀) :: l) →
          Relation.ReflTransGen (Parent parents ((k₀, r₀) :: l ++ [(k', r')])) k₀ q :=
        fun hq => Relation.ReflTransGen.mono hsub _ _ (ih rfl hq)
      rcases mem_keys_append.mp hk with hk | rfl
      · exact hold hk
      · -- the new entry has a parent, which descends from the first entry
        obtain ⟨p, hp⟩ := List.exists_mem_of_ne_nil _ fun hnil => absurd (hroot.mp hnil) (by simp)
        exact (hold (hparents p hp)).tail
          ⟨r', List.mem_append_right _ (List.mem_singleton.mpr rfl), hp⟩

/-- Positions in the list increase from parents to children. -/
theorem Grown.exists_rank (h : Grown parents l) : ∃ rank : K → ℕ,
    (∀ k ∈ keys l, rank k < l.length) ∧ ∀ p k, Parent parents l p k → rank p < rank k := by
  classical
  induction h with
  | nil =>
    refine ⟨fun _ => 0, (fun k hk => by cases hk), fun p k hp => ?_⟩
    obtain ⟨r, hr, -⟩ := hp
    cases hr
  | @snoc l k' r' hgrown hnew hparents _ ih =>
    obtain ⟨rank, hlt, hstep⟩ := ih
    have hold : ∀ {q}, q ∈ keys l → Function.update rank k' l.length q = rank q := by
      intro q hq
      refine Function.update_of_ne ?_ _ _
      rintro rfl
      exact hnew hq
    refine ⟨Function.update rank k' l.length, fun k hk => ?_, fun p k hp => ?_⟩
    · rw [List.length_append, List.length_singleton]
      rcases mem_keys_append.mp hk with hk | rfl
      · rw [hold hk]
        exact Nat.lt_succ_of_lt (hlt k hk)
      · rw [Function.update_self]
        exact Nat.lt_succ_self _
    · obtain ⟨r, hr, hmem⟩ := hp
      rcases List.mem_append.mp hr with hr | hr
      · have hp : Parent parents l p k := ⟨r, hr, hmem⟩
        rw [hold (hgrown.parent_mem hp), hold (mem_keys.mpr ⟨r, hr⟩)]
        exact hstep p k hp
      · cases List.mem_singleton.mp hr
        rw [hold (hparents p hmem), Function.update_self]
        exact hlt p (hparents p hmem)

/-- No entry is its own ancestor. -/
theorem Grown.acyclic (h : Grown parents l) (k : K) :
    ¬ Relation.TransGen (Parent parents l) k k := by
  obtain ⟨rank, -, hstep⟩ := h.exists_rank
  have hlt : ∀ {a b}, Relation.TransGen (Parent parents l) a b → rank a < rank b := by
    intro a b hab
    induction hab with
    | single hp => exact hstep _ _ hp
    | tail _ hp ih => exact Nat.lt_trans ih (hstep _ _ hp)
  exact fun hcycle => Nat.lt_irrefl _ (hlt hcycle)

end ParentsFirst
end OpenChess
