import Mathlib.Data.List.Induction

/-!
# Chained logs

Every entry of a log names the id of the entry before it, the first one a fixed
genesis id. Where ids do not collide, the id of the last entry determines the
whole log.
-/

namespace OpenChess
namespace HashChain

variable {E H : Type*} (ident prior : E → H) {genesis tip : H} {es fs : List E}

def tipOf (tip : H) (es : List E) : H := es.foldl (fun _ e => ident e) tip

@[simp] theorem tipOf_nil : tipOf ident tip [] = tip := rfl

@[simp] theorem tipOf_cons (e : E) : tipOf ident tip (e :: es) = tipOf ident (ident e) es := rfl

@[simp] theorem tipOf_append :
    tipOf ident tip (es ++ fs) = tipOf ident (tipOf ident tip es) fs := List.foldl_append

theorem tipOf_concat (e : E) : tipOf ident tip (es ++ [e]) = ident e := by
  rw [tipOf_append, tipOf_cons, tipOf_nil]

/-- Every entry names the tip before it. -/
def Chained (tip : H) : List E → Prop
  | [] => True
  | e :: es => prior e = tip ∧ Chained (ident e) es

theorem chained_append : Chained ident prior tip (es ++ fs) ↔
    Chained ident prior tip es ∧ Chained ident prior (tipOf ident tip es) fs := by
  induction es generalizing tip with
  | nil => simp [Chained]
  | cons e es ih => simp [Chained, ih, and_assoc]

theorem Chained.take (h : Chained ident prior tip es) (n : ℕ) :
    Chained ident prior tip (es.take n) := by
  rw [← List.take_append_drop n es, chained_append] at h
  exact h.1

/-- The last id determines a chained log. -/
theorem eq_of_tipOf_eq (hes : Chained ident prior genesis es) (hfs : Chained ident prior genesis fs)
    (hgenesis : ∀ e ∈ es ++ fs, ident e ≠ genesis)
    (hident : ∀ e ∈ es, ∀ f ∈ fs, ident e = ident f → e = f)
    (h : tipOf ident genesis es = tipOf ident genesis fs) : es = fs := by
  induction es using List.reverseRecOn generalizing fs with
  | nil =>
    cases fs using List.reverseRecOn with
    | nil => rfl
    | append_singleton fs f =>
      rw [tipOf_nil, tipOf_concat] at h
      exact absurd h.symm (hgenesis f (by simp))
  | append_singleton es e ih =>
    cases fs using List.reverseRecOn with
    | nil =>
      rw [tipOf_nil, tipOf_concat] at h
      exact absurd h (hgenesis e (by simp))
    | append_singleton fs f =>
      rw [tipOf_concat, tipOf_concat] at h
      obtain rfl := hident e (by simp) f (by simp) h
      obtain ⟨hes, he, -⟩ := (chained_append ident prior).mp hes
      obtain ⟨hfs, hf, -⟩ := (chained_append ident prior).mp hfs
      rw [ih hes hfs ?_ ?_ (he.symm.trans hf)]
      · intro x hx
        exact hgenesis x (by simp only [List.mem_append] at hx ⊢; tauto)
      · intro x hx y hy
        exact hident x (List.mem_append_left _ hx) y (List.mem_append_left _ hy)

end HashChain
end OpenChess
