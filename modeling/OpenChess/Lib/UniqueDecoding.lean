import Mathlib.Data.List.Forall2
import Mathlib.Tactic

/-!
# Unique decoding

A text that ends a value can be told from what follows it. Values whose texts agree, up
to remainders that may follow, are then related, and so are lists of such values, whether
their texts are joined behind a count or stand between a separator and a closing mark.
-/

namespace UniqueDecoding

variable {A C : Type*} {code : A → List C → Prop} {follow : List C → Prop} {R : A → A → Prop}
  {l l' : List A} {xs ys : List (List C)} {r s : List C} {sep close : C}

/-- Where a text of this value and a text of any value agree with what follows them, the
values are related and the remainders are the same. -/
def ReadBack (code : A → List C → Prop) (follow : List C → Prop) (R : A → A → Prop) (a : A) :
    Prop :=
  ∀ ⦃b x y r s⦄, code a x → code b y → follow r → follow s → x ++ r = y ++ s → R a b ∧ r = s

/-- Joined texts of two lists of one length. -/
theorem ReadBack.flatten (h : ∀ a ∈ l, ReadBack code (fun _ => True) R a)
    (hx : List.Forall₂ code l xs) (hy : List.Forall₂ code l' ys) (hlength : l.length = l'.length)
    (heq : xs.flatten ++ r = ys.flatten ++ s) : List.Forall₂ R l l' ∧ r = s := by
  induction hx generalizing l' ys with
  | nil =>
    obtain rfl := List.length_eq_zero_iff.mp hlength.symm
    cases hy
    exact ⟨.nil, heq⟩
  | cons hcode _ ih =>
    cases hy with
    | nil => cases hlength
    | cons hcode' hrest =>
      obtain ⟨hhead, htail⟩ := List.forall_mem_cons.mp h
      rw [List.flatten_cons, List.flatten_cons, List.append_assoc, List.append_assoc] at heq
      obtain ⟨hR, heq⟩ := hhead hcode hcode' trivial trivial heq
      obtain ⟨hRs, hr⟩ := ih htail hrest (Nat.succ.inj hlength) heq
      exact ⟨.cons hR hRs, hr⟩

theorem follow_separated (hsep : ∀ t, follow (sep :: t)) (hclose : ∀ t, follow (close :: t))
    (xs : List (List C)) (t : List C) : follow (xs.flatMap (sep :: ·) ++ close :: t) := by
  cases xs with
  | nil => exact hclose t
  | cons x xs => exact hsep _

theorem ReadBack.separated (hne : sep ≠ close) (hsep : ∀ t, follow (sep :: t))
    (hclose : ∀ t, follow (close :: t)) (h : ∀ a ∈ l, ReadBack code follow R a)
    (hx : List.Forall₂ code l xs) (hy : List.Forall₂ code l' ys)
    (heq : xs.flatMap (sep :: ·) ++ close :: r = ys.flatMap (sep :: ·) ++ close :: s) :
    List.Forall₂ R l l' ∧ r = s := by
  induction hx generalizing l' ys with
  | nil =>
    cases hy with
    | nil => exact ⟨.nil, (List.cons.inj heq).2⟩
    | cons hcode' hrest => exact absurd (List.cons.inj heq).1.symm hne
  | cons hcode _ ih =>
    cases hy with
    | nil => exact absurd (List.cons.inj heq).1 hne
    | cons hcode' hrest =>
      obtain ⟨hhead, htail⟩ := List.forall_mem_cons.mp h
      simp only [List.flatMap_cons, List.cons_append, List.append_assoc, List.cons.injEq,
        true_and] at heq
      obtain ⟨hR, heq⟩ := hhead hcode hcode' (follow_separated hsep hclose _ _)
        (follow_separated hsep hclose _ _) heq
      obtain ⟨hRs, hr⟩ := ih htail hrest heq
      exact ⟨.cons hR hRs, hr⟩

theorem intercalate_cons (x : List C) (xs : List (List C)) :
    [sep].intercalate (x :: xs) = x ++ xs.flatMap (sep :: ·) := by
  induction xs generalizing x with
  | nil => simp
  | cons y xs ih =>
    rw [List.intercalate_cons_cons, ih, List.flatMap_cons, List.append_assoc,
      List.singleton_append, List.cons_append]

/-- Texts between separators, up to a closing mark that begins none of them. -/
theorem ReadBack.intercalate (hne : sep ≠ close) (hsep : ∀ t, follow (sep :: t))
    (hclose : ∀ t, follow (close :: t))
    (hstart : ∀ a x, code a x → ∃ c t, x = c :: t ∧ c ≠ close)
    (h : ∀ a ∈ l, ReadBack code follow R a) (hx : List.Forall₂ code l xs)
    (hy : List.Forall₂ code l' ys)
    (heq : [sep].intercalate xs ++ close :: r = [sep].intercalate ys ++ close :: s) :
    List.Forall₂ R l l' ∧ r = s := by
  have hopen : ∀ {a x t u v}, code a x → x ++ t ++ close :: u ≠ close :: v := by
    intro a x t u v hcode hcontra
    obtain ⟨c, x', rfl, hc⟩ := hstart a x hcode
    exact hc (List.cons.inj hcontra).1
  cases hx with
  | nil =>
    cases hy with
    | nil => exact ⟨.nil, (List.cons.inj heq).2⟩
    | cons hcode' hrest =>
      rw [intercalate_cons] at heq
      exact absurd heq.symm (hopen hcode')
  | cons hcode hrest =>
    cases hy with
    | nil =>
      rw [intercalate_cons] at heq
      exact absurd heq (hopen hcode)
    | cons hcode' hrest' =>
      obtain ⟨hhead, htail⟩ := List.forall_mem_cons.mp h
      rw [intercalate_cons, intercalate_cons, List.append_assoc, List.append_assoc] at heq
      obtain ⟨hR, heq⟩ := hhead hcode hcode' (follow_separated hsep hclose _ _)
        (follow_separated hsep hclose _ _) heq
      obtain ⟨hRs, hr⟩ := ReadBack.separated hne hsep hclose htail hrest hrest' heq
      exact ⟨.cons hR hRs, hr⟩

/-- A run of such elements ends where another element, or the end, comes next. -/
theorem append_inj_of_all {p : C → Bool} {x y : List C} (hx : x.all p = true) (hy : y.all p = true)
    (hr : ∀ c ∈ r.head?, p c = false) (hs : ∀ c ∈ s.head?, p c = false)
    (heq : x ++ r = y ++ s) : x = y ∧ r = s := by
  have hrun : ∀ {z t : List C}, z.all p = true → (∀ c ∈ t.head?, p c = false) →
      (z ++ t).takeWhile p = z := by
    intro z t hz ht
    rw [List.takeWhile_append_of_pos (List.all_eq_true.mp hz)]
    cases t with
    | nil => rw [List.takeWhile_nil, List.append_nil]
    | cons c t =>
      rw [List.takeWhile_cons_of_neg (Bool.not_eq_true _ ▸ ht c rfl), List.append_nil]
  have hxy : x = y := by rw [← hrun hx hr, heq, hrun hy hs]
  subst hxy
  exact ⟨rfl, List.append_cancel_left heq⟩

end UniqueDecoding
