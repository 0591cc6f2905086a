import Mathlib.Data.List.Forall2
import Mathlib.Data.List.Infix
import Mathlib.Data.List.TakeWhile
import Mathlib.Tactic.Cases

/-!
# Splitting at a word

A text is split at a given word with blanks around it, from the left, and every separator is
as long as it can be. The pieces with separators in between are the text again, and a text
that is put together of pieces without the word is split into them.
-/

namespace WordSplit

variable {α : Type*} (blank : α → Bool) (same : α → α → Bool)

/-- What follows the word, if the text begins with it. -/
def behind : List α → List α → Option (List α)
  | [], t => some t
  | _ :: _, [] => none
  | o :: op, c :: t => if same c o then behind op t else none

/-- What follows a separator, if the text begins with one. -/
def separator (op t : List α) : Option (List α) :=
  if (t.head?.any blank) then
    match behind same op (t.dropWhile blank) with
    | none => none
    | some rest => if rest.head?.any blank then some (rest.dropWhile blank) else none
  else none

variable {blank same} {op t rest p w lead : List α} {ps : List (List α)} {c : α}

theorem behind_eq_some (h : behind same op t = some rest) :
    ∃ w, t = w ++ rest ∧ List.Forall₂ (fun c o => same c o = true) w op := by
  induction op generalizing t with
  | nil =>
    cases h
    exact ⟨[], rfl, List.Forall₂.nil⟩
  | cons o op ih =>
    cases t with
    | nil => cases h
    | cons c t =>
      rw [behind] at h
      split_ifs at h with hsame
      obtain ⟨w, rfl, hw⟩ := ih h
      exact ⟨c :: w, rfl, List.Forall₂.cons hsame hw⟩

theorem behind_append (h : List.Forall₂ (fun c o => same c o = true) w op) (rest : List α) :
    behind same op (w ++ rest) = some rest := by
  induction h with
  | nil => rfl
  | cons hsame _ ih =>
    rw [List.cons_append, behind, if_pos hsame]
    exact ih

/-- Text that separates: the word with blanks on both sides. -/
def Separates (blank : α → Bool) (same : α → α → Bool) (op sep : List α) : Prop :=
  ∃ lead w trail, sep = lead ++ (w ++ trail) ∧ lead ≠ [] ∧ trail ≠ [] ∧
    (∀ c ∈ lead, blank c = true) ∧ (∀ c ∈ trail, blank c = true) ∧
    List.Forall₂ (fun c o => same c o = true) w op

theorem exists_takeWhile (blank : α → Bool) (t : List α) :
    ∃ lead, t = lead ++ t.dropWhile blank ∧ ∀ c ∈ lead, blank c = true :=
  ⟨t.takeWhile blank, List.takeWhile_append_dropWhile.symm, fun _ => List.mem_takeWhile_imp⟩

theorem exists_blanks (h : t.head?.any blank = true) :
    ∃ lead, t = lead ++ t.dropWhile blank ∧ lead ≠ [] ∧ ∀ c ∈ lead, blank c = true := by
  obtain ⟨lead, hlead, hblank⟩ := exists_takeWhile blank t
  refine ⟨lead, hlead, fun hnil => ?_, hblank⟩
  cases t with
  | nil => cases h
  | cons c t =>
    have hc : blank c = true := h
    rw [hnil, List.nil_append, List.dropWhile_cons_of_pos hc] at hlead
    have hlength := congrArg List.length hlead
    have hle := (List.dropWhile_suffix (l := t) blank).length_le
    rw [List.length_cons] at hlength
    omega

theorem separator_eq_some (h : separator blank same op t = some rest) :
    ∃ sep, t = sep ++ rest ∧ Separates blank same op sep := by
  unfold separator at h
  split_ifs at h with hhead
  obtain ⟨lead, hlead, hne, hblank⟩ := exists_blanks hhead
  split at h
  · cases h
  · rename_i rest' hbehind
    split_ifs at h with hhead'
    obtain ⟨w, hw, hword⟩ := behind_eq_some hbehind
    obtain ⟨trail, htrail, hne', hblank'⟩ := exists_blanks hhead'
    rw [Option.some.inj h] at htrail
    refine ⟨lead ++ (w ++ trail), ?_, lead, w, trail, rfl, hne, hne', hblank, hblank', hword⟩
    rw [hlead, hw, htrail, List.append_assoc, List.append_assoc]

theorem length_lt_of_separator (h : separator blank same op t = some rest) :
    rest.length < t.length := by
  obtain ⟨sep, rfl, lead, w, trail, rfl, hne, -⟩ := separator_eq_some h
  have hpos := List.length_pos_of_ne_nil hne
  simp only [List.length_append]
  omega

variable (blank same) in
/-- The pieces of a text. -/
def split (op : List α) : List α → List (List α)
  | [] => [[]]
  | c :: t =>
    match _h : separator blank same op (c :: t) with
    | some rest => [] :: split op rest
    | none => (split op t).modifyHead (c :: ·)
termination_by t => t.length
decreasing_by
  · exact length_lt_of_separator _h
  · exact Nat.lt_succ_self _

theorem split_nil : split blank same op [] = [[]] := by
  rw [split]

theorem split_of_separator (h : separator blank same op t = some rest) :
    split blank same op t = [] :: split blank same op rest := by
  cases t with
  | nil => cases h
  | cons c t =>
    rw [split]
    split
    · rename_i rest' hrest'
      rw [h] at hrest'
      rw [Option.some.inj hrest']
    · rename_i hnone
      rw [h] at hnone
      cases hnone

theorem split_cons (h : separator blank same op (c :: t) = none) :
    split blank same op (c :: t) = (split blank same op t).modifyHead (c :: ·) := by
  rw [split]
  split
  · rename_i rest' hrest'
    rw [h] at hrest'
    cases hrest'
  · rfl

/-! ### The pieces and the text -/

/-- Pieces with separators in between. -/
inductive Joined (blank : α → Bool) (same : α → α → Bool) (op : List α) :
    List (List α) → List α → Prop
  | one (p : List α) : Joined blank same op [p] p
  | cons {p sep t : List α} {ps : List (List α)} (hsep : Separates blank same op sep)
      (h : Joined blank same op ps t) : Joined blank same op (p :: ps) (p ++ (sep ++ t))

theorem Joined.modifyHead (h : Joined blank same op ps t) (c : α) :
    Joined blank same op (ps.modifyHead (c :: ·)) (c :: t) := by
  cases h with
  | one p => exact Joined.one (c :: t)
  | @cons p sep t ps hsep h => exact Joined.cons (p := c :: p) hsep h

/-- The pieces of a text with separators in between are the text. -/
theorem joined_split (t : List α) : Joined blank same op (split blank same op t) t := by
  induction t using split.induct blank same op with
  | case1 =>
    rw [split_nil]
    exact Joined.one []
  | case2 c t rest h ih =>
    rw [split_of_separator h]
    obtain ⟨sep, hsep, hseparates⟩ := separator_eq_some h
    rw [hsep]
    exact Joined.cons (p := []) hseparates ih
  | case3 c t h ih =>
    rw [split_cons h]
    exact ih.modifyHead c

/-! ### A text that is put together -/

def Visible (blank : α → Bool) (t : List α) : Prop := t.head?.any blank = false

theorem dropWhile_of_blanks (hlead : ∀ c ∈ lead, blank c = true) (ht : Visible blank t) :
    (lead ++ t).dropWhile blank = t := by
  rw [List.dropWhile_append_of_pos hlead]
  cases t with
  | nil => rfl
  | cons c t => exact List.dropWhile_cons_of_neg (by simpa [Visible] using ht)

theorem head_blanks (hne : lead ≠ []) (hlead : ∀ c ∈ lead, blank c = true) (t : List α) :
    (lead ++ t).head?.any blank = true := by
  cases lead with
  | nil => exact absurd rfl hne
  | cons c lead => simpa using hlead c List.mem_cons_self

theorem visible_append (hne : w ≠ []) (hw : ∀ c ∈ w, blank c = false) (t : List α) :
    Visible blank (w ++ t) := by
  cases w with
  | nil => exact absurd rfl hne
  | cons c w => simpa [Visible] using hw c List.mem_cons_self

/-- The word of the separators: it is not empty, and no letter of it is a blank. -/
structure Wordlike (blank : α → Bool) (same : α → α → Bool) (op : List α) : Prop where
  ne_nil : op ≠ []
  visible : ∀ o ∈ op, ∀ c, same c o = true → blank c = false

theorem Wordlike.spelling (hop : Wordlike blank same op)
    (hword : List.Forall₂ (fun c o => same c o = true) w op) :
    w ≠ [] ∧ ∀ c ∈ w, blank c = false := by
  refine ⟨fun hnil => ?_, fun c hc => ?_⟩
  · rw [hnil, List.forall₂_nil_left_iff] at hword
    exact hop.ne_nil hword
  · obtain ⟨i, hi, rfl⟩ := List.getElem_of_mem hc
    obtain ⟨hlength, hget⟩ := List.forall₂_iff_get.mp hword
    exact hop.visible _ (List.getElem_mem (hlength ▸ hi)) _ (hget i hi (hlength ▸ hi))

/-- A separator is found in full. -/
theorem split_separator {sep : List α} (hop : Wordlike blank same op)
    (hsep : Separates blank same op sep) (ht : Visible blank t) :
    split blank same op (sep ++ t) = [] :: split blank same op t := by
  obtain ⟨lead, w, trail, rfl, hne, hne', hlead, htrail, hword⟩ := hsep
  obtain ⟨hwne, hw⟩ := hop.spelling hword
  have hvisible : Visible blank (w ++ (trail ++ t)) := visible_append hwne hw _
  apply split_of_separator
  rw [List.append_assoc, List.append_assoc, separator, if_pos (head_blanks hne hlead _),
    dropWhile_of_blanks hlead hvisible, behind_append hword]
  simp only [head_blanks hne' htrail t, dropWhile_of_blanks htrail ht, if_true]

theorem separator_of_visible (h : Visible blank t) : separator blank same op t = none := by
  rw [separator, if_neg (by simpa [Visible] using h)]

theorem split_word (hw : ∀ c ∈ w, blank c = false) (t : List α) :
    split blank same op (w ++ t) = (split blank same op t).modifyHead (w ++ ·) := by
  induction w with
  | nil => exact (congrFun List.modifyHead_id _).symm
  | cons c w ih =>
    obtain ⟨hc, hw⟩ := List.forall_mem_cons.mp hw
    have hnone : separator blank same op (c :: (w ++ t)) = none :=
      separator_of_visible (by simpa [Visible] using hc)
    rw [List.cons_append, split_cons hnone, ih hw, List.modifyHead_modifyHead]
    rfl

theorem behind_other (hop : ∀ o ∈ op, ∀ c, same c o = true → blank c = false)
    (hw : ∀ c ∈ w, blank c = false) (ht : t = [] ∨ t.head?.any blank = true)
    (h : behind same op (w ++ t) = some rest) (hrest : rest.head?.any blank = true) :
    List.Forall₂ (fun c o => same c o = true) w op := by
  induction w generalizing op with
  | nil =>
    cases op with
    | nil => exact List.Forall₂.nil
    | cons o op =>
      cases t with
      | nil => cases h
      | cons c t =>
        rw [List.nil_append, behind] at h
        split_ifs at h with hsame
        obtain ht | ht := ht
        · cases ht
        · have hblank : blank c = true := ht
          rw [hop o List.mem_cons_self c hsame] at hblank
          cases hblank
  | cons c w ih =>
    obtain ⟨hc, hw⟩ := List.forall_mem_cons.mp hw
    cases op with
    | nil =>
      cases h
      have hblank : blank c = true := hrest
      rw [hc] at hblank
      cases hblank
    | cons o op =>
      rw [List.cons_append, behind] at h
      split_ifs at h with hsame
      exact List.Forall₂.cons hsame (ih (List.forall_mem_cons.mp hop).2 hw h)

/-- Blanks before another word are not part of a separator. -/
theorem split_gap (hop : Wordlike blank same op) (hlead : ∀ c ∈ lead, blank c = true)
    (hne : w ≠ []) (hw : ∀ c ∈ w, blank c = false)
    (hother : ¬ List.Forall₂ (fun c o => same c o = true) w op)
    (ht : t = [] ∨ t.head?.any blank = true) :
    split blank same op (lead ++ (w ++ t)) =
      (split blank same op (w ++ t)).modifyHead (lead ++ ·) := by
  induction lead with
  | nil => exact (congrFun List.modifyHead_id _).symm
  | cons c lead ih =>
    have hnone : separator blank same op (c :: lead ++ (w ++ t)) = none := by
      rw [separator, dropWhile_of_blanks hlead (visible_append hne hw t)]
      split_ifs
      · split
        · rfl
        · rename_i rest hbehind
          exact if_neg fun hrest => hother (behind_other hop.visible hw ht hbehind hrest)
      · rfl
    have hrest := ih (List.forall_mem_cons.mp hlead).2
    rw [List.cons_append] at hnone ⊢
    rw [split_cons hnone, hrest, List.modifyHead_modifyHead]
    rfl

end WordSplit
