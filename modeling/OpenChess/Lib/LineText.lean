import Mathlib.Data.List.DropRight
import Mathlib.Data.List.TakeWhile
import Mathlib.Tactic

/-!
# Lines, blanks and quoted values

A text is cut into lines at its line breaks, a line is stripped of the blanks at
its ends, and a value between quotes is written with a backslash before every
quote and every backslash. Lines that hold no break are read back from their
join, and a quoted value is read back from its written form.
-/

namespace OpenChess
namespace LineText

/-- A character put before the first line. -/
def addChar {α : Type} (c : α) : List (List α) → List (List α)
  | [] => [[c]]
  | l :: ls => (c :: l) :: ls

/-- The lines of a text; `afterReturn` says that a carriage return has just ended
one, and a line feed then belongs to it. -/
def linesFrom (breaks : Char → Bool) (afterReturn : Bool) : List Char → List (List Char)
  | [] => []
  | c :: t =>
    if afterReturn && c == '\n' then linesFrom breaks false t
    else if breaks c then [] :: linesFrom breaks (c == '\r') t
    else addChar c (linesFrom breaks false t)

/-- `str.splitlines()` for a set of line breaks. -/
def splitLines (breaks : Char → Bool) (t : List Char) : List (List Char) :=
  linesFrom breaks false t

/-- `str.strip()` for a set of blanks. -/
def strip (blank : Char → Bool) (t : List Char) : List Char :=
  (t.dropWhile blank).rdropWhile blank

/-- `t.replace(a + b, r)`. -/
def replacePair (a b r : Char) : List Char → List Char
  | [] => []
  | [c] => [c]
  | c :: d :: t =>
    if c = a ∧ d = b then r :: replacePair a b r t else c :: replacePair a b r (d :: t)

variable {breaks blank : Char → Bool} {l t : List Char} {ls : List (List Char)} {c : Char}

/-! ### Lines -/

theorem linesFrom_append (hfeed : breaks '\n' = true) (hl : ∀ c ∈ l, breaks c = false) :
    linesFrom breaks false (l ++ '\n' :: t) = l :: linesFrom breaks false t := by
  induction l with
  | nil => simp [linesFrom, hfeed]
  | cons a l ih =>
    obtain ⟨ha, hl⟩ := List.forall_mem_cons.mp hl
    simp [linesFrom, ha, ih hl, addChar]

theorem linesFrom_self (hne : l ≠ []) (hl : ∀ c ∈ l, breaks c = false) :
    linesFrom breaks false l = [l] := by
  induction l with
  | nil => exact absurd rfl hne
  | cons a l ih =>
    obtain ⟨ha, hl⟩ := List.forall_mem_cons.mp hl
    cases l with
    | nil => simp [linesFrom, ha, addChar]
    | cons b l =>
      have hrest := ih (by simp) hl
      rw [linesFrom, hrest]
      simp [ha, addChar]

/-- Nonempty lines without breaks are read back from their join. -/
theorem splitLines_intercalate (hfeed : breaks '\n' = true)
    (hls : ∀ l ∈ ls, l ≠ [] ∧ ∀ c ∈ l, breaks c = false) :
    splitLines breaks (['\n'].intercalate ls) = ls := by
  induction ls with
  | nil => rfl
  | cons l ls ih =>
    obtain ⟨⟨hne, hl⟩, hls⟩ := List.forall_mem_cons.mp hls
    cases ls with
    | nil => simpa [splitLines] using linesFrom_self hne hl
    | cons l' ls =>
      rw [List.intercalate_cons_cons, List.append_assoc, List.singleton_append]
      have hrest := ih hls
      unfold splitLines at hrest ⊢
      rw [linesFrom_append hfeed hl, hrest]

/-- Lines before a line feed are read back, and the rest is read by itself. -/
theorem splitLines_intercalate_append (hfeed : breaks '\n' = true) (hne : ls ≠ [])
    (hls : ∀ l ∈ ls, ∀ c ∈ l, breaks c = false) :
    splitLines breaks (['\n'].intercalate ls ++ '\n' :: t) = ls ++ splitLines breaks t := by
  induction ls with
  | nil => exact absurd rfl hne
  | cons l ls ih =>
    obtain ⟨hl, hls⟩ := List.forall_mem_cons.mp hls
    cases ls with
    | nil => simpa [splitLines] using linesFrom_append (t := t) hfeed hl
    | cons l' ls =>
      have hrest := ih (by simp) hls
      unfold splitLines at hrest ⊢
      rw [List.intercalate_cons_cons, List.append_assoc, List.append_assoc, List.singleton_append,
        linesFrom_append hfeed hl, hrest]
      rfl

theorem mem_linesFrom {afterReturn : Bool} (hl : l ∈ linesFrom breaks afterReturn t) (hc : c ∈ l) :
    breaks c = false ∧ c ∈ t := by
  induction t generalizing afterReturn l with
  | nil => simp [linesFrom] at hl
  | cons a t ih =>
    rw [linesFrom] at hl
    split_ifs at hl with h1 h2
    · exact (ih hl hc).imp_right (List.mem_cons_of_mem a)
    · rcases List.mem_cons.mp hl with rfl | hl
      · cases hc
      · exact (ih hl hc).imp_right (List.mem_cons_of_mem a)
    · cases hrest : linesFrom breaks false t with
      | nil =>
        rw [hrest] at hl
        obtain rfl : l = [a] := by simpa [addChar] using hl
        obtain rfl : c = a := by simpa using hc
        exact ⟨by simpa using h2, List.mem_cons_self⟩
      | cons l' ls =>
        rw [hrest] at hl
        rcases List.mem_cons.mp hl with rfl | hl
        · rcases List.mem_cons.mp hc with rfl | hc
          · exact ⟨by simpa using h2, List.mem_cons_self⟩
          · exact (ih (hrest ▸ List.mem_cons_self) hc).imp_right (List.mem_cons_of_mem a)
        · exact (ih (hrest ▸ List.mem_cons_of_mem _ hl) hc).imp_right (List.mem_cons_of_mem a)

theorem mem_splitLines (hl : l ∈ splitLines breaks t) (hc : c ∈ l) : breaks c = false ∧ c ∈ t :=
  mem_linesFrom hl hc

theorem mem_intercalate {sep : List Char} (h : c ∈ sep.intercalate ls) :
    c ∈ sep ∨ ∃ l ∈ ls, c ∈ l := by
  induction ls with
  | nil => simp at h
  | cons l ls ih =>
    cases ls with
    | nil => exact .inr ⟨l, List.mem_cons_self, by simpa using h⟩
    | cons l' ls =>
      rw [List.intercalate_cons_cons, List.append_assoc] at h
      rcases List.mem_append.mp h with h | h
      · exact .inr ⟨l, List.mem_cons_self, h⟩
      · rcases List.mem_append.mp h with h | h
        · exact .inl h
        · exact (ih h).imp_right fun ⟨k, hk, hc⟩ => ⟨k, List.mem_cons_of_mem _ hk, hc⟩

theorem mem_intercalate_of_mem {sep : List Char} (hl : l ∈ ls) (hc : c ∈ l) :
    c ∈ sep.intercalate ls := by
  induction ls with
  | nil => cases hl
  | cons l' ls ih =>
    cases ls with
    | nil =>
      obtain rfl := List.mem_singleton.mp hl
      simpa using hc
    | cons l'' ls =>
      rw [List.intercalate_cons_cons, List.append_assoc]
      rcases List.mem_cons.mp hl with rfl | hl
      · exact List.mem_append_left _ hc
      · exact List.mem_append_right _ (List.mem_append_right _ (ih hl))

/-! ### Blanks -/

/-- A text between two visible characters is stripped of nothing. -/
theorem strip_eq_self {a b : Char} (ha : blank a = false) (hb : blank b = false) :
    strip blank (a :: l ++ [b]) = a :: l ++ [b] := by
  have hdrop : (a :: l ++ [b]).dropWhile blank = a :: l ++ [b] := by simp [ha]
  have hright : (a :: l ++ [b]).rdropWhile blank = a :: l ++ [b] :=
    List.rdropWhile_concat_neg _ _ _ (by simp [hb])
  rw [strip, hdrop, hright]

theorem mem_of_mem_strip (hc : c ∈ strip blank t) : c ∈ t :=
  (List.dropWhile_sublist blank).mem ((List.rdropWhile_prefix _ _).sublist.mem hc)

theorem strip_eq_nil : strip blank t = [] ↔ ∀ c ∈ t, blank c = true := by
  rw [strip, List.rdropWhile_eq_nil_iff]
  constructor
  · intro h c hc
    by_contra hb
    have hne : t.dropWhile blank ≠ [] := by
      intro hnil
      exact hb (List.dropWhile_eq_nil_iff.mp hnil c hc)
    have hhead := List.head_dropWhile_not blank hne
    rw [h _ (List.head_mem hne)] at hhead
    cases hhead
  · intro h c hc
    exact h c ((List.dropWhile_sublist blank).mem hc)

/-- A text that begins with a visible character keeps it. -/
theorem exists_strip_cons (hc : blank c = false) : ∃ l, strip blank (c :: t) = c :: l := by
  have hdrop : (c :: t).dropWhile blank = c :: t := List.dropWhile_cons_of_neg (by simp [hc])
  obtain ⟨rest, hrest⟩ := List.rdropWhile_prefix blank (c :: t)
  rw [strip, hdrop]
  cases hstrip : (c :: t).rdropWhile blank with
  | nil =>
    have hall := List.rdropWhile_eq_nil_iff.mp hstrip c List.mem_cons_self
    rw [hc] at hall
    cases hall
  | cons c' l =>
    rw [hstrip] at hrest
    exact ⟨l, by rw [(List.cons.inj hrest).1]⟩

theorem rdropWhile_append (h : t.rdropWhile blank ≠ []) :
    (l ++ t).rdropWhile blank = l ++ t.rdropWhile blank := by
  have hne : (t.reverse.dropWhile blank).isEmpty = false := by
    rw [List.isEmpty_eq_false_iff]
    exact fun hnil => h (by rw [List.rdropWhile, hnil]; rfl)
  rw [List.rdropWhile, List.reverse_append, List.dropWhile_append, if_neg (by simp [hne]),
    List.reverse_append, List.reverse_reverse, List.rdropWhile]

theorem dropWhile_eq_self (h : ∀ c ∈ t, blank c = false) : t.dropWhile blank = t := by
  cases t with
  | nil => rfl
  | cons c t => exact List.dropWhile_cons_of_neg (by simp [h c List.mem_cons_self])

/-- A text without blanks between two blanks. -/
theorem strip_between {a b : Char} (ha : blank a = true) (hb : blank b = true)
    (h : ∀ c ∈ t, blank c = false) : strip blank (a :: (t ++ [b])) = t := by
  have hright : (t ++ [b]).rdropWhile blank = t := by
    have hreverse : ∀ c ∈ t.reverse, blank c = false := fun c hc => h c (List.mem_reverse.mp hc)
    rw [List.rdropWhile_concat_pos _ _ _ hb, List.rdropWhile, dropWhile_eq_self hreverse,
      List.reverse_reverse]
  cases t with
  | nil => simp [strip, ha, hb]
  | cons c t =>
    have hc : (c :: t ++ [b]).dropWhile blank = c :: t ++ [b] :=
      List.dropWhile_cons_of_neg (by simp [h c List.mem_cons_self])
    rw [strip, List.dropWhile_cons_of_pos ha, hc, hright]

theorem dropWhile_blanks (hl : ∀ c ∈ l, blank c = true) (ht : ∀ c ∈ t.head?, blank c = false) :
    (l ++ t).dropWhile blank = t := by
  rw [List.dropWhile_append_of_pos hl]
  cases t with
  | nil => rfl
  | cons c t => exact List.dropWhile_cons_of_neg (by simp [ht c rfl])

/-- What is stripped off a text with visible ends is what stands around it. -/
theorem strip_blanks {r : List Char} (hl : ∀ c ∈ l, blank c = true)
    (hr : ∀ c ∈ r, blank c = true) (hhead : ∀ c ∈ t.head?, blank c = false)
    (hlast : ∀ c ∈ t.getLast?, blank c = false) : strip blank (l ++ (t ++ r)) = t := by
  cases t with
  | nil =>
    rw [List.nil_append, strip_eq_nil]
    exact fun c hc => (List.mem_append.mp hc).elim (hl c) (hr c)
  | cons c t =>
    have hright : ((c :: t) ++ r).rdropWhile blank = c :: t := by
      have hreverse : ∀ d ∈ (c :: t).reverse.head?, blank d = false := by
        rwa [List.head?_reverse]
      rw [List.rdropWhile, List.reverse_append,
        dropWhile_blanks (fun d hd => hr d (List.mem_reverse.mp hd)) hreverse,
        List.reverse_reverse]
    rw [strip, dropWhile_blanks hl (by simpa using hhead c rfl), hright]

/-- A text with visible ends is stripped of nothing. -/
theorem strip_self (hhead : ∀ c ∈ t.head?, blank c = false)
    (hlast : ∀ c ∈ t.getLast?, blank c = false) : strip blank t = t := by
  have h : strip blank ([] ++ (t ++ [])) = t := strip_blanks nofun nofun hhead hlast
  rwa [List.nil_append, List.append_nil] at h

theorem head?_strip : ∀ c ∈ (strip blank t).head?, blank c = false := by
  intro c hc
  obtain ⟨r, hr⟩ := List.rdropWhile_prefix blank (t.dropWhile blank)
  have hhead : (t.dropWhile blank).head? = some c := by
    rw [← hr, List.head?_append]
    exact Option.or_eq_some_iff.mpr (Or.inl hc)
  have hnot := List.head?_dropWhile_not blank t
  rwa [hhead] at hnot

theorem getLast?_strip : ∀ c ∈ (strip blank t).getLast?, blank c = false := by
  intro c hc
  rw [strip, List.rdropWhile, List.getLast?_reverse] at hc
  have hnot := List.head?_dropWhile_not blank (t.dropWhile blank).reverse
  rwa [hc] at hnot

/-- A text is what is left of it, with blanks around. -/
theorem exists_strip (blank : Char → Bool) (t : List Char) : ∃ l r, t = l ++ (strip blank t ++ r) ∧
    (∀ c ∈ l, blank c = true) ∧ ∀ c ∈ r, blank c = true := by
  have hright : t.dropWhile blank = strip blank t ++ (t.dropWhile blank).rtakeWhile blank :=
    List.rdropWhile_append_rtakeWhile.symm
  refine ⟨t.takeWhile blank, (t.dropWhile blank).rtakeWhile blank, ?_,
    fun _ => List.mem_takeWhile_imp, fun c hc => List.mem_rtakeWhile_imp hc⟩
  rw [← hright, List.takeWhile_append_dropWhile]

theorem strip_strip : strip blank (strip blank t) = strip blank t :=
  strip_self head?_strip getLast?_strip

/-- Stripping takes away blanks only. -/
theorem filter_strip (blank : Char → Bool) (t : List Char) :
    (strip blank t).filter (fun c => !blank c) = t.filter fun c => !blank c := by
  have hdrop : ∀ l : List Char, (l.dropWhile blank).filter (fun c => !blank c) =
      l.filter fun c => !blank c := by
    intro l
    induction l with
    | nil => rfl
    | cons c l ih =>
      cases hc : blank c with
      | true => rw [List.dropWhile_cons_of_pos hc, ih, List.filter_cons_of_neg (by simp [hc])]
      | false => rw [List.dropWhile_cons_of_neg (by simp [hc])]
  rw [strip, List.rdropWhile, List.filter_reverse, hdrop, ← List.filter_reverse,
    List.reverse_reverse, hdrop]

/-! ### Visible lines -/

def visibleLines (breaks blank : Char → Bool) (t : List Char) : List (List Char) :=
  (splitLines breaks t).filter fun l => strip blank l ≠ []

theorem addChar_append (c : Char) {ls' : List (List Char)} (hne : ls ≠ []) :
    addChar c (ls ++ ls') = addChar c ls ++ ls' := by
  cases ls with
  | nil => exact absurd rfl hne
  | cons l ls => rfl

theorem linesFrom_ne_nil (hne : t ≠ []) : linesFrom breaks false t ≠ [] := by
  cases t with
  | nil => exact absurd rfl hne
  | cons a t =>
    rw [linesFrom, if_neg (by simp)]
    split_ifs
    · exact List.cons_ne_nil _ _
    · cases linesFrom breaks false t <;> exact List.cons_ne_nil _ _

theorem linesFrom_append_break (hc : breaks c = true) (afterReturn : Bool) :
    linesFrom breaks afterReturn (l ++ c :: t) =
      linesFrom breaks afterReturn (l ++ [c]) ++ linesFrom breaks (c == '\r') t := by
  induction l generalizing afterReturn with
  | nil =>
    rw [List.nil_append, List.nil_append, linesFrom, linesFrom]
    split_ifs with hfeed
    · have hcr : (c == '\r') = false := by
        rw [eq_of_beq (Bool.and_eq_true_iff.mp hfeed).2]
        decide
      rw [hcr]
      rfl
    · rfl
  | cons a l ih =>
    rw [List.cons_append, List.cons_append, linesFrom, linesFrom]
    split_ifs
    · exact ih false
    · rw [ih, List.cons_append]
    · rw [ih, addChar_append a (linesFrom_ne_nil (by simp))]

theorem linesFrom_concat_break (hc : breaks c = true) (afterReturn : Bool) :
    linesFrom breaks afterReturn (l ++ [c]) = linesFrom breaks afterReturn l ∨
      linesFrom breaks afterReturn (l ++ [c]) = linesFrom breaks afterReturn l ++ [[]] := by
  induction l generalizing afterReturn with
  | nil =>
    rw [List.nil_append, linesFrom, linesFrom]
    split_ifs
    · exact .inl rfl
    · exact .inr rfl
  | cons a l ih =>
    rw [List.cons_append, linesFrom, linesFrom]
    split_ifs
    · exact ih false
    · exact (ih (a == '\r')).imp (congrArg _) (congrArg _)
    · obtain h | h := ih false
      · exact .inl (by rw [h])
      · rw [h]
        cases hnil : linesFrom breaks false l with
        | nil => exact .inl rfl
        | cons l' ls => exact .inr rfl

theorem visible_afterReturn (hfeed : breaks '\n' = true) (afterReturn : Bool) :
    (linesFrom breaks afterReturn t).filter (fun l => strip blank l ≠ []) =
      visibleLines breaks blank t := by
  cases t with
  | nil => rfl
  | cons a t =>
    rw [visibleLines, splitLines, linesFrom, linesFrom]
    by_cases ha : a = '\n'
    · have hnil : strip blank [] = [] := rfl
      subst ha
      cases afterReturn <;> simp [hfeed, hnil]
    · simp [ha]

/-- Visible lines are those before a break and those after it. -/
theorem visibleLines_append (hfeed : breaks '\n' = true) (hc : breaks c = true) :
    visibleLines breaks blank (l ++ c :: t) =
      visibleLines breaks blank l ++ visibleLines breaks blank t := by
  have hnil : strip blank [] = [] := rfl
  have hfirst : (linesFrom breaks false (l ++ [c])).filter (fun l => strip blank l ≠ []) =
      visibleLines breaks blank l := by
    obtain h | h := linesFrom_concat_break (l := l) hc false
    · rw [h]
      rfl
    · rw [h, List.filter_append]
      simp [hnil, visibleLines, splitLines]
  rw [visibleLines, splitLines, linesFrom_append_break hc, List.filter_append, hfirst,
    visible_afterReturn hfeed]

theorem visibleLines_nil : visibleLines breaks blank [] = [] := rfl

/-- Breaks at the ends of a text are no lines. -/
theorem visibleLines_strip {ends : Char → Bool} (hfeed : breaks '\n' = true)
    (hends : ∀ c, ends c = true → breaks c = true) (t : List Char) :
    visibleLines breaks blank (strip ends t) = visibleLines breaks blank t := by
  have hleft : visibleLines breaks blank (t.dropWhile ends) = visibleLines breaks blank t := by
    induction t with
    | nil => rfl
    | cons c t ih =>
      cases hc : ends c with
      | true =>
        have hcons : visibleLines breaks blank ([] ++ c :: t) = _ :=
          visibleLines_append hfeed (hends c hc)
        rw [List.dropWhile_cons_of_pos hc, ih]
        exact hcons.symm
      | false => rw [List.dropWhile_cons_of_neg (by simp [hc])]
  have hright : ∀ u : List Char,
      visibleLines breaks blank (u.rdropWhile ends) = visibleLines breaks blank u := by
    intro u
    induction u using List.reverseRecOn with
    | nil => rfl
    | append_singleton u c ih =>
      cases hc : ends c with
      | true =>
        rw [List.rdropWhile_concat_pos _ _ _ hc, ih, visibleLines_append hfeed (hends c hc),
          visibleLines_nil, List.append_nil]
      | false => rw [List.rdropWhile_concat_neg _ _ _ (by simp [hc])]
  rw [strip, hright, hleft]

/-- A blank text has no visible lines. -/
theorem visibleLines_of_blank (h : strip blank t = []) : visibleLines breaks blank t = [] := by
  refine List.filter_eq_nil_iff.mpr fun l hl => ?_
  have hline : strip blank l = [] :=
    strip_eq_nil.mpr fun c hc => strip_eq_nil.mp h c (mem_splitLines hl hc).2
  simp [hline]

/-- The first line of a text that begins with a visible character. -/
theorem visibleLines_head (hbreak : breaks c = false) (hblank : blank c = false) :
    ∃ l ls, visibleLines breaks blank (c :: t) = l :: ls ∧ (strip blank l).head? = some c := by
  obtain ⟨l, ls, hlines⟩ : ∃ l ls, splitLines breaks (c :: t) = (c :: l) :: ls := by
    rw [splitLines, linesFrom, if_neg (by simp), if_neg (by simp [hbreak])]
    cases linesFrom breaks false t with
    | nil => exact ⟨[], [], rfl⟩
    | cons l ls => exact ⟨l, ls, rfl⟩
  obtain ⟨l', hl'⟩ := exists_strip_cons (t := l) hblank
  rw [visibleLines, hlines, List.filter_cons_of_pos (by simp [hl'])]
  exact ⟨c :: l, _, rfl, by rw [hl']; rfl⟩

/-! ### Line ends -/

def crlf (t : List Char) : List Char := t.flatMap fun c => if c = '\n' then ['\r', '\n'] else [c]

theorem crlf_cons_feed : crlf ('\n' :: t) = '\r' :: '\n' :: crlf t := rfl

theorem crlf_cons (h : c ≠ '\n') : crlf (c :: t) = c :: crlf t := by
  rw [crlf, List.flatMap_cons, if_neg h]
  rfl

/-- The lines of a text are the same with either line ends. -/
theorem visibleLines_crlf (hfeed : breaks '\n' = true) (hreturn : breaks '\r' = true)
    (t : List Char) : visibleLines breaks blank (crlf t) = visibleLines breaks blank t := by
  have hlead : ∀ l : List Char,
      visibleLines breaks blank (l ++ crlf t) = visibleLines breaks blank (l ++ t) := by
    induction t with
    | nil => exact fun l => rfl
    | cons c t ih =>
      intro l
      by_cases hc : c = '\n'
      · have hempty : visibleLines breaks blank ('\n' :: crlf t) = [] ++ _ :=
          visibleLines_append (l := []) hfeed hfeed
        have hrest := ih []
        rw [List.nil_append, List.nil_append] at hrest
        rw [hc, crlf_cons_feed, visibleLines_append hfeed hreturn, visibleLines_append hfeed hfeed,
          hempty, List.nil_append, hrest]
      · have hrest := ih (l ++ [c])
        rw [List.append_assoc, List.append_assoc] at hrest
        rw [crlf_cons hc]
        exact hrest
  exact hlead []

theorem crlf_head (h : (crlf t).head? = some c) : c ≠ '\n' := by
  cases t with
  | nil => cases h
  | cons d t =>
    by_cases hd : d = '\n'
    · rw [hd, crlf_cons_feed] at h
      obtain rfl := Option.some.inj h
      decide
    · rw [crlf_cons hd] at h
      obtain rfl := Option.some.inj h
      exact hd

/-- No line feed follows another. -/
theorem crlf_ne (l l' : List Char) : crlf t ≠ l ++ '\n' :: '\n' :: l' := by
  induction t generalizing l with
  | nil =>
    intro h
    exact absurd h.symm (by simp [crlf])
  | cons c t ih =>
    by_cases hc : c = '\n'
    · rw [hc, crlf_cons_feed]
      intro h
      obtain _ | ⟨a, _ | ⟨b, l⟩⟩ := l
      · exact absurd (List.cons.inj h).1 (by decide)
      · obtain ⟨-, hfeed⟩ := List.cons.inj (List.cons.inj h).2
        exact crlf_head (c := '\n') (by rw [hfeed]; rfl) rfl
      · exact ih l (List.cons.inj (List.cons.inj h).2).2
    · rw [crlf_cons hc]
      intro h
      cases l with
      | nil => exact hc (List.cons.inj h).1
      | cons a l => exact ih l (List.cons.inj h).2

theorem mem_crlf (h : c ∈ crlf t) : c = '\r' ∨ c ∈ t := by
  obtain ⟨d, hd, hc⟩ := List.mem_flatMap.mp h
  split_ifs at hc with hfeed
  · obtain rfl | rfl := List.mem_pair.mp hc
    · exact .inl rfl
    · exact .inr (hfeed ▸ hd)
  · obtain rfl := List.mem_singleton.mp hc
    exact .inr hd

theorem mem_crlf_of_mem (h : c ∈ t) : c ∈ crlf t := by
  refine List.mem_flatMap.mpr ⟨c, h, ?_⟩
  split_ifs with hfeed
  · rw [hfeed]
    exact List.mem_cons_of_mem _ List.mem_cons_self
  · exact List.mem_singleton_self c

/-- A visible character is not stripped. -/
theorem mem_strip_iff (hc : blank c = false) : c ∈ strip blank t ↔ c ∈ t := by
  have hfilter := filter_strip blank t
  have hmem : ∀ l : List Char, c ∈ l.filter (fun c => !blank c) ↔ c ∈ l := by
    intro l
    rw [List.mem_filter, hc]
    exact and_iff_left rfl
  rw [← hmem (strip blank t), hfilter, hmem]

/-! ### Quoted values -/

/-- A backslash before every backslash and every quote. -/
def escape (slash quote : Char) (t : List Char) : List Char :=
  (t.flatMap fun c => if c = slash then [slash, slash] else [c]).flatMap fun c =>
    if c = quote then [slash, quote] else [c]

/-- Escaped quotes first, then escaped backslashes. -/
def unescape (slash quote : Char) (t : List Char) : List Char :=
  replacePair slash slash slash (replacePair slash quote quote t)

/-- A value up to its closing quote, as it is written, and what follows the quote. -/
def readQuoted (slash quote : Char) : List Char → Option (List Char × List Char)
  | [] => none
  | [c] => if c = quote then some ([], []) else none
  | c :: d :: t =>
    if c = quote then some ([], d :: t)
    else if c = slash then
      if d = slash ∨ d = quote then
        (readQuoted slash quote t).map fun r => (c :: d :: r.1, r.2)
      else none
    else (readQuoted slash quote (d :: t)).map fun r => (c :: r.1, r.2)

variable {slash quote : Char} {v raw rest : List Char}

theorem escape_cons (hne : slash ≠ quote) : escape slash quote (c :: v) =
    (if c = slash then [slash, slash] else if c = quote then [slash, quote] else [c]) ++
      escape slash quote v := by
  unfold escape
  by_cases hs : c = slash
  · simp [hs, hne]
  · by_cases hq : c = quote <;> simp [hs, hq, Ne.symm hne]

theorem escape_eq_cons (hne : slash ≠ quote) {a : Char} {w : List Char}
    (h : escape slash quote v = a :: w) : a ≠ quote := by
  cases v with
  | nil => cases h
  | cons c v =>
    rw [escape_cons hne] at h
    split_ifs at h with hs hq
    · obtain ⟨rfl, -⟩ := List.cons.inj h
      exact hne
    · obtain ⟨rfl, -⟩ := List.cons.inj h
      exact hne
    · obtain ⟨rfl, -⟩ := List.cons.inj h
      exact hq

theorem replacePair_cons_of_ne {a b r : Char} (h : ¬ (c = a ∧ ∃ w, t = b :: w)) :
    replacePair a b r (c :: t) = c :: replacePair a b r t := by
  cases t with
  | nil => rfl
  | cons e t =>
    rw [replacePair, if_neg]
    intro hpair
    exact h ⟨hpair.1, t, by rw [hpair.2]⟩

theorem replacePair_escape (hne : slash ≠ quote) :
    replacePair slash quote quote (escape slash quote v) =
      v.flatMap fun c => if c = slash then [slash, slash] else [c] := by
  induction v with
  | nil => rfl
  | cons c v ih =>
    have hhead : ¬ (slash = slash ∧ ∃ w, escape slash quote v = quote :: w) := by
      rintro ⟨-, w, hw⟩
      exact escape_eq_cons hne hw rfl
    rw [escape_cons hne, List.flatMap_cons]
    split_ifs with hs hq
    · have hpair : ¬ (slash = slash ∧ slash = quote) := fun h => hne h.2
      rw [List.cons_append, List.singleton_append, replacePair, if_neg hpair,
        replacePair_cons_of_ne hhead, ih]
      rfl
    · rw [List.cons_append, List.singleton_append, replacePair, if_pos ⟨rfl, rfl⟩, ih, hq]
      rfl
    · have hc : ¬ (c = slash ∧ ∃ w, escape slash quote v = quote :: w) := fun h => hs h.1
      rw [List.singleton_append, replacePair_cons_of_ne hc, ih]
      rfl

theorem replacePair_double :
    replacePair slash slash slash
      (v.flatMap fun c => if c = slash then [slash, slash] else [c]) = v := by
  induction v with
  | nil => rfl
  | cons c v ih =>
    rw [List.flatMap_cons]
    split_ifs with hs
    · rw [List.cons_append, List.singleton_append, replacePair, if_pos ⟨rfl, rfl⟩, ih, hs]
    · rw [List.singleton_append, replacePair_cons_of_ne fun h => hs h.1, ih]

/-- A value is read back from its written form. -/
theorem unescape_escape (hne : slash ≠ quote) :
    unescape slash quote (escape slash quote v) = v := by
  rw [unescape, replacePair_escape hne, replacePair_double]

theorem readQuoted_escape (hne : slash ≠ quote) :
    readQuoted slash quote (escape slash quote v ++ quote :: rest) =
      some (escape slash quote v, rest) := by
  induction v with
  | nil => cases rest <;> simp [escape, readQuoted]
  | cons c v ih =>
    rw [escape_cons hne]
    split_ifs with hs hq
    · simp [readQuoted, hne, ih]
    · simp [readQuoted, hne, ih]
    · cases htail : escape slash quote v ++ quote :: rest with
      | nil => simp at htail
      | cons d t =>
        rw [htail] at ih
        simp [readQuoted, htail, hs, hq, ih]

/-- What stands before the closing quote is the written form of a value. -/
theorem exists_escape_of_readQuoted (hne : slash ≠ quote)
    (h : readQuoted slash quote t = some (raw, rest)) :
    ∃ v, raw = escape slash quote v ∧ t = raw ++ quote :: rest := by
  fun_induction readQuoted slash quote t generalizing raw rest with
  | case1 => cases h
  | case2 =>
    obtain ⟨rfl, rfl⟩ : [] = raw ∧ [] = rest := by simpa using h
    exact ⟨[], rfl, rfl⟩
  | case3 a ha => cases h
  | case4 b t =>
    obtain ⟨rfl, rfl⟩ : [] = raw ∧ b :: t = rest := by simpa using h
    exact ⟨[], rfl, rfl⟩
  | case5 b t hb hquote ih =>
    obtain ⟨⟨raw', rest'⟩, hr, heq⟩ := Option.map_eq_some_iff.mp h
    obtain ⟨rfl, rfl⟩ : slash :: b :: raw' = raw ∧ rest' = rest := by simpa using heq
    obtain ⟨v, rfl, rfl⟩ := ih hr
    refine ⟨b :: v, ?_, rfl⟩
    rw [escape_cons hne]
    obtain rfl | rfl := hb
    · rw [if_pos rfl]
      rfl
    · rw [if_neg (Ne.symm hne), if_pos rfl]
      rfl
  | case6 => cases h
  | case7 a b t hquote hslash ih =>
    obtain ⟨⟨raw', rest'⟩, hr, heq⟩ := Option.map_eq_some_iff.mp h
    obtain ⟨rfl, rfl⟩ : a :: raw' = raw ∧ rest' = rest := by simpa using heq
    obtain ⟨v, rfl, htext⟩ := ih hr
    refine ⟨a :: v, ?_, by rw [htext]; rfl⟩
    rw [escape_cons hne, if_neg hslash, if_neg hquote]
    rfl

/-- Every backslash of a value is written twice, and every quote with one before it. -/
theorem count_escape (hne : slash ≠ quote) :
    (escape slash quote v).count slash = 2 * v.count slash + v.count quote := by
  induction v with
  | nil => rfl
  | cons c v ih =>
    rw [escape_cons hne, List.count_append, ih]
    split_ifs with hs hq
    · rw [hs, List.count_cons_self, List.count_cons_of_ne hne]
      simp
      omega
    · rw [hq, List.count_cons_of_ne (Ne.symm hne), List.count_cons_self, List.count_cons_self,
        List.count_singleton, beq_eq_false_iff_ne.mpr (Ne.symm hne)]
      simp
      omega
    · rw [List.count_cons_of_ne hs, List.count_cons_of_ne hs, List.count_cons_of_ne hq,
        List.count_nil, zero_add]

/-- A value that needs no backslash is written as it is. -/
theorem escape_eq_self (hne : slash ≠ quote) (hs : slash ∉ v) (hq : quote ∉ v) :
    escape slash quote v = v := by
  induction v with
  | nil => rfl
  | cons c v ih =>
    obtain ⟨hcs, hs⟩ := List.ne_and_not_mem_of_not_mem_cons hs
    obtain ⟨hcq, hq⟩ := List.ne_and_not_mem_of_not_mem_cons hq
    rw [escape_cons hne, if_neg (Ne.symm hcs), if_neg (Ne.symm hcq), ih hs hq]
    rfl

theorem mem_replacePair {a b r : Char} (h : c ∈ replacePair a b r t) : c = r ∨ c ∈ t := by
  fun_induction replacePair a b r t with
  | case1 => cases h
  | case2 d => exact .inr h
  | case3 x y t hpair ih =>
    rcases List.mem_cons.mp h with rfl | h
    · exact .inl rfl
    · exact (ih h).imp_right fun hm => List.mem_cons_of_mem _ (List.mem_cons_of_mem _ hm)
  | case4 x y t hpair ih =>
    rcases List.mem_cons.mp h with rfl | h
    · exact .inr List.mem_cons_self
    · exact (ih h).imp_right (List.mem_cons_of_mem _)

/-- A value read back holds characters of its written form, quotes and backslashes. -/
theorem mem_unescape (h : c ∈ unescape slash quote raw) : c = slash ∨ c = quote ∨ c ∈ raw :=
  (mem_replacePair h).imp_right mem_replacePair

theorem mem_escape (h : c ∈ escape slash quote v) : c = slash ∨ c = quote ∨ c ∈ v := by
  obtain ⟨d, hd, hc⟩ := List.mem_flatMap.mp h
  obtain ⟨d', hd', hd⟩ := List.mem_flatMap.mp hd
  have hd : d = slash ∨ d = d' := by
    split_ifs at hd with hs
    · exact .inl (by simpa using hd)
    · exact .inr (by simpa using hd)
  have hc : c = slash ∨ c = quote ∨ c = d := by
    split_ifs at hc with hq
    · exact (List.mem_pair.mp hc).imp_right .inl
    · exact .inr (.inr (by simpa using hc))
  rcases hc with rfl | rfl | rfl
  · exact .inl rfl
  · exact .inr (.inl rfl)
  · rcases hd with rfl | rfl
    · exact .inl rfl
    · exact .inr (.inr hd')

theorem mem_of_readQuoted (h : readQuoted slash quote t = some (raw, rest)) (hc : c ∈ raw) :
    c ∈ t := by
  fun_induction readQuoted slash quote t generalizing raw rest with
  | case1 => cases h
  | case2 =>
    obtain ⟨rfl, -⟩ : [] = raw ∧ [] = rest := by simpa using h
    cases hc
  | case3 a ha => cases h
  | case4 b t =>
    obtain ⟨rfl, -⟩ : [] = raw ∧ b :: t = rest := by simpa using h
    cases hc
  | case5 b t hb hquote ih =>
    obtain ⟨⟨raw', rest'⟩, hr, heq⟩ := Option.map_eq_some_iff.mp h
    obtain ⟨rfl, rfl⟩ : slash :: b :: raw' = raw ∧ rest' = rest := by simpa using heq
    rcases List.mem_cons.mp hc with rfl | hc
    · exact List.mem_cons_self
    · rcases List.mem_cons.mp hc with rfl | hc
      · exact List.mem_cons_of_mem _ List.mem_cons_self
      · exact List.mem_cons_of_mem _ (List.mem_cons_of_mem _ (ih hr hc))
  | case6 => cases h
  | case7 a b t hquote hslash ih =>
    obtain ⟨⟨raw', rest'⟩, hr, heq⟩ := Option.map_eq_some_iff.mp h
    obtain ⟨rfl, rfl⟩ : a :: raw' = raw ∧ rest' = rest := by simpa using heq
    rcases List.mem_cons.mp hc with rfl | hc
    · exact List.mem_cons_self
    · exact List.mem_cons_of_mem _ (ih hr hc)

end LineText
end OpenChess
