import Mathlib.Data.List.TakeWhile
import OpenChess.Ingest.Movetext

/-!
# Annotations in the movetext

An annotation put in after a token of the main line is skipped whole: a brace
comment, a numbered glyph, or a variation whose parentheses are balanced. The
parentheses of a variation are counted everywhere in it, also between braces,
since the scanner looks for no comment inside a variation.
-/

namespace OpenChess
namespace Pgn

/-! ### The loop body reads no further than it consumes -/

theorem afterFirst_length {c : Char} {t rest : Text} (h : afterFirst c t = some rest) :
    rest.length < t.length := by
  induction t with
  | nil => simp [afterFirst] at h
  | cons a t ih =>
    rw [afterFirst] at h
    rw [List.length_cons]
    split_ifs at h with ha
    · obtain rfl : t = rest := by simpa using h
      omega
    · have := ih h
      omega

theorem afterFirst_congr {c b : Char} {t u post : Text}
    (h : afterFirst c (t ++ post) = some (b :: u ++ post)) (post' : Text) :
    afterFirst c (t ++ post') = some (b :: u ++ post') := by
  induction t with
  | nil =>
    have hlt := afterFirst_length h
    simp only [List.nil_append, List.length_append] at hlt
    omega
  | cons a t ih =>
    simp only [List.cons_append, afterFirst] at h ih ⊢
    split_ifs at h ⊢ with ha
    · have hcut : t ++ post = b :: u ++ post := by simpa using h
      rw [List.append_cancel_right hcut]
      rfl
    · exact ih h

theorem dropWhile_congr {p : Char → Bool} {b : Char} {t u post : Text}
    (h : (t ++ post).dropWhile p = b :: u ++ post) (post' : Text) :
    (t ++ post').dropWhile p = b :: u ++ post' ∧
      (t ++ post').takeWhile p = (t ++ post).takeWhile p := by
  induction t with
  | nil =>
    have hle := (List.dropWhile_suffix p (l := post)).length_le
    rw [List.nil_append] at h
    rw [h] at hle
    simp only [List.length_append, List.length_cons] at hle
    omega
  | cons a t ih =>
    rw [List.cons_append, List.dropWhile_cons] at h
    simp only [List.cons_append, List.dropWhile_cons, List.takeWhile_cons]
    split_ifs at h ⊢ with ha
    · exact ⟨(ih h).1, by rw [(ih h).2]⟩
    · have hcut : a :: t = b :: u := List.append_cancel_right h
      rw [← List.cons_append, ← List.cons_append, hcut]
      exact ⟨rfl, rfl⟩

theorem movetextScanner_local : movetextScanner.Local := by
  intro depth ch t out d b u post h post'
  change stripStep depth ch (t ++ post) = _ at h
  change stripStep depth ch (t ++ post') = _
  rcases stripStep_cases h with ⟨rfl, hrest, hstep⟩ | ⟨rfl, rfl, hrest, hstep⟩ |
    ⟨rfl, rfl, hrest, hstep⟩ | ⟨rfl, rfl, hdigits, hrest, hstep⟩ | ⟨rfl, rfl, rfl, hrest, hstep⟩
  · rw [hstep, ← List.append_cancel_right hrest]
  · exact hstep _ _ (afterFirst_congr hrest post')
  · cases hc : afterFirst '\n' (t ++ post) with
    | none => simp [hc] at hrest
    | some rest =>
      rw [hc, Option.getD_some] at hrest
      rw [hstep, afterFirst_congr (hrest ▸ hc) post', Option.getD_some]
  · obtain ⟨hdrop, htake⟩ := dropWhile_congr hrest post'
    rw [hstep _ (htake ▸ hdigits), hdrop]
  · obtain ⟨hdrop, htake⟩ := dropWhile_congr hrest post'
    rw [hstep, hdrop, htake]

theorem runs_of_stripStep {depth d : ℕ} {ch : Char} {t rest : Text} {out : Option Text}
    (h : stripStep depth ch t = .ok (out, d, rest)) :
    movetextScanner.Runs depth (ch :: t) out.toList d rest :=
  Scanner.Runs.single h

/-! ### Tokens of the main line -/

/-- The text is cut where the loop has just appended `tok` to `before`. -/
def AfterToken (before : List Text) (tok pre post : Text) : Prop :=
  ∃ ch t, movetextScanner.Runs 0 (pre ++ post) before 0 (ch :: t) ∧
    stripStep 0 ch t = .ok (some tok, 0, post)

theorem token_of_stripStep {depth d : ℕ} {ch : Char} {t tok rest : Text}
    (h : stripStep depth ch t = .ok (some tok, d, rest)) :
    depth = 0 ∧ d = 0 ∧ mainline (ch :: t.takeWhile inToken) = some tok ∧
      t.dropWhile inToken = rest ∧
      ∀ w, stripStep 0 ch w =
        .ok (mainline (ch :: w.takeWhile inToken), 0, w.dropWhile inToken) := by
  rcases stripStep_cases h with ⟨hout, -⟩ | ⟨hout, -⟩ | ⟨hout, -⟩ | ⟨hout, -⟩ |
    ⟨rfl, rfl, hout, hrest, hstep⟩
  · cases hout
  · cases hout
  · cases hout
  · cases hout
  · exact ⟨rfl, rfl, hout, hrest, hstep⟩

theorem exists_afterToken {text tok : Text} {before after : List Text}
    (h : stripMovetext text = .ok (before ++ tok :: after)) :
    ∃ pre post, text = pre ++ post ∧ AfterToken before tok pre post ∧
      stripMovetext post = .ok after := by
  obtain ⟨depth, ch, t, d, post, hrun, hstep, hafter⟩ := Scanner.exists_pass h
  obtain ⟨rfl, rfl, -⟩ := token_of_stripStep hstep
  obtain ⟨pre, hpre⟩ := (stripStep_suffix hstep).trans
    ((List.suffix_cons ch t).trans hrun.suffix)
  exact ⟨pre, post, hpre.symm, ⟨ch, t, hpre ▸ hrun, hstep⟩, hafter⟩

/-! ### Annotations -/

/-- Parentheses open at the end of a text, none if one is closed too early. -/
def level : ℕ → Text → Option ℕ
  | d, [] => some d
  | d, c :: t =>
    if c = '(' then level (d + 1) t
    else if c = ')' then if d = 0 then none else level (d - 1) t
    else level d t

/-- What may be put in: a brace comment, a numbered glyph, and a variation in
which every parenthesis has its partner. -/
inductive Annotation : Text → Prop
  | comment {body : Text} (hbody : '}' ∉ body) : Annotation ('{' :: body ++ ['}'])
  | nag {digits : Text} (hne : digits ≠ []) (hdigits : ∀ c ∈ digits, isDigit c = true) :
      Annotation ('$' :: digits)
  | variation {body : Text} (hbody : level 0 body = some 0) : Annotation ('(' :: body ++ [')'])

theorem stripStep_inside (d : ℕ) (ch : Char) (t : Text) :
    stripStep (d + 1) ch t =
      .ok (none, if ch = '(' then d + 2 else if ch = ')' then d else d + 1, t) := by
  unfold stripStep
  by_cases ho : ch = '('
  · simp [ho]
  · by_cases hc : ch = ')'
    · simp [hc]
    · by_cases hb : ch = '{' <;> simp [ho, hc, hb]

theorem runs_inside {d d' : ℕ} {body : Text} (h : level d body = some d') (t : Text) :
    movetextScanner.Runs (d + 1) (body ++ t) [] (d' + 1) t := by
  induction body generalizing d with
  | nil =>
    obtain rfl : d = d' := by simpa [level] using h
    exact .refl _ _
  | cons c body ih =>
    have hstep := stripStep_inside d c (body ++ t)
    rw [level] at h
    split_ifs at h hstep with ho hc hd
    · exact .step hstep (ih h)
    · obtain ⟨k, rfl⟩ := Nat.exists_eq_succ_of_ne_zero hd
      exact .step hstep (ih h)
    · exact .step hstep (ih h)

theorem stripStep_space (t : Text) : stripStep 0 ' ' t = .ok (none, 0, t) := by
  have hspace : isSpace ' ' = true := by decide
  simp [stripStep, hspace]

/-- An annotation before a space is skipped. -/
theorem Annotation.runs {v : Text} (h : Annotation v) (t : Text) :
    movetextScanner.Runs 0 (v ++ ' ' :: t) [] 0 (' ' :: t) := by
  cases h with
  | @comment body hbody =>
    have hstep : stripStep 0 '{' (body ++ '}' :: ' ' :: t) = .ok (none, 0, ' ' :: t) := by
      simp [stripStep, afterFirst_append hbody]
    simpa using runs_of_stripStep hstep
  | @nag digits hne hdigits =>
    have hblank : isDigit ' ' = false := by decide
    have htake : (digits ++ ' ' :: t).takeWhile isDigit = digits := by
      rw [List.takeWhile_append_of_pos hdigits, List.takeWhile_cons, hblank]
      simp
    have hdrop : (digits ++ ' ' :: t).dropWhile isDigit = ' ' :: t := by
      rw [List.dropWhile_append_of_pos hdigits, List.dropWhile_cons, hblank]
      simp
    have hstep : stripStep 0 '$' (digits ++ ' ' :: t) = .ok (none, 0, ' ' :: t) := by
      simp [stripStep, htake, hdrop, hne]
    exact runs_of_stripStep hstep
  | @variation body hbody =>
    have hopen : stripStep 0 '(' (body ++ ')' :: ' ' :: t) =
        .ok (none, 1, body ++ ')' :: ' ' :: t) := by simp [stripStep]
    have hclose : stripStep 1 ')' (' ' :: t) = .ok (none, 0, ' ' :: t) := by simp [stripStep]
    have hrun := (runs_of_stripStep hopen).trans
      ((runs_inside hbody _).trans (runs_of_stripStep hclose))
    simpa using hrun

/-- Putting an annotation in after a token of the main line changes nothing. -/
theorem strip_annotation {before : List Text} {tok pre post v : Text}
    (htok : AfterToken before tok pre post) (hv : Annotation v) :
    stripMovetext (pre ++ (' ' :: (v ++ [' ']) ++ post)) = stripMovetext (pre ++ post) := by
  obtain ⟨ch, t, hrun, hstep⟩ := htok
  obtain ⟨-, -, hmain, hpost, hany⟩ := token_of_stripStep hstep
  have ht : t = t.takeWhile inToken ++ post := by rw [← hpost, List.takeWhile_append_dropWhile]
  rw [ht] at hrun hstep
  refine Scanner.scan_insert movetextScanner_local hrun hstep ?_ ?_
  · have hall : ∀ c ∈ t.takeWhile inToken, inToken c = true := fun c => List.mem_takeWhile_imp
    have hblank : inToken ' ' = false := by decide
    change stripStep 0 ch _ = _
    rw [hany, List.takeWhile_append_of_pos hall, List.dropWhile_append_of_pos hall]
    simp [hblank, hmain]
  · have hskip := (hv.runs post).trans (runs_of_stripStep (stripStep_space post))
    simpa using (runs_of_stripStep (stripStep_space (v ++ ' ' :: post))).trans hskip

theorem strip_annotation_sample :
    stripMovetext ("1.e4".toList ++
        (' ' :: (('(' :: "1. c4 {(good)} c5 (1. d4)".toList ++ [')']) ++ [' ']) ++
          " e5 *".toList)) =
      stripMovetext ("1.e4".toList ++ " e5 *".toList) := by
  have htok : AfterToken [] "e4".toList "1.e4".toList " e5 *".toList :=
    ⟨'1', ".e4 e5 *".toList, .refl _ _, by decide⟩
  exact strip_annotation htok (.variation (by decide))

/-- A text without its brace comments. -/
def outside : Bool → Text → Text
  | _, [] => []
  | true, c :: t => outside (c ≠ '}') t
  | false, c :: t => if c = '{' then outside true t else c :: outside false t

/-- A parenthesis in a comment of a variation ends the variation. -/
theorem variation_comment :
    AfterToken [] "e4".toList "e4".toList " *".toList ∧
      level 0 (outside false "{)}".toList) = some 0 ∧
      stripMovetext ("e4".toList ++ " *".toList) = .ok ["e4".toList, "*".toList] ∧
      stripMovetext ("e4".toList ++ (' ' :: ('(' :: "{)}".toList ++ [')'] ++ [' ']) ++
        " *".toList)) = .error .unbalancedCommentClose :=
  ⟨⟨'e', "4 *".toList, .refl _ _, by decide⟩, by decide, by decide +kernel, by decide +kernel⟩

end Pgn
end OpenChess
