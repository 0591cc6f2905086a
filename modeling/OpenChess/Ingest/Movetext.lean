import OpenChess.Chess.Notation
import OpenChess.Lib.Decimal
import OpenChess.Lib.Scanner

/-!
# Stripping the movetext

Model of `_strip_movetext` of `ingest/pgn.py`: comments, numbered glyphs,
variations and move numbers are left out and the tokens of the main line come
back in order. Inside a variation only parentheses count. A brace there is text
like any other, and so is a semicolon.
-/

namespace OpenChess
namespace Pgn

/-- The `MalformedPGN` refusals of the movetext scanner. -/
inductive MovetextError
  | unterminatedComment
  | unbalancedCommentClose
  | unbalancedVariationClose
  | bareNag
  | unrecognizedDelimiter
  | unbalancedVariationOpen
  deriving DecidableEq, Repr

def MovetextError.text : MovetextError → String
  | .unterminatedComment => "unterminated comment"
  | .unbalancedCommentClose => "unbalanced comment close"
  | .unbalancedVariationClose => "unbalanced variation close"
  | .bareNag => "bare $ without NAG number"
  | .unrecognizedDelimiter => "unrecognized movetext delimiter"
  | .unbalancedVariationOpen => "unbalanced variation open"

/-! ### Classes of characters -/

def inRanges (ranges : List (ℕ × ℕ)) (c : Char) : Bool :=
  ranges.any fun r => decide (r.1 ≤ c.toNat ∧ c.toNat ≤ r.2)

/-- `str.isspace` of one character, and the class `\s`. -/
def isSpace (c : Char) : Bool :=
  inRanges [(0x9, 0xd), (0x1c, 0x20), (0x85, 0x85), (0xa0, 0xa0), (0x1680, 0x1680),
    (0x2000, 0x200a), (0x2028, 0x2029), (0x202f, 0x202f), (0x205f, 0x205f), (0x3000, 0x3000)] c

/-- The class `\d`. -/
def isDecimal (c : Char) : Bool := (Decimal.digit? c).isSome

/-- `str.isdigit` of one character: decimal digits, and digits in a raised,
lowered or circled form. -/
def isDigit (c : Char) : Bool :=
  isDecimal c ||
    inRanges [(0xb2, 0xb3), (0xb9, 0xb9), (0x1369, 0x1371), (0x19da, 0x19da), (0x2070, 0x2070),
      (0x2074, 0x2079), (0x2080, 0x2089), (0x2460, 0x2468), (0x2474, 0x247c), (0x2488, 0x2490),
      (0x24ea, 0x24ea), (0x24f5, 0x24fd), (0x24ff, 0x24ff), (0x2776, 0x277e), (0x2780, 0x2788),
      (0x278a, 0x2792), (0x10a40, 0x10a43), (0x10e60, 0x10e68), (0x11052, 0x1105a),
      (0x1f100, 0x1f10a)] c

def inToken (c : Char) : Bool := !isSpace c && !("{}();()".toList.contains c)

/-! ### One pass of the loop -/

/-- What follows the first `c`, when there is one. -/
def afterFirst (c : Char) : Text → Option Text
  | [] => none
  | a :: t => if a = c then some t else afterFirst c t

/-- What follows `\d+\.` at the head of a token. -/
def afterNumber (tok : Text) : Option Text :=
  match tok.dropWhile isDecimal with
  | '.' :: rest => if tok.takeWhile isDecimal = [] then none else some rest
  | _ => none

/-- What a scanned token adds to the output: nothing for a move number, and the
rest of the token behind a number written up against it. -/
def mainline (tok : Text) : Option Text :=
  match afterNumber tok with
  | none => some tok
  | some [] => none
  | some ['.', '.'] => none
  | some ('.' :: '.' :: rest) => some rest
  | some rest => some rest

/-- The loop body of `_strip_movetext` on the character `ch` before `t`. -/
def stripStep (depth : ℕ) (ch : Char) (t : Text) :
    Except MovetextError (Option Text × ℕ × Text) :=
  if ch = '{' then
    if depth = 0 then
      match afterFirst '}' t with
      | none => .error .unterminatedComment
      | some rest => .ok (none, depth, rest)
    else .ok (none, depth, t)
  else if ch = '}' ∧ depth = 0 then .error .unbalancedCommentClose
  else if ch = ';' ∧ depth = 0 then .ok (none, depth, (afterFirst '\n' t).getD [])
  else if ch = '(' then .ok (none, depth + 1, t)
  else if ch = ')' then
    if depth = 0 then .error .unbalancedVariationClose else .ok (none, depth - 1, t)
  else if 0 < depth then .ok (none, depth, t)
  else if ch = '$' then
    if t.takeWhile isDigit = [] then .error .bareNag
    else .ok (none, depth, t.dropWhile isDigit)
  else if isSpace ch then .ok (none, depth, t)
  else if inToken ch then
    .ok (mainline (ch :: t.takeWhile inToken), depth, t.dropWhile inToken)
  else .error .unrecognizedDelimiter

theorem afterFirst_suffix (c : Char) (t : Text) : (afterFirst c t).getD [] <:+ t := by
  induction t with
  | nil => exact List.nil_suffix
  | cons a t ih =>
    rw [afterFirst]
    split_ifs with ha
    · exact List.suffix_cons a t
    · exact ih.trans (List.suffix_cons a t)

theorem afterFirst_append {c : Char} {body : Text} (h : c ∉ body) (t : Text) :
    afterFirst c (body ++ c :: t) = some t := by
  induction body with
  | nil => simp [afterFirst]
  | cons a body ih =>
    obtain ⟨hne, hbody⟩ : c ≠ a ∧ c ∉ body := by simpa using h
    rw [List.cons_append, afterFirst, if_neg hne.symm, ih hbody]

theorem afterFirst_eq_none {c : Char} {t : Text} (h : c ∉ t) : afterFirst c t = none := by
  induction t with
  | nil => rfl
  | cons a t ih =>
    obtain ⟨hne, ht⟩ : c ≠ a ∧ c ∉ t := by simpa using h
    rw [afterFirst, if_neg hne.symm, ih ht]

/-- What a pass can do: go on, drop a comment or a glyph, or take a token. Which of them
it is depends on the depth and the character alone. -/
theorem stripStep_cases {depth d : ℕ} {ch : Char} {t rest : Text} {out : Option Text}
    (h : stripStep depth ch t = .ok (out, d, rest)) :
    (out = none ∧ rest = t ∧ ∀ w, stripStep depth ch w = .ok (none, d, w)) ∨
    (out = none ∧ d = depth ∧ afterFirst '}' t = some rest ∧
      ∀ w r, afterFirst '}' w = some r → stripStep depth ch w = .ok (none, depth, r)) ∨
    (out = none ∧ d = depth ∧ (afterFirst '\n' t).getD [] = rest ∧
      ∀ w, stripStep depth ch w = .ok (none, depth, (afterFirst '\n' w).getD [])) ∨
    (out = none ∧ d = depth ∧ t.takeWhile isDigit ≠ [] ∧ t.dropWhile isDigit = rest ∧
      ∀ w, w.takeWhile isDigit ≠ [] →
        stripStep depth ch w = .ok (none, depth, w.dropWhile isDigit)) ∨
    (depth = 0 ∧ d = 0 ∧ mainline (ch :: t.takeWhile inToken) = out ∧
      t.dropWhile inToken = rest ∧ ∀ w, stripStep depth ch w =
        .ok (mainline (ch :: w.takeWhile inToken), 0, w.dropWhile inToken)) := by
  have hread : ∀ {o : Option Text} {d' : ℕ} {w : Text}, stripStep depth ch t = .ok (o, d', w) →
      o = out ∧ d' = d ∧ w = rest := by
    intro o d' w hw
    simpa using hw.symm.trans h
  have hfail : ∀ e, stripStep depth ch t ≠ .error e := by
    intro e he
    rw [he] at h
    cases h
  have hskip : ∀ {d' : ℕ}, (∀ w, stripStep depth ch w = .ok (none, d', w)) →
      out = none ∧ rest = t ∧ ∀ w, stripStep depth ch w = .ok (none, d, w) := by
    intro d' hw
    obtain ⟨rfl, rfl, rfl⟩ := hread (hw t)
    exact ⟨rfl, rfl, hw⟩
  by_cases hopen : ch = '{'
  · by_cases hd : depth = 0
    · cases hc : afterFirst '}' t with
      | none =>
        refine absurd ?_ (hfail .unterminatedComment)
        rw [stripStep, if_pos hopen, if_pos hd, hc]
      | some r =>
        have hstep : ∀ w r, afterFirst '}' w = some r →
            stripStep depth ch w = .ok (none, depth, r) := by
          intro w r hr
          rw [stripStep, if_pos hopen, if_pos hd, hr]
        obtain ⟨rfl, rfl, rfl⟩ := hread (hstep t r hc)
        exact .inr (.inl ⟨rfl, rfl, rfl, hstep⟩)
    · exact .inl (hskip fun w => by rw [stripStep, if_pos hopen, if_neg hd])
  by_cases hclose : ch = '}' ∧ depth = 0
  · refine absurd ?_ (hfail .unbalancedCommentClose)
    rw [stripStep, if_neg hopen, if_pos hclose]
  by_cases hline : ch = ';' ∧ depth = 0
  · have hstep : ∀ w, stripStep depth ch w =
        .ok (none, depth, (afterFirst '\n' w).getD []) := by
      intro w
      rw [stripStep, if_neg hopen, if_neg hclose, if_pos hline]
    obtain ⟨rfl, rfl, hrest⟩ := hread (hstep t)
    exact .inr (.inr (.inl ⟨rfl, rfl, hrest, hstep⟩))
  by_cases hdown : ch = '('
  · exact .inl (hskip fun w => by
      rw [stripStep, if_neg hopen, if_neg hclose, if_neg hline, if_pos hdown])
  by_cases hup : ch = ')'
  · by_cases hd : depth = 0
    · refine absurd ?_ (hfail .unbalancedVariationClose)
      rw [stripStep, if_neg hopen, if_neg hclose, if_neg hline, if_neg hdown, if_pos hup, if_pos hd]
    · have hstep : ∀ w, stripStep depth ch w = .ok (none, depth - 1, w) := by
        intro w
        rw [stripStep, if_neg hopen, if_neg hclose, if_neg hline, if_neg hdown, if_pos hup,
          if_neg hd]
      exact .inl (hskip hstep)
  -- no guard above holds
  have hlater : ∀ w, stripStep depth ch w =
      if 0 < depth then .ok (none, depth, w)
      else if ch = '$' then
        if w.takeWhile isDigit = [] then .error .bareNag
        else .ok (none, depth, w.dropWhile isDigit)
      else if isSpace ch then .ok (none, depth, w)
      else if inToken ch then
        .ok (mainline (ch :: w.takeWhile inToken), depth, w.dropWhile inToken)
      else .error .unrecognizedDelimiter := by
    intro w
    rw [stripStep, if_neg hopen, if_neg hclose, if_neg hline, if_neg hdown, if_neg hup]
  by_cases hdepth : 0 < depth
  · exact .inl (hskip fun w => by rw [hlater, if_pos hdepth])
  by_cases hnag : ch = '$'
  · have hstep : ∀ w, w.takeWhile isDigit ≠ [] →
        stripStep depth ch w = .ok (none, depth, w.dropWhile isDigit) := by
      intro w hw
      rw [hlater, if_neg hdepth, if_pos hnag, if_neg hw]
    by_cases hdigits : t.takeWhile isDigit = []
    · refine absurd ?_ (hfail .bareNag)
      rw [hlater, if_neg hdepth, if_pos hnag, if_pos hdigits]
    · obtain ⟨rfl, rfl, hrest⟩ := hread (hstep t hdigits)
      exact .inr (.inr (.inr (.inl ⟨rfl, rfl, hdigits, hrest, hstep⟩)))
  by_cases hspace : isSpace ch = true
  · exact .inl (hskip fun w => by
      rw [hlater, if_neg hdepth, if_neg hnag, if_pos hspace])
  by_cases htok : inToken ch = true
  · obtain rfl : depth = 0 := by omega
    have hstep : ∀ w, stripStep 0 ch w =
        .ok (mainline (ch :: w.takeWhile inToken), 0, w.dropWhile inToken) := by
      intro w
      rw [hlater, if_neg hdepth, if_neg hnag, if_neg hspace, if_pos htok]
    obtain ⟨hout, rfl, hrest⟩ := hread (hstep t)
    exact .inr (.inr (.inr (.inr ⟨rfl, rfl, hout, hrest, hstep⟩)))
  · refine absurd ?_ (hfail .unrecognizedDelimiter)
    rw [hlater, if_neg hdepth, if_neg hnag, if_neg hspace, if_neg htok]

theorem stripStep_suffix {depth d : ℕ} {ch : Char} {t rest : Text} {out : Option Text}
    (h : stripStep depth ch t = .ok (out, d, rest)) : rest <:+ t := by
  rcases stripStep_cases h with ⟨-, rfl, -⟩ | ⟨-, -, hrest, -⟩ | ⟨-, -, rfl, -⟩ |
    ⟨-, -, -, rfl, -⟩ | ⟨-, -, -, rfl, -⟩
  · exact List.suffix_rfl
  · simpa [hrest] using afterFirst_suffix '}' t
  · exact afterFirst_suffix '\n' t
  · exact List.dropWhile_suffix _
  · exact List.dropWhile_suffix _

def movetextScanner : Scanner ℕ Char Text MovetextError where
  step := stripStep
  finish := fun depth => if depth ≠ 0 then .error .unbalancedVariationOpen else .ok ()
  suffix := stripStep_suffix

/-- `_strip_movetext`: the tokens of the main line. -/
def stripMovetext (movetext : Text) : Except MovetextError (List Text) :=
  movetextScanner.scan 0 movetext

end Pgn
end OpenChess
