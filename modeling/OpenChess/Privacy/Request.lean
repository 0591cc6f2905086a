import OpenChess.Chess.Value
import OpenChess.Lib.Cells
import OpenChess.Lib.Hex
import OpenChess.Lib.Separated

/-!
# Requests of the privacy stores

What the privacy modules share: identifiers, revisions, and tokens that are bound to a
subject at a revision by a hash.
-/

namespace OpenChess
namespace Privacy

/-- `_MAX_REV`. -/
def maxRev : ℕ := 2 ^ 63 - 1

def installOk : Text → Bool := Hex.tagged "ins1:".toList 64

def collectionOk : Text → Bool := Hex.tagged "col1:".toList 64

def readId (ok : Text → Bool) (v : Value) : Option Text := v.text?.filter ok

/-- `_exact_rev`. -/
def readRev (v : Value) : Option ℕ := v.nat? 0 maxRev

/-- The token of a request: absent, or an exact string of this grammar. -/
def readToken (ok : Text → Bool) (v : Value) : Option (Option Text) :=
  match v with
  | .null => some none
  | v => (readId ok v).map some

/-- `_bump`. -/
def bump (revision : ℕ) : Option ℕ := if maxRev ≤ revision then none else some (revision + 1)

def bindingText (parts : List Text) : Text := ['|'].intercalate parts

def boundToken (sha : Hex.Hash 64) (tag : Text) (parts : List Text) : Text :=
  tag ++ sha.hexdigest (bindingText parts)

variable {revision n : ℕ} {t u : Text} {tag : Text} {v : Value} {ok : Text → Bool}

/-- A guard against a step that is not approved. -/
theorem approved_of_not {P : Prop} {approved : Bool} (h : ¬(P ∧ approved = false)) :
    P → approved = true := by
  intro hP
  by_contra hnot
  exact h ⟨hP, by simpa using hnot⟩

theorem bump_eq_some : bump revision = some n ↔ revision < maxRev ∧ n = revision + 1 := by
  unfold bump
  split_ifs with h
  · simp [not_lt.mpr h]
  · simp [not_le.mp h, eq_comm]

theorem readId_eq_some : readId ok v = some t ↔ v = .str t ∧ ok t = true := by
  simp only [readId, Option.filter_eq_some_iff, Value.text?_eq_some]

/-! ### Separators -/

theorem bar_not_mem_digits (n : ℕ) : '|' ∉ Nat.toDigits 10 n :=
  Separated.notMem_toDigits (by decide) n

theorem bar_not_mem_tagged (htag : '|' ∉ tag) (h : Hex.tagged tag 64 t = true) : '|' ∉ t := by
  have hdigits : '|' ∉ Hex.digits := by decide
  intro hc
  exact (Hex.mem_of_tagged h hc).elim htag hdigits

/-- Parts without a separator are determined by the text that is hashed. -/
theorem bindingText_inj {parts parts' : List Text} (hne : parts ≠ []) (hne' : parts' ≠ [])
    (h : ∀ p ∈ parts, '|' ∉ p) (h' : ∀ p ∈ parts', '|' ∉ p)
    (heq : bindingText parts = bindingText parts') : parts = parts' := by
  rw [← List.splitOn_intercalate '|' h hne, ← List.splitOn_intercalate '|' h' hne']
  exact congrArg (List.splitOn '|') heq

/-- Tokens of one tag are the same for the same text alone, where the hash separates the
texts. -/
theorem boundToken_inj {sha : Hex.Hash 64} {parts parts' : List Text}
    (hsep : sha.Separates (bindingText parts) (bindingText parts'))
    (h : boundToken sha tag parts = boundToken sha tag parts') :
    bindingText parts = bindingText parts' := hsep (List.append_cancel_left h)

end Privacy
end OpenChess
