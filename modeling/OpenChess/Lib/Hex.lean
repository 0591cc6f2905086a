import Mathlib.Data.List.Basic
import Mathlib.Tactic

/-!
# Tagged hexadecimal texts

Content addresses are a fixed tag followed by a fixed number of lowercase
hexadecimal digits. A hash function enters only through the form of its output.
-/

namespace OpenChess
namespace Hex

def digits : List Char :=
  ['0', '1', '2', '3', '4', '5', '6', '7', '8', '9', 'a', 'b', 'c', 'd', 'e', 'f']

/-- Exactly `n` lowercase hexadecimal digits. -/
def isHex (n : ℕ) (t : List Char) : Bool := t.length == n && t.all fun c => digits.contains c

/-- The tag, then exactly `n` digits. -/
def tagged (tag : List Char) (n : ℕ) (t : List Char) : Bool :=
  tag.isPrefixOf t && isHex n (t.drop tag.length)

theorem tagged_append (tag : List Char) (n : ℕ) (t : List Char) :
    tagged tag n (tag ++ t) = isHex n t := by
  have hprefix : tag.isPrefixOf (tag ++ t) = true := by simp
  rw [tagged, hprefix, List.drop_left, Bool.true_and]

/-- Only the characters of the tag and the digits occur in a tagged text. -/
theorem mem_of_tagged {tag t : List Char} {n : ℕ} {c : Char} (h : tagged tag n t = true)
    (hc : c ∈ t) : c ∈ tag ∨ c ∈ digits := by
  simp only [tagged, isHex, Bool.and_eq_true, List.all_eq_true, List.isPrefixOf_iff_prefix] at h
  obtain ⟨⟨rest, rfl⟩, -, hall⟩ := h
  rw [List.drop_left] at hall
  rcases List.mem_append.mp hc with hc | hc
  · exact .inl hc
  · exact .inr (by simpa using hall c hc)

/-- A hash function, read in hexadecimal. -/
structure Hash (n : ℕ) where
  hexdigest : List Char → List Char
  form : ∀ t, isHex n (hexdigest t) = true

/-- The output of a hash, tagged, has the tagged form. -/
theorem Hash.tagged {n : ℕ} (h : Hash n) (tag t : List Char) :
    tagged tag n (tag ++ h.hexdigest t) = true := by
  rw [tagged_append, h.form]

/-- The hash does not collide on these two texts. -/
def Hash.Separates {n : ℕ} (h : Hash n) (t u : List Char) : Prop :=
  h.hexdigest t = h.hexdigest u → t = u

/-- The length of a text in `n` digits, the lowest first. -/
def lengthText (n : ℕ) (t : List Char) : List Char :=
  (List.range n).map fun i => digits.getD (t.length / 16 ^ i % 16) '0'

theorem isHex_lengthText (n : ℕ) (t : List Char) : isHex n (lengthText n t) = true := by
  have hdigit : ∀ m < 16, digits.contains (digits.getD m '0') = true := by decide
  simp only [isHex, lengthText, List.length_map, List.length_range, BEq.rfl, Bool.true_and,
    List.all_map, List.all_eq_true]
  exact fun i _ => hdigit _ (Nat.mod_lt _ (by decide))

/-- A hash that writes the length of the text. -/
def Hash.lengths (n : ℕ) : Hash n := ⟨lengthText n, isHex_lengthText n⟩

/-- A hash that repeats the last digit of the text. -/
def Hash.marks (n : ℕ) : Hash n :=
  ⟨fun t => List.replicate n ((t.reverse.find? digits.contains).getD '0'), fun t => by
    have hmark : digits.contains ((t.reverse.find? digits.contains).getD '0') = true := by
      cases hfind : t.reverse.find? digits.contains with
      | none => decide
      | some c => exact List.find?_some hfind
    simp only [isHex, List.length_replicate, BEq.rfl, Bool.true_and, List.all_eq_true]
    intro c hc
    rw [List.eq_of_mem_replicate hc, hmark]⟩

/-- A hash whose output is always zero. -/
def Hash.zeros (n : ℕ) : Hash n := ⟨fun _ => List.replicate n '0', fun _ => by
  have hmem : '0' ∈ digits := by decide
  simp [isHex, hmem]⟩

end Hex
end OpenChess
