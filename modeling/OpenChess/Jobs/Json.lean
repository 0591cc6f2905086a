import OpenChess.Chess.Value
import OpenChess.Lib.Hex
import Mathlib.Data.Char
import Mathlib.Data.List.Lex
import Mathlib.Data.List.Sort
import Mathlib.Order.Defs.LinearOrder

/-!
# Canonical JSON

Model of the texts the job modules hash, and of the detached copies they make by reading
such a text back. Keys are sorted, and a copy is its value with every dictionary sorted.
-/

namespace OpenChess
namespace Json

/-! ### Texts -/

def unicodeEscape (n : ℕ) : Text :=
  Char.ofNat 0x5c :: 'u' :: [n / 4096, n / 256, n / 16, n].map fun d => Hex.digits.getD (d % 16) '0'

/-- The text of a character within quotes; `ascii` is `ensure_ascii`. -/
def escape (ascii : Bool) (c : Char) : Text :=
  if c.toNat = 0x22 ∨ c.toNat = 0x5c then [Char.ofNat 0x5c, c]
  else if c.toNat = 0x08 then [Char.ofNat 0x5c, 'b']
  else if c.toNat = 0x09 then [Char.ofNat 0x5c, 't']
  else if c.toNat = 0x0a then [Char.ofNat 0x5c, 'n']
  else if c.toNat = 0x0c then [Char.ofNat 0x5c, 'f']
  else if c.toNat = 0x0d then [Char.ofNat 0x5c, 'r']
  else if c.toNat < 0x20 then unicodeEscape c.toNat
  else if ascii = false ∨ c.toNat < 0x7f then [c]
  else if c.toNat < 0x10000 then unicodeEscape c.toNat
  else unicodeEscape (0xd800 + (c.toNat - 0x10000) / 1024 % 1024) ++
    unicodeEscape (0xdc00 + (c.toNat - 0x10000) % 1024)

def quoted (ascii : Bool) (t : Text) : Text :=
  Char.ofNat 0x22 :: (t.flatMap (escape ascii) ++ [Char.ofNat 0x22])

/-- The characters of a key. -/
def keyText : Scalar → Text
  | .str t => t
  | .foreign _ => []

def sorted {V : Type} (entries : List (Scalar × V)) : List (Scalar × V) :=
  entries.insertionSort fun e e' => keyText e.1 ≤ keyText e'.1

mutual

/-- `json.dumps` with sorted keys and no blanks. -/
def dumps (ascii : Bool) : Value → Text
  | .null => "null".toList
  | .bool b => if b then "true".toList else "false".toList
  | .int n => intText n
  | .float _ text => text
  | .str t => quoted ascii t
  | .list items => '[' :: ([','].intercalate (dumpsItems ascii items) ++ [']'])
  | .dict entries => Char.ofNat 0x7b :: ([','].intercalate
      ((sorted (dumpsMembers ascii entries)).map fun e => quoted ascii (keyText e.1) ++ ':' :: e.2) ++
      [Char.ofNat 0x7d])
  | .foreign _ => []

def dumpsItems (ascii : Bool) : List Value → List Text
  | [] => []
  | v :: items => dumps ascii v :: dumpsItems ascii items

def dumpsMembers (ascii : Bool) : List (Scalar × Value) → List (Scalar × Text)
  | [] => []
  | (k, v) :: entries => (k, dumps ascii v) :: dumpsMembers ascii entries

end

mutual

/-- `json.loads` of the canonical text of a value. -/
def copy : Value → Value
  | .list items => .list (copyItems items)
  | .dict entries => .dict (sorted (copyMembers entries))
  | v => v

def copyItems : List Value → List Value
  | [] => []
  | v :: items => copy v :: copyItems items

def copyMembers : List (Scalar × Value) → List (Scalar × Value)
  | [] => []
  | (k, v) :: entries => (k, copy v) :: copyMembers entries

end

/-! ### Copies -/

theorem dumpsItems_eq (ascii : Bool) (items : List Value) :
    dumpsItems ascii items = items.map (dumps ascii) := by
  induction items with
  | nil => rfl
  | cons v items ih => rw [dumpsItems, ih, List.map_cons]

theorem dumpsMembers_eq (ascii : Bool) (entries : List (Scalar × Value)) :
    dumpsMembers ascii entries = entries.map fun e => (e.1, dumps ascii e.2) := by
  induction entries with
  | nil => rfl
  | cons e entries ih => rw [dumpsMembers, ih, List.map_cons]

theorem copyItems_eq (items : List Value) : copyItems items = items.map copy := by
  induction items with
  | nil => rfl
  | cons v items ih => rw [copyItems, ih, List.map_cons]

theorem copyMembers_eq (entries : List (Scalar × Value)) :
    copyMembers entries = entries.map fun e => (e.1, copy e.2) := by
  induction entries with
  | nil => rfl
  | cons e entries ih => rw [copyMembers, ih, List.map_cons]

theorem mem_sorted {V : Type} {entries : List (Scalar × V)} {e : Scalar × V} :
    e ∈ sorted entries ↔ e ∈ entries := (List.perm_insertionSort _ entries).mem_iff

/-- Sorting does not look at the values. -/
theorem sorted_map {V W : Type} (f : V → W) (entries : List (Scalar × V)) :
    sorted (entries.map fun e => (e.1, f e.2)) = (sorted entries).map fun e => (e.1, f e.2) :=
  (List.map_insertionSort (fun e e' : Scalar × V => keyText e.1 ≤ keyText e'.1)
    (fun e e' : Scalar × W => keyText e.1 ≤ keyText e'.1) (fun e : Scalar × V => (e.1, f e.2))
    entries fun _ _ _ _ => Iff.rfl).symm

theorem sorted_sorted {V : Type} (entries : List (Scalar × V)) :
    sorted (sorted entries) = sorted entries := by
  let before : Scalar × V → Scalar × V → Prop := fun e e' => keyText e.1 ≤ keyText e'.1
  have htotal : Std.Total before := ⟨fun e e' => le_total (keyText e.1) (keyText e'.1)⟩
  have htrans : IsTrans (Scalar × V) before :=
    ⟨fun e e' e'' h h' => le_trans (show keyText e.1 ≤ keyText e'.1 from h) h'⟩
  exact (List.pairwise_insertionSort before entries).insertionSort_eq

theorem copy_leaf {v : Value} (hlist : ∀ items, v ≠ .list items)
    (hdict : ∀ entries, v ≠ .dict entries) : copy v = v := by
  cases v with
  | list items => exact absurd rfl (hlist items)
  | dict entries => exact absurd rfl (hdict entries)
  | _ => rfl

/-- A copy is its own copy. -/
theorem copy_copy (v : Value) : copy (copy v) = copy v := by
  induction v using Value.induction with
  | hatom v hlist hdict => rw [copy_leaf hlist hdict, copy_leaf hlist hdict]
  | hlist items ih =>
    simp only [copy, copyItems_eq, List.map_map]
    exact congrArg Value.list (List.map_congr_left ih)
  | hdict entries ih =>
    simp only [copy, copyMembers_eq]
    rw [← sorted_map copy, sorted_sorted, List.map_map]
    have hmembers : (entries.map ((fun e => (e.1, copy e.2)) ∘ fun e => (e.1, copy e.2))) =
        entries.map fun e => (e.1, copy e.2) :=
      List.map_congr_left fun e he => Prod.ext rfl (ih e he)
    rw [hmembers]

end Json
end OpenChess
