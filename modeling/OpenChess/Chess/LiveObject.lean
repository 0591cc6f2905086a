import OpenChess.Chess.Value
import OpenChess.Lib.ObjectHeap

/-!
# Built-in objects on a heap

Lists and dictionaries live at addresses, and the callers of an engine hold them. An
untrusted callable may rewrite every container while it runs.
-/

namespace OpenChess
namespace Live

open ObjectHeap
open ObjectHeap.Heap (view)

/-! ### Objects -/

/-- An object without parts. -/
inductive Atom
  | null
  | bool (b : Bool)
  | int (n : ℤ)
  | float (finite : Bool) (text : Text)
  | str (text : Text)
  | foreign (tag : ℕ)
  deriving DecidableEq, Repr

def Atom.value : Atom → Value
  | .null => .null
  | .bool b => .bool b
  | .int n => .int n
  | .float finite text => .float finite text
  | .str t => .str t
  | .foreign tag => .foreign tag

abbrev Objects := Heap Scalar Atom

abbrev Handle := Ref Atom

def values : Heap.Reading Scalar Atom Value := ⟨Atom.value, .list, .dict, .foreign 0⟩

def value (h : Objects) (d : ℕ) (r : Handle) : Value := view values h d r

/-- The members of a list. -/
def items (h : Objects) : Handle → List Handle
  | .atom _ => []
  | .ptr p =>
    match h.cells p with
    | .list items => items
    | .dict _ => []

/-- An untrusted callable: the answer of its n-th call, `none` where it raises, and
what it leaves of the heap. It may rewrite every container. -/
structure Oracle (A : Type) where
  call : ℕ → A → Objects → Option Value × Objects
  grows : ∀ n a h, h.next ≤ (call n a h).2.next

/-! ### Commits -/

/-- `target.append(r)`. -/
def push (target r : Handle) (h : Objects) : Objects :=
  match target with
  | .atom _ => h
  | .ptr p =>
    match h.cells p with
    | .list items => h.set p (.list (items ++ [r]))
    | .dict _ => h

/-- `del target[n:]`. -/
def truncate (n : ℕ) (target : Handle) (h : Objects) : Objects :=
  match target with
  | .atom _ => h
  | .ptr p =>
    match h.cells p with
    | .list items => h.set p (.list (items.take n))
    | .dict _ => h

def dict (names : List Text) (members : List Handle) : Cell Scalar Atom :=
  .dict ((names.zip members).map fun e => (.str e.1, e.2))

def text (t : Text) : Handle := .atom (.str t)

end Live
end OpenChess
