import OpenChess.Chess.Board
import OpenChess.Lib.RunLength
import OpenChess.Lib.Separated

/-!
# Texts, letters and square names

A text is the list of its characters. Every reader below is the inverse of a
writer: it answers exactly when the text is the written form of the value.
-/

namespace OpenChess

abbrev Text := List Char

/-- Named, so that texts are compared through one instance everywhere. -/
instance lawfulBEqText : LawfulBEq Text := inferInstance

/-- FEN letter of a piece: uppercase for White, lowercase for Black. -/
def Piece.letter : Piece → Char
  | ⟨.white, .pawn⟩ => 'P'
  | ⟨.white, .knight⟩ => 'N'
  | ⟨.white, .bishop⟩ => 'B'
  | ⟨.white, .rook⟩ => 'R'
  | ⟨.white, .queen⟩ => 'Q'
  | ⟨.white, .king⟩ => 'K'
  | ⟨.black, .pawn⟩ => 'p'
  | ⟨.black, .knight⟩ => 'n'
  | ⟨.black, .bishop⟩ => 'b'
  | ⟨.black, .rook⟩ => 'r'
  | ⟨.black, .queen⟩ => 'q'
  | ⟨.black, .king⟩ => 'k'

def allKinds : List Kind := [.pawn, .knight, .bishop, .rook, .queen, .king]

def allPieces : List Piece :=
  allKinds.map (Piece.mk .white) ++ allKinds.map (Piece.mk .black)

def Color.letter : Color → Char
  | .white => 'w'
  | .black => 'b'

def fileChar (f : Fin 8) : Char := Char.ofNat (97 + f.val)

def rankChar (r : Fin 8) : Char := Char.ofNat (49 + r.val)

def Square.name (s : Square) : Text := [fileChar s.file, rankChar s.rank]

/-- A castling right, named by its letter. -/
inductive Right
  | K
  | Q
  | k
  | q
  deriving DecidableEq, Repr

namespace Right

def letter : Right → Char
  | .K => 'K'
  | .Q => 'Q'
  | .k => 'k'
  | .q => 'q'

def color : Right → Color
  | .K | .Q => .white
  | .k | .q => .black

/-- The canonical order `KQkq`. -/
def order : List Right := [.K, .Q, .k, .q]

theorem mem_order (r : Right) : r ∈ order := by cases r <;> decide

theorem letter_injective : Function.Injective letter := by
  intro a b h
  cases a <;> cases b <;> first | rfl | exact absurd h (by decide)

end Right

def readBack {α β : Type*} [DecidableEq β] (values : List α) (write : α → β) (b : β) : Option α :=
  values.find? fun a => write a == b

theorem readBack_eq_some {α β : Type*} [DecidableEq β] {values : List α} {write : α → β}
    (hinj : Function.Injective write) {a : α} {b : β} :
    readBack values write b = some a ↔ a ∈ values ∧ write a = b := by
  constructor
  · intro h
    exact ⟨List.mem_of_find?_eq_some h, by simpa using List.find?_some h⟩
  · rintro ⟨ha, rfl⟩
    cases hf : readBack values write (write a) with
    | none =>
      have := List.find?_eq_none.mp hf a ha
      simp at this
    | some a' =>
      have heq : write a' = write a := by simpa using List.find?_some hf
      rw [hinj heq]

def pieceOf? (c : Char) : Option Piece := readBack allPieces Piece.letter c

def colorOf? (c : Char) : Option Color := readBack [.white, .black] Color.letter c

def rightOf? (c : Char) : Option Right := readBack Right.order Right.letter c

def fileOf? (c : Char) : Option (Fin 8) := readBack (List.finRange 8) fileChar c

def rankOf? (c : Char) : Option (Fin 8) := readBack (List.finRange 8) rankChar c

theorem Piece.letter_injective : Function.Injective Piece.letter := by
  rintro ⟨c, k⟩ ⟨c', k'⟩ h
  cases c <;> cases k <;> cases c' <;> cases k' <;> first | rfl | exact absurd h (by decide)

theorem Color.letter_injective : Function.Injective Color.letter := by
  intro c c' h
  cases c <;> cases c' <;> first | rfl | exact absurd h (by decide)

theorem fileChar_injective : Function.Injective fileChar := by
  have h : ∀ f g : Fin 8, fileChar f = fileChar g → f = g := by decide
  exact fun f g => h f g

theorem rankChar_injective : Function.Injective rankChar := by
  have h : ∀ f g : Fin 8, rankChar f = rankChar g → f = g := by decide
  exact fun f g => h f g

theorem mem_allPieces (p : Piece) : p ∈ allPieces := by
  obtain ⟨c, k⟩ := p
  cases c <;> cases k <;> decide

@[simp] theorem pieceOf?_eq_some {c : Char} {p : Piece} : pieceOf? c = some p ↔ p.letter = c := by
  simp [pieceOf?, readBack_eq_some Piece.letter_injective, mem_allPieces]

@[simp] theorem colorOf?_eq_some {c : Char} {s : Color} : colorOf? c = some s ↔ s.letter = c := by
  rw [colorOf?, readBack_eq_some Color.letter_injective]
  cases s <;> simp

@[simp] theorem rightOf?_eq_some {c : Char} {r : Right} : rightOf? c = some r ↔ r.letter = c := by
  simp [rightOf?, readBack_eq_some Right.letter_injective, Right.mem_order]

@[simp] theorem fileOf?_eq_some {c : Char} {f : Fin 8} : fileOf? c = some f ↔ fileChar f = c := by
  simp [fileOf?, readBack_eq_some fileChar_injective]

@[simp] theorem rankOf?_eq_some {c : Char} {r : Fin 8} : rankOf? c = some r ↔ rankChar r = c := by
  simp [rankOf?, readBack_eq_some rankChar_injective]

/-- Exactly one declared file character, then one declared rank character. -/
def squareOf? : Text → Option Square
  | [f, r] => do
    let file ← fileOf? f
    let rank ← rankOf? r
    return ⟨file, rank⟩
  | _ => none

theorem squareOf?_eq_some {t : Text} {s : Square} : squareOf? t = some s ↔ s.name = t := by
  constructor
  · intro h
    unfold squareOf? at h
    split at h
    · simp only [Option.bind_eq_bind, Option.bind_eq_some_iff, Option.pure_def,
        Option.some.injEq, fileOf?_eq_some, rankOf?_eq_some] at h
      obtain ⟨file, rfl, rank, rfl, rfl⟩ := h
      rfl
    · cases h
  · rintro rfl
    have hf : fileOf? (fileChar s.file) = some s.file := fileOf?_eq_some.mpr rfl
    have hr : rankOf? (rankChar s.rank) = some s.rank := rankOf?_eq_some.mpr rfl
    simp [squareOf?, Square.name, hf, hr]

theorem Square.name_injective : Function.Injective Square.name := by
  intro s t h
  have hs : squareOf? t.name = some s := squareOf?_eq_some.mpr h
  have ht : squareOf? t.name = some t := squareOf?_eq_some.mpr rfl
  exact Option.some.inj (hs.symm.trans ht)

def Piece.token (p : Piece) : Text := [p.color.letter, (Piece.mk .black p.kind).letter]

theorem Piece.token_injective : Function.Injective Piece.token := by
  rintro ⟨c, k⟩ ⟨c', k'⟩ h
  cases c <;> cases k <;> cases c' <;> cases k' <;> first | rfl | exact absurd h (by decide)

def tokenOf? (t : Text) : Option Piece := readBack allPieces Piece.token t

@[simp] theorem tokenOf?_eq_some {t : Text} {p : Piece} : tokenOf? t = some p ↔ p.token = t := by
  simp [tokenOf?, readBack_eq_some Piece.token_injective, mem_allPieces]

end OpenChess

/-!
## Rank texts

The placement grammars of the repository share one alphabet: a piece letter, or
a digit from 1 to 8 for a run of empty squares. The zero digit and every other
character belong to neither.
-/

namespace OpenChess

def emptyRunDigits : List ℕ := [1, 2, 3, 4, 5, 6, 7, 8]

def runOf? (c : Char) : Option ℕ := readBack emptyRunDigits (Nat.toDigits 10) [c]

theorem runOf?_eq_some {c : Char} {n : ℕ} :
    runOf? c = some n ↔ 0 < n ∧ n ≤ 8 ∧ Nat.toDigits 10 n = [c] := by
  rw [runOf?, readBack_eq_some Separated.toDigits_injective, ← and_assoc]
  refine and_congr_left fun _ => ?_
  simp only [emptyRunDigits, List.mem_cons, List.not_mem_nil, or_false]
  omega

/-- Rank texts: piece letters and single digits for empty runs. The zero digit
and any other character belong to neither alphabet. -/
def rankCode : RunLength.Code Piece where
  run := runOf?
  item := pieceOf?
  runText := Nat.toDigits 10
  letter := Piece.letter
  bound := 8
  single n _ hn := ⟨n.digitChar, Nat.toDigits_of_lt_base (by omega)⟩
  run_spec _ _ := runOf?_eq_some
  item_spec _ _ := pieceOf?_eq_some
  letter_not_run p := by
    obtain ⟨c, k⟩ := p
    cases c <;> cases k <;> decide

/-- The board of eight rows, rank 8 first. -/
def boardOf (rows : List (List (Option Piece))) : Placement := fun s =>
  (rows[7 - s.rank.val]?.bind fun row => row[s.file.val]?).join

def rankRow (b : Placement) (r : Fin 8) : List (Option Piece) :=
  (List.finRange 8).map fun f => b ⟨f, r⟩

end OpenChess
