import OpenChess.Graph.Fen
import OpenChess.Ingest.Movetext
import OpenChess.Lib.LineText

/-!
# Position keys

Model of `parse_fen` and `canonical_position_key` of `ingest/positions.py`. The key joins four
fields as they are written. A run of empty squares has several spellings, and so have no
castling rights, so one position can have several keys.
-/

namespace OpenChess
namespace Positions

open Pgn (isDecimal isSpace)
open LineText (strip)

/-- The class `[1-8KQRBNPkqrbnp/]`. -/
def isBoard (c : Char) : Bool := "12345678KQRBNPkqrbnp/".toList.contains c

def skip (c : Char) (t : Text) : Text := if t.head? = some c then t.tail else t

/-- `K?Q?k?q?|-`. -/
def isCastling (t : Text) : Bool :=
  decide (skip 'q' (skip 'k' (skip 'Q' (skip 'K' t))) = []) || t == ['-']

/-- `-|[a-h][36]`. -/
def isEnPassant : Text → Bool
  | [c] => c == '-'
  | [f, r] => "abcdefgh".toList.contains f && "36".toList.contains r
  | _ => false

/-- `\d+`. -/
def isNumber (t : Text) : Bool := !t.isEmpty && t.all isDecimal

/-- The `ValueError` refusals of `parse_fen`. -/
inductive FenError
  | malformed (fen : Text)
  | ranks (count : ℕ)
  | width (rank : Text) (width : ℕ)
  | counter (digits : ℕ)
  deriving DecidableEq, Repr

structure PositionRecord where
  board : Text
  turn : Text
  castling : Text
  enPassant : Text
  halfmove : ℕ
  fullmove : ℕ
  deriving DecidableEq, Repr

/-- The groups of a match of `_FEN_RE`; no group holds a blank. -/
def groups (t : Text) : Option (Text × Text × Text × Text × Text × Text) :=
  match t.splitOn ' ' with
  | [board, turn, castling, ep, halfmove, fullmove] =>
    if board ≠ [] ∧ board.all isBoard ∧ turn ∈ [['w'], ['b']] ∧ isCastling castling ∧
        isEnPassant ep ∧ isNumber halfmove ∧ isNumber fullmove then
      some (board, turn, castling, ep, halfmove, fullmove)
    else none
  | _ => none

/-- `sum(int(c) if c.isdigit() else 1 for c in rank)`. -/
def width (rank : Text) : ℕ := (rank.map fun c => if c.isDigit then c.toNat - 48 else 1).sum

/-- `int` of a text of digits. -/
def counter (t : Text) : Except FenError ℕ :=
  if Fen.intMaxStrDigits < t.length then .error (.counter t.length)
  else .ok ((Decimal.readNat t).getD 0)

def parseFen (fen : Text) : Except FenError PositionRecord :=
  match groups (strip isSpace fen) with
  | none => .error (.malformed fen)
  | some (board, turn, castling, ep, halfmove, fullmove) =>
    let ranks := board.splitOn '/'
    if ranks.length ≠ 8 then .error (.ranks ranks.length)
    else
      match ranks.find? fun rank => decide (width rank ≠ 8) with
      | some rank => .error (.width rank (width rank))
      | none => do
        let halfmove ← counter halfmove
        let fullmove ← counter fullmove
        return ⟨board, turn, castling, ep, halfmove, fullmove⟩

/-- `PositionRecord.canonical_key`. -/
def PositionRecord.canonicalKey (r : PositionRecord) : Text :=
  r.board ++ '|' :: (r.turn ++ '|' :: (r.castling ++ '|' :: r.enPassant))

def canonicalPositionKey (fen : Text) : Except FenError Text :=
  (parseFen fen).map PositionRecord.canonicalKey

/-! ### Positions -/

def squares (c : Char) : List (Option Char) :=
  if c.isDigit then List.replicate (c.toNat - 48) none else [some c]

def PositionRecord.placement (r : PositionRecord) : List (List (Option Char)) :=
  (r.board.splitOn '/').map fun rank => rank.flatMap squares

def PositionRecord.rights (r : PositionRecord) : Set Char := {c | c ∈ r.castling ∧ c ≠ '-'}

def PositionRecord.target (r : PositionRecord) : Option Text :=
  if r.enPassant = ['-'] then none else some r.enPassant

structure SamePosition (r r' : PositionRecord) : Prop where
  placement : r.placement = r'.placement
  turn : r.turn = r'.turn
  rights : r.rights = r'.rights
  target : r.target = r'.target

/-- The boards are written with the same digits, and the rights are left empty in both or in
neither. -/
structure SpelledAlike (r r' : PositionRecord) : Prop where
  digits : r.board.filter Char.isDigit = r'.board.filter Char.isDigit
  rights : r.castling = [] ↔ r'.castling = []

/-- What a match of the pattern is made of. -/
structure PositionRecord.Valid (r : PositionRecord) : Prop where
  board : ∀ c ∈ r.board, isBoard c = true
  turn : r.turn ∈ [['w'], ['b']]
  castling : isCastling r.castling = true
  enPassant : isEnPassant r.enPassant = true

variable {fen fen' t u b b' : Text} {r r' : PositionRecord} {c c' : Char}

theorem valid_of_parseFen (h : parseFen fen = .ok r) : r.Valid := by
  unfold parseFen at h
  split at h
  · cases h
  · next board turn castling ep halfmove fullmove hgroups =>
    unfold groups at hgroups
    split at hgroups
    · split_ifs at hgroups with hfields
      obtain ⟨-, hboard, hturn, hcastling, hep, -⟩ := hfields
      cases hgroups
      dsimp only at h
      split_ifs at h
      split at h
      · cases h
      · cases hhalf : counter halfmove with
        | error e => simp [hhalf, bind, Except.bind] at h
        | ok half =>
          cases hfull : counter fullmove with
          | error e => simp [hhalf, hfull, bind, Except.bind] at h
          | ok full =>
            simp only [hhalf, hfull, bind, Except.bind, pure, Except.pure, Except.ok.injEq] at h
            subst h
            exact ⟨List.all_eq_true.mp hboard, hturn, hcastling, hep⟩
    · cases hgroups

/-! ### The fields of a key -/

theorem of_isBoard (h : isBoard c = true) : c ≠ '|' ∧ (c.isDigit = true → 49 ≤ c.toNat) := by
  have hall : ("12345678KQRBNPkqrbnp/".toList.all fun c =>
      decide (c ≠ '|') && (!c.isDigit || decide (49 ≤ c.toNat))) = true := by decide
  have hc := List.all_eq_true.mp hall c (List.contains_iff_mem.mp h)
  rw [Bool.and_eq_true, decide_eq_true_eq, Bool.or_eq_true, decide_eq_true_eq] at hc
  exact ⟨hc.1, fun hdigit => hc.2.resolve_left (by simp [hdigit])⟩

theorem skip_cases (c : Char) (t : Text) : t = skip c t ∨ t = c :: skip c t := by
  unfold skip
  split_ifs with h
  · obtain ⟨t, rfl⟩ := List.head?_eq_some_iff.mp h
    exact .inr rfl
  · exact .inl rfl

theorem castling_eq (h : isCastling t = true) :
    t = ['-'] ∨ t = "KQkq".toList.filter fun c => decide (c ∈ t) := by
  rw [isCastling, Bool.or_eq_true, decide_eq_true_eq, beq_iff_eq] at h
  refine h.symm.imp_right fun hnil => ?_
  have hk := skip_cases 'K' t
  generalize skip 'K' t = t₁ at hk hnil
  have hq := skip_cases 'Q' t₁
  generalize skip 'Q' t₁ = t₂ at hq hnil
  have hk' := skip_cases 'k' t₂
  generalize skip 'k' t₂ = t₃ at hk' hnil
  have hq' := skip_cases 'q' t₃
  rw [hnil] at hq'
  obtain rfl | rfl := hq' <;> obtain rfl | rfl := hk' <;> obtain rfl | rfl := hq <;>
    obtain rfl | rfl := hk <;> rfl

theorem bar_notMem_castling (h : isCastling t = true) : '|' ∉ t := by
  obtain rfl | ht := castling_eq h
  · decide
  · rw [ht]
    exact fun hmem => absurd (List.mem_of_mem_filter hmem) (by decide)

theorem bar_notMem_turn (h : t ∈ [['w'], ['b']]) : '|' ∉ t := by
  obtain rfl | rfl := List.mem_pair.mp h <;> decide

theorem canonicalKey_eq_iff (hr : r.Valid) (hr' : r'.Valid) : r.canonicalKey = r'.canonicalKey ↔
    r.board = r'.board ∧ r.turn = r'.turn ∧ r.castling = r'.castling ∧ r.enPassant = r'.enPassant := by
  have hboard : ∀ {r : PositionRecord}, r.Valid → '|' ∉ r.board :=
    fun hr hmem => (of_isBoard (hr.board _ hmem)).1 rfl
  constructor
  · intro h
    obtain ⟨h1, h⟩ := Separated.append_cons_inj (hboard hr) (hboard hr') h
    obtain ⟨h2, h⟩ :=
      Separated.append_cons_inj (bar_notMem_turn hr.turn) (bar_notMem_turn hr'.turn) h
    obtain ⟨h3, h4⟩ := Separated.append_cons_inj (bar_notMem_castling hr.castling)
      (bar_notMem_castling hr'.castling) h
    exact ⟨h1, h2, h3, h4⟩
  · rintro ⟨h1, h2, h3, h4⟩
    rw [PositionRecord.canonicalKey, PositionRecord.canonicalKey, h1, h2, h3, h4]

/-! ### Spellings of a board -/

theorem squares_of_digit (h : isBoard c = true) (hdigit : c.isDigit = true) :
    ∃ n, squares c = none :: List.replicate n none := by
  have hpos := (of_isBoard h).2 hdigit
  refine ⟨c.toNat - 49, ?_⟩
  rw [squares, if_pos hdigit, ← List.replicate_succ]
  congr 1
  omega

theorem squares_of_letter (hdigit : ¬ c.isDigit = true) : squares c = [some c] := if_neg hdigit

theorem board_eq_of_squares (hb : ∀ c ∈ b, isBoard c = true) (hb' : ∀ c ∈ b', isBoard c = true)
    (hsquares : b.flatMap squares = b'.flatMap squares)
    (hdigits : b.filter Char.isDigit = b'.filter Char.isDigit) : b = b' := by
  induction b generalizing b' with
  | nil =>
    cases b' with
    | nil => rfl
    | cons c' b' =>
      obtain ⟨hc', -⟩ := List.forall_mem_cons.mp hb'
      rw [List.flatMap_cons] at hsquares
      by_cases hdigit : c'.isDigit = true
      · obtain ⟨n, hn⟩ := squares_of_digit hc' hdigit
        rw [hn] at hsquares
        cases hsquares
      · rw [squares_of_letter hdigit] at hsquares
        cases hsquares
  | cons c b ih =>
    obtain ⟨hc, hrest⟩ := List.forall_mem_cons.mp hb
    cases b' with
    | nil =>
      rw [List.flatMap_cons] at hsquares
      by_cases hdigit : c.isDigit = true
      · obtain ⟨n, hn⟩ := squares_of_digit hc hdigit
        rw [hn] at hsquares
        cases hsquares
      · rw [squares_of_letter hdigit] at hsquares
        cases hsquares
    | cons c' b' =>
      obtain ⟨hc', hrest'⟩ := List.forall_mem_cons.mp hb'
      rw [List.flatMap_cons, List.flatMap_cons] at hsquares
      by_cases hdigit : c.isDigit = true <;> by_cases hdigit' : c'.isDigit = true
      · rw [List.filter_cons_of_pos hdigit, List.filter_cons_of_pos hdigit'] at hdigits
        obtain ⟨rfl, htail⟩ := List.cons.inj hdigits
        rw [ih hrest hrest' (List.append_cancel_left hsquares) htail]
      · obtain ⟨n, hn⟩ := squares_of_digit hc hdigit
        rw [hn, squares_of_letter hdigit'] at hsquares
        cases hsquares
      · obtain ⟨n, hn⟩ := squares_of_digit hc' hdigit'
        rw [hn, squares_of_letter hdigit] at hsquares
        cases hsquares
      · rw [squares_of_letter hdigit, squares_of_letter hdigit'] at hsquares
        rw [List.filter_cons_of_neg hdigit, List.filter_cons_of_neg hdigit'] at hdigits
        obtain ⟨hhead, htail⟩ := List.cons.inj hsquares
        obtain rfl := Option.some.inj hhead
        rw [ih hrest hrest' htail hdigits]

theorem flatMap_squares (r : PositionRecord) :
    r.board.flatMap squares = [some '/'].intercalate r.placement := by
  have hparts : ∀ parts : List Text, (['/'].intercalate parts).flatMap squares =
      [some '/'].intercalate (parts.map fun rank => rank.flatMap squares) := by
    intro parts
    induction parts with
    | nil => rfl
    | cons rank parts ih =>
      cases parts with
      | nil => simp
      | cons rank' parts =>
        rw [List.intercalate_cons_cons, List.flatMap_append, List.flatMap_append, ih]
        simp only [List.map_cons, List.intercalate_cons_cons]
        rfl
  rw [PositionRecord.placement, ← hparts, List.intercalate_splitOn]

theorem board_eq_iff (hr : r.Valid) (hr' : r'.Valid) (hplacement : r.placement = r'.placement) :
    r.board = r'.board ↔ r.board.filter Char.isDigit = r'.board.filter Char.isDigit := by
  refine ⟨fun h => by rw [h], board_eq_of_squares hr.board hr'.board ?_⟩
  rw [flatMap_squares, flatMap_squares, hplacement]

/-! ### Spellings of the rights -/

theorem mem_castling_iff (hrights : r.rights = r'.rights) (hc : c ≠ '-') :
    c ∈ r.castling ↔ c ∈ r'.castling := by
  have hmem : c ∈ r.rights ↔ c ∈ r'.rights := by rw [hrights]
  simpa [PositionRecord.rights, hc] using hmem

theorem castling_eq_iff (hr : r.Valid) (hr' : r'.Valid) (hrights : r.rights = r'.rights) :
    r.castling = r'.castling ↔ (r.castling = [] ↔ r'.castling = []) := by
  refine ⟨fun h => by rw [h], fun hempty => ?_⟩
  have hletter : ∀ c ∈ "KQkq".toList, c ≠ '-' := by
    intro c hc hdash
    exact absurd (hdash ▸ hc) (by decide)
  have hfilter : ("KQkq".toList.filter fun c => decide (c ∈ r.castling)) =
      "KQkq".toList.filter fun c => decide (c ∈ r'.castling) :=
    List.filter_congr fun c hc => decide_eq_decide.mpr (mem_castling_iff hrights (hletter c hc))
  obtain h | h := castling_eq hr.castling <;> obtain h' | h' := castling_eq hr'.castling
  · rw [h, h']
  · have hnone : r'.castling = [] := by
      rw [h', ← hfilter, h]
      decide
    exact absurd (hempty.mpr hnone) (by rw [h]; exact List.cons_ne_nil _ _)
  · have hnone : r.castling = [] := by
      rw [h, hfilter, h']
      decide
    exact absurd (hempty.mp hnone) (by rw [h']; exact List.cons_ne_nil _ _)
  · rw [h, hfilter, ← h']

theorem target_eq_iff : r.target = r'.target ↔ r.enPassant = r'.enPassant := by
  unfold PositionRecord.target
  split_ifs with h h'
  · simp [h, h']
  · simp [h, Ne.symm h']
  · simp [*]
  · simp

/-! ### Keys and positions -/

theorem canonicalKey_eq_iff_same (hr : r.Valid) (hr' : r'.Valid) :
    r.canonicalKey = r'.canonicalKey ↔ SamePosition r r' ∧ SpelledAlike r r' := by
  rw [canonicalKey_eq_iff hr hr']
  constructor
  · rintro ⟨hboard, hturn, hcastling, hep⟩
    refine ⟨⟨?_, hturn, ?_, target_eq_iff.mpr hep⟩, ?_, ?_⟩
    · rw [PositionRecord.placement, PositionRecord.placement, hboard]
    · rw [PositionRecord.rights, PositionRecord.rights, hcastling]
    · rw [hboard]
    · rw [hcastling]
  · rintro ⟨hsame, hspelled⟩
    exact ⟨(board_eq_iff hr hr' hsame.placement).mpr hspelled.digits, hsame.turn,
      (castling_eq_iff hr hr' hsame.rights).mpr hspelled.rights, target_eq_iff.mp hsame.target⟩

theorem canonicalPositionKey_of_ok (h : parseFen fen = .ok r) :
    canonicalPositionKey fen = .ok r.canonicalKey := by
  rw [canonicalPositionKey, h]
  rfl

theorem key_eq_iff (h : parseFen fen = .ok r) (h' : parseFen fen' = .ok r') :
    canonicalPositionKey fen = canonicalPositionKey fen' ↔ SamePosition r r' ∧ SpelledAlike r r' := by
  rw [canonicalPositionKey_of_ok h, canonicalPositionKey_of_ok h', Except.ok.injEq,
    canonicalKey_eq_iff_same (valid_of_parseFen h) (valid_of_parseFen h')]

/-- Texts with one key are of one position, and the key is equal exactly where the position
is, unless one position is spelled in two ways: with other digits on the board, or with the
rights left empty in one text only. -/
theorem key_canonical_iff (fen fen' : Text) (r r' : PositionRecord) (h : parseFen fen = .ok r)
    (h' : parseFen fen' = .ok r') :
    (canonicalPositionKey fen = canonicalPositionKey fen' → SamePosition r r') ∧
    ((canonicalPositionKey fen = canonicalPositionKey fen' ↔ SamePosition r r') ↔
      (SamePosition r r' → SpelledAlike r r')) := by
  have hiff := key_eq_iff h h'
  refine ⟨fun hkey => (hiff.mp hkey).1, fun hkey hsame => (hiff.mp (hkey.mpr hsame)).2,
    fun hspelled => hiff.trans ⟨And.left, fun hsame => ⟨hsame, hspelled hsame⟩⟩⟩

/-- An empty board with the rights as written, and its first rank. -/
def emptyBoard (rank rights : Text) : Text :=
  rank ++ "/8/8/8/8/8/8/8 w ".toList ++ rights ++ " - 0 1".toList

def emptyRecord (rank rights : Text) : PositionRecord :=
  ⟨rank ++ "/8/8/8/8/8/8/8".toList, ['w'], rights, ['-'], 0, 1⟩

theorem parseFen_empty : parseFen (emptyBoard ['8'] ['-']) = .ok (emptyRecord ['8'] ['-']) := by
  decide +kernel

theorem parseFen_split : parseFen (emptyBoard ['4', '4'] ['-']) =
    .ok (emptyRecord ['4', '4'] ['-']) := by
  decide +kernel

theorem key_canonical_iff_empty :
    (canonicalPositionKey (emptyBoard ['8'] ['-']) = canonicalPositionKey (emptyBoard ['4', '4'] ['-']) →
      SamePosition (emptyRecord ['8'] ['-']) (emptyRecord ['4', '4'] ['-'])) ∧
    ((canonicalPositionKey (emptyBoard ['8'] ['-']) =
        canonicalPositionKey (emptyBoard ['4', '4'] ['-']) ↔
      SamePosition (emptyRecord ['8'] ['-']) (emptyRecord ['4', '4'] ['-'])) ↔
      (SamePosition (emptyRecord ['8'] ['-']) (emptyRecord ['4', '4'] ['-']) →
        SpelledAlike (emptyRecord ['8'] ['-']) (emptyRecord ['4', '4'] ['-']))) :=
  key_canonical_iff _ _ _ _ parseFen_empty parseFen_split

/-- A rank of eight empty squares, written as one run and as two. -/
theorem runs_split : ¬ ∀ (fen fen' : Text) (r r' : PositionRecord), parseFen fen = .ok r →
    parseFen fen' = .ok r' →
    (canonicalPositionKey fen = canonicalPositionKey fen' ↔ SamePosition r r') := by
  intro h
  have hsame : SamePosition (emptyRecord ['8'] ['-']) (emptyRecord ['4', '4'] ['-']) :=
    ⟨by decide, rfl, rfl, rfl⟩
  have hkey := (h _ _ _ _ parseFen_empty parseFen_split).mpr hsame
  have hspelled := ((key_eq_iff parseFen_empty parseFen_split).mp hkey).2
  exact absurd hspelled.digits (by decide)

end Positions
end OpenChess
