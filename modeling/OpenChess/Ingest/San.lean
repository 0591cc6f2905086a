import OpenChess.Ingest.Movetext
import OpenChess.Ingest.PgnDistinct
import OpenChess.Ingest.PgnSpec

/-!
# Moves in algebraic notation

Model of `_parse_san` and `_match_san` of `ingest/pgn.py`. A token is read from
its right end: suffix, promotion, destination, capture sign, and in front the
piece letter and what disambiguates. A castling text is recognised only as the
whole token.
-/

namespace OpenChess
namespace Pgn

/-- The refusals, with the text each quotes; `illegal` is an `IllegalMove` and
every other one a `MalformedPGN`. -/
inductive SanError
  | badPromotion (pr : Text)
  | noDestination (token : Text)
  | overlong (token : Text)
  | badDisambiguation (token : Text)
  | badPawn (token : Text)
  | illegal (token : Text)
  | ambiguous (token : Text)
  | noCheck (token : Text)
  | noMate (token : Text)
  -- `ValueError` of a board without a king
  | noKing
  deriving DecidableEq, Repr

/-- The message before the quoted text. -/
def SanError.message : SanError → String
  | .badPromotion _ => "bad promotion piece in SAN: "
  | .noDestination _ => "SAN lacks a destination square: "
  | .overlong _ => "overlong disambiguation in SAN: "
  | .badDisambiguation _ => "bad disambiguation in SAN: "
  | .badPawn _ => "bad pawn SAN: "
  | .illegal _ => "illegal SAN in position: "
  | .ambiguous _ => "ambiguous SAN: "
  | .noCheck _ => "SAN claims check, move gives none: "
  | .noMate _ => "SAN claims mate, move gives none: "
  | .noKing => ""

/-- What a token says. -/
inductive San
  | castle (wing : Wing)
  | move (piece : Kind) (dest : Square) (capture : Bool) (promotion : Option Kind)
      (disFile disRank : Option (Fin 8)) (suffix : Option Char)
  deriving DecidableEq, Repr

/-- `_CASTLES`. -/
def castles : List (Text × Wing) :=
  [("O-O".toList, .kingside), ("O-O-O".toList, .queenside), ("0-0".toList, .kingside),
    ("0-0-0".toList, .queenside)]

def sanLetter (k : Kind) : Char := (Piece.mk .white k).letter

/-- The letters of `"KQRBN"` and of `"QRBN"`. -/
def officerOf? (c : Char) : Option Kind :=
  readBack [.king, .queen, .rook, .bishop, .knight] sanLetter c

def promotionOf? : Text → Option Kind
  | [c] => readBack [.queen, .rook, .bishop, .knight] sanLetter c
  | _ => none

/-- The check or mate sign at the end of a token, and the token without it. -/
def splitSuffix (token : Text) : Option Char × Text :=
  match token.getLast? with
  | some '+' => (some '+', token.dropLast)
  | some '#' => (some '#', token.dropLast)
  | _ => (none, token)

/-- `token.partition("=")`, with the letter behind the sign read. -/
def splitPromotion (token : Text) : Except SanError (Option Kind × Text) :=
  match afterFirst '=' token with
  | none => .ok (none, token)
  | some pr =>
    match promotionOf? pr with
    | none => .error (.badPromotion pr)
    | some k => .ok (some k, token.takeWhile (· != '='))

def splitCapture (head : Text) : Bool × Text :=
  if head.getLast? = some 'x' then (true, head.dropLast) else (false, head)

def splitPiece : Text → Kind × Text
  | [] => (.pawn, [])
  | c :: rest =>
    match officerOf? c with
    | some k => (k, rest)
    | none => (.pawn, c :: rest)

/-- The loop over what stands before the destination. -/
def disambiguate (token : Text) (disFile disRank : Option (Fin 8)) :
    Text → Except SanError (Option (Fin 8) × Option (Fin 8))
  | [] => .ok (disFile, disRank)
  | ch :: rest =>
    if (fileOf? ch).isSome ∧ disFile = none then disambiguate token (fileOf? ch) disRank rest
    else if (rankOf? ch).isSome ∧ disRank = none then
      disambiguate token disFile (rankOf? ch) rest
    else .error (.badDisambiguation token)

/-- What stands before the destination `dest` of `token`. -/
def parseHead (token : Text) (dest : Square) (promotion : Option Kind) (suffix : Option Char)
    (head : Text) : Except SanError San :=
  let (capture, head) := splitCapture head
  let (piece, head) := splitPiece head
  if head.length > 2 then .error (.overlong token)
  else do
    let (disFile, disRank) ← disambiguate token none none head
    -- a source file is for captures only, and a source rank for officers
    if piece = .pawn ∧ (disRank ≠ none ∨ (disFile ≠ none ∧ capture = false)) then
      .error (.badPawn token)
    else .ok (.move piece dest capture promotion disFile disRank suffix)

/-- `_parse_san`. -/
def parseSan (token : Text) : Except SanError San :=
  match castles.lookup token with
  | some wing => .ok (.castle wing)
  | none => do
    let (suffix, token) := splitSuffix token
    let (promotion, token) ← splitPromotion token
    match squareOf? (token.drop (token.length - 2)) with
    | none => .error (.noDestination token)
    | some dest => parseHead token dest promotion suffix (token.take (token.length - 2))

namespace Board

/-- A legal move is a candidate for what the token says. -/
def fits (B : Board) : San → Move → Bool
  | .castle wing, mv => mv.castle == some wing
  | .move piece dest capture promotion disFile disRank _, mv =>
    (B.squares.get mv.frm).map Piece.kind == some piece && mv.dest == index dest &&
    mv.castle == none && mv.promotion == promotion && mv.capture == capture &&
    disFile.all (fun f => (square mv.frm).file == f) &&
    disRank.all (fun r => (square mv.frm).rank == r)

/-- The suffix claims no more than the marks of the move. -/
def checkSuffix (token : Text) (mv : Move) : San → Except SanError Move
  | .castle _ => .ok mv
  | .move _ _ _ _ _ _ suffix =>
    if suffix = some '+' ∧ mv.givesCheck = false then .error (.noCheck token)
    else if suffix = some '#' ∧ mv.givesMate = false then .error (.noMate token)
    else .ok mv

/-- `_match_san`. -/
def matchSan (B : Board) (token : Text) : Except SanError Move := do
  let san ← parseSan token
  match B.legalMoves with
  | none => .error .noKing
  | some legal =>
    match legal.filter (B.fits san) with
    | [] => .error (.illegal token)
    | [mv] => checkSuffix token mv san
    | _ => .error (.ambiguous token)

end Board

/-! ### The written form -/

/-- The sign a token ends with. -/
def signText : Option Char → Text
  | none => []
  | some c => [c]

/-- The promotion a token ends with. -/
def promotionText : Option Kind → Text
  | none => []
  | some k => ['=', sanLetter k]

/-- The fully disambiguated text of a move, without its sign. -/
def Board.bareSan (B : Board) (m : Move) : Text :=
  match m.castle with
  | some .kingside => "O-O".toList
  | some .queenside => "O-O-O".toList
  | none =>
    let taking : Text := if m.capture then ['x'] else []
    let head : Text :=
      match (B.squares.get m.frm).map Piece.kind with
      | none => []
      | some .pawn => if m.capture then [fileChar (square m.frm).file] else []
      | some k => sanLetter k :: (square m.frm).name
    head ++ taking ++ (square m.dest).name ++ promotionText m.promotion

def Move.sign (m : Move) : Option Char :=
  if m.givesMate then some '#' else if m.givesCheck then some '+' else none

def Board.standardSan (B : Board) (m : Move) : Text := B.bareSan m ++ signText m.sign

end Pgn
end OpenChess

/-!
## The written form is read back

The fully disambiguated text of a legal move parses into the fields it was
written from, and among the legal moves of the board only that move has them.
Castling is the exception: its texts are known as whole tokens only, so a
castling move written with a check or mate sign is refused.
-/

namespace OpenChess
namespace Pgn

/-! ### Letters -/

theorem castles_lookup {c : Char} {t : Text} (hO : c ≠ 'O') (h0 : c ≠ '0') :
    castles.lookup (c :: t) = none := by
  simp [castles, List.lookup_cons, beq_false_of_ne hO, beq_false_of_ne h0]

theorem officerOf_sanLetter {k : Kind} (h : k ≠ .pawn) : officerOf? (sanLetter k) = some k := by
  cases k <;> first | exact absurd rfl h | decide

theorem officerOf_fileChar (f : Fin 8) : officerOf? (fileChar f) = none := by
  revert f
  decide

theorem promotionOf_sanLetter {k : Kind} (h : k ∈ promotionKinds) :
    promotionOf? [sanLetter k] = some k := by
  revert k
  decide

theorem sanLetter_plain (k : Kind) : sanLetter k ≠ 'O' ∧ sanLetter k ≠ '0' ∧
    sanLetter k ≠ '=' ∧ sanLetter k ≠ '+' ∧ sanLetter k ≠ '#' := by
  cases k <;> decide

theorem fileChar_plain (f : Fin 8) : fileChar f ≠ 'O' ∧ fileChar f ≠ '0' ∧ fileChar f ≠ '=' ∧
    fileChar f ≠ 'x' := by
  revert f
  decide

theorem rankChar_plain (r : Fin 8) : rankChar r ≠ '=' ∧ rankChar r ≠ '+' ∧ rankChar r ≠ '#' ∧
    rankChar r ≠ 'x' := by
  revert r
  decide

theorem rankOf_rankChar (r : Fin 8) : rankOf? (rankChar r) = some r := rankOf?_eq_some.mpr rfl

theorem fileOf_fileChar (f : Fin 8) : fileOf? (fileChar f) = some f := fileOf?_eq_some.mpr rfl

theorem fileOf_rankChar (r : Fin 8) : fileOf? (rankChar r) = none := by
  revert r
  decide

/-! ### The right end of a token -/

theorem splitSuffix_append {body : Text} {sign : Option Char}
    (hsign : sign = none ∨ sign = some '+' ∨ sign = some '#')
    (hlast : body.getLast? ≠ some '+' ∧ body.getLast? ≠ some '#') :
    splitSuffix (body ++ signText sign) = (sign, body) := by
  rcases hsign with rfl | rfl | rfl
  · simp only [signText, List.append_nil, splitSuffix]
    split
    · next h => exact absurd h hlast.1
    · next h => exact absurd h hlast.2
    · rfl
  · simp [signText, splitSuffix]
  · simp [signText, splitSuffix]

theorem splitPromotion_append {body : Text} (hbody : '=' ∉ body) {pr : Option Kind}
    (hpr : ∀ k, pr = some k → k ∈ promotionKinds) :
    splitPromotion (body ++ promotionText pr) = .ok (pr, body) := by
  cases pr with
  | none =>
    simp [promotionText, splitPromotion, afterFirst_eq_none hbody]
  | some k =>
    have hafter : afterFirst '=' (body ++ '=' :: [sanLetter k]) = some [sanLetter k] :=
      afterFirst_append hbody _
    have htake : (body ++ '=' :: [sanLetter k]).takeWhile (· != '=') = body := by
      rw [List.takeWhile_append_of_pos]
      · simp
      · intro c hc
        simpa using fun h : c = '=' => hbody (h ▸ hc)
    simp only [promotionText, splitPromotion, hafter, promotionOf_sanLetter (hpr k rfl), htake]

/-- A token that ends in a destination, a promotion and a sign leaves what
stands before the destination. -/
theorem parseSan_append {head : Text} {dest : Square} {pr : Option Kind} {sign : Option Char}
    (hhead : '=' ∉ head) (hfirst : head.head? ≠ some 'O' ∧ head.head? ≠ some '0')
    (hpr : ∀ k, pr = some k → k ∈ promotionKinds)
    (hsign : sign = none ∨ sign = some '+' ∨ sign = some '#') :
    parseSan (head ++ dest.name ++ promotionText pr ++ signText sign) =
      parseHead (head ++ dest.name) dest pr sign head := by
  have hfile := fileChar_plain dest.file
  have hrank := rankChar_plain dest.rank
  have hbody : '=' ∉ head ++ dest.name := by
    simp [hhead, Square.name, hfile.2.2.1.symm, hrank.1.symm]
  have hlookup :
      castles.lookup (head ++ dest.name ++ promotionText pr ++ signText sign) = none := by
    cases head with
    | nil => exact castles_lookup hfile.1 hfile.2.1
    | cons c head =>
      exact castles_lookup (by simpa using hfirst.1) (by simpa using hfirst.2)
  have hlast : (head ++ dest.name ++ promotionText pr).getLast? ≠ some '+' ∧
      (head ++ dest.name ++ promotionText pr).getLast? ≠ some '#' := by
    cases pr with
    | none => simp [promotionText, Square.name, hrank]
    | some k =>
      have hletter := sanLetter_plain k
      simp [promotionText, hletter]
  have hlen : (head ++ dest.name).length - 2 = head.length := by simp [Square.name]
  have hdest : squareOf? dest.name = some dest := squareOf?_eq_some.mpr rfl
  simp only [parseSan, hlookup, splitSuffix_append hsign hlast]
  rw [splitPromotion_append hbody hpr]
  simp only [bind, Except.bind, hlen, List.drop_left, List.take_left, hdest]

/-! ### What stands before the destination -/

theorem parseHead_quiet (token : Text) (dest : Square) (pr : Option Kind) (sign : Option Char) :
    parseHead token dest pr sign [] = .ok (.move .pawn dest false pr none none sign) := rfl

theorem parseHead_take (token : Text) (dest : Square) (pr : Option Kind) (sign : Option Char)
    (f : Fin 8) : parseHead token dest pr sign [fileChar f, 'x'] =
      .ok (.move .pawn dest true pr (some f) none sign) := by
  simp [parseHead, splitCapture, splitPiece, officerOf_fileChar, disambiguate, fileOf_fileChar,
    bind, Except.bind]

theorem parseHead_officer (token : Text) (dest : Square) (pr : Option Kind) (sign : Option Char)
    (s : Square) {k : Kind} (hk : k ≠ .pawn) (capture : Bool) :
    parseHead token dest pr sign
        (sanLetter k :: s.name ++ (if capture then ['x'] else [])) =
      .ok (.move k dest capture pr (some s.file) (some s.rank) sign) := by
  have hx := (rankChar_plain s.rank).2.2.2
  cases capture <;>
    simp [parseHead, splitCapture, splitPiece, Square.name, officerOf_sanLetter hk, disambiguate,
      fileOf_fileChar, fileOf_rankChar, rankOf_rankChar, bind, Except.bind, hk, hx]

namespace Board

variable {B : Board} {m n : Move} {p q : Piece} {L : List Move}

/-- The fields written into the text of a move that is not castling. -/
def fields (p : Piece) (m : Move) (sign : Option Char) : San :=
  .move p.kind (square m.dest) m.capture m.promotion
    (if p.kind = .pawn ∧ m.capture = false then none else some (square m.frm).file)
    (if p.kind = .pawn then none else some (square m.frm).rank) sign

theorem parseSan_bareSan (hp : B.squares.get m.frm = some p) (hcastle : m.castle = none)
    (hpr : ∀ k, m.promotion = some k → k ∈ promotionKinds) {sign : Option Char}
    (hsign : sign = none ∨ sign = some '+' ∨ sign = some '#') :
    parseSan (B.bareSan m ++ signText sign) = .ok (fields p m sign) := by
  have hfile := fileChar_plain (square m.frm).file
  have hrank := rankChar_plain (square m.frm).rank
  by_cases hk : p.kind = .pawn
  · cases hc : m.capture with
    | false =>
      have hbare : B.bareSan m = [] ++ (square m.dest).name ++ promotionText m.promotion := by
        simp [bareSan, hcastle, hp, hk, hc]
      rw [hbare, parseSan_append (by simp) (by simp) hpr hsign, parseHead_quiet]
      simp [fields, hk, hc]
    | true =>
      have hbare : B.bareSan m = [fileChar (square m.frm).file, 'x'] ++ (square m.dest).name ++
          promotionText m.promotion := by
        simp [bareSan, hcastle, hp, hk, hc]
      rw [hbare, parseSan_append (by simp [hfile.2.2.1.symm]) (by simp [hfile]) hpr hsign,
        parseHead_take]
      simp [fields, hk, hc]
  · have hletter := sanLetter_plain p.kind
    have hbare : B.bareSan m = (sanLetter p.kind :: (square m.frm).name ++
        (if m.capture then ['x'] else [])) ++ (square m.dest).name ++
          promotionText m.promotion := by
      obtain ⟨c, k⟩ := p
      cases k with
      | pawn => exact absurd rfl hk
      | _ => simp [bareSan, hcastle, hp]
    have hmem : '=' ∉ sanLetter p.kind :: (square m.frm).name ++
        (if m.capture then ['x'] else []) := by
      cases m.capture <;>
        simp [Square.name, hletter.2.2.1.symm, hfile.2.2.1.symm, hrank.1.symm]
    rw [hbare, parseSan_append hmem (by simp [hletter]) hpr hsign, parseHead_officer _ _ _ _ _ hk]
    simp [fields, hk]

/-! ### Among the legal moves -/

theorem filter_eq_singleton {α : Type} [DecidableEq α] {l : List α} (hl : l.Nodup) {a : α}
    (ha : a ∈ l) {f : α → Bool} (hf : ∀ b ∈ l, f b = true ↔ b = a) : l.filter f = [a] := by
  have hcongr : l.filter f = l.filter (fun b => decide (b = a)) :=
    List.filter_congr fun b hb => by
      rw [Bool.eq_iff_iff, hf b hb, decide_eq_true_iff]
  rw [hcongr, List.filter_eq, List.count_eq_one_of_mem hl ha]
  rfl

theorem Sound.eq_of_fits (hS : B.Sound) (hL : B.legalMoves = some L) (hm : m ∈ L) (hn : n ∈ L)
    (hp : B.squares.get m.frm = some p) (hcastle : m.castle = none) {sign : Option Char}
    (hfits : B.fits (fields p m sign) n = true) : n = m := by
  obtain ⟨p', m₀, hp', hown, hm₀, hcore⟩ := hS.generated hL hm
  obtain rfl : p' = p := Option.some.inj (hp'.symm.trans hp)
  obtain ⟨q, n₀, hq, hown', hn₀, hcore'⟩ := hS.generated hL hn
  simp only [fits, fields, hq, Option.map_some, Bool.and_eq_true, beq_iff_eq, Option.some.injEq,
    index_square] at hfits
  obtain ⟨⟨⟨⟨⟨⟨hkind, hdest⟩, hcn⟩, hpr⟩, hcap⟩, hfile⟩, hrank⟩ := hfits
  have hfield : ∀ {α : Type} (f : Move → α), (∀ x, f (core x) = f x) →
      (∀ x, f (B.filled x) = f x) → f m = f m₀ ∧ f n = f n₀ := by
    intro α f hf hf'
    have h := congrArg f hcore
    have h' := congrArg f hcore'
    rw [hf, hf, hf'] at h h'
    exact ⟨h, h'⟩
  obtain ⟨hdm, hdn⟩ := hfield Move.dest (fun _ => rfl) (fun _ => rfl)
  obtain ⟨hpm, hpn⟩ := hfield Move.promotion (fun _ => rfl) (fun _ => rfl)
  obtain ⟨hcm', hcn'⟩ := hfield Move.castle (fun _ => rfl) (fun _ => rfl)
  obtain ⟨hxm, hxn⟩ := hfield Move.capture (fun _ => rfl) (fun _ => rfl)
  have hdest₀ : m₀.dest = n₀.dest := by rw [← hdm, ← hdn, hdest]
  have hcap₀ : m₀.capture = n₀.capture := by rw [← hxm, ← hxn, hcap]
  -- the written origin names the square, or the pawn moves leave only one
  have hsource : m.frm = n.frm := by
    by_cases hk : p'.kind = .pawn
    · have hkq : q.kind = .pawn := hkind.trans hk
      refine source_of_pawns hk hkq hp hq hm₀ hn₀ hdest₀ hcap₀ fun hc => ?_
      rw [← hxm] at hc
      have hf : (square n.frm).file = (square m.frm).file := by simpa [hk, hc] using hfile
      exact hf.symm
    · have hf : (square n.frm).file = (square m.frm).file := by simpa [hk] using hfile
      have hr : (square n.frm).rank = (square m.frm).rank := by simpa [hk] using hrank
      exact square_injective (Square.ext_xy (by rw [Square.x, Square.x, hf])
        (by rw [Square.y, Square.y, hr]))
  have hpq : p' = q := by
    rw [hsource, hq] at hp
    exact (Option.some.inj hp).symm
  rw [← hsource, ← hpq] at hn₀
  have heq : m₀ = n₀ := eq_of_movesOf hm₀ hn₀ (by rw [← hcm', hcastle]) (by rw [← hcn', hcn])
    hdest₀ (by rw [← hpm, ← hpn, hpr]) hcap₀
  exact List.inj_on_of_nodup_map (hS.nodup_core hL) hn hm (by rw [hcore, hcore', heq])

theorem Sound.eq_of_castle (hS : B.Sound) (hL : B.legalMoves = some L) (hm : m ∈ L) (hn : n ∈ L)
    {w : Wing} (hcm : m.castle = some w) (hcn : n.castle = some w) : n = m := by
  have hcore : ∀ {x : Move}, x ∈ L → x.castle = some w →
      core x = core (B.filled (castleMove B.turn w)) := by
    intro x hx hcx
    obtain ⟨p, x₀, -, -, hx₀, heq⟩ := hS.generated hL hx
    have hc := congrArg Move.castle heq
    change x.castle = x₀.castle at hc
    obtain ⟨-, v, -, -, rfl⟩ := castle_of_movesOf hx₀ (by simp [← hc, hcx])
    rw [hcx] at hc
    obtain rfl : w = v := Option.some.inj hc
    exact heq
  exact List.inj_on_of_nodup_map (hS.nodup_core hL) hn hm (by rw [hcore hm hcm, hcore hn hcn])

theorem sign_cases (m : Move) : m.sign = none ∨ m.sign = some '+' ∨ m.sign = some '#' := by
  unfold Move.sign
  split_ifs <;> simp

theorem checkSuffix_sign (token : Text) (m : Move) :
    checkSuffix token m (fields p m m.sign) = .ok m := by
  unfold Move.sign
  split_ifs with hmate hcheck <;> simp [checkSuffix, fields, *]

def castleText : Wing → Text
  | .kingside => "O-O".toList
  | .queenside => "O-O-O".toList

theorem bareSan_castle {w : Wing} (h : m.castle = some w) : B.bareSan m = castleText w := by
  rw [bareSan, h]
  cases w <;> rfl

theorem parseSan_castleText (w : Wing) : parseSan (castleText w) = .ok (.castle w) := by
  cases w <;> decide

theorem parseSan_castleText_sign (w : Wing) {c : Char} (hc : c = '+' ∨ c = '#') :
    parseSan (castleText w ++ [c]) = .error (.noDestination (castleText w)) := by
  rcases hc with rfl | rfl <;> cases w <;> decide

theorem Sound.matchSan_of_not_castle (hS : B.Sound) (hL : B.legalMoves = some L) (hm : m ∈ L)
    (hcastle : m.castle = none) : B.matchSan (B.standardSan m) = .ok m := by
  have hnodup : L.Nodup := List.Nodup.of_map _ (hS.nodup_core hL)
  obtain ⟨p, m₀, hp, hown, hm₀, hcore⟩ := hS.generated hL hm
  have hpr : ∀ k, m.promotion = some k → k ∈ promotionKinds := by
    intro k hk
    have heq := congrArg Move.promotion hcore
    change m.promotion = m₀.promotion at heq
    exact promotion_of_movesOf hm₀ (heq.symm.trans hk)
  have hself : B.fits (fields p m m.sign) m = true := by
    by_cases hk : p.kind = .pawn <;> cases hc : m.capture <;>
      simp [fits, fields, hp, hcastle, hk, hc]
  have hfilter : L.filter (B.fits (fields p m m.sign)) = [m] :=
    filter_eq_singleton hnodup hm fun n hn =>
      ⟨hS.eq_of_fits hL hm hn hp hcastle, fun heq => heq ▸ hself⟩
  unfold matchSan standardSan
  rw [parseSan_bareSan hp hcastle hpr (sign_cases m)]
  simp only [bind, Except.bind, hL, hfilter, checkSuffix_sign]

/-- A candidate that keeps the king safe is matched by its text, whatever the other
legal moves are. -/
theorem Sound.matchSan_of_playable {n : Move} (hS : B.Sound) (hplay : B.playable n = true)
    (hann : B.annotate (B.filled n) = some m) (hcastle : m.castle = none) :
    B.matchSan (B.standardSan m) = .ok m := by
  obtain ⟨hcand, hsafe⟩ := safe_of_playable hplay
  obtain ⟨L, m', hL, hm', hann', -⟩ := hS.annotated hcand hsafe
  obtain rfl : m = m' := Option.some.inj (hann.symm.trans hann')
  exact hS.matchSan_of_not_castle hL hm' hcastle

/-- In every game, the written form of a legal move is matched to that move,
unless the move is castling with a check or mate sign. -/
theorem matchSan_standardSan_iff {ms : List Move} (h : Plays ms B)
    (hL : B.legalMoves = some L) (hm : m ∈ L) :
    B.matchSan (B.standardSan m) = .ok m ↔
      (m.castle = none ∨ (m.givesCheck = false ∧ m.givesMate = false)) := by
  have hS := sound_of_plays h
  have hnodup : L.Nodup := List.Nodup.of_map _ (hS.nodup_core hL)
  cases hcastle : m.castle with
  | none => simp [hS.matchSan_of_not_castle hL hm hcastle]
  | some w =>
    have hfilter : L.filter (B.fits (.castle w)) = [m] :=
      filter_eq_singleton hnodup hm fun n hn =>
        ⟨fun heq => hS.eq_of_castle hL hm hn hcastle (by simpa [fits] using heq),
          fun heq => by simp [fits, heq, hcastle]⟩
    have hrefused : ∀ c, c = '+' ∨ c = '#' → m.sign = some c →
        B.matchSan (B.standardSan m) ≠ .ok m := by
      intro c hc hsign
      unfold matchSan standardSan
      rw [bareSan_castle hcastle, hsign, signText, parseSan_castleText_sign w hc]
      simp [bind, Except.bind]
    cases hmate : m.givesMate with
    | true => simpa using hrefused '#' (.inr rfl) (by simp [Move.sign, hmate])
    | false =>
      cases hcheck : m.givesCheck with
      | true => simpa using hrefused '+' (.inl rfl) (by simp [Move.sign, hmate, hcheck])
      | false =>
        have hsign : m.sign = none := by simp [Move.sign, hmate, hcheck]
        have hmatch : B.matchSan (B.standardSan m) = .ok m := by
          unfold matchSan standardSan
          rw [bareSan_castle hcastle, hsign, signText, List.append_nil, parseSan_castleText]
          simp only [bind, Except.bind, hL, hfilter, checkSuffix]
        simp [hmatch]

theorem opening_kingPawn : initial.playable kingPawn = true ∧
    initial.annotate (initial.filled kingPawn) = some (initial.filled kingPawn) ∧
    initial.standardSan (initial.filled kingPawn) = "e4".toList := by
  decide +kernel

theorem playable_kingPawn : initial.playable kingPawn = true := by
  obtain ⟨h, -⟩ := opening_kingPawn
  exact h

theorem annotate_kingPawn :
    initial.annotate (initial.filled kingPawn) = some (initial.filled kingPawn) := by
  obtain ⟨-, h, -⟩ := opening_kingPawn
  exact h

theorem standardSan_kingPawn :
    initial.standardSan (initial.filled kingPawn) = "e4".toList := by
  obtain ⟨-, -, h⟩ := opening_kingPawn
  exact h

theorem matchSan_standardSan_iff_sample :
    initial.matchSan "e4".toList = .ok (initial.filled kingPawn) := by
  obtain ⟨hcand, hsafe⟩ := safe_of_playable playable_kingPawn
  obtain ⟨L, m, hL, hm, hann, -⟩ := sound_initial.annotated hcand hsafe
  obtain rfl : initial.filled kingPawn = m := by
    rw [annotate_kingPawn] at hann
    exact Option.some.inj hann
  rw [← standardSan_kingPawn]
  exact (matchSan_standardSan_iff .start hL hm).mpr (.inl rfl)

theorem annotate_of_reply {n : Move} {k : Fin 64} (hS : (B.apply m).Sound)
    (hk : (B.apply m).kingSquare B.turn.other = some k)
    (hcheck : (B.apply m).attacked k B.turn = true) (hreply : (B.apply m).playable n = true) :
    B.annotate m = some { m with givesCheck := true, givesMate := false } := by
  obtain ⟨K, hK, hmem⟩ := hS.plainLegalMoves
  obtain ⟨hcand, hsafe⟩ := safe_of_playable hreply
  have hfound : (B.apply m).filled n ∈ K := (hmem _).mpr ⟨n, hcand, rfl, hsafe⟩
  have hsome : K.isEmpty = false := by
    rw [List.isEmpty_eq_false_iff]
    exact List.ne_nil_of_mem hfound
  simp [annotate, hk, hcheck, hK, hsome]

/-- `1. f4 e5 2. fxe5 Ke7 3. Nh3 Ke6 4. g3 Kf5 5. Bg2 a6`, with White about to castle. -/
def castleGame : List Move :=
  [quiet (index ⟨5, 1⟩) (index ⟨5, 3⟩), quiet (index ⟨4, 6⟩) (index ⟨4, 4⟩),
    { quiet (index ⟨5, 3⟩) (index ⟨4, 4⟩) with capture := true },
    quiet (index ⟨4, 7⟩) (index ⟨4, 6⟩), quiet (index ⟨6, 0⟩) (index ⟨7, 2⟩),
    quiet (index ⟨4, 6⟩) (index ⟨4, 5⟩), quiet (index ⟨6, 1⟩) (index ⟨6, 2⟩),
    quiet (index ⟨4, 5⟩) (index ⟨5, 4⟩), quiet (index ⟨5, 0⟩) (index ⟨6, 1⟩),
    quiet (index ⟨0, 6⟩) (index ⟨0, 5⟩)]

/-- The legal castling move gives check, and its text is refused. -/
theorem castle_check_refused : ∃ ms B L m, Plays ms B ∧ initial.follow castleGame = some B ∧
    B.legalMoves = some L ∧ m ∈ L ∧ B.standardSan m = "O-O+".toList ∧
      B.matchSan (B.standardSan m) = .error (.noDestination "O-O".toList) := by
  have hgame : (initial.follow castleGame).any (fun B =>
      let after := B.apply (B.filled (castleMove .white .kingside))
      B.playable (castleMove .white .kingside) &&
        (after.kingSquare B.turn.other).any (after.attacked · B.turn) &&
        after.playable (quiet (index ⟨5, 4⟩) (index ⟨6, 5⟩))) = true := by
    decide +kernel
  obtain ⟨B, hB, hcastle⟩ := (Option.any_eq_true _ _).mp hgame
  simp only [Bool.and_eq_true, Option.any_eq_true] at hcastle
  obtain ⟨⟨hplay, k, hk, hcheck⟩, hreply⟩ := hcastle
  obtain ⟨ms, hms⟩ := plays_of_follow .start hB
  obtain ⟨hcand, hsafe⟩ := safe_of_playable hplay
  obtain ⟨L, m, hL, hm, hann, happly⟩ := (sound_of_plays hms).annotated hcand hsafe
  have hafter := (sound_of_plays hms).apply_legal hL hm
  rw [happly] at hafter
  obtain rfl := Option.some.inj ((annotate_of_reply hafter hk hcheck hreply).symm.trans hann)
  exact ⟨ms, B, L, _, hms, hB, hL, hm, rfl, rfl⟩

end Board
end Pgn
end OpenChess
