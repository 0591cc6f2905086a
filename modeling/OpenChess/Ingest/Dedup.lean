import OpenChess.Ingest.Schemas
import OpenChess.Jobs.Json
import OpenChess.Lib.Separated

/-!
# De-duplication

Model of `identity_of`, `content_hash_of` and `DedupStore.add` of `ingest/dedup.py`. A game
without a site is known by the hash of five fields that are joined with a bar, so it is told
from every other such game exactly where none of its fields holds a bar.
-/

namespace OpenChess
namespace Dedup

open Pgn (Tags)
open Schemas (GameRow)

def member (name : String) (v : Value) : Scalar × Value := (.str name.toList, v)

def textOrNull : Option Text → Value
  | none => .null
  | some t => .str t

def dictOf (tags : Tags) : Value := .dict (tags.map fun e => (.str e.1, .str e.2))

def gameMembers (row : GameRow) : List (Scalar × Value) :=
  [member "identifiers" (dictOf row.identifiers), member "headers" (dictOf row.headers),
    member "movetext" (.str row.movetext), member "site_url" (textOrNull row.siteUrl),
    member "white" (textOrNull row.white), member "black" (textOrNull row.black),
    member "result" (textOrNull row.result), member "utc_date" (textOrNull row.utcDate),
    member "time_control" (textOrNull row.timeControl),
    member "termination" (textOrNull row.termination), member "source_file" (.str row.sourceFile),
    member "license" (.str row.license)]

/-- A normalized record. Puzzles and evaluations are known by one text of their rows. -/
inductive Normalized
  | game (row : GameRow)
  | puzzle (puzzleId : Text) (others : List (Scalar × Value))
  | eval (fen : Text) (others : List (Scalar × Value))
  | other (schemaName : Text) (row : List (Scalar × Value))

def Normalized.schemaName : Normalized → Text
  | .game _ => "game".toList
  | .puzzle _ _ => "puzzle".toList
  | .eval _ _ => "eval".toList
  | .other name _ => name

def Normalized.row : Normalized → List (Scalar × Value)
  | .game row => gameMembers row
  | .puzzle puzzleId others => member "puzzle_id" (.str puzzleId) :: others
  | .eval fen others => member "fen" (.str fen) :: others
  | .other _ row => row

/-- White, Black, UTCDate, UTCTime and the movetext; an absent tag is empty. -/
def fields (row : GameRow) : List Text :=
  let get := fun name : String => (row.identifiers.lookup name.toList).getD []
  [get "White", get "Black", get "UTCDate", get "UTCTime", row.movetext]

/-- The text `identity_of` hashes for a game without a site. -/
def basis (row : GameRow) : Text := ['|'].intercalate (fields row)

def Anonymous (row : GameRow) : Prop := row.siteUrl.getD [] = []

instance : DecidablePred Anonymous := fun row => inferInstanceAs (Decidable (row.siteUrl.getD [] = []))

variable (sha : Hex.Hash 64)

/-- `identity_of`; a schema without a rule is a `ValueError` that names it. -/
def identityOf : Normalized → Except Text Text
  | .puzzle puzzleId _ => .ok ("puzzle:".toList ++ puzzleId)
  | .eval fen _ => .ok ("eval:".toList ++ fen)
  | .game row =>
    if Anonymous row then .ok ("game:anon:".toList ++ sha.hexdigest (basis row))
    else .ok ("game:".toList ++ row.siteUrl.getD [])
  | .other name _ => .error name

/-- `content_hash_of`. -/
def contentHashOf (n : Normalized) : Text :=
  sha.hexdigest (Json.dumps true
    (.dict (n.row.filter fun e => decide (e.1 ≠ .str "source_file".toList))))

/-! ### The store -/

/-- A row of `dedup_records`; the payload is the row that is written down. -/
structure Entry where
  identity : Text
  schemaName : Text
  contentHash : Text
  payload : List (Scalar × Value)

/-- A row of `dedup_conflicts`. -/
structure Conflict where
  identity : Text
  schemaName : Text
  retainedHash : Text
  rejectedHash : Text
  retainedPayload : List (Scalar × Value)
  rejectedPayload : List (Scalar × Value)

structure Database where
  records : List Entry
  provenance : List (Text × Text × Text)
  conflicts : List Conflict

inductive Outcome
  | inserted
  | duplicate
  | conflict
  deriving DecidableEq, Repr

def Database.find (db : Database) (identity schemaName : Text) : Option Entry :=
  db.records.find? fun e => decide (e.identity = identity ∧ e.schemaName = schemaName)

/-- `INSERT OR IGNORE INTO dedup_provenance`. -/
def Database.seen (db : Database) (identity schemaName sourceFile : Text) : Database :=
  if (identity, schemaName, sourceFile) ∈ db.provenance then db
  else { db with provenance := db.provenance ++ [(identity, schemaName, sourceFile)] }

/-- `INSERT OR IGNORE INTO dedup_conflicts`. -/
def Database.conflicting (db : Database) (c : Conflict) : Database :=
  if db.conflicts.any fun c' => decide (c'.identity = c.identity ∧ c'.schemaName = c.schemaName ∧
      c'.rejectedHash = c.rejectedHash) then db
  else { db with conflicts := db.conflicts ++ [c] }

/-- `DedupStore.add` once the record has its identity. -/
def addAs (identity : Text) (db : Database) (n : Normalized) (sourceFile : Text) :
    Outcome × Database :=
  let db := db.seen identity n.schemaName sourceFile
  match db.find identity n.schemaName with
  | none => (.inserted, { db with records :=
      db.records ++ [⟨identity, n.schemaName, contentHashOf sha n, n.row⟩] })
  | some existing =>
    if existing.contentHash = contentHashOf sha n then (.duplicate, db)
    else (.conflict, db.conflicting ⟨identity, n.schemaName, existing.contentHash,
      contentHashOf sha n, existing.payload, n.row⟩)

/-- `DedupStore.add`. -/
def add (db : Database) (n : Normalized) (sourceFile : Text) : Except Text (Outcome × Database) :=
  (identityOf sha n).map fun identity => addAs sha identity db n sourceFile

/-- In some store the second record is new, but not once the first one was added. -/
def Merges (a b : Normalized) : Prop :=
  ∃ db sourceFile sourceFile' new after verdict,
    add sha db b sourceFile' = .ok (.inserted, new) ∧ add sha db a sourceFile = .ok after ∧
      add sha after.2 b sourceFile' = .ok verdict ∧ verdict.1 ≠ .inserted

/-- Every other game without a site is hashed from another text, and is never merged with
this one unless the hash collides on the two texts. -/
def Distinguished (row : GameRow) : Prop :=
  ∀ row', Anonymous row' → fields row' ≠ fields row → basis row' ≠ basis row ∧
    (sha.Separates (basis row) (basis row') →
      ¬ Merges sha (.game row) (.game row') ∧ ¬ Merges sha (.game row') (.game row))

variable {sha} {db : Database} {a b n : Normalized} {row row' : GameRow}
  {identity identity' schemaName sourceFile : Text}

/-! ### One record -/

theorem find_seen : (db.seen identity schemaName sourceFile).find = db.find := by
  unfold Database.seen
  split_ifs <;> rfl

theorem find_conflicting (c : Conflict) : (db.conflicting c).find = db.find := by
  unfold Database.conflicting
  split_ifs <;> rfl

theorem outcome_addAs :
    (addAs sha identity db n sourceFile).1 = .inserted ↔ db.find identity n.schemaName = none := by
  unfold addAs
  dsimp only
  rw [find_seen]
  cases db.find identity n.schemaName with
  | none => simp
  | some existing =>
    dsimp only
    split_ifs <;> simp

/-- Adding a record adds a row under its key, if there is none, and leaves the others. -/
theorem find_addAs : (addAs sha identity db n sourceFile).2.find identity' schemaName =
    (db.find identity' schemaName).or (if identity = identity' ∧ n.schemaName = schemaName then
      some ⟨identity, n.schemaName, contentHashOf sha n, n.row⟩ else none) := by
  unfold addAs
  dsimp only
  rw [find_seen]
  cases hfind : db.find identity n.schemaName with
  | none =>
    have hrecords : (db.seen identity n.schemaName sourceFile).records = db.records := by
      unfold Database.seen
      split_ifs <;> rfl
    simp only [Database.find, hrecords, List.find?_append, List.find?_singleton,
      decide_eq_true_eq]
  | some existing =>
    have hkept : (db.find identity' schemaName).or (if identity = identity' ∧ n.schemaName = schemaName
        then some ⟨identity, n.schemaName, contentHashOf sha n, n.row⟩ else none) =
        db.find identity' schemaName := by
      by_cases hkey : identity = identity' ∧ n.schemaName = schemaName
      · rw [← hkey.1, ← hkey.2, hfind]
        rfl
      · rw [if_neg hkey, Option.or_none]
    dsimp only
    rw [hkept]
    split_ifs
    · rw [find_seen]
    · rw [find_conflicting, find_seen]

theorem add_of_identity (h : identityOf sha n = .ok identity) :
    add sha db n sourceFile = .ok (addAs sha identity db n sourceFile) := by
  rw [add, h]
  rfl

/-- Records are merged exactly where they have one identity. -/
theorem merges_iff (ha : identityOf sha a = .ok identity) (hb : identityOf sha b = .ok identity') :
    Merges sha a b ↔ identity = identity' ∧ a.schemaName = b.schemaName := by
  constructor
  · rintro ⟨db, file, file', new, after, verdict, hnew, hafter, hverdict, hmerged⟩
    rw [add_of_identity hb, Except.ok.injEq] at hnew hverdict
    rw [add_of_identity ha, Except.ok.injEq] at hafter
    have hfirst := outcome_addAs.mp (congrArg Prod.fst hnew)
    rw [← hverdict, ne_eq, outcome_addAs, ← hafter, find_addAs, hfirst, Option.none_or] at hmerged
    by_contra hkey
    exact hmerged (if_neg hkey)
  · rintro ⟨rfl, hschema⟩
    have hnone : (⟨[], [], []⟩ : Database).find identity b.schemaName = none := rfl
    refine ⟨⟨[], [], []⟩, [], [], (addAs sha identity ⟨[], [], []⟩ b []).2, _, _, ?_,
      add_of_identity ha, add_of_identity hb, ?_⟩
    · rw [add_of_identity hb, Except.ok.injEq]
      exact Prod.ext (outcome_addAs.mpr hnone) rfl
    · rw [ne_eq, outcome_addAs, find_addAs, hnone, Option.none_or, if_pos ⟨rfl, hschema⟩]
      exact Option.some_ne_none _

/-! ### Games without a site -/

theorem identityOf_anonymous (h : Anonymous row) : identityOf sha (.game row) =
    .ok ("game:anon:".toList ++ sha.hexdigest (basis row)) := if_pos h

theorem merges_game_iff (h : Anonymous row) (h' : Anonymous row') :
    Merges sha (.game row) (.game row') ↔
      sha.hexdigest (basis row) = sha.hexdigest (basis row') := by
  rw [merges_iff (identityOf_anonymous h) (identityOf_anonymous h'), List.append_right_inj]
  exact and_iff_left rfl

/-- A game of these fields. -/
def played (white black utcDate utcTime movetext : Text) : GameRow :=
  let tags := [("White".toList, white), ("Black".toList, black), ("UTCDate".toList, utcDate),
    ("UTCTime".toList, utcTime)]
  { identifiers := tags, headers := tags, movetext, siteUrl := none, white := some white,
    black := some black, result := none, utcDate := some utcDate, timeControl := none,
    termination := none, sourceFile := [], license := "CC0".toList }

theorem fields_played (white black utcDate utcTime movetext : Text) :
    fields (played white black utcDate utcTime movetext) =
      [white, black, utcDate, utcTime, movetext] := rfl

theorem exists_fields {ls : List Text} (h : ls.length = 5) :
    ∃ row, Anonymous row ∧ fields row = ls := by
  obtain ⟨a, b, c, d, e, rfl⟩ : ∃ a b c d e, ls = [a, b, c, d, e] := by
    obtain _ | ⟨a, _ | ⟨b, _ | ⟨c, _ | ⟨d, _ | ⟨e, _ | ⟨f, ls⟩⟩⟩⟩⟩⟩ := ls <;> simp at h ⊢
  exact ⟨played a b c d e, rfl, fields_played a b c d e⟩

theorem exists_same_basis {t : Text} (ht : t ∈ fields row) (hbar : '|' ∈ t) :
    ∃ row', Anonymous row' ∧ fields row' ≠ fields row ∧ basis row' = basis row := by
  have hlength : 2 ≤ (fields row).length := by simp [fields]
  obtain ⟨ls, hls, hne, hjoin⟩ := Separated.exists_intercalate_eq ht hbar hlength
  obtain ⟨row', hanonymous, rfl⟩ := exists_fields hls
  exact ⟨row', hanonymous, hne, hjoin⟩

/-- A game without a site is told from every other such game exactly where none of its
fields holds a bar; one that holds a bar is merged with another game, whatever the hash. -/
theorem distinguished_iff (sha : Hex.Hash 64) (row : GameRow) (h : Anonymous row) :
    (Distinguished sha row ↔ ∀ t ∈ fields row, '|' ∉ t) ∧
    ((∃ t ∈ fields row, '|' ∈ t) → ∃ row', Anonymous row' ∧ fields row' ≠ fields row ∧
      Merges sha (.game row) (.game row')) := by
  refine ⟨⟨fun hdistinguished t ht hbar => ?_, fun hfree row' h' hne => ?_⟩, ?_⟩
  · obtain ⟨row', h', hne, hbasis⟩ := exists_same_basis ht hbar
    exact (hdistinguished row' h' hne).1 hbasis
  · have hbasis : basis row' ≠ basis row := fun heq =>
      have hlength : (fields row).length = (fields row').length := rfl
      hne (Separated.eq_of_intercalate hfree hlength heq.symm).symm
    refine ⟨hbasis, fun hseparates => ⟨fun hmerges => ?_, fun hmerges => ?_⟩⟩
    · exact hbasis (hseparates ((merges_game_iff h h').mp hmerges)).symm
    · exact hbasis (hseparates ((merges_game_iff h' h).mp hmerges).symm).symm
  · rintro ⟨t, ht, hbar⟩
    obtain ⟨row', h', hne, hbasis⟩ := exists_same_basis ht hbar
    exact ⟨row', h', hne, (merges_game_iff h h').mpr (by rw [hbasis])⟩

theorem distinguished_iff_played :
    (Distinguished (Hex.Hash.lengths 64) (played ['a'] ['b'] [] [] ['*']) ↔
      ∀ t ∈ fields (played ['a'] ['b'] [] [] ['*']), '|' ∉ t) ∧
    ((∃ t ∈ fields (played ['a'] ['b'] [] [] ['*']), '|' ∈ t) → ∃ row', Anonymous row' ∧
      fields row' ≠ fields (played ['a'] ['b'] [] [] ['*']) ∧
      Merges (Hex.Hash.lengths 64) (.game (played ['a'] ['b'] [] [] ['*'])) (.game row')) :=
  distinguished_iff _ _ rfl

def gameOf (white black : Text) : Text :=
  "[White \"".toList ++ white ++ "\"]\n[Black \"".toList ++ black ++ "\"]\n\n1. e4 *".toList

def rowOf (white black : Text) : GameRow :=
  let tags := [("White".toList, white), ("Black".toList, black)]
  { identifiers := tags, headers := tags, movetext := "1. e4 *".toList, siteUrl := none,
    white := some white, black := some black, result := none, utcDate := none,
    timeControl := none, termination := none, sourceFile := [], license := "CC0".toList }

/-- Games of different players, with a bar in a name, are merged whatever the hash. -/
theorem players_merged :
    Schemas.adaptGamePgn (gameOf ['a', '|', 'b'] ['c']) [] "CC0".toList =
      .ok (rowOf ['a', '|', 'b'] ['c']) ∧
    Schemas.adaptGamePgn (gameOf ['a'] ['b', '|', 'c']) [] "CC0".toList =
      .ok (rowOf ['a'] ['b', '|', 'c']) ∧
    Anonymous (rowOf ['a', '|', 'b'] ['c']) ∧ Anonymous (rowOf ['a'] ['b', '|', 'c']) ∧
    fields (rowOf ['a', '|', 'b'] ['c']) ≠ fields (rowOf ['a'] ['b', '|', 'c']) ∧
    basis (rowOf ['a', '|', 'b'] ['c']) = basis (rowOf ['a'] ['b', '|', 'c']) ∧
    ∀ sha, Merges sha (.game (rowOf ['a', '|', 'b'] ['c'])) (.game (rowOf ['a'] ['b', '|', 'c'])) := by
  have hbasis : basis (rowOf ['a', '|', 'b'] ['c']) = basis (rowOf ['a'] ['b', '|', 'c']) := by
    decide
  have hsite : ∀ white black, Anonymous (rowOf white black) := fun _ _ => rfl
  refine ⟨by decide +kernel, by decide +kernel, hsite _ _, hsite _ _, by decide, hbasis,
    fun sha => ?_⟩
  exact (merges_game_iff (hsite _ _) (hsite _ _)).mpr (by rw [hbasis])

end Dedup
end OpenChess
