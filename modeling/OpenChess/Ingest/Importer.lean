import OpenChess.Ingest.Streaming
import OpenChess.Ingest.PgnTags
import OpenChess.Lib.Hex
import OpenChess.Lib.KeyedLog

/-!
# The importer

Model of `Importer` of `ingest/streaming.py`. A row is keyed by the content of its game, and
a key that is there is ignored. A run that a limit cancels leaves the rows of the games
before it, and a later run takes them as they are.
-/

namespace OpenChess
namespace Streaming

open LineText
open Pgn (isLineBreak isSpace)

/-- The text that is hashed for a key: the lines of the stripped text without the blanks at
their ends. -/
def normalized (gameText : Text) : Text :=
  ['\n'].intercalate ((splitLines isLineBreak (strip isSpace gameText)).map fun l =>
    l.rdropWhile isSpace)

/-- `game_key`. -/
def gameKey (sha : Hex.Hash 64) (gameText : Text) : Text := sha.hexdigest (normalized gameText)

/-- A row of `games`. -/
structure Row where
  gamePk : Text
  seqFirstSeen : ℕ
  sourceFile : Text
  gameText : Text
  deriving DecidableEq, Repr

/-- A row of `import_runs`. -/
structure ImportRun where
  sourceFile : Text
  gamesEmitted : ℕ
  rowsInserted : ℕ
  deriving DecidableEq, Repr

structure Database where
  games : List Row
  importRuns : List ImportRun

/-- `INSERT OR IGNORE INTO games`, with the count of the rows inserted. -/
def insertOrIgnore (rows : List Row) (row : Row) : List Row × ℕ :=
  if row.gamePk ∈ rows.map Row.gamePk then (rows, 0) else (rows ++ [row], 1)

def rowOf (sha : Hex.Hash 64) (source : Text) (game : ℕ × Text) : Row :=
  ⟨gameKey sha game.2, game.1, source, game.2⟩

/-- `limit is not None and emitted >= limit`. -/
def reached (limit : Option ℤ) (emitted : ℕ) : Bool := limit.any fun l => decide (l ≤ (emitted : ℤ))

/-- The loop of `import_file`: the rows, and the counts of games and of rows inserted. -/
def insertGames (sha : Hex.Hash 64) (source : Text) (limit : Option ℤ) :
    List (ℕ × Text) → List Row → ℕ → ℕ → List Row × ℕ × ℕ
  | [], rows, emitted, inserted => (rows, emitted, inserted)
  | game :: games, rows, emitted, inserted =>
    let out := insertOrIgnore rows (rowOf sha source game)
    if reached limit (emitted + 1) then (out.1, emitted + 1, inserted + out.2)
    else insertGames sha source limit games out.1 (emitted + 1) (inserted + out.2)

/-- A call of `import_file` but for the file. -/
structure ImportCall where
  limit : Option ℤ
  chunkSize : ℕ

/-- `import_file`: the database it leaves and the counts it returns. -/
def importFile (sha : Hex.Hash 64) (Z : Zstd) (source : Text) (file : PgnFile) (db : Database)
    (call : ImportCall) : Database × ℕ × ℕ :=
  let out := insertGames sha source call.limit (iterPgnGames Z file call.chunkSize) db.games 0 0
  (⟨out.1, db.importRuns ++ [⟨source, out.2.1, out.2.2⟩]⟩, out.2)

/-- Calls one after the other: the database they leave, and the sum of the rows inserted. -/
def importAll (sha : Hex.Hash 64) (Z : Zstd) (source : Text) (file : PgnFile) :
    Database → List ImportCall → Database × ℕ
  | db, [] => (db, 0)
  | db, call :: calls =>
    let out := importFile sha Z source file db call
    ((importAll sha Z source file out.1 calls).1,
      out.2.2 + (importAll sha Z source file out.1 calls).2)

variable {sha : Hex.Hash 64} {Z : Zstd} {source : Text} {file : PgnFile} {db : Database}
  {call : ImportCall} {calls : List ImportCall} {rows : List Row} {row : Row}
  {games : List (ℕ × Text)} {limit : Option ℤ} {emitted inserted n m k : ℕ}

/-! ### One run -/

theorem insertOrIgnore_eq : insertOrIgnore rows row =
    (KeyedLog.extend Row.gamePk rows [row],
      (KeyedLog.extend Row.gamePk rows [row]).length - rows.length) := by
  unfold insertOrIgnore KeyedLog.extend KeyedLog.fresh
  split_ifs
  · simp [KeyedLog.fresh]
  · simp [KeyedLog.fresh]

theorem length_le_extend (rows batch : List Row) :
    rows.length ≤ (KeyedLog.extend Row.gamePk rows batch).length := by
  rw [KeyedLog.extend, List.length_append]
  exact Nat.le_add_right _ _

/-- A run takes some first games, all where there is no limit, and counts the rows that are
new. -/
theorem insertGames_spec (sha : Hex.Hash 64) (source : Text) (limit : Option ℤ)
    (games : List (ℕ × Text)) (rows : List Row) (emitted inserted : ℕ) :
    ∃ taken, taken <+: games ∧ (limit = none → taken = games) ∧
      (insertGames sha source limit games rows emitted inserted).1 =
        KeyedLog.extend Row.gamePk rows (taken.map (rowOf sha source)) ∧
      (insertGames sha source limit games rows emitted inserted).2.2 + rows.length =
        inserted + (KeyedLog.extend Row.gamePk rows (taken.map (rowOf sha source))).length := by
  induction games generalizing rows emitted inserted with
  | nil =>
    refine ⟨[], List.prefix_rfl, fun _ => rfl, ?_, ?_⟩ <;>
      simp [insertGames, KeyedLog.extend, KeyedLog.fresh]
  | cons game games ih =>
    have hgrows := length_le_extend rows [rowOf sha source game]
    rw [insertGames]
    simp only [insertOrIgnore_eq]
    split_ifs with hreached
    · refine ⟨[game], ⟨games, rfl⟩, ?_, rfl, ?_⟩
      · rintro rfl
        cases hreached
      · rw [List.map_singleton]
        dsimp only
        omega
    · obtain ⟨taken, htaken, hall, hrows, hcount⟩ := ih
        (KeyedLog.extend Row.gamePk rows [rowOf sha source game]) (emitted + 1)
        (inserted + ((KeyedLog.extend Row.gamePk rows [rowOf sha source game]).length - rows.length))
      have hcons : KeyedLog.extend Row.gamePk rows ((game :: taken).map (rowOf sha source)) =
          KeyedLog.extend Row.gamePk (KeyedLog.extend Row.gamePk rows [rowOf sha source game])
            (taken.map (rowOf sha source)) := by
        rw [KeyedLog.extend_extend]
        rfl
      refine ⟨game :: taken, List.cons_prefix_cons.mpr ⟨rfl, htaken⟩,
        fun hnone => congrArg (game :: ·) (hall hnone), ?_, ?_⟩
      · rw [hrows, hcons]
      · rw [hcons]
        omega

def fileRows (sha : Hex.Hash 64) (Z : Zstd) (source : Text) (file : PgnFile) : List Row :=
  (iterPgnGames Z file 1).map (rowOf sha source)

theorem importFile_spec (sha : Hex.Hash 64) (Z : Zstd) (source : Text) (file : PgnFile)
    (db : Database) (call : ImportCall) (hchunk : 0 < call.chunkSize) :
    ∃ taken, taken <+: fileRows sha Z source file ∧
      (call.limit = none → taken = fileRows sha Z source file) ∧
      (importFile sha Z source file db call).1.games = KeyedLog.extend Row.gamePk db.games taken ∧
      (importFile sha Z source file db call).2.2 + db.games.length =
        (importFile sha Z source file db call).1.games.length := by
  obtain ⟨taken, htaken, hall, hrows, hcount⟩ := insertGames_spec sha source call.limit
    (iterPgnGames Z file call.chunkSize) db.games 0 0
  have hgames : iterPgnGames Z file call.chunkSize = iterPgnGames Z file 1 := by
    rw [iterPgnGames_eq hchunk, iterPgnGames_eq Nat.one_pos]
  rw [hgames] at htaken hall
  refine ⟨taken.map (rowOf sha source), htaken.map _, fun hnone => ?_, hrows, ?_⟩
  · rw [hall hnone, fileRows]
  · rw [Nat.zero_add, ← hrows] at hcount
    exact hcount

theorem games_full (sha : Hex.Hash 64) (Z : Zstd) (source : Text) (file : PgnFile) (db : Database)
    (hn : 0 < n) :
    (importFile sha Z source file db ⟨none, n⟩).1.games =
      KeyedLog.extend Row.gamePk db.games (fileRows sha Z source file) ∧
    (importFile sha Z source file db ⟨none, n⟩).2.2 + db.games.length =
      (importFile sha Z source file db ⟨none, n⟩).1.games.length := by
  obtain ⟨taken, -, hall, hrows, hcount⟩ := importFile_spec sha Z source file db ⟨none, n⟩ hn
  exact ⟨by rw [hrows, hall rfl], hcount⟩

/-! ### Runs -/

theorem extend_of_prefix {taken batch : List Row} (h : taken <+: batch) (rows : List Row) :
    KeyedLog.extend Row.gamePk (KeyedLog.extend Row.gamePk rows taken) batch =
      KeyedLog.extend Row.gamePk rows batch := by
  obtain ⟨rest, rfl⟩ := h
  rw [← KeyedLog.extend_extend, KeyedLog.extend_self, KeyedLog.extend_extend]

/-- After any runs the rows of the file complete the database to what they complete it to
from the start, and the rows inserted are counted. -/
theorem importAll_spec (sha : Hex.Hash 64) (Z : Zstd) (source : Text) (file : PgnFile)
    (db : Database) (hchunks : ∀ call ∈ calls, 0 < call.chunkSize) :
    KeyedLog.extend Row.gamePk (importAll sha Z source file db calls).1.games
        (fileRows sha Z source file) =
      KeyedLog.extend Row.gamePk db.games (fileRows sha Z source file) ∧
    (importAll sha Z source file db calls).2 + db.games.length =
      (importAll sha Z source file db calls).1.games.length := by
  induction calls generalizing db with
  | nil => exact ⟨rfl, Nat.zero_add _⟩
  | cons call calls ih =>
    obtain ⟨hchunk, hrest⟩ := List.forall_mem_cons.mp hchunks
    obtain ⟨taken, htaken, -, hrows, hcount⟩ := importFile_spec sha Z source file db call hchunk
    obtain ⟨hcomplete, hsum⟩ := ih (importFile sha Z source file db call).1 hrest
    rw [importAll]
    dsimp only
    refine ⟨?_, by omega⟩
    rw [hcomplete, hrows, extend_of_prefix htaken]

theorem importAll_append (db : Database) (calls calls' : List ImportCall) :
    importAll sha Z source file db (calls ++ calls') =
      ((importAll sha Z source file (importAll sha Z source file db calls).1 calls').1,
        (importAll sha Z source file db calls).2 +
          (importAll sha Z source file (importAll sha Z source file db calls).1 calls').2) := by
  induction calls generalizing db with
  | nil => simp [importAll]
  | cons call calls ih => simp only [List.cons_append, importAll, ih, Nat.add_assoc]

/-- An import that was cancelled, any number of times and after any numbers of games, and
then run to the end leaves the rows of one run and has inserted as many. A second run to the
end inserts nothing. -/
theorem import_resumes (sha : Hex.Hash 64) (Z : Zstd) (source : Text) (file : PgnFile)
    (db : Database) (hcalls : ∀ call ∈ calls, 0 < call.chunkSize) (hn : 0 < n) (hm : 0 < m)
    (hk : 0 < k) :
    let resumed := importAll sha Z source file db (calls ++ [⟨none, n⟩])
    let whole := importFile sha Z source file db ⟨none, m⟩
    let again := importFile sha Z source file resumed.1 ⟨none, k⟩
    resumed.1.games = whole.1.games ∧ resumed.2 = whole.2.2 ∧ again.1.games = whole.1.games ∧
      again.2.2 = 0 := by
  intro resumed whole again
  have hchunks : ∀ call ∈ calls ++ [⟨none, n⟩], 0 < call.chunkSize := by
    intro call hcall
    rcases List.mem_append.mp hcall with hcall | hcall
    · exact hcalls call hcall
    · rw [List.mem_singleton.mp hcall]
      exact hn
  have hsum : resumed.2 + db.games.length = resumed.1.games.length :=
    (importAll_spec sha Z source file db hchunks).2
  have hcomplete := (importAll_spec sha Z source file db hcalls).1
  obtain ⟨hwhole, hwholeCount⟩ : whole.1.games = _ ∧
      whole.2.2 + db.games.length = whole.1.games.length :=
    games_full sha Z source file db hm
  obtain ⟨hagain, hagainCount⟩ : again.1.games = _ ∧
      again.2.2 + resumed.1.games.length = again.1.games.length :=
    games_full sha Z source file resumed.1 hk
  have hresumed : resumed.1.games = whole.1.games := by
    have hlast := (games_full sha Z source file (importAll sha Z source file db calls).1 hn).1
    rw [hwhole, ← hcomplete, ← hlast]
    simp only [resumed, importAll_append, importAll]
  have hsame : again.1.games = whole.1.games := by
    rw [hagain, hresumed, hwhole, KeyedLog.extend_self]
  have hlength : resumed.1.games.length = whole.1.games.length := by rw [hresumed]
  have hlength' : again.1.games.length = whole.1.games.length := by rw [hsame]
  exact ⟨hresumed, by omega, hsame, by omega⟩

/-- Two games that differ in a blank at the end. -/
def repeatedFile : PgnFile := ⟨false, [0x5b, 0x5d, 0x0a, 0x0a, 0x5b, 0x5d, 0x20]⟩

/-- Cancelled after the first game, read byte by byte, and resumed in chunks of two. -/
theorem import_resumes_repeated :
    let Z : Zstd := ⟨fun _ => [], fun _ _ => [], fun _ _ _ => rfl⟩
    (importAll (.lengths 64) Z "a.pgn".toList repeatedFile ⟨[], []⟩ [⟨some 1, 1⟩, ⟨none, 2⟩]).2 =
      (importFile (.lengths 64) Z "a.pgn".toList repeatedFile ⟨[], []⟩ ⟨none, 1⟩).2.2 := by
  intro Z
  have hcalls : ∀ call ∈ [(⟨some 1, 1⟩ : ImportCall)], 0 < call.chunkSize := by decide
  exact (import_resumes (.lengths 64) Z "a.pgn".toList repeatedFile ⟨[], []⟩ hcalls (by decide)
    (by decide) (show 0 < 1 by decide)).2.1

end Streaming
end OpenChess
