import OpenChess.Ingest.ImportStore
import OpenChess.Ingest.Stream

/-!
# Importing a file

Model of `run_import_pgn` of `ingest/import_pgn.py`. A run is the list of the file
operations it performs, in their order, and the summary or the failure it ends with.
-/

namespace OpenChess
namespace ImportPgn

open LineText
open Pgn
open PositionDigest (Sha256)

/-! ### Failures -/

inductive FailureClass
  | unknownSource
  | unknownRights
  | malformedInput
  | illegalMovetext
  | partialVisibility
  deriving DecidableEq, Repr

inductive ErrorCode
  | malformedRequest
  | illegalMove
  | unknownRights
  | internal
  deriving DecidableEq, Repr

/-- `failure_mapping` of the contract. -/
def FailureClass.error : FailureClass → ErrorCode
  | .unknownSource | .unknownRights => .unknownRights
  | .malformedInput => .malformedRequest
  | .illegalMovetext => .illegalMove
  | .partialVisibility => .internal

/-- The failures of a run. A record that `json.loads` refuses in the middle of a run is
a `ValueError`, every other one an `ImportFailure`. -/
inductive Failure
  | sourceType
  | outsideScenario (sourceId : Text)
  | unregistered (sourceId : Text)
  | intakeRefused (sourceId : Text) (reason : String)
  | store (fault : StoreFault)
  | game (e : GameError)
  | noGames
  | recordUnreadable
  deriving DecidableEq, Repr

def Failure.cls : Failure → Option FailureClass
  | .sourceType | .unregistered _ => some .unknownSource
  | .outsideScenario _ | .intakeRefused _ _ => some .unknownRights
  | .store _ => some .partialVisibility
  | .game e => some (if e.isIllegal then .illegalMovetext else .malformedInput)
  | .noGames => some .malformedInput
  | .recordUnreadable => none

/-! ### One game -/

/-- What `run_import_pgn` is called with. -/
structure Call where
  sourceId : Scalar
  pgnPath : Text
  retrievedAt : Text

/-- The decoded pieces of the source file. -/
structure Source where
  chunks : List Text
  last : Text

def Source.games (f : Source) : List Text := iterPgnGames f.chunks f.last

inductive Outcome
  | imported
  | already
  | updated
  deriving DecidableEq, Repr

def Outcome.event : Outcome → Text
  | .imported => "import.game_stored".toList
  | .already => "import.game_duplicate".toList
  | .updated => "import.game_updated".toList

/-- `existing.get("content_sha256")`, where it is a string. -/
def contentDigest : Value → Option Text
  | .dict entries => (entries.lookup (.str "content_sha256".toList)).bind Value.text?
  | _ => none

/-- `_commit_game`. -/
def commitGame (rec : Text) (record : Value) (index : Index) : List Op :=
  atomicWrite (recordPath rec) record ++ atomicWrite indexPath (indexValue index)

structure Step where
  ops : List Op
  index : Index
  outcome : Outcome

variable (sha : Sha256) (s : Session)

/-- A new game, or one whose record is gone: its entry comes last. -/
def storeGame (index : Index) (g : ParsedGame) : Step :=
  let next := index.filter (fun e => e.1 ≠ gameId sha g) ++ [(gameId sha g, filename sha s g)]
  ⟨commitGame (filename sha s g) (recordValue sha s g) next ++ [.emit Outcome.imported.event],
    next, .imported⟩

/-- A recorded replacement: the entry keeps its place. -/
def updateGame (index : Index) (g : ParsedGame) : Step :=
  let next := Assoc.assign index (gameId sha g) (filename sha s g)
  ⟨commitGame (filename sha s g) (recordValue sha s g) next ++ [.emit Outcome.updated.event],
    next, .updated⟩

/-- The loop body of `run_import_pgn` for an accepted game. -/
def importGame (d : Disk) (index : Index) (g : ParsedGame) : Except Failure Step :=
  match index.lookup (gameId sha g) with
  | none => .ok (storeGame sha s index g)
  | some rec =>
    match d.read (recordPath rec) with
    | none => .ok (storeGame sha s index g)
    | some .unreadable => .error .recordUnreadable
    | some (.json existing) =>
      if contentDigest existing = some (digest sha s g) then
        .ok ⟨[.emit Outcome.already.event], index, .already⟩
      else .ok (updateGame sha s index g)

/-! ### A run -/

/-- The outcomes of the games of a run, and the failure that ended it early. -/
structure Games where
  ops : List Op
  outcomes : List Outcome
  failure : Option Failure

/-- The loop of `run_import_pgn`. -/
def importGames (d : Disk) (index : Index) : List Text → Games
  | [] => ⟨[], [], none⟩
  | text :: texts =>
    match validateGame text with
    | .error e => ⟨[], [], some (.game e)⟩
    | .ok g =>
      match importGame sha s d index g with
      | .error e => ⟨[], [], some e⟩
      | .ok step =>
        let rest := importGames (d.execAll step.ops) step.index texts
        ⟨step.ops ++ rest.ops, step.outcome :: rest.outcomes, rest.failure⟩

structure Summary where
  sourceId : Text
  gamesImported : ℕ
  gamesAlreadyImported : ℕ
  gamesUpdated : ℕ
  deriving DecidableEq, Repr

def Summary.of (sourceId : Text) (outcomes : List Outcome) : Summary :=
  ⟨sourceId, outcomes.count .imported, outcomes.count .already, outcomes.count .updated⟩

def summaryFields : List Text :=
  ["kind".toList, "source_id".toList, "games_imported".toList, "games_already_imported".toList,
    "games_updated".toList]

def Summary.toValue (t : Summary) : Value :=
  .object summaryFields [.str "import-summary".toList, .str t.sourceId, .int t.gamesImported,
    .int t.gamesAlreadyImported, .int t.gamesUpdated]

/-- A run of `run_import_pgn`. -/
structure Run where
  ops : List Op
  result : Except Failure Summary

/-- The checks before any store state exists. -/
def authorize : Scalar → Except Failure (Text × RightsClass)
  | .foreign _ => .error .sourceType
  | .str sourceId =>
    if strip isSpace sourceId = [] then .error .sourceType
    else if sourceId ∉ scenarioSources then .error (.outsideScenario sourceId)
    else if sourceId ∉ sources.map Prod.fst then .error (.unregistered sourceId)
    else
      match (intakeDecision sourceId false).rightsClass.filter fun _ =>
        (intakeDecision sourceId false).allowed with
      | none => .error (.intakeRefused sourceId (intakeDecision sourceId false).reason)
      | some cls => .ok (sourceId, cls)

def Call.session (call : Call) (source : Text × RightsClass) : Session :=
  ⟨source.1, source.2, call.retrievedAt, call.pgnPath⟩

/-- What follows the loop over the games. -/
def finish (s : Session) (games : Games) : Run :=
  match games.failure with
  | some e => ⟨games.ops, .error e⟩
  | none =>
    if games.outcomes = [] then ⟨games.ops, .error .noGames⟩
    else
      let summary := Summary.of s.sourceId games.outcomes
      ⟨games.ops ++ .emit "import.completed".toList :: atomicWrite summaryPath summary.toValue,
        .ok summary⟩

/-- `run_import_pgn` on a store. -/
def runImportPgn (call : Call) (f : Source) (d : Disk) : Run :=
  match authorize call.sourceId with
  | .error e => ⟨[], .error e⟩
  | .ok source =>
    match recoverStore sha d with
    | .error fault => ⟨[], .error (.store fault)⟩
    | .ok (cleaning, index) =>
      let opening := cleaning ++ [.emit "import.started".toList]
      let run := finish (call.session source)
        (importGames sha (call.session source) (d.execAll opening) index f.games)
      ⟨opening ++ run.ops, run.result⟩

/-- The disk a run leaves that stops after `n` of its operations. -/
def interrupted (call : Call) (f : Source) (d : Disk) (n : ℕ) : Disk :=
  d.execAll ((runImportPgn sha call f d).ops.take n)

def completed (call : Call) (f : Source) (d : Disk) : Disk :=
  d.execAll (runImportPgn sha call f d).ops

end ImportPgn
end OpenChess
