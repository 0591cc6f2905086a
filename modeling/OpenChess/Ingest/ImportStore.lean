import OpenChess.Ingest.ImportRecord
import OpenChess.Lib.Assoc
import OpenChess.Lib.Trace

/-!
# The store of imported games

Model of the store functions of `ingest/import_pgn.py`. A program changes the disk by
single operations, and a file is whole only after its last write. Recovery validates
the manifest and every record it names, and only then removes what no entry refers to.
-/

namespace OpenChess
namespace ImportPgn

open Pgn
open PositionDigest (Sha256)

/-! ### The disk -/

/-- The store root and its `games` directory. -/
inductive Folder
  | root
  | games
  deriving DecidableEq, Repr

structure Path where
  folder : Folder
  name : Text
  deriving DecidableEq, Repr

/-- What a file holds: the value `json.dumps` wrote, or a text that `json.loads`
refuses, such as a part of one. -/
inductive Content
  | json (v : Value)
  | unreadable

structure Disk where
  files : List (Path × Content)
  telemetry : List Text

def Disk.fresh : Disk := ⟨[], []⟩

def Disk.read (d : Disk) (p : Path) : Option Content := d.files.lookup p

def Disk.put (d : Disk) (p : Path) (c : Content) : Disk :=
  { d with files := Assoc.assign d.files p c }

def Disk.remove (d : Disk) (p : Path) : Disk := { d with files := Assoc.erase d.files p }

/-- `folder.glob("*" + suffix)`, in the order of the files. -/
def Disk.glob (d : Disk) (folder : Folder) (suffix : Text) : List Path :=
  (d.files.map Prod.fst).filter fun p => p.folder == folder && suffix.isSuffixOf p.name

/-- The file operations of a run. A write makes an empty file and then fills it. -/
inductive Op
  | emit (event : Text)
  | create (p : Path)
  | fill (p : Path) (v : Value)
  | replace (p q : Path)
  | unlink (p : Path)

def Disk.exec (d : Disk) : Op → Disk
  | .emit event => { d with telemetry := d.telemetry ++ [event] }
  | .create p => d.put p .unreadable
  | .fill p v => d.put p (.json v)
  | .replace p q =>
    match d.read p with
    | none => d
    | some c => (d.remove p).put q c
  | .unlink p => d.remove p

def Disk.execAll (d : Disk) (ops : List Op) : Disk := Trace.run Disk.exec d ops

/-- The file `_atomic_write` writes first. -/
def tmp (p : Path) : Path := { p with name := p.name ++ ".tmp".toList }

/-- `_atomic_write`. -/
def atomicWrite (p : Path) (v : Value) : List Op := [.create (tmp p), .fill (tmp p) v, .replace (tmp p) p]

/-! ### The manifest -/

abbrev Index := List (Text × Text)

def indexPath : Path := ⟨.root, "index.json".toList⟩

def summaryPath : Path := ⟨.root, "summary.json".toList⟩

def recordPath (rec : Text) : Path := ⟨.games, rec⟩

def entryFields : List Text := ["game_id".toList, "record".toList]

def indexValue (index : Index) : Value :=
  .list (index.map fun e => .object entryFields [.str e.1, .str e.2])

/-- The refusals of `_validate_index`, and an `index.json` that is no JSON. -/
inductive StoreFault
  | manifestUnreadable
  | notList
  | entryFields (pos : ℕ)
  | gameId (pos : ℕ)
  | duplicateGameId (gid : Text)
  | recordName (pos : ℕ)
  | duplicateRecord (rec : Text)
  | recordMissing (pos : ℕ)
  | recordUnreadable (pos : ℕ)
  | record (pos : ℕ) (fault : RecordFault)
  deriving DecidableEq, Repr

/-- The message behind the position or the name it speaks of. -/
def StoreFault.text : StoreFault → String
  | .manifestUnreadable => "store manifest unreadable"
  | .notList => "store manifest contradiction: root is not a list"
  | .entryFields _ => "must be exactly (game_id, record)"
  | .gameId _ => "game_id invalid"
  | .duplicateGameId _ => "store manifest contradiction: duplicate game_id "
  | .recordName _ => "record name outside the content-addressed grammar"
  | .duplicateRecord _ => "store manifest contradiction: duplicate record "
  | .recordMissing _ => "record file missing"
  | .recordUnreadable _ => "record unreadable"
  | .record _ fault => fault.text

/-- `_GAME_ID_RE`. -/
def gameIdRe : Text → Bool := anchored (Hex.isHex 16)

/-- `_RECORD_NAME_RE`. -/
def recordNameRe : Text → Bool := anchored fun t =>
  Hex.isHex 16 (t.take 16) && (t.drop 16).take 2 == "--".toList &&
    Hex.isHex 16 ((t.drop 18).take 16) && t.drop 34 == ".json".toList

variable (sha : Sha256)

/-- One pass of the loop of `_validate_index`. -/
def validateEntry (d : Disk) (seenIds seenRecords : List Text) (pos : ℕ) (entry : Value) :
    Except StoreFault (Text × Text) :=
  match ordered? entryFields entry with
  | some [gid, rec] => do
    let gid ← orRefuse (gid.text?.filter gameIdRe) (.gameId pos)
    refuseIf (gid ∈ seenIds) (.duplicateGameId gid)
    let rec' ← orRefuse (rec.text?.filter fun rec => recordNameRe rec && (splitDashes rec).1 == gid)
      (.recordName pos)
    refuseIf (rec' ∈ seenRecords) (.duplicateRecord rec')
    match d.read (recordPath rec') with
    | none => .error (.recordMissing pos)
    | some .unreadable => .error (.recordUnreadable pos)
    | some (.json stored) =>
      match validateRecord sha stored gid rec' with
      | .error fault => .error (.record pos fault)
      | .ok () => .ok (gid, rec')
  | _ => .error (.entryFields pos)

def validateEntries (d : Disk) (seenIds seenRecords : List Text) (pos : ℕ) :
    List Value → Except StoreFault Index
  | [] => .ok []
  | entry :: entries => do
    let e ← validateEntry sha d seenIds seenRecords pos entry
    let index ← validateEntries d (e.1 :: seenIds) (e.2 :: seenRecords) (pos + 1) entries
    return e :: index

/-- `_validate_index`, with the entries it has read. -/
def validateIndex (d : Disk) (index : Value) : Except StoreFault Index :=
  match index with
  | .list entries => validateEntries sha d [] [] 0 entries
  | _ => .error .notList

/-- What recovery removes: temporary files, and records no entry refers to. -/
def cleanOps (d : Disk) (index : Index) : List Op :=
  (d.glob .root ".tmp".toList ++ d.glob .games ".tmp".toList ++
    (d.glob .games ".json".toList).filter fun p => !(index.map Prod.snd).contains p.name).map .unlink

/-- `_recover_store`: the operations it performs, and the index it returns. -/
def recoverStore (d : Disk) : Except StoreFault (List Op × Index) :=
  match d.read indexPath with
  | none => .ok (cleanOps d [], [])
  | some .unreadable => .error .manifestUnreadable
  | some (.json v) =>
    match validateIndex sha d v with
    | .error fault => .error fault
    | .ok index => .ok (cleanOps d index, index)

end ImportPgn
end OpenChess
