import OpenChess.Lib.Assoc
import OpenChess.Lib.Kahn
import Mathlib.Data.List.DropRight

/-!
# The task board

Model of `verify`, `index` and the commands `claim`, `start` and `complete` of
`tools/dag.py`. A board is any JSON document; what the verifier finds is a list of
problems, each with its message.
-/

namespace OpenChess
namespace Dag

/-- The code points of a string, lone surrogates included. -/
abbrev Str := List ℕ

def codes (s : String) : Str := s.toList.map Char.toNat

/-- A document that `json.load` returns. The keys of a dictionary are strings; a float is
known by its `repr`. -/
inductive Doc
  | null
  | bool (b : Bool)
  | int (n : ℤ)
  | float (text : Str)
  | str (s : Str)
  | list (items : List Doc)
  | dict (entries : List (Str × Doc))

/-- `str.isspace` of one code point. -/
def isSpace (n : ℕ) : Bool :=
  [(0x9, 0xd), (0x1c, 0x20), (0x85, 0x85), (0xa0, 0xa0), (0x1680, 0x1680), (0x2000, 0x200a),
    (0x2028, 0x2029), (0x202f, 0x202f), (0x205f, 0x205f), (0x3000, 0x3000)].any fun r =>
      decide (r.1 ≤ n ∧ n ≤ r.2)

/-- `s.strip()`. -/
def strip (s : Str) : Str := (s.dropWhile isSpace).rdropWhile isSpace

namespace Doc

/-- `v.get(name)`, for a dictionary. -/
def get? (name : String) : Doc → Option Doc
  | dict entries => entries.lookup (codes name)
  | _ => none

/-- The string a tree is, if it is one. -/
def str? : Doc → Option Str
  | str s => some s
  | _ => none

def list? : Doc → Option (List Doc)
  | list items => some items
  | _ => none

def isDict : Doc → Bool
  | dict _ => true
  | _ => false

/-- `type(v).__name__`. -/
def typeName : Doc → Str
  | null => codes "NoneType"
  | bool _ => codes "bool"
  | int _ => codes "int"
  | float _ => codes "float"
  | str _ => codes "str"
  | list _ => codes "list"
  | dict _ => codes "dict"

/-- `v == name`, for the text of a string. -/
def isText (s : Str) (v : Doc) : Bool := v.str? == some s

/-- `hash(v)` raises no `TypeError`. -/
def hashable : Doc → Bool
  | list _ => false
  | dict _ => false
  | _ => true

/-- `v[name] = value`. -/
def set (v : Doc) (name : String) (value : Doc) : Doc :=
  match v with
  | dict entries => dict (Assoc.assign entries (codes name) value)
  | v => v

end Doc

open Doc (typeName isText hashable)

/-- What is taken from the language for trees of any kind: their texts, of all but strings,
and `==`, which tells a string from everything else. -/
structure Python where
  text : Doc → Str
  repr : Doc → Str
  firstSorted : List Doc → Str
  eq : Doc → Doc → Bool
  eq_str : ∀ s v, eq (.str s) v = true ↔ v = .str s

/-- `f"{v}"`. -/
def Python.format (py : Python) : Doc → Str
  | .str s => s
  | v => py.text v

/-! ### Problems -/

/-- What is wrong with one task. -/
inductive TaskProblem
  | missingFields (fields : List String)
  | notString (field : String) (v : Doc)
  | emptyField (field : String)
  | invalidStatus (status : Doc)
  | dependenciesNotList (deps : Doc)
  | dependencyNotString (dep : Doc)
  | duplicateDependency (dep : Str)
  | unknownDependency (dep : Str)
  | doneSha
  | evidenceManifest (want : Str)

inductive Problem
  | boardNotMapping (board : Doc)
  | schemaVersion (sv : Doc)
  | tasksNotList
  | tasksEmpty
  | taskNotMapping (t : Doc)
  | badId (tid : Doc)
  | paddedId (tid : Str)
  | duplicateId (i : Str)
  | ofTask (tid : Doc) (p : TaskProblem)
  | cycle

/-- `EXPECTED_SCHEMA_VERSION`. -/
def expectedSchemaVersion : Str := codes "5.2-alpha-casual-autoimport"

/-- `REQUIRED_FIELDS`, in the order of their names. -/
def requiredFields : List String :=
  ["acceptance", "dependencies", "id", "milestone", "phase", "roadmap_layer", "spine_outcome",
    "status", "title", "track", "verification", "week"]

/-- The fields that are texts, in the order of their checks. -/
def textFields : List String :=
  ["title", "acceptance", "verification", "milestone", "phase", "roadmap_layer", "spine_outcome",
    "track", "week"]

/-- `VALID_STATUS`. -/
def validStatus : List Str :=
  [codes "todo", codes "claimed", codes "in_progress", codes "done", codes "blocked"]

def TaskProblem.message (py : Python) : TaskProblem → Str
  | missingFields fields =>
    codes "missing fields " ++ py.repr (.list (fields.map fun f => .str (codes f)))
  | notString field v => codes field ++ codes " must be a string, got " ++ typeName v
  | emptyField field => codes "empty " ++ codes field
  | invalidStatus status => codes "invalid status " ++ py.repr status
  | dependenciesNotList deps => codes "dependencies must be a list, got " ++ typeName deps
  | dependencyNotString dep => codes "dependency must be a string, got " ++ py.repr dep
  | duplicateDependency dep => codes "duplicate dependency " ++ dep
  | unknownDependency dep => codes "unknown dependency " ++ dep
  | doneSha => codes "done_sha is not a full 40-hex SHA"
  | evidenceManifest want => codes "evidence_manifest must be exactly " ++ want

def Problem.message (py : Python) : Problem → Str
  | boardNotMapping board => codes "board must be a mapping, got " ++ typeName board
  | schemaVersion sv => codes "board: schema_version must be exactly " ++
      py.repr (.str expectedSchemaVersion) ++ codes ", got " ++ py.repr sv
  | tasksNotList => codes "board: tasks must be a list"
  | tasksEmpty => codes "board: tasks list is empty"
  | taskNotMapping t => codes "task entry is not a mapping: " ++ py.repr t
  | badId tid => codes "task id must be a non-empty string, got " ++ py.repr tid
  | paddedId tid => codes "task id has surrounding whitespace: " ++ py.repr (.str tid)
  | duplicateId i => codes "duplicate task id " ++ i
  | ofTask tid p => py.format tid ++ codes ": " ++ p.message py
  | cycle => codes "dependency cycle detected"

/-! ### Failures -/

/-- A `DagError`. -/
inductive DagError
  | duplicateIds (dupes : List Doc)
  | unknownTask (taskId : Str)
  | notTodo (taskId : Str) (status : Doc)
  | hasStatus (taskId : Str) (status : Doc)
  | alreadyDone (taskId : Str)
  | badSha (sha : Str)
  | badEvidence (want manifest : Str)
  | unmet (taskId : Str) (deps : List Doc)

def DagError.message (py : Python) : DagError → Str
  | duplicateIds dupes => codes "duplicate task ids: " ++ py.firstSorted dupes
  | unknownTask taskId => codes "unknown task " ++ taskId
  | notTodo taskId status => taskId ++ codes " is " ++ py.format status ++ codes ", not todo"
  | hasStatus taskId status => taskId ++ codes " is " ++ py.format status
  | alreadyDone taskId => taskId ++ codes " already done"
  | badSha sha => codes "done requires a full lowercase 40-hex SHA, got " ++ py.repr (.str sha)
  | badEvidence want manifest =>
    codes "evidence manifest must be exactly " ++ want ++ codes ", got " ++ py.repr (.str manifest)
  | unmet taskId deps => taskId ++ codes " has unmet dependencies: " ++ py.repr (.list deps)

/-- What a function raises; a loop of the model may be out of fuel. -/
inductive Failure
  | keyError
  | typeError
  | outOfFuel
  | dagError (e : DagError)

/-! ### The verifier -/

/-- `SHA_RE.fullmatch`. -/
def isSha (s : Str) : Bool :=
  s.length == 40 && s.all fun n =>
    decide (0x30 ≤ n ∧ n ≤ 0x39) || decide (0x61 ≤ n ∧ n ≤ 0x66)

/-- The entries and their ids, the first loop over the tasks. -/
def entryProblems (t : Doc) : List Problem :=
  if !t.isDict then [.taskNotMapping t]
  else
    match t.get? "id" with
    | some (.str tid) =>
      if strip tid = [] then [.badId (.str tid)]
      else if tid ≠ strip tid then [.paddedId tid] else []
    | tid => [.badId (tid.getD .null)]

def idOf (t : Doc) : Option Str := (t.get? "id").bind Doc.str?

def duplicateIds (seen : List Str) : List Str → List Problem
  | [] => []
  | i :: ids => (if i ∈ seen then [.duplicateId i] else []) ++ duplicateIds (i :: seen) ids

def fieldProblems (t : Doc) (field : String) : List TaskProblem :=
  match t.get? field with
  | none => []
  | some (.str s) => if strip s = [] then [.emptyField field] else []
  | some v => [.notString field v]

def statusProblems (t : Doc) : List TaskProblem :=
  let status := (t.get? "status").getD .null
  if validStatus.any fun s => isText s status then [] else [.invalidStatus status]

def dependencyProblems (known seen : List Str) : List Doc → List TaskProblem
  | [] => []
  | .str dep :: deps =>
    if dep ∈ seen then .duplicateDependency dep :: dependencyProblems known seen deps
    else if dep ∉ known then .unknownDependency dep :: dependencyProblems known seen deps
    else dependencyProblems known (dep :: seen) deps
  | dep :: deps => .dependencyNotString dep :: dependencyProblems known seen deps

/-- `t.get("dependencies", [])`. -/
def dependenciesField (t : Doc) : Doc := (t.get? "dependencies").getD (.list [])

def dependenciesProblems (known : List Str) (t : Doc) : List TaskProblem :=
  match dependenciesField t with
  | .list deps => dependencyProblems known [] deps
  | deps => [.dependenciesNotList deps]

/-- `f"evidence/{tid}.md"`. -/
def manifestOf (tid : Str) : Str := codes "evidence/" ++ tid ++ codes ".md"

def doneProblems (py : Python) (tid t : Doc) : List TaskProblem :=
  if isText (codes "done") ((t.get? "status").getD .null) then
    (if ((t.get? "done_sha").bind Doc.str?).any isSha then [] else [.doneSha]) ++
      let want := manifestOf (py.format tid)
      if isText want ((t.get? "evidence_manifest").getD .null) then []
      else [.evidenceManifest want]
  else []

/-- The second loop over the tasks. -/
def taskProblems (py : Python) (known : List Str) (t : Doc) : List Problem :=
  if !t.isDict then []
  else
    let tid := (t.get? "id").getD (.str (codes "?"))
    let missing := requiredFields.filter fun f => (t.get? f).isNone
    ((if missing = [] then [] else [TaskProblem.missingFields missing]) ++
      textFields.flatMap (fieldProblems t) ++ statusProblems t ++ dependenciesProblems known t ++
      doneProblems py tid t).map (.ofTask tid)

/-- The entries that are well formed for the search of cycles. -/
def isClean (tasks : List Doc) (t : Doc) : Bool :=
  match idOf t, dependenciesField t with
  | some tid, .list deps =>
    strip tid != [] && tasks.countP (fun t => idOf t == some tid) == 1 &&
      deps.all fun d => d.str?.isSome
  | _, _ => false

def clean (tasks : List Doc) : List Doc := tasks.filter (isClean tasks)

/-- `dep_sets`: a task without the key is a `KeyError`. -/
def depSets : List Doc → Except Failure (List (Str × List Str))
  | [] => .ok []
  | t :: tasks =>
    match t.get? "dependencies" with
    | none => .error .keyError
    | some deps => (depSets tasks).map
        (((idOf t).getD [], (deps.list?.getD []).filterMap Doc.str?) :: ·)

/-- The search of cycles. -/
def cycleProblems (tasks : List Doc) : Except Failure (List Problem) :=
  match depSets (clean tasks) with
  | .error e => .error e
  | .ok sets =>
    match Kahn.visited (sets.map Prod.fst) (fun i => (sets.lookup i).getD []) with
    | none => .error .outOfFuel
    | some seen => .ok (if seen = (clean tasks).length then [] else [.cycle])

def idsOf (tasks : List Doc) : List Str := tasks.filterMap idOf

def schemaProblems (board : Doc) : List Problem :=
  let sv := (board.get? "schema_version").getD .null
  if isText expectedSchemaVersion sv then [] else [.schemaVersion sv]

/-- `verify`. -/
def verify (py : Python) (board : Doc) : Except Failure (List Problem) :=
  if !board.isDict then .ok [.boardNotMapping board]
  else
    match (board.get? "tasks").bind Doc.list? with
    | none => .ok (schemaProblems board ++ [.tasksNotList])
    | some tasks =>
      (cycleProblems tasks).map (schemaProblems board ++
        (if tasks = [] then [.tasksEmpty] else []) ++ tasks.flatMap entryProblems ++
        duplicateIds [] (idsOf tasks) ++ tasks.flatMap (taskProblems py (idsOf tasks)) ++ ·)

/-! ### The commands -/

/-- `v[name]`. -/
def subscript (name : String) (v : Doc) : Except Failure Doc :=
  if !v.isDict then .error .typeError
  else
    match v.get? name with
    | none => .error .keyError
    | some u => .ok u

/-- What `for x in v` goes over. -/
def iterate : Doc → Except Failure (List Doc)
  | .list items => .ok items
  | .dict entries => .ok (entries.map fun e => .str e.1)
  | .str s => .ok (s.map fun n => .str [n])
  | _ => .error .typeError

/-- `index`: the tasks by their ids. -/
def index (py : Python) (board : Doc) : Except Failure (List (Doc × Doc)) := do
  let tasks ← iterate (← subscript "tasks" board)
  let ids ← tasks.mapM (subscript "id")
  if ids.any fun i => !hashable i then .error .typeError
  else
    let dupes := ids.filter fun i => 1 < ids.countP (py.eq i)
    if dupes = [] then .ok (ids.zip tasks) else .error (.dagError (.duplicateIds dupes))

/-- `by_id.get(key)`. -/
def find (py : Python) (byId : List (Doc × Doc)) (key : Doc) : Option Doc :=
  (byId.find? fun e => py.eq key e.1).map Prod.snd

/-- `by_id[d]["status"] != "done"`. -/
def isUnmet (py : Python) (byId : List (Doc × Doc)) (d : Doc) : Except Failure Bool :=
  if !hashable d then .error .typeError
  else
    match find py byId d with
    | none => .error .keyError
    | some t => (subscript "status" t).map fun status => !isText (codes "done") status

/-- `unmet`. -/
def unmetDeps (py : Python) (byId : List (Doc × Doc)) (t : Doc) : Except Failure (List Doc) := do
  let deps ← iterate (← subscript "dependencies" t)
  let flags ← deps.mapM (isUnmet py byId)
  .ok (((deps.zip flags).filter Prod.snd).map Prod.fst)

def updateTask (taskId : Str) (change : Doc → Doc) (board : Doc) : Doc :=
  match (board.get? "tasks").bind Doc.list? with
  | none => board
  | some tasks =>
    board.set "tasks" (.list (tasks.map fun t => if idOf t = some taskId then change t else t))

/-- A command: a task whose status is admitted and, after the checks of the arguments, whose
dependencies are done, is changed. -/
def transition (py : Python) (taskId : Str) (permit : Doc → Except Failure Unit)
    (check : Except Failure Unit) (change : Doc → Doc) (board : Doc) : Except Failure Doc := do
  let byId ← index py board
  match find py byId (.str taskId) with
  | none => .error (.dagError (.unknownTask taskId))
  | some t =>
    permit (← subscript "status" t)
    check
    let unmet ← unmetDeps py byId t
    if unmet = [] then .ok (updateTask taskId change board)
    else .error (.dagError (.unmet taskId unmet))

/-- `cmd_claim`. -/
def cmdClaim (py : Python) (taskId claimant : Str) : Doc → Except Failure Doc :=
  transition py taskId
    (fun status =>
      if isText (codes "todo") status then .ok () else .error (.dagError (.notTodo taskId status)))
    (.ok ())
    (fun t => (t.set "status" (.str (codes "claimed"))).set "claimed_by" (.str claimant))

/-- `cmd_start`. -/
def cmdStart (py : Python) (taskId claimant : Str) : Doc → Except Failure Doc :=
  transition py taskId
    (fun status =>
      if !hashable status then .error .typeError
      else if isText (codes "todo") status || isText (codes "claimed") status then .ok ()
      else .error (.dagError (.hasStatus taskId status)))
    (.ok ())
    (fun t => (t.set "status" (.str (codes "in_progress"))).set "claimed_by" (.str claimant))

/-- `require_sha`. -/
def requireSha (sha : Str) : Except Failure Unit :=
  if isSha sha then .ok () else .error (.dagError (.badSha sha))

/-- `require_evidence`. -/
def requireEvidence (taskId manifest : Str) : Except Failure Unit :=
  if manifest = manifestOf taskId then .ok ()
  else .error (.dagError (.badEvidence (manifestOf taskId) manifest))

/-- `cmd_complete`. -/
def cmdComplete (py : Python) (taskId sha evidence : Str) : Doc → Except Failure Doc :=
  transition py taskId
    (fun status =>
      if !hashable status then .error .typeError
      else if isText (codes "done") status then .error (.dagError (.alreadyDone taskId))
      else .ok ())
    (do
      requireSha sha
      requireEvidence taskId evidence)
    (fun t => ((t.set "status" (.str (codes "done"))).set "done_sha" (.str sha)).set
      "evidence_manifest" (.str evidence))

end Dag
end OpenChess
