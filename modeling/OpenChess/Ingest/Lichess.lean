import OpenChess.Chess.Value
import OpenChess.Ingest.Movetext
import OpenChess.Lib.LineText

/-!
# A stream of game records

Model of `validate_game` and `parse_stream` of `importers/lichess/response.py`, with the
values of its contract. A string with a lone surrogate has no UTF-8 form; `lone` says which
foreign objects are such strings.
-/

namespace OpenChess
namespace Lichess

open LineText (strip)
open Pgn (isSpace)

/-- The types a field is declared with. -/
inductive FieldType
  | string
  | stringEnum
  | boolean
  | integer
  | integerInt64
  | object
  | objectWhiteBlack
  | array
  deriving DecidableEq, Repr

def FieldType.text : FieldType → Text
  | .string => "string".toList
  | .stringEnum => "string-enum".toList
  | .boolean => "boolean".toList
  | .integer => "integer".toList
  | .integerInt64 => "integer-int64".toList
  | .object => "object".toList
  | .objectWhiteBlack => "object-white-black".toList
  | .array => "array".toList

/-- The types of an optional field. -/
inductive OptionalType
  | plain (declared : FieldType)
  | integers
  | objects
  | object (required : List Text) (fieldTypes : List (Text × FieldType))
  | enum (values : List Text)

/-! ### The contract -/

/-- `REQUIRED_FIELDS`, each with its type of `FIELD_TYPES`. -/
def requiredFields : List (Text × FieldType) :=
  [("id".toList, .string), ("rated".toList, .boolean), ("variant".toList, .string),
    ("speed".toList, .string), ("perf".toList, .string), ("createdAt".toList, .integerInt64),
    ("lastMoveAt".toList, .integerInt64), ("status".toList, .stringEnum),
    ("players".toList, .objectWhiteBlack)]

/-- `OPTIONAL_FIELD_TYPES`. -/
def optionalFieldTypes : List (Text × OptionalType) :=
  [("source".toList, .plain .string), ("initialFen".toList, .plain .string),
    ("winner".toList, .enum ["white".toList, "black".toList]),
    ("opening".toList, .object ["eco".toList, "name".toList, "ply".toList]
      [("eco".toList, .string), ("name".toList, .string), ("ply".toList, .integer)]),
    ("moves".toList, .plain .string), ("pgn".toList, .plain .string),
    ("daysPerTurn".toList, .plain .integer), ("analysis".toList, .objects),
    ("arenaTour".toList, .object [] [("id".toList, .string), ("name".toList, .string)]),
    ("swissTour".toList, .object [] [("id".toList, .string)]),
    ("clock".toList, .object ["initial".toList, "increment".toList, "totalTime".toList]
      [("initial".toList, .integer), ("increment".toList, .integer),
        ("totalTime".toList, .integer)]),
    ("clocks".toList, .integers),
    ("division".toList, .object [] [("middle".toList, .integer), ("end".toList, .integer)])]

/-- `VARIANT_VALUES`. -/
def variantValues : List Text :=
  ["standard".toList, "chess960".toList, "crazyhouse".toList, "antichess".toList,
    "atomic".toList, "horde".toList, "kingOfTheHill".toList, "racingKings".toList,
    "threeCheck".toList, "fromPosition".toList]

/-- `SPEED_VALUES`. -/
def speedValues : List Text :=
  ["ultraBullet".toList, "bullet".toList, "blitz".toList, "rapid".toList, "classical".toList,
    "correspondence".toList]

/-- `STATUS_VALUES`. -/
def statusValues : List Text :=
  ["created".toList, "started".toList, "aborted".toList, "mate".toList, "resign".toList,
    "stalemate".toList, "timeout".toList, "draw".toList, "outoftime".toList, "cheat".toList,
    "noStart".toList, "unknownFinish".toList, "insufficientMaterialClaim".toList,
    "variantEnd".toList]

/-- `UNKNOWN_FIELD_POLICY`. -/
def unknownFieldPolicy : Text := "tolerate-additive".toList

/-- `UNKNOWN_FIELD_STORAGE`. -/
def unknownFieldStorage : Text := "never-stored".toList

/-- `FAILURE_MAPPING["malformed_response"]["error"]`. -/
def malformedResponse : Text := "malformed_request".toList

/-! ### Types -/

/-- `type(value) is str`. -/
def isStr (lone : ℕ → Bool) : Value → Bool
  | .str _ => true
  | .foreign tag => lone tag
  | _ => false

/-- `type(value) is int`. -/
def isInt : Value → Bool
  | .int _ => true
  | _ => false

/-- `type(value) is bool`. -/
def isBool : Value → Bool
  | .bool _ => true
  | _ => false

/-- `value in enum`, for texts. -/
def isOneOf (values : List Text) : Value → Bool
  | .str t => values.contains t
  | _ => false

/-- `value.get(name)`, for a dictionary. -/
def get? (name : Text) : Value → Option Value
  | .dict entries => entries.lookup (.str name)
  | _ => none

/-- `_type_ok`. -/
def typeOk (lone : ℕ → Bool) (value : Value) : FieldType → Bool
  | .string => isStr lone value
  | .stringEnum => isStr lone value
  | .boolean => isBool value
  | .integer => isInt value
  | .integerInt64 => (value.int?.any fun n => -2 ^ 63 ≤ n && n ≤ 2 ^ 63 - 1)
  | .object => value.isDict
  | .objectWhiteBlack => value.isDict
  | .array =>
    match value with
    | .list _ => true
    | _ => false

/-- `_optional_type_ok`. -/
def optionalTypeOk (lone : ℕ → Bool) (value : Value) : OptionalType → Bool
  | .plain declared => typeOk lone value declared
  | .integers =>
    match value with
    | .list items => items.all isInt
    | _ => false
  | .objects =>
    match value with
    | .list items => items.all Value.isDict
    | _ => false
  | .object required fieldTypes =>
    value.isDict && (required.all fun name => (get? name value).isSome) &&
      fieldTypes.all fun f => (get? f.1 value).all fun v => typeOk lone v f.2
  | .enum values => isStr lone value && (values.isEmpty || isOneOf values value)

/-! ### A game -/

/-- The message of a `ContractViolation`, unless the condition holds. -/
def require (c : Bool) (message : Text) : Except Text Unit := if c then .ok () else .error message

variable (lone : ℕ → Bool) (repr : Value → Text)

def checkRequired (obj : Value) (f : Text × FieldType) : Except Text Unit :=
  match get? f.1 obj with
  | none => .error ("required field ".toList ++ f.1 ++ " missing".toList)
  | some v => require (typeOk lone v f.2)
      ("required field ".toList ++ f.1 ++ " mistyped (want ".toList ++ f.2.text ++ [')'])

def checkEnum (obj : Value) (name : Text) (values : List Text) : Except Text Unit :=
  let v := (get? name obj).getD .null
  require (isOneOf values v) (name ++ ' ' :: repr v ++ " not in enum".toList)

/-- A side is a user or an engine, and not both. -/
def checkSide (players : Value) (side : Text) : Except Text Unit :=
  match get? side players with
  | some (.dict p) =>
    let isUser := ["user".toList, "rating".toList].all fun k => (get? k (.dict p)).isSome
    let isAi := ["aiLevel".toList].all fun k => (get? k (.dict p)).isSome
    if isUser && isAi then
      .error ("players.".toList ++ side ++ " matches both user and ai shapes (oneOf)".toList)
    else require (isUser || isAi)
      ("players.".toList ++ side ++ " matches neither user nor ai shape".toList)
  | _ => .error ("players.".toList ++ side ++ " missing or not an object".toList)

/-- The optional field, appended to those stored so far. -/
def storeOptional (obj : Value) (stored : List (Text × Value)) (f : Text × OptionalType) :
    Except Text (List (Text × Value)) :=
  match get? f.1 obj with
  | none => .ok stored
  | some v =>
    if optionalTypeOk lone v f.2 then .ok (stored ++ [(f.1, v)])
    else .error ("optional field ".toList ++ f.1 ++ " mistyped".toList)

/-- `validate_game`: the fields stored, or the message of the violation. -/
def validateGame (obj : Value) : Except Text (List (Text × Value)) := do
  require obj.isDict "game record is not an object".toList
  requiredFields.forM (checkRequired lone obj)
  checkEnum repr obj "variant".toList variantValues
  checkEnum repr obj "speed".toList speedValues
  checkEnum repr obj "status".toList statusValues
  ["white".toList, "black".toList].forM (checkSide ((get? "players".toList obj).getD .null))
  let required := requiredFields.map fun f => (f.1, (get? f.1 obj).getD .null)
  let stored ← optionalFieldTypes.foldlM (storeOptional lone obj) required
  require (unknownFieldPolicy = "tolerate-additive".toList &&
    unknownFieldStorage = "never-stored".toList) "contract unknown-field policy changed".toList
  .ok stored

/-! ### The stream -/

/-- What `json.loads` does with a text. -/
inductive Loaded
  | value (v : Value)
  | decodeError (message : Text)
  | valueError
  | recursionError

/-- The exceptions that `parse_stream` lets through. -/
inductive Raised
  | valueError
  | recursionError

/-- A record that failed, with its error. -/
structure RecordError where
  code : Text
  message : Text
  retryable : Bool
  lineNo : ℕ

structure StreamResult where
  games : List (List (Text × Value))
  recordErrors : List RecordError

def recordError (lineNo : ℕ) (message : Text) : RecordError :=
  ⟨malformedResponse, "line ".toList ++ Nat.toDigits 10 lineNo ++ ": ".toList ++ message, false,
    lineNo⟩

variable (loads : Text → Loaded)

/-- The body of the `try`: a game, the message of what is caught, or what is not. -/
def parseLine (text : Text) : Except Raised (Except Text (List (Text × Value))) :=
  match loads text with
  | .value obj => .ok (validateGame lone repr obj)
  | .decodeError message => .ok (.error message)
  | .valueError => .error .valueError
  | .recursionError => .error .recursionError

/-- The loop of `parse_stream` from the line with index `i`. -/
def parseFrom (i : ℕ) (result : StreamResult) : List Text → Except Raised StreamResult
  | [] => .ok result
  | line :: lines =>
    let text := strip isSpace line
    if text = [] then parseFrom (i + 1) result lines
    else
      match parseLine lone repr loads text with
      | .error e => .error e
      | .ok (.error message) =>
        parseFrom (i + 1)
          { result with recordErrors := result.recordErrors ++ [recordError (i + 1) message] } lines
      | .ok (.ok game) => parseFrom (i + 1) { result with games := result.games ++ [game] } lines

/-- `parse_stream`. -/
def parseStream (lines : List Text) : Except Raised StreamResult :=
  parseFrom lone repr loads 0 ⟨[], []⟩ lines

/-! ### One outcome for each line -/

/-- The call gives a value, or raises what is caught. -/
def Loaded.caught : Loaded → Bool
  | .value _ => true
  | .decodeError _ => true
  | _ => false

/-- The lines that are not blank, each with its number, which counts from this one. -/
def numbered (first : ℕ) (lines : List Text) : List (Text × ℕ) :=
  (lines.zipIdx first).filter fun l => strip isSpace l.1 != []

/-- The error of a numbered line, if its outcome is one. -/
def failure (outcome : Text → Except Text (List (Text × Value))) (l : Text × ℕ) :
    Option RecordError :=
  match outcome l.1 with
  | .error message => some (recordError l.2 message)
  | .ok _ => none

/-- The game of a numbered line, if its outcome is one. -/
def success (outcome : Text → Except Text (List (Text × Value))) (l : Text × ℕ) :
    Option (List (Text × Value)) :=
  (outcome l.1).toOption

/-- Every numbered line has one outcome, in order: a game, or an error with its number. -/
def collect (outcome : Text → Except Text (List (Text × Value))) (lines : List (Text × ℕ)) :
    StreamResult :=
  ⟨lines.filterMap (success outcome), lines.filterMap (failure outcome)⟩

def outcomeOf (line : Text) : Except Text (List (Text × Value)) :=
  match loads (strip isSpace line) with
  | .value obj => validateGame lone repr obj
  | .decodeError message => .error message
  | _ => .error []

variable {lone repr loads} {i : ℕ} {line : Text} {lines : List Text} {result : StreamResult}

theorem parseLine_of_caught (h : (loads (strip isSpace line)).caught = true) :
    parseLine lone repr loads (strip isSpace line) = .ok (outcomeOf lone repr loads line) := by
  unfold parseLine outcomeOf
  cases hloads : loads (strip isSpace line) with
  | value obj => rfl
  | decodeError message => rfl
  | valueError =>
    rw [hloads] at h
    cases h
  | recursionError =>
    rw [hloads] at h
    cases h

theorem parseLine_of_not_caught (h : (loads (strip isSpace line)).caught = false) :
    ∃ e, parseLine lone repr loads (strip isSpace line) = .error e := by
  unfold parseLine
  cases hloads : loads (strip isSpace line) with
  | value obj =>
    rw [hloads] at h
    cases h
  | decodeError message =>
    rw [hloads] at h
    cases h
  | valueError => exact ⟨_, rfl⟩
  | recursionError => exact ⟨_, rfl⟩

theorem numbered_cons_blank (h : strip isSpace line = []) :
    numbered i (line :: lines) = numbered (i + 1) lines := by
  simp [numbered, h]

theorem numbered_cons (h : strip isSpace line ≠ []) :
    numbered i (line :: lines) = (line, i) :: numbered (i + 1) lines := by
  simp [numbered, h]

theorem parseFrom_cons (hvisible : strip isSpace line ≠ [])
    (h : (loads (strip isSpace line)).caught = true) :
    parseFrom lone repr loads i result (line :: lines) =
      parseFrom lone repr loads (i + 1)
        ⟨result.games ++ (success (outcomeOf lone repr loads) (line, i + 1)).toList,
          result.recordErrors ++ (failure (outcomeOf lone repr loads) (line, i + 1)).toList⟩
        lines := by
  rw [parseFrom]
  simp only [if_neg hvisible, parseLine_of_caught h]
  cases houtcome : outcomeOf lone repr loads line with
  | error message => simp [success, failure, houtcome, Except.toOption]
  | ok game => simp [success, failure, houtcome, Except.toOption]

theorem parseFrom_of_caught
    (h : ∀ line ∈ lines, strip isSpace line ≠ [] → (loads (strip isSpace line)).caught = true) :
    parseFrom lone repr loads i result lines =
      .ok ⟨result.games ++ (collect (outcomeOf lone repr loads) (numbered (i + 1) lines)).games,
        result.recordErrors ++
          (collect (outcomeOf lone repr loads) (numbered (i + 1) lines)).recordErrors⟩ := by
  induction lines generalizing i result with
  | nil => simp [parseFrom, collect, numbered]
  | cons line lines ih =>
    obtain ⟨hline, hlines⟩ := List.forall_mem_cons.mp h
    by_cases hblank : strip isSpace line = []
    · rw [parseFrom, numbered_cons_blank hblank]
      simp only [if_pos hblank]
      exact ih hlines
    · rw [parseFrom_cons hblank (hline hblank), ih hlines, numbered_cons hblank]
      simp only [collect, List.filterMap_cons, List.append_assoc]
      cases houtcome : outcomeOf lone repr loads line with
      | error message => simp [success, failure, houtcome, Except.toOption]
      | ok game => simp [success, failure, houtcome, Except.toOption]

theorem parseFrom_of_not_caught (hmem : line ∈ lines) (hvisible : strip isSpace line ≠ [])
    (h : (loads (strip isSpace line)).caught = false) :
    ∃ e, parseFrom lone repr loads i result lines = .error e := by
  induction lines generalizing i result with
  | nil => cases hmem
  | cons first lines ih =>
    by_cases hblank : strip isSpace first = []
    · obtain rfl | hmem := List.mem_cons.mp hmem
      · exact absurd hblank hvisible
      · rw [parseFrom]
        simp only [if_pos hblank]
        exact ih hmem
    · cases hcaught : (loads (strip isSpace first)).caught with
      | false =>
        have herror : ∃ e, parseLine lone repr loads (strip isSpace first) = .error e :=
          parseLine_of_not_caught hcaught
        obtain ⟨e, he⟩ := herror
        refine ⟨e, ?_⟩
        rw [parseFrom]
        simp only [if_neg hblank, he]
      | true =>
        obtain rfl | hmem := List.mem_cons.mp hmem
        · rw [h] at hcaught
          cases hcaught
        · rw [parseFrom_cons hblank hcaught]
          exact ih hmem

/-- The lines have outcomes of their own, and a list of lines is given these exactly where
nothing is raised on a line of it but what is caught; elsewhere nothing is returned. -/
theorem parseStream_iff (lone : ℕ → Bool) (repr : Value → Text) (loads : Text → Loaded) :
    ∃ outcome : Text → Except Text (List (Text × Value)), ∀ lines : List Text,
      (parseStream lone repr loads lines = .ok (collect outcome (numbered 1 lines)) ↔
        ∀ line ∈ lines, strip isSpace line ≠ [] → (loads (strip isSpace line)).caught = true) ∧
      ((∃ result, parseStream lone repr loads lines = .ok result) ↔
        ∀ line ∈ lines, strip isSpace line ≠ [] →
          (loads (strip isSpace line)).caught = true) := by
  refine ⟨outcomeOf lone repr loads, fun lines => ?_⟩
  have hcaught : (∀ line ∈ lines, strip isSpace line ≠ [] →
      (loads (strip isSpace line)).caught = true) → parseStream lone repr loads lines =
        .ok (collect (outcomeOf lone repr loads) (numbered 1 lines)) := parseFrom_of_caught
  have hreturned : (∃ result, parseStream lone repr loads lines = .ok result) →
      ∀ line ∈ lines, strip isSpace line ≠ [] → (loads (strip isSpace line)).caught = true := by
    intro h line hline hvisible
    obtain ⟨result, hresult⟩ := h
    by_contra hnot
    have herror : ∃ e, parseStream lone repr loads lines = .error e :=
      parseFrom_of_not_caught hline hvisible (Bool.eq_false_iff.mpr hnot)
    obtain ⟨e, he⟩ := herror
    rw [he] at hresult
    cases hresult
  exact ⟨⟨fun h => hreturned ⟨_, h⟩, hcaught⟩, ⟨hreturned, fun h => ⟨_, hcaught h⟩⟩⟩

/-! ### A long integer -/

/-- A reader of lines that agrees with `json.loads` on digits without a leading zero and takes every
other text as malformed. -/
def loadsInteger (t : Text) : Loaded :=
  if t = [] ∨ t.all Char.isDigit = false ∨ (t.head? = some '0' ∧ t ≠ ['0']) then
    .decodeError "Expecting value: line 1 column 1 (char 0)".toList
  else if t.length ≤ 4300 then .value (.int (Nat.ofDigitChars 10 t 0))
  else .valueError

variable {n : ℕ}

theorem strip_ones : strip isSpace (List.replicate n '1') = List.replicate n '1' := by
  have hspace : ∀ c ∈ List.replicate n '1', isSpace c = false := by
    intro c hc
    rw [List.eq_of_mem_replicate hc]
    decide
  exact LineText.strip_self (fun c hc => hspace c (List.mem_of_mem_head? hc))
    fun c hc => hspace c (List.mem_of_mem_getLast? hc)

theorem loadsInteger_ones (h : 4300 < n) : loadsInteger (List.replicate n '1') = .valueError := by
  have hne : List.replicate n '1' ≠ [] := by
    rw [Ne, List.replicate_eq_nil_iff]
    omega
  have hdigits : (List.replicate n '1').all Char.isDigit = true := by
    rw [List.all_eq_true]
    intro c hc
    rw [List.eq_of_mem_replicate hc]
    decide
  have hhead : (List.replicate n '1').head? ≠ some '0' := by
    rw [List.head?_replicate, if_neg (by omega)]
    decide
  rw [loadsInteger, if_neg (by simp [hne, hdigits, hhead]), List.length_replicate,
    if_neg (by omega)]

/-- A record of a stream, and after it an integer of 4301 digits. -/
def longLines : List Text := [['x'], List.replicate 4301 '1']

/-- The stream is given up, with the record before. -/
theorem stream_aborted : ¬ ∃ (lone : ℕ → Bool) (repr : Value → Text)
    (outcome : Text → Except Text (List (Text × Value))),
    parseStream lone repr loadsInteger longLines =
      .ok (collect outcome (numbered 1 longLines)) := by
  rintro ⟨lone, repr, outcome, hreturned⟩
  have hmem : List.replicate 4301 '1' ∈ longLines := List.mem_cons_of_mem _ List.mem_cons_self
  have hne : strip isSpace (List.replicate 4301 '1') ≠ [] := by
    rw [strip_ones, Ne, List.replicate_eq_nil_iff]
    decide
  have hraised : (loadsInteger (strip isSpace (List.replicate 4301 '1'))).caught = false := by
    rw [strip_ones, loadsInteger_ones (by decide)]
    rfl
  have herror : ∃ e, parseStream lone repr loadsInteger longLines = .error e :=
    parseFrom_of_not_caught hmem hne hraised
  obtain ⟨e, he⟩ := herror
  rw [he] at hreturned
  cases hreturned

end Lichess
end OpenChess
