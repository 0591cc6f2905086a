import OpenChess.ControlPlane.Equal

/-!
# Field declarations

Model of the field checks of `server/control_plane_versioning.py`. A checked declaration
keeps what was declared; the items of an array and the fields of an object are there
exactly where its type asks for them.
-/

namespace OpenChess
namespace ControlPlane

/-! ### Names -/

def lowerChar (c : Char) : Bool := decide ('a' ≤ c) && decide (c ≤ 'z')

def digitChar (c : Char) : Bool := decide ('0' ≤ c) && decide (c ≤ '9')

/-- A lowercase letter, then so many characters of a kind at most. -/
def nameGrammar (rest : Char → Bool) (n : ℕ) : Text → Bool
  | [] => false
  | c :: t => lowerChar c && t.all rest && decide (t.length ≤ n)

/-- `AREA`. -/
def areaGrammar : Text → Bool := nameGrammar (fun c => lowerChar c || c == '_') 31

/-- `FIELD`. -/
def fieldGrammar : Text → Bool := nameGrammar (fun c => lowerChar c || digitChar c || c == '_') 63

/-- `CHESS_TOKENS`. -/
def chessTokens : List Text :=
  ["game".toList, "games".toList, "move".toList, "moves".toList, "fen".toList, "pgn".toList,
    "san".toList, "uci".toList, "analysis".toList, "note".toList, "notes".toList,
    "position".toList, "board".toList, "eval".toList]

/-- `CHESS_TOKENS & set(name.split("_"))`. -/
def namesChess (name : Text) : Bool := (name.splitOn '_').any (chessTokens.contains ·)

/-! ### Declarations -/

/-- `ITEM_TYPES`. -/
inductive ItemKind
  | string
  | integer
  | number
  | boolean
  deriving DecidableEq, Repr

def ItemKind.text : ItemKind → Text
  | .string => "string".toList
  | .integer => "integer".toList
  | .number => "number".toList
  | .boolean => "boolean".toList

def itemKinds : List ItemKind := [.string, .integer, .number, .boolean]

def itemKindOf? (t : Text) : Option ItemKind := itemKinds.find? fun k => k.text == t

inductive Side
  | request
  | response
  deriving DecidableEq, Repr

/-- The declaration of a field. -/
inductive Spec
  | item (kind : ItemKind) (required writeOnly : Bool) (sample : Option Value)
  | array (items : ItemKind) (required writeOnly : Bool) (sample : Option Value)
  | object (fields : List (Text × Spec)) (required writeOnly : Bool)

abbrev Fields := List (Text × Spec)

def Spec.required : Spec → Bool
  | .item _ required _ _ => required
  | .array _ required _ _ => required
  | .object _ required _ => required

/-- The members every declaration has, and those some have. -/
def baseMembers (kind : Text) (required writeOnly : Bool) (sample : Option Value) :
    List (Text × Value) :=
  [("type".toList, .str kind), ("required".toList, .bool required)] ++
    (if writeOnly then [("write_only".toList, .bool true)] else []) ++
    (sample.map fun v => ("example".toList, v)).toList

mutual

/-- The dictionary of a declaration. -/
def Spec.toValue : Spec → Value
  | .item kind required writeOnly sample =>
    Value.ofMembers (baseMembers kind.text required writeOnly sample)
  | .array items required writeOnly sample =>
    Value.ofMembers (baseMembers "array".toList required writeOnly sample ++
      [("items".toList, .str items.text)])
  | .object fields required writeOnly =>
    Value.ofMembers (baseMembers "object".toList required writeOnly none ++
      [("fields".toList, Value.ofMembers (fieldMembers fields))])

def fieldMembers : List (Text × Spec) → List (Text × Value)
  | [] => []
  | (name, spec) :: fields => (name, spec.toValue) :: fieldMembers fields

end

/-! ### Checks -/

/-- `MAX_EXAMPLE_INT`. -/
def maxExampleInt : ℤ := 2 ^ 53 - 1

/-- `_example`, for a value that is not an array. -/
def sampleOk : ItemKind → Value → Bool
  | .string, .str _ => true
  | .integer, .int n => decide (-maxExampleInt ≤ n) && decide (n ≤ maxExampleInt)
  | .number, .float finite _ => finite
  | .number, .int n => decide (-maxExampleInt ≤ n) && decide (n ≤ maxExampleInt)
  | .boolean, .bool _ => true
  | _, _ => false

/-- `_example`, for an array. -/
def arraySampleOk (items : ItemKind) : Value → Bool
  | .list values => values.all (sampleOk items)
  | _ => false

/-- `FIELD_KEYS`. -/
def fieldKeys : List Text :=
  ["type".toList, "required".toList, "example".toList, "items".toList, "fields".toList,
    "write_only".toList]

/-- The `write_only` of a declaration; only a request may have it, and it is true. -/
def readWriteOnly (side : Side) : Option Value → Option Bool
  | none => some false
  | some (.bool true) => if side = .request then some true else none
  | some _ => none

/-- An example that is absent or passes its check. -/
def readSample (check : Value → Bool) : Option Value → Option (Option Value)
  | none => some none
  | some v => if check v then some (some v) else none

/-- The declaration of a type, from the members that depend on it. -/
def readKind (nested : Value → Option Fields) (kind : Text) (required writeOnly : Bool)
    (sample items fields : Option Value) : Option Spec :=
  if kind = "object".toList then
    match sample, items, fields with
    | none, none, some fields => (nested fields).map fun fields => .object fields required writeOnly
    | _, _, _ => none
  else if kind = "array".toList then
    match items, fields with
    | some (.str items), none =>
      (itemKindOf? items).bind fun items =>
        (readSample (arraySampleOk items) sample).map fun sample =>
          .array items required writeOnly sample
    | _, _ => none
  else
    match items, fields with
    | none, none =>
      (itemKindOf? kind).bind fun kind =>
        (readSample (sampleOk kind) sample).map fun sample => .item kind required writeOnly sample
    | _, _ => none

/-- The loop body of `_fields`. -/
def readSpec (side : Side) (nested : Value → Option Fields) (name : Text) (spec : Value) :
    Option Spec :=
  if fieldGrammar name = false ∨ namesChess name = true then none
  else
    match spec.members? with
    | none => none
    | some members =>
      if (members.map Prod.fst).all (fieldKeys.contains ·) then
        match members.lookup "type".toList, members.lookup "required".toList,
            readWriteOnly side (members.lookup "write_only".toList) with
        | some (.str kind), some (.bool required), some writeOnly =>
          readKind nested kind required writeOnly (members.lookup "example".toList)
            (members.lookup "items".toList) (members.lookup "fields".toList)
        | _, _, _ => none
      else none

def readLevel (side : Side) (nested : Value → Option Fields) (v : Value) : Option Fields :=
  match v.readMembers (readSpec side nested) with
  | none => none
  | some fields => if fields.length ≤ 256 then some fields else none

/-- `_fields`, with so many levels of objects left: the fields, or none where they are
rejected. -/
def readFields (side : Side) : ℕ → Value → Option Fields
  | 0 => readLevel side fun _ => none
  | levels + 1 => readLevel side (readFields side levels)

def topLevels : ℕ := 7

end ControlPlane
end OpenChess
