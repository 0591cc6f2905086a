import Mathlib.Data.Char
import Mathlib.Data.Prod.Lex
import OpenChess.Chess.Value
import OpenChess.Lib.Assoc
import OpenChess.Lib.Buckets
import OpenChess.Lib.LongestPrefix

/-!
# The opening-context table

Model of `graph/opening_context.py`. A table keeps its own copy of a registry and
of the variant identifiers. Its records are dictionaries it made itself, with the
four exact fields, so the tests of exact types are passed by construction; a key is
stored beside its record, and the runtime compares the two. Operations return the
table they leave behind also when they raise.
-/

namespace OpenChess
namespace OpeningContext

inductive FailureClass
  | malformedContextRecord
  | malformedPath
  | unknownVariant
  | unknownOpeningCode
  | conflictingContext
  deriving DecidableEq, Repr

inductive ErrorCode
  | malformedRequest
  | unknownVariant
  | unknownOpeningCode
  | conflictingContext
  deriving DecidableEq, Repr

/-- `FAILURE_MAPPING`. -/
def FailureClass.code : FailureClass → ErrorCode
  | .malformedContextRecord | .malformedPath => .malformedRequest
  | .unknownVariant => .unknownVariant
  | .unknownOpeningCode => .unknownOpeningCode
  | .conflictingContext => .conflictingContext

structure Entry where
  code : Text
  name : Text
  moves : List Text
  deriving DecidableEq, Repr

structure Registry where
  noneSentinel : Text
  entries : List Entry
  deriving DecidableEq, Repr

structure Key where
  variant : Text
  path : List Text
  deriving DecidableEq, Repr

structure Record where
  variant : Text
  pathMoves : List Text
  openingCode : Text
  openingName : Text
  deriving DecidableEq, Repr

def Record.key (r : Record) : Key := ⟨r.variant, r.pathMoves⟩

def Record.opening (r : Record) : Text × Text := (r.openingCode, r.openingName)

/-! ### Paths and resolution -/

def isFile (c : Char) : Bool := 'a' ≤ c && c ≤ 'h'

def isRank (c : Char) : Bool := '1' ≤ c && c ≤ '8'

/-- `_MOVE.fullmatch`. -/
def moveMatches : Text → Bool
  | f :: r :: f' :: r' :: promotion =>
    isFile f && isRank r && isFile f' && isRank r' &&
      [[], ['q'], ['r'], ['b'], ['n']].contains promotion
  | _ => false

/-- `_CODE.fullmatch`. -/
def codeMatches : Text → Bool
  | [volume, d, d'] =>
    'A' ≤ volume && volume ≤ 'E' && '0' ≤ d && d ≤ '9' && '0' ≤ d' && d' ≤ '9'
  | _ => false

/-- A move of a path: ASCII, of the pattern, between two squares. -/
def moveOk (move : Text) : Bool :=
  move.all (fun c => decide (c.toNat < 128)) && moveMatches move &&
    move.take 2 != (move.drop 2).take 2

def readMove (move : Value) : Option Text := move.text?.filter moveOk

/-- `_path`. -/
def path : Value → Except FailureClass (List Text)
  | .list moves =>
    match moves.mapM readMove with
    | none => .error .malformedPath
    | some out => .ok out
  | _ => .error .malformedPath

def pathValue (moves : List Text) : Value := .list (moves.map .str)

/-- The loop of `resolve`. -/
def bestEntry (moves : List Text) : List Entry → Option Entry → Option Entry
  | [], best => best
  | entry :: entries, best =>
    if moves.take entry.moves.length = entry.moves ∧
        ∀ b ∈ best, b.moves.length < entry.moves.length then
      bestEntry moves entries (some entry)
    else bestEntry moves entries best

/-- The pair `resolve` returns for a path it accepts. -/
def Registry.opening (registry : Registry) (moves : List Text) : Text × Text :=
  match bestEntry moves registry.entries none with
  | none => (registry.noneSentinel, registry.noneSentinel)
  | some best => (best.code, best.name)

/-- `resolve`. -/
def resolve (registry : Registry) (value : Value) : Except FailureClass (Text × Text) :=
  match path value with
  | .error e => .error e
  | .ok moves => .ok (registry.opening moves)

/-! ### The table -/

structure ContextTable where
  registry : Registry
  variants : List Text
  records : List (Key × Record)
  deriving DecidableEq, Repr

namespace ContextTable

/-- `__init__`, with both arguments given. -/
def new (registry : Registry) (variants : List Text) : ContextTable := ⟨registry, variants, []⟩

/-- `_make`. -/
def make (t : ContextTable) (variant value : Value) : Except FailureClass Record :=
  match variant with
  | .str variant =>
    if variant ∉ t.variants then .error .unknownVariant
    else
      match path value with
      | .error e => .error e
      | .ok moves =>
        match resolve t.registry (pathValue moves) with
        | .error e => .error e
        | .ok (code, name) => .ok ⟨variant, moves, code, name⟩
  | _ => .error .unknownVariant

/-- The dictionary `{entry["code"]: entry}`. -/
def entriesByCode (registry : Registry) : List (Text × Entry) :=
  Assoc.assignAll [] (registry.entries.map fun entry => (entry.code, entry))

/-- The registry tests of `_validate` on a code and a name. -/
def checkOpening (registry : Registry) (code name : Text) : Except FailureClass Unit :=
  if (code == registry.noneSentinel) != (name == registry.noneSentinel) then
    .error .malformedContextRecord
  else if code = registry.noneSentinel then .ok ()
  else if codeMatches code = false then .error .malformedContextRecord
  else
    match (entriesByCode registry).lookup code with
    | none => .error .unknownOpeningCode
    | some entry => if entry.name ≠ name then .error .malformedContextRecord else .ok ()

/-- `_validate`. -/
def validate (t : ContextTable) (r : Record) : Except FailureClass Record :=
  if r.variant ∉ t.variants then .error .unknownVariant
  else
    match path (pathValue r.pathMoves) with
    | .error e => .error e
    | .ok moves =>
      match checkOpening t.registry r.openingCode r.openingName with
      | .error e => .error e
      | .ok () =>
        match resolve t.registry (pathValue moves) with
        | .error e => .error e
        | .ok opening =>
          if r.opening ≠ opening then .error .malformedContextRecord
          else .ok ⟨r.variant, moves, r.openingCode, r.openingName⟩

/-- `insert`. -/
def insert (t : ContextTable) (variant value : Value) :
    Except FailureClass Record × ContextTable :=
  match t.make variant value with
  | .error e => (.error e, t)
  | .ok record =>
    match t.records.lookup record.key with
    | some existing =>
      if existing ≠ record then (.error .conflictingContext, t) else (.ok existing, t)
    | none => (.ok record, { t with records := Assoc.assign t.records record.key record })

/-- `_validated_pairs` of the table's own records. -/
def validatedPairs (t : ContextTable) :
    List (Key × Record) → Except FailureClass (List (Key × Record))
  | [] => .ok []
  | (key, raw) :: items =>
    match t.validate raw with
    | .error e => .error e
    | .ok record =>
      if key ≠ record.key then .error .malformedContextRecord
      else
        match t.validatedPairs items with
        | .error e => .error e
        | .ok pairs => .ok ((record.key, record) :: pairs)

/-- The loop of `merge` over the incoming records, on the staged ones. -/
def stage (t : ContextTable) :
    List (Key × Record) → List (Key × Record) → Except FailureClass (List (Key × Record))
  | [], staged => .ok staged
  | (key, record) :: items, staged =>
    if key ≠ record.key then .error .malformedContextRecord
    else
      match staged.lookup record.key with
      | some existing =>
        if record.opening ≠ existing.opening then .error .conflictingContext
        else if record ≠ existing then .error .malformedContextRecord
        else t.stage items staged
      | none =>
        match t.validate record with
        | .error e => .error e
        | .ok validated => t.stage items (Assoc.assign staged record.key validated)

/-- `merge`; the argument is `none` where it is no exact `ContextTable`. -/
def merge (t : ContextTable) (other : Option ContextTable) :
    Except FailureClass Unit × ContextTable :=
  match other with
  | none => (.error .malformedContextRecord, t)
  | some other =>
    match t.validatedPairs t.records with
    | .error e => (.error e, t)
    | .ok current =>
      match t.stage other.records current with
      | .error e => (.error e, t)
      | .ok staged => (.ok (), { t with records := staged })

/-- `serialize`. -/
def serialize (t : ContextTable) : List (Text ×ₗ Text ×ₗ Text ×ₗ Text) :=
  Buckets.sorted (t.records.map fun e =>
    toLex (e.2.variant, toLex ([' '].intercalate e.2.pathMoves,
      toLex (e.2.openingCode, e.2.openingName))))

end ContextTable

/-! ### The contract -/

/-- The registries the contract admits. -/
structure Registry.Admitted (registry : Registry) : Prop where
  sentinel : registry.noneSentinel = ['-']
  codes : ∀ entry ∈ registry.entries, codeMatches entry.code = true
  codesUnique : (registry.entries.map Entry.code).Nodup
  names : ∀ entry ∈ registry.entries, entry.name ≠ []
  moves : ∀ entry ∈ registry.entries, entry.moves ≠ []
  movesUnique : (registry.entries.map Entry.moves).Nodup

/-- Tables made by any inserts and merges, accepted or rejected, over one registry. -/
inductive Built (registry : Registry) : ContextTable → Prop
  | new (variants : List Text) : Built registry (.new registry variants)
  | insert {t : ContextTable} (variant value : Value) :
      Built registry t → Built registry (t.insert variant value).2
  | merge {t u : ContextTable} :
      Built registry t → Built registry u → Built registry (t.merge (some u)).2
  | mergeOther {t : ContextTable} : Built registry t → Built registry (t.merge none).2

end OpeningContext
end OpenChess

/-!
## Opening resolution

The loop of `resolve` finds a longest entry that starts the path. In an admitted
registry the entry is determined by the path and its code determines it, so that the
returned pair tells which entry was found.
-/

namespace OpenChess
namespace OpeningContext

open LongestPrefix

variable {registry : Registry} {moves : List Text} {entry : Entry} {best : Option Entry}
  {value : Value}

/-- The texts `_path` lets through. -/
def IsPath (moves : List Text) : Prop := ∀ move ∈ moves, moveOk move = true

instance (moves : List Text) : Decidable (IsPath moves) :=
  inferInstanceAs (Decidable (∀ move ∈ moves, moveOk move = true))

/-! ### Paths -/

theorem readMove_eq_some {v : Value} {move : Text} :
    readMove v = some move ↔ v = .str move ∧ moveOk move = true := by
  rw [readMove, Option.filter_eq_some_iff, Value.text?_eq_some]

theorem mapM_readMove {items : List Value} :
    items.mapM readMove = some moves ↔ items = moves.map .str ∧ IsPath moves := by
  induction items generalizing moves with
  | nil => cases moves <;> simp [IsPath]
  | cons v items ih =>
    simp only [List.mapM_cons, Option.bind_eq_bind, Option.bind_eq_some_iff, Option.pure_def,
      Option.some.injEq, readMove_eq_some, ih]
    constructor
    · rintro ⟨move, ⟨rfl, hmove⟩, rest, ⟨rfl, hrest⟩, rfl⟩
      exact ⟨rfl, List.forall_mem_cons.mpr ⟨hmove, hrest⟩⟩
    · rintro ⟨hitems, hmoves⟩
      cases moves with
      | nil => cases hitems
      | cons move moves =>
        obtain ⟨rfl, rfl⟩ := List.cons.inj hitems
        obtain ⟨hmove, hrest⟩ := List.forall_mem_cons.mp hmoves
        exact ⟨move, ⟨rfl, hmove⟩, moves, ⟨rfl, hrest⟩, rfl⟩

theorem path_eq_ok : path value = .ok moves ↔ value = pathValue moves ∧ IsPath moves := by
  cases value with
  | list items =>
    rw [path, pathValue, Value.list.injEq, ← mapM_readMove]
    cases items.mapM readMove <;> simp
  | _ => simp [path, pathValue]

theorem path_pathValue (h : IsPath moves) : path (pathValue moves) = .ok moves :=
  path_eq_ok.mpr ⟨rfl, h⟩

theorem resolve_pathValue (h : IsPath moves) :
    resolve registry (pathValue moves) = .ok (registry.opening moves) := by
  rw [resolve, path_pathValue h]

/-! ### The loop -/

/-- The candidate is always what a scan of the entries seen so far has found. -/
theorem bestEntry_found {seen entries : List Entry} (h : Found Entry.moves seen moves best) :
    Found Entry.moves (seen ++ entries) moves (bestEntry moves entries best) := by
  induction entries generalizing seen best with
  | nil => rwa [List.append_nil]
  | cons entry entries ih =>
    have hstarts : moves.take entry.moves.length = entry.moves ↔ entry.moves <+: moves :=
      eq_comm.trans List.prefix_iff_eq_take.symm
    rw [List.append_cons, bestEntry]
    split_ifs with hcond
    · obtain ⟨htake, hlt⟩ := hcond
      exact ih (h.replace (hstarts.mp htake) hlt)
    · by_cases hprefix : entry.moves <+: moves
      · cases best with
        | none => exact absurd ⟨hstarts.mpr hprefix, fun b hb => by cases hb⟩ hcond
        | some b =>
          refine ih (h.keep (Nat.le_of_not_lt fun hlt => hcond ⟨hstarts.mpr hprefix, ?_⟩))
          intro b' hb'
          rwa [← Option.some.inj hb']
      · exact ih (h.skip hprefix)

theorem found_bestEntry (registry : Registry) (moves : List Text) :
    Found Entry.moves registry.entries moves (bestEntry moves registry.entries none) :=
  bestEntry_found Found.nil

/-! ### Admitted registries -/

theorem Registry.Admitted.code_ne (h : registry.Admitted) (hentry : entry ∈ registry.entries) :
    entry.code ≠ registry.noneSentinel := by
  intro heq
  have hcode := h.codes entry hentry
  rw [heq, h.sentinel] at hcode
  exact absurd hcode (by decide)

theorem Registry.Admitted.eq_of_code (h : registry.Admitted) {entry' : Entry}
    (hentry : entry ∈ registry.entries) (hentry' : entry' ∈ registry.entries)
    (hcode : entry.code = entry'.code) : entry = entry' :=
  List.inj_on_of_nodup_map h.codesUnique hentry hentry' hcode

theorem bestEntry_eq (h : registry.Admitted)
    (hfound : Found Entry.moves registry.entries moves best) :
    bestEntry moves registry.entries none = best :=
  (found_bestEntry registry moves).eq h.movesUnique hfound

theorem Registry.opening_none (h : ∀ entry ∈ registry.entries, ¬entry.moves <+: moves) :
    registry.opening moves = (registry.noneSentinel, registry.noneSentinel) := by
  have hfound := found_bestEntry registry moves
  unfold Registry.opening
  cases hbest : bestEntry moves registry.entries none with
  | none => rfl
  | some best =>
    rw [hbest] at hfound
    exact absurd hfound.starts (h best hfound.mem)

/-- A path resolves to an entry exactly if the entry is its longest match. -/
theorem Registry.opening_eq_entry (h : registry.Admitted) (hentry : entry ∈ registry.entries) :
    registry.opening moves = (entry.code, entry.name) ↔
      Longest Entry.moves registry.entries moves entry := by
  constructor
  · intro hopening
    have hfound := found_bestEntry registry moves
    unfold Registry.opening at hopening
    cases hbest : bestEntry moves registry.entries none with
    | none =>
      rw [hbest] at hopening
      exact absurd (congrArg Prod.fst hopening).symm (h.code_ne hentry)
    | some best =>
      rw [hbest] at hopening hfound
      rwa [← h.eq_of_code hfound.mem hentry (congrArg Prod.fst hopening)]
  · intro hlongest
    have hbest : bestEntry moves registry.entries none = some entry := bestEntry_eq h hlongest
    rw [Registry.opening, hbest]

theorem Registry.opening_eq_sentinel (h : registry.Admitted) :
    registry.opening moves = (registry.noneSentinel, registry.noneSentinel) ↔
      ∀ entry ∈ registry.entries, ¬entry.moves <+: moves := by
  refine ⟨fun hopening => ?_, Registry.opening_none⟩
  have hfound := found_bestEntry registry moves
  unfold Registry.opening at hopening
  cases hbest : bestEntry moves registry.entries none with
  | none => rwa [hbest] at hfound
  | some best =>
    rw [hbest] at hopening hfound
    exact absurd (congrArg Prod.fst hopening) (h.code_ne hfound.mem)

/-- There is no other result. -/
theorem Registry.opening_cases (registry : Registry) (moves : List Text) :
    (∃ entry ∈ registry.entries, Longest Entry.moves registry.entries moves entry ∧
        registry.opening moves = (entry.code, entry.name)) ∨
      (∀ entry ∈ registry.entries, ¬entry.moves <+: moves) ∧
        registry.opening moves = (registry.noneSentinel, registry.noneSentinel) := by
  have hfound := found_bestEntry registry moves
  unfold Registry.opening
  cases hbest : bestEntry moves registry.entries none with
  | none =>
    rw [hbest] at hfound
    exact .inr ⟨hfound, rfl⟩
  | some best =>
    rw [hbest] at hfound
    exact .inl ⟨best, hfound.mem, hfound, rfl⟩

theorem Registry.opening_perm (h : registry.Admitted) {registry' : Registry}
    (hperm : registry.entries.Perm registry'.entries)
    (hsentinel : registry'.noneSentinel = registry.noneSentinel) :
    registry'.opening moves = registry.opening moves := by
  have hfound := (found_bestEntry registry' moves).perm hperm.symm
  rw [Registry.opening, Registry.opening, bestEntry_eq h hfound, hsentinel]

/-- A longer path keeps the entry, or moves to a longer one that extends it. -/
theorem Registry.opening_append (more : List Text) (h : registry.Admitted)
    (hentry : entry ∈ registry.entries)
    (hopening : registry.opening moves = (entry.code, entry.name)) :
    ∃ entry' ∈ registry.entries, registry.opening (moves ++ more) = (entry'.code, entry'.name) ∧
      (entry' = entry ∨
        entry.moves <+: entry'.moves ∧ entry.moves.length < entry'.moves.length) := by
  have hlongest := (Registry.opening_eq_entry h hentry).mp hopening
  obtain ⟨entry', -, hlongest'⟩ :=
    hlongest.found_append (found_bestEntry registry (moves ++ more))
  exact ⟨entry', hlongest'.mem, (Registry.opening_eq_entry h hlongest'.mem).mpr hlongest',
    hlongest.eq_or_lt h.movesUnique hlongest'⟩

end OpeningContext
end OpenChess
