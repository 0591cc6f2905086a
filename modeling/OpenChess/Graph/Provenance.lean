import OpenChess.Graph.Snapshot
import OpenChess.Graph.RouteEdge
import OpenChess.Graph.VersionStore
import OpenChess.Lib.Assoc
import OpenChess.Lib.Buckets

/-!
# The provenance table

Model of `graph/provenance.py`. A record names a target and the observations that
produced it. The table holds one record for each target identity and unites the
sources of records of one target.
-/

namespace OpenChess
namespace Provenance

open PositionDigest (Sha256)

inductive FailureClass
  | malformedProvenanceRecord
  | unknownTargetKind
  | malformedTargetIdentity
  | unknownSource
  deriving DecidableEq, Repr

inductive ErrorCode
  | malformedRequest
  | unknownTargetKind
  | unknownSource
  | internal
  deriving DecidableEq, Repr

/-- `failures.mapping` of the contract. -/
def FailureClass.error : FailureClass → ErrorCode
  | .malformedProvenanceRecord | .malformedTargetIdentity => .malformedRequest
  | .unknownTargetKind => .unknownTargetKind
  | .unknownSource => .unknownSource

/-! ### Sources -/

/-- `sources.entries` of the import contract. -/
def sourceIds : List Text :=
  ["pgn-file".toList, "pgn-multi".toList, "pgn-folder".toList, "pgn-watch".toList,
    "lichess-public".toList, "chesscom-public".toList, "cbh-licensed".toList]

/-- `source_entry.fields` of the contract. -/
def sourceFields : List Text :=
  ["source_id".toList, "game_id".toList, "first_observed_at".toList]

structure Source where
  sourceId : Text
  gameId : Text
  firstObservedAt : Text

/-- `_source_key`. -/
def Source.key (s : Source) : Text ×ₗ Text ×ₗ Text :=
  toLex (s.sourceId, toLex (s.gameId, s.firstObservedAt))

theorem Source.key_injective : Function.Injective Source.key := by
  intro s t h
  obtain ⟨a, b, c⟩ := s
  obtain ⟨a', b', c'⟩ := t
  simp only [Source.key, EmbeddingLike.apply_eq_iff_eq, Prod.mk.injEq] at h
  rw [Source.mk.injEq]
  exact h

/-- Sources are sorted by their keys. -/
instance : LinearOrder Source := LinearOrder.lift' Source.key Source.key_injective

def Source.toValue (s : Source) : Value :=
  .object sourceFields [.str s.sourceId, .str s.gameId, .str s.firstObservedAt]

/-- `_valid_timestamp`; `strptime` accepts the instants of the calendar. -/
def validTimestamp (value : Text) : Bool :=
  value.all (fun c => decide (c.toNat < 128)) && VersionStore.timestamp value

/-- `_valid_game_id`. -/
def validGameId (value : Text) : Bool :=
  value != [] && value.all fun c => decide (0x21 ≤ c.toNat ∧ c.toNat ≤ 0x7e)

/-- The body of the loop of `_canonical_sources`. -/
def readSource (entry : Value) : Except FailureClass Source :=
  match entry.fields? sourceFields with
  | some [.str sourceId, gameId, firstObservedAt] =>
    if sourceId ∉ sourceIds then .error .unknownSource
    else
      match gameId, firstObservedAt with
      | .str gameId, .str firstObservedAt =>
        if validGameId gameId = false then .error .malformedProvenanceRecord
        else if validTimestamp firstObservedAt = false then .error .malformedProvenanceRecord
        else .ok ⟨sourceId, gameId, firstObservedAt⟩
      | _, _ => .error .malformedProvenanceRecord
  | _ => .error .malformedProvenanceRecord

def sortSources (sources : Finset Source) : List Source := sources.sort (· ≤ ·)

/-- `[unique[key] for key in sorted(unique)]`. -/
def collapse (sources : List Source) : List Source := sortSources sources.toFinset

/-- `_canonical_sources`. -/
def canonicalSources (sources : Value) : Except FailureClass (List Source) :=
  match sources with
  | .list [] => .error .malformedProvenanceRecord
  | .list entries => (entries.mapM readSource).map collapse
  | _ => .error .malformedProvenanceRecord

/-! ### Targets -/

inductive TargetKind
  | transpositionNode
  | routeEdge
  | openingContext
  deriving DecidableEq, Repr

def TargetKind.text : TargetKind → Text
  | .transpositionNode => "transposition_node".toList
  | .routeEdge => "route_edge".toList
  | .openingContext => "opening_context".toList

/-- `targets.kinds` of the contract. -/
def targetKinds : List TargetKind := [.transpositionNode, .routeEdge, .openingContext]

def kindOf? (kind : Value) : Option TargetKind :=
  kind.text?.bind fun t => targetKinds.find? fun k => k.text == t

/-- The tuple of a target, its first component left to the constructor. -/
inductive Identity
  | transpositionNode (variant : Text) (node : List Text)
  | routeEdge (variant move : Text) (before after : List Text)
  | openingContext (variant : Text) (path : List Text)
  deriving DecidableEq, Repr

/-- `_move_text_valid`. -/
def moveTextValid (move : Text) : Bool := RouteEdge.moveOk move

/-- The members at odd places. -/
def odds {α : Type} : List α → List α
  | _ :: x :: rest => x :: odds rest
  | _ => []

/-- `ast.literal_eval` of the `repr` of a tuple of at least two texts without
quotes and backslashes. -/
def literalEval (text : Text) : Option (List Text) :=
  if Node.reprTuple (odds (text.splitOn Node.quote)) = text then
    some (odds (text.splitOn Node.quote))
  else none

def nodeTuple (sha : Sha256) (variant snapshot : Text) : Option (List Text) :=
  match Node.makeRecord sha (.str variant) (.str snapshot) with
  | .error _ => none
  | .ok record =>
    if record.snapshotFen ≠ snapshot then none
    else (Node.recordIdentity sha record).bind literalEval

def nodeFields : List Text := ["variant".toList, "snapshot_fen".toList]

def edgeFields : List Text :=
  ["variant".toList, "move".toList, "from_snapshot_fen".toList, "to_snapshot_fen".toList]

def contextFields : List Text := ["variant".toList, "path_moves".toList]

/-- `_node_target_identity`. -/
def nodeTargetIdentity (sha : Sha256) (target : Value) : Option Identity :=
  match target.fields? nodeFields with
  | some [.str variant, .str snapshot] =>
    (nodeTuple sha variant snapshot).map (.transpositionNode variant)
  | _ => none

/-- `_edge_target_identity`. -/
def edgeTargetIdentity (sha : Sha256) (target : Value) : Option Identity :=
  match target.fields? edgeFields with
  | some [.str variant, .str move, .str fromSnapshot, .str toSnapshot] =>
    if moveTextValid move = false then none
    else
      match nodeTuple sha variant fromSnapshot, nodeTuple sha variant toSnapshot with
      | some before, some after => some (.routeEdge variant move before after)
      | _, _ => none
  | _ => none

/-- `_context_target_identity`. -/
def contextTargetIdentity (target : Value) : Option Identity :=
  match target.fields? contextFields with
  | some [.str variant, .list path] =>
    if variant ∉ variantIds then none
    else
      match path.mapM Value.text? with
      | some path => if path.all moveTextValid then some (.openingContext variant path) else none
      | none => none
  | _ => none

/-- `_target_identity`; every refusal is `malformed_target_identity`. -/
def targetIdentity (sha : Sha256) (kind : TargetKind) (target : Value) :
    Except FailureClass Identity :=
  let identity :=
    match kind with
    | .transpositionNode => nodeTargetIdentity sha target
    | .routeEdge => edgeTargetIdentity sha target
    | .openingContext => contextTargetIdentity target
  match identity with
  | none => .error .malformedTargetIdentity
  | some identity => .ok identity

/-! ### Records -/

/-- `record.fields` of the contract. -/
def recordFields : List Text := ["target_kind".toList, "target".toList, "sources".toList]

structure Record where
  kind : TargetKind
  target : Value
  sources : List Source

def Record.toValue (r : Record) : Value :=
  .object recordFields [.str r.kind.text, r.target, .list (r.sources.map Source.toValue)]

/-- `validate_record`. -/
def validateRecord (sha : Sha256) (record : Value) : Except FailureClass Record :=
  match record.fields? recordFields with
  | some [kind, target, sources] =>
    match kindOf? kind with
    | none => .error .unknownTargetKind
    | some kind =>
      match canonicalSources sources with
      | .error e => .error e
      | .ok sources =>
        match targetIdentity sha kind target with
        | .error e => .error e
        | .ok _ => .ok ⟨kind, target, sources⟩
  | _ => .error .malformedProvenanceRecord

/-! ### The table -/

abbrev Key := TargetKind × Identity

abbrev Table := List (Key × Record)

def Table.new : Table := []

/-- `insert`. -/
def insert (sha : Sha256) (record : Value) (T : Table) : Except FailureClass Record × Table :=
  match validateRecord sha record with
  | .error e => (.error e, T)
  | .ok canonical =>
    match targetIdentity sha canonical.kind canonical.target with
    | .error e => (.error e, T)
    | .ok identity =>
      match T.lookup (canonical.kind, identity) with
      | none => (.ok canonical, Assoc.assign T (canonical.kind, identity) canonical)
      | some existing =>
        match canonicalSources
            (.list ((existing.sources ++ canonical.sources).map Source.toValue)) with
        | .error e => (.error e, T)
        | .ok sources =>
          if sources ≠ existing.sources then
            (.ok { existing with sources := sources },
              Assoc.assign T (canonical.kind, identity) { existing with sources := sources })
          else (.ok existing, T)

/-- The loop of `merge` on the staged table. -/
def mergeLoop (sha : Sha256) : List Value → Table → Except FailureClass Unit × Table
  | [], staged => (.ok (), staged)
  | record :: incoming, staged =>
    match insert sha record staged with
    | (.error e, staged) => (.error e, staged)
    | (.ok _, staged) => mergeLoop sha incoming staged

/-- `merge`; `incoming` is what `records` of the other object returns, `none` where
there is no such method or it raises. -/
def merge (sha : Sha256) (incoming : Option Value) (T : Table) : Except FailureClass Unit × Table :=
  match incoming with
  | some (.list incoming) =>
    match mergeLoop sha incoming T with
    | (.error e, _) => (.error e, T)
    | (.ok _, staged) => (.ok (), staged)
  | _ => (.error .malformedProvenanceRecord, T)

/-- `records`. -/
def records (T : Table) : Value := .list (T.map fun e => e.2.toValue)

/-! ### Serialization -/

/-- `repr` of a tuple, its members given by their `repr`. -/
def tupleText : List Text → Text
  | [] => ['(', ')']
  | [t] => '(' :: (t ++ [',', ')'])
  | ts => '(' :: ([',', ' '].intercalate ts ++ [')'])

def Identity.repr : Identity → Text
  | .transpositionNode variant node =>
    tupleText [Node.reprText TargetKind.transpositionNode.text, Node.reprText variant,
      tupleText (node.map Node.reprText)]
  | .routeEdge variant move before after =>
    tupleText [Node.reprText TargetKind.routeEdge.text, Node.reprText variant, Node.reprText move,
      tupleText (before.map Node.reprText), tupleText (after.map Node.reprText)]
  | .openingContext variant path =>
    tupleText [Node.reprText TargetKind.openingContext.text, Node.reprText variant,
      tupleText (path.map Node.reprText)]

/-- `repr` of a key. -/
def keyText (k : Key) : Text := tupleText [Node.reprText k.1.text, k.2.repr]

abbrev Row := Text ×ₗ Text ×ₗ List (Text ×ₗ Text ×ₗ Text)

def row (k : Key) (kind : TargetKind) (sources : List Source) : Row :=
  toLex (kind.text, toLex (keyText k, sources.map Source.key))

/-- `serialize`. -/
def serialize (T : Table) : List Row :=
  Buckets.sorted (T.map fun e => row e.1 e.2.kind e.2.sources)

end Provenance
end OpenChess
