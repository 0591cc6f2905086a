import OpenChess.Chess.LiveObject
import OpenChess.Graph.Diff
import OpenChess.Store.RestoreSpec
import OpenChess.Store.LiveSpec

/-!
# Migration of stored states

Model of `store/migration.py` on live objects. The request and the source are containers of the
caller, and the oracle of the target digests may rewrite them each time it is called. The
source is frozen before the first call, and restored with the request after the last one.
-/

namespace OpenChess
namespace Migration

open Live (Objects Handle Oracle value)
open ObjectHeap.Heap (capture restore reach)
open PositionDigest (Sha256)
open TranspositionNode (Record)

inductive FailureClass
  | malformedMigrationRecord
  | unknownMigration
  | conflictingSource
  | divergentTarget
  deriving DecidableEq, Repr

inductive ErrorCode
  | malformedRequest
  | unknownMigration
  | conflictingSource
  | divergentTarget
  | internal
  deriving DecidableEq, Repr

/-- `failures.mapping` of the contract. -/
def FailureClass.error : FailureClass → ErrorCode
  | .malformedMigrationRecord => .malformedRequest
  | .unknownMigration => .unknownMigration
  | .conflictingSource => .conflictingSource
  | .divergentTarget => .divergentTarget

/-! ### Schemas -/

/-- `registry.schemas`: the tag of the digests of a schema under its id. -/
def schemas : List (Text × Text) :=
  [("store-v1".toList, "pdv1:".toList), ("store-v2".toList, "pdv2:".toList)]

/-- `registry.steps`. -/
def steps : List (Text × Text) := [("store-v1".toList, "store-v2".toList)]

/-- `_SCHEMA_RE`. -/
def isSchemaId (t : Text) : Bool :=
  "store-v".toList.isPrefixOf t &&
    match t.drop "store-v".toList.length with
    | c :: rest => decide ('1' ≤ c ∧ c ≤ '9') && rest.all Char.isDigit
    | [] => false

/-- `digest_grammar` of a schema. -/
def digestGrammar (schema digest : Text) : Bool :=
  (schemas.lookup schema).any fun tag => Hex.tagged tag 64 digest

/-- `_record_ok` past the shape of the record. -/
def recordOk (sha : Sha256) (schema key : Text) (r : Record) : Bool :=
  match Node.makeRecord sha (.str r.variant) (.str r.snapshotFen) with
  | .error _ => false
  | .ok derived =>
    match Node.recordIdentity sha derived with
    | none => false
    | some identity =>
      r.variant == derived.variant && r.snapshotFen == derived.snapshotFen &&
        digestGrammar schema r.digest && identity == key

/-- `_record_ok`: the record, if it is one of the schema. -/
def readEntry (sha : Sha256) (schema key : Text) (v : Value) : Option Record :=
  match Node.readRecord v with
  | none => none
  | some r => if recordOk sha schema key r then some r else none

def readSource (sha : Sha256) (schema : Text) (v : Value) : Option (List (Text × Record)) :=
  v.readMembers (readEntry sha schema)

/-! ### Requests -/

structure Request where
  fromSchema : Text
  toSchema : Text
  sourceId : Text
  registered : (fromSchema, toSchema) ∈ steps

def requestFields : List Text :=
  ["from_schema".toList, "to_schema".toList, "source_id".toList]

def knownSchema (t : Text) : Bool := isSchemaId t && (schemas.lookup t).isSome

/-- The checks of the request. -/
def readRequest (v : Value) : Except FailureClass Request :=
  match v.fields? requestFields with
  | some [.str fromSchema, .str toSchema, .str sourceId] =>
    if !(knownSchema fromSchema && knownSchema toSchema && Diff.isStateId sourceId) then
      .error .malformedMigrationRecord
    else if hstep : (fromSchema, toSchema) ∈ steps then
      .ok ⟨fromSchema, toSchema, sourceId, hstep⟩
    else .error .unknownMigration
  | _ => .error .malformedMigrationRecord

/-! ### Migration -/

structure Receipt where
  migrationId : Text
  fromSchema : Text
  toSchema : Text
  sourceId : Text
  targetId : Text
  state : Diff.State

/-- `derive_migration_id`. -/
def deriveMigrationId (sha : Sha256) (fromSchema toSchema sourceId targetId : Text) : Text :=
  "mg1:".toList ++ sha.hexdigest (['\n'].intercalate [fromSchema, toSchema, sourceId, targetId])

/-- `pdv2_digest`. -/
def pdv2Digest (sha : Sha256) (variant snapshotFen : Text) : Text :=
  "pdv2:".toList ++ sha.hexdigest (['\n'].intercalate [variant, snapshotFen])

def Request.receipt (sha : Sha256) (q : Request) (staged : Diff.State) : Receipt :=
  ⟨deriveMigrationId sha q.fromSchema q.toSchema q.sourceId (Diff.contentId sha staged),
    q.fromSchema, q.toSchema, q.sourceId, Diff.contentId sha staged, staged⟩

/-- `_call_target_oracle`, on the answer of the oracle. -/
def checkedDigest (schema : Text) (answer : Option Value) : Except FailureClass Text :=
  match answer with
  | some (.str digest) =>
    if digestGrammar schema digest then .ok digest else .error .divergentTarget
  | _ => .error .divergentTarget

/-- The loop over the records, from the n-th call. -/
def stage (o : Oracle (Text × Text)) (schema : Text) :
    ℕ → List (Text × Record) → Diff.State → Objects → Except FailureClass Diff.State × Objects
  | _, [], staged, h => (.ok staged, h)
  | n, e :: frozen, staged, h =>
    let (answer, h) := o.call n (e.2.variant, e.2.snapshotFen) h
    match checkedDigest schema answer with
    | .error err => (.error err, h)
    | .ok digest => stage o schema (n + 1) frozen (staged.insert e.1 { e.2 with digest }) h

def checkStaged (sha : Sha256) (schema : Text) (frozen staged : Diff.State) :
    Except FailureClass Diff.State :=
  if staged.keys ≠ frozen.keys ∨ staged.keys.card ≠ frozen.keys.card then .error .divergentTarget
  else if staged.items.all fun e => recordOk sha schema e.1 e.2 then .ok staged
  else .error .divergentTarget

/-- The `try` block of `migrate`: the staged state. -/
def transform (sha : Sha256) (o : Oracle (Text × Text)) (q : Request) (frozen : Diff.State)
    (h : Objects) : Except FailureClass Diff.State × Objects :=
  if Diff.contentId sha frozen ≠ q.sourceId then (.error .conflictingSource, h)
  else
    match stage o q.toSchema 0 frozen.items ∅ h with
    | (.error err, h) => (.error err, h)
    | (.ok staged, h) => (checkStaged sha q.toSchema frozen staged, h)

/-- `migrate`. -/
def migrate (sha : Sha256) (o : Oracle (Text × Text)) (request source : Handle) (h : Objects) :
    Except FailureClass Receipt × Objects :=
  match readRequest (value h 1 request) with
  | .error err => (.error err, h)
  | .ok q =>
    match readSource sha q.fromSchema (value h 2 source) with
    | none => (.error .malformedMigrationRecord, h)
    | some entries =>
      let saved := capture h (reach h 2 source ++ reach h 1 request)
      let (outcome, h') := transform sha o q (Dict.ofList entries) h
      (outcome.map (q.receipt sha), restore saved h')

end Migration
end OpenChess

/-!
## Migration is lossless

Whatever the oracle answers and rewrites, the request and the source have their old values
after a migration. A migration that returns has kept the keys, variants and snapshots of the
source, and its digests are the answers of the oracle.
-/

namespace OpenChess
namespace Migration

open Live (Objects Handle Oracle value Kept)
open ObjectHeap.Heap (capture restore reach Within)
open PositionDigest (Sha256)
open TranspositionNode (Record)

variable {sha : Sha256} {o : Oracle (Text × Text)} {h h' : Objects} {request source r : Handle}
  {schema key : Text} {record : Record} {v : Value} {q : Request} {l : List (Text × Record)}
  {frozen staged built : Diff.State} {n d : ℕ}

/-! ### Records of a schema -/

def Fits (schema key : Text) (r : Record) : Prop :=
  ∃ p, Node.Snapshot r.variant r.snapshotFen p ∧ digestGrammar schema r.digest = true ∧
    key = Node.key (Node.projection r.variant p)

theorem recordOk_iff : recordOk sha schema key record = true ↔ Fits schema key record := by
  constructor
  · intro h
    unfold recordOk at h
    split at h
    · cases h
    · rename_i derived hmake
      split at h
      · cases h
      · rename_i identity hidentity
        simp only [Bool.and_eq_true, beq_iff_eq] at h
        obtain ⟨⟨⟨hvariant, hsnapshot⟩, hgrammar⟩, rfl⟩ := h
        obtain ⟨p, hp, -, rfl⟩ := Node.recordIdentity_eq_some.mp hidentity
        rw [← hvariant, ← hsnapshot] at hp
        exact ⟨p, hp, hgrammar, by rw [hvariant]⟩
  · rintro ⟨p, hp, hgrammar, rfl⟩
    unfold recordOk
    rw [hp.makeRecord]
    simp only [hp.recordIdentity, hgrammar, beq_self_eq_true, Bool.and_self]

theorem readEntry_eq_some : readEntry sha schema key v = some record ↔
    Node.readRecord v = some record ∧ Fits schema key record := by
  unfold readEntry
  cases Node.readRecord v with
  | none => simp
  | some r =>
    simp only [Option.some.injEq]
    by_cases h : recordOk sha schema key r = true
    · rw [if_pos h, Option.some.injEq]
      exact ⟨fun heq => ⟨heq, heq ▸ recordOk_iff.mp h⟩, fun h' => h'.1⟩
    · rw [if_neg h]
      simp only [reduceCtorEq, false_iff, not_and]
      exact fun heq hfits => h (recordOk_iff.mpr (heq ▸ hfits))

/-- The source has distinct keys, and its records are of the schema. -/
structure Entries (schema : Text) (l : List (Text × Record)) : Prop where
  nodup : (l.map Prod.fst).Nodup
  fits : ∀ e ∈ l, Fits schema e.1 e.2

theorem entries_of_readSource (h : readSource sha schema v = some l) : Entries schema l := by
  obtain ⟨hnodup, hread⟩ := Value.readMembers_eq_some h
  refine ⟨hnodup, fun e he => ?_⟩
  obtain ⟨v, hv⟩ := hread e he
  exact (readEntry_eq_some.mp hv).2

/-! ### Captured containers -/

theorem within_record (hv : readEntry sha schema key (value h (d + 1) r) = some record) :
    h.Within (· ∈ reach h (d + 1) r) r := by
  obtain ⟨hread, -⟩ := readEntry_eq_some.mp hv
  unfold Node.readRecord at hread
  split at hread
  · rename_i hfields
    refine Live.within_leaves hfields (fun v hv => ?_) fun p hr _ => ?_
    · simp only [List.mem_cons, List.not_mem_nil, or_false] at hv
      obtain rfl | rfl | rfl := hv <;> rfl
    · rw [hr]
      exact List.mem_cons_self
  · cases hread

theorem within_source (hv : readSource sha schema (value h (d + 2) source) = some l) :
    h.Within (· ∈ reach h (d + 2) source) source := by
  unfold readSource Value.readMembers at hv
  split at hv
  · cases hv
  · rename_i members hmembers
    obtain ⟨p, rfl, -, hchildren⟩ := Live.exists_member hmembers
    refine .ptr p List.mem_cons_self fun c hc => ?_
    obtain ⟨e, he, -, hvalue⟩ := hchildren c hc
    obtain ⟨_, -, hread⟩ := Separated.exists_mem_of_mapM hv he
    obtain ⟨r, hr, -⟩ := Option.map_eq_some_iff.mp hread
    rw [← hvalue] at hr
    exact (within_record hr).mono fun q hq =>
      List.mem_cons_of_mem _ (List.mem_flatMap.mpr ⟨c, hc, hq⟩)

theorem readRequest_eq_ok (hq : readRequest v = .ok q) :
    v.fields? requestFields = some [.str q.fromSchema, .str q.toSchema, .str q.sourceId] ∧
      Diff.isStateId q.sourceId = true := by
  unfold readRequest at hq
  split at hq
  · rename_i hfields
    split_ifs at hq with hknown hstep
    cases hq
    simp only [Bool.not_eq_true', Bool.not_eq_false, Bool.and_eq_true] at hknown
    exact ⟨hfields, hknown.2⟩
  · cases hq

/-- A request that was read is a captured container. -/
theorem within_request (hq : readRequest (value h (d + 1) request) = .ok q) :
    h.Within (· ∈ reach h (d + 1) request) request := by
  refine Live.within_fields (readRequest_eq_ok hq).1 (fun p hr _ => ?_) ?_
  · rw [hr]
    exact List.mem_cons_self
  · intro p c name v hr hmem hmember hvalue
    apply Live.within_leaf (d := d)
    rw [hvalue]
    simp only [requestFields, List.zip_cons_cons, List.zip_nil_right, List.mem_cons,
      Prod.mk.injEq, List.not_mem_nil, or_false] at hmem
    obtain ⟨-, rfl⟩ | ⟨-, rfl⟩ | ⟨-, rfl⟩ := hmem <;> rfl

/-! ### Staging -/

/-- The answers of the oracle on these records, from the n-th call, each on what the calls
before have left. -/
def answers (o : Oracle (Text × Text)) : ℕ → List (Text × Record) → Objects → List (Option Value)
  | _, [], _ => []
  | n, e :: l, h =>
    let (answer, h) := o.call n (e.2.variant, e.2.snapshotFen) h
    answer :: answers o (n + 1) l h

def redigest (l : List (Text × Record)) (digests : List Text) : List (Text × Record) :=
  l.zipWith (fun e digest => (e.1, { e.2 with digest })) digests

theorem checkedDigest_eq_ok {answer : Option Value} {digest : Text} :
    checkedDigest schema answer = .ok digest ↔
      answer = some (.str digest) ∧ digestGrammar schema digest = true := by
  constructor
  · intro h
    unfold checkedDigest at h
    split at h
    · split_ifs at h with hgrammar
      cases h
      exact ⟨rfl, hgrammar⟩
    · cases h
  · rintro ⟨rfl, hgrammar⟩
    exact if_pos hgrammar

theorem stage_eq_ok : (stage o schema n l staged h).1 = .ok built ↔
    ∃ digests, answers o n l h = digests.map (fun digest => some (.str digest)) ∧
      (∀ digest ∈ digests, digestGrammar schema digest = true) ∧
      built = Dict.insertAll (redigest l digests) staged := by
  induction l generalizing n staged h with
  | nil =>
    rw [stage, Except.ok.injEq]
    constructor
    · rintro rfl
      exact ⟨[], rfl, fun _ hd => absurd hd List.not_mem_nil, rfl⟩
    · rintro ⟨digests, hanswers, -, rfl⟩
      obtain rfl := List.map_eq_nil_iff.mp hanswers.symm
      rfl
  | cons e l ih =>
    rw [stage, answers]
    constructor
    · intro hstage
      cases hdigest : checkedDigest schema (o.call n (e.2.variant, e.2.snapshotFen) h).1 with
      | error err => simp only [hdigest, reduceCtorEq] at hstage
      | ok digest =>
        simp only [hdigest] at hstage
        obtain ⟨digests, hanswers, hgrammar, rfl⟩ := ih.mp hstage
        obtain ⟨hanswer, hfirst⟩ := checkedDigest_eq_ok.mp hdigest
        refine ⟨digest :: digests, ?_, List.forall_mem_cons.mpr ⟨hfirst, hgrammar⟩, rfl⟩
        simp only [hanswers, hanswer, List.map_cons]
    · rintro ⟨digests, hanswers, hgrammar, rfl⟩
      cases digests with
      | nil => cases hanswers
      | cons digest digests =>
        obtain ⟨hanswer, hrest⟩ := List.cons.inj hanswers
        obtain ⟨hfirst, hgrammar⟩ := List.forall_mem_cons.mp hgrammar
        simp only [checkedDigest_eq_ok.mpr ⟨hanswer, hfirst⟩]
        exact ih.mpr ⟨digests, hrest, hgrammar, rfl⟩

theorem exists_digests {found : List (Option Value)} (hfound : ∀ answer ∈ found,
    ∃ digest, answer = some (.str digest) ∧ digestGrammar schema digest = true) :
    ∃ digests : List Text, found = digests.map (fun digest => some (.str digest)) ∧
      ∀ digest ∈ digests, digestGrammar schema digest = true := by
  induction found with
  | nil => exact ⟨[], rfl, fun _ hd => absurd hd List.not_mem_nil⟩
  | cons answer found ih =>
    obtain ⟨⟨digest, rfl, hdigest⟩, hrest⟩ := List.forall_mem_cons.mp hfound
    obtain ⟨digests, rfl, hdigests⟩ := ih hrest
    exact ⟨digest :: digests, rfl, List.forall_mem_cons.mpr ⟨hdigest, hdigests⟩⟩

theorem length_answers (o : Oracle (Text × Text)) (n : ℕ) (l : List (Text × Record)) (h : Objects) :
    (answers o n l h).length = l.length := by
  induction l generalizing n h with
  | nil => rfl
  | cons e l ih => exact congrArg (· + 1) (ih _ _)

theorem map_fst_redigest {digests : List Text} (hlength : digests.length = l.length) :
    (redigest l digests).map Prod.fst = l.map Prod.fst := by
  induction l generalizing digests with
  | nil => rfl
  | cons e l ih =>
    cases digests with
    | nil => cases hlength
    | cons digest digests =>
      exact congrArg (List.cons e.1) (ih (Nat.succ.inj hlength))

theorem lookup_redigest {digests : List Text} (hlength : digests.length = l.length)
    (hnodup : (l.map Prod.fst).Nodup) {i : ℕ} (hentry : l[i]? = some (key, record)) {digest : Text}
    (hdigest : digests[i]? = some digest) :
    (Dict.insertAll (redigest l digests) ∅).lookup key = some { record with digest } := by
  have hkeys : ((redigest l digests).map Prod.fst).Nodup := by rwa [map_fst_redigest hlength]
  have hmem : (redigest l digests)[i]? = some (key, { record with digest }) := by
    rw [redigest, List.getElem?_zipWith, hentry, hdigest]
  rw [Dict.lookup_insertAll hkeys,
    (Dict.lookup_eq_some_iff_mem hkeys).mpr (List.mem_of_getElem? hmem)]
  rfl

/-- What a migration returns of a source: its records with the answers of the oracle as their
digests, one call for each in the order of the keys. -/
structure Lossless (sha : Sha256) (o : Oracle (Text × Text)) (q : Request) (frozen : Diff.State)
    (h : Objects) (receipt : Receipt) : Prop where
  derived : receipt = q.receipt sha receipt.state
  sourceId : receipt.sourceId = Diff.contentId sha frozen
  keys : receipt.state.keys = frozen.keys
  digests : ∀ (i : ℕ) (k : Text) (r : Record), frozen.items[i]? = some (k, r) → ∃ digest : Text,
    (answers o 0 frozen.items h)[i]? = some (some (.str digest)) ∧
      receipt.state.lookup k = some { r with digest }
  valid : ∀ k r, receipt.state.lookup k = some r → Fits q.toSchema k r

theorem checkStaged_redigest {digests : List Text} (hlength : digests.length = frozen.items.length)
    (hfits : ∀ e ∈ frozen.items, Fits schema e.1 e.2) {target : Text}
    (hgrammar : ∀ digest ∈ digests, digestGrammar target digest = true) :
    checkStaged sha target frozen (Dict.insertAll (redigest frozen.items digests) ∅) =
      .ok (Dict.insertAll (redigest frozen.items digests) ∅) := by
  have hfst := map_fst_redigest hlength
  have hnodup : ((redigest frozen.items digests).map Prod.fst).Nodup := by
    rw [hfst]
    exact Dict.nodup_items frozen
  have hlookup : ∀ k, (Dict.insertAll (redigest frozen.items digests) ∅).lookup k =
      (redigest frozen.items digests).lookup k := fun k => by
    rw [Dict.lookup_insertAll hnodup, Finmap.lookup_empty, Option.or_none]
  have hkeys : (Dict.insertAll (redigest frozen.items digests) ∅).keys = frozen.keys := by
    ext k
    rw [Finmap.mem_keys, Finmap.mem_keys, Finmap.mem_iff, Finmap.mem_iff]
    simp only [hlookup, ← Dict.lookup_items frozen]
    constructor
    · rintro ⟨r, hr⟩
      exact Dict.exists_lookup (hfst ▸ List.mem_map_of_mem (f := Prod.fst) (Dict.mem_of_lookup hr))
    · rintro ⟨r, hr⟩
      exact Dict.exists_lookup
        (hfst.symm ▸ List.mem_map_of_mem (f := Prod.fst) (Dict.mem_of_lookup hr))
  have hall : ∀ e ∈ (Dict.insertAll (redigest frozen.items digests) ∅).items,
      recordOk sha target e.1 e.2 = true := by
    rintro ⟨k, r⟩ he
    have hmem := Dict.mem_items.mp he
    rw [hlookup, Dict.lookup_eq_some_iff_mem hnodup] at hmem
    obtain ⟨i, hi⟩ := List.mem_iff_getElem?.mp hmem
    rw [redigest, List.getElem?_zipWith_eq_some] at hi
    obtain ⟨e', digest, he', hdigest, heq⟩ := hi
    obtain ⟨rfl, rfl⟩ := Prod.mk.inj heq
    obtain ⟨p, hp, -, hkey⟩ := hfits e' (List.mem_of_getElem? he')
    exact recordOk_iff.mpr ⟨p, hp, hgrammar digest (List.mem_of_getElem? hdigest), hkey⟩
  unfold checkStaged
  rw [if_neg (not_or.mpr ⟨not_not.mpr hkeys, not_not.mpr (congrArg Finset.card hkeys)⟩),
    if_pos (List.all_eq_true.mpr hall)]

theorem transform_eq_ok : (transform sha o q frozen h).1 = .ok staged ↔
    Diff.contentId sha frozen = q.sourceId ∧
      ∃ digests, answers o 0 frozen.items h = digests.map (fun digest => some (.str digest)) ∧
        (∀ digest ∈ digests, digestGrammar q.toSchema digest = true) ∧
        staged = Dict.insertAll (redigest frozen.items digests) ∅ ∧
        checkStaged sha q.toSchema frozen staged = .ok staged := by
  unfold transform
  by_cases hid : Diff.contentId sha frozen = q.sourceId
  · rw [if_neg (not_not.mpr hid), and_iff_right hid]
    constructor
    · intro htransform
      cases hstage : stage o q.toSchema 0 frozen.items ∅ h with
      | mk outcome h' =>
        cases outcome with
        | error err => simp only [hstage, reduceCtorEq] at htransform
        | ok built =>
          simp only [hstage] at htransform
          obtain ⟨digests, hanswers, hgrammar, hbuilt⟩ := stage_eq_ok.mp (congrArg Prod.fst hstage)
          have hsame : built = staged := by
            unfold checkStaged at htransform
            split_ifs at htransform
            exact Except.ok.inj htransform
          subst hsame
          exact ⟨digests, hanswers, hgrammar, hbuilt, htransform⟩
    · rintro ⟨digests, hanswers, hgrammar, hbuilt, hcheck⟩
      have hstage := stage_eq_ok.mpr ⟨digests, hanswers, hgrammar, hbuilt⟩
      cases hout : stage o q.toSchema 0 frozen.items ∅ h with
      | mk outcome h' =>
        rw [hout] at hstage
        obtain rfl : outcome = .ok staged := hstage
        exact hcheck
  · rw [if_pos hid]
    simp only [reduceCtorEq, hid, false_and]

theorem lossless_of_transform (htransform : (transform sha o q frozen h).1 = .ok staged) :
    Lossless sha o q frozen h (q.receipt sha staged) := by
  obtain ⟨hid, digests, hanswers, -, hbuilt, hcheck⟩ := transform_eq_ok.mp htransform
  unfold checkStaged at hcheck
  split_ifs at hcheck with hkeys hall
  have hlength : digests.length = frozen.items.length := by
    rw [← length_answers o 0 frozen.items h, hanswers, List.length_map]
  refine ⟨rfl, hid.symm, not_not.mp (not_or.mp hkeys).1, fun i k r hentry => ?_,
    fun k r hr => ?_⟩
  · have hi : i < digests.length := by
      rw [hlength]
      exact (List.getElem?_eq_some_iff.mp hentry).1
    have hdigest : digests[i]? = some digests[i] := List.getElem?_eq_getElem hi
    refine ⟨digests[i], ?_, ?_⟩
    · rw [hanswers, List.getElem?_map, hdigest, Option.map_some]
    · rw [Request.receipt, hbuilt]
      exact lookup_redigest hlength (Dict.nodup_items frozen) hentry hdigest
  · exact recordOk_iff.mp (List.all_eq_true.mp hall (k, r) (Dict.mem_items.mpr hr))

/-! ### Runs -/

/-- The call is given this request and a source of this state. -/
def Reads (sha : Sha256) (request source : Handle) (h : Objects) (q : Request) (s : Diff.State) :
    Prop :=
  readRequest (value h 1 request) = .ok q ∧
    ∃ entries, readSource sha q.fromSchema (value h 2 source) = some entries ∧
      Dict.ofList entries = s

theorem migrate_cases (sha : Sha256) (o : Oracle (Text × Text)) (request source : Handle)
    (h : Objects) :
    (∃ err, migrate sha o request source h = (.error err, h)) ∨
    ∃ q s g, Reads sha request source h q s ∧ migrate sha o request source h =
      ((transform sha o q s h).1.map (q.receipt sha),
        restore (capture h (reach h 2 source ++ reach h 1 request)) g) := by
  unfold migrate
  cases hq : readRequest (value h 1 request) with
  | error err => exact .inl ⟨err, rfl⟩
  | ok q =>
    cases hentries : readSource sha q.fromSchema (value h 2 source) with
    | none => exact .inl ⟨.malformedMigrationRecord, by simp only [hentries]⟩
    | some entries =>
      exact .inr ⟨q, Dict.ofList entries, (transform sha o q (Dict.ofList entries) h).2,
        ⟨hq, entries, hentries, rfl⟩, by simp only [hentries]⟩

theorem kept_migrate (sha : Sha256) (o : Oracle (Text × Text)) (request source : Handle)
    (h : Objects) : Kept h (migrate sha o request source h).2 request ∧
      Kept h (migrate sha o request source h).2 source := by
  obtain ⟨err, hrun⟩ | ⟨q, s, g, ⟨hq, entries, hentries, -⟩, hrun⟩ :=
    migrate_cases sha o request source h
  · rw [hrun]
    exact ⟨.refl, .refl⟩
  · rw [hrun]
    exact ⟨Live.kept_restored g ((within_request (d := 0) hq).mono fun p hp =>
        List.mem_append_right _ hp),
      Live.kept_restored g ((within_source (d := 0) hentries).mono fun p hp =>
        List.mem_append_left _ hp)⟩

theorem lossless_migrate {receipt : Receipt}
    (hrun : (migrate sha o request source h).1 = .ok receipt) :
    ∃ q s, Reads sha request source h q s ∧ Lossless sha o q s h receipt := by
  obtain ⟨err, herror⟩ | ⟨q, s, g, hreads, houtcome⟩ := migrate_cases sha o request source h
  · rw [herror] at hrun
    cases hrun
  · rw [houtcome] at hrun
    cases htransform : (transform sha o q s h).1 with
    | error err =>
      simp only [htransform, Except.map, reduceCtorEq] at hrun
    | ok staged =>
      simp only [htransform, Except.map, Except.ok.injEq] at hrun
      obtain rfl := hrun
      exact ⟨q, s, hreads, lossless_of_transform htransform⟩

/-- A migration returns where the state id is the one of the request and every answer of the
oracle is a digest of the target schema. -/
theorem exists_receipt_iff {s : Diff.State} (hreads : Reads sha request source h q s) :
    (∃ receipt, (migrate sha o request source h).1 = .ok receipt) ↔
      Diff.contentId sha s = q.sourceId ∧ ∀ answer ∈ answers o 0 s.items h,
        ∃ digest, answer = some (.str digest) ∧ digestGrammar q.toSchema digest = true := by
  obtain ⟨hq, entries, hentries, rfl⟩ := hreads
  have hrun : (migrate sha o request source h).1 =
      (transform sha o q (Dict.ofList entries) h).1.map (q.receipt sha) := by
    rw [migrate, hq]
    simp only [hentries]
  have hvalid := entries_of_readSource hentries
  have hfits : ∀ e ∈ (Dict.ofList entries).items, Fits q.fromSchema e.1 e.2 := by
    intro e he
    have hlookup := Dict.mem_items.mp he
    rw [Dict.lookup_ofList, Dict.lookup_eq_some_iff_mem hvalid.nodup] at hlookup
    exact hvalid.fits _ hlookup
  rw [hrun]
  constructor
  · rintro ⟨receipt, hreceipt⟩
    cases htransform : (transform sha o q (Dict.ofList entries) h).1 with
    | error err => simp only [htransform, Except.map, reduceCtorEq] at hreceipt
    | ok staged =>
      obtain ⟨hid, digests, hanswers, hgrammar, -⟩ := transform_eq_ok.mp htransform
      refine ⟨hid, fun answer hanswer => ?_⟩
      rw [hanswers] at hanswer
      obtain ⟨digest, hdigest, rfl⟩ := List.mem_map.mp hanswer
      exact ⟨digest, rfl, hgrammar digest hdigest⟩
  · rintro ⟨hid, hanswers⟩
    obtain ⟨digests, hdigests⟩ := exists_digests hanswers
    have hlength : digests.length = (Dict.ofList entries).items.length := by
      rw [← length_answers o 0 (Dict.ofList entries).items h, hdigests.1, List.length_map]
    have htransform := transform_eq_ok.mpr ⟨hid, digests, hdigests.1, hdigests.2, rfl,
      checkStaged_redigest hlength hfits hdigests.2⟩
    exact ⟨_, by rw [htransform]; rfl⟩

/-! ### Sources of one request -/

theorem separable_of_fits (hfrom : schema = "store-v1".toList) (hfits : Fits schema key record) :
    Diff.Separable (key, record) := by
  obtain ⟨p, hp, hgrammar, rfl⟩ := hfits
  subst hfrom
  exact Diff.separable_of_snapshot hp hgrammar

theorem fromSchema_eq (q : Request) : q.fromSchema = "store-v1".toList :=
  (Prod.mk.inj (List.mem_singleton.mp q.registered)).1

/-- Two sources of one request whose state ids agree are equal, unless the hash collides. -/
theorem sameState_of_contentId {w : Value} {l' : List (Text × Record)}
    (hl : readSource sha q.fromSchema v = some l) (hl' : readSource sha q.fromSchema w = some l')
    (hsha : sha.Separates (Diff.stateText (Dict.ofList l)) (Diff.stateText (Dict.ofList l')))
    (hid : Diff.contentId sha (Dict.ofList l) = Diff.contentId sha (Dict.ofList l')) :
    Restore.SameState v w := by
  have hseparable : ∀ l : List (Text × Record), Entries q.fromSchema l →
      ∀ e ∈ (Dict.ofList l).items, Diff.Separable e := by
    intro l hentries e he
    have hlookup := Dict.mem_items.mp he
    rw [Dict.lookup_ofList, Dict.lookup_eq_some_iff_mem hentries.nodup] at hlookup
    exact separable_of_fits (fromSchema_eq q) (hentries.fits _ hlookup)
  have htext := hsha (List.append_cancel_left hid)
  have hsame := Diff.stateText_injective (hseparable l (entries_of_readSource hl))
    (hseparable l' (entries_of_readSource hl')) htext
  exact Restore.sameState_of_readMembers (fun _ _ _ hread => (readEntry_eq_some.mp hread).1)
    hl hl' hsame

/-- Whatever the oracle answers and rewrites, the request and the source have their old values
after a migration, and one that returns is lossless. Two sources accepted under one request
are equal, unless the hash collides on their texts. -/
theorem migration_lossless (sha : Sha256) :
    (∀ o request source h,
      (Kept h (migrate sha o request source h).2 request ∧
        Kept h (migrate sha o request source h).2 source) ∧
      ∀ receipt, (migrate sha o request source h).1 = .ok receipt →
        ∃ q s, Reads sha request source h q s ∧ Lossless sha o q s h receipt) ∧
    ∀ q o request source h receipt s o' request' source' h' receipt' s',
      (migrate sha o request source h).1 = .ok receipt → Reads sha request source h q s →
      (migrate sha o' request' source' h').1 = .ok receipt' → Reads sha request' source' h' q s' →
      sha.Separates (Diff.stateText s) (Diff.stateText s') →
      Restore.SameState (value h 2 source) (value h' 2 source') := by
  refine ⟨fun o request source h => ⟨kept_migrate sha o request source h,
    fun receipt hrun => lossless_migrate hrun⟩, ?_⟩
  intro q o request source h receipt s o' request' source' h' receipt' s' hrun hreads hrun' hreads'
    hsha
  have hid : ∀ (o : Oracle (Text × Text)) (request source : Handle) (h : Objects)
      (receipt : Receipt) (s : Diff.State), (migrate sha o request source h).1 = .ok receipt →
      Reads sha request source h q s → Diff.contentId sha s = q.sourceId := by
    intro o request source h receipt s hrun hreads
    obtain ⟨q', s', hreads', hlossless⟩ := lossless_migrate hrun
    obtain rfl := Except.ok.inj (hreads.1.symm.trans hreads'.1)
    obtain ⟨-, entries, hentries, rfl⟩ := hreads
    obtain ⟨-, entries', hentries', rfl⟩ := hreads'
    obtain rfl := Option.some.inj (hentries.symm.trans hentries')
    rw [← hlossless.sourceId, hlossless.derived, Request.receipt]
  have hsame := (hid o request source h receipt s hrun hreads).trans
    (hid o' request' source' h' receipt' s' hrun' hreads').symm
  obtain ⟨-, entries, hentries, rfl⟩ := hreads
  obtain ⟨-, entries', hentries', rfl⟩ := hreads'
  exact sameState_of_contentId hentries hentries' hsha hsame

/-! ### The bare kings -/

def bareSource (sha : Sha256) : List (Text × Record) :=
  [(Node.bareKey .white, Node.bareRecord sha .white)]

def bareRequest (sha : Sha256) : Request :=
  ⟨"store-v1".toList, "store-v2".toList, Diff.contentId sha (Dict.ofList (bareSource sha)),
    List.mem_cons_self⟩

/-- The source of the bare kings, and the request of its migration. -/
def bareObjects (sha : Sha256) : Objects :=
  (((⟨fun _ => .list [], 0⟩ : Objects).alloc (Live.dict Node.recordFields
    [Live.text (Node.bareRecord sha .white).variant, Live.text (Node.bareRecord sha .white).digest,
      Live.text (Node.bareRecord sha .white).snapshotFen])).alloc
    (Live.dict [Node.bareKey .white] [.ptr 0])).alloc
    (Live.dict requestFields [Live.text "store-v1".toList, Live.text "store-v2".toList,
      Live.text (bareRequest sha).sourceId])

theorem readRequest_bareObjects (sha : Sha256) :
    readRequest (value (bareObjects sha) 1 (.ptr 2)) = .ok (bareRequest sha) := by
  have hrequest : (bareObjects sha).cells 2 = Live.dict requestFields [Live.text "store-v1".toList,
      Live.text "store-v2".toList, Live.text (bareRequest sha).sourceId] := rfl
  have hnodup : requestFields.Nodup := by decide
  have hknown : knownSchema "store-v1".toList = true ∧ knownSchema "store-v2".toList = true := by
    decide
  have hid : Diff.isStateId (bareRequest sha).sourceId = true := sha.tagged _ _
  have hstep : ("store-v1".toList, "store-v2".toList) ∈ steps := List.mem_cons_self
  rw [Live.value_object hrequest, readRequest, Value.fields?_object hnodup rfl]
  simp only [List.map_cons, List.map_nil, Live.text, Live.value_atom, Live.Atom.value, hknown, hid,
    Bool.and_self, Bool.not_true, Bool.false_eq_true, if_false, dif_pos hstep]
  rfl

theorem readSource_bareObjects (sha : Sha256) :
    readSource sha "store-v1".toList (value (bareObjects sha) 2 (.ptr 1)) =
      some (bareSource sha) := by
  have hrecord : (bareObjects sha).cells 0 = Live.dict Node.recordFields
      [Live.text (Node.bareRecord sha .white).variant,
        Live.text (Node.bareRecord sha .white).digest,
        Live.text (Node.bareRecord sha .white).snapshotFen] := rfl
  have hsource : (bareObjects sha).cells 1 = Live.dict [Node.bareKey .white] [.ptr 0] := rfl
  have hfits : Fits "store-v1".toList (Node.bareKey .white) (Node.bareRecord sha .white) :=
    ⟨_, Node.snapshot_bareKings .white, TranspositionNode.digestFormat_digest sha _, rfl⟩
  have hread : readSource sha "store-v1".toList
      (.ofMembers ((bareSource sha).map fun e => (e.1, Node.recordValue e.2))) =
      some (bareSource sha) :=
    Value.readMembers_ofMembers (List.nodup_singleton _) fun e he => by
      obtain rfl := List.mem_singleton.mp he
      exact readEntry_eq_some.mpr ⟨Node.readRecord_recordValue _, hfits⟩
  rw [Live.value_object hsource]
  simp only [List.map_cons, List.map_nil, Live.value_object hrecord, Live.text, Live.value_atom]
  exact hread

theorem digestGrammar_pdv2Digest (sha : Sha256) (variant snapshotFen : Text) :
    digestGrammar "store-v2".toList (pdv2Digest sha variant snapshotFen) = true := by
  have hlookup : schemas.lookup "store-v2".toList = some "pdv2:".toList := by decide
  rw [digestGrammar, hlookup]
  exact sha.tagged _ _

/-- The bare kings are migrated, though the oracle empties every container. -/
theorem migration_lossless_bareKings : ∃ receipt s,
    Kept (bareObjects (.lengths 64)) (migrate (.lengths 64)
      (Live.wiping fun a => some (.str (pdv2Digest (.lengths 64) a.1 a.2))) (.ptr 2) (.ptr 1)
      (bareObjects (.lengths 64))).2 (.ptr 1) ∧
    Lossless (.lengths 64) (Live.wiping fun a => some (.str (pdv2Digest (.lengths 64) a.1 a.2)))
      (bareRequest (.lengths 64)) s (bareObjects (.lengths 64)) receipt := by
  have hreads : Reads (.lengths 64) (.ptr 2) (.ptr 1) (bareObjects (.lengths 64))
      (bareRequest (.lengths 64)) (Dict.ofList (bareSource (.lengths 64))) :=
    ⟨readRequest_bareObjects _, _, readSource_bareObjects _, rfl⟩
  have hanswers : ∀ (l : List (Text × Record)) (n : ℕ) (h : Objects), ∀ answer ∈ answers
      (Live.wiping fun a => some (.str (pdv2Digest (.lengths 64) a.1 a.2))) n l h,
      ∃ digest, answer = some (.str digest) ∧ digestGrammar "store-v2".toList digest = true := by
    intro l
    induction l with
    | nil => exact fun n h answer hanswer => absurd hanswer List.not_mem_nil
    | cons e l ih =>
      intro n h answer hanswer
      rcases List.mem_cons.mp hanswer with rfl | hanswer
      · exact ⟨_, rfl, digestGrammar_pdv2Digest _ _ _⟩
      · exact ih _ _ answer hanswer
  obtain ⟨receipt, hrun⟩ := (exists_receipt_iff hreads).mpr ⟨rfl, hanswers _ _ _⟩
  obtain ⟨⟨-, hkept⟩, hreturns⟩ := (migration_lossless (.lengths 64)).1
    (Live.wiping fun a => some (.str (pdv2Digest (.lengths 64) a.1 a.2))) (.ptr 2) (.ptr 1)
    (bareObjects (.lengths 64))
  obtain ⟨q, s, hreads', hlossless⟩ := hreturns receipt hrun
  obtain rfl := Except.ok.inj (hreads.1.symm.trans hreads'.1)
  exact ⟨receipt, s, hkept, hlossless⟩

end Migration
end OpenChess
