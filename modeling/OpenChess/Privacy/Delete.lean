import OpenChess.Privacy.Request
import OpenChess.Lib.Trace

/-!
# Deletion of collections

Model of `desktop/privacy/delete.py`. A deletion writes its tombstone first and then asks
every store to erase; a store that fails stays pending. What was written and asked for is
kept in a log.
-/

namespace OpenChess
namespace Privacy

inductive DeleteFailure
  | malformedDeleteRequest
  | unknownCollection
  | collectionDeleted
  | staleRevision
  | decisionMissing
  deriving DecidableEq, Repr

inductive StoreName
  | content
  | index
  | analysis
  | training
  | ciphertext
  deriving DecidableEq, Repr

def StoreName.text : StoreName → Text
  | .content => "content".toList
  | .index => "index".toList
  | .analysis => "analysis".toList
  | .training => "training".toList
  | .ciphertext => "ciphertext".toList

/-- `_STORES`. -/
def stores : List StoreName := [.content, .index, .analysis, .training, .ciphertext]

def decisionOk : Text → Bool := Hex.tagged "del1:".toList 64

/-- `decision_for`. -/
def decisionFor (sha : Hex.Hash 64) (collection : Text) (expected : ℕ) : Text :=
  boundToken sha "del1:".toList [collection, Nat.toDigits 10 expected, "delete".toList]

/-! ### State -/

inductive Status
  | live
  | deleted
  deriving DecidableEq, Repr

def Status.text : Status → Text
  | .live => "live".toList
  | .deleted => "deleted".toList

/-- The state of a collection. -/
structure Deletion where
  status : Status
  revision : ℕ
  pending : List StoreName
  deriving DecidableEq, Repr

/-- What the erase of a store does: it succeeds, it raises an `Exception`, or it raises
anything else, which ends the call. -/
inductive Outcome
  | erased
  | failed
  | interrupted
  deriving DecidableEq, Repr

/-- What a deletion does outside its state, and the tombstones it writes. -/
inductive Entry
  | tombstone (collection : Text)
  | erase (collection : Text) (name : StoreName) (outcome : Outcome)
  deriving DecidableEq, Repr

/-- The state of a deleter, with the log of all its deletions. -/
structure Deleter where
  cells : Dict Text Deletion
  log : List Entry

def Deleter.empty : Deleter := ⟨∅, []⟩

/-- `record`. -/
def Deletion.record (c : Deletion) (collection : Text) : Value :=
  Value.object ["collection_id".toList, "state".toList, "revision".toList, "pending".toList]
    [.str collection, .str c.status.text, .int c.revision,
      .list (c.pending.map fun name => .str name.text)]

/-- What a call returns. -/
inductive Result
  | reply (record : Value)
  | allow
  | refused (failure : DeleteFailure)
  | interrupted

/-! ### Calls -/

/-- `register`. -/
def Deleter.register (d : Deleter) (id : Value) : Result × Deleter :=
  match readId collectionOk id with
  | none => (.refused .malformedDeleteRequest, d)
  | some collection =>
    let c := (d.cells.lookup collection).getD ⟨.live, 0, []⟩
    if c.status = .deleted then (.refused .collectionDeleted, d)
    else (.reply (c.record collection),
      { d with cells := Cells.setDefault d.cells collection ⟨.live, 0, []⟩ })

/-- `access`. -/
def Deleter.access (d : Deleter) (req : Value) : Result :=
  match req.fields? ["collection_id".toList] with
  | some [id] =>
    match readId collectionOk id with
    | none => .refused .malformedDeleteRequest
    | some collection =>
      match d.cells.lookup collection with
      | none => .refused .unknownCollection
      | some c => if c.status ≠ .live then .refused .collectionDeleted else .allow
  | _ => .refused .malformedDeleteRequest

structure DeleteRequest where
  collection : Text
  expected : ℕ
  token : Option Text

def readDelete (req : Value) : Option DeleteRequest :=
  match req.fields? ["collection_id".toList, "expected_revision".toList, "decision".toList] with
  | some [collection, expected, decision] =>
    match readId collectionOk collection, readRev expected, readToken decisionOk decision with
    | some collection, some expected, some token => some ⟨collection, expected, token⟩
    | _, _, _ => none
  | _ => none

/-- `_decision_ok`. -/
def DeleteRequest.approved (sha : Hex.Hash 64) (r : DeleteRequest) : Bool :=
  decide (r.token = some (decisionFor sha r.collection r.expected))

/-- The checks of `delete` on the state of the collection: the revision it writes and the
stores it erases. -/
def Deletion.targets (approved : Bool) (expected : ℕ) (c : Deletion) :
    Except DeleteFailure (ℕ × List StoreName) :=
  if expected ≠ c.revision then .error .staleRevision
  else
    match c.status with
    | .deleted => .ok (c.revision, c.pending)
    | .live =>
      if approved = false then .error .decisionMissing
      else .ok (if c.revision = maxRev then c.revision else c.revision + 1, stores)

/-- The loop of `delete` over its targets: the stores that are left, or none where the call
ends in it, and the erases that were asked for. -/
def eraseLoop (outcome : StoreName → Outcome) (collection : Text) :
    List StoreName → Option (List StoreName) × List Entry
  | [] => (some [], [])
  | name :: targets =>
    let entry := Entry.erase collection name (outcome name)
    let (left, entries) := eraseLoop outcome collection targets
    match outcome name with
    | .erased => (left, entry :: entries)
    | .failed => (left.map (name :: ·), entry :: entries)
    | .interrupted => (none, [entry])

/-- `delete`. -/
def Deleter.delete (sha : Hex.Hash 64) (outcome : StoreName → Outcome) (d : Deleter)
    (req : Value) : Result × Deleter :=
  match readDelete req with
  | none => (.refused .malformedDeleteRequest, d)
  | some r =>
    match d.cells.lookup r.collection with
    | none => (.refused .unknownCollection, d)
    | some c =>
      match c.targets (r.approved sha) r.expected with
      | .error e => (.refused e, d)
      | .ok (revision, targets) =>
        -- the tombstone is written before any erase
        let cells := d.cells.insert r.collection ⟨.deleted, revision, targets⟩
        let log := d.log ++ [.tombstone r.collection]
        let (left, entries) := eraseLoop outcome r.collection targets
        match left with
        | none => (.interrupted, ⟨cells, log ++ entries⟩)
        | some left =>
          (.reply (Deletion.record ⟨.deleted, revision, left⟩ r.collection),
            ⟨cells.insert r.collection ⟨.deleted, revision, left⟩, log ++ entries⟩)

/-- The public calls; the erases of a deletion end as the environment says. -/
inductive DeleterCall
  | register (id : Value)
  | access (req : Value)
  | delete (req : Value) (outcome : StoreName → Outcome)

def Deleter.call (sha : Hex.Hash 64) (d : Deleter) : DeleterCall → Result × Deleter
  | .register id => d.register id
  | .access req => (d.access req, d)
  | .delete req outcome => d.delete sha outcome req

def Deleter.step (sha : Hex.Hash 64) (d : Deleter) (call : DeleterCall) : Deleter :=
  (d.call sha call).2

def Deleter.run (sha : Hex.Hash 64) (calls : List DeleterCall) : Deleter :=
  Trace.run (Deleter.step sha) Deleter.empty calls

/-! ### The loop -/

variable {sha : Hex.Hash 64} {outcome : StoreName → Outcome} {collection : Text}
  {targets left : List StoreName} {entries : List Entry} {name : StoreName} {d : Deleter}

/-- The loop asks for erases of its targets alone. -/
theorem mem_entries {entry : Entry} (h : entry ∈ (eraseLoop outcome collection targets).2) :
    ∃ name ∈ targets, entry = .erase collection name (outcome name) := by
  induction targets with
  | nil => cases h
  | cons name targets ih =>
    simp only [eraseLoop] at h
    have hrest : entry = .erase collection name (outcome name) ∨
        entry ∈ (eraseLoop outcome collection targets).2 := by
      cases houtcome : outcome name <;> simp only [houtcome, List.mem_cons, List.not_mem_nil,
        or_false] at h ⊢
      · exact h
      · exact h
      · exact Or.inl h
    obtain rfl | h := hrest
    · exact ⟨name, List.mem_cons_self, rfl⟩
    · obtain ⟨name', hname', rfl⟩ := ih h
      exact ⟨name', List.mem_cons_of_mem name hname', rfl⟩

/-- What is left of the targets is in their order, and the other targets were erased. -/
theorem of_eraseLoop (h : eraseLoop outcome collection targets = (some left, entries)) :
    left.Sublist targets ∧
      ∀ name ∈ targets, name ∉ left → .erase collection name .erased ∈ entries := by
  induction targets generalizing left entries with
  | nil =>
    obtain ⟨hleft, -⟩ := Prod.mk.inj h
    obtain rfl := Option.some.inj hleft
    exact ⟨List.Sublist.slnil, by simp⟩
  | cons name targets ih =>
    simp only [eraseLoop] at h
    cases hrest : eraseLoop outcome collection targets with
    | mk left' entries' =>
      cases houtcome : outcome name with
      | erased =>
        simp only [hrest, houtcome, Prod.mk.injEq] at h
        obtain ⟨rfl, rfl⟩ := h
        obtain ⟨hsub, herased⟩ := ih hrest
        refine ⟨hsub.cons name, fun name' hname' hnot => ?_⟩
        rcases List.mem_cons.mp hname' with rfl | hname'
        · exact List.mem_cons_self
        · exact List.mem_cons_of_mem _ (herased name' hname' hnot)
      | failed =>
        simp only [hrest, houtcome, Prod.mk.injEq, Option.map_eq_some_iff] at h
        obtain ⟨⟨left₀, rfl, rfl⟩, rfl⟩ := h
        obtain ⟨hsub, herased⟩ := ih hrest
        refine ⟨hsub.cons_cons name, fun name' hname' hnot => ?_⟩
        rcases List.mem_cons.mp hname' with rfl | hname'
        · exact absurd List.mem_cons_self hnot
        · exact List.mem_cons_of_mem _
            (herased name' hname' fun hmem => hnot (List.mem_cons_of_mem name hmem))
      | interrupted => simp [houtcome] at h

end Privacy
end OpenChess
