import OpenChess.Graph.PositionDigest
import OpenChess.Graph.VersionStore
import OpenChess.Ingest.Validate
import OpenChess.Jobs.Json

/-!
# Records of imported games

Model of the record functions of `ingest/import_pgn.py` and of the intake decision of
`ingest/rights.py`. A record is written from an accepted game. A stored record is read
back by other rules, which end in running the game validator on the record's own text.
-/

namespace OpenChess
namespace ImportPgn

open LineText
open Pgn
open PositionDigest (Sha256)

/-! ### Rights -/

inductive RightsClass
  | userOwn
  | cc0
  | userOwnOnly
  | licensedOwn
  deriving DecidableEq, Repr

def RightsClass.text : RightsClass → Text
  | .userOwn => "user-own".toList
  | .cc0 => "cc0".toList
  | .userOwnOnly => "user-own-only".toList
  | .licensedOwn => "licensed-own".toList

/-- `sources.entries` of the import contract, with the rights class of each. -/
def sources : List (Text × RightsClass) :=
  [("pgn-file".toList, .userOwn), ("pgn-multi".toList, .userOwn), ("pgn-folder".toList, .userOwn),
    ("pgn-watch".toList, .userOwn), ("lichess-public".toList, .cc0),
    ("chesscom-public".toList, .userOwnOnly), ("cbh-licensed".toList, .licensedOwn)]

/-- `SCENARIO_SOURCES`. -/
def scenarioSources : List Text := ["pgn-file".toList]

structure RightsDecision where
  known : Bool
  rightsClass : Option RightsClass
  allowed : Bool
  reason : String
  deriving DecidableEq, Repr

/-- `intake_decision`, under the registry and the policy of the contract files. -/
def intakeDecision (sourceId : Text) (ownershipVerified : Bool) : RightsDecision :=
  if strip isSpace sourceId = [] then ⟨false, none, false, "source_id_empty"⟩
  else
    match sources.lookup sourceId with
    | none => ⟨false, none, false, "unknown_source"⟩
    | some cls =>
      -- data of others may live in a verifying session only
      if cls = .userOwnOnly ∧ ownershipVerified = false then
        ⟨true, some cls, false, "ownership_unverified"⟩
      else ⟨true, some cls, true, ""⟩

/-! ### Identity and content -/

/-- `IDENTITY_HEADERS`. -/
def identityHeaders : List Text :=
  ["Site".toList, "White".toList, "Black".toList, "UTCDate".toList, "Date".toList, "Round".toList]

def jsonObject (members : List (Text × Text)) : Text :=
  '{' :: ([','].intercalate (members.map fun e => Json.quoted false e.1 ++ ':' :: e.2) ++ ['}'])

def tagsText (tags : Tags) : Text :=
  jsonObject ((tags.insertionSort fun e e' => e.1 ≤ e'.1).map fun e =>
    (e.1, Json.quoted false e.2))

/-- What the identity of a game is the hash of. -/
def identityKey (tags : Tags) (movetext : Text) : Text :=
  if identityHeaders.all fun k => strip isSpace ((tags.lookup k).getD []) != [] then
    Json.dumps false (.list [.str "headers".toList,
      .list (identityHeaders.map fun k => .str ((tags.lookup k).getD []))])
  else
    '[' :: (Json.quoted false "content".toList ++ ',' :: (jsonObject [("tags".toList, tagsText tags),
      ("movetext".toList, Json.quoted false movetext)] ++ [']']))

/-- `game_identity`. -/
def gameIdentity (sha : Sha256) (tags : Tags) (movetext : Text) : Text :=
  (sha.hexdigest (identityKey tags movetext)).take 16

/-- `_canonical_record_bytes`. -/
def canonicalRecord (gameId sourceId variant : Text) (tags : Tags) (movetext : Text) : Text :=
  jsonObject [("game_id".toList, Json.quoted false gameId),
    ("source_id".toList, Json.quoted false sourceId), ("variant".toList, Json.quoted false variant),
    ("tags".toList, tagsText tags), ("movetext".toList, Json.quoted false movetext)]

/-- `content_sha256`. -/
def contentSha256 (sha : Sha256) (gameId sourceId : Text) (tags : Tags) (movetext : Text) : Text :=
  sha.hexdigest (canonicalRecord gameId sourceId "standard".toList tags movetext)

/-- `_record_filename`. -/
def recordFilename (gameId digest : Text) : Text :=
  gameId ++ "--".toList ++ digest.take 16 ++ ".json".toList

/-! ### Writing a record -/

/-- `RECORD_FIELDS`. -/
def recordFields : List Text :=
  ["game_id".toList, "source_id".toList, "provenance".toList, "content_sha256".toList,
    "variant".toList, "tags".toList, "movetext".toList, "imported_at".toList]

/-- `PROVENANCE_FIELDS`. -/
def provenanceFields : List Text :=
  ["source_id".toList, "rights_class".toList, "retrieved_at".toList, "retrieval_detail".toList]

/-- What all records of one run share. -/
structure Session where
  sourceId : Text
  rightsClass : RightsClass
  retrievedAt : Text
  retrievalDetail : Text

variable (sha : Sha256) (s : Session) (g : ParsedGame)

def gameId : Text := gameIdentity sha g.tags g.movetext

def digest : Text := contentSha256 sha (gameId sha g) s.sourceId g.tags g.movetext

def filename : Text := recordFilename (gameId sha g) (digest sha s g)

def provenanceValue : Value :=
  .object provenanceFields [.str s.sourceId, .str s.rightsClass.text, .str s.retrievedAt,
    .str s.retrievalDetail]

def tagsValue (tags : Tags) : Value := .ofMembers (tags.map fun e => (e.1, .str e.2))

/-- The record `run_import_pgn` builds. -/
def recordValue : Value :=
  .object recordFields [.str (gameId sha g), .str s.sourceId, provenanceValue s,
    .str (digest sha s g), .str "standard".toList, tagsValue g.tags, .str g.movetext,
    .str s.retrievedAt]

/-! ### Validating a stored record -/

/-- The refusals of `_validate_record`. -/
inductive RecordFault
  | fields
  | gameId
  | source
  | intake (reason : String)
  | provenanceFields
  | provenanceSource
  | rightsClass
  | retrievedAt
  | retrievalDetail
  | variant
  | tags
  | movetext
  | importedAt
  | game (e : GameError)
  | tagsUnreachable
  | movetextUnreachable
  | nul
  | identity
  | digest
  | address
  deriving DecidableEq, Repr

def RecordFault.text : RecordFault → String
  | .fields => "must have exactly the declared fields in order"
  | .gameId => "game_id disagrees with the manifest"
  | .source => "source_id outside the import-pgn scenario sources"
  | .intake reason => "intake refused for the stored source: " ++ reason
  | .provenanceFields => "provenance must have exactly the declared fields in order"
  | .provenanceSource => "provenance source disagrees with the record"
  | .rightsClass => "provenance rights class contradicts the gate decision"
  | .retrievedAt => "provenance retrieved_at is not pinned UTC grammar"
  | .retrievalDetail => "provenance retrieval_detail must be a non-whitespace string"
  | .variant => "variant outside the scenario"
  | .tags => "tags must follow the PGN tag grammar (name [A-Za-z0-9_]+, value without line breaks)"
  | .movetext => "movetext must be a non-whitespace string"
  | .importedAt => "imported_at is not pinned UTC grammar"
  | .game _ => "stored game content fails the shipped validator: "
  | .tagsUnreachable => "stored tags are not parser-reachable"
  | .movetextUnreachable => "stored movetext is not parser-reachable"
  | .nul => "NUL bytes are not parser-reachable stored content"
  | .identity => "stored game_id does not recompute from the identity headers"
  | .digest => "content_sha256 does not recompute from the canonical record bytes"
  | .address => "content_sha256 prefix disagrees with the manifest filename"

/-- `if p: raise e`. -/
def refuseIf {E : Type} (p : Prop) [Decidable p] (e : E) : Except E Unit :=
  if p then .error e else .ok ()

/-- The value of a test that has to succeed. -/
def orRefuse {E A : Type} (a : Option A) (e : E) : Except E A :=
  match a with
  | none => .error e
  | some a => .ok a

/-- The values of a dictionary that has exactly these keys, in this order. -/
def ordered? (names : List Text) : Value → Option (List Value)
  | .dict entries =>
    if entries.map Prod.fst = names.map .str then some (entries.map Prod.snd) else none
  | _ => none

/-- A pattern `^...$`, where `$` also stands before a newline at the end. -/
def anchored (p : Text → Bool) (t : Text) : Bool :=
  p t || (t.getLast? == some '\n' && p t.dropLast)

/-- `_TAG_NAME_RE`. -/
def tagNameRe : Text → Bool := anchored fun t => t != [] && t.all isWord

/-- Where `strptime` reads digits of ASCII only. -/
def strptimeDigits (v : Text) : Bool :=
  let ascii : ℕ → Bool := fun i => decide ((v.getD i '0').toNat < 128)
  [5, 6, 8, 11, 14, 17].all ascii && (ascii 9 || ['1', '2'].contains (v.getD 8 '0')) &&
    (ascii 12 || ['0', '1'].contains (v.getD 11 '0'))

/-- `_valid_utc_ts` of a string. -/
def validUtcTs (v : Text) : Bool := VersionStore.timestamp v && strptimeDigits v

def validUtcTsValue (v : Value) : Bool := v.text?.any validUtcTs

/-- The tags of a stored record, when they are strings under names of the tag grammar. -/
def readTags (v : Value) : Option Tags :=
  v.readMembers fun k v =>
    if tagNameRe k then v.text?.filter fun t => !t.contains '\n' && !t.contains '\r' else none

def readVisible (v : Value) : Option Text := v.text?.filter fun t => strip isSpace t != []

/-- The part of a text before the first `--`, and the part behind it. -/
def splitDashes : Text → Text × Text
  | '-' :: '-' :: t => ([], t)
  | c :: t => (c :: (splitDashes t).1, (splitDashes t).2)
  | [] => ([], [])

/-- `rec.split("--", 1)[1][:-len(".json")]`. -/
def embeddedHash (rec : Text) : Text :=
  (splitDashes rec).2.take ((splitDashes rec).2.length - ".json".toList.length)

def nul : Char := Char.ofNat 0

/-- The checks of the source and of its rights class. -/
def validateSource (sourceId : Value) : Except RecordFault (Text × RightsClass) := do
  let source ← orRefuse (sourceId.text?.filter scenarioSources.contains) .source
  let cls ← orRefuse ((intakeDecision source false).rightsClass.filter fun _ =>
    (intakeDecision source false).allowed) (.intake (intakeDecision source false).reason)
  return (source, cls)

/-- The checks of the provenance; what comes back is the retrieval detail. -/
def validateProvenance (source : Text) (cls : RightsClass) (provenance : Value) :
    Except RecordFault Text :=
  match ordered? provenanceFields provenance with
  | some [sourceId, rightsClass, retrievedAt, retrievalDetail] => do
    refuseIf (sourceId.text? ≠ some source) .provenanceSource
    refuseIf (rightsClass.text? ≠ some cls.text) .rightsClass
    refuseIf (validUtcTsValue retrievedAt = false) .retrievedAt
    orRefuse (readVisible retrievalDetail) .retrievalDetail
  | _ => .error .provenanceFields

/-- The checks that run the game validator on the stored game and hash it again. -/
def validateContent (source gid rec detail : Text) (digest : Value) (tags : Tags)
    (movetext : Text) : Except RecordFault Unit :=
  match validateGame (reconstruct tags movetext) with
  | .error e => .error (.game e)
  | .ok reparsed => do
    refuseIf (¬ reparsed.tags.Perm tags) .tagsUnreachable
    refuseIf (reparsed.movetext ≠ movetext) .movetextUnreachable
    refuseIf (nul ∈ movetext ∨ (∃ e ∈ tags, nul ∈ e.1 ∨ nul ∈ e.2) ∨ nul ∈ detail) .nul
    refuseIf (gameId sha reparsed ≠ gid) .identity
    refuseIf (digest.text? ≠ some (contentSha256 sha gid source tags movetext)) .digest
    refuseIf ((contentSha256 sha gid source tags movetext).take 16 ≠ embeddedHash rec) .address

/-- `_validate_record`. -/
def validateRecord (stored : Value) (gid rec : Text) : Except RecordFault Unit :=
  match ordered? recordFields stored with
  | some [gameId, sourceId, provenance, digest, variant, tags, movetext, importedAt] => do
    refuseIf (gameId.text? ≠ some gid) .gameId
    let source ← validateSource sourceId
    let detail ← validateProvenance source.1 source.2 provenance
    refuseIf (variant.text? ≠ some "standard".toList) .variant
    let tags ← orRefuse (readTags tags) .tags
    let movetext ← orRefuse (readVisible movetext) .movetext
    refuseIf (validUtcTsValue importedAt = false) .importedAt
    validateContent sha source.1 gid rec detail digest tags movetext
  | _ => .error .fields

end ImportPgn
end OpenChess

/-!
## Written records are accepted

The record of an accepted game passes the validator of stored records, whatever its
tags and its movetext are, unless they hold the NUL character.
-/

namespace OpenChess
namespace ImportPgn

open LineText
open Pgn
open PositionDigest (Sha256)

variable {sha : Sha256} {s : Session} {g : ParsedGame} {text : Text} {tags : Tags}

/-- A run of the scenario: its source, a timestamp the pattern admits, and a path that is
neither blank nor holds NUL. -/
structure Session.Valid (s : Session) : Prop where
  source : s.sourceId = "pgn-file".toList
  rights : s.rightsClass = .userOwn
  retrievedAt : validUtcTs s.retrievedAt = true
  detail : strip isSpace s.retrievalDetail ≠ []
  clean : nul ∉ s.retrievalDetail

/-- No character of the stored content is NUL. -/
structure Clean (g : ParsedGame) : Prop where
  tags : ∀ e ∈ g.tags, nul ∉ e.1 ∧ nul ∉ e.2
  movetext : nul ∉ g.movetext

/-! ### Reading the parts -/

theorem ordered?_object {names : List Text} {values : List Value}
    (h : names.length = values.length) : ordered? names (.object names values) = some values := by
  have hnames : (names.zip values).map Prod.fst = names := List.map_fst_zip (le_of_eq h)
  have hvalues : (names.zip values).map Prod.snd = values := List.map_snd_zip (ge_of_eq h)
  have hkeys : ((names.zip values).map fun e => ((.str e.1, e.2) : Scalar × Value)).map Prod.fst =
      names.map Scalar.str := by
    rw [List.map_map]
    calc
      _ = ((names.zip values).map Prod.fst).map Scalar.str := by
        rw [List.map_map]
        rfl
      _ = _ := by rw [hnames]
  have hitems : ((names.zip values).map fun e => ((.str e.1, e.2) : Scalar × Value)).map Prod.snd =
      values := by
    rw [List.map_map]
    exact hvalues
  simp only [Value.object, Value.ofMembers, ordered?]
  rw [if_pos hkeys, hitems]

theorem tagNameRe_of_reachable {e : Text × Text} (h : Tag.Reachable e) : tagNameRe e.1 = true := by
  have hall : e.1.all isWord = true := List.all_eq_true.mpr h.word
  simp [tagNameRe, anchored, h.named, hall]

theorem readTags_tagsValue (htags : ∀ e ∈ tags, Tag.Reachable e)
    (hdistinct : (tags.map Prod.fst).Nodup) : readTags (tagsValue tags) = some tags := by
  refine Value.readMembers_ofMembers hdistinct fun e he => ?_
  have hline : '\n' ∉ e.2 ∧ '\r' ∉ e.2 := by
    constructor
    · intro hc
      have hbreak := (htags e he).line _ hc
      revert hbreak
      decide
    · intro hc
      have hbreak := (htags e he).line _ hc
      revert hbreak
      decide
  rw [if_pos (tagNameRe_of_reachable (htags e he))]
  simp [Value.text?, hline.1, hline.2]

theorem readVisible_str {t : Text} (h : strip isSpace t ≠ []) : readVisible (.str t) = some t := by
  simp [readVisible, Value.text?, h]

/-! ### The name of a record -/

theorem isHex_take {n k : ℕ} {t : Text} (h : Hex.isHex n t = true) (hk : k ≤ n) :
    Hex.isHex k (t.take k) = true := by
  simp only [Hex.isHex, Bool.and_eq_true, beq_iff_eq, List.all_eq_true] at h ⊢
  refine ⟨by rw [List.length_take, h.1, Nat.min_eq_left hk], fun c hc => h.2 c ?_⟩
  exact List.mem_of_mem_take hc

theorem isHex_gameId (sha : Sha256) (g : ParsedGame) : Hex.isHex 16 (gameId sha g) = true :=
  isHex_take (sha.form _) (by decide)

theorem splitDashes_append {a b : Text} (h : '-' ∉ a) :
    splitDashes (a ++ '-' :: '-' :: b) = (a, b) := by
  induction a with
  | nil => rfl
  | cons c a ih =>
    obtain ⟨hc, ha⟩ : '-' ≠ c ∧ '-' ∉ a := by simpa using h
    have hstep : splitDashes (c :: (a ++ '-' :: '-' :: b)) =
        (c :: (splitDashes (a ++ '-' :: '-' :: b)).1, (splitDashes (a ++ '-' :: '-' :: b)).2) := by
      rw [splitDashes]
      intro t hpair
      exact absurd hpair.symm hc
    rw [List.cons_append, hstep, ih ha]

theorem dash_notMem_of_isHex {n : ℕ} {t : Text} (h : Hex.isHex n t = true) : '-' ∉ t := by
  intro hmem
  simp only [Hex.isHex, Bool.and_eq_true, List.all_eq_true] at h
  have hdigit := h.2 _ hmem
  revert hdigit
  decide

theorem splitDashes_recordFilename {gid d : Text} (h : Hex.isHex 16 gid = true) :
    splitDashes (recordFilename gid d) = (gid, d.take 16 ++ ".json".toList) := by
  have hform : recordFilename gid d = gid ++ '-' :: '-' :: (d.take 16 ++ ".json".toList) := by
    simp [recordFilename]
  rw [hform]
  exact splitDashes_append (dash_notMem_of_isHex h)

theorem embeddedHash_recordFilename {gid d : Text} (h : Hex.isHex 16 gid = true) :
    embeddedHash (recordFilename gid d) = d.take 16 := by
  rw [embeddedHash, splitDashes_recordFilename h]
  simp

/-! ### The record of an accepted game -/

theorem validateSource_pgnFile :
    validateSource (.str "pgn-file".toList) = .ok ("pgn-file".toList, .userOwn) := rfl

theorem validateProvenance_provenanceValue (hs : s.Valid) :
    validateProvenance s.sourceId s.rightsClass (provenanceValue s) = .ok s.retrievalDetail := by
  have hread : ordered? provenanceFields (provenanceValue s) = some [.str s.sourceId,
      .str s.rightsClass.text, .str s.retrievedAt, .str s.retrievalDetail] := ordered?_object rfl
  have hts : validUtcTsValue (.str s.retrievedAt) = true := hs.retrievedAt
  rw [validateProvenance, hread]
  simp [refuseIf, orRefuse, Value.text?, hts, readVisible_str hs.detail, bind, Except.bind]

/-- The content of a written record is accepted, unless it holds NUL. -/
theorem validateContent_recordValue (hg : validateGame text = .ok g) (hs : s.Valid) :
    validateContent sha s.sourceId (gameId sha g) (filename sha s g) s.retrievalDetail
      (.str (digest sha s g)) g.tags g.movetext =
      if nul ∈ g.movetext ∨ ∃ e ∈ g.tags, nul ∈ e.1 ∨ nul ∈ e.2 then .error .nul else .ok () := by
  have hdigest : contentSha256 sha (gameId sha g) s.sourceId g.tags g.movetext = digest sha s g := rfl
  have haddress : embeddedHash (filename sha s g) = (digest sha s g).take 16 :=
    embeddedHash_recordFilename (isHex_gameId sha g)
  rw [validateContent, validateGame_reconstruct hg]
  by_cases hnul : nul ∈ g.movetext ∨ ∃ e ∈ g.tags, nul ∈ e.1 ∨ nul ∈ e.2
  · simp only [refuseIf, hs.clean, or_false, List.Perm.refl, not_true, ne_eq, if_false, if_pos hnul]
    rfl
  · simp only [refuseIf, hs.clean, or_false, List.Perm.refl, not_true, ne_eq, if_false, if_neg hnul,
      hdigest, haddress, Value.text?]
    rfl

theorem validateRecord_eq (hg : validateGame text = .ok g) (hs : s.Valid) :
    validateRecord sha (recordValue sha s g) (gameId sha g) (filename sha s g) =
      if nul ∈ g.movetext ∨ ∃ e ∈ g.tags, nul ∈ e.1 ∨ nul ∈ e.2 then .error .nul else .ok () := by
  have hreach := reachable_of_parseTags (parts_of_validateGame hg).1
  have hread : ordered? recordFields (recordValue sha s g) = some [.str (gameId sha g),
      .str s.sourceId, provenanceValue s, .str (digest sha s g), .str "standard".toList,
      tagsValue g.tags, .str g.movetext, .str s.retrievedAt] := ordered?_object rfl
  have hsource : validateSource (.str s.sourceId) = .ok (s.sourceId, s.rightsClass) := by
    rw [hs.source, hs.rights]
    exact validateSource_pgnFile
  have hts : validUtcTsValue (.str s.retrievedAt) = true := hs.retrievedAt
  rw [validateRecord, hread]
  simp [refuseIf, orRefuse, Value.text?, hsource, validateProvenance_provenanceValue hs,
    readTags_tagsValue hreach.tagged hreach.distinct, readVisible_str (visible_of_validateGame hg),
    hts, validateContent_recordValue hg hs, bind, Except.bind]

/-- The record of a clean accepted game is accepted. -/
theorem validateRecord_recordValue (hg : validateGame text = .ok g) (hs : s.Valid)
    (hclean : Clean g) :
    validateRecord sha (recordValue sha s g) (gameId sha g) (filename sha s g) = .ok () := by
  rw [validateRecord_eq hg hs, if_neg]
  intro hnul
  obtain hnul | ⟨e, he, hnul⟩ := hnul
  · exact hclean.movetext hnul
  · exact hnul.elim (hclean.tags e he).1 (hclean.tags e he).2

/-- A game whose text has no NUL has none in its parts. -/
theorem clean_of_notMem (hg : validateGame text = .ok g) (h : nul ∉ text) : Clean g := by
  have hparts := chars_of_parseTags (P := fun c => c ≠ nul) (by decide) (by decide) (by decide)
    (parts_of_validateGame hg).1 fun c hc heq => h (heq ▸ hc)
  refine ⟨fun e he => ⟨fun hmem => ?_, fun hmem => ?_⟩, fun hmem => hparts.2 nul hmem rfl⟩
  · exact hparts.1 e he nul (List.mem_append_left _ hmem) rfl
  · exact hparts.1 e he nul (List.mem_append_right _ hmem) rfl

end ImportPgn
end OpenChess
