import OpenChess.Jobs.JsonRoundTrip
import OpenChess.Store.RestoreSpec

/-!
# Exports

Model of `store/export.py` on values. The exporter is untrusted: its document must be the
rendering of the replayed state. Every line of a document loads as a payload of the log, so a
document is imported again by appending its lines.
-/

namespace OpenChess
namespace Export

open PositionDigest (Sha256)
open TranspositionNode (Record)
open Node (Linked)
open Restore (splitLines)

inductive FailureClass
  | malformedExportRequest
  | unsupportedFormat
  | corruptSource
  | divergentExport
  deriving DecidableEq, Repr

inductive ErrorCode
  | malformedRequest
  | unsupportedFormat
  | corruptSource
  | divergentExport
  | internal
  deriving DecidableEq, Repr

/-- `FAILURE_MAPPING`. -/
def FailureClass.error : FailureClass → ErrorCode
  | .malformedExportRequest => .malformedRequest
  | .unsupportedFormat => .unsupportedFormat
  | .corruptSource => .corruptSource
  | .divergentExport => .divergentExport

/-- An `ExportError`, or an error of the state id in the replay. -/
inductive Failure
  | export (cls : FailureClass)
  | diff (cls : Diff.FailureClass)
  deriving DecidableEq, Repr

/-- `request.fields` of the contract. -/
def requestFields : List Text := ["format".toList]

/-- `FORMATS`. -/
def formats : List Text := ["jsonl-v1".toList]

def renderLine (key : Text) (record : Record) : Text := Json.dumps false (Wal.payloadValue key record)

/-- `render_document`; `none` where it raises. -/
def renderDocument (state : Diff.State) (fmt : Text) : Option Text :=
  if fmt ∈ formats then some (state.items.flatMap fun e => renderLine e.1 e.2 ++ ['\n']) else none

/-- `derive_export_id`. -/
def deriveExportId (sha : Sha256) (head stateId : Text) (recordCount : ℕ) (fmt document : Text) :
    Text :=
  "exp1:".toList ++ sha.hexdigest
    (['\n'].intercalate [head, stateId, Nat.toDigits 10 recordCount, fmt, document])

structure Receipt where
  exportId : Text
  head : Text
  stateId : Text
  recordCount : ℕ
  format : Text
  document : Text
  deriving DecidableEq, Repr

/-- A call of the exporter; `none` where it raises. -/
abbrev Exporter := Diff.State → Text → Option Value

/-- `_export`, on the answer of the exporter. -/
def exported (answer : Option Value) : Except FailureClass Text :=
  match answer with
  | some (.str out) => .ok out
  | _ => .error .divergentExport

/-- `export`. -/
def exportLog (sha : Sha256) (exporter : Exporter) (log request : Value) :
    Except Failure Receipt :=
  match log, request.fields? requestFields with
  | .list _, some [.str fmt] =>
    if fmt ∉ formats then .error (.export .unsupportedFormat)
    else
      match Wal.replay sha (Wal.pure Wal.canonicalPayload) log with
      | .error (.wal _) => .error (.export .corruptSource)
      | .error (.diff e) => .error (.diff e)
      | .ok replayed =>
        match exported (exporter replayed.state fmt) with
        | .error e => .error (.export e)
        | .ok document =>
          if some document ≠ renderDocument replayed.state fmt then
            .error (.export .divergentExport)
          else
            .ok ⟨deriveExportId sha replayed.head replayed.stateId replayed.state.items.length fmt
                document,
              replayed.head, replayed.stateId, replayed.state.items.length, fmt, document⟩
  | _, _ => .error (.export .malformedExportRequest)

def honest : Exporter := fun state fmt => (renderDocument state fmt).map Value.str

/-! ### Imports -/

def putRequest (payload : Value) : Value :=
  .object Wal.requestFields [.str Wal.Op.put.text, payload]

/-- A log with the payload of each line put at its end; `none` where a line is refused. -/
def importLines (sha : Sha256) : List Text → Value → Option Value
  | [], log => some log
  | line :: lines, log =>
    match Json.loads line with
    | none => none
    | some payload =>
      match Wal.append sha (Wal.pure Wal.canonicalPayload) log (putRequest payload) with
      | .error _ => none
      | .ok (log, _) => importLines sha lines log

def importDocument (sha : Sha256) (document : Text) : Option Value :=
  importLines sha (splitLines document) (.list [])

variable {sha : Sha256} {k fmt t : Text} {r : Record} {s : Diff.State} {vs : List Value}
  {es : List Wal.Entry} {l : List (Text × Record)} {exporter : Exporter} {log request : Value}
  {out : Receipt}

/-! ### Lines -/

theorem fields?_copy {names : List Text} {values : List Value} (hnodup : names.Nodup)
    (hlength : names.length = values.length) :
    (Json.copy (.object names values)).fields? names = some (values.map Json.copy) := by
  have hcopies : names.length = (values.map Json.copy).length := by rw [List.length_map, hlength]
  have hnames : (names.zip (values.map Json.copy)).map Prod.fst = names :=
    List.map_fst_zip (le_of_eq hcopies)
  have hvalues : (names.zip (values.map Json.copy)).map Prod.snd = values.map Json.copy :=
    List.map_snd_zip (ge_of_eq hcopies)
  have hdistinct : ((names.zip (values.map Json.copy)).map Prod.fst).Nodup := by rwa [hnames]
  have hzip : (names.zip values).map (fun e => (e.1, Json.copy e.2)) =
      names.zip (values.map Json.copy) := by
    rw [List.zip_map_right]
    rfl
  have hperm : ((Json.byKey (names.zip values)).map fun e => (e.1, Json.copy e.2)).Perm
      (names.zip (values.map Json.copy)) := by
    rw [← hzip]
    exact (Json.perm_byKey _).map _
  have hkeys := hperm.map Prod.fst
  have hread : ∀ name, ((Json.byKey (names.zip values)).map fun e => (e.1, Json.copy e.2)).lookup
      name = (names.zip (values.map Json.copy)).lookup name := fun name => Option.ext fun v => by
    rw [Dict.lookup_eq_some_iff_mem (hkeys.nodup_iff.mpr hdistinct),
      Dict.lookup_eq_some_iff_mem hdistinct, hperm.mem_iff]
  have hmapM := Dict.mapM_lookup hdistinct
  rw [hnames, hvalues] at hmapM
  rw [Value.object, Json.copy_ofMembers, Value.fields?,
    Value.members?_ofMembers (hkeys.nodup_iff.mpr hdistinct)]
  rw [hnames] at hkeys
  simp only [hkeys, if_true, hread]
  exact hmapM

theorem exact_payloadValue (k : Text) (r : Record) : Json.Exact (Wal.payloadValue k r) := by
  have hrecord : Json.Exact (Node.recordValue r) := by
    refine Json.exact_object (by decide) rfl fun v hv => ?_
    simp only [List.mem_cons, List.not_mem_nil, or_false] at hv
    rcases hv with rfl | rfl | rfl <;> exact .str _
  refine Json.exact_object (by decide) rfl fun v hv => ?_
  simp only [List.mem_cons, List.not_mem_nil, or_false] at hv
  rcases hv with rfl | rfl
  · exact .str _
  · exact hrecord

theorem loads_renderLine (h : Linked sha k r) : ∃ payload,
    Json.loads (renderLine k r) = some payload ∧
    Wal.validateRequest sha (putRequest payload) = .ok ⟨.put, k, r⟩ := by
  refine ⟨_, Json.loads_canonical false (exact_payloadValue k r), ?_⟩
  have hread : Node.readRecord (Json.copy (Node.recordValue r)) = some r := by
    rw [Node.readRecord, Node.recordValue, fields?_copy (by decide) rfl]
    rfl
  have hrecord := Wal.validateRecord_eq_some.mpr ⟨hread, h⟩
  have hpayload : Wal.validatePayload sha (Json.copy (Wal.payloadValue k r)) = .ok (k, r) := by
    unfold Wal.validatePayload
    rw [Wal.payloadValue, fields?_copy (by decide) rfl]
    simp only [List.map_cons, List.map_nil, Json.copy, hrecord, ne_eq, not_true_eq_false, if_false]
  unfold Wal.validateRequest
  rw [putRequest, Value.fields?_object (by decide) rfl]
  simp only [Wal.opOf?_text, hpayload]

theorem newline_not_mem_renderLine (k : Text) (r : Record) : '\n' ∉ renderLine k r := by
  intro hmem
  rw [renderLine, Json.dumps_eq_encode] at hmem
  have hprint := (Json.isPrint_encode (exact_payloadValue k r).copy _ hmem).1
  exact absurd hprint (by decide)

theorem splitLines_document (s : Diff.State) :
    splitLines (s.items.flatMap fun e => renderLine e.1 e.2 ++ ['\n']) =
      s.items.map fun e => renderLine e.1 e.2 := by
  have hlines : ∀ line ∈ s.items.map (fun e => renderLine e.1 e.2), '\n' ∉ line := by
    intro line hline
    obtain ⟨e, -, rfl⟩ := List.mem_map.mp hline
    exact newline_not_mem_renderLine e.1 e.2
  have hsplit := Separated.splitOn_terminated hlines
  rw [List.flatMap_map] at hsplit
  unfold splitLines
  rw [hsplit, List.getLast?_concat, if_pos rfl, List.dropLast_concat]

/-! ### Runs of appends -/

theorem importLines_records (h : Wal.Accepted sha Wal.canonicalPayload vs es)
    (hl : ∀ e ∈ l, Linked sha e.1 e.2) : ∃ ws fs,
    importLines sha (l.map fun e => renderLine e.1 e.2) (.list vs) = some (.list ws) ∧
      Wal.Accepted sha Wal.canonicalPayload ws fs ∧ fs.length = es.length + l.length ∧
      Wal.fold fs = Dict.insertAll l (Wal.fold es) := by
  induction l generalizing vs es with
  | nil => exact ⟨vs, es, rfl, h, rfl, rfl⟩
  | cons e l ih =>
    obtain ⟨he, hl⟩ := List.forall_mem_cons.mp hl
    obtain ⟨payload, hloads, hrequest⟩ := loads_renderLine he
    have happend := Wal.append_eq_ok.mpr ⟨vs, es, _, rfl, h, hrequest, rfl, rfl⟩
    obtain ⟨ws, fs, himport, haccepted, hlength, hfold⟩ := ih (h.append (q := ⟨.put, e.1, e.2⟩) he) hl
    refine ⟨ws, fs, ?_, haccepted, ?_, ?_⟩
    · rw [List.map_cons, importLines, hloads]
      simp only [happend]
      exact himport
    · rw [hlength, List.length_append, List.length_singleton, List.length_cons]
      omega
    · rw [hfold, Wal.fold_concat]
      rfl

theorem importDocument_document (hs : Diff.Valid sha s) : ∃ ws fs,
    importDocument sha (s.items.flatMap fun e => renderLine e.1 e.2 ++ ['\n']) = some (.list ws) ∧
      Wal.Accepted sha Wal.canonicalPayload ws fs ∧ fs.length = s.items.length ∧
      Wal.fold fs = s := by
  obtain ⟨ws, fs, himport, haccepted, hlength, hfold⟩ :=
    importLines_records Wal.Accepted.nil hs.entries.linked
  refine ⟨ws, fs, ?_, haccepted, by rw [hlength, List.length_nil, Nat.zero_add], ?_⟩
  · rw [importDocument, splitLines_document]
    exact himport
  · rw [hfold]
    refine Finmap.ext_lookup fun k => ?_
    rw [Dict.lookup_insertAll (Dict.nodup_items s), Dict.lookup_items]
    exact Option.or_none

/-! ### Exports -/

theorem exportLog_eq_ok : exportLog sha exporter log request = .ok out ↔
    ∃ vs es fmt document, log = .list vs ∧ request.fields? requestFields = some [.str fmt] ∧
      Wal.Accepted sha Wal.canonicalPayload vs es ∧
      exporter (Wal.fold es) fmt = some (.str document) ∧
      renderDocument (Wal.fold es) fmt = some document ∧
      out = ⟨deriveExportId sha (Wal.tipOf es) (Diff.contentId sha (Wal.fold es))
          (Wal.fold es).items.length fmt document,
        Wal.tipOf es, Diff.contentId sha (Wal.fold es), (Wal.fold es).items.length, fmt,
        document⟩ := by
  constructor
  · intro h
    unfold exportLog at h
    split at h
    · rename_i vs fmt hrequest
      split_ifs at h with hformat
      split at h
      · cases h
      · cases h
      · rename_i replayed hreplay
        obtain ⟨es, haccepted, rfl⟩ := Wal.replay_list_eq_ok.mp hreplay
        split at h
        · cases h
        · rename_i document hanswer
          split_ifs at h with hsame
          have hexporter : exporter (Wal.fold es) fmt = some (.str document) := by
            unfold exported at hanswer
            split at hanswer
            · rename_i hcall
              obtain rfl := Except.ok.inj hanswer
              exact hcall
            · cases hanswer
          exact ⟨vs, es, fmt, document, rfl, hrequest, haccepted, hexporter, (not_not.mp hsame).symm,
            (Except.ok.inj h).symm⟩
    · cases h
  · intro h
    obtain ⟨vs, es, fmt, document, rfl, hrequest, haccepted, hexporter, hdocument, rfl⟩ := h
    have hformat : fmt ∈ formats := by
      by_contra hnot
      rw [renderDocument, if_neg hnot] at hdocument
      cases hdocument
    have hreplay := Wal.replay_list_eq_ok.mpr ⟨es, haccepted, rfl⟩
    have hstate : (Wal.receipt sha es).state = Wal.fold es := rfl
    unfold exportLog
    rw [hrequest]
    simp only [hformat, not_true_eq_false, if_false, hreplay, hstate, hexporter, exported, hdocument,
      ne_eq]
    rfl

theorem importDocument_of_export (h : exportLog sha exporter log request = .ok out) :
    ∃ old log' new, Wal.replay sha (Wal.pure Wal.canonicalPayload) log = .ok old ∧
      importDocument sha out.document = some log' ∧
      Wal.replay sha (Wal.pure Wal.canonicalPayload) log' = .ok new ∧ new.state = old.state ∧
      new.stateId = out.stateId ∧ new.applied = out.recordCount := by
  obtain ⟨vs, es, fmt, document, rfl, -, haccepted, -, hdocument, rfl⟩ := exportLog_eq_ok.mp h
  obtain ⟨ws, fs, himport, haccepted', hlength, hfold⟩ :=
    importDocument_document (Wal.valid_fold haccepted.linked)
  refine ⟨_, .list ws, _, Wal.replay_list_eq_ok.mpr ⟨es, haccepted, rfl⟩, ?_,
    Wal.replay_list_eq_ok.mpr ⟨fs, haccepted', rfl⟩, hfold, congrArg (Diff.contentId sha) hfold,
    hlength⟩
  unfold renderDocument at hdocument
  split_ifs at hdocument
  rw [← Option.some.inj hdocument]
  exact himport

/-- Exports are lossless, and untrusted exporters cannot change them. The document of every accepted
export is imported, line by line through the appends of an empty log, as a log that replays to the
exported state, with one entry for each live record. Every log that replays is exported by the honest
exporter. Two accepted exports have the same document exactly if their logs replay to the same
state; on one log they have the same receipt. -/
theorem export_import (sha : Sha256) :
    (∀ exporter log request out, exportLog sha exporter log request = .ok out →
      ∃ old log' new, Wal.replay sha (Wal.pure Wal.canonicalPayload) log = .ok old ∧
        importDocument sha out.document = some log' ∧
        Wal.replay sha (Wal.pure Wal.canonicalPayload) log' = .ok new ∧ new.state = old.state ∧
        new.stateId = out.stateId ∧ new.applied = out.recordCount) ∧
    (∀ log request fmt old, Wal.replay sha (Wal.pure Wal.canonicalPayload) log = .ok old →
      request.fields? requestFields = some [.str fmt] → fmt ∈ formats →
      ∃ out, exportLog sha honest log request = .ok out) ∧
    ∀ exporter exporter' log log' request request' old old' out out',
      exportLog sha exporter log request = .ok out →
      exportLog sha exporter' log' request' = .ok out' →
      Wal.replay sha (Wal.pure Wal.canonicalPayload) log = .ok old →
      Wal.replay sha (Wal.pure Wal.canonicalPayload) log' = .ok old' →
      (out.document = out'.document ↔ old.state = old'.state) ∧ (log = log' → out = out') := by
  refine ⟨fun _ _ _ _ => importDocument_of_export, ?_, ?_⟩
  · intro log request fmt old hreplay hrequest hformat
    obtain ⟨vs, es, rfl, haccepted, -⟩ := Wal.replay_eq_ok.mp hreplay
    have hdocument : renderDocument (Wal.fold es) fmt = some _ := if_pos hformat
    refine ⟨_, exportLog_eq_ok.mpr ⟨vs, es, fmt, _, rfl, hrequest, haccepted, ?_, hdocument, rfl⟩⟩
    rw [honest, hdocument, Option.map_some]
  · intro exporter exporter' log log' request request' old old' out out' h h' hold hold'
    obtain ⟨vs, es, fmt, document, rfl, -, haccepted, -, hdocument, rfl⟩ := exportLog_eq_ok.mp h
    obtain ⟨vs', es', fmt', document', rfl, -, haccepted', -, hdocument', rfl⟩ :=
      exportLog_eq_ok.mp h'
    obtain ⟨fs, hfs, rfl⟩ := Wal.replay_list_eq_ok.mp hold
    obtain ⟨fs', hfs', rfl⟩ := Wal.replay_list_eq_ok.mp hold'
    obtain rfl := haccepted.unique hfs
    obtain rfl := haccepted'.unique hfs'
    have hformats : ∀ {s : Diff.State} {f d : Text}, renderDocument s f = some d →
        f = "jsonl-v1".toList ∧ d = s.items.flatMap fun e => renderLine e.1 e.2 ++ ['\n'] := by
      intro s f d hd
      unfold renderDocument at hd
      split_ifs at hd with hmem
      exact ⟨List.mem_singleton.mp hmem, (Option.some.inj hd).symm⟩
    obtain ⟨rfl, rfl⟩ := hformats hdocument
    obtain ⟨rfl, rfl⟩ := hformats hdocument'
    refine ⟨⟨fun hsame => ?_, fun hsame => ?_⟩, fun hsame => ?_⟩
    · -- Equal documents are imported as one log, which replays to both states.
      obtain ⟨ws, gs, himport, hgs, -, hfold⟩ :=
        importDocument_document (Wal.valid_fold haccepted.linked)
      obtain ⟨ws', gs', himport', hgs', -, hfold'⟩ :=
        importDocument_document (Wal.valid_fold haccepted'.linked)
      have hdocuments : ((Wal.fold es).items.flatMap fun e => renderLine e.1 e.2 ++ ['\n']) =
          (Wal.fold es').items.flatMap fun e => renderLine e.1 e.2 ++ ['\n'] := hsame
      rw [hdocuments, himport'] at himport
      obtain rfl := Value.list.inj (Option.some.inj himport)
      obtain rfl := hgs.unique hgs'
      exact hfold.symm.trans hfold'
    · have hstates : Wal.fold es = Wal.fold es' := hsame
      simp only [hstates]
    · obtain rfl := Value.list.inj hsame
      obtain rfl := haccepted.unique haccepted'
      rfl

/-- The log that puts the bare kings is exported, and imported again. -/
theorem export_import_bareKings : ∃ log out log' new,
    exportLog (.lengths 64) honest log (.object requestFields [.str "jsonl-v1".toList]) = .ok out ∧
      importDocument (.lengths 64) out.document = some log' ∧
      Wal.replay (.lengths 64) (Wal.pure Wal.canonicalPayload) log' = .ok new ∧
      new.state.lookup (Node.bareKey .white) = some (Node.bareRecord (.lengths 64) .white) := by
  have hlinked : Linked (.lengths 64) (Wal.bareRequest (.lengths 64)).identity
      (Wal.bareRequest (.lengths 64)).record := Node.linked_bareRecord (.lengths 64) .white
  have haccepted : Wal.Accepted (.lengths 64) Wal.canonicalPayload _ _ :=
    Wal.Accepted.nil.append hlinked
  have hreplay := Wal.replay_list_eq_ok.mpr ⟨_, haccepted, rfl⟩
  obtain ⟨hlossless, hhonest, -⟩ := export_import (.lengths 64)
  obtain ⟨out, hout⟩ := hhonest _ (.object requestFields [.str "jsonl-v1".toList]) "jsonl-v1".toList _
    hreplay (Value.fields?_object (by decide) rfl) List.mem_cons_self
  obtain ⟨old, log', new, hold, himport, hnew, hstate, -, -⟩ := hlossless _ _ _ _ hout
  obtain rfl := Except.ok.inj (hreplay.symm.trans hold)
  refine ⟨_, out, log', new, hout, himport, hnew, ?_⟩
  rw [hstate]
  change (Wal.fold ([] ++ [Wal.staged _ _ [] (Wal.bareRequest _)])).lookup _ = _
  rw [Wal.fold_concat]
  exact (Wal.lookup_apply _ _ _ _ _).trans (if_pos rfl)

end Export
end OpenChess
