import OpenChess.Ingest.ImportCrash

/-!
# Runs after runs

What recovery accepts after any sequence of runs, each stopped anywhere, and what a
further run on the same file reports.
-/

namespace OpenChess
namespace ImportPgn

open LineText
open Pgn
open PositionDigest (Sha256)

variable {sha : Sha256} {s : Session} {g g' : ParsedGame} {d d' : Disk} {index : Index}
  {text : Text} {texts : List Text} {games : List ParsedGame} {step : Step} {call call' : Call}
  {f : Source} {source : Text × RightsClass} {e : Text × Text} {v : Value} {fault : RecordFault}

/-- The next run's `_recover_store` does not refuse. -/
def Accepts (sha : Sha256) (d : Disk) : Prop := ∃ r, recoverStore sha d = .ok r

theorem accepts_iff : Accepts sha d ↔ ∃ index, Holds sha d index := by
  constructor
  · rintro ⟨⟨ops, index⟩, h⟩
    exact ⟨index, (recoverStore_eq_ok.mp h).2⟩
  · rintro ⟨index, h⟩
    exact ⟨_, recoverStore_eq_ok.mpr ⟨rfl, h⟩⟩

theorem accepts_fresh : Accepts sha Disk.fresh := ⟨_, rfl⟩

/-- The disk after these runs, each stopped after a number of its operations; a number
beyond them is a run that ends by itself. -/
def afterRuns (sha : Sha256) (d : Disk) (runs : List (Call × Source × ℕ)) : Disk :=
  runs.foldl (fun d r => interrupted sha r.1 r.2.1 d r.2.2) d

/-- Runs on files whose committed games hold no NUL leave a store that recovery accepts,
wherever each of them stops. -/
theorem accepts_afterRuns (h : Accepts sha d) (runs : List (Call × Source × ℕ))
    (hruns : ∀ r ∈ runs, r.1.Valid ∧ ∀ g ∈ committed r.1 r.2.1, Clean g) :
    Accepts sha (afterRuns sha d runs) := by
  induction runs generalizing d with
  | nil => exact h
  | cons r runs ih =>
    obtain ⟨⟨hcall, hclean⟩, hruns⟩ := List.forall_mem_cons.mp hruns
    obtain ⟨index, hholds⟩ := accepts_iff.mp h
    obtain ⟨games, -, hnext⟩ := (runImportPgn_spec hcall hclean hholds).1 r.2.2
    exact ih (accepts_iff.mpr ⟨_, hnext⟩) hruns

/-- The games of a file without NUL are clean. -/
theorem clean_of_committed (h : ∀ text ∈ f.games, nul ∉ text) :
    ∀ g ∈ committed call f, Clean g := by
  intro g hg
  unfold committed at hg
  split at hg
  · cases hg
  · obtain ⟨text, htext, hvalid⟩ := exists_of_mem_accepted hg
    exact clean_of_notMem hvalid (h text htext)

/-! ### A file of one game on a new store -/

theorem recoverStore_single (hnamed : Named e)
    (hindex : d.read indexPath = some (.json (indexValue [e])))
    (hrecord : d.read (recordPath e.2) = some (.json v))
    (hfault : validateRecord sha v e.1 e.2 = .error fault) :
    recoverStore sha d = .error (.record 0 fault) := by
  have hread : ordered? entryFields (.object entryFields [.str e.1, .str e.2]) =
      some [.str e.1, .str e.2] := ordered?_object rfl
  have hentry : validateEntry sha d [] [] 0 (.object entryFields [.str e.1, .str e.2]) =
      .error (.record 0 fault) := by
    rw [validateEntry, hread]
    simp [refuseIf, orRefuse, Value.text?, Option.filter_some, hnamed.gid, hnamed.record,
      hnamed.agree, hrecord, hfault, bind, Except.bind]
  rw [recoverStore, hindex]
  simp [indexValue, validateIndex, validateEntries, hentry, bind, Except.bind]

theorem runImportPgn_single (hsource : authorize call.sourceId = .ok source)
    (hf : f.games = [text]) (hg : validateGame text = .ok g) :
    runImportPgn sha call f Disk.fresh =
      ⟨.emit "import.started".toList ::
        (commitGame (filename sha (call.session source) g) (recordValue sha (call.session source) g)
            [(gameId sha g, filename sha (call.session source) g)] ++
          (.emit Outcome.imported.event :: .emit "import.completed".toList ::
            atomicWrite summaryPath (Summary.of source.1 [.imported]).toValue)),
        .ok (Summary.of source.1 [.imported])⟩ := by
  have hrecover : recoverStore sha Disk.fresh = .ok ([], []) := rfl
  rw [runImportPgn, hsource]
  simp only [hrecover, hf, importGames, hg]
  rfl

theorem read_completed_single (hsource : authorize call.sourceId = .ok source)
    (hf : f.games = [text]) (hg : validateGame text = .ok g) (hs : (call.session source).Valid) :
    (completed sha call f Disk.fresh).read indexPath =
      some (.json (indexValue [entryOf sha g])) ∧
    (completed sha call f Disk.fresh).read (recordPath (entryOf sha g).2) =
      some (.json (recordValue sha (call.session source) g)) := by
  have hrec : recordNameRe (entryOf sha g).2 = true := named_entryOf.record
  have hfolder : ∀ p, p.folder = .root → recordPath (entryOf sha g).2 ≠ p := by
    intro p hp heq
    rw [← heq] at hp
    cases hp
  obtain ⟨hread, -⟩ := read_atomicWrite (d := Disk.fresh.exec (.emit "import.started".toList))
    (p := recordPath (entryOf sha g).2) (v := recordValue sha (call.session source) g)
  generalize hd : (Disk.fresh.exec (.emit "import.started".toList)).execAll
    (atomicWrite (recordPath (entryOf sha g).2) (recordValue sha (call.session source) g)) =
      d at hread
  obtain ⟨hread', hframe'⟩ := read_atomicWrite (d := d) (p := indexPath)
    (v := indexValue [entryOf sha g])
  generalize hd' : d.execAll (atomicWrite indexPath (indexValue [entryOf sha g])) =
    d' at hread' hframe'
  obtain ⟨-, hframe⟩ := read_atomicWrite
    (d := (d'.exec (.emit Outcome.imported.event)).exec (.emit "import.completed".toList))
    (p := summaryPath) (v := (Summary.of source.1 [.imported]).toValue)
  have hrun : completed sha call f Disk.fresh =
      ((d'.exec (.emit Outcome.imported.event)).exec (.emit "import.completed".toList)).execAll
        (atomicWrite summaryPath (Summary.of source.1 [.imported]).toValue) := by
    rw [completed, runImportPgn_single hsource hf hg, ← hd', ← hd, entryOf_eq hs, execAll_cons,
      execAll_append, execAll_cons, execAll_cons, commitGame, execAll_append]
  rw [hrun, hframe _ (by decide) indexPath_ne_tmp,
    hframe _ (hfolder _ rfl) (recordPath_ne_tmp hrec)]
  refine ⟨hread', (hframe' _ (hfolder _ rfl) (recordPath_ne_tmp hrec)).trans hread⟩

/-! ### Files with and without a NUL character -/

def sampleCall : Call :=
  ⟨.str "pgn-file".toList, "games.pgn".toList, "2026-01-01T00:00:00Z".toList⟩

theorem sampleCall_valid : sampleCall.Valid :=
  ⟨by decide, by decide, by decide⟩

/-- `1. e4 *`. -/
def cleanFile : Source := ⟨["1. e4 *".toList], []⟩

theorem cleanFile_games : ∀ text ∈ cleanFile.games, nul ∉ text := by
  have hgames : cleanFile.games = given "1. e4 *".toList := iterPgnGames_single rfl
  rw [hgames]
  decide

theorem accepts_afterRuns_sample :
    Accepts (Hex.Hash.lengths 64) (afterRuns (Hex.Hash.lengths 64) Disk.fresh
      [(sampleCall, cleanFile, 6), (sampleCall, cleanFile, 100)]) := by
  refine accepts_afterRuns accepts_fresh _ fun r hr => ?_
  rcases List.mem_pair.mp hr with rfl | rfl
  · exact ⟨sampleCall_valid, clean_of_committed cleanFile_games⟩
  · exact ⟨sampleCall_valid, clean_of_committed cleanFile_games⟩

/-- `1. e4 {NUL} *`. -/
def nulFile : Source := ⟨["1. e4 \x7b".toList ++ nul :: "\x7d *".toList], []⟩

def faultOf (r : Except StoreFault (List Op × Index)) : Option StoreFault :=
  match r with
  | .error fault => some fault
  | .ok _ => none

/-- The game of `nulFile`. -/
theorem validateGame_nulFile :
    validateGame ("1. e4 \x7b".toList ++ nul :: "\x7d *".toList) = .ok
      ⟨[], "1. e4 \x7b".toList ++ nul :: "\x7d *".toList, ["e4".toList], "*".toList⟩ := by
  have htags : parseTags ("1. e4 \x7b".toList ++ nul :: "\x7d *".toList) =
      .ok ([], "1. e4 \x7b".toList ++ nul :: "\x7d *".toList) := by decide +kernel
  rw [validateGame, htags]
  exact validateParts_kingPawn (by decide +kernel) rfl rfl (by decide)

/-- An import that ends with its summary leaves a store that recovery refuses. -/
theorem nul_comment_refused : sampleCall.Valid ∧
    (runImportPgn (Hex.Hash.lengths 64) sampleCall nulFile Disk.fresh).result.toOption =
      some ⟨"pgn-file".toList, 1, 0, 0⟩ ∧
    faultOf (recoverStore (Hex.Hash.lengths 64)
      (completed (Hex.Hash.lengths 64) sampleCall nulFile Disk.fresh)) = some (.record 0 .nul) := by
  obtain ⟨source, hsource⟩ : ∃ source, authorize sampleCall.sourceId = .ok source := ⟨_, rfl⟩
  have hgames : nulFile.games = ["1. e4 \x7b".toList ++ nul :: "\x7d *".toList] :=
    (iterPgnGames_single rfl).trans (by decide)
  have hs := sampleCall_valid.session hsource
  obtain ⟨hindex, hrecord⟩ :
      (completed (Hex.Hash.lengths 64) sampleCall nulFile Disk.fresh).read indexPath = _ ∧ _ :=
    read_completed_single hsource hgames validateGame_nulFile hs
  refine ⟨sampleCall_valid, ?_, ?_⟩
  · rw [runImportPgn_single hsource hgames validateGame_nulFile]
    have hname : source.1 = "pgn-file".toList := by
      obtain rfl := authorize_eq_ok hsource
      rfl
    simp only [hname]
    rfl
  · have hfault : validateRecord (Hex.Hash.lengths 64) _ _ _ = _ :=
      validateRecord_eq validateGame_nulFile hs
    rw [if_pos (.inl (by decide))] at hfault
    rw [recoverStore_single named_entryOf hindex hrecord (by rwa [entryOf_eq hs])]
    rfl

/-! ### Duplicates -/

def content (sha : Sha256) (g : ParsedGame) : Text :=
  canonicalRecord (gameId sha g) "pgn-file".toList "standard".toList g.tags g.movetext

def OneContent (sha : Sha256) (games : List ParsedGame) : Prop :=
  ∀ g ∈ games, ∀ g' ∈ games, gameId sha g = gameId sha g' → content sha g = content sha g'

theorem Shows.of_content (h : Shows sha d index g) (hid : gameId sha g = gameId sha g')
    (hcontent : content sha g = content sha g') : Shows sha d index g' := by
  obtain ⟨rec, v, hmem, hread, hdigest⟩ := h
  refine ⟨rec, v, hid ▸ hmem, hread, ?_⟩
  change contentDigest v = some (sha.hexdigest (content sha g'))
  rw [hdigest, ← hcontent]
  rfl

theorem Shows.congr (h : Shows sha d index g) (hholds : Holds sha d index)
    (hread : ∀ rec, recordNameRe rec = true → d'.read (recordPath rec) = d.read (recordPath rec)) :
    Shows sha d' index g := by
  obtain ⟨rec, v, hmem, hrec, hdigest⟩ := h
  exact ⟨rec, v, hmem, (hread rec (hholds.named _ hmem).record).trans hrec, hdigest⟩

/-- A game that is shown stays so when a game of another id, or of the same content, is
imported. -/
theorem Shows.after_step (h : Shows sha d index g') (hholds : Holds sha d index)
    (hspec : GameStep sha d index g step)
    (hsame : gameId sha g = gameId sha g' → content sha g = content sha g') :
    Shows sha (d.execAll step.ops) step.index g' := by
  by_cases hid : gameId sha g = gameId sha g'
  · exact hspec.shows.of_content hid (hsame hid)
  · obtain ⟨rec, v, hmem, hread, hdigest⟩ := h
    have hnamed := hholds.named _ hmem
    have hother : recordPath rec ≠ recordPath (entryOf sha g).2 := by
      intro heq
      have hrec : rec = (entryOf sha g).2 := congrArg Path.name heq
      have hagree := hnamed.agree
      rw [hrec, (named_entryOf (g := g)).agree] at hagree
      exact hid hagree
    refine ⟨rec, v, ?_, ?_, hdigest⟩
    · rw [hspec.index_eq]
      exact (Assoc.mem_assign hholds.distinct).mpr (.inr ⟨hmem, Ne.symm hid⟩)
    · rw [hspec.frame _ (fun heq => by cases congrArg Path.folder heq) hother
        fun p => recordPath_ne_tmp hnamed.record, hread]

theorem shows_importGames (hs : s.Valid) (hclean : ∀ g ∈ accepted texts, Clean g)
    (h : Holds sha d index) (hone : OneContent sha (games ++ accepted texts))
    (hshown : ∀ g ∈ games, Shows sha d index g) : ∀ g ∈ games ++ accepted texts,
      Shows sha (d.execAll (importGames sha s d index texts).ops)
        (indexAfter sha index (accepted texts)) g := by
  induction texts generalizing d index games with
  | nil => simpa [accepted, importGames, indexAfter, Assoc.assignAll, Disk.execAll] using hshown
  | cons text texts ih =>
    cases hg : validateGame text with
    | error e =>
      have haccepted : accepted (text :: texts) = [] := by simp [accepted, hg]
      simpa [haccepted, importGames, hg, indexAfter, Assoc.assignAll, Disk.execAll] using hshown
    | ok g =>
      have haccepted : accepted (text :: texts) = g :: accepted texts := accepted_cons_of_ok hg
      rw [haccepted] at hclean hone ⊢
      obtain ⟨hfirst, hclean⟩ := List.forall_mem_cons.mp hclean
      obtain ⟨step, hstep, hspec⟩ := importGame_spec hs hg hfirst h
      have hassoc : games ++ g :: accepted texts = (games ++ [g]) ++ accepted texts := by simp
      have hnow : ∀ g' ∈ games ++ [g], Shows sha (d.execAll step.ops) step.index g' := by
        intro g' hg'
        rcases List.mem_append.mp hg' with hg' | hg'
        · exact (hshown g' hg').after_step h hspec fun hid =>
            hone g (by simp) g' (List.mem_append_left _ hg') hid
        · obtain rfl := List.mem_singleton.mp hg'
          exact hspec.shows
      have hindex : indexAfter sha index (g :: accepted texts) =
          indexAfter sha step.index (accepted texts) := by
        rw [hspec.index_eq]
        rfl
      rw [importGames_cons hg hstep, execAll_append, hindex, hassoc]
      exact ih hclean hspec.holds (hassoc ▸ hone) hnow

theorem importGame_of_shows (hs : s.Valid) (h : Holds sha d index) (hshown : Shows sha d index g) :
    importGame sha s d index g = .ok ⟨[.emit Outcome.already.event], index, .already⟩ := by
  obtain ⟨rec, v, hmem, hread, hdigest⟩ := hshown
  have hlookup : index.lookup (gameId sha g) = some rec :=
    (Dict.lookup_eq_some_iff_mem h.distinct).mpr hmem
  simp [importGame, hlookup, hread, hdigest, digest_eq hs]

theorem importGames_of_shows (hs : s.Valid) (h : Holds sha d index)
    (hshown : ∀ g ∈ accepted texts, Shows sha d index g) : importGames sha s d index texts =
      ⟨(accepted texts).map fun _ => .emit Outcome.already.event,
        (accepted texts).map fun _ => .already, refusal texts⟩ := by
  induction texts generalizing d with
  | nil => rfl
  | cons text texts ih =>
    cases hg : validateGame text with
    | error e => simp [importGames, accepted, refusal, hg]
    | ok g =>
      have haccepted : accepted (text :: texts) = g :: accepted texts := accepted_cons_of_ok hg
      have hrefusal : refusal (text :: texts) = refusal texts := by simp [refusal, hg]
      rw [haccepted] at hshown
      obtain ⟨hfirst, hshown⟩ := List.forall_mem_cons.mp hshown
      have hrest := ih (d := d.exec (.emit Outcome.already.event)) h.emit
        fun g' hg' => (hshown g' hg').congr h fun _ _ => rfl
      rw [importGames_cons hg (importGame_of_shows hs h hfirst), haccepted, hrefusal]
      change Games.mk (.emit Outcome.already.event ::
        (importGames sha s (d.exec (.emit Outcome.already.event)) index texts).ops) (.already ::
        (importGames sha s (d.exec (.emit Outcome.already.event)) index texts).outcomes)
        (importGames sha s (d.exec (.emit Outcome.already.event)) index texts).failure = _
      rw [hrest]
      rfl

/-! ### A further run -/

/-- The telemetry of a list of operations. -/
def events (ops : List Op) : List Text :=
  ops.filterMap fun op =>
    match op with
    | .emit event => some event
    | _ => none

theorem shows_completed (hcall : call.Valid) (hclean : ∀ g ∈ committed call f, Clean g)
    (h : Holds sha d index) (hone : OneContent sha (committed call f)) :
    ∀ g ∈ committed call f,
      Shows sha (completed sha call f d) (indexAfter sha index (committed call f)) g := by
  unfold completed
  unfold committed at hclean hone ⊢
  cases hsource : authorize call.sourceId with
  | error e => simp
  | ok source =>
    simp only [hsource] at hclean hone ⊢
    have hcleaning := (throughout_cleanOps h).last
    have hopening :
        Holds sha (d.execAll (cleanOps d index ++ [.emit "import.started".toList])) index := by
      rw [Disk.execAll, Trace.run_snoc]
      exact hcleaning.emit
    have hloop := importGames_spec (hcall.session hsource) hclean hopening
    have hone' : OneContent sha ([] ++ accepted f.games) := hone
    have hshows := shows_importGames (hcall.session hsource) hclean hopening hone' (by simp)
    obtain ⟨tail, hops, htail⟩ := finish_ops (call.session source)
      (importGames sha (call.session source)
        (d.execAll (cleanOps d index ++ [.emit "import.started".toList])) index f.games)
    have hend := (htail _ hloop.holds).last
    intro g hg
    rw [runImportPgn_of_holds hsource h, hops, execAll_append, execAll_append]
    exact (hshows g (by simpa using hg)).congr hloop.holds hend.2.2

theorem events_append (ops ops' : List Op) : events (ops ++ ops') = events ops ++ events ops' :=
  List.filterMap_append

theorem events_cleanOps (d : Disk) (index : Index) : events (cleanOps d index) = [] := by
  refine List.filterMap_eq_nil_iff.mpr fun op hop => ?_
  obtain ⟨q, -, rfl⟩ := List.mem_map.mp hop
  rfl

theorem emits (games : List ParsedGame) (event : Text) (d : Disk) :
    events (games.map fun _ => .emit event) = List.replicate games.length event ∧
      ∀ q, (d.execAll (games.map fun _ => .emit event)).read q = d.read q := by
  induction games generalizing d with
  | nil => exact ⟨rfl, fun _ => rfl⟩
  | cons g games ih =>
    obtain ⟨hevents, hread⟩ := ih (d.exec (.emit event))
    exact ⟨congrArg (event :: ·) hevents, hread⟩

theorem events_finish (s : Session) (r : Games) : events (finish s r).ops =
    events r.ops ++ if r.failure = none ∧ r.outcomes ≠ [] then ["import.completed".toList] else [] := by
  unfold finish
  cases hfailure : r.failure with
  | some e => simp
  | none =>
    by_cases hnone : r.outcomes = []
    · simp [hnone]
    · simp only [if_neg hnone, events_append]
      simp [hnone, events, atomicWrite]

theorem length_accepted (h : refusal texts = none) : (accepted texts).length = texts.length := by
  induction texts with
  | nil => rfl
  | cons text texts ih =>
    cases hg : validateGame text with
    | error e => simp [refusal, hg] at h
    | ok g =>
      have hrest : refusal texts = none := by simpa [refusal, hg] using h
      rw [accepted_cons_of_ok hg, List.length_cons, List.length_cons, ih hrest]

theorem accepted_ne_nil (h : refusal texts = none) : accepted texts ≠ [] ↔ texts ≠ [] := by
  rw [← List.length_pos_iff, ← List.length_pos_iff, length_accepted h]

/-- The report of a run on a store that shows all its games. -/
structure AllDuplicates (f : Source) (r : Run) : Prop where
  events : events r.ops = "import.started".toList ::
    (List.replicate (accepted f.games).length Outcome.already.event ++
      if refusal f.games = none ∧ f.games ≠ [] then ["import.completed".toList] else [])
  refused : ∀ e, refusal f.games = some e → r.result = .error e
  summary : refusal f.games = none → f.games ≠ [] →
    r.result = .ok ⟨"pgn-file".toList, 0, f.games.length, 0⟩

theorem runImportPgn_of_shows (hcall : call.Valid) (hsource : authorize call.sourceId = .ok source)
    (h : Holds sha d index) (hshown : ∀ g ∈ accepted f.games, Shows sha d index g) :
    AllDuplicates f (runImportPgn sha call f d) ∧
      (completed sha call f d).read indexPath = d.read indexPath := by
  let opened := d.execAll (cleanOps d index ++ [.emit "import.started".toList])
  have hsession := hcall.session hsource
  have hemit : ∀ q, opened.read q = (d.execAll (cleanOps d index)).read q := by
    intro q
    simp only [opened, Disk.execAll, Trace.run_snoc]
    rfl
  have hopened : Holds sha opened index := by
    have hclean := (throughout_cleanOps h).last
    exact hclean.congr (hemit _) fun e _ => hemit _
  have hshown' : ∀ g ∈ accepted f.games, Shows sha opened index g := by
    intro g hg
    obtain ⟨rec, v, hmem, hread, hdigest⟩ := hshown g hg
    exact ⟨rec, v, hmem, (hemit _).trans (((read_cleanOps h).2 _ hmem).trans hread), hdigest⟩
  have hgames := importGames_of_shows hsession hopened hshown'
  have hrun := runImportPgn_of_holds (f := f) hsource h
  rw [hgames] at hrun
  have hmapped : ((accepted f.games).map fun _ => Outcome.already) =
      List.replicate (accepted f.games).length .already := List.map_const'
  have hcompleted : refusal f.games = none → ((accepted f.games).map (fun _ => Outcome.already) ≠ [] ↔
      f.games ≠ []) := by
    intro hnone
    rw [ne_eq, List.map_eq_nil_iff]
    exact accepted_ne_nil hnone
  refine ⟨⟨?_, fun e he => ?_, fun hnone hne => ?_⟩, ?_⟩
  · have hstarted : events [.emit "import.started".toList] = ["import.started".toList] := rfl
    rw [hrun, events_append, events_append, events_cleanOps, events_finish, (emits _ _ d).1, hstarted]
    have hcond : (refusal f.games = none ∧
        (accepted f.games).map (fun _ => Outcome.already) ≠ []) ↔
          (refusal f.games = none ∧ f.games ≠ []) := and_congr_right hcompleted
    simp only [hcond, List.nil_append, List.singleton_append]
  · rw [hrun]
    simp [finish, he]
  · rw [hrun]
    simp only [finish, hnone, if_neg ((hcompleted hnone).mpr hne)]
    rw [hmapped, length_accepted hnone, Summary.of, authorize_eq_ok hsource]
    simp [Call.session, List.count_replicate]
  · obtain ⟨tail, hops, htail⟩ := finish_ops (call.session source)
      ⟨(accepted f.games).map fun _ => .emit Outcome.already.event,
        (accepted f.games).map fun _ => .already, refusal f.games⟩
    have hemits := (emits (accepted f.games) Outcome.already.event opened).2
    have hgone : Holds sha (opened.execAll ((accepted f.games).map fun _ =>
        .emit Outcome.already.event)) index := hopened.congr (hemits _) fun e _ => hemits _
    rw [completed, hrun, hops, execAll_append, execAll_append]
    calc
      _ = (opened.execAll ((accepted f.games).map fun _ => .emit Outcome.already.event)).read
          indexPath := (htail _ hgone).last.2.1
      _ = opened.read indexPath := hemits _
      _ = (d.execAll (cleanOps d index)).read indexPath := hemit _
      _ = d.read indexPath := (read_cleanOps h).1

/-! ### Crashes and the run after them -/

def crashed (sha : Sha256) (f : Source) (d : Disk) (stops : List (Call × ℕ)) : Disk :=
  afterRuns sha d (stops.map fun c => (c.1, f, c.2))

theorem committed_congr (h : call.sourceId = call'.sourceId) :
    committed call f = committed call' f := by
  simp only [committed, h]

/-- After any number of interrupted runs the games of the file, assigned to the index,
give what they give at the start. -/
theorem crashed_spec (h : Holds sha d index) (hclean : ∀ g ∈ committed call f, Clean g)
    {stops : List (Call × ℕ)} (hstops : ∀ c ∈ stops, c.1.Valid ∧ c.1.sourceId = call.sourceId) :
    ∃ index', Holds sha (crashed sha f d stops) index' ∧
      indexAfter sha index' (committed call f) = indexAfter sha index (committed call f) := by
  induction stops generalizing d index with
  | nil => exact ⟨index, h, rfl⟩
  | cons c stops ih =>
    obtain ⟨⟨hcall, hsource⟩, hstops⟩ := List.forall_mem_cons.mp hstops
    have hcommitted : committed c.1 f = committed call f := committed_congr hsource
    obtain ⟨games, hprefix, hholds⟩ := (runImportPgn_spec hcall (hcommitted ▸ hclean) h).1 c.2
    obtain ⟨index', hindex', heq⟩ := ih hholds hstops
    refine ⟨index', hindex', heq.trans ?_⟩
    exact Assoc.assignAll_of_prefix (List.IsPrefix.map _ (hcommitted ▸ hprefix))

/-- A crash leaves the index after some first games, a run after crashes ends in the
index of an uninterrupted run, and a further run finds duplicates only. -/
theorem import_crash_atomic (h : Holds sha d index) (hnul : ∀ text ∈ f.games, nul ∉ text)
    (hcall : call.Valid) (stops : List (Call × ℕ))
    (hstops : ∀ c ∈ stops, c.1.Valid ∧ c.1.sourceId = call.sourceId) :
    (∀ n, ∃ games, games <+: committed call f ∧
      Holds sha (interrupted sha call f d n) (indexAfter sha index games)) ∧
    Holds sha (completed sha call f d) (indexAfter sha index (committed call f)) ∧
    Holds sha (completed sha call f (crashed sha f d stops))
      (indexAfter sha index (committed call f)) ∧
    (OneContent sha (committed call f) → ∀ source, authorize call.sourceId = .ok source →
      ∀ call', call'.Valid → call'.sourceId = call.sourceId →
        AllDuplicates f (runImportPgn sha call' f (completed sha call f (crashed sha f d stops))) ∧
        (completed sha call' f (completed sha call f (crashed sha f d stops))).read indexPath =
          (completed sha call f (crashed sha f d stops)).read indexPath) := by
  have hclean : ∀ g ∈ committed call f, Clean g := clean_of_committed hnul
  obtain ⟨hthrough, hend⟩ := runImportPgn_spec hcall hclean h
  obtain ⟨index', hindex', heq⟩ := crashed_spec h hclean hstops
  have hrerun := (runImportPgn_spec hcall hclean hindex').2
  refine ⟨hthrough, hend, heq ▸ hrerun, fun hone source hsource call' hcall' hsame => ?_⟩
  have hshown := shows_completed hcall hclean hindex' hone
  have hcommitted : committed call f = accepted f.games := by simp only [committed, hsource]
  exact runImportPgn_of_shows hcall' (hsame ▸ hsource) hrerun (hcommitted ▸ hshown)

theorem holds_fresh : Holds sha Disk.fresh [] := ⟨.inr ⟨rfl, rfl⟩, List.nodup_nil, by simp, by simp⟩

theorem import_crash_atomic_sample :
    Holds (Hex.Hash.lengths 64) (completed (Hex.Hash.lengths 64) sampleCall cleanFile
      (crashed (Hex.Hash.lengths 64) cleanFile Disk.fresh [(sampleCall, 6), (sampleCall, 3)]))
      (indexAfter (Hex.Hash.lengths 64) [] (committed sampleCall cleanFile)) := by
  have hstops : ∀ c ∈ [(sampleCall, 6), (sampleCall, 3)],
      c.1.Valid ∧ c.1.sourceId = sampleCall.sourceId := by
    intro c hc
    rcases List.mem_pair.mp hc with rfl | rfl
    · exact ⟨sampleCall_valid, rfl⟩
    · exact ⟨sampleCall_valid, rfl⟩
  exact (import_crash_atomic holds_fresh cleanFile_games sampleCall_valid _ hstops).2.2.1

end ImportPgn
end OpenChess
