import OpenChess.Ingest.ImportSpec

/-!
# Interrupted imports

Wherever a run stops, the store holds the index with the entries of the first accepted
games of the file assigned. Assigning some first entries before all of them changes
nothing, so a run after any number of interrupted ones ends in the index of a run that
was never interrupted.
-/

namespace OpenChess
namespace ImportPgn

open LineText
open Pgn
open PositionDigest (Sha256)

variable {sha : Sha256} {s : Session} {g g' : ParsedGame} {d d' : Disk} {index : Index}
  {text : Text} {texts : List Text} {games : List ParsedGame} {step : Step} {q : Path}
  {call : Call} {f : Source} {source : Text × RightsClass}

/-- The accepted games before the first refused one. -/
def accepted : List Text → List ParsedGame
  | [] => []
  | text :: texts =>
    match validateGame text with
    | .error _ => []
    | .ok g => g :: accepted texts

/-- The first refusal. -/
def refusal : List Text → Option Failure
  | [] => none
  | text :: texts =>
    match validateGame text with
    | .error e => some (.game e)
    | .ok _ => refusal texts

def indexAfter (sha : Sha256) (index : Index) (games : List ParsedGame) : Index :=
  Assoc.assignAll index (games.map (entryOf sha))

/-- The games a run on this file commits or finds. -/
def committed (call : Call) (f : Source) : List ParsedGame :=
  match authorize call.sourceId with
  | .error _ => []
  | .ok _ => accepted f.games

/-- A timestamp the pattern admits, and a path that is neither blank nor holds NUL. -/
structure Call.Valid (call : Call) : Prop where
  retrievedAt : validUtcTs call.retrievedAt = true
  path : strip isSpace call.pgnPath ≠ []
  clean : nul ∉ call.pgnPath

theorem accepted_cons_of_ok (hg : validateGame text = .ok g) :
    accepted (text :: texts) = g :: accepted texts := by
  simp [accepted, hg]

/-- Accepted games are those of the validator. -/
theorem exists_of_mem_accepted (h : g ∈ accepted texts) :
    ∃ text ∈ texts, validateGame text = .ok g := by
  induction texts with
  | nil => cases h
  | cons text texts ih =>
    unfold accepted at h
    split at h
    · cases h
    · next g' hg' =>
      rcases List.mem_cons.mp h with rfl | h
      · exact ⟨text, List.mem_cons_self, hg'⟩
      · obtain ⟨text', htext', hg⟩ := ih h
        exact ⟨text', List.mem_cons_of_mem _ htext', hg⟩

/-! ### The loop over the games -/

theorem importGames_cons (hg : validateGame text = .ok g)
    (hstep : importGame sha s d index g = .ok step) : importGames sha s d index (text :: texts) =
      ⟨step.ops ++ (importGames sha s (d.execAll step.ops) step.index texts).ops,
        step.outcome :: (importGames sha s (d.execAll step.ops) step.index texts).outcomes,
        (importGames sha s (d.execAll step.ops) step.index texts).failure⟩ := by
  simp [importGames, hg, hstep]

/-- The stores a loop passes through, and the one it ends in. -/
structure Loop (sha : Sha256) (d : Disk) (index : Index) (texts : List Text) (r : Games) : Prop where
  throughout : Trace.Throughout Disk.exec
    (fun d' => ∃ games, games <+: accepted texts ∧ Holds sha d' (indexAfter sha index games)) d r.ops
  holds : Holds sha (d.execAll r.ops) (indexAfter sha index (accepted texts))
  outcomes : r.outcomes.length = (accepted texts).length
  failure : r.failure = refusal texts

theorem importGames_spec (hs : s.Valid) (hclean : ∀ g ∈ accepted texts, Clean g)
    (h : Holds sha d index) : Loop sha d index texts (importGames sha s d index texts) := by
  induction texts generalizing d index with
  | nil =>
    exact ⟨Trace.throughout_nil.mpr ⟨[], List.nil_prefix, h⟩, h, rfl, rfl⟩
  | cons text texts ih =>
    cases hg : validateGame text with
    | error e =>
      have haccepted : accepted (text :: texts) = [] := by simp [accepted, hg]
      have hgames : importGames sha s d index (text :: texts) = ⟨[], [], some (.game e)⟩ := by
        simp [importGames, hg]
      rw [hgames]
      exact ⟨Trace.throughout_nil.mpr ⟨[], List.nil_prefix, h⟩, by rwa [haccepted],
        by rw [haccepted]; rfl, by simp [refusal, hg]⟩
    | ok g =>
      have haccepted : accepted (text :: texts) = g :: accepted texts := accepted_cons_of_ok hg
      rw [haccepted] at hclean
      obtain ⟨hfirst, hclean⟩ := List.forall_mem_cons.mp hclean
      obtain ⟨step, hstep, hspec⟩ := importGame_spec hs hg hfirst h
      have hrest := ih hclean hspec.holds
      have hnext : ∀ games, indexAfter sha index (g :: games) = indexAfter sha step.index games := by
        intro games
        rw [hspec.index_eq]
        rfl
      rw [importGames_cons hg hstep]
      refine ⟨?_, ?_, ?_, ?_⟩
      · refine Trace.throughout_append.mpr ⟨hspec.throughout.mono fun d' hd' => ?_,
          hrest.throughout.mono fun d' hd' => ?_⟩
        · rw [haccepted]
          rcases hd' with hd' | hd'
          · exact ⟨[], List.nil_prefix, hd'⟩
          · exact ⟨[g], ⟨accepted texts, rfl⟩, (hnext []).symm ▸ hd'⟩
        · obtain ⟨games, hprefix, hholds⟩ := hd'
          rw [haccepted]
          exact ⟨g :: games, List.cons_prefix_cons.mpr ⟨rfl, hprefix⟩, (hnext games).symm ▸ hholds⟩
      · rw [execAll_append, haccepted, hnext]
        exact hrest.holds
      · rw [haccepted, List.length_cons, List.length_cons, hrest.outcomes]
      · rw [hrest.failure]
        simp [refusal, hg]

/-! ### A run -/

theorem authorize_eq_ok {x : Scalar} (h : authorize x = .ok source) :
    source = ("pgn-file".toList, .userOwn) := by
  unfold authorize at h
  split at h
  · cases h
  · next sourceId =>
    split_ifs at h with hblank hscenario hregistered
    obtain rfl : sourceId = "pgn-file".toList := by simpa [scenarioSources] using hscenario
    exact (Except.ok.inj h).symm

theorem Call.Valid.session (h : call.Valid) (hsource : authorize call.sourceId = .ok source) :
    (call.session source).Valid := by
  obtain rfl := authorize_eq_ok hsource
  exact ⟨rfl, rfl, h.retrievedAt, h.path, h.clean⟩

theorem suffix_of_mem_glob {folder : Folder} {suffix : Text} (h : q ∈ d.glob folder suffix) :
    q.folder = folder ∧ suffix <:+ q.name := by
  obtain ⟨-, hq⟩ := List.mem_filter.mp h
  simpa using hq

theorem eq_tmp_of_suffix (h : ".tmp".toList <:+ q.name) : ∃ p, q = tmp p := by
  obtain ⟨name, hname⟩ := h
  exact ⟨⟨q.folder, name⟩, (congrArg (Path.mk q.folder) hname).symm⟩

theorem untouched_of_cleanOps (h : ∀ e ∈ index, Named e) {op : Op} (hop : op ∈ cleanOps d index) :
    indexPath ∉ op.touched ∧ ∀ e ∈ index, recordPath e.2 ∉ op.touched := by
  obtain ⟨q, hq, rfl⟩ := List.mem_map.mp hop
  simp only [Op.touched, List.mem_singleton]
  rcases List.mem_append.mp hq with hq | hq
  · have htmp : ".tmp".toList <:+ q.name := by
      rcases List.mem_append.mp hq with hq | hq
      · exact (suffix_of_mem_glob hq).2
      · exact (suffix_of_mem_glob hq).2
    obtain ⟨p, rfl⟩ := eq_tmp_of_suffix htmp
    exact ⟨indexPath_ne_tmp, fun e he => recordPath_ne_tmp (h e he).record⟩
  · obtain ⟨hglob, hunnamed⟩ := List.mem_filter.mp hq
    refine ⟨fun heq => ?_, fun e he heq => ?_⟩
    · have hfolder := (suffix_of_mem_glob hglob).1
      rw [← heq] at hfolder
      cases hfolder
    · rw [← heq] at hunnamed
      have hnamed : e.2 ∈ index.map Prod.snd := List.mem_map_of_mem he
      simp [recordPath, hnamed] at hunnamed

theorem throughout_cleanOps (h : Holds sha d index) :
    Trace.Throughout Disk.exec (fun d' => Holds sha d' index) d (cleanOps d index) := by
  refine Trace.throughout_of_keep h fun op hop d' hd' => ?_
  obtain ⟨hindex, hrecords⟩ := untouched_of_cleanOps h.named hop
  exact hd'.congr (read_exec hindex) fun e he => read_exec (hrecords e he)

theorem read_cleanOps (h : Holds sha d index) :
    (d.execAll (cleanOps d index)).read indexPath = d.read indexPath ∧
      ∀ e ∈ index, (d.execAll (cleanOps d index)).read (recordPath e.2) = d.read (recordPath e.2) := by
  refine Trace.Throughout.last (P := fun d' : Disk => d'.read indexPath = d.read indexPath ∧
    ∀ e ∈ index, d'.read (recordPath e.2) = d.read (recordPath e.2))
      (Trace.throughout_of_keep ⟨rfl, fun _ _ => rfl⟩ ?_)
  intro op hop d' hd'
  obtain ⟨hindex, hrecords⟩ := untouched_of_cleanOps h.named hop
  exact ⟨(read_exec hindex).trans hd'.1, fun e he => (read_exec (hrecords e he)).trans (hd'.2 e he)⟩

/-- The operations after the loop keep the index and every record. -/
theorem finish_ops (s : Session) (r : Games) : ∃ tail, (finish s r).ops = r.ops ++ tail ∧
    ∀ d', Holds sha d' index → Trace.Throughout Disk.exec (fun d'' => Holds sha d'' index ∧
      d''.read indexPath = d'.read indexPath ∧ ∀ rec, recordNameRe rec = true →
        d''.read (recordPath rec) = d'.read (recordPath rec)) d' tail := by
  have hstay : ∀ d', Holds sha d' index → Trace.Throughout Disk.exec (fun d'' =>
      Holds sha d'' index ∧ d''.read indexPath = d'.read indexPath ∧ ∀ rec, recordNameRe rec = true →
        d''.read (recordPath rec) = d'.read (recordPath rec)) d' [] :=
    fun d' h => Trace.throughout_nil.mpr ⟨h, rfl, fun _ _ => rfl⟩
  unfold finish
  split
  · exact ⟨[], by simp, hstay⟩
  · split_ifs
    · exact ⟨[], by simp, hstay⟩
    · refine ⟨_, rfl, fun d' h => Trace.throughout_cons.mpr ⟨⟨h, rfl, fun _ _ => rfl⟩, ?_⟩⟩
      have hkeep : ∀ d'' : Disk, (∀ q, q ≠ summaryPath → q ≠ tmp summaryPath →
          d''.read q = (d'.exec (.emit "import.completed".toList)).read q) →
          Holds sha d'' index ∧ d''.read indexPath = d'.read indexPath ∧
            ∀ rec, recordNameRe rec = true → d''.read (recordPath rec) = d'.read (recordPath rec) := by
        intro d'' hd''
        have hindex := hd'' indexPath (by decide) indexPath_ne_tmp
        have hrecord : ∀ rec, recordNameRe rec = true →
            d''.read (recordPath rec) = d'.read (recordPath rec) := fun rec hrec =>
          hd'' _ (fun heq => by cases congrArg Path.folder heq) (recordPath_ne_tmp hrec)
        exact ⟨h.congr hindex fun e he => hrecord _ (h.named e he).record, hindex, hrecord⟩
      exact throughout_atomicWrite (fun d'' hd'' => hkeep d'' fun q _ htmp => hd'' q htmp)
        fun d'' _ hd'' => hkeep d'' hd''

theorem runImportPgn_of_error {e : Failure} (h : authorize call.sourceId = .error e) :
    runImportPgn sha call f d = ⟨[], .error e⟩ := by
  simp [runImportPgn, h]

/-- The parts of a run on a store that holds an index. -/
theorem runImportPgn_of_holds (hsource : authorize call.sourceId = .ok source)
    (h : Holds sha d index) : runImportPgn sha call f d =
      ⟨(cleanOps d index ++ [.emit "import.started".toList]) ++ (finish (call.session source)
          (importGames sha (call.session source)
            (d.execAll (cleanOps d index ++ [.emit "import.started".toList])) index f.games)).ops,
        (finish (call.session source) (importGames sha (call.session source)
          (d.execAll (cleanOps d index ++ [.emit "import.started".toList])) index f.games)).result⟩ := by
  have hrecover := recoverStore_eq_ok.mpr ⟨rfl, h⟩
  simp only [runImportPgn, hsource, hrecover]

/-- Wherever a run stops, the store holds the index after some first games. -/
theorem runImportPgn_spec (hcall : call.Valid) (hclean : ∀ g ∈ committed call f, Clean g)
    (h : Holds sha d index) :
    Trace.Throughout Disk.exec
      (fun d' => ∃ games, games <+: committed call f ∧ Holds sha d' (indexAfter sha index games)) d
      (runImportPgn sha call f d).ops ∧
    Holds sha (completed sha call f d) (indexAfter sha index (committed call f)) := by
  unfold completed committed
  unfold committed at hclean
  cases hsource : authorize call.sourceId with
  | error e =>
    rw [runImportPgn_of_error hsource]
    exact ⟨Trace.throughout_nil.mpr ⟨[], List.nil_prefix, h⟩, h⟩
  | ok source =>
    simp only [hsource] at hclean ⊢
    have hopening : Trace.Throughout Disk.exec (fun d' => Holds sha d' index) d
        (cleanOps d index ++ [.emit "import.started".toList]) := by
      have hcleaning := throughout_cleanOps h
      refine Trace.throughout_append.mpr ⟨hcleaning, Trace.throughout_cons.mpr ⟨hcleaning.last, ?_⟩⟩
      exact Trace.throughout_nil.mpr hcleaning.last.emit
    have hloop := importGames_spec (hcall.session hsource) hclean hopening.last
    obtain ⟨tail, hops, htail⟩ := finish_ops (call.session source)
      (importGames sha (call.session source)
        (d.execAll (cleanOps d index ++ [.emit "import.started".toList])) index f.games)
    have hend := htail _ hloop.holds
    rw [runImportPgn_of_holds hsource h, hops]
    constructor
    · refine Trace.throughout_append.mpr ⟨hopening.mono fun d' hd' => ⟨[], List.nil_prefix, hd'⟩, ?_⟩
      refine Trace.throughout_append.mpr ⟨hloop.throughout, hend.mono fun d' hd' => ?_⟩
      exact ⟨_, List.prefix_refl _, hd'.1⟩
    · rw [execAll_append, execAll_append]
      exact hend.last.1

end ImportPgn
end OpenChess
