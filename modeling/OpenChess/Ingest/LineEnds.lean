import OpenChess.Ingest.ImportRuns
import OpenChess.Ingest.Streaming

/-!
# Line ends of an imported file

What `run_import_pgn` makes of a file and of the same file with CRLF line ends. The tag
reader cuts lines at either line end, but the splitter looks for two line feeds in a row, so
a file with CRLF line ends is always one game.
-/

namespace OpenChess
namespace ImportPgn

open LineText
open Pgn
open PositionDigest (Sha256)
open Streaming (Bytes PgnFile Zstd blank boundary noZstd pieces rawChunks)

variable {sha : Sha256} {s : Session} {g g' : ParsedGame} {d : Disk} {index : Index}
  {text text' t u : Text} {texts texts' lines ls moveLines : List Text} {tags : Tags}
  {inTags : Bool} {call : Call} {f f' : Source} {Z : Zstd} {file file' : PgnFile} {n : ℕ}

/-! ### Lines of a game -/

/-- The lines `_parse_tags` looks at. -/
def visible (t : Text) : List Text := visibleLines isLineBreak isSpace t

theorem parseLines_visible : parseLines tags moveLines inTags lines =
    parseLines tags moveLines inTags (lines.filter fun l => strip isSpace l ≠ []) := by
  induction lines generalizing tags moveLines inTags with
  | nil => rfl
  | cons l lines ih =>
    by_cases hblank : strip isSpace l = []
    · rw [List.filter_cons_of_neg (by simpa using hblank), ← ih, parseLines]
      simp only [if_pos hblank]
    · rw [List.filter_cons_of_pos (by simpa using hblank), parseLines, parseLines]
      simp only [if_neg hblank]
      split_ifs
      · rfl
      · cases readTag (strip isSpace l) with
        | none => rfl
        | some e => simp only [← ih]
      · exact ih

theorem parseTags_eq : parseTags t = parseLines [] [] true (visible t) := parseLines_visible

theorem validateGame_congr (h : visible t = visible u) : validateGame t = validateGame u := by
  rw [validateGame, validateGame, parseTags_eq, parseTags_eq, h]

theorem parseLines_late {r : Tags × Text} {l : Text}
    (h : parseLines tags moveLines inTags lines = .ok r) (hstart : inTags = true → moveLines = [])
    (hl : (strip isSpace l).head? = some '[') (ls : List Text) :
    ∃ e, parseLines tags moveLines inTags (lines ++ l :: ls) = .error e := by
  induction lines generalizing tags moveLines inTags with
  | nil =>
    rw [parseLines] at h
    split_ifs at h with hopen
    have hlate : inTags = false := by
      cases inTags with
      | false => rfl
      | true => exact absurd ⟨rfl, hstart rfl⟩ hopen
    have hne : strip isSpace l ≠ [] := by
      intro hnil
      rw [hnil] at hl
      cases hl
    refine ⟨.afterMovetext (strip isSpace l), ?_⟩
    rw [List.nil_append, parseLines]
    simp only [if_neg hne, if_pos hl, if_pos hlate]
  | cons l' lines ih =>
    rw [parseLines] at h
    rw [List.cons_append, parseLines]
    split_ifs at h ⊢ with hblank hhead hlate
    · exact ih h hstart
    · cases hread : readTag (strip isSpace l') with
      | none =>
        rw [hread] at h
        cases h
      | some e =>
        simp only [hread] at h ⊢
        split_ifs at h ⊢
        exact ih h hstart
    · exact ih h (by simp)

/-! ### The games of a file -/

def fileSource (Z : Zstd) (file : PgnFile) (chunkSize : ℕ) : Source :=
  let decoded := Utf8.feedAll none (rawChunks Z file chunkSize)
  ⟨decoded.1, Utf8.flush decoded.2⟩

theorem games_fileSource (hn : 0 < n) : (fileSource Z file n).games =
    (pieces (Utf8.decode (file.content Z))).flatMap given :=
  Streaming.numbered_injective (Streaming.iterPgnGames_eq hn)

theorem isLineBreak_feed : isLineBreak '\n' = true := by decide

theorem visible_append_feed (t u : Text) : visible (t ++ '\n' :: u) = visible t ++ visible u :=
  visibleLines_append isLineBreak_feed isLineBreak_feed

theorem visible_given (p : Text) : (given p).flatMap visible = visible p := by
  by_cases hblank : blank p
  · rw [Streaming.given_of_blank hblank, visible, visibleLines_of_blank hblank]
    rfl
  · rw [Streaming.given_of_not_blank hblank, List.flatMap_singleton]
    refine visibleLines_strip isLineBreak_feed (fun c hc => ?_) p
    rw [eq_of_beq hc]
    exact isLineBreak_feed

theorem visible_games (t : Text) : ((pieces t).flatMap given).flatMap visible = visible t := by
  induction t using Streaming.pieces.induct with
  | case1 t h => rw [Streaming.pieces_of_none h, List.flatMap_singleton, visible_given]
  | case2 t game rest h ih =>
    have hempty : visible ('\n' :: rest) = visible rest := visible_append_feed [] rest
    rw [Streaming.pieces_of_some h, List.flatMap_cons, List.flatMap_append, visible_given, ih,
      (Streaming.nextGame_eq h).1, visible_append_feed, hempty]

theorem head_pieces (h : t.head? = some '[') : ∀ p ∈ pieces t, p.head? = some '[' := by
  induction t using Streaming.pieces.induct with
  | case1 t hnext =>
    rw [Streaming.pieces_of_none hnext]
    intro p hp
    rwa [List.mem_singleton.mp hp]
  | case2 t game rest hnext ih =>
    obtain ⟨-, hrest, hgame, -⟩ := Streaming.nextGame_eq hnext
    rw [Streaming.pieces_of_some hnext]
    exact List.forall_mem_cons.mpr ⟨hgame.trans h, ih hrest⟩

theorem given_of_head {p : Text} (h : p.head? = some '[') :
    ∃ g : Text, given p = ['[' :: g] := by
  obtain ⟨p, rfl⟩ := List.head?_eq_some_iff.mp h
  obtain ⟨g, hg⟩ : ∃ g, strip (· == '\n') ('[' :: p) = '[' :: g := exists_strip_cons rfl
  exact ⟨g, by rw [Streaming.given_of_not_blank (Streaming.not_blank_of_head h), hg]⟩

theorem length_given_le (p : Text) : (given p).length ≤ 1 := by
  unfold given
  split_ifs <;> simp

theorem late_game (h : (pieces t).flatMap given = text :: text' :: texts) :
    ∃ v : Text, text' = '[' :: v := by
  cases hnext : nextGame t with
  | none =>
    rw [Streaming.pieces_of_none hnext, List.flatMap_singleton] at h
    have hlength := length_given_le t
    rw [h] at hlength
    simp at hlength
  | some r =>
    obtain ⟨-, hrest, -⟩ := Streaming.nextGame_eq hnext
    have hlate : ∀ v ∈ (pieces r.2).flatMap given, ∃ w : Text, v = '[' :: w := by
      intro v hv
      obtain ⟨p, hp, hvp⟩ := List.mem_flatMap.mp hv
      obtain ⟨w, hw⟩ := given_of_head (head_pieces hrest p hp)
      rw [hw] at hvp
      exact ⟨w, List.mem_singleton.mp hvp⟩
    rw [Streaming.pieces_of_some hnext, List.flatMap_cons] at h
    by_cases hblank : blank r.1
    · rw [Streaming.given_of_blank hblank, List.nil_append] at h
      exact hlate text' (h ▸ List.mem_cons_of_mem _ List.mem_cons_self)
    · rw [Streaming.given_of_not_blank hblank, List.singleton_append] at h
      exact hlate text' ((List.cons.inj h).2 ▸ List.mem_cons_self)

theorem games_of_blank (h : blank t) : (pieces t).flatMap given = [] := by
  refine List.flatMap_eq_nil_iff.mpr fun p hp => Streaming.given_of_blank ?_
  refine strip_eq_nil.mpr fun c hc => strip_eq_nil.mp h c ?_
  rw [← Streaming.intercalate_pieces t]
  exact mem_intercalate_of_mem hp hc

/-- The bytes of a file with every LF replaced by CRLF. -/
def crlfBytes (bytes : Bytes) : Bytes := Utf8.substitute 0x0a [0x0d, 0x0a] bytes

theorem decode_crlfBytes (bytes : Bytes) :
    Utf8.decode (crlfBytes bytes) = crlf (Utf8.decode bytes) := by
  have hbytes : ∀ x ∈ [(0x0d : UInt8), 0x0a], x.toNat < 0x80 := by
    intro x hx
    obtain rfl | rfl := List.mem_pair.mp hx <;> decide
  exact Utf8.decode_substitute (by decide) hbytes (List.cons_ne_nil _ _)

theorem blank_crlf : blank (crlf t) ↔ blank t := by
  have hreturn : isSpace '\r' = true := by decide
  rw [blank, blank, strip_eq_nil, strip_eq_nil]
  refine ⟨fun h c hc => h c (mem_crlf_of_mem hc), fun h c hc => ?_⟩
  obtain rfl | hc := mem_crlf hc
  · exact hreturn
  · exact h c hc

theorem pieces_crlf (t : Text) : pieces (crlf t) = [crlf t] := by
  refine Streaming.pieces_of_none (Option.eq_none_iff_forall_ne_some.mpr fun r hr => ?_)
  exact crlf_ne r.1 r.2 (Streaming.nextGame_eq hr).1

theorem games_crlf (h : (pieces t).flatMap given ≠ []) :
    ∃ text, (pieces (crlf t)).flatMap given = [text] ∧
      visible text = ((pieces t).flatMap given).flatMap visible := by
  have hblank : ¬ blank (crlf t) := fun hblank => h (games_of_blank (blank_crlf.mp hblank))
  have hlines := visible_given (crlf t)
  rw [Streaming.given_of_not_blank hblank, List.flatMap_singleton] at hlines
  refine ⟨_, by rw [pieces_crlf, List.flatMap_singleton, Streaming.given_of_not_blank hblank], ?_⟩
  rw [hlines, visible_games]
  exact visibleLines_crlf isLineBreak_feed (by decide) t

/-- No game boundary of a text has anything but blanks before it. -/
def OneGame (t : Text) : Prop := ∀ a b, t = a ++ boundary ++ b → blank a

theorem given_ne_nil (h : t.head? = some '[') : (pieces t).flatMap given ≠ [] := by
  intro hnil
  cases hnext : nextGame t with
  | none =>
    obtain ⟨w, hw⟩ := given_of_head h
    rw [Streaming.pieces_of_none hnext, List.flatMap_singleton, hw] at hnil
    cases hnil
  | some r =>
    obtain ⟨-, -, hgame, -⟩ := Streaming.nextGame_eq hnext
    obtain ⟨w, hw⟩ := given_of_head (hgame.trans h)
    rw [Streaming.pieces_of_some hnext, List.flatMap_cons, hw] at hnil
    cases hnil

theorem two_games (h : t.head? = some '[') {r : Text × Text} (hnext : nextGame t = some r) :
    2 ≤ ((pieces t).flatMap given).length := by
  obtain ⟨-, hrest, hgame, -⟩ := Streaming.nextGame_eq hnext
  obtain ⟨w, hw⟩ := given_of_head (hgame.trans h)
  have hpos := List.length_pos_iff.mpr (given_ne_nil hrest)
  rw [Streaming.pieces_of_some hnext, List.flatMap_cons, hw, List.length_append,
    List.length_singleton]
  omega

theorem blank_append_feed : blank (t ++ ['\n']) ↔ blank t := by
  have hfeed : isSpace '\n' = true := by decide
  simp [blank, strip_eq_nil, hfeed, or_imp, forall_and]

theorem boundary_behind_lead {a b g rest : Text}
    (h : g ++ '\n' :: '\n' :: rest = a ++ (boundary ++ b)) (hg : blank g) (ha : ¬ blank a) :
    ∃ z a', rest = z :: (a' ++ boundary ++ b) := by
  obtain ⟨a', rfl, hb⟩ | ⟨c', rfl, -⟩ := List.append_eq_append_iff.mp h
  · obtain _ | ⟨x, _ | ⟨y, _ | ⟨z, a'⟩⟩⟩ := a'
    · exact absurd (by rwa [List.append_nil]) ha
    · obtain ⟨rfl, -⟩ := List.cons.inj hb
      exact absurd (by rwa [blank_append_feed]) ha
    · obtain ⟨rfl, hrest⟩ := List.cons.inj hb
      obtain ⟨rfl, -⟩ := List.cons.inj hrest
      have hlead : blank (g ++ ['\n', '\n']) := by
        rw [← List.singleton_append, ← List.append_assoc, blank_append_feed, blank_append_feed]
        exact hg
      exact absurd hlead ha
    · have hrest := (List.cons.inj (List.cons.inj hb).2).2
      exact ⟨z, a', by rw [hrest, List.append_assoc]; rfl⟩
  · refine absurd (strip_eq_nil.mpr fun x hx => strip_eq_nil.mp hg x ?_) ha
    exact List.mem_append_left _ hx

theorem two_games_of_boundary {a b : Text} (ht : t = a ++ boundary ++ b) (ha : ¬ blank a) :
    2 ≤ ((pieces t).flatMap given).length := by
  obtain ⟨c, a, rfl⟩ := List.exists_cons_of_ne_nil fun hnil : a = [] => ha (hnil ▸ rfl)
  have hinfix : boundary <:+: a ++ boundary ++ b := List.infix_append a boundary b
  obtain ⟨r, hnext⟩ : ∃ r, nextGame t = some r := by
    refine Option.ne_none_iff_exists'.mp ?_
    rw [ht]
    exact Streaming.nextGame_ne_none (a := []) hinfix
  obtain ⟨heq, hrest, -⟩ := Streaming.nextGame_eq hnext
  have hpos := List.length_pos_iff.mpr (given_ne_nil hrest)
  rw [Streaming.pieces_of_some hnext, List.flatMap_cons, List.length_append]
  by_cases hblank : blank r.1
  · have hsplit : r.1 ++ '\n' :: '\n' :: r.2 = (c :: a) ++ (boundary ++ b) := by
      rw [← heq, ht, List.append_assoc]
    obtain ⟨z, a', hlate⟩ := boundary_behind_lead hsplit hblank ha
    obtain ⟨r', hr'⟩ := Option.ne_none_iff_exists'.mp (hlate ▸ Streaming.nextGame_ne_none
      (a := []) (c := z) (List.infix_append a' boundary b))
    have htwo := two_games hrest hr'
    omega
  · rw [Streaming.given_of_not_blank hblank, List.length_singleton]
    omega

theorem oneGame_iff (h : (pieces t).flatMap given ≠ []) :
    ((pieces t).flatMap given).length = 1 ↔ OneGame t := by
  constructor
  · intro hone a b ht
    by_contra ha
    have htwo := two_games_of_boundary ht ha
    omega
  · intro hone
    have hpos := List.length_pos_iff.mpr h
    cases hnext : nextGame t with
    | none =>
      have hle := length_given_le t
      rw [Streaming.pieces_of_none hnext, List.flatMap_singleton] at hpos ⊢
      omega
    | some r =>
      obtain ⟨heq, hrest, -⟩ := Streaming.nextGame_eq hnext
      obtain ⟨rest, hr⟩ := List.head?_eq_some_iff.mp hrest
      have hblank : blank r.1 := hone r.1 rest (by rw [heq, hr]; simp [boundary])
      have hlast : nextGame r.2 = none := by
        refine Option.eq_none_iff_forall_ne_some.mpr fun r' hr' => ?_
        obtain ⟨heq', hrest', hgame', -⟩ := Streaming.nextGame_eq hr'
        obtain ⟨rest', hr2⟩ := List.head?_eq_some_iff.mp hrest'
        have hlate : blank (r.1 ++ '\n' :: '\n' :: r'.1) := hone _ rest' (by
          conv_lhs => rw [heq, heq', hr2]
          simp [boundary])
        have hbracket : '[' ∈ r'.1 := List.mem_of_mem_head? (hgame'.trans hrest)
        exact absurd (strip_eq_nil.mp hlate '[' (by simp [hbracket])) (by decide)
      obtain ⟨w, hw⟩ := given_of_head hrest
      rw [Streaming.pieces_of_some hnext, Streaming.pieces_of_none hlast, List.flatMap_cons,
        Streaming.given_of_blank hblank, List.flatMap_singleton, hw]
      rfl

/-! ### Runs -/

def Run.Accepted (r : Run) : Prop := ∃ summary, r.result = .ok summary

theorem importGames_congr (h : texts.map validateGame = texts'.map validateGame) :
    importGames sha s d index texts = importGames sha s d index texts' := by
  induction texts generalizing texts' d index with
  | nil =>
    obtain rfl := List.map_eq_nil_iff.mp h.symm
    rfl
  | cons text texts ih =>
    obtain ⟨text', texts', rfl, htext, htexts⟩ := List.map_eq_cons_iff.mp h.symm
    rw [importGames, importGames, htext]
    simp only [ih htexts.symm]

theorem runImportPgn_congr (h : f.games.map validateGame = f'.games.map validateGame) :
    runImportPgn sha call f d = runImportPgn sha call f' d := by
  simp only [runImportPgn, importGames_congr h]

theorem of_importGames (h : (importGames sha s d index texts).failure = none) :
    (∀ text ∈ texts, ∃ g, validateGame text = .ok g) ∧
      (texts = [] → (importGames sha s d index texts).outcomes = []) := by
  refine ⟨?_, fun hnil => by rw [hnil]; rfl⟩
  induction texts generalizing d index with
  | nil => exact fun _ htext => absurd htext List.not_mem_nil
  | cons text texts ih =>
    cases hg : validateGame text with
    | error e => simp [importGames, hg] at h
    | ok g =>
      cases hstep : importGame sha s d index g with
      | error e => simp [importGames, hg, hstep] at h
      | ok step =>
        rw [importGames_cons hg hstep] at h
        exact List.forall_mem_cons.mpr ⟨⟨g, hg⟩, ih h⟩

/-- The games of an accepted file. -/
theorem Run.Accepted.games (h : (runImportPgn sha call f d).Accepted) :
    f.games ≠ [] ∧ ∀ text ∈ f.games, ∃ g, validateGame text = .ok g := by
  obtain ⟨summary, h⟩ := h
  unfold runImportPgn at h
  split at h
  · cases h
  · split at h
    · cases h
    · next cleaning index hrecover =>
      dsimp only at h
      unfold finish at h
      split at h
      · cases h
      · next hfailure =>
        obtain ⟨hgames, hempty⟩ := of_importGames hfailure
        split_ifs at h with hnone
        exact ⟨fun hnil => hnone (hempty hnil), hgames⟩

theorem parseTags_late {first second : Text} {rest : List Text} {g : ParsedGame}
    (hg : validateGame first = .ok g) (hsecond : second.head? = some '[')
    (hlines : visible text = visible first ++ (visible second ++ rest)) :
    ∃ e, parseTags text = .error e := by
  obtain ⟨v, rfl⟩ := List.head?_eq_some_iff.mp hsecond
  obtain ⟨l, ls, hl, hhead⟩ : ∃ l ls, visible ('[' :: v) = l :: ls ∧
      (strip isSpace l).head? = some '[' := visibleLines_head (by decide) (by decide)
  have hparse := (parts_of_validateGame hg).1
  rw [parseTags_eq] at hparse
  obtain ⟨e, he⟩ := parseLines_late hparse (fun _ => rfl) hhead (ls ++ rest)
  exact ⟨e, by rw [parseTags_eq, hlines, hl, List.cons_append, he]⟩

theorem run_crlf (hn : 0 < n) (hcrlf : file'.content Z = crlfBytes (file.content Z))
    (h : (runImportPgn sha call (fileSource Z file n) d).Accepted) :
    (OneGame (Utf8.decode (file.content Z)) →
      runImportPgn sha call (fileSource Z file' n) d = runImportPgn sha call (fileSource Z file n) d) ∧
    ((runImportPgn sha call (fileSource Z file' n) d).Accepted →
      OneGame (Utf8.decode (file.content Z))) := by
  obtain ⟨hne, hvalid⟩ := h.games
  have hgames : (fileSource Z file' n).games =
      (pieces (crlf (Utf8.decode (file.content Z)))).flatMap given := by
    rw [games_fileSource hn, hcrlf, decode_crlfBytes]
  rw [games_fileSource hn] at hne hvalid
  obtain ⟨text, htext, hlines⟩ := games_crlf hne
  rw [← oneGame_iff hne]
  cases hcase : (pieces (Utf8.decode (file.content Z))).flatMap given with
  | nil => exact absurd hcase hne
  | cons first games =>
    rw [hcase] at hlines hvalid
    cases games with
    | nil =>
      refine ⟨fun _ => runImportPgn_congr ?_, fun _ => rfl⟩
      rw [List.flatMap_singleton] at hlines
      rw [hgames, htext, games_fileSource hn, hcase, List.map_singleton, List.map_singleton,
        validateGame_congr hlines]
    | cons second games =>
      refine ⟨fun hone => absurd hone (by simp), fun haccepted => ?_⟩
      obtain ⟨g, hg⟩ := hvalid first List.mem_cons_self
      obtain ⟨v, rfl⟩ := late_game hcase
      obtain ⟨e, hrefused⟩ := parseTags_late hg rfl (hlines.trans List.flatMap_cons)
      obtain ⟨-, hvalid'⟩ := haccepted.games
      rw [hgames, htext] at hvalid'
      obtain ⟨g', hg'⟩ := hvalid' text (List.mem_singleton_self text)
      rw [validateGame, hrefused] at hg'
      cases hg'

/-- The import of a file with CRLF line ends is accepted too, and does the same to the store. -/
def SameImport (sha : Sha256) (call : Call) (f f' : Source) (d : Disk) : Prop :=
  (runImportPgn sha call f' d).Accepted ∧
    (runImportPgn sha call f' d).ops = (runImportPgn sha call f d).ops

theorem sameImport_iff (hn : 0 < n) (hcrlf : file'.content Z = crlfBytes (file.content Z))
    (h : (runImportPgn sha call (fileSource Z file n) d).Accepted) :
    SameImport sha call (fileSource Z file n) (fileSource Z file' n) d ↔
      OneGame (Utf8.decode (file.content Z)) := by
  obtain ⟨hsame, hone⟩ := run_crlf hn hcrlf h
  refine ⟨fun himport => hone himport.1, fun h1 => ?_⟩
  rw [SameImport, hsame h1]
  exact ⟨h, rfl⟩

/-- With CRLF line ends an accepted file is accepted exactly where it holds one game, and
then its import is the same. -/
theorem import_crlf_iff (sha : Sha256) (call : Call) (Z : Zstd) (file file' : PgnFile) (n : ℕ)
    (d : Disk) (hn : 0 < n) (hcrlf : file'.content Z = crlfBytes (file.content Z))
    (h : (runImportPgn sha call (fileSource Z file n) d).Accepted) :
    (SameImport sha call (fileSource Z file n) (fileSource Z file' n) d ↔
      OneGame (Utf8.decode (file.content Z))) ∧
    ((runImportPgn sha call (fileSource Z file' n) d).Accepted ↔
      OneGame (Utf8.decode (file.content Z))) := by
  have hiff := sameImport_iff hn hcrlf h
  exact ⟨hiff, (run_crlf hn hcrlf h).2, fun hone => (hiff.mpr hone).1⟩

/-! ### A file of two games -/

theorem accepted_of_games {source : Text × RightsClass} (hcall : call.Valid)
    (hsource : authorize call.sourceId = .ok source) (h : Holds sha d index)
    (hnul : ∀ text ∈ f.games, nul ∉ text) (hne : f.games ≠ []) (hvalid : refusal f.games = none) :
    (runImportPgn sha call f d).Accepted := by
  have hclean : ∀ g ∈ committed call f, Clean g := clean_of_committed hnul
  have hcommitted : committed call f = accepted f.games := by simp only [committed, hsource]
  have hopening :
      Holds sha (d.execAll (cleanOps d index ++ [.emit "import.started".toList])) index := by
    rw [Disk.execAll, Trace.run_snoc]
    exact (throughout_cleanOps h).last.emit
  have hloop := importGames_spec (hcall.session hsource) (hcommitted ▸ hclean) hopening
  have houtcomes := hloop.outcomes
  rw [length_accepted hvalid] at houtcomes
  rw [runImportPgn_of_holds hsource h]
  unfold finish
  rw [hloop.failure, hvalid]
  dsimp only
  rw [if_neg fun hnil => hne (List.length_eq_zero_iff.mp (by rw [← houtcomes, hnil]; rfl))]
  exact ⟨_, rfl⟩

def openedBy (name : Text) : Text :=
  "[White \"".toList ++ name ++ "\"]\n\n1. e4 *".toList

def twoGames : Text := openedBy "a".toList ++ '\n' :: '\n' :: openedBy "b".toList

def twoGamesFile : PgnFile := ⟨false, Utf8.encode twoGames⟩

/-- The same file with CRLF line ends. -/
def twoGamesCrlf : PgnFile := ⟨false, crlfBytes (Utf8.encode twoGames)⟩

theorem games_twoGames (Z : Zstd) : (fileSource Z twoGamesFile 100).games =
    [openedBy "a".toList, openedBy "b".toList] := by
  have hfirst : nextGame twoGames = some (openedBy "a".toList, openedBy "b".toList) := rfl
  have hsecond : nextGame (openedBy "b".toList) = none := rfl
  have htext : Utf8.decode (twoGamesFile.content Z) = twoGames := Utf8.decode_encode twoGames
  rw [games_fileSource (by decide), htext, Streaming.pieces_of_some hfirst,
    Streaming.pieces_of_none hsecond]
  rfl

theorem validateGame_openedBy (name : Text)
    (h : parseTags (openedBy name) = .ok ([("White".toList, name)], "1. e4 *".toList)) :
    ∃ g, validateGame (openedBy name) = .ok g := by
  rw [validateGame, h]
  have hlookup : ∀ key : Text, key ≠ "White".toList →
      [("White".toList, name)].lookup key = none := by
    intro key hkey
    rw [List.lookup_cons, beq_false_of_ne hkey]
    rfl
  exact ⟨_, validateParts_kingPawn (by decide +kernel) (hlookup _ (by decide))
    (hlookup _ (by decide)) (by simp)⟩

theorem twoGames_accepted (Z : Zstd) : (runImportPgn (Hex.Hash.lengths 64) sampleCall
    (fileSource Z twoGamesFile 100) Disk.fresh).Accepted := by
  obtain ⟨a, ha⟩ := validateGame_openedBy "a".toList (by rfl)
  obtain ⟨b, hb⟩ := validateGame_openedBy "b".toList (by rfl)
  refine accepted_of_games sampleCall_valid rfl holds_fresh ?_ ?_ ?_
  · rw [games_twoGames]
    decide
  · rw [games_twoGames]
    exact List.cons_ne_nil _ _
  · rw [games_twoGames, refusal, ha]
    simp only
    rw [refusal, hb]
    rfl

theorem import_crlf_iff_twoGames :
    (SameImport (Hex.Hash.lengths 64) sampleCall (fileSource noZstd twoGamesFile 100)
        (fileSource noZstd twoGamesCrlf 100) Disk.fresh ↔
      OneGame (Utf8.decode (twoGamesFile.content noZstd))) ∧
    ((runImportPgn (Hex.Hash.lengths 64) sampleCall (fileSource noZstd twoGamesCrlf 100)
        Disk.fresh).Accepted ↔ OneGame (Utf8.decode (twoGamesFile.content noZstd))) :=
  import_crlf_iff _ _ _ _ _ _ _ (by decide) rfl (twoGames_accepted noZstd)

/-- Two games are imported with LF line ends and refused with CRLF line ends. -/
theorem crlf_refused : ¬ ∀ (sha : Sha256) (call : Call) (Z : Zstd) (file file' : PgnFile) (n : ℕ)
    (d : Disk), 0 < n → file'.content Z = crlfBytes (file.content Z) →
    (runImportPgn sha call (fileSource Z file n) d).Accepted →
    SameImport sha call (fileSource Z file n) (fileSource Z file' n) d := by
  intro h
  have hsame := h (Hex.Hash.lengths 64) sampleCall noZstd twoGamesFile twoGamesCrlf 100
    Disk.fresh (by decide) rfl (twoGames_accepted _)
  have hone := (sameImport_iff (by decide) rfl (twoGames_accepted _)).mp hsame
  have htext : Utf8.decode (twoGamesFile.content noZstd) = twoGames :=
    Utf8.decode_encode twoGames
  rw [htext] at hone
  have hblank := hone (openedBy "a".toList) ("White \"b\"]\n\n1. e4 *".toList) rfl
  exact absurd hblank (by decide)

end ImportPgn
end OpenChess
