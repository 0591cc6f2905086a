import OpenChess.Ingest.Validate
import OpenChess.Lib.Assoc

/-!
# The game adapter

Model of `adapt_game_pgn` of `ingest/schemas.py`. It reads a tag from the characters at the
ends of its line, where `_parse_tags` matches the line and undoes the escapes. The two agree
on the lines that begin with their bracket and hold no backslash.
-/

namespace OpenChess
namespace Schemas

open LineText
open Pgn

/-- `KNOWN_LICENSES`. -/
def knownLicenses : List Text := ["CC0".toList]

/-- `_GAME_ID_FIELDS`. -/
def gameIdFields : List Text :=
  ["Site".toList, "White".toList, "Black".toList, "UTCDate".toList, "UTCTime".toList]

structure GameRow where
  identifiers : Tags
  headers : Tags
  movetext : Text
  siteUrl : Option Text
  white : Option Text
  black : Option Text
  result : Option Text
  utcDate : Option Text
  timeControl : Option Text
  termination : Option Text
  sourceFile : Text
  license : Text
  deriving DecidableEq, Repr

/-- The `ValueError` refusals of the adapter. -/
inductive AdaptError
  | notAGame
  | unknownLicense (value : Text)
  deriving DecidableEq, Repr

/-- `t.partition(" ")`: what stands before the first blank, and what stands behind it. -/
def partition (t : Text) : Text × Text := (t.takeWhile (· != ' '), (t.dropWhile (· != ' ')).drop 1)

/-- `rest.strip().rstrip("]").strip('"')`. -/
def headerValue (rest : Text) : Text :=
  strip (· == quoteMark) ((strip isSpace rest).rdropWhile (· == ']'))

def readLines (headers : Tags) (movetextLines : List Text) : List Text → Tags × List Text
  | [] => (headers, movetextLines)
  | line :: lines =>
    if line.head? = some '[' then
      let e := partition (line.drop 1)
      readLines (Assoc.assign headers e.1 (headerValue e.2)) movetextLines lines
    else if strip isSpace line ≠ [] then
      readLines headers (movetextLines ++ [strip isSpace line]) lines
    else readLines headers movetextLines lines

def adaptGamePgn (gameText sourceFile licenseValue : Text) : Except AdaptError GameRow :=
  let (headers, movetextLines) := readLines [] [] (splitLines isLineBreak gameText)
  if movetextLines = [] ∨ headers = [] then .error .notAGame
  else if licenseValue ∉ knownLicenses then .error (.unknownLicense licenseValue)
  else .ok
    { identifiers := headers.filter fun e => decide (e.1 ∈ gameIdFields)
      headers
      movetext := [' '].intercalate movetextLines
      siteUrl := headers.lookup "Site".toList
      white := headers.lookup "White".toList
      black := headers.lookup "Black".toList
      result := headers.lookup "Result".toList
      utcDate := headers.lookup "UTCDate".toList
      timeControl := headers.lookup "TimeControl".toList
      termination := headers.lookup "Termination".toList
      sourceFile
      license := licenseValue }

variable {text movetext sourceFile licenseValue line s rest raw : Text} {tags tags' headers : Tags}
  {lines moveLines movetextLines : List Text} {inTags : Bool} {name value : Text} {row : GameRow}
  {e : Text × Text}

/-! ### One line -/

def headerOf (line : Text) : Option (Text × Text) :=
  if line.head? = some '[' then
    some ((partition (line.drop 1)).1, headerValue (partition (line.drop 1)).2)
  else none

def tagOf (line : Text) : Option (Text × Text) :=
  if (strip isSpace line).head? = some '[' then
    (readTag (strip isSpace line)).map fun e => (e.1, unescape backslash quoteMark e.2)
  else none

theorem readTag_eq (h : readTag s = some (name, raw)) :
    ∃ v, raw = escape backslash quoteMark v ∧ s = tagLine (name, v) ∧
      (∀ c ∈ name, isWord c = true) ∧ name ≠ [] := by
  obtain ⟨hnamed, hword, -, -⟩ := of_readTag h
  unfold readTag at h
  split at h
  · next t =>
    split at h
    · next c rest hdrop =>
      split_ifs at h with hcond
      split at h
      · next value hread =>
        obtain ⟨rfl, rfl⟩ : t.takeWhile isWord = name ∧ value = raw := by simpa using h
        obtain ⟨v, rfl, hrest⟩ := exists_escape_of_readQuoted backslash_ne_quoteMark hread
        refine ⟨v, rfl, ?_, hword, hnamed⟩
        have hsplit := List.takeWhile_append_dropWhile (p := isWord) (l := t)
        rw [hdrop, hrest, hcond.2] at hsplit
        exact (congrArg ('[' :: ·) hsplit).symm
      · cases h
    · cases h
  · cases h

theorem tagOf_eq_some (h : tagOf line = some (name, value)) :
    strip isSpace line = tagLine (name, value) ∧ ∀ c ∈ name, isWord c = true := by
  unfold tagOf at h
  split_ifs at h
  obtain ⟨⟨name', raw⟩, hread, heq⟩ := Option.map_eq_some_iff.mp h
  obtain ⟨rfl, rfl⟩ : name' = name ∧ unescape backslash quoteMark raw = value := by simpa using heq
  obtain ⟨v, rfl, hline, hword, -⟩ := readTag_eq hread
  rw [unescape_escape backslash_ne_quoteMark]
  exact ⟨hline, hword⟩

/-- What is quoted in a tag line, up to its bracket. -/
def quotedTail (value : Text) : Text :=
  quoteMark :: (escape backslash quoteMark value ++ [quoteMark, ']'])

/-- A tag line that begins with its bracket has blanks behind its last bracket, and nothing
else. -/
theorem exists_rest (hstrip : strip isSpace line = tagLine (name, value))
    (hhead : line.head? = some '[') :
    ∃ rest, line = '[' :: (name ++ ' ' :: rest) ∧ strip isSpace rest = quotedTail value := by
  obtain ⟨t, rfl⟩ := List.head?_eq_some_iff.mp hhead
  have hopen : isSpace '[' = false := by decide
  have hquote : isSpace quoteMark = false := by decide
  have hdrop : ('[' :: t).dropWhile isSpace = '[' :: t :=
    List.dropWhile_cons_of_neg (by simp [hopen])
  rw [strip, hdrop] at hstrip
  obtain ⟨blanks, hblanks⟩ := List.rdropWhile_prefix isSpace ('[' :: t)
  have hline : '[' :: t = ('[' :: (name ++ [' '])) ++ (quotedTail value ++ blanks) := by
    rw [← hblanks, hstrip]
    simp [tagLine, quotedTail]
  have hvisible : (quotedTail value ++ blanks).rdropWhile isSpace ≠ [] := by
    intro hnil
    have hspace := List.rdropWhile_eq_nil_iff.mp hnil quoteMark List.mem_cons_self
    rw [hquote] at hspace
    cases hspace
  have htag : tagLine (name, value) = ('[' :: (name ++ [' '])) ++ quotedTail value := by
    simp [tagLine, quotedTail]
  have hrest : (quotedTail value ++ blanks).rdropWhile isSpace = quotedTail value := by
    rw [hline, rdropWhile_append hvisible, htag] at hstrip
    exact List.append_cancel_left hstrip
  refine ⟨quotedTail value ++ blanks, by rw [hline]; simp, ?_⟩
  have hfirst : (quotedTail value ++ blanks).dropWhile isSpace = quotedTail value ++ blanks :=
    List.dropWhile_cons_of_neg (by simp [hquote])
  rw [strip, hfirst, hrest]

theorem partition_tag (hword : ∀ c ∈ name, isWord c = true) :
    partition (name ++ ' ' :: rest) = (name, rest) := by
  have hname : ∀ c ∈ name, (c != ' ') = true := by
    intro c hc
    rw [bne_iff_ne]
    rintro rfl
    exact absurd (hword _ hc) (by decide)
  rw [partition, List.takeWhile_append_of_pos hname, List.dropWhile_append_of_pos hname,
    List.takeWhile_cons_of_neg (by decide), List.dropWhile_cons_of_neg (by decide), List.append_nil]
  rfl

theorem headerValue_eq (h : strip isSpace rest = quotedTail value) : headerValue rest =
    strip (· == quoteMark) (quoteMark :: (escape backslash quoteMark value ++ [quoteMark])) := by
  have htail : quotedTail value =
      (quoteMark :: (escape backslash quoteMark value ++ [quoteMark])) ++ [']'] := by
    simp [quotedTail]
  have hlast : quoteMark :: (escape backslash quoteMark value ++ [quoteMark]) =
      (quoteMark :: escape backslash quoteMark value) ++ [quoteMark] := rfl
  rw [headerValue, h, htail, List.rdropWhile_concat_pos _ _ _ (by decide), hlast,
    List.rdropWhile_concat_neg _ _ _ (by decide)]

theorem strip_quotes_iff :
    strip (· == quoteMark) (quoteMark :: (escape backslash quoteMark value ++ [quoteMark])) =
      value ↔ backslash ∉ escape backslash quoteMark value := by
  have hcount := count_escape (v := value) backslash_ne_quoteMark
  constructor
  · intro h
    have hfilter := filter_strip (· == quoteMark)
      (quoteMark :: (escape backslash quoteMark value ++ [quoteMark]))
    rw [h] at hfilter
    have hsame := congrArg (List.count backslash) hfilter
    rw [List.count_filter (by decide), List.count_filter (by decide),
      List.count_cons_of_ne (Ne.symm backslash_ne_quoteMark), List.count_append, hcount,
      List.count_cons_of_ne (Ne.symm backslash_ne_quoteMark), List.count_nil] at hsame
    rw [← List.count_eq_zero, hcount]
    omega
  · intro h
    rw [← List.count_eq_zero, hcount] at h
    have hs : backslash ∉ value := List.count_eq_zero.mp (by omega)
    have hq : quoteMark ∉ value := List.count_eq_zero.mp (by omega)
    rw [escape_eq_self backslash_ne_quoteMark hs hq]
    have hplain : ∀ c ∈ value, (c == quoteMark) = false := by
      intro c hc
      exact beq_eq_false_iff_ne.mpr fun heq => hq (heq ▸ hc)
    exact strip_between (by decide) (by decide) hplain

theorem head_strip (h : line.head? = some '[') : (strip isSpace line).head? = some '[' := by
  obtain ⟨t, rfl⟩ := List.head?_eq_some_iff.mp h
  obtain ⟨l, hl⟩ : ∃ l, strip isSpace ('[' :: t) = '[' :: l := exists_strip_cons (by decide)
  rw [hl]
  rfl

theorem backslash_notMem_iff (hstrip : strip isSpace line = tagLine (name, value))
    (hword : ∀ c ∈ name, isWord c = true) :
    backslash ∉ line ↔ backslash ∉ escape backslash quoteMark value := by
  have hname : backslash ∉ name := fun hmem => absurd (hword _ hmem) (by decide)
  have hvisible : isSpace backslash = false := by decide
  rw [← mem_strip_iff hvisible, hstrip, tagLine]
  have hothers : backslash ≠ '[' ∧ backslash ≠ ' ' ∧ backslash ≠ ']' := by decide
  simp [hname, hothers, backslash_ne_quoteMark]

/-- The adapter reads the tag of a line exactly where the line begins with its bracket and
holds no backslash. -/
theorem headerOf_iff (h : tagOf line = some (name, value)) :
    headerOf line = some (name, value) ↔ line.head? = some '[' ∧ backslash ∉ line := by
  obtain ⟨hstrip, hword⟩ := tagOf_eq_some h
  rw [backslash_notMem_iff hstrip hword]
  by_cases hhead : line.head? = some '['
  · obtain ⟨rest, rfl, hrest⟩ := exists_rest hstrip hhead
    have hpartition : partition (('[' :: (name ++ ' ' :: rest)).drop 1) = (name, rest) :=
      partition_tag hword
    rw [headerOf, if_pos hhead, hpartition, headerValue_eq hrest, ← strip_quotes_iff]
    simp [hhead]
  · rw [headerOf, if_neg hhead]
    simp [hhead]

theorem fst_headerOf (h : tagOf line = some (name, value)) (he : headerOf line = some e) :
    e.1 = name := by
  obtain ⟨hstrip, hword⟩ := tagOf_eq_some h
  unfold headerOf at he
  split_ifs at he with hhead
  obtain ⟨rest, rfl, -⟩ := exists_rest hstrip hhead
  have hpartition : partition (('[' :: (name ++ ' ' :: rest)).drop 1) = (name, rest) :=
    partition_tag hword
  rw [hpartition] at he
  obtain rfl := Option.some.inj he
  rfl

/-! ### All lines -/

def moveOf (line : Text) : Option Text :=
  if line.head? = some '[' then none
  else if strip isSpace line ≠ [] then some (strip isSpace line) else none

theorem readLines_eq : readLines headers movetextLines lines =
    (Assoc.assignAll headers (lines.filterMap headerOf),
      movetextLines ++ lines.filterMap moveOf) := by
  induction lines generalizing headers movetextLines with
  | nil => simp [readLines, Assoc.assignAll]
  | cons line lines ih =>
    rw [readLines, List.filterMap_cons, List.filterMap_cons, headerOf, moveOf]
    split_ifs
    · exact ih
    · rw [ih]
      simp
    · exact ih

/-- The tags of an accepted game are those of its lines, and every line with a bracket has
one. -/
theorem tags_of_parseLines
    (h : parseLines tags moveLines inTags lines = .ok (tags', movetext)) :
    tags' = tags ++ lines.filterMap tagOf ∧
      ∀ line ∈ lines, (strip isSpace line).head? = some '[' → ∃ e, tagOf line = some e := by
  induction lines generalizing tags moveLines inTags with
  | nil =>
    rw [parseLines] at h
    split_ifs at h
    obtain ⟨rfl, -⟩ : tags = tags' ∧ ['\n'].intercalate moveLines = movetext := by simpa using h
    simp
  | cons l lines ih =>
    rw [parseLines] at h
    rw [List.filterMap_cons, List.forall_mem_cons, tagOf]
    split_ifs at h with hblank hopen hlate
    · have hhead : (strip isSpace l).head? ≠ some '[' := by simp [hblank]
      rw [if_neg hhead]
      exact ⟨(ih h).1, fun hl => absurd hl hhead, (ih h).2⟩
    · cases hread : readTag (strip isSpace l) with
      | none => simp [hread] at h
      | some e =>
        simp only [hread] at h
        split_ifs at h
        obtain ⟨htags, hall⟩ := ih h
        rw [if_pos hopen, htags, Option.map_some]
        exact ⟨List.append_assoc _ _ _, fun _ => ⟨_, rfl⟩, hall⟩
    · rw [if_neg hopen]
      exact ⟨(ih h).1, fun hl => absurd hl hopen, (ih h).2⟩

theorem exists_moveLine (h : parseLines tags [] true lines = .ok (tags', movetext)) :
    ∃ l ∈ lines, strip isSpace l ≠ [] ∧ (strip isSpace l).head? ≠ some '[' := by
  induction lines generalizing tags with
  | nil =>
    rw [parseLines, if_pos ⟨rfl, rfl⟩] at h
    cases h
  | cons l lines ih =>
    rw [parseLines] at h
    split_ifs at h with hblank hopen
    · obtain ⟨l', hl', hmove⟩ := ih h
      exact ⟨l', List.mem_cons_of_mem _ hl', hmove⟩
    · cases hread : readTag (strip isSpace l) with
      | none => simp [hread] at h
      | some e =>
        simp only [hread] at h
        split_ifs at h
        obtain ⟨l', hl', hmove⟩ := ih h
        exact ⟨l', List.mem_cons_of_mem _ hl', hmove⟩
    · exact ⟨l, List.mem_cons_self, hblank, hopen⟩

/-! ### Agreement -/

/-- Every tag line begins with its bracket, and none holds a backslash. -/
def PlainTags (text : Text) : Prop :=
  ∀ line ∈ splitLines isLineBreak text, (strip isSpace line).head? = some '[' →
    line.head? = some '[' ∧ backslash ∉ line

/-- The adapter takes the text, and its headers are the same dictionary as these tags. -/
def SameHeaders (text sourceFile licenseValue : Text) (tags : Tags) : Prop :=
  ∃ row, adaptGamePgn text sourceFile licenseValue = .ok row ∧
    ∀ name, row.headers.lookup name = tags.lookup name

theorem headers_of_adapt (h : adaptGamePgn text sourceFile licenseValue = .ok row) :
    row.headers = Assoc.assignAll [] ((splitLines isLineBreak text).filterMap headerOf) := by
  rw [adaptGamePgn, readLines_eq] at h
  dsimp only at h
  split_ifs at h
  obtain rfl := Except.ok.inj h
  rfl

theorem adapt_of_header (hlicense : licenseValue ∈ knownLicenses)
    (hparse : parseTags text = .ok (tags, movetext)) (sourceFile : Text)
    (hheaders : Assoc.assignAll [] ((splitLines isLineBreak text).filterMap headerOf) ≠ []) :
    ∃ row, adaptGamePgn text sourceFile licenseValue = .ok row := by
  obtain ⟨l, hl, hvisible, hmove⟩ := exists_moveLine hparse
  have hmoves : (splitLines isLineBreak text).filterMap moveOf ≠ [] := by
    refine List.ne_nil_of_mem (a := strip isSpace l) (List.mem_filterMap.mpr ⟨l, hl, ?_⟩)
    rw [moveOf, if_neg fun hhead => hmove (head_strip hhead), if_pos hvisible]
  rw [adaptGamePgn, readLines_eq]
  dsimp only
  rw [List.nil_append, if_neg (not_or.mpr ⟨hmoves, hheaders⟩), if_neg (not_not.mpr hlicense)]
  exact ⟨_, rfl⟩

theorem headers_eq_tags (hparse : parseTags text = .ok (tags, movetext)) (hplain : PlainTags text) :
    Assoc.assignAll [] ((splitLines isLineBreak text).filterMap headerOf) = tags := by
  obtain ⟨htags, hall⟩ := tags_of_parseLines hparse
  rw [List.nil_append] at htags
  have hsame : (splitLines isLineBreak text).filterMap headerOf = tags := by
    rw [htags]
    refine List.filterMap_congr fun line hline => ?_
    by_cases hopen : (strip isSpace line).head? = some '['
    · obtain ⟨⟨name, value⟩, he⟩ := hall line hline hopen
      rw [he]
      exact (headerOf_iff he).mpr (hplain line hline hopen)
    · rw [headerOf, tagOf, if_neg hopen, if_neg fun hhead => hopen (head_strip hhead)]
  rw [hsame]
  exact Assoc.assignAll_eq_append (l := []) (reachable_of_parseTags hparse).distinct

theorem line_eq_of_name {line' : Text} {e' : Text × Text}
    (hdistinct : ((lines.filterMap tagOf).map Prod.fst).Nodup) (hline : line ∈ lines)
    (hline' : line' ∈ lines) (he : tagOf line = some e) (he' : tagOf line' = some e')
    (hname : e.1 = e'.1) : line = line' := by
  by_contra hne
  have hpairs := List.pairwise_filterMap.mp (List.pairwise_map.mp hdistinct)
  have hsymm : Std.Symm fun a a' : Text => ∀ b, tagOf a = some b → ∀ b', tagOf a' = some b' →
      b.1 ≠ b'.1 := ⟨fun a a' h b hb b' hb' => Ne.symm (h b' hb' b hb)⟩
  exact hpairs.forall hline hline' hne e he e' he' hname

theorem plain_of_sameHeaders (hparse : parseTags text = .ok (tags, movetext))
    (h : SameHeaders text sourceFile licenseValue tags) : PlainTags text := by
  obtain ⟨row, hrow, hlookup⟩ := h
  obtain ⟨htags, hall⟩ := tags_of_parseLines hparse
  have hdistinct := (reachable_of_parseTags hparse).distinct
  rw [List.nil_append] at htags
  intro line hline hopen
  obtain ⟨⟨name, value⟩, he⟩ := hall line hline hopen
  rw [← headerOf_iff he]
  have hmem : (name, value) ∈ tags := by
    rw [htags]
    exact List.mem_filterMap.mpr ⟨line, hline, he⟩
  have hvalue := (hlookup name).trans (Dict.lookup_eq_some_iff_mem hdistinct |>.mpr hmem)
  rw [headers_of_adapt hrow] at hvalue
  have hassigned := Assoc.mem_of_mem_assignAll (Dict.mem_of_lookup hvalue)
  obtain ⟨line', hline', hheader⟩ :=
    List.mem_filterMap.mp (hassigned.resolve_left List.not_mem_nil)
  have hopen' : (strip isSpace line').head? = some '[' := by
    unfold headerOf at hheader
    split_ifs at hheader with hhead
    exact head_strip hhead
  obtain ⟨⟨name', value'⟩, he'⟩ := hall line' hline' hopen'
  have hname : name = name' := fst_headerOf he' hheader
  rw [htags] at hdistinct
  rw [line_eq_of_name hdistinct hline hline' he he' hname]
  exact hheader

theorem sameHeaders_of_plain (hlicense : licenseValue ∈ knownLicenses)
    (hparse : parseTags text = .ok (tags, movetext)) (htags : tags ≠ []) (sourceFile : Text)
    (hplain : PlainTags text) :
    ∃ row, adaptGamePgn text sourceFile licenseValue = .ok row ∧ row.headers = tags := by
  have hheaders := headers_eq_tags hparse hplain
  obtain ⟨row, hrow⟩ := adapt_of_header hlicense hparse sourceFile (by rwa [hheaders])
  exact ⟨row, hrow, (headers_of_adapt hrow).trans hheaders⟩

/-- From an accepted game with tags the adapter reads the same headers exactly where every
tag line begins with its bracket and none holds a backslash, and then in the same order. -/
theorem headers_agree_iff (text sourceFile licenseValue : Text) (g : ParsedGame)
    (hvalid : validateGame text = .ok g) (htags : g.tags ≠ [])
    (hlicense : licenseValue ∈ knownLicenses) :
    (SameHeaders text sourceFile licenseValue g.tags ↔ PlainTags text) ∧
    (PlainTags text → ∃ row, adaptGamePgn text sourceFile licenseValue = .ok row ∧
      row.headers = g.tags) := by
  have hparse := (parts_of_validateGame hvalid).1
  have hsame := sameHeaders_of_plain hlicense hparse htags sourceFile
  refine ⟨⟨plain_of_sameHeaders hparse, fun hplain => ?_⟩, hsame⟩
  obtain ⟨row, hrow, heq⟩ := hsame hplain
  exact ⟨row, hrow, fun name => by rw [heq]⟩

/-- A game with a blank before its second tag. -/
def indentedGame : Text := "[White \"a\"]\n [Black \"b\"]\n\n1. e4 *".toList

def indentedTags : Tags := [("White".toList, "a".toList), ("Black".toList, "b".toList)]

theorem validateGame_indented :
    validateGame indentedGame = .ok ⟨indentedTags, "1. e4 *".toList, ["e4".toList], "*".toList⟩ := by
  have htags : parseTags indentedGame = .ok (indentedTags, "1. e4 *".toList) := by rfl
  rw [validateGame, htags]
  exact validateParts_kingPawn (by decide +kernel) (by decide) (by decide) (by decide)

theorem headers_agree_iff_indented :
    (SameHeaders indentedGame "a.pgn".toList "CC0".toList indentedTags ↔ PlainTags indentedGame) ∧
    (PlainTags indentedGame → ∃ row,
      adaptGamePgn indentedGame "a.pgn".toList "CC0".toList = .ok row ∧ row.headers = indentedTags) :=
  headers_agree_iff indentedGame _ _ _ validateGame_indented (List.cons_ne_nil _ _)
    List.mem_cons_self

/-- The second tag is read as movetext. -/
theorem indented_tag_lost : ¬ ∀ (text sourceFile licenseValue : Text) (g : ParsedGame),
    validateGame text = .ok g → g.tags ≠ [] → licenseValue ∈ knownLicenses →
    SameHeaders text sourceFile licenseValue g.tags := by
  intro h
  have hsame := h indentedGame "a.pgn".toList "CC0".toList _ validateGame_indented
    (List.cons_ne_nil _ _) List.mem_cons_self
  have hplain := plain_of_sameHeaders (parts_of_validateGame validateGame_indented).1 hsame
  have hline := hplain " [Black \"b\"]".toList (by decide) (by decide)
  exact absurd hline.1 (by decide)

end Schemas
end OpenChess
