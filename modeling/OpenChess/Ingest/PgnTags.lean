import OpenChess.Lib.LineText
import OpenChess.Ingest.Movetext

/-!
# Tag lines

Model of `_parse_tags` of `ingest/pgn.py` and of `_reconstruct_pgn` of
`ingest/import_pgn.py`. A game is cut into lines, the tag lines come first, and the
other lines that are not blank are the movetext.
-/

namespace OpenChess
namespace Pgn

open LineText

def backslash : Char := Char.ofNat 0x5c

def quoteMark : Char := Char.ofNat 0x22

/-- The line breaks of `str.splitlines`. -/
def isLineBreak (c : Char) : Bool :=
  inRanges [(0xa, 0xd), (0x1c, 0x1e), (0x85, 0x85), (0x2028, 0x2029)] c

/-- The class `[A-Za-z0-9_]`. -/
def isWord (c : Char) : Bool :=
  inRanges [(0x30, 0x39), (0x41, 0x5a), (0x5f, 0x5f), (0x61, 0x7a)] c

abbrev Tags := List (Text × Text)

/-- The `MalformedPGN` refusals of the tag reader, with the text each quotes. -/
inductive TagError
  | afterMovetext (s : Text)
  | malformed (s : Text)
  | duplicate (name : Text)
  | noMovetext
  deriving DecidableEq, Repr

/-- The message before the quoted text. -/
def TagError.message : TagError → String
  | .afterMovetext _ => "tag line after movetext: "
  | .malformed _ => "malformed tag line: "
  | .duplicate _ => "duplicate tag: "
  | .noMovetext => "no movetext"

/-- A tag line, matched as a whole: its name and its value as written. -/
def readTag : Text → Option (Text × Text)
  | '[' :: t =>
    match t.dropWhile isWord with
    | ' ' :: c :: rest =>
      if t.takeWhile isWord ≠ [] ∧ c = quoteMark then
        match readQuoted backslash quoteMark rest with
        | some (value, [']']) => some (t.takeWhile isWord, value)
        | _ => none
      else none
    | _ => none
  | _ => none

/-- The loop of `_parse_tags` over the lines. -/
def parseLines (tags : Tags) (moveLines : List Text) (inTags : Bool) :
    List Text → Except TagError (Tags × Text)
  | [] =>
    if inTags ∧ moveLines = [] then .error .noMovetext
    else .ok (tags, ['\n'].intercalate moveLines)
  | line :: lines =>
    let s := strip isSpace line
    if s = [] then parseLines tags moveLines inTags lines
    else if s.head? = some '[' then
      if inTags = false then .error (.afterMovetext s)
      else
        match readTag s with
        | none => .error (.malformed s)
        | some (name, value) =>
          if name ∈ tags.map Prod.fst then .error (.duplicate name)
          else parseLines (tags ++ [(name, unescape backslash quoteMark value)]) moveLines inTags lines
    else parseLines tags (moveLines ++ [line]) false lines

/-- `_parse_tags`: the tags and the movetext of a game. -/
def parseTags (gameText : Text) : Except TagError (Tags × Text) :=
  parseLines [] [] true (splitLines isLineBreak gameText)

/-- A tag line of `_reconstruct_pgn`. -/
def tagLine (e : Text × Text) : Text :=
  '[' :: (e.1 ++ ' ' :: quoteMark :: (escape backslash quoteMark e.2 ++ [quoteMark, ']']))

/-- `_reconstruct_pgn`. -/
def reconstruct (tags : Tags) (movetext : Text) : Text :=
  ['\n'].intercalate (tags.map tagLine) ++ '\n' :: '\n' :: movetext

/-! ### Characters -/

theorem isLineBreak_of_isWord {c : Char} (h : isWord c = true) : isLineBreak c = false := by
  rw [Bool.eq_false_iff]
  intro hbreak
  simp only [isLineBreak, isWord, inRanges, List.any_cons, List.any_nil, Bool.or_eq_true,
    decide_eq_true_eq, Bool.or_false] at h hbreak
  omega

theorem backslash_ne_quoteMark : backslash ≠ quoteMark := by decide

/-! ### What a game can contain -/

/-- A tag some line can spell. -/
structure Tag.Reachable (e : Text × Text) : Prop where
  named : e.1 ≠ []
  word : ∀ c ∈ e.1, isWord c = true
  line : ∀ c ∈ e.2, isLineBreak c = false

structure MoveLine (l : Text) : Prop where
  line : ∀ c ∈ l, isLineBreak c = false
  visible : strip isSpace l ≠ []
  untagged : (strip isSpace l).head? ≠ some '['

/-- Tags and a movetext some game has. -/
structure Reachable (tags : Tags) (movetext : Text) : Prop where
  tagged : ∀ e ∈ tags, Tag.Reachable e
  distinct : (tags.map Prod.fst).Nodup
  lines : ∃ ls : List Text, ls ≠ [] ∧ (∀ l ∈ ls, MoveLine l) ∧ movetext = ['\n'].intercalate ls

variable {tags tags' : Tags} {movetext : Text} {lines moveLines : List Text} {inTags : Bool}
  {s text name value : Text} {e : Text × Text} {c : Char}

/-! ### Tag lines -/

theorem of_readTag (h : readTag s = some (name, value)) :
    name ≠ [] ∧ (∀ c ∈ name, isWord c = true) ∧ (∀ c ∈ name, c ∈ s) ∧ ∀ c ∈ value, c ∈ s := by
  unfold readTag at h
  split at h
  · next t =>
    split at h
    · next c rest hdrop =>
      split_ifs at h with hcond
      split at h
      · next value' hread =>
        obtain ⟨rfl, rfl⟩ : t.takeWhile isWord = name ∧ value' = value := by simpa using h
        refine ⟨hcond.1, fun c hc => List.mem_takeWhile_imp hc, fun c hc => ?_, fun c hc => ?_⟩
        · exact List.mem_cons_of_mem _ ((List.takeWhile_prefix isWord).subset hc)
        · have hrest : c ∈ t.dropWhile isWord := by
            rw [hdrop]
            exact List.mem_cons_of_mem _ (List.mem_cons_of_mem _ (mem_of_readQuoted hread hc))
          exact List.mem_cons_of_mem _ ((List.dropWhile_suffix isWord).subset hrest)
      · cases h
    · cases h
  · cases h

theorem readTag_tagLine (hnamed : e.1 ≠ []) (hword : ∀ c ∈ e.1, isWord c = true) :
    readTag (tagLine e) = some (e.1, escape backslash quoteMark e.2) := by
  have hspace : isWord ' ' = false := by decide
  have htake : (e.1 ++ ' ' :: quoteMark :: (escape backslash quoteMark e.2 ++ [quoteMark, ']'])).takeWhile
      isWord = e.1 := by
    rw [List.takeWhile_append_of_pos hword, List.takeWhile_cons_of_neg (by simp [hspace]),
      List.append_nil]
  have hdrop : (e.1 ++ ' ' :: quoteMark :: (escape backslash quoteMark e.2 ++ [quoteMark, ']'])).dropWhile
      isWord = ' ' :: quoteMark :: (escape backslash quoteMark e.2 ++ [quoteMark, ']']) := by
    rw [List.dropWhile_append_of_pos hword, List.dropWhile_cons_of_neg (by simp [hspace])]
  have hquoted : readQuoted backslash quoteMark (escape backslash quoteMark e.2 ++ [quoteMark, ']']) =
      some (escape backslash quoteMark e.2, [']']) := readQuoted_escape backslash_ne_quoteMark
  simp [readTag, tagLine, htake, hdrop, hquoted, hnamed]

theorem strip_tagLine : strip isSpace (tagLine e) = tagLine e := by
  have hopen : isSpace '[' = false := by decide
  have hclose : isSpace ']' = false := by decide
  have hform : tagLine e =
      '[' :: (e.1 ++ ' ' :: quoteMark :: (escape backslash quoteMark e.2 ++ [quoteMark])) ++ [']'] := by
    simp [tagLine]
  rw [hform]
  exact strip_eq_self hopen hclose

theorem isLineBreak_tagLine (h : Tag.Reachable e) (hc : c ∈ tagLine e) : isLineBreak c = false := by
  rcases List.mem_cons.mp hc with rfl | hc
  · decide
  rcases List.mem_append.mp hc with hc | hc
  · exact isLineBreak_of_isWord (h.word c hc)
  rcases List.mem_cons.mp hc with rfl | hc
  · decide
  rcases List.mem_cons.mp hc with rfl | hc
  · decide
  rcases List.mem_append.mp hc with hc | hc
  · rcases mem_escape hc with rfl | rfl | hc
    · decide
    · decide
    · exact h.line c hc
  · rcases List.mem_pair.mp hc with rfl | rfl <;> decide

/-! ### Reading a written game back -/

theorem splitLines_reconstruct (h : Reachable tags movetext) :
    splitLines isLineBreak (reconstruct tags movetext) =
      (if tags = [] then [[]] else tags.map tagLine) ++ [] :: splitLines isLineBreak movetext := by
  have hfeed : isLineBreak '\n' = true := by decide
  have hblank : splitLines isLineBreak ('\n' :: movetext) = [] :: splitLines isLineBreak movetext :=
    linesFrom_append (l := []) hfeed (by simp)
  unfold reconstruct
  by_cases hnil : tags = []
  · rw [if_pos hnil, hnil, ← hblank]
    exact linesFrom_append (l := []) hfeed (by simp)
  · have hlines : ∀ l ∈ tags.map tagLine, ∀ c ∈ l, isLineBreak c = false := by
      intro l hl c hc
      obtain ⟨e, he, rfl⟩ := List.mem_map.mp hl
      exact isLineBreak_tagLine (h.tagged e he) hc
    rw [if_neg hnil, splitLines_intercalate_append hfeed (by simpa using hnil) hlines, hblank]

theorem parseLines_blank :
    parseLines tags moveLines inTags ([] :: lines) = parseLines tags moveLines inTags lines := by
  have hstrip : strip isSpace [] = [] := rfl
  rw [parseLines, hstrip]
  rfl

theorem parseLines_tagLines (htags : ∀ e ∈ tags', Tag.Reachable e)
    (hdistinct : ((tags ++ tags').map Prod.fst).Nodup) :
    parseLines tags moveLines true (tags'.map tagLine ++ lines) =
      parseLines (tags ++ tags') moveLines true lines := by
  induction tags' generalizing tags with
  | nil => simp
  | cons e tags' ih =>
    obtain ⟨he, htags⟩ := List.forall_mem_cons.mp htags
    have hhead : (tagLine e).head? = some '[' := rfl
    have hne : tagLine e ≠ [] := by simp [tagLine]
    have hnew : e.1 ∉ tags.map Prod.fst := by
      intro hmem
      rw [List.map_append] at hdistinct
      exact List.disjoint_of_nodup_append hdistinct hmem (by simp)
    have hassoc : tags ++ e :: tags' = (tags ++ [e]) ++ tags' := by simp
    rw [List.map_cons, List.cons_append, parseLines, strip_tagLine, if_neg hne, if_pos hhead,
      readTag_tagLine he.named he.word]
    simp only [unescape_escape backslash_ne_quoteMark, if_neg hnew, Bool.true_eq_false, if_false]
    rw [ih htags (hassoc ▸ hdistinct), hassoc]

theorem parseLines_moveLines (hlines : ∀ l ∈ lines, MoveLine l) (hne : moveLines ++ lines ≠ []) :
    parseLines tags moveLines inTags lines =
      .ok (tags, ['\n'].intercalate (moveLines ++ lines)) := by
  induction lines generalizing moveLines inTags with
  | nil =>
    rw [List.append_nil] at hne ⊢
    rw [parseLines, if_neg fun h => hne h.2]
  | cons l lines ih =>
    obtain ⟨hl, hlines⟩ := List.forall_mem_cons.mp hlines
    have hassoc : moveLines ++ l :: lines = (moveLines ++ [l]) ++ lines := by simp
    rw [parseLines]
    simp only [if_neg hl.visible, if_neg hl.untagged]
    rw [ih hlines (by simp), hassoc]

/-- What is written down from the parts of a game is read as those parts. -/
theorem parseTags_reconstruct (h : Reachable tags movetext) :
    parseTags (reconstruct tags movetext) = .ok (tags, movetext) := by
  obtain ⟨ls, hne, hls, hmovetext⟩ := h.lines
  have hfeed : isLineBreak '\n' = true := by decide
  have hlines : splitLines isLineBreak movetext = ls := by
    rw [hmovetext]
    refine splitLines_intercalate hfeed fun l hl => ⟨?_, (hls l hl).line⟩
    rintro rfl
    exact (hls [] hl).visible rfl
  have hend : parseLines tags [] true ls = .ok (tags, movetext) := by
    have hmoves : ([] : List Text) ++ ls ≠ [] := hne
    rw [parseLines_moveLines hls hmoves, hmovetext]
    rfl
  rw [parseTags, splitLines_reconstruct h, hlines]
  by_cases hnil : tags = []
  · rw [if_pos hnil, List.singleton_append, parseLines_blank, parseLines_blank, ← hnil, hend]
  · have hdistinct : ((([] : Tags) ++ tags).map Prod.fst).Nodup := h.distinct
    rw [if_neg hnil, parseLines_tagLines h.tagged hdistinct, parseLines_blank]
    exact hend

/-! ### What was read -/

theorem parseLines_invariant {I : Tags → List Text → Bool → Prop} {tags' : Tags}
    (h : parseLines tags moveLines inTags lines = .ok (tags', movetext))
    (hstart : I tags moveLines inTags)
    (htag : ∀ tags moveLines l name value, l ∈ lines → I tags moveLines true →
      readTag (strip isSpace l) = some (name, value) → name ∉ tags.map Prod.fst →
      I (tags ++ [(name, unescape backslash quoteMark value)]) moveLines true)
    (hmove : ∀ tags moveLines inTags l, l ∈ lines → I tags moveLines inTags →
      strip isSpace l ≠ [] → (strip isSpace l).head? ≠ some '[' →
      I tags (moveLines ++ [l]) false) :
    ∃ moveLines' inTags', I tags' moveLines' inTags' ∧ ¬(inTags' = true ∧ moveLines' = []) ∧
      movetext = ['\n'].intercalate moveLines' := by
  induction lines generalizing tags moveLines inTags with
  | nil =>
    rw [parseLines] at h
    split_ifs at h with hcond
    obtain ⟨rfl, rfl⟩ := Prod.mk.inj (Except.ok.inj h)
    exact ⟨moveLines, inTags, hstart, hcond, rfl⟩
  | cons l lines ih =>
    have htag' := fun tags moveLines l' name value (hl : l' ∈ lines) =>
      htag tags moveLines l' name value (.tail l hl)
    have hmove' := fun tags moveLines inTags l' (hl : l' ∈ lines) =>
      hmove tags moveLines inTags l' (.tail l hl)
    rw [parseLines] at h
    split_ifs at h with hblank hopen hlate
    · exact ih h hstart htag' hmove'
    · obtain rfl : inTags = true := by simpa using hlate
      cases hread : readTag (strip isSpace l) with
      | none => simp [hread] at h
      | some e =>
        simp only [hread] at h
        split_ifs at h with hdup
        exact ih h (htag _ _ l e.1 e.2 List.mem_cons_self hstart hread hdup) htag' hmove'
    · exact ih h (hmove _ _ _ l List.mem_cons_self hstart hblank hopen) htag' hmove'

/-- The tags and lines so far are parts some game has. -/
structure ReachableSoFar (tags : Tags) (moveLines : List Text) (inTags : Bool) : Prop where
  tagged : ∀ e ∈ tags, Tag.Reachable e
  distinct : (tags.map Prod.fst).Nodup
  lines : ∀ l ∈ moveLines, MoveLine l
  started : inTags = false → moveLines ≠ []

theorem ReachableSoFar.tag {l : Text} (h : ReachableSoFar tags moveLines inTags)
    (hl : ∀ c ∈ l, isLineBreak c = false) (hread : readTag (strip isSpace l) = some (name, value))
    (hdup : name ∉ tags.map Prod.fst) :
    ReachableSoFar (tags ++ [(name, unescape backslash quoteMark value)]) moveLines inTags := by
  obtain ⟨hnamed, hword, -, hvalue⟩ := of_readTag hread
  refine ⟨fun e he => ?_, ?_, h.lines, h.started⟩
  · rcases List.mem_append.mp he with he | he
    · exact h.tagged e he
    · obtain rfl := List.mem_singleton.mp he
      refine ⟨hnamed, hword, fun c hc => ?_⟩
      rcases mem_unescape hc with rfl | rfl | hc
      · decide
      · decide
      · exact hl c (mem_of_mem_strip (hvalue c hc))
  · rw [List.map_append, List.nodup_append]
    refine ⟨h.distinct, by simp, fun a ha b hb heq => hdup ?_⟩
    obtain rfl : b = name := by simpa using hb
    exact heq ▸ ha

theorem ReachableSoFar.move {l : Text} (h : ReachableSoFar tags moveLines inTags)
    (hl : MoveLine l) : ReachableSoFar tags (moveLines ++ [l]) false := by
  refine ⟨h.tagged, h.distinct, fun l' hl' => ?_, by simp⟩
  rcases List.mem_append.mp hl' with hl' | hl'
  · exact h.lines l' hl'
  · obtain rfl := List.mem_singleton.mp hl'
    exact hl

/-- The parts of an accepted game are parts some game has. -/
theorem reachable_of_parseTags (h : parseTags text = .ok (tags, movetext)) :
    Reachable tags movetext := by
  have hline : ∀ l ∈ splitLines isLineBreak text, ∀ c ∈ l, isLineBreak c = false :=
    fun _ hl _ hc => (mem_splitLines hl hc).1
  have hstart : ReachableSoFar [] [] true := ⟨by simp, by simp, by simp, by simp⟩
  obtain ⟨ls, inTags, hread, hend, rfl⟩ := parseLines_invariant h hstart
    (fun _ _ _ _ _ hl hread => hread.tag (hline _ hl))
    (fun _ _ _ _ hl hread hblank hopen => hread.move ⟨hline _ hl, hblank, hopen⟩)
  refine ⟨hread.tagged, hread.distinct, ls, fun hnil => hend ⟨?_, hnil⟩, hread.lines, rfl⟩
  rw [← Bool.not_eq_false]
  exact fun hfalse => hread.started hfalse hnil

/-- The characters of the tags and of the lines so far have `P`. -/
def CharsSoFar (P : Char → Prop) (tags : Tags) (moveLines : List Text) (_ : Bool) : Prop :=
  (∀ e ∈ tags, ∀ c ∈ e.1 ++ e.2, P c) ∧ ∀ l ∈ moveLines, ∀ c ∈ l, P c

theorem CharsSoFar.tag {P : Char → Prop} {l : Text} (h : CharsSoFar P tags moveLines inTags)
    (hslash : P backslash) (hquote : P quoteMark) (hl : ∀ c ∈ l, P c)
    (hread : readTag (strip isSpace l) = some (name, value)) :
    CharsSoFar P (tags ++ [(name, unescape backslash quoteMark value)]) moveLines inTags := by
  obtain ⟨-, -, hname, hvalue⟩ := of_readTag hread
  refine ⟨fun e he => ?_, h.2⟩
  rcases List.mem_append.mp he with he | he
  · exact h.1 e he
  · obtain rfl := List.mem_singleton.mp he
    intro c hc
    rcases List.mem_append.mp hc with hc | hc
    · exact hl c (mem_of_mem_strip (hname c hc))
    · rcases mem_unescape hc with rfl | rfl | hc
      · exact hslash
      · exact hquote
      · exact hl c (mem_of_mem_strip (hvalue c hc))

/-- The loop takes its characters from the lines, from escapes and from joins of lines. -/
theorem chars_of_parseTags {P : Char → Prop} (hslash : P backslash) (hquote : P quoteMark)
    (hfeed : P '\n') (h : parseTags text = .ok (tags, movetext)) (htext : ∀ c ∈ text, P c) :
    (∀ e ∈ tags, ∀ c ∈ e.1 ++ e.2, P c) ∧ ∀ c ∈ movetext, P c := by
  have hline : ∀ l ∈ splitLines isLineBreak text, ∀ c ∈ l, P c :=
    fun _ hl c hc => htext c (mem_splitLines hl hc).2
  have hstart : CharsSoFar P [] [] true := ⟨by simp, by simp⟩
  have hmove : ∀ tags moveLines inTags l, l ∈ splitLines isLineBreak text →
      CharsSoFar P tags moveLines inTags → CharsSoFar P tags (moveLines ++ [l]) false :=
    fun _ _ _ l hl hread => ⟨hread.1, fun l' hl' => by
      rcases List.mem_append.mp hl' with hl' | hl'
      · exact hread.2 l' hl'
      · exact List.mem_singleton.mp hl' ▸ hline l hl⟩
  obtain ⟨ls, inTags, ⟨htags, hmoves⟩, -, rfl⟩ := parseLines_invariant h hstart
    (fun _ _ _ _ _ hl hread hname _ => hread.tag hslash hquote (hline _ hl) hname)
    (fun _ _ _ _ hl hread _ _ => hmove _ _ _ _ hl hread)
  refine ⟨htags, fun c hc => ?_⟩
  rcases mem_intercalate hc with hc | ⟨l, hl, hc⟩
  · obtain rfl := List.mem_singleton.mp hc
    exact hfeed
  · exact hmoves l hl c hc

end Pgn
end OpenChess
