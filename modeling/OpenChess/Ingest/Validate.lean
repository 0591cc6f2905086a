import OpenChess.Ingest.PgnTags
import OpenChess.Ingest.San

/-!
# Accepting a game

Model of `validate_pgn_game` of `ingest/pgn.py`. The movetext ends in a result, the
result agrees with its tag, and every token before it is a legal move from the
initial position. Tags and movetext are all that the verdict depends on.
-/

namespace OpenChess
namespace Pgn

inductive GameError
  | tags (e : TagError)
  | movetext (e : MovetextError)
  | emptyMovetext
  | truncated
  | resultTag (result tagResult : Text)
  | variant (variant : Text)
  | setUp
  | san (e : SanError)
  | noMoves
  deriving DecidableEq, Repr

/-- Whether the refusal is an `IllegalMove`. -/
def GameError.isIllegal : GameError → Bool
  | .san (.illegal _) => true
  | _ => false

/-- `RESULTS`. -/
def results : List Text := ["1-0".toList, "0-1".toList, "1/2-1/2".toList, "*".toList]

structure ParsedGame where
  tags : Tags
  movetext : Text
  sanMoves : List Text
  result : Text

/-- The loop over the tokens of the main line. -/
def playTokens (B : Board) : List Text → Except SanError Board
  | [] => .ok B
  | tok :: toks =>
    match B.matchSan tok with
    | .error e => .error e
    | .ok mv => playTokens (B.apply mv) toks

/-- What `validate_pgn_game` does with the tags and the movetext. -/
def validateParts (tags : Tags) (movetext : Text) : Except GameError ParsedGame :=
  match stripMovetext movetext with
  | .error e => .error (.movetext e)
  | .ok tokens =>
    match tokens.getLast? with
    | none => .error .emptyMovetext
    | some result =>
      if result ∉ results then .error .truncated
      else if (tags.lookup "Result".toList).getD result ≠ result then
        .error (.resultTag result ((tags.lookup "Result".toList).getD result))
      else if (tags.lookup "Variant".toList).getD "Standard".toList ∉
          ["Standard".toList, "Chess".toList] then
        .error (.variant ((tags.lookup "Variant".toList).getD "Standard".toList))
      else if "FEN".toList ∈ tags.map Prod.fst ∨ "SetUp".toList ∈ tags.map Prod.fst then
        .error .setUp
      else
        match playTokens Board.initial tokens.dropLast with
        | .error e => .error (.san e)
        | .ok _ =>
          if tokens.dropLast = [] then .error .noMoves
          else .ok ⟨tags, movetext, tokens.dropLast, result⟩

/-- `validate_pgn_game`. -/
def validateGame (gameText : Text) : Except GameError ParsedGame :=
  match parseTags gameText with
  | .error e => .error (.tags e)
  | .ok (tags, movetext) => validateParts tags movetext

variable {text movetext : Text} {tags : Tags} {g : ParsedGame}

theorem parts_of_validateParts (h : validateParts tags movetext = .ok g) :
    g.tags = tags ∧ g.movetext = movetext := by
  unfold validateParts at h
  split at h
  · cases h
  · split at h
    · cases h
    · split_ifs at h
      · split at h <;> cases h
      · split at h
        · cases h
        · cases h
          exact ⟨rfl, rfl⟩

theorem parts_of_validateGame (h : validateGame text = .ok g) :
    parseTags text = .ok (g.tags, g.movetext) ∧ validateParts g.tags g.movetext = .ok g := by
  unfold validateGame at h
  split at h
  · cases h
  · next tags movetext hparse =>
    obtain ⟨htags, hmovetext⟩ := parts_of_validateParts h
    rw [htags, hmovetext]
    exact ⟨hparse, h⟩

/-- An accepted game, written down from its tags and its movetext, is accepted as
the same game. -/
theorem validateGame_reconstruct (h : validateGame text = .ok g) :
    validateGame (reconstruct g.tags g.movetext) = .ok g := by
  obtain ⟨hparse, hparts⟩ := parts_of_validateGame h
  rw [validateGame, parseTags_reconstruct (reachable_of_parseTags hparse)]
  exact hparts

/-- The stored form of an accepted game validates again, to the same game. -/
theorem stored_form_revalidates (text : Text) (g : ParsedGame) (h : validateGame text = .ok g) :
    ∃ g', validateGame (reconstruct g.tags g.movetext) = .ok g' ∧ g'.tags = g.tags ∧
      g'.movetext = g.movetext ∧ g'.sanMoves = g.sanMoves ∧ g'.result = g.result :=
  ⟨g, validateGame_reconstruct h, rfl, rfl, rfl, rfl⟩

theorem playTokens_kingPawn : playTokens Board.initial ["e4".toList] =
    .ok (Board.initial.apply (Board.initial.filled Board.kingPawn)) := by
  have hmatch : Board.initial.matchSan "e4".toList = .ok (Board.initial.filled Board.kingPawn) := by
    rw [← Board.standardSan_kingPawn]
    exact Board.sound_initial.matchSan_of_playable Board.playable_kingPawn
      Board.annotate_kingPawn rfl
  rw [playTokens, hmatch]
  rfl

/-- The movetext of that game is accepted under tags the verdict does not look at. -/
theorem validateParts_kingPawn (hstrip : stripMovetext movetext = .ok ["e4".toList, "*".toList])
    (hresult : tags.lookup "Result".toList = none) (hvariant : tags.lookup "Variant".toList = none)
    (hsetUp : ¬("FEN".toList ∈ tags.map Prod.fst ∨ "SetUp".toList ∈ tags.map Prod.fst)) :
    validateParts tags movetext = .ok ⟨tags, movetext, ["e4".toList], "*".toList⟩ := by
  have hlast : ["e4".toList, "*".toList].getLast? = some "*".toList := rfl
  have hdrop : ["e4".toList, "*".toList].dropLast = ["e4".toList] := rfl
  have hlisted : ¬"*".toList ∉ results := by decide
  have hstandard : ¬"Standard".toList ∉ ["Standard".toList, "Chess".toList] := by decide
  rw [validateParts, hstrip]
  simp only [hlast, hdrop, hresult, hvariant, Option.getD_none, playTokens_kingPawn]
  rw [if_neg hlisted, if_neg (not_not.mpr rfl), if_neg hstandard, if_neg hsetUp,
    if_neg (List.cons_ne_nil _ _)]

/-- `[White "a \\\""]`, an empty line and `1. e4 *`. -/
def sampleGame : Text := "[White \"a \\\\\\\"\"]\n\n1. e4 *".toList

theorem stored_form_revalidates_sample : ∃ g g', validateGame sampleGame = .ok g ∧
    validateGame (reconstruct g.tags g.movetext) = .ok g' ∧ g'.tags = g.tags ∧
      g'.movetext = g.movetext ∧ g'.sanMoves = g.sanMoves ∧ g'.result = g.result := by
  have htags : parseTags sampleGame =
      .ok ([("White".toList, "a \\\"".toList)], "1. e4 *".toList) := by decide +kernel
  have hok : ∃ g, validateGame sampleGame = .ok g := by
    rw [validateGame, htags]
    exact ⟨_, validateParts_kingPawn (by decide +kernel) (by decide) (by decide) (by decide)⟩
  obtain ⟨g, hok⟩ := hok
  obtain ⟨g', h⟩ := stored_form_revalidates sampleGame g hok
  exact ⟨g, g', hok, h⟩

/-- The movetext of an accepted game is not blank. -/
theorem visible_of_validateGame (h : validateGame text = .ok g) :
    LineText.strip isSpace g.movetext ≠ [] := by
  obtain ⟨ls, hne, hls, hmovetext⟩ :=
    (reachable_of_parseTags (parts_of_validateGame h).1).lines
  intro hblank
  have hall := LineText.strip_eq_nil.mp hblank
  obtain ⟨l, ls, rfl⟩ := List.exists_cons_of_ne_nil hne
  obtain ⟨hl, -⟩ := List.forall_mem_cons.mp hls
  refine hl.visible (LineText.strip_eq_nil.mpr fun c hc => hall c ?_)
  rw [hmovetext]
  exact LineText.mem_intercalate_of_mem List.mem_cons_self hc

end Pgn
end OpenChess
