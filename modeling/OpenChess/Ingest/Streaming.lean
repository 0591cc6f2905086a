import OpenChess.Ingest.Stream
import OpenChess.Lib.Utf8

/-!
# Streaming a file

Model of `_raw_chunks` and `iter_pgn_games` of `ingest/streaming.py` over the bytes of a
file. The chunks go through an incremental decoder and the splitter of the decoded pieces;
the games are those of the whole text, cut at its boundaries at once.
-/

namespace OpenChess
namespace Streaming

open LineText
open Pgn (cutBoundary nextGame given drain isSpace)

abbrev Bytes := List UInt8

/-- What `zstandard` makes of a file: the reads of a stream reader, of any size, are together
the decompressed content. -/
structure Zstd where
  decompressed : Bytes → Bytes
  read : ℕ → Bytes → List Bytes
  flatten_read : ∀ n content, 0 < n → (read n content).flatten = decompressed content

/-- A file, and whether its suffix is `.zst`. -/
structure PgnFile where
  compressed : Bool
  bytes : Bytes

/-- `fh.read(n)` until it gives nothing. -/
def reads (n : ℕ) (content : Bytes) : List Bytes :=
  if _ : n = 0 ∨ content = [] then [] else content.take n :: reads n (content.drop n)
termination_by content.length
decreasing_by
  have hpos : 0 < content.length := List.length_pos_iff.mpr (by tauto)
  rw [List.length_drop]
  omega

/-- `_raw_chunks`. -/
def rawChunks (Z : Zstd) (file : PgnFile) (chunkSize : ℕ) : List Bytes :=
  if file.compressed then Z.read chunkSize file.bytes else reads chunkSize file.bytes

def numbered {A : Type} (games : List A) : List (ℕ × A) := games.zipIdx.map fun e => (e.2, e.1)

/-- `iter_pgn_games`: the decoder goes on from chunk to chunk, and is emptied at the end. -/
def iterPgnGames (Z : Zstd) (file : PgnFile) (chunkSize : ℕ) : List (ℕ × Text) :=
  let decoded := Utf8.feedAll none (rawChunks Z file chunkSize)
  numbered (Pgn.iterPgnGames decoded.1 (Utf8.flush decoded.2))

theorem snd_numbered {A : Type} (games : List A) : (numbered games).map Prod.snd = games := by
  rw [numbered, List.map_map]
  exact List.zipIdx_map_fst 0 games

theorem numbered_injective {A : Type} {games games' : List A} (h : numbered games = numbered games') :
    games = games' := by
  rw [← snd_numbered games, h, snd_numbered]

/-! ### The content of a file -/

def PgnFile.content (Z : Zstd) (file : PgnFile) : Bytes :=
  if file.compressed then Z.decompressed file.bytes else file.bytes

variable {Z : Zstd} {file : PgnFile} {n : ℕ} {t last p : Text} {ps : List Text} {r : Text × Text}

theorem flatten_reads (hn : 0 < n) (content : Bytes) : (reads n content).flatten = content := by
  induction content using reads.induct n with
  | case1 content h =>
    rw [reads, dif_pos h]
    obtain hzero | rfl := h
    · omega
    · rfl
  | case2 content h ih => rw [reads, dif_neg h, List.flatten_cons, ih, List.take_append_drop]

theorem flatten_rawChunks (hn : 0 < n) : (rawChunks Z file n).flatten = file.content Z := by
  unfold rawChunks PgnFile.content
  split_ifs
  · exact Z.flatten_read n file.bytes hn
  · exact flatten_reads hn file.bytes

/-! ### Splitting at once -/

/-- The pieces of a text between its boundaries. -/
def pieces (t : Text) : List Text :=
  match _ : nextGame t with
  | none => [t]
  | some (game, rest) => game :: pieces rest
termination_by t.length
decreasing_by exact Pgn.length_nextGame ‹_›

theorem pieces_of_none (h : nextGame t = none) : pieces t = [t] := by
  rw [pieces]
  split
  · rfl
  · next heq =>
    rw [h] at heq
    cases heq

theorem pieces_of_some (h : nextGame t = some r) : pieces t = r.1 :: pieces r.2 := by
  rw [pieces]
  split
  · next heq =>
    rw [h] at heq
    cases heq
  · next heq =>
    rw [h] at heq
    cases heq
    rfl

theorem cutBoundary_eq (h : cutBoundary t = some r) :
    t = r.1 ++ '\n' :: '\n' :: r.2 ∧ r.2.head? = some '[' := by
  induction t generalizing r with
  | nil => cases h
  | cons c t ih =>
    rw [cutBoundary] at h
    split_ifs at h with hcut
    · obtain rfl := Option.some.inj h
      obtain ⟨rest, hrest⟩ := List.isPrefixOf_iff_prefix.mp hcut
      obtain ⟨rfl, rfl⟩ := List.cons.inj hrest.symm
      exact ⟨rfl, rfl⟩
    · obtain ⟨r', hr', rfl⟩ := Option.map_eq_some_iff.mp h
      obtain ⟨heq, hhead⟩ := ih hr'
      exact ⟨congrArg (c :: ·) heq, hhead⟩

/-- A game that a boundary follows, and the tag block behind it. -/
theorem nextGame_eq (h : nextGame t = some r) :
    t = r.1 ++ '\n' :: '\n' :: r.2 ∧ r.2.head? = some '[' ∧ r.1.head? = t.head? ∧ r.1 ≠ [] := by
  cases t with
  | nil => cases h
  | cons c t =>
    obtain ⟨r', hr', rfl⟩ := Option.map_eq_some_iff.mp h
    obtain ⟨heq, hhead⟩ := cutBoundary_eq hr'
    exact ⟨congrArg (c :: ·) heq, hhead, rfl, List.cons_ne_nil _ _⟩

theorem cutBoundary_eq_none (h : '[' ∉ t) : cutBoundary t = none := by
  refine Option.eq_none_iff_forall_ne_some.mpr fun r hr => h ?_
  obtain ⟨heq, hhead⟩ := cutBoundary_eq hr
  rw [heq]
  exact List.mem_append_right _ (List.mem_cons_of_mem _ (List.mem_cons_of_mem _
    (List.mem_of_mem_head? hhead)))

theorem cutBoundary_append_of_none (h : cutBoundary t = none) (hlast : '[' ∉ last) :
    cutBoundary (t ++ last) = none := by
  induction t with
  | nil => exact cutBoundary_eq_none hlast
  | cons c t ih =>
    rw [cutBoundary] at h
    split_ifs at h with hcut
    rw [List.cons_append, cutBoundary, if_neg, ih (Option.map_eq_none_iff.mp h), Option.map_none]
    intro hcut'
    obtain ⟨rest, hrest⟩ := List.isPrefixOf_iff_prefix.mp hcut'
    obtain ⟨hc, htail⟩ := List.cons.inj hrest
    cases t with
    | nil => exact hlast ((show '\n' :: '[' :: rest = last from htail) ▸ by simp)
    | cons d t =>
      obtain ⟨hd, htail⟩ := List.cons.inj htail
      cases t with
      | nil => exact hlast ((show '[' :: rest = last from htail) ▸ by simp)
      | cons e t =>
        obtain ⟨he, -⟩ := List.cons.inj htail
        subst hc hd he
        exact hcut rfl

theorem nextGame_append_of_none (h : nextGame t = none) (hlast : '[' ∉ last) :
    nextGame (t ++ last) = none := by
  cases t with
  | nil =>
    cases last with
    | nil => rfl
    | cons c last =>
      rw [List.nil_append, nextGame, cutBoundary_eq_none fun h => hlast (List.mem_cons_of_mem c h),
        Option.map_none]
  | cons c t =>
    rw [List.cons_append, nextGame,
      cutBoundary_append_of_none (Option.map_eq_none_iff.mp h) hlast, Option.map_none]

theorem drain_append_given (t : Text) (hlast : '[' ∉ last) :
    (drain t).1 ++ given ((drain t).2 ++ last) = (pieces (t ++ last)).flatMap given := by
  induction t using Pgn.drain.induct with
  | case1 t h =>
    rw [Pgn.drain_of_none h, pieces_of_none (nextGame_append_of_none h hlast)]
    simp
  | case2 t game rest h ih =>
    rw [Pgn.drain_of_some h, pieces_of_some (Pgn.nextGame_append h), List.flatMap_cons, ← ih,
      List.append_assoc]

theorem flush_noBracket (s : Option Utf8.Pending) : '[' ∉ Utf8.flush s := by
  cases s with
  | none => exact List.not_mem_nil
  | some p =>
    intro h
    exact absurd (List.mem_singleton.mp h) (by decide)

/-- The games are those of the whole text, whatever the size of the chunks. -/
theorem iterPgnGames_eq (hn : 0 < n) : iterPgnGames Z file n =
    numbered ((pieces (Utf8.decode (file.content Z))).flatMap given) := by
  have hfeed := Utf8.flatten_feedAll none (rawChunks Z file n)
  rw [flatten_rawChunks hn] at hfeed
  obtain ⟨htext, hpending⟩ := Prod.mk.inj hfeed
  rw [iterPgnGames, Pgn.iterPgnGames_eq, drain_append_given _ (flush_noBracket _), Utf8.decode,
    Utf8.decodeFrom, ← htext, ← hpending]

def boundary : Text := ['\n', '\n', '[']

variable {a b : Text} {c : Char}

theorem not_boundary_of_none (h : cutBoundary t = none) : ¬ boundary <:+: t := by
  induction t with
  | nil => exact fun hb => absurd (List.infix_nil.mp hb) (List.cons_ne_nil _ _)
  | cons c t ih =>
    rw [cutBoundary] at h
    split_ifs at h with hcut
    rw [List.infix_cons_iff]
    rintro (hp | hb)
    · exact hcut (List.isPrefixOf_iff_prefix.mpr hp)
    · exact ih (Option.map_eq_none_iff.mp h) hb

/-- Behind its first character a boundary is found. -/
theorem nextGame_ne_none (h : boundary <:+: b) : nextGame (a ++ c :: b) ≠ none := by
  intro hnone
  cases a with
  | nil => exact not_boundary_of_none (Option.map_eq_none_iff.mp hnone) h
  | cons d a =>
    refine not_boundary_of_none (Option.map_eq_none_iff.mp hnone) (h.trans ?_)
    exact (List.suffix_cons c b).isInfix.trans (List.suffix_append a _).isInfix

/-! ### What the pieces hold -/

/-- The pieces are the text again, with the newlines of the boundaries between them. -/
theorem intercalate_pieces (t : Text) : ['\n', '\n'].intercalate (pieces t) = t := by
  induction t using pieces.induct with
  | case1 t h => rw [pieces_of_none h, List.intercalate_singleton]
  | case2 t game rest h ih =>
    obtain ⟨heq, -⟩ := nextGame_eq h
    obtain ⟨p, ps, hpieces⟩ : ∃ p ps, pieces rest = p :: ps := by
      cases hrest : nextGame rest with
      | none => exact ⟨_, _, pieces_of_none hrest⟩
      | some r => exact ⟨_, _, pieces_of_some hrest⟩
    rw [pieces_of_some h, hpieces, List.intercalate_cons_cons, ← hpieces, ih]
    conv_rhs => rw [heq]
    rw [List.append_assoc]
    rfl

theorem cutBoundary_before (h : cutBoundary t = some r) : cutBoundary r.1 = none := by
  induction t generalizing r with
  | nil => cases h
  | cons c t ih =>
    rw [cutBoundary] at h
    split_ifs at h with hcut
    · obtain rfl := Option.some.inj h
      rfl
    · obtain ⟨r', hr', rfl⟩ := Option.map_eq_some_iff.mp h
      rw [cutBoundary, if_neg, ih hr', Option.map_none]
      intro hcut'
      refine hcut (List.isPrefixOf_iff_prefix.mpr ?_)
      rw [(cutBoundary_eq hr').1]
      exact (List.isPrefixOf_iff_prefix.mp hcut').trans (List.prefix_append (c :: r'.1) _)

theorem nextGame_before (h : nextGame t = some r) : nextGame r.1 = none := by
  cases t with
  | nil => cases h
  | cons c t =>
    obtain ⟨r', hr', rfl⟩ := Option.map_eq_some_iff.mp h
    rw [nextGame, cutBoundary_before hr', Option.map_none]

theorem nextGame_of_mem_pieces (t : Text) : ∀ p ∈ pieces t, nextGame p = none := by
  induction t using pieces.induct with
  | case1 t h =>
    rw [pieces_of_none h]
    intro p hp
    rwa [List.mem_singleton.mp hp]
  | case2 t game rest h ih =>
    rw [pieces_of_some h, List.forall_mem_cons]
    exact ⟨nextGame_before h, ih⟩

def blank (t : Text) : Prop := strip isSpace t = []

instance : DecidablePred blank := fun t => inferInstanceAs (Decidable (strip isSpace t = []))

theorem given_of_blank (h : blank p) : given p = [] := if_pos h

theorem given_of_not_blank (h : ¬ blank p) : given p = [strip (· == '\n') p] := if_neg h

theorem not_blank_of_head (h : p.head? = some '[') : ¬ blank p := by
  intro hblank
  have hspace := strip_eq_nil.mp hblank '[' (List.mem_of_mem_head? h)
  exact absurd hspace (by decide)

def inked (t : Text) : Text := t.filter fun c => !(c == '\n')

theorem inked_append (t u : Text) : inked (t ++ u) = inked t ++ inked u := List.filter_append _ _

theorem inked_given (h : ¬ blank p) : inked (given p).flatten = inked p := by
  rw [given_of_not_blank h, List.flatten_singleton]
  exact filter_strip _ _

theorem inked_games (h : t.head? = some '[') :
    inked ((pieces t).flatMap given).flatten = inked t := by
  induction t using pieces.induct with
  | case1 t hnext =>
    rw [pieces_of_none hnext, List.flatMap_singleton]
    exact inked_given (not_blank_of_head h)
  | case2 t game rest hnext ih =>
    obtain ⟨heq, hrest, hgame, -⟩ := nextGame_eq hnext
    have hlost : inked ('\n' :: '\n' :: rest) = inked rest := rfl
    rw [pieces_of_some hnext, List.flatMap_cons, List.flatten_append, inked_append,
      inked_given (not_blank_of_head (hgame.trans h)), ih hrest]
    conv_rhs => rw [heq, inked_append, hlost]

/-- The text behind its first piece, if that is blank, and else the text. -/
def withoutBlankLead (t : Text) : Text :=
  if blank ((pieces t).headD []) then t.drop ((pieces t).headD []).length else t

/-- The games hold every character but newlines and a blank lead. -/
theorem inked_flatten_games (t : Text) :
    inked ((pieces t).flatMap given).flatten = inked (withoutBlankLead t) := by
  unfold withoutBlankLead
  cases hnext : nextGame t with
  | none =>
    rw [pieces_of_none hnext, List.headD_cons, List.flatMap_singleton]
    split_ifs with hblank
    · rw [given_of_blank hblank, List.drop_length]
      rfl
    · exact inked_given hblank
  | some r =>
    obtain ⟨heq, hrest, -⟩ := nextGame_eq hnext
    have hlost : inked ('\n' :: '\n' :: r.2) = inked r.2 := rfl
    rw [pieces_of_some hnext, List.headD_cons, List.flatMap_cons, List.flatten_append, inked_append,
      inked_games hrest]
    conv_rhs => rw [heq]
    split_ifs with hblank
    · rw [given_of_blank hblank, List.drop_left, hlost]
      rfl
    · rw [inked_given hblank, inked_append, hlost]

theorem flatten_numbered (games : List Text) : (numbered games).flatMap Prod.snd = games.flatten := by
  rw [List.flatMap_def, snd_numbered]

/-- Games do not depend on the chunks: they are the pieces of the whole decoded text, cut at
its boundaries and nowhere else, and hold every character once but newlines and a lead of
white space. -/
theorem games_of_chunks (Z : Zstd) (file : PgnFile) :
    (∀ n m, 0 < n → 0 < m → iterPgnGames Z file n = iterPgnGames Z file m) ∧
    (∀ n, 0 < n → iterPgnGames Z file n =
      numbered ((pieces (Utf8.decode (file.content Z))).flatMap given)) ∧
    ['\n', '\n'].intercalate (pieces (Utf8.decode (file.content Z))) =
      Utf8.decode (file.content Z) ∧
    (∀ p ∈ pieces (Utf8.decode (file.content Z)), nextGame p = none) ∧
    ∀ n, 0 < n → inked ((iterPgnGames Z file n).flatMap Prod.snd) =
      inked (withoutBlankLead (Utf8.decode (file.content Z))) := by
  refine ⟨fun n m hn hm => ?_, fun n hn => iterPgnGames_eq hn, intercalate_pieces _,
    nextGame_of_mem_pieces _, fun n hn => ?_⟩
  · rw [iterPgnGames_eq hn, iterPgnGames_eq hm]
  · rw [iterPgnGames_eq hn, flatten_numbered, inked_flatten_games]

def noZstd : Zstd := ⟨fun _ => [], fun _ _ => [], fun _ _ _ => rfl⟩

/-- A blank before the first tag block. -/
def leadFile : PgnFile := ⟨false, [0x20, 0x0a, 0x0a, 0x5b]⟩

/-- A blank lead is lost with its characters. -/
theorem lead_lost : ¬ ∀ (Z : Zstd) (file : PgnFile) (n : ℕ), 0 < n →
    inked ((iterPgnGames Z file n).flatMap Prod.snd) = inked (Utf8.decode (file.content Z)) := by
  intro h
  have hlead := h noZstd leadFile 1 (by decide)
  have hnext : nextGame (Utf8.decode leadFile.bytes) = some ([' '], ['[']) := by decide
  have hpieces : pieces (Utf8.decode leadFile.bytes) = [[' '], ['[']] := by
    rw [pieces_of_some hnext, pieces_of_none (by decide)]
  rw [iterPgnGames_eq (by decide), flatten_numbered] at hlead
  change inked ((pieces (Utf8.decode leadFile.bytes)).flatMap given).flatten = _ at hlead
  rw [hpieces] at hlead
  exact absurd hlead (by decide)

end Streaming
end OpenChess
