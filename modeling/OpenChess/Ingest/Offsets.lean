import OpenChess.Ingest.Streaming

/-!
# Games with their offsets

Model of `iter_pgn_games_with_offsets` of `ingest/quarantine.py`. It splits as
`iter_pgn_games` does, but every chunk is decoded by itself, and what it counts as an offset
is characters. So it agrees with the plain splitter exactly where no chunk ends within a
character and every character before a game is of one byte.
-/

namespace OpenChess
namespace Quarantine

open LineText
open Pgn (cutBoundary nextGame given isSpace)
open Streaming (Bytes PgnFile Zstd blank boundary numbered pieces rawChunks)

/-- `len(segment) - len(segment.lstrip("\n"))`. -/
def leading (segment : Text) : ℕ := segment.length - (segment.dropWhile (· == '\n')).length

/-- The game of a segment that starts here, unless blank. -/
def givenAt (start : ℕ) (segment : Text) : List (ℕ × Text) :=
  let game := strip (· == '\n') segment
  if strip isSpace game = [] then [] else [(start + leading segment, game)]

/-- The inner loop: the games that are complete, and the start of the buffer left. -/
def drainAt (start : ℕ) (buf : Text) : List (ℕ × Text) × ℕ × Text :=
  match _ : nextGame buf with
  | none => ([], start, buf)
  | some (segment, rest) =>
    let out := drainAt (start + (segment.length + 2)) rest
    (givenAt start segment ++ out.1, out.2)
termination_by buf.length
decreasing_by exact Pgn.length_nextGame ‹_›

def lastAt (start : ℕ) (buf : Text) : List (ℕ × Text) :=
  if strip isSpace buf = [] then [] else [(start + leading buf, strip (· == '\n') buf)]

/-- The loop over the decoded chunks. -/
def iterAt (start : ℕ) (buf : Text) : List Text → List (ℕ × Text)
  | [] => lastAt start buf
  | chunk :: chunks =>
    let out := drainAt start (buf ++ chunk)
    out.1 ++ iterAt out.2.1 out.2.2 chunks

/-- `iter_pgn_games_with_offsets`: the sequence number, the offset and the text of each
game. -/
def iterPgnGamesWithOffsets (Z : Zstd) (file : PgnFile) (chunkSize : ℕ) : List (ℕ × ℕ × Text) :=
  numbered (iterAt 0 [] ((rawChunks Z file chunkSize).map Utf8.decode))

/-! ### Splitting at once -/

/-- A piece that is not blank: what stands before its game, and the game. -/
def here (before segment : Text) : List (Text × Text) :=
  if blank segment then []
  else [(before ++ segment.takeWhile (· == '\n'), strip (· == '\n') segment)]

/-- The games of a text, each behind what stands before it. -/
def located (before t : Text) : List (Text × Text) :=
  match _ : nextGame t with
  | none => here before t
  | some (segment, rest) => here before segment ++ located (before ++ segment ++ ['\n', '\n']) rest
termination_by t.length
decreasing_by exact Pgn.length_nextGame ‹_›

variable {Z : Zstd} {file : PgnFile} {n start : ℕ} {t u before segment : Text} {r e : Text × Text}
  {c : Char}

theorem drainAt_of_none (h : nextGame t = none) : drainAt start t = ([], start, t) := by
  rw [drainAt]
  split
  · rfl
  · next heq =>
    rw [h] at heq
    cases heq

theorem drainAt_of_some (h : nextGame t = some r) : drainAt start t =
    (givenAt start r.1 ++ (drainAt (start + (r.1.length + 2)) r.2).1,
      (drainAt (start + (r.1.length + 2)) r.2).2) := by
  rw [drainAt]
  split
  · next heq =>
    rw [h] at heq
    cases heq
  · next heq =>
    rw [h] at heq
    cases heq
    rfl

theorem located_of_none (h : nextGame t = none) : located before t = here before t := by
  rw [located]
  split
  · rfl
  · next heq =>
    rw [h] at heq
    cases heq

theorem located_of_some (h : nextGame t = some r) : located before t =
    here before r.1 ++ located (before ++ r.1 ++ ['\n', '\n']) r.2 := by
  rw [located]
  split
  · next heq =>
    rw [h] at heq
    cases heq
  · next heq =>
    rw [h] at heq
    cases heq
    rfl

def counted (games : List (Text × Text)) : List (ℕ × Text) := games.map fun e => (e.1.length, e.2)

theorem leading_eq (segment : Text) : leading segment = (segment.takeWhile (· == '\n')).length := by
  have hlength := congrArg List.length (List.takeWhile_append_dropWhile (p := (· == '\n')) (l := segment))
  rw [List.length_append] at hlength
  unfold leading
  omega

theorem blank_strip_iff : blank (strip (· == '\n') segment) ↔ blank segment := by
  have hnewline : isSpace '\n' = true := by decide
  rw [blank, blank, strip_eq_nil, strip_eq_nil]
  refine ⟨fun h c hc => ?_, fun h c hc => h c (mem_of_mem_strip hc)⟩
  by_cases hc' : c = '\n'
  · rw [hc']
    exact hnewline
  · refine h c ?_
    have hfilter := filter_strip (· == '\n') segment
    have hmem : c ∈ segment.filter fun c => !(c == '\n') :=
      List.mem_filter.mpr ⟨hc, by simpa using hc'⟩
    rw [← hfilter] at hmem
    exact List.mem_of_mem_filter hmem

theorem here_of_blank (h : blank segment) : here before segment = [] := if_pos h

theorem here_of_not_blank (h : ¬ blank segment) : here before segment =
    [(before ++ segment.takeWhile (· == '\n'), strip (· == '\n') segment)] := if_neg h

theorem lastAt_of_blank (h : blank segment) : lastAt start segment = [] := if_pos h

theorem lastAt_of_not_blank (h : ¬ blank segment) : lastAt start segment =
    [(start + leading segment, strip (· == '\n') segment)] := if_neg h

theorem givenAt_eq_lastAt : givenAt start segment = lastAt start segment := by
  by_cases h : blank segment
  · rw [lastAt_of_blank h]
    exact if_pos (blank_strip_iff.mpr h)
  · rw [lastAt_of_not_blank h]
    exact if_neg fun hstrip => h (blank_strip_iff.mp hstrip)

theorem lastAt_eq : lastAt before.length segment = counted (here before segment) := by
  by_cases h : blank segment
  · rw [lastAt_of_blank h, here_of_blank h]
    rfl
  · rw [lastAt_of_not_blank h, here_of_not_blank h, counted, List.map_singleton, List.length_append,
      leading_eq]

theorem snd_here : (here before segment).map Prod.snd = given segment := by
  by_cases h : blank segment
  · rw [here_of_blank h, Streaming.given_of_blank h]
    rfl
  · rw [here_of_not_blank h, Streaming.given_of_not_blank h]
    rfl

theorem snd_located (before t : Text) :
    (located before t).map Prod.snd = (pieces t).flatMap given := by
  induction before, t using located.induct with
  | case1 before t h =>
    rw [located_of_none h, Streaming.pieces_of_none h, snd_here, List.flatMap_singleton]
  | case2 before t segment rest h ih =>
    rw [located_of_some h, Streaming.pieces_of_some h, List.map_append, snd_here, ih,
      List.flatMap_cons]

/-! ### Chunks -/

theorem counted_append (games games' : List (Text × Text)) :
    counted (games ++ games') = counted games ++ counted games' := List.map_append

theorem drainAt_append (before buf : Text) : ∃ before' : Text,
    before'.length = (drainAt before.length buf).2.1 ∧
    nextGame (drainAt before.length buf).2.2 = none ∧
    ∀ t, counted (located before (buf ++ t)) = (drainAt before.length buf).1 ++
      counted (located before' ((drainAt before.length buf).2.2 ++ t)) := by
  induction before, buf using located.induct with
  | case1 before buf h =>
    rw [drainAt_of_none h]
    exact ⟨before, rfl, h, fun t => rfl⟩
  | case2 before buf segment rest h ih =>
    obtain ⟨before', hlength, hnone, htext⟩ := ih
    have hstart : (before ++ segment ++ ['\n', '\n']).length =
        before.length + (segment.length + 2) := by
      simp only [List.length_append, List.length_cons, List.length_nil]
      omega
    rw [hstart] at hlength hnone htext
    rw [drainAt_of_some h]
    refine ⟨before', hlength, hnone, fun t => ?_⟩
    rw [located_of_some (Pgn.nextGame_append h), counted_append, htext t, givenAt_eq_lastAt,
      lastAt_eq, List.append_assoc]

theorem iterAt_eq (before : Text) (chunks : List Text) {buf : Text} (h : nextGame buf = none) :
    iterAt before.length buf chunks = counted (located before (buf ++ chunks.flatten)) := by
  induction chunks generalizing before buf with
  | nil => rw [iterAt, lastAt_eq, List.flatten_nil, List.append_nil, located_of_none h]
  | cons chunk chunks ih =>
    obtain ⟨before', hlength, hnone, htext⟩ := drainAt_append before (buf ++ chunk)
    rw [iterAt, List.flatten_cons, ← List.append_assoc, htext, ← hlength, ih before' hnone]

/-- The games are those of the chunks decoded by themselves, and what is counted are the
characters before them. -/
theorem iterPgnGamesWithOffsets_eq : iterPgnGamesWithOffsets Z file n =
    numbered (counted (located [] ((rawChunks Z file n).flatMap Utf8.decode))) := by
  have hiter : iterAt 0 [] ((rawChunks Z file n).map Utf8.decode) =
      counted (located [] ((rawChunks Z file n).map Utf8.decode).flatten) := iterAt_eq [] _ rfl
  rw [← List.flatMap_def] at hiter
  rw [iterPgnGamesWithOffsets, ← hiter]

/-! ### What stands before a game -/

variable {a b : Text}

theorem isPrefix_of_here (he : e ∈ here before segment) : e.1 ++ e.2 <+: before ++ segment := by
  by_cases h : blank segment
  · rw [here_of_blank h] at he
    cases he
  · rw [here_of_not_blank h] at he
    obtain rfl := List.mem_singleton.mp he
    rw [List.append_assoc, List.prefix_append_right_inj, strip]
    conv_rhs => rw [← List.takeWhile_append_dropWhile (p := (· == '\n')) (l := segment)]
    rw [List.prefix_append_right_inj]
    exact List.rdropWhile_prefix _ _

theorem located_prefix (he : e ∈ located before t) : e.1 ++ e.2 <+: before ++ t := by
  induction before, t using located.induct with
  | case1 before t h =>
    rw [located_of_none h] at he
    exact isPrefix_of_here he
  | case2 before t segment rest h ih =>
    rw [located_of_some h] at he
    obtain ⟨heq, -⟩ := Streaming.nextGame_eq h
    have hwhole : before ++ t = before ++ segment ++ ['\n', '\n'] ++ rest := by
      rw [heq]
      simp
    rw [hwhole]
    obtain he | he := List.mem_append.mp he
    · rw [List.append_assoc]
      exact (isPrefix_of_here he).trans (List.prefix_append _ _)
    · exact ih he

theorem mem_here (he : e ∈ here before segment) (hc : c ∈ e.1) : c ∈ before ∨ c = '\n' := by
  by_cases h : blank segment
  · rw [here_of_blank h] at he
    cases he
  · rw [here_of_not_blank h] at he
    obtain rfl := List.mem_singleton.mp he
    refine (List.mem_append.mp hc).imp_right fun hlead => ?_
    have hnewline := List.mem_takeWhile_imp hlead
    exact eq_of_beq hnewline

theorem mem_located (he : e ∈ located before t) (hc : c ∈ e.1) :
    c ∈ before ∨ c = '\n' ∨ ∃ a b, t = a ++ c :: b ∧ boundary <:+: b := by
  induction before, t using located.induct with
  | case1 before t h =>
    rw [located_of_none h] at he
    exact (mem_here he hc).imp_right .inl
  | case2 before t segment rest h ih =>
    rw [located_of_some h] at he
    obtain ⟨heq, hhead, -⟩ := Streaming.nextGame_eq h
    obtain ⟨rest', rfl⟩ := List.head?_eq_some_iff.mp hhead
    obtain he | he := List.mem_append.mp he
    · exact (mem_here he hc).imp_right .inl
    obtain hbefore | rfl | ⟨a, b, hab, hb⟩ := ih he
    · obtain hbefore | hnewline := List.mem_append.mp hbefore
      · refine (List.mem_append.mp hbefore).imp_right fun hsegment => .inr ?_
        obtain ⟨a, b, rfl⟩ := List.append_of_mem hsegment
        refine ⟨a, b ++ boundary ++ rest', ?_, List.infix_append b boundary rest'⟩
        rw [heq]
        simp [boundary]
      · exact .inr (.inl (by simpa using hnewline))
    · exact .inr (.inl rfl)
    · refine .inr (.inr ⟨segment ++ '\n' :: '\n' :: a, b, ?_, hb⟩)
      rw [heq, hab]
      simp

theorem located_of_head (h : t.head? = some '[') (before : Text) :
    ∃ e ∈ located before t, before <+: e.1 := by
  have hhere : ∀ segment : Text, segment.head? = some '[' →
      ∃ e ∈ here before segment, before <+: e.1 := by
    intro segment hsegment
    rw [here_of_not_blank (Streaming.not_blank_of_head hsegment)]
    exact ⟨_, List.mem_singleton_self _, List.prefix_append _ _⟩
  cases hnext : nextGame t with
  | none =>
    rw [located_of_none hnext]
    exact hhere t h
  | some r =>
    obtain ⟨-, -, hsegment, -⟩ := Streaming.nextGame_eq hnext
    obtain ⟨e, he, hp⟩ := hhere r.1 (hsegment.trans h)
    rw [located_of_some hnext]
    exact ⟨e, List.mem_append_left _ he, hp⟩

theorem exists_located (h : boundary <:+: b) (hc : c ≠ '\n') (ht : t = a ++ c :: b) :
    ∃ e ∈ located before t, c ∈ e.1 := by
  induction before, t using located.induct generalizing a with
  | case1 before t hnone => exact absurd (ht ▸ hnone) (Streaming.nextGame_ne_none h)
  | case2 before t segment rest hnext ih =>
    obtain ⟨heq, hhead, -⟩ := Streaming.nextGame_eq hnext
    have hmem : c ∈ before ++ segment ++ ['\n', '\n'] ∨ ∃ a', rest = a' ++ c :: b := by
      obtain ⟨a', rfl, hrest⟩ | ⟨c', rfl, hb⟩ := List.append_eq_append_iff.mp (heq.symm.trans ht)
      · obtain _ | ⟨_, _ | ⟨_, a'⟩⟩ := a'
        · exact absurd (List.cons.inj hrest).1.symm hc
        · exact absurd (List.cons.inj (List.cons.inj hrest).2).1.symm hc
        · exact .inr ⟨a', (List.cons.inj (List.cons.inj hrest).2).2⟩
      · cases c' with
        | nil => exact absurd (List.cons.inj hb).1 hc
        | cons d c' =>
          obtain ⟨rfl, -⟩ := List.cons.inj hb
          exact .inl (by simp)
    rw [located_of_some hnext]
    obtain hbefore | ⟨a', hrest⟩ := hmem
    · obtain ⟨e, he, hp⟩ := located_of_head hhead (before ++ segment ++ ['\n', '\n'])
      exact ⟨e, List.mem_append_right _ he, hp.subset hbefore⟩
    · obtain ⟨e, he, hce⟩ := ih hrest
      exact ⟨e, List.mem_append_right _ he, hce⟩

theorem located_single_iff : (∀ e ∈ located [] t, e.1.length = (Utf8.encode e.1).length) ↔
    ∀ a c b, t = a ++ c :: b → 1 < c.utf8Size → ¬ boundary <:+: b := by
  constructor
  · intro hall a c b ht hsize hb
    have hc : c ≠ '\n' := fun hc => absurd (hc ▸ hsize) (by decide)
    obtain ⟨e, he, hce⟩ := exists_located hb hc ht
    have hone := Utf8.length_encode_eq_iff.mp (hall e he) c hce
    omega
  · intro hall e he
    rw [Utf8.length_encode_eq_iff]
    intro c hce
    have hpos := c.utf8Size_pos
    obtain hnil | rfl | ⟨a, b, ht, hb⟩ := mem_located he hce
    · cases hnil
    · rfl
    · have hsize : ¬ 1 < c.utf8Size := fun hsize => hall a c b ht hsize hb
      omega

/-! ### Agreement -/

/-- The offset-aware splitter and the plain one agree on a file of this text: the same games
in the same order, each with the count of the bytes before it. -/
def Agrees (Z : Zstd) (file : PgnFile) (chunkSize : ℕ) (t : Text) : Prop :=
  ((iterPgnGamesWithOffsets Z file chunkSize).map fun e => (e.1, e.2.2)) =
      Streaming.iterPgnGames Z file chunkSize ∧
    (iterPgnGamesWithOffsets Z file chunkSize).map (fun e => e.2.1) =
      (located [] t).map fun e => (Utf8.encode e.1).length

theorem numbered_games (games : List (ℕ × Text)) :
    (numbered games).map (fun e => (e.1, e.2.2)) = numbered (games.map Prod.snd) := by
  unfold numbered
  rw [List.map_map, List.zipIdx_map, List.map_map]
  rfl

theorem numbered_offsets (games : List (ℕ × Text)) :
    (numbered games).map (fun e => e.2.1) = games.map Prod.fst := by
  have hfst : (numbered games).map (fun e => e.2.1) =
      (games.zipIdx.map Prod.fst).map Prod.fst := by
    rw [numbered, List.map_map, List.map_map]
    rfl
  rw [hfst, List.zipIdx_map_fst]

theorem snd_counted (games : List (Text × Text)) :
    (counted games).map Prod.snd = games.map Prod.snd := by
  rw [counted, List.map_map]
  rfl

theorem fst_counted (games : List (Text × Text)) :
    (counted games).map Prod.fst = games.map fun e => e.1.length := by
  rw [counted, List.map_map]
  rfl

theorem replaced_inked (t : Text) : Utf8.replaced (Streaming.inked t) = Utf8.replaced t :=
  List.count_filter (by decide)

theorem replaced_withoutBlankLead (t : Text) :
    Utf8.replaced (Streaming.withoutBlankLead t) = Utf8.replaced t := by
  unfold Streaming.withoutBlankLead
  split_ifs with hblank
  · have hlead : (pieces t).headD [] <+: t := by
      cases hnext : nextGame t with
      | none => rw [Streaming.pieces_of_none hnext, List.headD_cons]
      | some r =>
        rw [Streaming.pieces_of_some hnext, List.headD_cons]
        exact ⟨_, (Streaming.nextGame_eq hnext).1.symm⟩
    generalize (pieces t).headD [] = lead at hlead hblank ⊢
    obtain ⟨rest, rfl⟩ := hlead
    have hnone : Utf8.replaced lead = 0 :=
      List.count_eq_zero.mpr fun hmem => absurd (strip_eq_nil.mp hblank _ hmem) (by decide)
    rw [List.drop_left, Utf8.replaced_append, hnone, zero_add]
  · rfl

theorem replaced_eq_of_games (h : (pieces t).flatMap given = (pieces u).flatMap given) :
    Utf8.replaced t = Utf8.replaced u := by
  have hinked := congrArg (fun games => Utf8.replaced (Streaming.inked games.flatten)) h
  simp only [Streaming.inked_flatten_games, replaced_inked, replaced_withoutBlankLead] at hinked
  exact hinked

/-- The splitters agree exactly where no chunk ends within a character and no character of
several bytes has a boundary behind it. -/
theorem agrees_iff (hn : 0 < n) (hfile : file.content Z = Utf8.encode t) : Agrees Z file n t ↔
    Utf8.Whole (rawChunks Z file n) ∧
      ∀ a c b, t = a ++ c :: b → 1 < c.utf8Size → ¬ boundary <:+: b := by
  have hflat : (rawChunks Z file n).flatten = Utf8.encode t := by
    rw [Streaming.flatten_rawChunks hn, hfile]
  have hgames : Streaming.iterPgnGames Z file n = numbered ((pieces t).flatMap given) := by
    rw [Streaming.iterPgnGames_eq hn, hfile, Utf8.decode_encode]
  unfold Agrees
  rw [iterPgnGamesWithOffsets_eq, numbered_games, numbered_offsets, snd_counted, fst_counted,
    snd_located, hgames, ← located_single_iff]
  have hoffsets : (located [] t).map (fun e => e.1.length) =
      (located [] t).map (fun e => (Utf8.encode e.1).length) ↔
      ∀ e ∈ located [] t, e.1.length = (Utf8.encode e.1).length := List.map_inj_left
  constructor
  · rintro ⟨hsame, hcounts⟩
    have hreplaced := replaced_eq_of_games (Streaming.numbered_injective hsame)
    have hwhole : Utf8.Whole (rawChunks Z file n) := by
      by_contra hcut
      have hlt := Utf8.replaced_lt_of_not_whole hcut hflat
      omega
    rw [hwhole.flatMap_decode hflat] at hcounts
    exact ⟨hwhole, hoffsets.mp hcounts⟩
  · rintro ⟨hwhole, hsingle⟩
    rw [hwhole.flatMap_decode hflat]
    exact ⟨rfl, hoffsets.mpr hsingle⟩

theorem games_located (hn : 0 < n) (hfile : file.content Z = Utf8.encode t) :
    numbered ((located [] t).map Prod.snd) = Streaming.iterPgnGames Z file n := by
  rw [snd_located, Streaming.iterPgnGames_eq hn, hfile, Utf8.decode_encode]

/-- The games of the plain splitter stand in the text where they are located, and the
offset-aware splitter gives the same games with these places in bytes exactly where no chunk
ends within a character and no character of several bytes has a boundary behind it. -/
theorem offsets_agree_iff (Z : Zstd) (file : PgnFile) (n : ℕ) (t : Text) (hn : 0 < n)
    (hfile : file.content Z = Utf8.encode t) :
    (numbered ((located [] t).map Prod.snd) = Streaming.iterPgnGames Z file n ∧
      ∀ e ∈ located [] t, e.1 ++ e.2 <+: t) ∧
    (Agrees Z file n t ↔ Utf8.Whole (rawChunks Z file n) ∧
      ∀ a c b, t = a ++ c :: b → 1 < c.utf8Size → ¬ boundary <:+: b) :=
  ⟨⟨games_located hn hfile, fun _ => located_prefix⟩, agrees_iff hn hfile⟩

/-- Two games, the first of them played in Zürich. -/
def zurich : Text := "[Site \"Zürich\"]\n\n1. e4 *\n\n[Site \"Basel\"]\n\n1. d4 *\n".toList

def basel : Text := "[Site \"Basel\"]\n\n1. e4 *\n\n[Site \"Bern\"]\n\n1. d4 *\n".toList

/-- Two games that are read in two chunks. -/
theorem offsets_agree_iff_basel :
    Agrees Streaming.noZstd ⟨false, Utf8.encode basel⟩ 30 basel ∧
      numbered ((located [] basel).map Prod.snd) =
        Streaming.iterPgnGames Streaming.noZstd ⟨false, Utf8.encode basel⟩ 30 := by
  have hchunks : rawChunks Streaming.noZstd ⟨false, Utf8.encode basel⟩ 30 =
      [Utf8.encode (basel.take 30), Utf8.encode (basel.drop 30)] := by decide +kernel
  obtain ⟨⟨hgames, -⟩, hiff⟩ := offsets_agree_iff Streaming.noZstd ⟨false, Utf8.encode basel⟩ 30
    basel (by decide) rfl
  refine ⟨hiff.mpr ⟨fun xs hxs => ?_, fun a c b hsplit hsize => ?_⟩, hgames⟩
  · rw [hchunks] at hxs
    rcases List.mem_cons.mp hxs with rfl | hxs
    · exact ⟨_, rfl⟩
    · exact ⟨_, List.mem_singleton.mp hxs⟩
  · have hascii : basel.all (fun c => decide (c.utf8Size = 1)) = true := by decide +kernel
    have hc := List.all_eq_true.mp hascii c (by rw [hsplit]; simp)
    rw [of_decide_eq_true hc] at hsize
    exact absurd hsize (lt_irrefl 1)

/-- The second game stands one byte further than it is said to. -/
theorem offsets_in_characters : ¬ ∀ (Z : Zstd) (file : PgnFile) (n : ℕ) (t : Text), 0 < n →
    file.content Z = Utf8.encode t → Agrees Z file n t := by
  intro h
  have hsplit : zurich = "[Site \"Z".toList ++
      'ü' :: "rich\"]\n\n1. e4 *\n\n[Site \"Basel\"]\n\n1. d4 *\n".toList := by decide
  have hagrees := h Streaming.noZstd ⟨false, Utf8.encode zurich⟩ 100 zurich (by decide) rfl
  exact ((agrees_iff (by decide) rfl).mp hagrees).2 _ _ _ hsplit (by decide) (by decide)

end Quarantine
end OpenChess
