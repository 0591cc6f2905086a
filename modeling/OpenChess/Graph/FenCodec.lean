import OpenChess.Graph.Fen
import OpenChess.Lib.Separated

/-!
# The FEN codec

Field by field, reading succeeds exactly on the written form of a value the
grammar allows. Together with the position rules this makes parsing and
emitting inverse to each other.
-/

namespace OpenChess
namespace Fen

variable {t : Text}

/-! ### Counters, colour, rights, target -/

theorem readCounter_eq_some {min n : ℕ} :
    readCounter min t = some n ↔
      Nat.toDigits 10 n = t ∧ min ≤ n ∧ t.length ≤ intMaxStrDigits := by
  constructor
  · intro h
    simp only [readCounter] at h
    split_ifs at h with hdigits hlimit hzeros hmin
    cases h
    exact ⟨(not_not.mp hzeros).symm, by omega, by omega⟩
  · intro h
    obtain ⟨rfl, hmin, hlimit⟩ := h
    have hdigits : ¬ (Nat.toDigits 10 n = [] ∨ (Nat.toDigits 10 n).all Char.isDigit = false) := by
      rintro (hnil | hall)
      · exact Nat.toDigits_ne_nil hnil
      · rw [← Bool.not_eq_true, List.all_eq_true] at hall
        exact hall fun c hc => Separated.isDigit_of_mem_toDigits hc
    have hnumber : Nat.ofDigitChars 10 (Nat.toDigits 10 n) 0 = n := Nat.ofDigitChars_ten_toDigits
    simp only [readCounter]
    rw [if_neg hdigits, if_neg (by omega), hnumber, if_neg (not_not.mpr rfl), if_neg (by omega)]

theorem readColor_eq_some {c : Color} : readColor t = some c ↔ [c.letter] = t := by
  unfold readColor
  split
  · simp
  · rename_i hne
    simp only [reduceCtorEq, false_iff]
    rintro rfl
    exact hne _ rfl

theorem Canonical.nodup {rights : List Right} (h : Canonical rights) : rights.Nodup := by
  rw [← h]
  exact List.Nodup.filter _ (by decide)

theorem letter_ne_dash (r : Right) : r.letter ≠ '-' := by cases r <;> decide

theorem mapM_right_eq_some {rights : List Right} :
    t.mapM rightOf? = some rights ↔ rights.map Right.letter = t := by
  have hletter : ∀ c r, rightOf? c = some r ↔ True ∧ r.letter = c := by simp
  rw [Separated.mapM_eq_some_iff hletter]
  simp

theorem readRights_eq_some {rights : List Right} :
    readRights t = some rights ↔ emitRights rights = t ∧ Canonical rights := by
  unfold readRights emitRights
  by_cases hdash : t = ['-']
  · subst hdash
    rw [if_pos rfl, Option.some.injEq]
    constructor
    · rintro rfl
      exact ⟨rfl, rfl⟩
    · intro h
      by_contra hne
      rw [if_neg (fun h => hne h.symm)] at h
      have hmem : '-' ∈ rights.map Right.letter := by rw [h.1]; exact List.mem_singleton.mpr rfl
      obtain ⟨r, -, hr⟩ := List.mem_map.mp hmem
      exact letter_ne_dash r hr
  · rw [if_neg hdash]
    constructor
    · intro h
      split at h
      · cases h
      · rename_i rs hrs
        split_ifs at h with hnil hdup horder
        cases h
        rw [if_neg hnil]
        exact ⟨mapM_right_eq_some.mp hrs, horder⟩
    · intro h
      obtain ⟨hemit, hcanonical⟩ := h
      split_ifs at hemit with hnil
      · exact absurd hemit.symm hdash
      · rw [mapM_right_eq_some.mpr hemit]
        simp only
        rw [if_neg hnil, if_neg (not_not.mpr hcanonical.nodup), if_neg (not_not.mpr hcanonical)]

theorem readEp_eq_some {ep : Option Square} :
    readEp t = some ep ↔ emitEp ep = t ∧ ∀ s, ep = some s → s.rank ∈ epRanks := by
  have hname : ∀ s : Square, s.name ≠ ['-'] := by
    intro s h
    simp [Square.name] at h
  unfold readEp
  by_cases hdash : t = ['-']
  · subst hdash
    rw [if_pos rfl, Option.some.injEq]
    cases ep with
    | none => simp [emitEp]
    | some s => simp [emitEp, hname s]
  · rw [if_neg hdash]
    cases hsq : squareOf? t with
    | none =>
      simp only [reduceCtorEq, false_iff, not_and]
      cases ep with
      | none => exact fun h => absurd h.symm hdash
      | some s =>
        intro h
        rw [squareOf?_eq_some.mpr h] at hsq
        cases hsq
    | some s =>
      have hs := squareOf?_eq_some.mp hsq
      cases ep with
      | none => simpa [emitEp] using fun h : ['-'] = t => hdash h.symm
      | some s' =>
        have hinj : s'.name = t ↔ s = s' := by
          rw [← hs]
          exact ⟨fun h => (Square.name_injective h).symm, fun h => by rw [h]⟩
        simp only [emitEp, hinj, Option.some.injEq, forall_eq']
        split_ifs with hrank
        · simp only [Option.some.injEq]
          constructor
          · rintro rfl
            exact ⟨rfl, hrank⟩
          · exact fun h => h.1
        · simp only [false_iff, not_and]
          rintro rfl
          exact hrank

/-! ### The placement field -/

theorem readRank_eq_some {row : List (Option Piece)} :
    readRank t = some row ↔ row.length = 8 ∧ RunLength.compress rankCode 0 row = t := by
  constructor
  · intro h
    unfold readRank at h
    split_ifs at h
    split at h
    · cases h
    · rename_i row' hrow
      split_ifs at h with hlen
      cases h
      exact ⟨hlen, RunLength.compress_expand hrow⟩
  · intro h
    obtain ⟨hlen, rfl⟩ := h
    have hexpand : RunLength.expand rankCode false (RunLength.compress rankCode 0 row) =
        some row := by
      have hbound : 0 + row.length ≤ rankCode.bound := by rw [hlen]; decide
      simpa using RunLength.expand_compress row hbound
    unfold readRank
    rw [if_neg, hexpand]
    · simp [hlen]
    · intro hnil
      rw [hnil] at hexpand
      cases hexpand
      simp at hlen

/-- Neither separator occurs in a rank text. -/
theorem not_mem_rank {row : List (Option Piece)} (h : row.length = 8) {c : Char}
    (hrun : runOf? c = none) (hitem : pieceOf? c = none) :
    c ∉ RunLength.compress rankCode 0 row := by
  intro hc
  have hread := (readRank_eq_some.mpr ⟨h, rfl⟩ : readRank _ = some row)
  unfold readRank at hread
  split_ifs at hread
  split at hread
  · cases hread
  · rename_i row' hexpand
    rcases RunLength.alphabet_of_expand hexpand c hc with h' | h'
    · exact h' hrun
    · exact h' hitem

def rowsOf (b : Placement) : List (List (Option Piece)) :=
  (List.finRange 8).reverse.map (rankRow b)

theorem length_rankRow (b : Placement) (r : Fin 8) : (rankRow b r).length = 8 := by
  simp [rankRow]

theorem length_of_mem_rowsOf {b : Placement} : ∀ row ∈ rowsOf b, row.length = 8 := by
  intro row hrow
  obtain ⟨r, -, rfl⟩ := List.mem_map.mp hrow
  exact length_rankRow b r

theorem emitPlacement_eq (b : Placement) :
    emitPlacement b = ['/'].intercalate ((rowsOf b).map (RunLength.compress rankCode 0)) := by
  rw [emitPlacement, rowsOf, List.map_map]
  rfl

theorem getElem?_rowsOf (b : Placement) (r : Fin 8) :
    (rowsOf b)[7 - r.val]? = some (rankRow b r) := by
  have h : ∀ r : Fin 8, (List.finRange 8).reverse[7 - r.val]? = some r := by decide
  rw [rowsOf, List.getElem?_map, h, Option.map_some]

theorem getElem?_rankRow (b : Placement) (r f : Fin 8) :
    (rankRow b r)[f.val]? = some (b ⟨f, r⟩) := by
  have h : ∀ f : Fin 8, (List.finRange 8)[f.val]? = some f := by decide
  rw [rankRow, List.getElem?_map, h, Option.map_some]

theorem boardOf_rowsOf (b : Placement) : boardOf (rowsOf b) = b := by
  funext s
  rw [boardOf, getElem?_rowsOf, Option.bind_some, getElem?_rankRow, Option.join_some]

theorem rowsOf_boardOf {rows : List (List (Option Piece))} (h : rows.length = 8)
    (hrows : ∀ row ∈ rows, row.length = 8) : rowsOf (boardOf rows) = rows := by
  refine List.ext_getElem? fun i => ?_
  by_cases hi : i < 8
  · have hrank := getElem?_rowsOf (boardOf rows) ⟨7 - i, by omega⟩
    have hback : 7 - (7 - i) = i := by omega
    simp only [hback] at hrank
    rw [hrank, List.getElem?_eq_getElem (by omega), Option.some.injEq]
    have hwidth := hrows rows[i] (List.getElem_mem _)
    refine List.ext_getElem? fun j => ?_
    by_cases hj : j < 8
    · have hcell := getElem?_rankRow (boardOf rows) ⟨7 - i, by omega⟩ ⟨j, hj⟩
      simp only at hcell
      rw [hcell, List.getElem?_eq_getElem (by omega)]
      simp only [boardOf, hback]
      rw [List.getElem?_eq_getElem (by omega), Option.bind_some,
        List.getElem?_eq_getElem (by omega), Option.join_some]
    · rw [List.getElem?_eq_none (by rw [length_rankRow]; omega), List.getElem?_eq_none (by omega)]
  · rw [List.getElem?_eq_none (by simp [rowsOf]; omega), List.getElem?_eq_none (by omega)]

theorem readPlacement_eq_some {b : Placement} : readPlacement t = some b ↔ emitPlacement b = t := by
  have hranks : ∀ {ls : List Text} {rows}, ls.mapM readRank = some rows ↔
      (∀ row ∈ rows, row.length = 8) ∧ rows.map (RunLength.compress rankCode 0) = ls :=
    fun {ls rows} => Separated.mapM_eq_some_iff fun _ _ => readRank_eq_some
  rw [emitPlacement_eq]
  constructor
  · intro h
    simp only [readPlacement] at h
    split_ifs at h with hlen
    obtain ⟨rows, hrows, rfl⟩ := Option.map_eq_some_iff.mp h
    obtain ⟨hwidth, hmap⟩ := hranks.mp hrows
    have hcount : rows.length = 8 := by
      rw [← List.length_map (f := RunLength.compress rankCode 0), hmap]
      exact not_not.mp hlen
    rw [rowsOf_boardOf hcount hwidth, hmap]
    exact List.intercalate_splitOn '/'
  · rintro rfl
    have hsplit : (['/'].intercalate ((rowsOf b).map (RunLength.compress rankCode 0))).splitOn '/' =
        (rowsOf b).map (RunLength.compress rankCode 0) := by
      refine Separated.splitOn_eq_iff.mpr ⟨by simp [rowsOf], ?_, rfl⟩
      intro l hl
      obtain ⟨row, hrow, rfl⟩ := List.mem_map.mp hl
      exact not_mem_rank (length_of_mem_rowsOf row hrow) (by decide) (by decide)
    unfold readPlacement
    rw [hsplit, if_neg (by simp [rowsOf]), hranks.mpr ⟨length_of_mem_rowsOf, rfl⟩,
      Option.map_some, boardOf_rowsOf]

/-! ### The six fields -/

/-- The grammar's conditions on a position value: canonical rights, a target on
rank 3 or 6, counters a text conversion can hold and a fullmove number from 1. -/
structure WellFormed (p : Position) : Prop where
  rights : Canonical p.rights
  ep : ∀ s, p.ep = some s → s.rank ∈ epRanks
  half : (Nat.toDigits 10 p.half).length ≤ intMaxStrDigits
  full : (Nat.toDigits 10 p.full).length ≤ intMaxStrDigits
  fullPos : 1 ≤ p.full

def fieldsOf (p : Position) : List Text :=
  [emitPlacement p.board, [p.color.letter], emitRights p.rights, emitEp p.ep,
    Nat.toDigits 10 p.half, Nat.toDigits 10 p.full]

theorem emitCounter_eq_some {n : ℕ} :
    emitCounter n = some t ↔
      Nat.toDigits 10 n = t ∧ (Nat.toDigits 10 n).length ≤ intMaxStrDigits := by
  simp only [emitCounter]
  split_ifs with h
  · simp only [false_iff, not_and]
    intro _
    omega
  · simp only [Option.some.injEq, iff_self_and]
    omega

theorem emitFen_eq_some {p : Position} :
    emitFen p = some t ↔ [' '].intercalate (fieldsOf p) = t ∧
      (Nat.toDigits 10 p.half).length ≤ intMaxStrDigits ∧
      (Nat.toDigits 10 p.full).length ≤ intMaxStrDigits := by
  simp only [emitFen, Option.bind_eq_bind, Option.bind_eq_some_iff, emitCounter_eq_some,
    Option.pure_def, Option.some.injEq]
  constructor
  · intro h
    obtain ⟨_, ⟨rfl, hhalf⟩, _, ⟨rfl, hfull⟩, ht⟩ := h
    exact ⟨ht, hhalf, hfull⟩
  · intro h
    exact ⟨_, ⟨rfl, h.2.1⟩, _, ⟨rfl, h.2.2⟩, h.1⟩

theorem emitPlacement_ne_nil (b : Placement) : emitPlacement b ≠ [] := by
  intro h
  have hread := (readPlacement_eq_some.mpr h : readPlacement [] = some b)
  simp [readPlacement] at hread

theorem blank_not_mem_placement (b : Placement) : ' ' ∉ emitPlacement b := by
  intro h
  rw [emitPlacement_eq] at h
  rcases Separated.mem_intercalate h with h | ⟨l, hl, hc⟩
  · exact absurd h (by decide)
  · obtain ⟨row, hrow, rfl⟩ := List.mem_map.mp hl
    exact not_mem_rank (length_of_mem_rowsOf row hrow) (by decide) (by decide) hc

theorem emitRights_field (rights : List Right) :
    emitRights rights ≠ [] ∧ ' ' ∉ emitRights rights := by
  unfold emitRights
  split_ifs with h
  · decide
  · refine ⟨by simpa using h, fun hmem => ?_⟩
    obtain ⟨r, -, hr⟩ := List.mem_map.mp hmem
    cases r <;> exact absurd hr (by decide)

theorem emitEp_field (ep : Option Square) : emitEp ep ≠ [] ∧ ' ' ∉ emitEp ep := by
  have hfile : ∀ f : Fin 8, ' ' ≠ fileChar f := by decide
  have hrank : ∀ r : Fin 8, ' ' ≠ rankChar r := by decide
  cases ep with
  | none => decide
  | some s => simp [emitEp, Square.name, hfile, hrank]

/-- Every written field is nonempty and free of the separator. -/
theorem field_ok (p : Position) : ∀ f ∈ fieldsOf p, f ≠ [] ∧ ' ' ∉ f := by
  have hcolor : ' ' ≠ p.color.letter := by cases p.color <;> decide
  intro f hf
  simp only [fieldsOf, List.mem_cons, List.not_mem_nil, or_false] at hf
  rcases hf with rfl | rfl | rfl | rfl | rfl | rfl
  · exact ⟨emitPlacement_ne_nil _, blank_not_mem_placement _⟩
  · exact ⟨by simp, by simpa using hcolor⟩
  · exact emitRights_field _
  · exact emitEp_field _
  · exact ⟨Nat.toDigits_ne_nil, Separated.notMem_toDigits (by decide) _⟩
  · exact ⟨Nat.toDigits_ne_nil, Separated.notMem_toDigits (by decide) _⟩

theorem splitOn_fields (p : Position) :
    ([' '].intercalate (fieldsOf p)).splitOn ' ' = fieldsOf p :=
  List.splitOn_intercalate ' ' (fun f hf => (field_ok p f hf).2) (by simp [fieldsOf])

/-- Reading the six fields inverts emitting them. -/
theorem readFields_eq_some {p : Position} :
    readFields t = some p ↔ emitFen p = some t ∧ WellFormed p := by
  rw [emitFen_eq_some]
  constructor
  · intro h
    unfold readFields at h
    split at h
    · rename_i placement color castling ep half full hsplit
      split_ifs at h with hempty
      simp only [Option.bind_eq_bind, Option.bind_eq_some_iff, Option.pure_def,
        Option.some.injEq, readPlacement_eq_some, readColor_eq_some, readCounter_eq_some,
        readRights_eq_some, readEp_eq_some] at h
      obtain ⟨b, rfl, c, rfl, m, ⟨rfl, -, hm⟩, n, ⟨rfl, hn1, hn⟩, rs, ⟨rfl, hrs⟩, e, ⟨rfl, he⟩,
        rfl⟩ := h
      refine ⟨⟨?_, hm, hn⟩, ⟨hrs, he, hm, hn, hn1⟩⟩
      change [' '].intercalate [_, _, _, _, _, _] = t
      rw [← hsplit]
      exact List.intercalate_splitOn ' '
    · cases h
  · intro h
    obtain ⟨⟨rfl, -⟩, hwf⟩ := h
    have hempty : [] ∉ fieldsOf p := fun hmem => (field_ok p _ hmem).1 rfl
    unfold readFields
    rw [splitOn_fields]
    simp only [fieldsOf] at hempty ⊢
    rw [if_neg hempty]
    simp only [Option.bind_eq_bind, Option.bind_eq_some_iff, Option.pure_def, Option.some.injEq,
      readPlacement_eq_some, readColor_eq_some, readCounter_eq_some, readRights_eq_some,
      readEp_eq_some]
    exact ⟨_, rfl, _, rfl, _, ⟨rfl, Nat.zero_le _, hwf.half⟩, _, ⟨rfl, hwf.fullPos, hwf.full⟩, _,
      ⟨rfl, hwf.rights⟩, _, ⟨rfl, hwf.ep⟩, rfl⟩

/-! ### Parsing and emitting -/

theorem parseFen_eq_ok {p : Position} :
    parseFen t = .ok p ↔ emitFen p = some t ∧ WellFormed p ∧ LegalPosition p := by
  rw [← and_assoc, ← readFields_eq_some, ← positionOk_iff, parseFen]
  cases readFields t with
  | none => simp
  | some q =>
    simp only [Option.some.injEq]
    split_ifs with hq
    · simp only [Except.ok.injEq]
      constructor
      · rintro rfl
        exact ⟨rfl, hq⟩
      · exact fun h => h.1
    · simp only [false_iff, not_and]
      rintro rfl
      exact hq

theorem emitFen_isSome {p : Position} (h : WellFormed p) : ∃ t, emitFen p = some t :=
  ⟨_, emitFen_eq_some.mpr ⟨rfl, h.half, h.full⟩⟩

/-- Emitting a parsed position reproduces the text, and parsing an emitted legal
position reproduces the position. -/
theorem codec_exact :
    (∀ t p, parseFen t = .ok p → emitFen p = some t) ∧
    (∀ p, WellFormed p → LegalPosition p → ∃ t, emitFen p = some t ∧ parseFen t = .ok p) := by
  refine ⟨fun t p h => (parseFen_eq_ok.mp h).1, fun p hwf hlegal => ?_⟩
  obtain ⟨t, ht⟩ := emitFen_isSome hwf
  exact ⟨t, ht, parseFen_eq_ok.mpr ⟨ht, hwf, hlegal⟩⟩

end Fen
end OpenChess
