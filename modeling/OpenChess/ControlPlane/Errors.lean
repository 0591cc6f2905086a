import OpenChess.Graph.Fen
import OpenChess.Lib.Separated
import Mathlib.Data.Bool.AllAny

/-!
# Boards in responses

Model of the leak detector of `server/control_plane_errors.py`: a response text must not
hold the placement of a board. One pass over the segments between slashes finds every
placement, wherever it starts and ends.
-/

namespace OpenChess
namespace Errors

def fenPieces : List Char := "pnbrqkPNBRQK".toList

def fenDigits : List Char := "12345678".toList

/-- The loop of `_rank_ok`: the squares covered, with a flag for a digit just read. -/
def rankTotal : ℕ → Bool → Text → Option ℕ
  | total, _, [] => some total
  | total, prevDigit, ch :: rest =>
    if ch ∈ fenPieces then rankTotal (total + 1) false rest
    else if ch ∈ fenDigits ∧ prevDigit = false then rankTotal (total + (ch.toNat - 0x30)) true rest
    else none

/-- `_rank_ok`. -/
def rankOk (rank : Text) : Bool :=
  decide (1 ≤ rank.length) && decide (rank.length ≤ 8) && rankTotal 0 false rank == some 8

/-- A nonempty start of the segment is a rank. -/
def startOk (segment : Text) : Bool :=
  (List.range (min segment.length 8)).any fun n => rankOk (segment.take (n + 1))

/-- A nonempty end of the segment is a rank. -/
def endOk (segment : Text) : Bool :=
  (List.range (min segment.length 8)).any fun n => rankOk (segment.drop (segment.length - (n + 1)))

def badCounts (segments : List Text) : List ℕ :=
  (segments.map rankOk).scanl (fun bad ok => bad + if ok then 0 else 1) 0

/-- `_has_fen_placement`. -/
def hasFenPlacement (text : Text) : Bool :=
  let segments := text.splitOn '/'
  if segments.length < 8 then false
  else
    let starts := segments.map startOk
    let ends := segments.map endOk
    let bad := badCounts segments
    (List.range (segments.length - 7)).any fun i =>
      ends.getD i false && starts.getD (i + 7) false && bad.getD (i + 7) 0 == bad.getD (i + 1) 0

variable {c : Char} {t rank segment : Text} {total i n : ℕ} {prevDigit : Bool} {segments : List Text}

/-! ### Ranks -/

theorem mem_fenPieces : c ∈ fenPieces ↔ ∃ p, pieceOf? c = some p := by
  have hread : ∀ c ∈ fenPieces, ∃ p, pieceOf? c = some p := by
    simp only [← Option.isSome_iff_exists]
    exact List.all_iff_forall_prop.mp (by decide)
  have hletter : ∀ p ∈ allPieces, p.letter ∈ fenPieces := by decide
  constructor
  · exact hread c
  · intro h
    obtain ⟨p, hp⟩ := h
    rw [← pieceOf?_eq_some.mp hp]
    exact hletter p (mem_allPieces p)

theorem runOf?_eq_some_iff : runOf? c = some n ↔ c ∈ fenDigits ∧ n = c.toNat - 0x30 := by
  have hread : ∀ c ∈ fenDigits, runOf? c = some (c.toNat - 0x30) :=
    List.all_iff_forall_prop.mp (by decide)
  have hdigit : ∀ n ∈ emptyRunDigits, Nat.toDigits 10 n = [n.digitChar] ∧
      n.digitChar ∈ fenDigits ∧ n = n.digitChar.toNat - 0x30 := by decide
  constructor
  · intro h
    rw [runOf?, readBack_eq_some Separated.toDigits_injective] at h
    obtain ⟨htext, hmem, hvalue⟩ := hdigit n h.1
    obtain rfl : c = n.digitChar := List.singleton_inj.mp (h.2.symm.trans htext)
    exact ⟨hmem, hvalue⟩
  · intro h
    obtain ⟨hmem, rfl⟩ := h
    exact hread c hmem

theorem runOf?_of_mem_fenPieces (h : c ∈ fenPieces) : runOf? c = none := by
  have hnone : ∀ c ∈ fenPieces, runOf? c = none := List.all_iff_forall_prop.mp (by decide)
  exact hnone c h

theorem rankTotal_eq : rankTotal total prevDigit t =
    (RunLength.expand rankCode prevDigit t).map fun row => total + row.length := by
  have hrun : rankCode.run = runOf? := rfl
  have hitem : rankCode.item = pieceOf? := rfl
  induction t generalizing total prevDigit with
  | nil => simp [rankTotal, RunLength.expand]
  | cons c t ih =>
    rw [rankTotal, RunLength.expand, hrun, hitem]
    by_cases hpiece : c ∈ fenPieces
    · obtain ⟨p, hp⟩ := mem_fenPieces.mp hpiece
      simp only [hpiece, if_true, runOf?_of_mem_fenPieces hpiece, hp, ih, Option.map_map]
      congr 1
      funext row
      simp only [Function.comp_apply, List.length_cons]
      omega
    · rw [if_neg hpiece]
      by_cases hdigit : c ∈ fenDigits
      · have hread : runOf? c = some (c.toNat - 0x30) := runOf?_eq_some_iff.mpr ⟨hdigit, rfl⟩
        cases prevDigit with
        | true => simp [hread]
        | false =>
          simp only [hdigit, hread, and_self, if_true, Bool.false_eq_true, if_false, ih,
            Option.map_map]
          congr 1
          funext row
          simp only [Function.comp_apply, List.length_append, List.length_replicate]
          omega
      · have hrunless : runOf? c = none := by
          rw [Option.eq_none_iff_forall_ne_some]
          exact fun n hn => hdigit (runOf?_eq_some_iff.mp hn).1
        have hpieceless : pieceOf? c = none := by
          rw [Option.eq_none_iff_forall_ne_some]
          exact fun p hp => hpiece (mem_fenPieces.mpr ⟨p, hp⟩)
        simp [hdigit, hrunless, hpieceless]

theorem length_le_of_expand {row : List (Option Piece)}
    (h : RunLength.expand rankCode prevDigit t = some row) : t.length ≤ row.length := by
  induction t generalizing prevDigit row with
  | nil => exact Nat.zero_le _
  | cons c t ih =>
    rw [RunLength.expand] at h
    split at h
    · rename_i n hrun
      split_ifs at h
      obtain ⟨rest, hrest, rfl⟩ := Option.map_eq_some_iff.mp h
      have hlength := ih hrest
      obtain ⟨hpositive, -, -⟩ := (rankCode.run_spec c n).mp hrun
      simp only [List.length_cons, List.length_append, List.length_replicate]
      omega
    · split at h
      · obtain ⟨rest, hrest, rfl⟩ := Option.map_eq_some_iff.mp h
        have hlength := ih hrest
        simp only [List.length_cons]
        omega
      · cases h

theorem rankOk_iff : rankOk rank = true ↔ (Fen.readRank rank).isSome = true := by
  rw [rankOk, rankTotal_eq, Fen.readRank]
  cases hrow : RunLength.expand rankCode false rank with
  | none => simp
  | some row =>
    have hlength := length_le_of_expand hrow
    simp only [Option.map_some, Nat.zero_add, Bool.and_eq_true, decide_eq_true_eq, beq_iff_eq,
      Option.some.injEq]
    by_cases hnil : rank = []
    · simp [hnil]
    · have hpositive := List.length_pos_iff.mpr hnil
      rw [if_neg hnil]
      split_ifs with hcovered
      · simp only [Option.isSome_some, iff_true]
        omega
      · simp [hcovered]

theorem length_of_rankOk (h : rankOk rank = true) : 1 ≤ rank.length ∧ rank.length ≤ 8 := by
  simp only [rankOk, Bool.and_eq_true, decide_eq_true_eq] at h
  exact h.1

theorem slash_of_rankOk (h : rankOk rank = true) : '/' ∉ rank := by
  have hrefused : ∀ {t : Text} {total prevDigit}, '/' ∈ t → rankTotal total prevDigit t = none := by
    intro t
    induction t with
    | nil => intro total prevDigit hmem; cases hmem
    | cons c t ih =>
      intro total prevDigit hmem
      rw [rankTotal]
      rcases List.mem_cons.mp hmem with rfl | hmem
      · have hpiece : '/' ∉ fenPieces := by decide
        have hdigit : '/' ∉ fenDigits := by decide
        simp [hpiece, hdigit]
      · simp [ih hmem]
  intro hmem
  simp [rankOk, hrefused hmem] at h

/-! ### Segments -/

theorem startOk_iff : startOk segment = true ↔ ∃ r, r <+: segment ∧ rankOk r = true := by
  simp only [startOk, List.any_eq_true, List.mem_range]
  constructor
  · intro h
    obtain ⟨n, -, hr⟩ := h
    exact ⟨_, List.take_prefix _ _, hr⟩
  · intro h
    obtain ⟨r, ⟨rest, rfl⟩, hr⟩ := h
    obtain ⟨hpositive, hbound⟩ := length_of_rankOk hr
    have hlength : r.length - 1 + 1 = r.length := by omega
    refine ⟨r.length - 1, ?_, ?_⟩
    · rw [List.length_append]
      omega
    · rwa [hlength, List.take_left]

theorem endOk_iff : endOk segment = true ↔ ∃ r, r <:+ segment ∧ rankOk r = true := by
  simp only [endOk, List.any_eq_true, List.mem_range]
  constructor
  · intro h
    obtain ⟨n, -, hr⟩ := h
    exact ⟨_, List.drop_suffix _ _, hr⟩
  · intro h
    obtain ⟨r, ⟨rest, rfl⟩, hr⟩ := h
    obtain ⟨hpositive, hbound⟩ := length_of_rankOk hr
    have hlength : (rest ++ r).length - (r.length - 1 + 1) = rest.length := by
      rw [List.length_append]
      omega
    refine ⟨r.length - 1, ?_, ?_⟩
    · rw [List.length_append]
      omega
    · rwa [hlength, List.drop_left]

theorem badCounts_getD (h : i ≤ segments.length) :
    (badCounts segments).getD i 0 = (segments.take i).countP fun r => !rankOk r := by
  have hcount : ∀ (oks : List Bool) (n : ℕ),
      oks.foldl (fun bad ok => bad + if ok then 0 else 1) n = n + oks.countP (!·) := by
    intro oks
    induction oks with
    | nil => exact fun n => rfl
    | cons ok oks ih =>
      intro n
      rw [List.foldl_cons, ih, List.countP_cons]
      cases ok with
      | true => rfl
      | false =>
        simp only [Bool.false_eq_true, if_false, Bool.not_false, if_true]
        omega
  have hplace : i ≤ (segments.map rankOk).length := by rwa [List.length_map]
  rw [badCounts, List.getD_eq_getElem?_getD, List.getElem?_scanl, if_pos hplace, Option.getD_some,
    hcount, Nat.zero_add, ← List.map_take, List.countP_map]
  rfl

theorem badCounts_eq_iff (h : i + n ≤ segments.length) :
    (badCounts segments).getD (i + n) 0 = (badCounts segments).getD i 0 ↔
      ∀ r ∈ (segments.drop i).take n, rankOk r = true := by
  rw [badCounts_getD h, badCounts_getD (by omega), List.take_add, List.countP_append,
    Nat.add_eq_left, List.countP_eq_zero]
  simp only [Bool.not_eq_true', Bool.not_eq_false]

theorem getD_map_iff {f : Text → Bool} :
    (segments.map f).getD i false = true ↔ ∃ r, segments[i]? = some r ∧ f r = true := by
  rw [List.getD_eq_getElem?_getD, List.getElem?_map]
  cases segments[i]? <;> simp

theorem hasFenPlacement_iff : hasFenPlacement t = true ↔
    ∃ i, (∃ a, (t.splitOn '/')[i]? = some a ∧ endOk a = true) ∧
      (∃ b, (t.splitOn '/')[i + 7]? = some b ∧ startOk b = true) ∧
      ∀ r ∈ ((t.splitOn '/').drop (i + 1)).take 6, rankOk r = true := by
  unfold hasFenPlacement
  generalize t.splitOn '/' = segments
  have hwindow : ∀ i, i + 7 < segments.length →
      ((badCounts segments).getD (i + 7) 0 = (badCounts segments).getD (i + 1) 0 ↔
        ∀ r ∈ (segments.drop (i + 1)).take 6, rankOk r = true) :=
    fun i h => badCounts_eq_iff (i := i + 1) (n := 6) (by omega)
  simp only
  split_ifs with hshort
  · simp only [false_iff, not_exists, not_and]
    intro i _ hlast
    obtain ⟨b, hb, -⟩ := hlast
    obtain ⟨hbound, -⟩ := List.getElem?_eq_some_iff.mp hb
    omega
  · simp only [List.any_eq_true, List.mem_range, Bool.and_eq_true, beq_iff_eq, getD_map_iff]
    refine exists_congr fun i => ?_
    constructor
    · intro h
      obtain ⟨hi, ⟨hend, hstart⟩, hcount⟩ := h
      exact ⟨hend, hstart, (hwindow i (by omega)).mp hcount⟩
    · intro h
      obtain ⟨hend, ⟨b, hb, hstart⟩, hinner⟩ := h
      obtain ⟨hbound, -⟩ := List.getElem?_eq_some_iff.mp hb
      exact ⟨by omega, ⟨hend, b, hb, hstart⟩, (hwindow i hbound).mpr hinner⟩

/-- The detector finds a placement exactly if a stretch of the text is eight ranks of the
placement grammar between slashes. -/
theorem leak_detector_exact (text : Text) : hasFenPlacement text = true ↔
    ∃ before ranks after, text = before ++ ['/'].intercalate ranks ++ after ∧
      ranks.length = 8 ∧ ∀ rank ∈ ranks, (Fen.readRank rank).isSome = true := by
  simp only [← rankOk_iff]
  rw [SplitWindow.exists_stretch_iff (n := 6) fun _ h => slash_of_rankOk h, hasFenPlacement_iff]
  simp only [← startOk_iff, ← endOk_iff]
  exact SplitWindow.exists_window_iff

example : hasFenPlacement "x8/8/8/8/8/8/8/p6pq".toList = true := by decide

end Errors
end OpenChess
