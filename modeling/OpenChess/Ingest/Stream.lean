import OpenChess.Lib.LineText
import OpenChess.Ingest.Movetext

/-!
# Games of a file

Model of `iter_pgn_games` of `ingest/streaming.py` over the decoded pieces of a file.
A game ends before a blank line that a tag follows. The buffer is searched from its
second character on, and where the pieces are cut makes no difference.
-/

namespace OpenChess
namespace Pgn

open LineText

/-- What stands before the first boundary of a text, and the tag block behind it. -/
def cutBoundary : Text → Option (Text × Text)
  | [] => none
  | c :: t =>
    if ['\n', '\n', '['].isPrefixOf (c :: t) then some ([], t.drop 1)
    else (cutBoundary t).map fun r => (c :: r.1, r.2)

/-- `buf.find("\n\n[", 1)`: the game before the boundary, and the new buffer. -/
def nextGame : Text → Option (Text × Text)
  | [] => none
  | c :: t => (cutBoundary t).map fun r => (c :: r.1, r.2)

theorem length_cutBoundary {t : Text} {r : Text × Text} (h : cutBoundary t = some r) :
    r.2.length ≤ t.length := by
  induction t generalizing r with
  | nil => cases h
  | cons c t ih =>
    rw [cutBoundary] at h
    split_ifs at h
    · obtain rfl := Option.some.inj h
      simp
      omega
    · obtain ⟨r', hr', rfl⟩ := Option.map_eq_some_iff.mp h
      exact (ih hr').trans (by simp)

theorem length_nextGame {t : Text} {r : Text × Text} (h : nextGame t = some r) :
    r.2.length < t.length := by
  cases t with
  | nil => cases h
  | cons c t =>
    obtain ⟨r', hr', rfl⟩ := Option.map_eq_some_iff.mp h
    have hle := length_cutBoundary hr'
    exact Nat.lt_succ_of_le hle

def given (game : Text) : List Text :=
  if strip isSpace game = [] then [] else [strip (· == '\n') game]

/-- The inner loop: the games that are complete, and the buffer left. -/
def drain (buf : Text) : List Text × Text :=
  match _ : nextGame buf with
  | none => ([], buf)
  | some (game, rest) => (given game ++ (drain rest).1, (drain rest).2)
termination_by buf.length
decreasing_by all_goals exact length_nextGame ‹_›

/-- The loop over the pieces; `last` is what the decoder gives at the end. -/
def iterFrom (last buf : Text) : List Text → List Text
  | [] => given (buf ++ last)
  | chunk :: chunks => (drain (buf ++ chunk)).1 ++ iterFrom last (drain (buf ++ chunk)).2 chunks

/-- `iter_pgn_games`. -/
def iterPgnGames (chunks : List Text) (last : Text) : List Text := iterFrom last [] chunks

/-! ### The pieces of a file -/

variable {buf t last : Text} {r : Text × Text} {chunks : List Text}

theorem boundary_fits (h : cutBoundary buf = some r) : 3 ≤ buf.length := by
  induction buf generalizing r with
  | nil => cases h
  | cons c buf ih =>
    rw [cutBoundary] at h
    split_ifs at h with hcut
    · exact (List.isPrefixOf_iff_prefix.mp hcut).length_le
    · obtain ⟨r', hr', -⟩ := Option.map_eq_some_iff.mp h
      exact (ih hr').trans (by simp)

theorem cutBoundary_append (h : cutBoundary buf = some r) :
    cutBoundary (buf ++ t) = some (r.1, r.2 ++ t) := by
  induction buf generalizing r with
  | nil => cases h
  | cons c buf ih =>
    have hfits := boundary_fits h
    have hcuts : ['\n', '\n', '['].isPrefixOf (c :: buf ++ t) =
        ['\n', '\n', '['].isPrefixOf (c :: buf) := by
      rw [Bool.eq_iff_iff, List.isPrefixOf_iff_prefix, List.isPrefixOf_iff_prefix]
      exact ⟨fun hp => List.prefix_of_prefix_length_le hp (List.prefix_append _ t) hfits,
        fun hp => hp.trans (List.prefix_append _ t)⟩
    rw [cutBoundary] at h
    rw [List.cons_append] at hcuts
    rw [List.cons_append, cutBoundary, hcuts]
    split_ifs at h ⊢
    · obtain rfl := Option.some.inj h
      rw [List.drop_append_of_le_length (by simp at hfits; omega)]
    · obtain ⟨r', hr', rfl⟩ := Option.map_eq_some_iff.mp h
      rw [ih hr']
      rfl

theorem nextGame_append (h : nextGame buf = some r) :
    nextGame (buf ++ t) = some (r.1, r.2 ++ t) := by
  cases buf with
  | nil => cases h
  | cons c buf =>
    obtain ⟨r', hr', rfl⟩ := Option.map_eq_some_iff.mp h
    rw [List.cons_append, nextGame, cutBoundary_append hr']
    rfl

theorem drain_of_none (h : nextGame buf = none) : drain buf = ([], buf) := by
  rw [drain]
  split
  · rfl
  · next heq =>
    rw [h] at heq
    cases heq

theorem drain_of_some (h : nextGame buf = some r) :
    drain buf = (given r.1 ++ (drain r.2).1, (drain r.2).2) := by
  rw [drain]
  split
  · next heq =>
    rw [h] at heq
    cases heq
  · next heq =>
    rw [h] at heq
    cases heq
    rfl

theorem drain_append (buf t : Text) : drain (buf ++ t) =
    ((drain buf).1 ++ (drain ((drain buf).2 ++ t)).1, (drain ((drain buf).2 ++ t)).2) := by
  induction buf using drain.induct with
  | case1 buf h =>
    rw [drain_of_none h]
    rfl
  | case2 buf game rest h ih =>
    rw [drain_of_some h, drain_of_some (nextGame_append h), ih]
    simp

theorem nextGame_drain (buf : Text) : nextGame (drain buf).2 = none := by
  induction buf using drain.induct with
  | case1 buf h => rwa [drain_of_none h]
  | case2 buf game rest h ih => rwa [drain_of_some h]

theorem iterFrom_eq (hbuf : nextGame buf = none) : iterFrom last buf chunks =
    (drain (buf ++ chunks.flatten)).1 ++ given ((drain (buf ++ chunks.flatten)).2 ++ last) := by
  induction chunks generalizing buf with
  | nil => simp [iterFrom, drain_of_none hbuf]
  | cons chunk chunks ih =>
    have hassoc : buf ++ (chunk :: chunks).flatten = (buf ++ chunk) ++ chunks.flatten := by simp
    rw [iterFrom, ih (nextGame_drain _), hassoc, drain_append (buf ++ chunk), List.append_assoc]

/-- The games depend on the content of the file alone. -/
theorem iterPgnGames_eq (chunks : List Text) (last : Text) : iterPgnGames chunks last =
    (drain chunks.flatten).1 ++ given ((drain chunks.flatten).2 ++ last) :=
  iterFrom_eq rfl

/-- A file of one piece without a boundary is one game. -/
theorem iterPgnGames_single (h : nextGame t = none) : iterPgnGames [t] [] = given t := by
  rw [iterPgnGames_eq, List.flatten_singleton, drain_of_none h, List.append_nil, List.nil_append]

end Pgn
end OpenChess
