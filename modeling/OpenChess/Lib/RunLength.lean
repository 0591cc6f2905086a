import Mathlib.Data.List.Basic
import Mathlib.Tactic

/-!
# Run-length coded rows

A row of optional items is written with one letter for an item and one
character for a maximal run of absent items. Reading refuses adjacent run
characters, so that a row has exactly one written form as long as no run
exceeds the longest one a character can stand for.
-/

namespace RunLength

/-- The readers and writers of a coding, with the facts that make them inverse. -/
structure Code (α : Type*) where
  run : Char → Option ℕ
  item : Char → Option α
  runText : ℕ → List Char
  letter : α → Char
  bound : ℕ
  single : ∀ n, 0 < n → n ≤ bound → ∃ c, runText n = [c]
  run_spec : ∀ c n, run c = some n ↔ 0 < n ∧ n ≤ bound ∧ runText n = [c]
  item_spec : ∀ c a, item c = some a ↔ letter a = c
  letter_not_run : ∀ a, run (letter a) = none

variable {α : Type*} (C : Code α)

/-- Reading, with a flag for a run character just read. -/
def expand : Bool → List Char → Option (List (Option α))
  | _, [] => some []
  | afterRun, c :: rest =>
    match C.run c with
    | some n => if afterRun then none else (expand true rest).map (List.replicate n none ++ ·)
    | none =>
      match C.item c with
      | some a => (expand false rest).map (some a :: ·)
      | none => none

def flush (pending : ℕ) : List Char := if pending = 0 then [] else C.runText pending

/-- Writing, with the number of absent items not yet written. -/
def compress : ℕ → List (Option α) → List Char
  | pending, [] => flush C pending
  | pending, none :: rest => compress (pending + 1) rest
  | pending, some a :: rest => flush C pending ++ C.letter a :: compress 0 rest

variable {C}

theorem Code.item_letter (a : α) : C.item (C.letter a) = some a := (C.item_spec _ _).mpr rfl

theorem expand_letter (afterRun : Bool) (a : α) (t : List Char) :
    expand C afterRun (C.letter a :: t) = (expand C false t).map (some a :: ·) := by
  rw [expand, C.letter_not_run]
  simp [C.item_letter]

theorem exists_run {n : ℕ} (hpos : 0 < n) (hn : n ≤ C.bound) {c : Char}
    (hc : C.runText n = [c]) : C.run c = some n := (C.run_spec c n).mpr ⟨hpos, hn, hc⟩

theorem compress_replicate (n pending : ℕ) (xs : List (Option α)) :
    compress C pending (List.replicate n none ++ xs) = compress C (pending + n) xs := by
  induction n generalizing pending with
  | zero => rfl
  | succ n ih =>
    rw [List.replicate_succ, List.cons_append, compress, ih]
    congr 1
    omega

theorem compress_flush {xs : List (Option α)} (hxs : xs.head? ≠ some none) (pending : ℕ) :
    compress C pending xs = flush C pending ++ compress C 0 xs := by
  cases xs with
  | nil => simp [compress, flush]
  | cons x xs =>
    cases x with
    | none => simp at hxs
    | some a => simp [compress, flush]

theorem expand_afterRun {t : List Char} {xs : List (Option α)}
    (h : expand C true t = some xs) : expand C false t = some xs ∧ xs.head? ≠ some none := by
  cases t with
  | nil =>
    simp only [expand, Option.some.injEq] at h ⊢
    subst h
    simp
  | cons c t =>
    cases hr : C.run c with
    | some n => simp [expand, hr] at h
    | none =>
      cases hi : C.item c with
      | none => simp [expand, hr, hi] at h
      | some a =>
        simp only [expand, hr, hi, Option.map_eq_some_iff] at h ⊢
        obtain ⟨ys, hys, rfl⟩ := h
        exact ⟨⟨ys, hys, rfl⟩, by simp⟩

/-- Writing an expanded text reproduces it. -/
theorem compress_expand {t : List Char} : ∀ {xs : List (Option α)},
    expand C false t = some xs → compress C 0 xs = t := by
  induction t with
  | nil =>
    intro xs h
    simp only [expand, Option.some.injEq] at h
    subst h
    simp [compress, flush]
  | cons c t ih =>
    intro xs h
    cases hr : C.run c with
    | some n =>
      simp only [expand, hr, Bool.false_eq_true, if_false, Option.map_eq_some_iff] at h
      obtain ⟨ys, hys, rfl⟩ := h
      obtain ⟨hys, hhead⟩ := expand_afterRun hys
      obtain ⟨hpos, -, htext⟩ := (C.run_spec c n).mp hr
      rw [compress_replicate, compress_flush hhead, ih hys, zero_add, flush,
        if_neg hpos.ne', htext]
      rfl
    | none =>
      cases hi : C.item c with
      | none => simp [expand, hr, hi] at h
      | some a =>
        simp only [expand, hr, hi, Option.map_eq_some_iff] at h
        obtain ⟨ys, hys, rfl⟩ := h
        rw [compress, ih hys, (C.item_spec c a).mp hi]
        simp [flush]

theorem expand_flush {t : List Char} {xs : List (Option α)} {pending : ℕ}
    (hp : pending ≤ C.bound) (ht : ∀ afterRun, expand C afterRun t = some xs) :
    expand C false (flush C pending ++ t) = some (List.replicate pending none ++ xs) := by
  unfold flush
  split_ifs with h0
  · subst h0
    simpa using ht false
  · obtain ⟨c, hc⟩ := C.single pending (Nat.pos_of_ne_zero h0) hp
    have hrun := exists_run (Nat.pos_of_ne_zero h0) hp hc
    simp [hc, expand, hrun, ht]

/-- Reading a written row gives it back, when no run can exceed the bound. -/
theorem expand_compress (xs : List (Option α)) : ∀ {pending : ℕ},
    pending + xs.length ≤ C.bound →
      expand C false (compress C pending xs) = some (List.replicate pending none ++ xs) := by
  induction xs with
  | nil =>
    intro pending h
    have hnil : ∀ afterRun, expand C afterRun [] = some [] := fun _ => rfl
    simpa [compress] using expand_flush (by simpa using h) hnil
  | cons x xs ih =>
    intro pending h
    rw [List.length_cons] at h
    cases x with
    | none =>
      rw [compress, ih (by omega), List.replicate_succ', List.append_assoc]
      rfl
    | some a =>
      refine expand_flush (by omega) fun afterRun => ?_
      rw [expand_letter, ih (by omega)]
      rfl

/-- A text that can be read holds characters of the two alphabets only. -/
theorem alphabet_of_expand {t : List Char} : ∀ {afterRun : Bool} {xs : List (Option α)},
    expand C afterRun t = some xs → ∀ c ∈ t, C.run c ≠ none ∨ C.item c ≠ none := by
  induction t with
  | nil => simp
  | cons c t ih =>
    intro afterRun xs h c' hc'
    cases hr : C.run c with
    | some n =>
      simp only [expand, hr] at h
      split_ifs at h
      obtain ⟨ys, hys, -⟩ := Option.map_eq_some_iff.mp h
      rcases List.mem_cons.mp hc' with rfl | hc'
      · exact .inl (by simp [hr])
      · exact ih hys c' hc'
    | none =>
      cases hi : C.item c with
      | none => simp [expand, hr, hi] at h
      | some a =>
        simp only [expand, hr, hi] at h
        obtain ⟨ys, hys, -⟩ := Option.map_eq_some_iff.mp h
        rcases List.mem_cons.mp hc' with rfl | hc'
        · exact .inr (by simp [hi])
        · exact ih hys c' hc'

end RunLength
