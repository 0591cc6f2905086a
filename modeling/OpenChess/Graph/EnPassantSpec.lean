import OpenChess.Graph.EnPassant

/-!
# The en-passant runtime's attack test

The test is centred on the attacker: aligned squares, then a walk from the
target towards the attacker. Alignment with a nonzero offset names one unit
direction and a step count, so the test is the coverage relation.
-/

namespace OpenChess
namespace EnPassant

variable {occ : Placement} {s t : Square}

/-- The walk finishes within its fuel and tells whether it met a piece. -/
theorem clear_eq_some {d : Delta} (hd : d.1 ≠ 0 ∨ d.2 ≠ 0) (n : ℕ) : ∀ {fuel : ℕ} {x y : ℤ},
    n < fuel → clear occ d (x + n * d.1, y + n * d.2) fuel (x, y) =
      some (decide (∀ m : ℕ, m < n → occ.get (x + m * d.1) (y + m * d.2) = none)) := by
  induction n with
  | zero =>
    intro fuel x y h
    obtain ⟨fuel, rfl⟩ := Nat.exists_eq_succ_of_ne_zero h.ne'
    simp [clear]
  | succ n ih =>
    intro fuel x y h
    obtain ⟨fuel, rfl⟩ := Nat.exists_eq_succ_of_ne_zero (Nat.ne_zero_of_lt h)
    have hn : (0 : ℤ) < (n + 1 : ℕ) := by omega
    have hne : (x, y) ≠ (x + (n + 1 : ℕ) * d.1, y + (n + 1 : ℕ) * d.2) := by
      simp only [ne_eq, Prod.mk.injEq, left_eq_add, mul_eq_zero, hn.ne', false_or]
      tauto
    rw [clear, if_neg hne]
    have hfirst : occ.get (x + (0 : ℕ) * d.1) (y + (0 : ℕ) * d.2) = occ.get x y := by simp
    split_ifs with hocc
    · refine congrArg some (decide_eq_false fun hall => ?_).symm
      have := hall 0 (Nat.succ_pos n)
      rw [hfirst] at this
      simp [this] at hocc
    · have hshift : ((x + (n + 1 : ℕ) * d.1, y + (n + 1 : ℕ) * d.2) : ℤ × ℤ) =
          (x + d.1 + n * d.1, y + d.2 + n * d.2) := by
        push_cast
        ext <;> ring
      have hstep : ∀ m : ℕ, occ.get (x + d.1 + m * d.1) (y + d.2 + m * d.2) =
          occ.get (x + (m + 1 : ℕ) * d.1) (y + (m + 1 : ℕ) * d.2) := by
        intro m
        push_cast
        congr 1 <;> ring
      rw [hshift, ih (Nat.lt_of_succ_lt_succ h)]
      simp only [hstep, Option.some.injEq, decide_eq_decide]
      constructor
      · intro hall m hm
        cases m with
        | zero => rw [hfirst]; simpa using hocc
        | succ m => exact hall m (Nat.lt_of_succ_lt_succ hm)
      · intro hall m hm
        exact hall (m + 1) (Nat.succ_lt_succ hm)

theorem clear_iff_ray {d : Delta} (hd : d ∈ straight ++ diagonal) {n : ℕ} (hn : 0 < n)
    (hx : s.x = t.x + n * d.1) (hy : s.y = t.y + n * d.2) :
    clear occ d (s.x, s.y) 8 (t.x + d.1, t.y + d.2) = some true ↔ Ray occ t d s := by
  have hlt := ray_length_lt hd hx hy
  obtain ⟨n, rfl⟩ := Nat.exists_eq_succ_of_ne_zero hn.ne'
  have hfin : ((s.x, s.y) : ℤ × ℤ) = (t.x + d.1 + n * d.1, t.y + d.2 + n * d.2) := by
    rw [hx, hy]
    push_cast
    ext <;> ring
  have hcell : ∀ m : ℕ, occ.get (t.x + d.1 + m * d.1) (t.y + d.2 + m * d.2) =
      occ.get (t.x + (m + 1 : ℕ) * d.1) (t.y + (m + 1 : ℕ) * d.2) := by
    intro m
    push_cast
    congr 1 <;> ring
  rw [hfin, clear_eq_some (unit_of_mem hd).2.2 n (by omega), Option.some.injEq, decide_eq_true_eq]
  simp only [hcell]
  constructor
  · intro hall
    refine ⟨n + 1, hn, hx, hy, fun m hm hmn => ?_⟩
    obtain ⟨m, rfl⟩ := Nat.exists_eq_succ_of_ne_zero hm.ne'
    exact hall m (Nat.lt_of_succ_lt_succ hmn)
  · intro hray m hm
    obtain ⟨n', -, hx', hy', hfree⟩ := hray
    have hnn : n' = n + 1 := by
      obtain ⟨h1, h2, h0⟩ := unit_of_mem hd
      push_cast at hx hy
      rcases h1 with h1 | h1 | h1 <;> rcases h2 with h2 | h2 | h2 <;>
        simp only [h1, h2, ne_eq, not_true_eq_false, or_self] at hx hy hx' hy' h0 <;> omega
    exact hfree (m + 1) (Nat.succ_pos m) (by omega)

theorem sign_of_unit {d : Delta} (hd : d ∈ straight ++ diagonal) {n : ℕ} (hn : 0 < n) :
    (((n : ℤ) * d.1).sign, ((n : ℤ) * d.2).sign) = d := by
  obtain ⟨h1, h2, -⟩ := unit_of_mem hd
  have hsign : ((n : ℕ) : ℤ).sign = 1 := Int.sign_eq_one_of_pos (by omega)
  have hunit : ∀ e : ℤ, e = -1 ∨ e = 0 ∨ e = 1 → ((n : ℤ) * e).sign = e := by
    intro e he
    rw [Int.sign_mul, hsign, one_mul]
    rcases he with rfl | rfl | rfl <;> rfl
  exact Prod.ext (hunit _ h1) (hunit _ h2)

/-- `n` steps along a direction of `D` lead from offset zero to `(df, dr)`. -/
def Aligned (D : List Delta) (df dr : ℤ) : Prop :=
  ∃ d ∈ D, ∃ n : ℕ, 0 < n ∧ df = n * d.1 ∧ dr = n * d.2

theorem aligned_straight {df dr : ℤ} :
    Aligned straight df dr ↔ (df = 0 ∨ dr = 0) ∧ (df, dr) ≠ (0, 0) := by
  constructor
  · intro h
    obtain ⟨d, hd, n, hn, rfl, rfl⟩ := h
    simp only [straight, List.mem_cons, List.not_mem_nil, or_false] at hd
    rcases hd with rfl | rfl | rfl | rfl <;> simp [hn.ne']
  · intro h
    obtain ⟨h0 | h0, hne⟩ := h
    · subst h0
      obtain ⟨n, rfl | rfl⟩ := dr.eq_nat_or_neg
      · exact ⟨(0, 1), by decide, n, by simpa [Nat.pos_iff_ne_zero] using hne, by simp, by simp⟩
      · exact ⟨(0, -1), by decide, n, by simpa [Nat.pos_iff_ne_zero] using hne, by simp, by simp⟩
    · subst h0
      obtain ⟨n, rfl | rfl⟩ := df.eq_nat_or_neg
      · exact ⟨(1, 0), by decide, n, by simpa [Nat.pos_iff_ne_zero] using hne, by simp, by simp⟩
      · exact ⟨(-1, 0), by decide, n, by simpa [Nat.pos_iff_ne_zero] using hne, by simp, by simp⟩

theorem aligned_diagonal {df dr : ℤ} :
    Aligned diagonal df dr ↔ |df| = |dr| ∧ (df, dr) ≠ (0, 0) := by
  constructor
  · intro h
    obtain ⟨d, hd, n, hn, rfl, rfl⟩ := h
    simp only [diagonal, List.mem_cons, List.not_mem_nil, or_false] at hd
    rcases hd with rfl | rfl | rfl | rfl <;> simp [hn.ne']
  · intro h
    obtain ⟨habs, hne⟩ := h
    have hpos : ∀ n : ℕ, ((n : ℤ) ≠ 0) → 0 < n := fun n h => by omega
    rcases abs_eq_abs.mp habs with rfl | rfl
    · have hz : df ≠ 0 := by simpa using hne
      obtain ⟨n, rfl | rfl⟩ := df.eq_nat_or_neg
      · exact ⟨(1, 1), by decide, n, hpos n hz, by simp, by simp⟩
      · exact ⟨(-1, -1), by decide, n, hpos n (by simpa using hz), by simp, by simp⟩
    · have hz : dr ≠ 0 := by simpa using hne
      obtain ⟨n, rfl | rfl⟩ := dr.eq_nat_or_neg
      · exact ⟨(-1, 1), by decide, n, hpos n hz, by simp, by simp⟩
      · exact ⟨(1, -1), by decide, n, hpos n (by simpa using hz), by simp, by simp⟩

/-- Alignment and a clear walk, for the directions `D` of an officer. -/
theorem aligned_clear_iff {D : List Delta} (hD : ∀ d ∈ D, d ∈ straight ++ diagonal) :
    (Aligned D (s.x - t.x) (s.y - t.y) ∧
      clear occ ((s.x - t.x).sign, (s.y - t.y).sign) (s.x, s.y) 8
        (t.x + (s.x - t.x).sign, t.y + (s.y - t.y).sign) = some true) ↔
      ∃ d ∈ D, Ray occ t d s := by
  have hdir : ∀ d ∈ D, ∀ n : ℕ, 0 < n → s.x - t.x = n * d.1 → s.y - t.y = n * d.2 →
      ((s.x - t.x).sign, (s.y - t.y).sign) = d := by
    intro d hd n hn hx hy
    rw [hx, hy, sign_of_unit (hD d hd) hn]
  constructor
  · intro h
    obtain ⟨⟨d, hd, n, hn, hx, hy⟩, hclear⟩ := h
    have hsign := hdir d hd n hn hx hy
    have h1 : (s.x - t.x).sign = d.1 := congrArg Prod.fst hsign
    have h2 : (s.y - t.y).sign = d.2 := congrArg Prod.snd hsign
    rw [h1, h2] at hclear
    exact ⟨d, hd, (clear_iff_ray (hD d hd) hn (by linarith) (by linarith)).mp hclear⟩
  · intro h
    obtain ⟨d, hd, hray⟩ := h
    obtain ⟨n, hn, hx, hy, -⟩ := id hray
    have hsign := hdir d hd n hn (by linarith) (by linarith)
    have h1 : (s.x - t.x).sign = d.1 := congrArg Prod.fst hsign
    have h2 : (s.y - t.y).sign = d.2 := congrArg Prod.snd hsign
    rw [h1, h2]
    exact ⟨⟨d, hd, n, hn, by linarith, by linarith⟩,
      (clear_iff_ray (hD d hd) hn hx hy).mpr hray⟩

theorem exists_ray_reverse {b : Placement} {D : List Delta} (hD : ∀ d ∈ D, -d ∈ D) :
    (∃ d ∈ D, Ray b t d s) ↔ ∃ d ∈ D, Ray b s d t := by
  constructor <;> intro h <;> obtain ⟨d, hd, hray⟩ := h
  · exact ⟨-d, hD d hd, hray.reverse⟩
  · exact ⟨-d, hD d hd, hray.reverse⟩

theorem pawn_iff {c : Color} {df dr : ℤ} :
    (dr = (if c = .white then -1 else 1) ∧ |df| = 1) ↔ (-df, -dr) ∈ pawnCaptures c := by
  simp only [pawnCaptures, List.mem_cons, List.not_mem_nil, or_false, Prod.mk.injEq,
    abs_eq (zero_le_one (α := ℤ))]
  cases c <;> simp only [Color.forward, reduceCtorEq, if_true, if_false] <;> omega

theorem exists_neg_mem {D : List Delta} {df dr : ℤ} (h : (-df, -dr) ∈ D) :
    ∃ d ∈ D, df = -d.1 ∧ dr = -d.2 :=
  ⟨_, h, (neg_neg df).symm, (neg_neg dr).symm⟩

theorem knight_iff {df dr : ℤ} : ((|df|, |dr|) = ((1 : ℤ), (2 : ℤ)) ∨
    (|df|, |dr|) = ((2 : ℤ), (1 : ℤ))) ↔ (-df, -dr) ∈ knightLeaps := by
  simp only [Prod.mk.injEq]
  constructor
  · intro h
    rcases h with ⟨hf, hr⟩ | ⟨hf, hr⟩
    · rcases (abs_eq zero_le_one).mp hf with rfl | rfl <;>
        rcases (abs_eq zero_le_two).mp hr with rfl | rfl <;> decide
    · rcases (abs_eq zero_le_two).mp hf with rfl | rfl <;>
        rcases (abs_eq zero_le_one).mp hr with rfl | rfl <;> decide
  · intro h
    obtain ⟨d, hd, rfl, rfl⟩ := exists_neg_mem h
    revert d
    decide

theorem king_iff {df dr : ℤ} : max |df| |dr| = 1 ↔ (-df, -dr) ∈ kingLeaps := by
  constructor
  · intro h
    have hf := abs_le.mp (h ▸ le_max_left |df| |dr|)
    have hr := abs_le.mp (h ▸ le_max_right |df| |dr|)
    have hcases : ∀ e : ℤ, -1 ≤ e ∧ e ≤ 1 → e = -1 ∨ e = 0 ∨ e = 1 := fun e he => by omega
    rcases hcases df hf with rfl | rfl | rfl <;> rcases hcases dr hr with rfl | rfl | rfl <;>
      first | decide | simp at h
  · intro h
    obtain ⟨d, hd, rfl, rfl⟩ := exists_neg_mem h
    revert d
    decide

theorem reaches_iff {p : Piece} : reaches occ t s p = true ↔ Covers occ p s t := by
  have hoff : (t.x - s.x, t.y - s.y) = (-(s.x - t.x), -(s.y - t.y)) := by
    rw [neg_sub, neg_sub]
  have hstraight := @aligned_clear_iff occ s t straight fun d hd => List.mem_append_left _ hd
  have hdiagonal := @aligned_clear_iff occ s t diagonal fun d hd => List.mem_append_right _ hd
  rw [aligned_straight, exists_ray_reverse neg_mem_straight] at hstraight
  rw [aligned_diagonal, exists_ray_reverse neg_mem_diagonal] at hdiagonal
  obtain ⟨c, k⟩ := p
  unfold reaches Covers
  rw [hoff]
  cases k with
  | pawn => simp [Piece.leaps, Piece.slides, pawn_iff]
  | knight =>
    simp only [Piece.leaps, Piece.slides, List.not_mem_nil, false_and, exists_false, or_false,
      decide_eq_true_eq, knight_iff]
  | king =>
    simp only [Piece.leaps, Piece.slides, List.not_mem_nil, false_and, exists_false, or_false,
      decide_eq_true_eq, king_iff]
  | rook =>
    simp only [Piece.leaps, Piece.slides, List.not_mem_nil, false_or]
    rw [← hstraight]
    simp only [reduceCtorEq, or_false, true_and, false_and, Bool.and_eq_true, decide_eq_true_eq,
      beq_iff_eq]
  | bishop =>
    simp only [Piece.leaps, Piece.slides, List.not_mem_nil, false_or]
    rw [← hdiagonal]
    simp only [reduceCtorEq, or_false, false_or, true_and, false_and, Bool.and_eq_true,
      decide_eq_true_eq, beq_iff_eq]
  | queen =>
    have hsplit : (∃ d ∈ straight ++ diagonal, Ray occ s d t) ↔
        (∃ d ∈ straight, Ray occ s d t) ∨ ∃ d ∈ diagonal, Ray occ s d t := by
      simp only [List.mem_append, or_and_right, exists_or]
    simp only [Piece.leaps, Piece.slides, List.not_mem_nil, false_or]
    rw [hsplit, ← hstraight, ← hdiagonal, ← or_and_right, ← or_and_right]
    simp only [reduceCtorEq, or_true, true_and, Bool.and_eq_true, decide_eq_true_eq, beq_iff_eq]

/-- `_attacked` is the attack relation. -/
theorem attacked_iff_attacked {c : Color} : attacked occ t c = true ↔ Attacked occ c t := by
  rw [attacked, List.any_eq_true]
  constructor
  · intro h
    obtain ⟨s, -, hs⟩ := h
    cases hp : occ s with
    | none => simp [hp] at hs
    | some p =>
      simp only [hp, Bool.and_eq_true, decide_eq_true_eq, reaches_iff] at hs
      exact ⟨s, p, hp, hs.1, hs.2⟩
  · intro h
    obtain ⟨s, p, hp, hc, hcov⟩ := h
    refine ⟨s, mem_allSquares s, ?_⟩
    simp only [hp, Bool.and_eq_true, decide_eq_true_eq, reaches_iff]
    exact ⟨hc, hcov⟩

end EnPassant
end OpenChess
