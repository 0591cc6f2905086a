import OpenChess.Chess.Board
import OpenChess.Lib.Walk

/-!
# The attack relation

A piece covers a square when a leap of its kind lands there or one of its rays
reaches it over empty squares. The relation is attacker-centred; the
target-centred form below reads it backwards, which is how most runtimes scan.
The occupancy of the covered square is irrelevant, and so is the safety of the
attacker's own king.
-/

namespace OpenChess

abbrev Delta := ℤ × ℤ

def knightLeaps : List Delta :=
  [(1, 2), (2, 1), (-1, 2), (-2, 1), (1, -2), (2, -1), (-1, -2), (-2, -1)]

def straight : List Delta := [(1, 0), (-1, 0), (0, 1), (0, -1)]

def diagonal : List Delta := [(1, 1), (1, -1), (-1, 1), (-1, -1)]

def kingLeaps : List Delta := straight ++ diagonal

/-- Rank step of a side's pawns. -/
def Color.forward : Color → ℤ
  | .white => 1
  | .black => -1

def pawnCaptures (c : Color) : List Delta := [(1, c.forward), (-1, c.forward)]

/-- Squares a piece reaches in one leap, as deltas. -/
def Piece.leaps (p : Piece) : List Delta :=
  match p.kind with
  | .pawn => pawnCaptures p.color
  | .knight => knightLeaps
  | .king => kingLeaps
  | _ => []

/-- Directions a piece slides along. -/
def Piece.slides (p : Piece) : List Delta :=
  match p.kind with
  | .rook => straight
  | .bishop => diagonal
  | .queen => straight ++ diagonal
  | _ => []

/-- Walking from `s` along `d` reaches `t`, every square strictly between empty. -/
def Ray (b : Placement) (s : Square) (d : Delta) (t : Square) : Prop :=
  ∃ n : ℕ, 0 < n ∧ t.x = s.x + n * d.1 ∧ t.y = s.y + n * d.2 ∧
    ∀ m : ℕ, 0 < m → m < n → b.get (s.x + m * d.1) (s.y + m * d.2) = none

/-- The piece `p` standing on `s` covers `t`. -/
def Covers (b : Placement) (p : Piece) (s t : Square) : Prop :=
  (t.x - s.x, t.y - s.y) ∈ p.leaps ∨ ∃ d ∈ p.slides, Ray b s d t

/-- Some piece of side `c` covers `t`. -/
def Attacked (b : Placement) (c : Color) (t : Square) : Prop :=
  ∃ s p, b s = some p ∧ p.color = c ∧ Covers b p s t

/-! ### Unit directions -/

theorem unit_of_mem {d : Delta} (h : d ∈ straight ++ diagonal) :
    (d.1 = -1 ∨ d.1 = 0 ∨ d.1 = 1) ∧ (d.2 = -1 ∨ d.2 = 0 ∨ d.2 = 1) ∧ (d.1 ≠ 0 ∨ d.2 ≠ 0) := by
  simp only [straight, diagonal, List.cons_append, List.nil_append, List.mem_cons,
    List.not_mem_nil, or_false] at h
  rcases h with rfl | rfl | rfl | rfl | rfl | rfl | rfl | rfl <;> decide

theorem slides_subset (p : Piece) {d : Delta} (h : d ∈ p.slides) : d ∈ straight ++ diagonal := by
  obtain ⟨c, k⟩ := p
  cases k <;> simp only [Piece.slides, List.not_mem_nil] at h
  · exact List.mem_append_right _ h
  · exact List.mem_append_left _ h
  · exact h

/-- The squares between two squares of a ray are on the board. -/
theorem exists_between {s t : Square} {d : Delta} (hd : d ∈ straight ++ diagonal) {n m : ℕ}
    (hx : t.x = s.x + n * d.1) (hy : t.y = s.y + n * d.2) (hm : m ≤ n) :
    ∃ q : Square, q.x = s.x + m * d.1 ∧ q.y = s.y + m * d.2 := by
  have hs := s.bounds
  have ht := t.bounds
  have hb : (0 ≤ s.x + m * d.1 ∧ s.x + m * d.1 < 8) ∧
      0 ≤ s.y + m * d.2 ∧ s.y + m * d.2 < 8 := by
    obtain ⟨h1, h2, -⟩ := unit_of_mem hd
    rcases h1 with h1 | h1 | h1 <;> rcases h2 with h2 | h2 | h2 <;>
      simp only [h1, h2] at hx hy ⊢ <;> omega
  obtain ⟨q, hq⟩ : ∃ q, sqAt (s.x + m * d.1) (s.y + m * d.2) = some q := by
    unfold sqAt
    rw [dif_pos hb]
    exact ⟨_, rfl⟩
  exact ⟨q, sqAt_eq_some.mp hq⟩

theorem ray_length_lt {s t : Square} {d : Delta} (hd : d ∈ straight ++ diagonal) {n : ℕ}
    (hx : t.x = s.x + n * d.1) (hy : t.y = s.y + n * d.2) : n < 8 := by
  have hs := s.bounds
  have ht := t.bounds
  obtain ⟨h1, h2, h0⟩ := unit_of_mem hd
  rcases h1 with h1 | h1 | h1 <;> rcases h2 with h2 | h2 | h2 <;>
    simp only [h1, h2, ne_eq, not_true_eq_false, or_self] at hx hy h0 <;> omega

/-- Reading a ray from its other end. -/
theorem Ray.reverse {b : Placement} {s t : Square} {d : Delta} (h : Ray b s d t) :
    Ray b t (-d) s := by
  obtain ⟨n, hn, hx, hy, hfree⟩ := h
  refine ⟨n, hn, by simp [hx], by simp [hy], fun m hm hmn => ?_⟩
  have hcast : ((n - m : ℕ) : ℤ) = n - m := Nat.cast_sub hmn.le
  have hempty := hfree (n - m) (by omega) (by omega)
  rw [hcast] at hempty
  calc b.get (t.x + m * (-d).1) (t.y + m * (-d).2)
      = b.get (s.x + (n - m) * d.1) (s.y + (n - m) * d.2) := by
        rw [hx, hy, Prod.fst_neg, Prod.snd_neg]
        congr 1 <;> ring
    _ = none := hempty

theorem Ray.ne {b : Placement} {s t : Square} {d : Delta} (hd : d ∈ straight ++ diagonal)
    (h : Ray b s d t) : s ≠ t := by
  rintro rfl
  obtain ⟨n, hn, hx, hy, -⟩ := h
  obtain ⟨h1, h2, h0⟩ := unit_of_mem hd
  rcases h1 with h1 | h1 | h1 <;> rcases h2 with h2 | h2 | h2 <;>
    simp only [h1, h2, ne_eq, not_true_eq_false, or_self] at hx hy h0 <;> omega

/-! ### The scanning loop of the runtimes -/

/-- Squares visited by `while on_board: visit; stop at a piece; advance`, starting
one step away from the integer coordinates `(x, y)`. -/
def scan (b : Placement) (d : Delta) (x y : ℤ) : List Square :=
  BoundedWalk.walk (fun p : ℤ × ℤ => sqAt p.1 p.2) (fun q => (b q).isSome)
    (fun p => (p.1 + d.1, p.2 + d.2)) 8 (x + d.1, y + d.2)

theorem iterate_advance (d : Delta) (n : ℕ) (p : ℤ × ℤ) :
    (fun q : ℤ × ℤ => (q.1 + d.1, q.2 + d.2))^[n] p = (p.1 + n * d.1, p.2 + n * d.2) := by
  induction n generalizing p with
  | zero => simp
  | succ n ih =>
    rw [Function.iterate_succ_apply, ih]
    push_cast
    ext <;> ring

/-- The scan visits exactly the squares its direction reaches: eight iterations
always leave the board. -/
theorem mem_scan {b : Placement} {d : Delta} (hd : d ∈ straight ++ diagonal) {s t : Square} :
    t ∈ scan b d s.x s.y ↔ Ray b s d t := by
  rw [scan, BoundedWalk.mem_walk]
  simp only [BoundedWalk.Free, iterate_advance, sqAt_eq_some]
  constructor
  · rintro ⟨n, -, ⟨hx, hy⟩, hfree⟩
    refine ⟨n + 1, Nat.succ_pos n, ?_, ?_, fun m hm hmn => ?_⟩
    · push_cast; linarith
    · push_cast; linarith
    · obtain ⟨q, ⟨hqx, hqy⟩, hq⟩ := hfree (m - 1) (by omega)
      have hcast : ((m - 1 : ℕ) : ℤ) = m - 1 := by omega
      rw [hcast] at hqx hqy
      have : b.get q.x q.y = none := by simpa using hq
      rw [hqx, hqy] at this
      rw [← this]
      congr 1 <;> ring
  · rintro ⟨n, hn, hx, hy, hfree⟩
    have hlt := ray_length_lt hd hx hy
    have hcast : ((n - 1 : ℕ) : ℤ) = n - 1 := by omega
    refine ⟨n - 1, by omega, ⟨?_, ?_⟩, fun m hm => ?_⟩
    · rw [hcast, hx]; ring
    · rw [hcast, hy]; ring
    · obtain ⟨q, hqx, hqy⟩ := exists_between (m := m + 1) hd hx hy (by omega)
      have hempty := hfree (m + 1) (Nat.succ_pos m) (by omega)
      rw [← hqx, ← hqy, Placement.get_xy] at hempty
      push_cast at hqx hqy
      exact ⟨q, ⟨by linarith, by linarith⟩, by simp [hempty]⟩

/-! ### Target-centred form -/

theorem exists_leap {b : Placement} {D : List Delta} {t : Square} {p : Piece} :
    (∃ d ∈ D, b.get (t.x - d.1) (t.y - d.2) = some p) ↔
      ∃ s, b s = some p ∧ (t.x - s.x, t.y - s.y) ∈ D := by
  constructor
  · rintro ⟨d, hd, hget⟩
    obtain ⟨s, hx, hy, hs⟩ := Placement.get_eq_some.mp hget
    refine ⟨s, hs, ?_⟩
    rwa [hx, hy, sub_sub_cancel, sub_sub_cancel]
  · rintro ⟨s, hs, hd⟩
    exact ⟨_, hd, by simpa using hs⟩

theorem exists_leap_symm {b : Placement} {D : List Delta} (hD : ∀ d ∈ D, -d ∈ D) {t : Square}
    {p : Piece} : (∃ d ∈ D, b.get (t.x + d.1) (t.y + d.2) = some p) ↔
      ∃ s, b s = some p ∧ (t.x - s.x, t.y - s.y) ∈ D := by
  rw [← exists_leap]
  constructor
  · rintro ⟨d, hd, h⟩
    exact ⟨-d, hD d hd, by simpa using h⟩
  · rintro ⟨d, hd, h⟩
    exact ⟨-d, hD d hd, by simpa [sub_eq_add_neg] using h⟩

theorem neg_mem_knightLeaps : ∀ d ∈ knightLeaps, -d ∈ knightLeaps := by decide

theorem neg_mem_kingLeaps : ∀ d ∈ kingLeaps, -d ∈ kingLeaps := by decide

theorem neg_mem_straight : ∀ d ∈ straight, -d ∈ straight := by decide

theorem neg_mem_diagonal : ∀ d ∈ diagonal, -d ∈ diagonal := by decide

/-- Some ray leaving `t` along `D` ends on a piece of kind `k` or a queen of side `c`. -/
def SliderOn (b : Placement) (D : List Delta) (c : Color) (k : Kind) (t : Square) : Prop :=
  ∃ d ∈ D, ∃ s, Ray b t d s ∧ (b s = some ⟨c, k⟩ ∨ b s = some ⟨c, .queen⟩)

theorem sliderOn_iff {b : Placement} {D : List Delta} (hD : ∀ d ∈ D, -d ∈ D) {c : Color}
    {k : Kind} {t : Square} : SliderOn b D c k t ↔
      ∃ s, (b s = some ⟨c, k⟩ ∨ b s = some ⟨c, .queen⟩) ∧ ∃ d ∈ D, Ray b s d t := by
  constructor
  · rintro ⟨d, hd, s, hray, hs⟩
    exact ⟨s, hs, -d, hD d hd, hray.reverse⟩
  · rintro ⟨s, hs, d, hd, hray⟩
    exact ⟨-d, hD d hd, s, hray.reverse, hs⟩

/-- The test a target-centred loop makes on a cell: one of a side's given officers. -/
def officer (c : Color) (kinds : List Kind) : Option Piece → Bool
  | none => false
  | some p => decide (p.color = c ∧ p.kind ∈ kinds)

theorem officer_pair {c : Color} {k k' : Kind} {cell : Option Piece} :
    officer c [k, k'] cell = true ↔ cell = some ⟨c, k⟩ ∨ cell = some ⟨c, k'⟩ := by
  rcases cell with _ | ⟨c', kind⟩
  · simp [officer]
  · simp only [officer, List.mem_cons, List.not_mem_nil, or_false, decide_eq_true_eq,
      Option.some.injEq, Piece.mk.injEq]
    tauto

/-- Looking along every direction for the first piece finds the sliders. -/
theorem exists_scan_officer {b : Placement} {D : List Delta}
    (hD : ∀ d ∈ D, d ∈ straight ++ diagonal) {c : Color} {k : Kind} {t : Square} :
    (∃ d ∈ D, ∃ cell ∈ (scan b d t.x t.y).map b, officer c [k, .queen] cell = true) ↔
      SliderOn b D c k t := by
  simp only [List.mem_map, officer_pair, SliderOn]
  constructor
  · rintro ⟨d, hd, _, ⟨s, hs, rfl⟩, hcell⟩
    exact ⟨d, hd, s, (mem_scan (hD d hd)).mp hs, hcell⟩
  · rintro ⟨d, hd, s, hray, hs⟩
    exact ⟨d, hd, _, ⟨s, (mem_scan (hD d hd)).mpr hray, rfl⟩, hs⟩

/-- A pawn of side `c` stands one own capture delta behind `t`. -/
def PawnBehind (b : Placement) (c : Color) (t : Square) : Prop :=
  ∃ d ∈ pawnCaptures c, b.get (t.x - d.1) (t.y - d.2) = some ⟨c, .pawn⟩

/-- A pawn of side `c` stands one own capture delta ahead of `t`. -/
def PawnAhead (b : Placement) (c : Color) (t : Square) : Prop :=
  ∃ d ∈ pawnCaptures c, b.get (t.x + d.1) (t.y + d.2) = some ⟨c, .pawn⟩

/-- Something other than a pawn of side `c` covers `t`, read from `t`. -/
def OfficerAttacked (b : Placement) (c : Color) (t : Square) : Prop :=
  (∃ d ∈ knightLeaps, b.get (t.x + d.1) (t.y + d.2) = some ⟨c, .knight⟩) ∨
  (∃ d ∈ kingLeaps, b.get (t.x + d.1) (t.y + d.2) = some ⟨c, .king⟩) ∨
  SliderOn b straight c .rook t ∨ SliderOn b diagonal c .bishop t

/-- The relation read from the target: pawns one own capture delta behind it,
leapers a delta away, sliders at the far end of a clear ray. -/
theorem attacked_iff {b : Placement} {c : Color} {t : Square} :
    Attacked b c t ↔ PawnBehind b c t ∨ OfficerAttacked b c t := by
  unfold PawnBehind OfficerAttacked
  rw [exists_leap, exists_leap_symm neg_mem_knightLeaps, exists_leap_symm neg_mem_kingLeaps,
    sliderOn_iff neg_mem_straight, sliderOn_iff neg_mem_diagonal]
  constructor
  · rintro ⟨s, ⟨c', k⟩, hs, rfl, hcov⟩
    cases k <;> simp only [Covers, Piece.leaps, Piece.slides, List.not_mem_nil, false_and,
      exists_false, or_false, false_or, List.mem_append] at hcov
    case pawn => exact .inl ⟨s, hs, hcov⟩
    case knight => exact .inr (.inl ⟨s, hs, hcov⟩)
    case bishop => exact .inr (.inr (.inr (.inr ⟨s, .inl hs, hcov⟩)))
    case rook => exact .inr (.inr (.inr (.inl ⟨s, .inl hs, hcov⟩)))
    case queen =>
      obtain ⟨d, hd | hd, hray⟩ := hcov
      · exact .inr (.inr (.inr (.inl ⟨s, .inr hs, d, hd, hray⟩)))
      · exact .inr (.inr (.inr (.inr ⟨s, .inr hs, d, hd, hray⟩)))
    case king => exact .inr (.inr (.inl ⟨s, hs, hcov⟩))
  · rintro (⟨s, hs, h⟩ | ⟨s, hs, h⟩ | ⟨s, hs, h⟩ | ⟨s, hs, h⟩ | ⟨s, hs, h⟩)
    · exact ⟨s, _, hs, rfl, .inl h⟩
    · exact ⟨s, _, hs, rfl, .inl h⟩
    · exact ⟨s, _, hs, rfl, .inl h⟩
    · rcases hs with hs | hs
      · exact ⟨s, _, hs, rfl, .inr h⟩
      · obtain ⟨d, hd, hray⟩ := h
        exact ⟨s, _, hs, rfl, .inr ⟨d, List.mem_append_left _ hd, hray⟩⟩
    · rcases hs with hs | hs
      · exact ⟨s, _, hs, rfl, .inr h⟩
      · obtain ⟨d, hd, hray⟩ := h
        exact ⟨s, _, hs, rfl, .inr ⟨d, List.mem_append_right _ hd, hray⟩⟩

/-! ### Comparing placements -/

/-- Rays see occupancy only. -/
theorem Ray.congr {b b' : Placement} (h : ∀ s, b s = none → b' s = none) {s t : Square}
    {d : Delta} (hray : Ray b s d t) (hd : d ∈ straight ++ diagonal) : Ray b' s d t := by
  obtain ⟨n, hn, hx, hy, hfree⟩ := hray
  refine ⟨n, hn, hx, hy, fun m hm hmn => ?_⟩
  obtain ⟨q, hqx, hqy⟩ := exists_between (m := m) hd hx hy hmn.le
  have hempty := hfree m hm hmn
  rw [← hqx, ← hqy, Placement.get_xy] at hempty ⊢
  exact h q hempty

/-- With the same squares occupied, more pieces of a side attack more. -/
theorem Attacked.mono {b b' : Placement} {c : Color} {t : Square}
    (hempty : ∀ s, b s = none → b' s = none)
    (hpieces : ∀ s p, b s = some p → p.color = c → b' s = some p) (h : Attacked b c t) :
    Attacked b' c t := by
  obtain ⟨s, p, hs, hc, hcov⟩ := h
  refine ⟨s, p, hpieces s p hs hc, hc, ?_⟩
  rcases hcov with hleap | ⟨d, hd, hray⟩
  · exact .inl hleap
  · exact .inr ⟨d, hd, hray.congr hempty (slides_subset p hd)⟩

end OpenChess
