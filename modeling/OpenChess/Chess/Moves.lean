import OpenChess.Chess.Attack

/-!
# Pseudo-legal movement

What a piece may do when only the occupancy counts, and what playing it does to
the placement. King safety is a filter applied on top by the runtimes. An
occupied destination is always a covered square, so a king that stands
unattacked is never captured.
-/

namespace OpenChess

/-- Rank index a side's pawns may advance two squares from. -/
def Color.startRank : Color → ℤ
  | .white => 1
  | .black => 6

/-- Rank index a side's pawns promote on. -/
def Color.lastRank : Color → ℤ
  | .white => 7
  | .black => 0

/-- A pawn advance over empty squares, or a capture along an own capture delta. -/
def PawnReaches (b : Placement) (c : Color) (s t : Square) : Prop :=
  (t.x = s.x ∧ t.y = s.y + c.forward ∧ b t = none) ∨
  (t.x = s.x ∧ t.y = s.y + 2 * c.forward ∧ s.y = c.startRank ∧
    b.get s.x (s.y + c.forward) = none ∧ b t = none) ∨
  ((t.x - s.x, t.y - s.y) ∈ pawnCaptures c ∧ ∃ q, b t = some q ∧ q.color ≠ c)

/-- The advances among them: one step, or two from the start rank. -/
def PawnAdvances (b : Placement) (c : Color) (s t : Square) : Prop :=
  (t.x = s.x ∧ t.y = s.y + c.forward ∧ b t = none) ∨
  (t.x = s.x ∧ t.y = s.y + 2 * c.forward ∧ s.y = c.startRank ∧
    b.get s.x (s.y + c.forward) = none ∧ b t = none)

theorem pawnReaches_iff {b : Placement} {c : Color} {s t : Square} :
    PawnReaches b c s t ↔ PawnAdvances b c s t ∨
      ((t.x - s.x, t.y - s.y) ∈ pawnCaptures c ∧ ∃ q, b t = some q ∧ q.color ≠ c) :=
  or_assoc.symm

theorem PawnAdvances.empty {b : Placement} {c : Color} {s t : Square}
    (h : PawnAdvances b c s t) : b t = none := by
  rcases h with h | h
  · exact h.2.2
  · exact h.2.2.2.2

/-- On an eight-file board only the double step moves a pawn by sixteen indices. -/
theorem PawnReaches.double {b : Placement} {c : Color} {s t : Square} (h : PawnReaches b c s t)
    (hstep : 8 * (t.y - s.y) + (t.x - s.x) = 16 ∨ 8 * (t.y - s.y) + (t.x - s.x) = -16) :
    t.x = s.x ∧ t.y = s.y + 2 * c.forward ∧ b.get s.x (s.y + c.forward) = none := by
  have hdir : c.forward = 1 ∨ c.forward = -1 := by
    cases c
    · exact .inl rfl
    · exact .inr rfl
  rcases h with ⟨hx, hy, -⟩ | ⟨hx, hy, -, hget, -⟩ | ⟨hd, -⟩
  · omega
  · exact ⟨hx, hy, hget⟩
  · simp only [pawnCaptures, List.mem_cons, List.not_mem_nil, or_false, Prod.mk.injEq] at hd
    omega

/-- No pawn advances where there is no square ahead. -/
theorem not_pawnAdvances {b : Placement} {c : Color} {s : Square}
    (h : sqAt s.x (s.y + c.forward) = none) (t : Square) : ¬ PawnAdvances b c s t := by
  intro hadv
  rcases hadv with ⟨hx, hy, -⟩ | ⟨-, -, hr, -⟩
  · exact not_at_of_sqAt h t ⟨hx, hy⟩
  · refine sqAt_eq_none.mp h ⟨s.bounds.1, ?_⟩
    rw [hr]
    cases c <;> decide

/-- With a square ahead, an advance is onto it or over it. -/
theorem pawnAdvances_iff {b : Placement} {c : Color} {s one : Square}
    (h : sqAt s.x (s.y + c.forward) = some one) (t : Square) :
    PawnAdvances b c s t ↔ b one = none ∧ (t = one ∨
      (s.y = c.startRank ∧ sqAt s.x (s.y + 2 * c.forward) = some t ∧ b t = none)) := by
  have hone := eq_of_sqAt h t
  unfold PawnAdvances
  rw [Placement.get_of_sqAt h, sqAt_eq_some, ← and_assoc, hone]
  constructor
  · intro hadv
    rcases hadv with ⟨rfl, hfree⟩ | ⟨hx, hy, hr, hfree, ht⟩
    · exact ⟨hfree, .inl rfl⟩
    · exact ⟨hfree, .inr ⟨hr, ⟨hx, hy⟩, ht⟩⟩
  · intro hadv
    obtain ⟨hfree, rfl | ⟨hr, ⟨hx, hy⟩, ht⟩⟩ := hadv
    · exact .inl ⟨rfl, hfree⟩
    · exact .inr ⟨hx, hy, hr, hfree, ht⟩

/-- `p` on `s` may move to `t` as far as occupancy is concerned. -/
def Reaches (b : Placement) (p : Piece) (s t : Square) : Prop :=
  if p.kind = .pawn then PawnReaches b p.color s t
  else Covers b p s t ∧ ∀ q, b t = some q → q.color ≠ p.color

def promotionKinds : List Kind := [.queen, .rook, .bishop, .knight]

/-- The promotion members of a move of `p` to `t`: one per kind when a pawn
arrives on its last rank, else none. -/
def promotionsAt (p : Piece) (t : Square) : List (Option Kind) :=
  if p.kind = .pawn ∧ t.y = p.color.lastRank then promotionKinds.map some else [none]

/-- The piece leaves `s`, whatever stood on `t` is removed, and `p` stands there. -/
def relocate (b : Placement) (s t : Square) (p : Piece) : Placement :=
  Function.update (Function.update b s none) t (some p)

theorem relocate_apply {b : Placement} {s t q : Square} {p : Piece} :
    relocate b s t p q = if q = t then some p else if q = s then none else b q := by
  unfold relocate Function.update
  split_ifs <;> simp_all

@[simp] theorem relocate_target {b : Placement} {s t : Square} {p : Piece} :
    relocate b s t p t = some p := by simp [relocate]

theorem relocate_source {b : Placement} {s t : Square} {p : Piece} (h : s ≠ t) :
    relocate b s t p s = none := by simp [relocate_apply, h]

theorem relocate_other {b : Placement} {s t q : Square} {p : Piece} (hs : q ≠ s) (ht : q ≠ t) :
    relocate b s t p q = b q := by simp [relocate_apply, hs, ht]

/-- What a side attacks does not depend on which enemy piece a move puts down,
and an own piece in its place only adds attacks. -/
theorem Attacked.relocate_congr {b : Placement} {c : Color} {s t k : Square} {p q : Piece}
    (hp : p.color ≠ c) (h : Attacked (relocate b s t p) c k) : Attacked (relocate b s t q) c k := by
  refine h.mono (fun r hr => ?_) (fun r p' hr hc => ?_)
  · rw [relocate_apply] at hr ⊢
    split_ifs at hr ⊢ <;> first | rfl | exact hr
  · rw [relocate_apply] at hr ⊢
    split_ifs at hr ⊢ with h1 h2
    · exact absurd (Option.some.inj hr ▸ hc) hp
    · exact hr

theorem forward_ne_zero (c : Color) : c.forward ≠ 0 := by cases c <;> decide

theorem leaps_ne_zero (p : Piece) : ∀ d ∈ p.leaps, d ≠ (0, 0) := by
  obtain ⟨c, k⟩ := p
  cases c <;> cases k <;> decide

theorem Covers.ne {b : Placement} {p : Piece} {s t : Square} (h : Covers b p s t) : s ≠ t := by
  rcases h with h | ⟨d, hd, hray⟩
  · rintro rfl
    exact leaps_ne_zero p _ h (by simp)
  · exact hray.ne (slides_subset p hd)

theorem Reaches.ne {b : Placement} {p : Piece} {s t : Square} (h : Reaches b p s t) : s ≠ t := by
  unfold Reaches at h
  split_ifs at h with hp
  · have hf := forward_ne_zero p.color
    rintro rfl
    rcases h with ⟨-, hy, -⟩ | ⟨-, hy, -⟩ | ⟨hd, -⟩
    · omega
    · omega
    · simp [pawnCaptures] at hd
  · exact h.1.ne

/-- A capture lands on a covered square, also for pawns. -/
theorem Reaches.covers {b : Placement} {p q : Piece} {s t : Square} (h : Reaches b p s t)
    (hq : b t = some q) : Covers b p s t := by
  unfold Reaches at h
  split_ifs at h with hp
  · rcases h with ⟨-, -, he⟩ | ⟨-, -, -, -, he⟩ | ⟨hd, -⟩
    · rw [he] at hq; cases hq
    · rw [he] at hq; cases hq
    · exact .inl (by simpa [Piece.leaps, hp] using hd)
  · exact h.1

theorem Reaches.color_ne {b : Placement} {p q : Piece} {s t : Square} (h : Reaches b p s t)
    (hq : b t = some q) : q.color ≠ p.color := by
  unfold Reaches at h
  split_ifs at h with hp
  · rcases h with ⟨-, -, he⟩ | ⟨-, -, -, -, he⟩ | ⟨-, q', hq', hne⟩
    · rw [he] at hq; cases hq
    · rw [he] at hq; cases hq
    · rw [hq] at hq'; cases hq'; exact hne
  · exact h.2 q hq

/-- A reached piece is attacked by the mover's side. -/
theorem Reaches.attacked {b : Placement} {p q : Piece} {s t : Square} (h : Reaches b p s t)
    (hs : b s = some p) (hq : b t = some q) : Attacked b p.color t :=
  ⟨s, p, hs, rfl, h.covers hq⟩

/-! ### One king per side -/

def Placement.squaresOf (b : Placement) (p : Piece) : List Square :=
  allSquares.filter fun s => b s == some p

@[simp] theorem mem_squaresOf {b : Placement} {p : Piece} {s : Square} :
    s ∈ b.squaresOf p ↔ b s = some p := by simp [Placement.squaresOf]

theorem nodup_squaresOf (b : Placement) (p : Piece) : (b.squaresOf p).Nodup :=
  nodup_allSquares.filter _

def king (c : Color) : Piece := ⟨c, .king⟩

/-- The only king of side `c` stands on `k`. -/
def KingAt (b : Placement) (c : Color) (k : Square) : Prop := ∀ s, b s = some (king c) ↔ s = k

instance (b : Placement) (c : Color) (k : Square) : Decidable (KingAt b c k) :=
  inferInstanceAs (Decidable (∀ s, b s = some (king c) ↔ s = k))

theorem squaresOf_king {b : Placement} {c : Color} {k : Square} (h : KingAt b c k) :
    b.squaresOf (king c) = [k] := by
  have hmem : ∀ s, s ∈ b.squaresOf (king c) ↔ s = k := fun s => mem_squaresOf.trans (h s)
  have hnd := nodup_squaresOf b (king c)
  match hl : b.squaresOf (king c) with
  | [] => rw [hl] at hmem; simpa using hmem k
  | [a] =>
    rw [hl] at hmem
    simpa using hmem a
  | a :: a' :: rest =>
    rw [hl] at hmem hnd
    have ha := (hmem a).mp (by simp)
    have ha' := (hmem a').mp (by simp)
    simp [ha, ha'] at hnd

theorem length_squaresOf_king {b : Placement} {c : Color} :
    (b.squaresOf (king c)).length = 1 ↔ ∃ k, KingAt b c k := by
  constructor
  · intro h
    obtain ⟨k, hk⟩ := List.length_eq_one_iff.mp h
    refine ⟨k, fun s => ?_⟩
    rw [← mem_squaresOf, hk, List.mem_singleton]
  · rintro ⟨k, hk⟩
    rw [squaresOf_king hk]
    rfl

theorem KingAt.apply {b : Placement} {c : Color} {k : Square} (h : KingAt b c k) :
    b k = some (king c) := (h k).mpr rfl

/-- A king of side `c` stands on one square only. -/
theorem KingAt.unique {b : Placement} {c : Color} {k k' : Square} (h : KingAt b c k)
    (h' : KingAt b c k') : k' = k := (h k').mp ((h' k').mpr rfl)

/-- What a move puts on its destination: the mover itself, or an officer. -/
def Placed (p q : Piece) : Prop := q = p ∨ (p.kind ≠ .king ∧ q.kind ≠ .king)

/-- A king stays where it is unless it is the moving piece, as long as no king
is captured. -/
theorem KingAt.relocate {b : Placement} {c : Color} {k s t : Square} {p q : Piece}
    (hk : KingAt b c k) (hs : b s = some p) (hst : s ≠ t) (ht : b t ≠ some (king c))
    (hq : Placed p q) :
    KingAt (relocate b s t q) c (if p = king c then t else k) := by
  have hkt : k ≠ t := by
    rintro rfl
    exact ht hk.apply
  intro r
  rw [relocate_apply]
  by_cases hp : p = king c
  · have hsk : s = k := (hk s).mp (hp ▸ hs)
    have hqk : q = king c := by
      rcases hq with h | ⟨h, -⟩
      · exact h.trans hp
      · exact absurd (by rw [hp]; rfl) h
    subst hsk
    simp only [hp, if_true, hqk]
    split_ifs with h1 h2
    · simp [h1]
    · simp [h1]
    · simp only [h1, iff_false]
      exact fun hr => h2 ((hk r).mp hr)
  · have hsk : s ≠ k := fun h => hp (Option.some.inj (hs.symm.trans (h ▸ hk.apply)))
    have hqk : q ≠ king c := by
      rcases hq with h | ⟨-, h⟩
      · rwa [h]
      · exact fun he => h (by rw [he]; rfl)
    simp only [hp, if_false]
    split_ifs with h1 h2
    · simp only [Option.some.injEq, hqk, false_iff]
      rintro rfl
      exact hkt h1
    · simp only [false_iff]
      rintro rfl
      exact hsk h2.symm
    · exact hk r

end OpenChess
