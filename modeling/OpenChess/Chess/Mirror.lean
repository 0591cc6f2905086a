import OpenChess.Chess.Moves

/-!
# The colour mirror

The mirror reverses the ranks and lets the colours change places. It is its own
inverse, so every relation of the movement layer that it preserves in one
direction is preserved in both.
-/

namespace OpenChess

def Square.mirror (s : Square) : Square := ⟨s.file, s.rank.rev⟩

@[simp] theorem Square.mirror_mirror (s : Square) : s.mirror.mirror = s := by
  simp [Square.mirror]

@[simp] theorem Square.mirror_x (s : Square) : s.mirror.x = s.x := rfl

@[simp] theorem Square.mirror_y (s : Square) : s.mirror.y = 7 - s.y := by
  have hr := s.rank.isLt
  simp only [Square.mirror, Square.y, Fin.val_rev]
  omega

theorem Square.mirror_eq_iff {s t : Square} : s.mirror = t ↔ s = t.mirror := by
  constructor
  · rintro rfl
    simp
  · rintro rfl
    simp

@[simp] theorem Square.mirror_inj {s t : Square} : s.mirror = t.mirror ↔ s = t := by
  rw [Square.mirror_eq_iff, Square.mirror_mirror]

def Piece.mirror (p : Piece) : Piece := ⟨p.color.other, p.kind⟩

@[simp] theorem Piece.mirror_mirror (p : Piece) : p.mirror.mirror = p := by
  simp [Piece.mirror]

@[simp] theorem Piece.mirror_color (p : Piece) : p.mirror.color = p.color.other := rfl

@[simp] theorem Piece.mirror_kind (p : Piece) : p.mirror.kind = p.kind := rfl

@[simp] theorem Piece.mirror_inj {p q : Piece} : p.mirror = q.mirror ↔ p = q := by
  constructor
  · intro h
    rw [← p.mirror_mirror, h, q.mirror_mirror]
  · rintro rfl
    rfl

@[simp] theorem Color.other_inj {c d : Color} : c.other = d.other ↔ c = d := by
  cases c <;> cases d <;> decide

theorem king_mirror (c : Color) : (king c).mirror = king c.other := rfl

@[simp] theorem forward_other (c : Color) : c.other.forward = -c.forward := by cases c <;> rfl

@[simp] theorem startRank_other (c : Color) : c.other.startRank = 7 - c.startRank := by
  cases c <;> decide

@[simp] theorem lastRank_other (c : Color) : c.other.lastRank = 7 - c.lastRank := by
  cases c <;> decide

namespace Placement

def mirror (b : Placement) : Placement := fun s => (b s.mirror).map Piece.mirror

variable {b : Placement} {s : Square} {p : Piece}

@[simp] theorem mirror_mirror (b : Placement) : b.mirror.mirror = b := by
  funext s
  cases h : b s <;> simp [mirror, h]

@[simp] theorem mirror_apply (b : Placement) (s : Square) :
    b.mirror s.mirror = (b s).map Piece.mirror := by simp [mirror]

theorem mirror_eq_none : b.mirror s.mirror = none ↔ b s = none := by simp

theorem mirror_eq_some : b.mirror s.mirror = some p.mirror ↔ b s = some p := by
  cases h : b s <;> simp [h]

theorem get_mirror (b : Placement) (x y : ℤ) :
    b.mirror.get x (7 - y) = (b.get x y).map Piece.mirror := by
  cases h : sqAt x y with
  | none =>
    have hoff : sqAt x (7 - y) = none := by
      rw [sqAt_eq_none] at h ⊢
      omega
    simp [get, h, hoff]
  | some s =>
    obtain ⟨rfl, rfl⟩ := sqAt_eq_some.mp h
    have hs : sqAt s.x (7 - s.y) = some s.mirror := sqAt_eq_some.mpr ⟨rfl, s.mirror_y⟩
    rw [get_of_sqAt hs, get_of_sqAt h, mirror_apply]

end Placement

/-! ### Deltas -/

def turned (d : Delta) : Delta := (d.1, -d.2)

@[simp] theorem turned_turned (d : Delta) : turned (turned d) = d := by simp [turned]

theorem turned_mem_leaps {p : Piece} {d : Delta} (h : d ∈ p.leaps) : turned d ∈ p.mirror.leaps := by
  have hall : ∀ d ∈ p.leaps, turned d ∈ p.mirror.leaps := by
    obtain ⟨c, k⟩ := p
    cases c <;> cases k <;> decide
  exact hall d h

theorem turned_mem_slides {p : Piece} {d : Delta} (h : d ∈ p.slides) :
    turned d ∈ p.mirror.slides := by
  have hall : ∀ d ∈ p.slides, turned d ∈ p.mirror.slides := by
    obtain ⟨c, k⟩ := p
    cases c <;> cases k <;> decide
  exact hall d h

theorem turned_mem_pawnCaptures {c : Color} {d : Delta} (h : d ∈ pawnCaptures c) :
    turned d ∈ pawnCaptures c.other :=
  turned_mem_leaps (p := ⟨c, .pawn⟩) h

theorem turned_sub (s t : Square) :
    (t.mirror.x - s.mirror.x, t.mirror.y - s.mirror.y) = turned (t.x - s.x, t.y - s.y) := by
  simp only [turned, Square.mirror_x, Square.mirror_y, Prod.mk.injEq, true_and]
  ring

/-! ### The relations of the movement layer -/

variable {b : Placement} {p q : Piece} {s t k : Square} {c : Color} {d : Delta}

theorem Ray.mirror (h : Ray b s d t) : Ray b.mirror s.mirror (turned d) t.mirror := by
  obtain ⟨n, hn, hx, hy, hfree⟩ := h
  refine ⟨n, hn, hx, ?_, fun m hm hmn => ?_⟩
  · simp only [Square.mirror_y, hy, turned]
    ring
  · have hturn : s.mirror.y + m * (turned d).2 = 7 - (s.y + m * d.2) := by
      simp only [Square.mirror_y, turned]
      ring
    rw [hturn, Square.mirror_x, turned, Placement.get_mirror, hfree m hm hmn, Option.map_none]

theorem Covers.mirror (h : Covers b p s t) : Covers b.mirror p.mirror s.mirror t.mirror := by
  rcases h with hleap | ⟨d, hd, hray⟩
  · left
    rw [turned_sub]
    exact turned_mem_leaps hleap
  · exact .inr ⟨turned d, turned_mem_slides hd, hray.mirror⟩

theorem Attacked.mirror (h : Attacked b c t) : Attacked b.mirror c.other t.mirror := by
  obtain ⟨s, p, hs, rfl, hcov⟩ := h
  exact ⟨s.mirror, p.mirror, Placement.mirror_eq_some.mpr hs, rfl, hcov.mirror⟩

theorem attacked_mirror : Attacked b.mirror c.other t.mirror ↔ Attacked b c t :=
  ⟨fun h => by simpa using h.mirror, Attacked.mirror⟩

theorem PawnReaches.mirror (h : PawnReaches b c s t) :
    PawnReaches b.mirror c.other s.mirror t.mirror := by
  rcases h with ⟨hx, hy, ht⟩ | ⟨hx, hy, hr, hget, ht⟩ | ⟨hd, q, hq, hne⟩
  · refine .inl ⟨hx, ?_, Placement.mirror_eq_none.mpr ht⟩
    rw [Square.mirror_y, Square.mirror_y, hy, forward_other]
    ring
  · refine .inr (.inl ⟨hx, ?_, ?_, ?_, Placement.mirror_eq_none.mpr ht⟩)
    · rw [Square.mirror_y, Square.mirror_y, hy, forward_other]
      ring
    · rw [Square.mirror_y, hr, startRank_other]
    · have hturn : s.mirror.y + c.other.forward = 7 - (s.y + c.forward) := by
        rw [Square.mirror_y, forward_other]
        ring
      rw [hturn, Square.mirror_x, Placement.get_mirror, hget, Option.map_none]
  · refine .inr (.inr ⟨?_, q.mirror, Placement.mirror_eq_some.mpr hq, ?_⟩)
    · rw [turned_sub]
      exact turned_mem_pawnCaptures hd
    · simpa using hne

theorem Reaches.mirror (h : Reaches b p s t) : Reaches b.mirror p.mirror s.mirror t.mirror := by
  unfold Reaches at h ⊢
  rw [Piece.mirror_kind]
  split_ifs at h ⊢ with hp
  · exact h.mirror
  · refine ⟨h.1.mirror, fun q hq => ?_⟩
    have hq' : b t = some q.mirror := by
      rw [← Placement.mirror_eq_some, Piece.mirror_mirror]
      exact hq
    have hne := h.2 _ hq'
    rw [Piece.mirror_color] at hne ⊢
    intro heq
    exact hne (by rw [heq, Color.other_other])

theorem reaches_mirror : Reaches b.mirror p.mirror s.mirror t.mirror ↔ Reaches b p s t :=
  ⟨fun h => by simpa using h.mirror, Reaches.mirror⟩

theorem KingAt.mirror (h : KingAt b c k) : KingAt b.mirror c.other k.mirror := by
  intro s
  rw [← s.mirror_mirror, ← king_mirror, Placement.mirror_eq_some, h, Square.mirror_inj]

theorem relocate_mirror (b : Placement) (s t : Square) (p : Piece) :
    relocate b.mirror s.mirror t.mirror p.mirror = (relocate b s t p).mirror := by
  funext q
  rw [← q.mirror_mirror, Placement.mirror_apply, relocate_apply, relocate_apply]
  simp only [Square.mirror_inj]
  split_ifs
  · rfl
  · rfl
  · rw [Square.mirror_mirror]
    rfl

end OpenChess
