import OpenChess.Graph.Fen

/-!
# Material after a move

A move changes a count of pieces only through the mover, the piece put down and
the piece removed. Captures and promotions keep the material rule of both sides.
-/

namespace OpenChess
namespace Fen

variable {b : Placement} {s t : Square} {p q : Piece} {c : Color}

theorem countP_update {α : Type*} {l : List α} {a : α} (hl : l.Nodup) (ha : a ∈ l)
    {f g : α → Bool} (hfg : ∀ x, x ≠ a → f x = g x) :
    l.countP f + (g a).toNat = l.countP g + (f a).toNat := by
  induction l with
  | nil => cases ha
  | cons x l ih =>
    obtain ⟨hx, hl⟩ := List.nodup_cons.mp hl
    rw [List.countP_cons, List.countP_cons]
    by_cases hxa : x = a
    · subst hxa
      have hrest : l.countP f = l.countP g :=
        List.countP_congr fun y hy => by rw [hfg y fun h => hx (h ▸ hy)]
      rw [hrest]
      cases f x <;> cases g x <;> simp
    · have ha' : a ∈ l := (List.mem_cons.mp ha).resolve_left fun h => hxa h.symm
      have hih := ih hl ha'
      rw [hfg x hxa]
      omega

theorem count_update (b : Placement) (s : Square) (o : Option Piece) (P : Piece → Bool) :
    count (Function.update b s o) P + ((b s).any P).toNat = count b P + (o.any P).toNat := by
  have hcount := countP_update nodup_allSquares (mem_allSquares s)
    (f := fun x => (Function.update b s o x).any P) (g := fun x => (b x).any P)
    fun x hx => by rw [Function.update_of_ne hx]
  rw [Function.update_self] at hcount
  exact hcount

theorem count_relocate (hs : b s = some p) (hst : s ≠ t) (P : Piece → Bool) :
    count (relocate b s t q) P + ((b t).any P).toNat + (P p).toNat =
      count b P + (P q).toNat := by
  have hleave := count_update b s none P
  have harrive := count_update (Function.update b s none) t (some q) P
  rw [Function.update_of_ne hst.symm] at harrive
  rw [hs] at hleave
  simp only [Option.any_some, Option.any_none, Bool.toNat_false] at hleave harrive
  rw [relocate]
  omega

theorem Material.mono {b' : Placement} (h : Material b c)
    (hle : ∀ k, count b' (fun r => r == ⟨c, k⟩) ≤ count b (fun r => r == ⟨c, k⟩))
    (hpieces : count b' (fun r => r.color == c) ≤ count b (fun r => r.color == c)) :
    Material b' c := by
  obtain ⟨hpawns, hall, hexcess⟩ := h
  have hpawn := hle .pawn
  have hqueen := hle .queen
  have hrook := hle .rook
  have hbishop := hle .bishop
  have hknight := hle .knight
  simp only [Material, pawns, excess, startOfficers, List.map_cons, List.map_nil, List.sum_cons,
    List.sum_nil] at hpawns hexcess ⊢
  omega

theorem Material.promote {b' : Placement} {k : Kind} (h : Material b c)
    (hk : k ∈ promotionKinds)
    (hcount : ∀ k', count b' (fun r => r == ⟨c, k'⟩) + (if k' = .pawn then 1 else 0) =
      count b (fun r => r == ⟨c, k'⟩) + (if k' = k then 1 else 0))
    (hpieces : count b' (fun r => r.color == c) = count b (fun r => r.color == c)) :
    Material b' c := by
  obtain ⟨hpawns, hall, hexcess⟩ := h
  have hpawn := hcount .pawn
  have hqueen := hcount .queen
  have hrook := hcount .rook
  have hbishop := hcount .bishop
  have hknight := hcount .knight
  simp only [Material, pawns, excess, startOfficers, List.map_cons, List.map_nil, List.sum_cons,
    List.sum_nil] at hpawns hexcess ⊢
  simp only [promotionKinds, List.mem_cons, List.not_mem_nil, or_false] at hk
  rcases hk with rfl | rfl | rfl | rfl <;>
    simp only [reduceCtorEq, if_true, if_false, add_zero] at hpawn hqueen hrook hbishop hknight <;>
    omega

/-- The piece a move of `p` puts down: `p` itself, or an officer for a pawn. -/
def Arrives (p q : Piece) : Prop :=
  q = p ∨ (p.kind = .pawn ∧ q.color = p.color ∧ q.kind ∈ promotionKinds)

/-- Moves keep the material rule: the mover's side by the promotion budget, the
other side because it can only lose a piece. -/
theorem Material.relocate (h : Material b c) (hs : b s = some p) (hst : s ≠ t)
    (ht : ∀ r, b t = some r → r.color ≠ p.color) (hq : Arrives p q) :
    Material (relocate b s t q) c := by
  have hcolor : q.color = p.color := by
    rcases hq with rfl | hq
    · rfl
    · exact hq.2.1
  by_cases hc : p.color = c
  · have hvictim : ∀ P : Piece → Bool, (∀ r, P r = true → r.color = c) →
        (b t).any P = false := by
      intro P hP
      cases hr : b t with
      | none => rfl
      | some r =>
        rw [Option.any_some, Bool.eq_false_iff]
        exact fun hPr => ht r hr ((hP r hPr).trans hc.symm)
    have hkind : ∀ k r, (r == (⟨c, k⟩ : Piece)) = true → r.color = c := by
      intro k r hr
      rw [beq_iff_eq.mp hr]
    have hpieces : count (OpenChess.relocate b s t q) (fun r => r.color == c) =
        count b (fun r => r.color == c) := by
      have hcount := count_relocate (q := q) hs hst fun r => r.color == c
      rw [hvictim _ fun r hr => beq_iff_eq.mp hr, hcolor] at hcount
      simp only [Bool.toNat_false] at hcount
      omega
    rcases hq with rfl | ⟨hpawn, -, hofficer⟩
    · refine h.mono (fun k => ?_) hpieces.le
      have hcount := count_relocate (q := q) hs hst fun r => r == ⟨c, k⟩
      omega
    · refine h.promote hofficer (fun k => ?_) hpieces
      have hcount := count_relocate (q := q) hs hst fun r => r == ⟨c, k⟩
      rw [hvictim _ (hkind k)] at hcount
      have hp : p = ⟨c, .pawn⟩ := by rw [← hc, ← hpawn]
      have hq : q = ⟨c, q.kind⟩ := by rw [← hc, ← hcolor]
      have hpTest : ((p == (⟨c, k⟩ : Piece)).toNat) = if k = .pawn then 1 else 0 := by
        rw [hp]
        cases k <;> cases c <;> rfl
      have hqTest : ((q == (⟨c, k⟩ : Piece)).toNat) = if k = q.kind then 1 else 0 := by
        rw [hq]
        by_cases hk : k = q.kind
        · simp [hk]
        · simp [hk, Ne.symm hk]
      rw [hpTest, hqTest, Bool.toNat_false] at hcount
      omega
  · have hloss : ∀ P : Piece → Bool, (∀ r, P r = true → r.color = c) →
        count (OpenChess.relocate b s t q) P ≤ count b P := by
      intro P hP
      have hcount := count_relocate (q := q) hs hst P
      have hq : P q = false := by
        rw [Bool.eq_false_iff]
        exact fun hPq => hc (hcolor.symm.trans (hP q hPq))
      rw [hq, Bool.toNat_false] at hcount
      omega
    refine h.mono (fun k => hloss _ fun r hr => ?_) (hloss _ fun r hr => beq_iff_eq.mp hr)
    rw [beq_iff_eq.mp hr]

end Fen
end OpenChess
