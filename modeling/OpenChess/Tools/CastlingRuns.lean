import OpenChess.Agreement.FenClosure

/-!
# Runs of the castling runtime

Every accepted event takes a fixed set of rights, so a run takes the union of
those sets, in whatever order. A castle exchanges two occupied squares with two
empty ones.
-/

namespace OpenChess
namespace CastlingRuntime

open Fen Agreement

variable {s s' s₁ s₂ : State} {e a b : Move} {events more : List Move} {rights : List Right}

/-! ### Canonical texts -/

theorem exists_of_grammarOk {t : Text} (h : grammarOk t = true) :
    ∃ rights, Canonical rights ∧ t = emitRights rights := by
  unfold grammarOk at h
  split_ifs at h with hdash hnil hread hnodup
  · exact ⟨[], by decide, hdash⟩
  · have hletters : t ∈ Set.range (List.map Right.letter) := by
      rw [Set.range_list_map]
      intro c hc
      by_contra hno
      refine hread (List.any_eq_true.mpr ⟨c, hc, ?_⟩)
      rw [beq_iff_eq, Option.eq_none_iff_forall_ne_some]
      intro r hr
      exact hno ⟨r, rightOf?_eq_some.mp hr⟩
    obtain ⟨rights, rfl⟩ := hletters
    have horder := of_decide_eq_true h
    rw [List.filter_map] at horder
    have hcanonical : Canonical rights := by
      refine (List.map_injective_iff.mpr Right.letter_injective) ?_
      refine Eq.trans (congrArg _ (List.filter_congr fun r _ => ?_)) horder
      simp only [Function.comp_apply, List.mem_map_of_injective Right.letter_injective]
    refine ⟨rights, hcanonical, ?_⟩
    rw [emitRights, if_neg (List.map_eq_nil_iff.not.mp hnil)]

/-! ### What an event takes -/

/-- The rights an accepted event takes; a castle takes both of its side. -/
def taken : Move → List Right
  | .castle right => lossKing right.color
  | e => lossOf e

/-- What an accepted castle met and left. -/
theorem castle_eq_ok {held : List Right} {right : Right} (h : castle s held right = .ok s') :
    s.occupied (homeSquares right).king = some (king right.color) ∧
    s.occupied (homeSquares right).rook = some ⟨right.color, .rook⟩ ∧
    (∀ sq ∈ (paths right).emptyRequired, s.occupied sq = none) ∧
    s' = ⟨canonical (without held (lossKing right.color)),
      Function.update (Function.update (Function.update (Function.update s.occupied
        (homeSquares right).king none) (homeSquares right).rook none)
        (paths right).kingTo (some (king right.color)))
        (paths right).rookTo (some ⟨right.color, .rook⟩), s.attacked, s.sideToMove⟩ := by
  unfold castle at h
  dsimp only at h
  split_ifs at h with hside hheld hhome hblocked hcheck
  cases h
  obtain ⟨hking, hrook⟩ := not_or.mp hhome
  refine ⟨not_not.mp hking, not_not.mp hrook, fun sq hsq => ?_, rfl⟩
  by_contra hoccupied
  exact hblocked ⟨sq, hsq, hoccupied⟩

theorem of_apply (h : apply s e = .ok s') : s.Valid ∧ e.Valid ∧ grammarOk s.rights = true := by
  unfold apply at h
  split_ifs at h with hs he hg
  exact ⟨hs, he, by simpa using hg⟩

theorem castle_of_apply {right : Right} (h : apply s (.castle right) = .ok s') :
    castle s (heldRights s.rights) right = .ok s' := by
  unfold apply at h
  split_ifs at h
  exact h

theorem apply_rights (hr : Canonical rights) (hrights : s.rights = emitRights rights)
    (h : apply s e = .ok s') :
    s'.rights = emitRights (rights.filter fun r => decide (r ∉ taken e)) := by
  obtain ⟨hs, he, -⟩ := of_apply h
  cases e with
  | castle right =>
    obtain ⟨-, -, -, rfl⟩ := castle_eq_ok (castle_of_apply h)
    rw [hrights, heldRights_emitRights]
    exact canonical_eq (canonical_filter hr _)
  | kingMove side =>
    rw [apply_loss hs he (by simp) hr hrights] at h
    cases h
    rfl
  | rookMoveFrom sq =>
    rw [apply_loss hs he (by simp) hr hrights] at h
    cases h
    rfl
  | rookCaptureOn sq =>
    rw [apply_loss hs he (by simp) hr hrights] at h
    cases h
    rfl

/-! ### Runs -/

/-- A run of accepted events. The rights are carried from event to event; the
board the caller hands over with the next event may differ. -/
inductive Run (s : State) : List Move → State → Prop
  | nil : Run s [] s
  | event {events : List Move} {e : Move} {s₁ s₂ s' : State} : Run s events s₁ →
      s₂.rights = s₁.rights → apply s₂ e = .ok s' → Run s (events ++ [e]) s'

theorem Run.of_foldlM (h : events.foldlM apply s = .ok s') : Run s events s' := by
  induction events using List.reverseRecOn generalizing s' with
  | nil =>
    cases h
    exact .nil
  | append_singleton events e ih =>
    rw [List.foldlM_append] at h
    cases hrun : events.foldlM apply s with
    | error err => simp [hrun, bind, Except.bind] at h
    | ok s₁ =>
      rw [hrun] at h
      refine .event (ih hrun) rfl ?_
      cases happly : apply s₁ e with
      | error err => simp [happly, bind, Except.bind] at h
      | ok s₂ =>
        simp only [bind, Except.bind, List.foldlM_cons, happly, List.foldlM_nil] at h
        cases h
        rfl

theorem Run.rights_eq (h : Run s events s') (hr : Canonical rights)
    (hrights : s.rights = emitRights rights) :
    s'.rights = emitRights (rights.filter fun r => decide (r ∉ events.flatMap taken)) := by
  induction h with
  | nil => simpa using hrights
  | event hrun hsame happly ih =>
    have hstep := apply_rights (canonical_filter hr _) (hsame.trans ih) happly
    rw [hstep, List.filter_filter]
    simp only [List.flatMap_append, List.flatMap_singleton, List.mem_append, not_or,
      Bool.decide_and, Bool.and_comm]

/-! ### Moving pieces between squares -/

theorem length_squaresOf_comp (b : Placement) (π : Equiv.Perm Square) (p : Piece) :
    (Placement.squaresOf (b ∘ π) p).length = (b.squaresOf p).length := by
  have hperm : ((Placement.squaresOf (b ∘ π) p).map π).Perm (b.squaresOf p) := by
    refine (List.perm_ext_iff_of_nodup ((nodup_squaresOf _ p).map π.injective)
      (nodup_squaresOf b p)).mpr fun sq => ?_
    simp only [List.mem_map, mem_squaresOf, Function.comp_apply]
    constructor
    · rintro ⟨sq', hsq', rfl⟩
      exact hsq'
    · intro hsq
      exact ⟨π.symm sq, by simpa using hsq, by simp⟩
  rw [← hperm.length_eq, List.length_map]

theorem castle_squares (right : Right) :
    [(homeSquares right).king, (homeSquares right).rook, (paths right).kingTo,
      (paths right).rookTo].Nodup ∧
    (paths right).kingTo ∈ (paths right).emptyRequired ∧
    (paths right).rookTo ∈ (paths right).emptyRequired := by
  cases right <;> decide

def castlePerm (right : Right) : Equiv.Perm Square :=
  Equiv.swap (homeSquares right).king (paths right).kingTo *
    Equiv.swap (homeSquares right).rook (paths right).rookTo

theorem update_eq_comp_swap {b : Placement} {k r k' r' : Square} {p q : Piece}
    (hnodup : [k, r, k', r'].Nodup) (hk : b k = some p) (hr : b r = some q) (hk' : b k' = none)
    (hr' : b r' = none) :
    Function.update (Function.update (Function.update (Function.update b k none) r none)
      k' (some p)) r' (some q) = b ∘ (Equiv.swap k k' * Equiv.swap r r') := by
  simp only [List.nodup_cons, List.mem_cons, List.not_mem_nil, or_false, not_or, not_false_eq_true,
    List.nodup_nil, and_true] at hnodup
  obtain ⟨⟨hkr, hkk, hkr'⟩, ⟨hrk, hrr⟩, hkr''⟩ := hnodup
  funext sq
  simp only [Function.comp_apply, Equiv.Perm.mul_apply, Function.update_apply]
  grind

theorem castle_occupied {right : Right} (h : apply s (.castle right) = .ok s') :
    s'.occupied = s.occupied ∘ castlePerm right := by
  obtain ⟨hking, hrook, hempty, rfl⟩ := castle_eq_ok (castle_of_apply h)
  obtain ⟨hnodup, hkt, hrt⟩ := castle_squares right
  exact update_eq_comp_swap hnodup hking hrook (hempty _ hkt) (hempty _ hrt)

/-- What a castle does to the board: the king and its rook leave their home
squares for two empty ones, and every piece stands on it as often as before. -/
structure Castled (right : Right) (before after : Placement) : Prop where
  king : before (homeSquares right).king = some (king right.color)
  rook : before (homeSquares right).rook = some ⟨right.color, .rook⟩
  kingTo : before (paths right).kingTo = none
  rookTo : before (paths right).rookTo = none
  moved : after = before ∘ castlePerm right
  pieces : ∀ p, (after.squaresOf p).length = (before.squaresOf p).length

theorem castled_of_apply {right : Right} (h : apply s (.castle right) = .ok s') :
    Castled right s.occupied s'.occupied := by
  have hmoved := castle_occupied h
  obtain ⟨hking, hrook, hempty, -⟩ := castle_eq_ok (castle_of_apply h)
  obtain ⟨-, hkt, hrt⟩ := castle_squares right
  refine ⟨hking, hrook, hempty _ hkt, hempty _ hrt, hmoved, fun p => ?_⟩
  rw [hmoved, length_squaresOf_comp]

/-! ### Loss events in either order -/

def Move.IsLoss (e : Move) : Prop := ∀ right, e ≠ .castle right

theorem apply_malformed (h : ¬ s.Valid ∨ ¬ e.Valid) : apply s e = .error .malformed := by
  unfold apply
  by_cases hs : s.Valid
  · rw [if_neg (not_not.mpr hs), if_pos (h.resolve_left (not_not.mpr hs))]
  · rw [if_pos hs]

theorem loss_then_loss (hs : s.Valid) (ha : a.Valid) (hb : b.Valid) (hla : a.IsLoss)
    (hlb : b.IsLoss) (hr : Canonical rights) (hrights : s.rights = emitRights rights) :
    (apply s a >>= fun s₁ => apply s₁ b) = .ok { s with
      rights := emitRights (rights.filter fun r => decide (r ∉ lossOf a ∧ r ∉ lossOf b)) } := by
  have hnext := apply_loss (s := { s with
      rights := emitRights (rights.filter fun r => decide (r ∉ lossOf a)) })
    ⟨hs.occupied, hs.attacked, hs.nodup⟩ hb hlb (canonical_filter hr _) rfl
  rw [apply_loss hs ha hla hr hrights]
  refine hnext.trans ?_
  simp only [List.filter_filter, Bool.decide_and, Bool.and_comm]

theorem loss_comm (hg : grammarOk s.rights = true) (ha : a.IsLoss) (hb : b.IsLoss) :
    (apply s a >>= fun s₁ => apply s₁ b) = (apply s b >>= fun s₁ => apply s₁ a) := by
  obtain ⟨rights, hr, hrights⟩ := exists_of_grammarOk hg
  by_cases hs : s.Valid
  · by_cases hva : a.Valid
    · by_cases hvb : b.Valid
      · rw [loss_then_loss hs hva hvb ha hb hr hrights, loss_then_loss hs hvb hva hb ha hr hrights]
        simp only [and_comm]
      · rw [apply_loss hs hva ha hr hrights, apply_malformed (.inr hvb)]
        exact apply_malformed (.inr hvb)
    · rw [apply_malformed (.inr hva)]
      by_cases hvb : b.Valid
      · rw [apply_loss hs hvb hb hr hrights]
        exact (apply_malformed (.inr hva)).symm
      · rw [apply_malformed (.inr hvb)]
        rfl
  · rw [apply_malformed (.inl hs), apply_malformed (.inl hs)]
    rfl

/-- Over every run from canonical rights: the text stays canonical, a right that
is gone stays gone, two loss events commute, and a castle moves exactly the king
and its rook, onto empty squares. -/
theorem castling_rights_over_runs (s : State) (hs : grammarOk s.rights = true) :
    (∀ events s₁, Run s events s₁ → grammarOk s₁.rights = true ∧
      (∀ more s₂, Run s₁ more s₂ → ∀ r ∉ heldRights s₁.rights, r ∉ heldRights s₂.rights) ∧
      ∀ a b : Move, a.IsLoss → b.IsLoss →
        (apply s₁ a >>= fun s₂ => apply s₂ b) = (apply s₁ b >>= fun s₂ => apply s₂ a)) ∧
    ∀ t right t', apply t (.castle right) = .ok t' → Castled right t.occupied t'.occupied := by
  obtain ⟨rights, hr, hrights⟩ := exists_of_grammarOk hs
  refine ⟨fun events s₁ hrun => ?_, fun t right t' h => castled_of_apply h⟩
  have hcanonical := canonical_filter hr fun r => decide (r ∉ events.flatMap taken)
  have hrights₁ := hrun.rights_eq hr hrights
  have hgrammar : grammarOk s₁.rights = true := by
    rw [hrights₁]
    exact grammarOk_emitRights hcanonical
  refine ⟨hgrammar, fun more s₂ hmore r hlost => ?_, fun a b ha hb => loss_comm hgrammar ha hb⟩
  rw [hmore.rights_eq hcanonical hrights₁, heldRights_emitRights]
  rw [hrights₁, heldRights_emitRights] at hlost
  exact fun hheld => hlost (List.mem_of_mem_filter hheld)

/-- Both kings and all four rooks at home, White to move, nothing attacked. -/
def atHome : State where
  rights := "KQkq".toList
  occupied := fun sq =>
    if sq = ⟨4, 0⟩ then some ⟨.white, .king⟩
    else if sq = ⟨0, 0⟩ ∨ sq = ⟨7, 0⟩ then some ⟨.white, .rook⟩
    else if sq = ⟨4, 7⟩ then some ⟨.black, .king⟩
    else if sq = ⟨0, 7⟩ ∨ sq = ⟨7, 7⟩ then some ⟨.black, .rook⟩
    else none
  attacked := []
  sideToMove := .white

theorem castling_rights_over_runs_atHome :
    ∃ s₁, Run atHome [.rookMoveFrom ⟨0, 7⟩, .castle .K] s₁ ∧ grammarOk s₁.rights = true := by
  have hrun : ∃ s₁, [Move.rookMoveFrom ⟨0, 7⟩, .castle .K].foldlM apply atHome = .ok s₁ :=
    ⟨_, rfl⟩
  obtain ⟨s₁, h⟩ := hrun
  have hall := (castling_rights_over_runs atHome (by decide)).1 _ s₁ (Run.of_foldlM h)
  exact ⟨s₁, Run.of_foldlM h, hall.1⟩

end CastlingRuntime
end OpenChess
