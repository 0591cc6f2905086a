import OpenChess.Tools.LegalMovesSpec

/-!
# Exactness of the legal-moves runtime

`legal_moves` enumerates and `apply` tests, with ordered refusals; both are
reduced to one membership condition on candidate moves.
-/

namespace OpenChess
namespace LegalMoves

variable {sq t : Square} {tok : Piece}

/-! ### Enumeration -/

theorem mem_sortedSquares {l : List Square} : t ∈ sortedSquares l ↔ t ∈ l := by
  simp [sortedSquares]

theorem mem_legalMoves {s : State} {m : Move} :
    m ∈ legalMoves s ↔
      (∃ tok, Candidate s m tok) ∧ leavesKingSafe s.occupied m s.sideToMove = true := by
  simp only [legalMoves, List.mem_flatMap, mem_allSquares, true_and]
  constructor
  · rintro ⟨f, hf⟩
    cases htok : s.occupied f with
    | none => simp [htok] at hf
    | some tok =>
      by_cases hown : tok.color = s.sideToMove
      · simp only [htok, hown, ne_eq, not_true_eq_false, if_false, movesFrom, List.mem_flatMap,
          mem_sortedSquares, List.mem_filter, List.mem_map] at hf
        obtain ⟨t, ht, ⟨pr, hpr, rfl⟩, hsafe⟩ := hf
        exact ⟨⟨tok, htok, hown, ht, hpr⟩, hsafe⟩
      · simp [htok, hown] at hf
  · rintro ⟨⟨tok, hsrc, hown, ht, hpr⟩, hsafe⟩
    refine ⟨m.fromSquare, ?_⟩
    simp only [hsrc, hown, ne_eq, not_true_eq_false, if_false, movesFrom, List.mem_flatMap,
      mem_sortedSquares, List.mem_filter, List.mem_map]
    exact ⟨m.toSquare, ht, ⟨m.promotion, hpr, rfl⟩, hsafe⟩

theorem nodup_promotions (tok : Piece) (t : Square) : (promotions tok t).Nodup := by
  unfold promotions
  split_ifs <;> decide

theorem nodup_movesFrom (occ : Placement) (side : Color) (sq : Square) (tok : Piece) :
    (movesFrom occ side sq tok).Nodup := by
  refine List.nodup_flatMap.mpr ⟨fun t _ => ?_, ?_⟩
  · refine List.Nodup.filter _ ((nodup_promotions tok t).map ?_)
    intro a b hab
    exact congrArg Move.promotion hab
  · refine (nodup_allSquares.filter _).imp ?_
    intro t t' hne m hm hm'
    simp only [List.mem_filter, List.mem_map] at hm hm'
    obtain ⟨⟨_, _, rfl⟩, -⟩ := hm
    obtain ⟨⟨_, _, heq⟩, -⟩ := hm'
    exact hne (congrArg Move.toSquare heq).symm

theorem nodup_legalMoves (s : State) : (legalMoves s).Nodup := by
  have hfrom : ∀ sq tok m, m ∈ movesFrom s.occupied s.sideToMove sq tok → m.fromSquare = sq := by
    intro sq tok m hm
    simp only [movesFrom, List.mem_flatMap, List.mem_filter, List.mem_map] at hm
    obtain ⟨_, _, ⟨_, _, rfl⟩, _⟩ := hm
    rfl
  refine List.nodup_flatMap.mpr ⟨fun sq _ => ?_, ?_⟩
  · split
    · exact List.nodup_nil
    · split_ifs
      · exact List.nodup_nil
      · exact nodup_movesFrom _ _ _ _
  · refine nodup_allSquares.imp ?_
    intro a b hne m hm hm'
    simp only at hm hm'
    split at hm
    · cases hm
    · split at hm'
      · cases hm'
      · split_ifs at hm hm'
        · cases hm
        · cases hm
        · cases hm'
        · exact hne ((hfrom a _ m hm).symm.trans (hfrom b _ m hm'))

/-! ### The move shape -/

theorem key_ne : key "from_square" ≠ key "to_square" ∧ key "from_square" ≠ key "promotion" ∧
    key "to_square" ≠ key "promotion" := by
  unfold key
  decide

theorem grammarOk_eq_some {member : Option Member} :
    grammarOk member = some sq ↔ member = some (.scalar (.str sq.name)) := by
  simp only [grammarOk, Option.bind_eq_some_iff, Member.text?_eq_some, squareOf?_eq_some]
  constructor
  · rintro ⟨_, ⟨_, rfl, rfl⟩, rfl⟩
    rfl
  · rintro rfl
    exact ⟨_, ⟨_, rfl, rfl⟩, rfl⟩

theorem lookup_squares (a b : Member) (k : Scalar) :
    (((∅ : PyDict Member).insert (key "from_square") a).insert (key "to_square") b).lookup k =
      if k = key "to_square" then some b else if k = key "from_square" then some a else none := by
  by_cases hto : k = key "to_square"
  · rw [if_pos hto, hto, Finmap.lookup_insert]
  · rw [if_neg hto, Finmap.lookup_insert_of_ne _ hto]
    by_cases hfrom : k = key "from_square"
    · rw [if_pos hfrom, hfrom, Finmap.lookup_insert]
    · rw [if_neg hfrom, Finmap.lookup_insert_of_ne _ hfrom, Finmap.lookup_empty]

/-- The members of `moveObject`, key by key. -/
theorem lookup_moveObject {fr dest : Square} {pr : Option Text} {members : PyDict Member} :
    moveObject fr dest pr = .mapping members ↔
      members.lookup (key "from_square") = some (.scalar (.str fr.name)) ∧
      members.lookup (key "to_square") = some (.scalar (.str dest.name)) ∧
      members.lookup (key "promotion") = pr.map (fun t => .scalar (.str t)) ∧
      members.keys ⊆ {key "from_square", key "to_square", key "promotion"} := by
  obtain ⟨hft, hfp, htp⟩ := key_ne
  constructor
  · intro h
    cases pr with
    | none =>
      simp only [moveObject, Object.mapping.injEq] at h
      subst h
      refine ⟨?_, ?_, ?_, ?_⟩
      · rw [Finmap.lookup_insert_of_ne _ hft, Finmap.lookup_insert]
      · rw [Finmap.lookup_insert]
      · rw [Finmap.lookup_insert_of_ne _ htp.symm, Finmap.lookup_insert_of_ne _ hfp.symm]
        rfl
      · intro k hk
        simp only [Finmap.mem_keys, Finmap.mem_insert, Finmap.notMem_empty, or_false] at hk
        simp only [Finset.mem_insert, Finset.mem_singleton]
        tauto
    | some t =>
      simp only [moveObject, Object.mapping.injEq] at h
      subst h
      refine ⟨?_, ?_, ?_, ?_⟩
      · rw [Finmap.lookup_insert_of_ne _ hfp, Finmap.lookup_insert_of_ne _ hft,
          Finmap.lookup_insert]
      · rw [Finmap.lookup_insert_of_ne _ htp, Finmap.lookup_insert]
      · rw [Finmap.lookup_insert]
        rfl
      · intro k hk
        simp only [Finmap.mem_keys, Finmap.mem_insert, Finmap.notMem_empty, or_false] at hk
        simp only [Finset.mem_insert, Finset.mem_singleton]
        tauto
  · rintro ⟨hf, ht, hp, hkeys⟩
    have hother : ∀ k, k ≠ key "from_square" → k ≠ key "to_square" → k ≠ key "promotion" →
        members.lookup k = none := by
      intro k h1 h2 h3
      rw [Finmap.lookup_eq_none, ← Finmap.mem_keys]
      intro hk
      have := hkeys hk
      simp only [Finset.mem_insert, Finset.mem_singleton] at this
      tauto
    cases pr with
    | none =>
      simp only [moveObject, Object.mapping.injEq]
      refine Finmap.ext_lookup fun k => ?_
      rw [lookup_squares]
      split_ifs with h2 h1
      · rw [h2, ht]
      · rw [h1, hf]
      · by_cases h3 : k = key "promotion"
        · rw [h3, hp]
          rfl
        · exact (hother k h1 h2 h3).symm
    | some t =>
      simp only [moveObject, Object.mapping.injEq]
      refine Finmap.ext_lookup fun k => ?_
      by_cases h3 : k = key "promotion"
      · rw [h3, Finmap.lookup_insert, hp]
        rfl
      · rw [Finmap.lookup_insert_of_ne _ h3, lookup_squares]
        split_ifs with h2 h1
        · rw [h2, ht]
        · rw [h1, hf]
        · exact (hother k h1 h2 h3).symm

/-- The shape check accepts exactly the dictionaries of two distinct squares
and an optional promotion text. -/
theorem validateMoveShape_eq_ok {move : Object} {fr dest : Square} {pr : Option Text} :
    validateMoveShape move = .ok (fr, dest, pr) ↔ fr ≠ dest ∧ move = moveObject fr dest pr := by
  cases move with
  | foreign tag =>
    simp only [validateMoveShape, reduceCtorEq, false_iff, not_and]
    cases pr <;> simp [moveObject]
  | mapping members =>
    rw [eq_comm (b := moveObject fr dest pr), lookup_moveObject]
    unfold validateMoveShape
    constructor
    · intro h
      dsimp only at h
      split_ifs at h with hforeign hallowed hrequired
      split at h
      · rename_i f d hf hd
        split_ifs at h with hne
        rw [grammarOk_eq_some] at hf hd
        split at h
        · rename_i hp
          simp only [Except.ok.injEq, Prod.mk.injEq] at h
          obtain ⟨rfl, rfl, rfl⟩ := h
          exact ⟨hne, hf, hd, hp, hallowed⟩
        · rename_i member hp
          split at h
          · cases h
          · rename_i text htext
            simp only [Except.ok.injEq, Prod.mk.injEq] at h
            obtain ⟨rfl, rfl, rfl⟩ := h
            rw [Member.text?_eq_some] at htext
            exact ⟨hne, hf, hd, by rw [hp, htext]; rfl, hallowed⟩
      · cases h
    · rintro ⟨hne, hf, hd, hp, hkeys⟩
      have hforeign : ¬ ∃ k ∈ members.keys, k.text? = none := by
        rintro ⟨k, hk, hnone⟩
        have := hkeys hk
        simp only [Finset.mem_insert, Finset.mem_singleton] at this
        rcases this with rfl | rfl | rfl <;> simp [key, Scalar.text?] at hnone
      have hrequired : ({key "from_square", key "to_square"} : Finset Scalar) ⊆ members.keys := by
        intro k hk
        simp only [Finset.mem_insert, Finset.mem_singleton] at hk
        rcases hk with rfl | rfl
        · exact Finmap.mem_keys.mpr (Finmap.mem_of_lookup_eq_some hf)
        · exact Finmap.mem_keys.mpr (Finmap.mem_of_lookup_eq_some hd)
      have hgf := grammarOk_eq_some.mpr hf
      have hgd := grammarOk_eq_some.mpr hd
      dsimp only
      rw [if_neg hforeign, if_neg (not_not.mpr hkeys), if_neg (not_not.mpr hrequired), hgf, hgd]
      simp only [hne, if_false, hp]
      cases pr <;> simp [Member.text?]

/-! ### The two routes agree -/

theorem promoLetter_injective : Function.Injective promoLetter := by
  intro a b h
  cases a <;> cases b <;> first | rfl | exact absurd h (by decide)

theorem readPromotion_eq_some {text : Option Text} {pr : Option Kind} :
    readPromotion text = some pr ↔
      text = pr.map promoLetter ∧ (pr = none ∨ pr ∈ promoValues.map some) := by
  cases text with
  | none => cases pr <;> simp [readPromotion]
  | some t =>
    cases pr with
    | none => simp [readPromotion]
    | some k =>
      simp only [readPromotion, Option.map_eq_some_iff, Option.some.injEq,
        readBack_eq_some promoLetter_injective, Option.map_some, reduceCtorEq, false_or,
        List.mem_map]
      constructor
      · rintro ⟨k', ⟨hk, rfl⟩, rfl⟩
        exact ⟨rfl, k', hk, rfl⟩
      · rintro ⟨rfl, k', hk, rfl⟩
        exact ⟨k', ⟨hk, rfl⟩, rfl⟩

/-- The three promotion refusals leave exactly the members the enumeration expands to. -/
theorem mem_promotions {pr : Option Kind} :
    pr ∈ promotions tok t ↔ (pr = none ∨ pr ∈ promoValues.map some) ∧
      ¬ (promoting tok t = true ∧ pr = none) ∧ ¬ (promoting tok t = false ∧ pr ≠ none) := by
  unfold promotions
  by_cases hp : promoting tok t = true
  · cases pr <;> simp [hp]
  · cases pr <;> simp [hp]

theorem Move.toObject_injective : Function.Injective Move.toObject := by
  rintro ⟨f, d, pr⟩ ⟨f', d', pr'⟩ h
  obtain ⟨members, hm⟩ : ∃ members, Move.toObject ⟨f, d, pr⟩ = .mapping members := by
    cases pr <;> exact ⟨_, rfl⟩
  obtain ⟨hf, hd, hp, -⟩ := lookup_moveObject.mp hm
  obtain ⟨hf', hd', hp', -⟩ := lookup_moveObject.mp (h.symm.trans hm)
  rw [hf, Option.some.injEq, Member.scalar.injEq, Scalar.str.injEq] at hf'
  rw [hd, Option.some.injEq, Member.scalar.injEq, Scalar.str.injEq] at hd'
  have hpr : pr = pr' := by
    rw [hp] at hp'
    have hinj : Function.Injective fun k => Member.scalar (.str (promoLetter k)) := by
      intro a b hab
      simpa using promoLetter_injective (by simpa using hab)
    exact Option.map_injective hinj (by simpa [Function.comp_def] using hp')
  exact Move.mk.injEq .. ▸ ⟨Square.name_injective hf', Square.name_injective hd', hpr⟩

/-- `apply` accepts the dictionaries of legal moves and nothing else, and then
returns the position transition with the side carried through. -/
theorem applyMove_eq_ok {s : ValidState} {move : Object} {s' : State} :
    applyMove s move = .ok s' ↔ ∃ m ∈ legalMoves s.toState, move = m.toObject ∧
      s' = ⟨applyOccupancy s.occupied m, s.sideToMove⟩ := by
  constructor
  · intro h
    unfold applyMove at h
    split at h
    · cases h
    · rename_i fr dest promotion hshape
      obtain ⟨hne, rfl⟩ := validateMoveShape_eq_ok.mp hshape
      split at h
      · cases h
      · rename_i tok htok
        split_ifs at h with hown htarget
        split at h
        · cases h
        · rename_i pr hpr
          obtain ⟨rfl, hvalue⟩ := readPromotion_eq_some.mp hpr
          split_ifs at h with hmissing hforbidden hsafe
          cases h
          have hcand : Candidate s.toState ⟨fr, dest, pr⟩ tok :=
            ⟨htok, not_not.mp hown, htarget,
              mem_promotions.mpr ⟨hvalue, hmissing, hforbidden⟩⟩
          exact ⟨⟨fr, dest, pr⟩, mem_legalMoves.mpr ⟨⟨tok, hcand⟩, hsafe⟩, rfl, rfl⟩
  · rintro ⟨m, hm, rfl, rfl⟩
    obtain ⟨⟨tok, hcand⟩, hsafe⟩ := mem_legalMoves.mp hm
    obtain ⟨hvalue, hmissing, hforbidden⟩ := mem_promotions.mp hcand.promotion
    have hshape : validateMoveShape m.toObject =
        .ok (m.fromSquare, m.toSquare, m.promotion.map promoLetter) :=
      validateMoveShape_eq_ok.mpr ⟨hcand.ne, rfl⟩
    have hread := readPromotion_eq_some.mpr ⟨rfl, hvalue⟩
    unfold applyMove
    rw [hshape]
    simp only [hcand.source, hread]
    rw [if_neg (not_not.mpr hcand.own), if_neg (not_not.mpr hcand.target), if_neg hmissing,
      if_neg hforbidden, if_pos hsafe]

theorem applyMove_accepts {s : ValidState} {move : Object} :
    (∃ s', applyMove s move = .ok s') ↔ move ∈ (legalMoves s.toState).map Move.toObject := by
  simp only [applyMove_eq_ok, List.mem_map]
  constructor
  · rintro ⟨_, m, hm, rfl, -⟩
    exact ⟨m, hm, rfl⟩
  · rintro ⟨m, hm, rfl⟩
    exact ⟨_, m, hm, rfl, rfl⟩

theorem applyMove_valid {s : ValidState} {move : Object} {s' : State}
    (h : applyMove s move = .ok s') :
    s'.Valid ∧ s'.sideToMove = s.sideToMove ∧ inCheck s'.occupied s.sideToMove = false := by
  obtain ⟨m, hm, -, rfl⟩ := applyMove_eq_ok.mp h
  obtain ⟨⟨tok, hcand⟩, hsafe⟩ := mem_legalMoves.mp hm
  exact ⟨hcand.valid s.valid, rfl, (hcand.leavesKingSafe_iff s.valid).mp hsafe⟩

theorem legalMoves_eq_nil_iff {s : ValidState} :
    legalMoves s.toState = [] ↔ ∀ move, ¬ ∃ s', applyMove s move = .ok s' := by
  simp only [applyMove_accepts]
  constructor
  · intro h move
    simp [h]
  · intro h
    rw [← List.map_eq_nil_iff (f := Move.toObject)]
    exact List.eq_nil_iff_forall_not_mem.mpr h

/-- The two terminal classes are exactly the positions in which `apply` refuses
every object, told apart by the check state. -/
theorem terminalStatus_iff (s : ValidState) :
    (terminalStatus s = .checkmate ↔ inCheck s.occupied s.sideToMove = true ∧
      ∀ move, ¬ ∃ s', applyMove s move = .ok s') ∧
    (terminalStatus s = .stalemate ↔ inCheck s.occupied s.sideToMove = false ∧
      ∀ move, ¬ ∃ s', applyMove s move = .ok s') := by
  rw [← legalMoves_eq_nil_iff]
  unfold terminalStatus
  simp only [List.length_eq_zero_iff]
  by_cases hz : legalMoves s.toState = [] <;>
    by_cases hc : inCheck s.occupied s.sideToMove = true <;> simp [hz, hc]

/-- The runtime is exact: acceptance is membership, the enumeration has no
repetition, successors are valid with the mover's king unattacked, and the
terminal classes are the positions without an accepted move. -/
theorem legalMovesRuntime_exact (s : ValidState) :
    (∀ move, (∃ s', applyMove s move = .ok s') ↔
      move ∈ (legalMoves s.toState).map Move.toObject) ∧
    ((legalMoves s.toState).map Move.toObject).Nodup ∧
    (∀ move s', applyMove s move = .ok s' →
      s'.Valid ∧ s'.sideToMove = s.sideToMove ∧ inCheck s'.occupied s.sideToMove = false) ∧
    (terminalStatus s = .checkmate ↔ inCheck s.occupied s.sideToMove = true ∧
      ∀ move, ¬ ∃ s', applyMove s move = .ok s') ∧
    (terminalStatus s = .stalemate ↔ inCheck s.occupied s.sideToMove = false ∧
      ∀ move, ¬ ∃ s', applyMove s move = .ok s') :=
  ⟨fun _ => applyMove_accepts, (nodup_legalMoves s.toState).map Move.toObject_injective,
    fun _ _ => applyMove_valid, terminalStatus_iff s⟩

end LegalMoves
end OpenChess
