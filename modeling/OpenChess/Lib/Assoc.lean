import OpenChess.Lib.Dict

/-!
# Insertion-ordered dictionaries

Where the order of insertion is visible, a dictionary is the list of its members.
An assignment replaces a present member in its place and appends a new one.
-/

namespace OpenChess
namespace Assoc

variable {K V : Type*} [DecidableEq K] {k : K} {v : V} {l : List (K × V)} {e : K × V}

/-- `l[k] = v`. -/
def assign : List (K × V) → K → V → List (K × V)
  | [], k, v => [(k, v)]
  | (k', v') :: l, k, v => if k' = k then (k', v) :: l else (k', v') :: assign l k v

theorem mem_map_fst_assign {k' : K} :
    k' ∈ (assign l k v).map Prod.fst ↔ k' = k ∨ k' ∈ l.map Prod.fst := by
  induction l with
  | nil => simp [assign]
  | cons e l ih =>
    rw [assign]
    split_ifs with h
    · simp [h]
    · simp only [List.map_cons, List.mem_cons, ih]
      tauto

theorem nodup_assign (h : (l.map Prod.fst).Nodup) : ((assign l k v).map Prod.fst).Nodup := by
  induction l with
  | nil => simp [assign]
  | cons e l ih =>
    obtain ⟨he, hl⟩ := List.nodup_cons.mp h
    rw [assign]
    split_ifs with hk
    · exact h
    · refine List.nodup_cons.mpr ⟨fun hmem => ?_, ih hl⟩
      rcases mem_map_fst_assign.mp hmem with heq | hmem
      · exact hk heq
      · exact he hmem

/-- After an assignment the key has its value, and the other members are kept. -/
theorem mem_assign (h : (l.map Prod.fst).Nodup) :
    e ∈ assign l k v ↔ e = (k, v) ∨ e ∈ l ∧ e.1 ≠ k := by
  induction l with
  | nil => simp [assign]
  | cons e' l ih =>
    obtain ⟨he', hl⟩ := List.nodup_cons.mp h
    rw [assign]
    split_ifs with hk
    · have hout : e ∈ l → e.1 ≠ k := by
        intro he heq
        exact he' (hk ▸ heq ▸ List.mem_map_of_mem he)
      simp only [List.mem_cons, hk]
      constructor
      · intro he
        exact he.imp_right fun he => ⟨.inr he, hout he⟩
      · intro he
        obtain he | ⟨rfl | he, hne⟩ := he
        · exact .inl he
        · exact absurd hk hne
        · exact .inr he
    · simp only [List.mem_cons, ih hl]
      constructor
      · intro he
        obtain rfl | he | ⟨he, hne⟩ := he
        · exact .inr ⟨.inl rfl, hk⟩
        · exact .inl he
        · exact .inr ⟨.inr he, hne⟩
      · intro he
        obtain he | ⟨rfl | he, hne⟩ := he
        · exact .inr (.inl he)
        · exact .inl rfl
        · exact .inr (.inr ⟨he, hne⟩)

theorem lookup_assign [BEq K] [LawfulBEq K] {k' : K} :
    (assign l k v).lookup k' = if k' = k then some v else l.lookup k' := by
  induction l with
  | nil =>
    rw [assign, List.lookup_cons]
    by_cases hk : k' = k
    · rw [if_pos hk, hk, beq_self_eq_true]
    · rw [if_neg hk, beq_false_of_ne hk]
  | cons e l ih =>
    rw [assign]
    split_ifs with he hk hk
    · rw [List.lookup_cons, he, hk, beq_self_eq_true]
    · rw [List.lookup_cons, List.lookup_cons, he, beq_false_of_ne hk]
    · rw [List.lookup_cons, ih, if_pos hk, hk, beq_false_of_ne (Ne.symm he)]
    · rw [List.lookup_cons, List.lookup_cons, ih, if_neg hk]

/-- `del l[k]`. -/
def erase (l : List (K × V)) (k : K) : List (K × V) := l.filter fun e => e.1 ≠ k

theorem lookup_erase [BEq K] [LawfulBEq K] {k' : K} :
    (erase l k).lookup k' = if k' = k then none else l.lookup k' := by
  induction l with
  | nil => simp [erase]
  | cons e l ih =>
    unfold erase at ih ⊢
    by_cases he : e.1 = k
    · rw [List.filter_cons_of_neg (by simpa using he), ih, List.lookup_cons]
      split_ifs with hk
      · rfl
      · rw [he, beq_false_of_ne hk]
    · rw [List.filter_cons_of_pos (by simpa using he), List.lookup_cons, List.lookup_cons, ih]
      split_ifs with hk
      · rw [hk, beq_false_of_ne (Ne.symm he)]
      · rfl

theorem nodup_erase (h : (l.map Prod.fst).Nodup) : ((erase l k).map Prod.fst).Nodup :=
  h.sublist (List.filter_sublist.map _)

theorem mem_erase : e ∈ erase l k ↔ e ∈ l ∧ e.1 ≠ k := by
  simp [erase]

omit [DecidableEq K] in
/-- What is left under a key of a listing with distinct keys. -/
theorem lookup_filter [BEq K] [LawfulBEq K] (h : (l.map Prod.fst).Nodup) (keep : K × V → Bool)
    (k : K) : (l.filter keep).lookup k = (l.lookup k).filter fun v => keep (k, v) := by
  have hnodup : ((l.filter keep).map Prod.fst).Nodup := h.sublist (List.filter_sublist.map _)
  ext v
  rw [Dict.lookup_eq_some_iff_mem hnodup, List.mem_filter, Option.filter_eq_some_iff,
    Dict.lookup_eq_some_iff_mem h]

/-- Assigning the value that is there changes nothing. -/
theorem assign_of_mem (h : (l.map Prod.fst).Nodup) (hmem : (k, v) ∈ l) : assign l k v = l := by
  induction l with
  | nil => cases hmem
  | cons e l ih =>
    obtain ⟨he, hl⟩ := List.nodup_cons.mp h
    rw [assign]
    rcases List.mem_cons.mp hmem with rfl | hmem
    · rw [if_pos rfl]
    · have hne : e.1 ≠ k := fun hk => he (hk ▸ List.mem_map_of_mem hmem)
      rw [if_neg hne, ih hl hmem]

/-- An assignment to a new key appends it. -/
theorem assign_of_notMem (h : k ∉ l.map Prod.fst) : assign l k v = l ++ [(k, v)] := by
  induction l with
  | nil => rfl
  | cons e l ih =>
    obtain ⟨hne, hl⟩ := not_or.mp (List.mem_cons.not.mp h)
    rw [assign, if_neg (Ne.symm hne), ih hl]
    rfl

theorem assign_assign_self {v' : V} : assign (assign l k v) k v' = assign l k v' := by
  induction l with
  | nil => simp [assign]
  | cons e l ih =>
    by_cases hk : e.1 = k
    · simp [assign, hk]
    · simp [assign, hk, ih]

theorem assign_comm {k' : K} {v' : V} (hne : k' ≠ k) (hmem : k' ∈ l.map Prod.fst) :
    assign (assign l k v) k' v' = assign (assign l k' v') k v := by
  induction l with
  | nil => cases hmem
  | cons e l ih =>
    by_cases hk : e.1 = k
    · simp [assign, hk, Ne.symm hne]
    · by_cases hk' : e.1 = k'
      · simp [assign, hk', hne]
      · have hmem : k' ∈ l.map Prod.fst := by
          rw [List.map_cons] at hmem
          exact (List.mem_cons.mp hmem).resolve_left fun h => hk' h.symm
        simp [assign, hk, hk', ih hmem]

def assignAll (l members : List (K × V)) : List (K × V) :=
  members.foldl (fun l e => assign l e.1 e.2) l

variable {p q : List (K × V)}

theorem assignAll_append : assignAll l (p ++ q) = assignAll (assignAll l p) q := List.foldl_append

/-- Members under new and distinct keys are appended. -/
theorem assignAll_eq_append (h : ((l ++ p).map Prod.fst).Nodup) : assignAll l p = l ++ p := by
  induction p generalizing l with
  | nil => exact (List.append_nil l).symm
  | cons e p ih =>
    have hnew : e.1 ∉ l.map Prod.fst := by
      rw [List.map_append, List.map_cons, List.nodup_append] at h
      exact fun hmem => h.2.2 e.1 hmem e.1 List.mem_cons_self rfl
    have hsplit : l ++ e :: p = l ++ [(e.1, e.2)] ++ p := List.append_cons l e p
    rw [hsplit] at h ⊢
    rw [← ih h, assignAll, List.foldl_cons, assign_of_notMem hnew]
    rfl

theorem assignAll_snoc : assignAll l (p ++ [e]) = assign (assignAll l p) e.1 e.2 := by
  rw [assignAll_append]
  rfl

theorem mem_of_mem_assign (h : e ∈ assign l k v) : e = (k, v) ∨ e ∈ l := by
  induction l with
  | nil => exact .inl (List.mem_singleton.mp h)
  | cons e' l ih =>
    rw [assign] at h
    split_ifs at h with hk
    · exact (List.mem_cons.mp h).imp (fun heq => by rw [heq, hk]) (List.mem_cons_of_mem e')
    · obtain rfl | h := List.mem_cons.mp h
      · exact .inr List.mem_cons_self
      · exact (ih h).imp_right (List.mem_cons_of_mem e')

/-- Members are there at the start or assigned. -/
theorem mem_of_mem_assignAll (h : e ∈ assignAll l p) : e ∈ l ∨ e ∈ p := by
  induction p using List.reverseRecOn with
  | nil => exact .inl h
  | append_singleton p e' ih =>
    rw [assignAll_snoc] at h
    obtain rfl | h := mem_of_mem_assign h
    · exact .inr (by simp)
    · exact (ih h).imp_right (List.mem_append_left _)

theorem mem_map_fst_assignAll {k : K} :
    k ∈ (assignAll l p).map Prod.fst ↔ k ∈ l.map Prod.fst ∨ k ∈ p.map Prod.fst := by
  induction p using List.reverseRecOn with
  | nil => simp [assignAll]
  | append_singleton p e ih =>
    rw [assignAll_snoc, mem_map_fst_assign, ih]
    simp only [List.map_append, List.map_cons, List.map_nil, List.mem_append, List.mem_singleton]
    tauto

/-- An assignment before others to keys that are there is lost by one to its own key
after them. -/
theorem assign_assignAll (h : ∀ k' ∈ p.map Prod.fst, k' ∈ l.map Prod.fst) :
    assign (assignAll (assign l k v) p) k v = assign (assignAll l p) k v := by
  induction p generalizing l with
  | nil => exact assign_assign_self
  | cons e p ih =>
    obtain ⟨he, hp⟩ := List.forall_mem_cons.mp h
    have hkeys : ∀ k' ∈ p.map Prod.fst, k' ∈ (assign l e.1 e.2).map Prod.fst :=
      fun k' hk' => mem_map_fst_assign.mpr (.inr (hp k' hk'))
    change assign (assignAll (assign (assign l k v) e.1 e.2) p) k v =
      assign (assignAll (assign l e.1 e.2) p) k v
    by_cases hk : e.1 = k
    · rw [hk, assign_assign_self]
    · rw [assign_comm hk he, ih hkeys]

theorem assignAll_self : assignAll (assignAll l p) p = assignAll l p := by
  induction p using List.reverseRecOn with
  | nil => rfl
  | append_singleton p e ih =>
    have hkeys : ∀ k' ∈ p.map Prod.fst, k' ∈ (assignAll l p).map Prod.fst :=
      fun k' hk' => mem_map_fst_assignAll.mpr (.inr hk')
    rw [assignAll_snoc, assignAll_snoc, assign_assignAll hkeys, ih]

/-- Some first members assigned before all of them change nothing. -/
theorem assignAll_of_prefix (h : p <+: q) : assignAll (assignAll l p) q = assignAll l q := by
  obtain ⟨rest, rfl⟩ := h
  rw [assignAll_append, assignAll_self, assignAll_append]

/-! ### Sums over the members -/

section Sum

variable {M : Type*} [AddCommGroup M] {f : V → M}

theorem sum_assign [BEq K] [LawfulBEq K] :
    ((assign l k v).map fun e => f e.2).sum + ((l.lookup k).map f).getD 0 =
      (l.map fun e => f e.2).sum + f v := by
  induction l with
  | nil => simp [assign]
  | cons e l ih =>
    rw [assign, List.lookup_cons]
    by_cases hk : e.1 = k
    · rw [if_pos hk, hk, beq_self_eq_true]
      simp only [List.map_cons, List.sum_cons, Option.map_some, Option.getD_some]
      abel
    · rw [if_neg hk, beq_false_of_ne (Ne.symm hk)]
      simp only [List.map_cons, List.sum_cons, add_assoc, ih]

theorem sum_erase [BEq K] [LawfulBEq K] (h : (l.map Prod.fst).Nodup) :
    ((erase l k).map fun e => f e.2).sum + ((l.lookup k).map f).getD 0 =
      (l.map fun e => f e.2).sum := by
  induction l with
  | nil => simp [erase]
  | cons e l ih =>
    obtain ⟨he, hl⟩ := List.nodup_cons.mp h
    have ih := ih hl
    unfold erase at ih ⊢
    rw [List.lookup_cons]
    by_cases hk : e.1 = k
    · have hnone : l.filter (fun e => decide (e.1 ≠ k)) = l := by
        refine List.filter_eq_self.mpr fun e' he' => decide_eq_true fun heq => he ?_
        rw [hk, ← heq]
        exact List.mem_map_of_mem he'
      rw [List.filter_cons_of_neg (by simpa using hk), hnone, hk, beq_self_eq_true]
      simp only [List.map_cons, List.sum_cons, Option.map_some, Option.getD_some]
      abel
    · rw [List.filter_cons_of_pos (by simpa using hk), beq_false_of_ne (Ne.symm hk)]
      simp only [List.map_cons, List.sum_cons, add_assoc, ih]

end Sum

end Assoc
end OpenChess
