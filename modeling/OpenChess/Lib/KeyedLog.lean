import Mathlib.Data.List.Nodup
import Mathlib.Tactic

/-!
# Logs of keyed records

A log takes from a batch the records whose keys it does not have, each at its first
occurrence. Batches may come one after the other or at once, and one that comes again changes
nothing.
-/

namespace KeyedLog

variable {A K : Type*} [DecidableEq K] (key : A → K)

/-- The records with new keys, each at its first occurrence. -/
def fresh (seen : List K) : List A → List A
  | [] => []
  | a :: batch => if key a ∈ seen then fresh seen batch else a :: fresh (key a :: seen) batch

def extend (log batch : List A) : List A := log ++ fresh key (log.map key) batch

variable {key} {seen seen' : List K} {log batch batch' : List A} {a : A} {k : K}

theorem fresh_congr (h : ∀ k, k ∈ seen ↔ k ∈ seen') :
    fresh key seen batch = fresh key seen' batch := by
  induction batch generalizing seen seen' with
  | nil => rfl
  | cons a batch ih =>
    have hcons : ∀ k, k ∈ key a :: seen ↔ k ∈ key a :: seen' := by
      intro k
      rw [List.mem_cons, List.mem_cons, h k]
    rw [fresh, fresh, ih h, ih hcons]
    by_cases ha : key a ∈ seen
    · rw [if_pos ha, if_pos ((h _).mp ha)]
    · rw [if_neg ha, if_neg fun h' => ha ((h _).mpr h')]

theorem fresh_sublist : (fresh key seen batch).Sublist batch := by
  induction batch generalizing seen with
  | nil => exact .slnil
  | cons a batch ih =>
    rw [fresh]
    split_ifs
    · exact ih.cons a
    · exact ih.cons_cons a

theorem mem_map_fresh :
    k ∈ (fresh key seen batch).map key ↔ k ∈ batch.map key ∧ k ∉ seen := by
  induction batch generalizing seen with
  | nil => simp [fresh]
  | cons a batch ih =>
    rw [fresh, List.map_cons, List.mem_cons]
    split_ifs with ha
    · rw [ih]
      exact ⟨fun h => ⟨.inr h.1, h.2⟩,
        fun h => ⟨h.1.resolve_left fun hk => h.2 (hk ▸ ha), h.2⟩⟩
    · rw [List.map_cons, List.mem_cons, ih, List.mem_cons, not_or]
      constructor
      · rintro (rfl | ⟨hk, -, hseen⟩)
        · exact ⟨.inl rfl, ha⟩
        · exact ⟨.inr hk, hseen⟩
      · rintro ⟨hk, hseen⟩
        by_cases heq : k = key a
        · exact .inl heq
        · exact .inr ⟨hk.resolve_left heq, heq, hseen⟩

theorem nodup_fresh : ((fresh key seen batch).map key).Nodup := by
  induction batch generalizing seen with
  | nil => exact List.nodup_nil
  | cons a batch ih =>
    rw [fresh]
    split_ifs
    · exact ih
    · rw [List.map_cons, List.nodup_cons]
      exact ⟨fun h => (mem_map_fresh.mp h).2 List.mem_cons_self, ih⟩

/-- Where keys do not clash, the fresh records are those whose keys are new. -/
theorem mem_fresh (h : Set.InjOn key {a | a ∈ batch}) :
    a ∈ fresh key seen batch ↔ a ∈ batch ∧ key a ∉ seen := by
  constructor
  · intro ha
    exact ⟨fresh_sublist.subset ha, (mem_map_fresh.mp (List.mem_map_of_mem ha)).2⟩
  · rintro ⟨ha, hseen⟩
    obtain ⟨b, hb, hkey⟩ := List.mem_map.mp
      (mem_map_fresh.mpr ⟨List.mem_map_of_mem (f := key) ha, hseen⟩)
    exact h (fresh_sublist.subset hb) ha hkey ▸ hb

theorem fresh_append : fresh key seen (batch ++ batch') =
    fresh key seen batch ++ fresh key ((fresh key seen batch).map key ++ seen) batch' := by
  induction batch generalizing seen with
  | nil => rfl
  | cons a batch ih =>
    rw [List.cons_append, fresh, fresh]
    split_ifs
    · exact ih
    · rw [ih, List.cons_append, List.map_cons, List.cons_append]
      congr 1
      congr 1
      refine fresh_congr fun k => ?_
      simp only [List.mem_append, List.mem_cons]
      tauto

/-- What is new to both lists of keys is what is new to the first and not in the second. -/
theorem fresh_filter : (fresh key seen batch).filter (fun a => decide (key a ∉ seen')) =
    fresh key (seen ++ seen') batch := by
  induction batch generalizing seen with
  | nil => rfl
  | cons a batch ih =>
    rw [fresh, fresh]
    by_cases ha : key a ∈ seen
    · rw [if_pos ha, if_pos (List.mem_append_left _ ha), ih]
    by_cases ha' : key a ∈ seen'
    · rw [if_neg ha, if_pos (List.mem_append_right _ ha'),
        List.filter_cons_of_neg (by simpa using ha'), ih]
      refine fresh_congr fun k => ?_
      simp only [List.cons_append, List.mem_cons, List.mem_append]
      constructor
      · rintro (rfl | h)
        · exact .inr ha'
        · exact h
      · exact .inr
    · rw [if_neg ha, if_neg fun h => (List.mem_append.mp h).elim ha ha',
        List.filter_cons_of_pos (by simpa using ha'), ih, List.cons_append]

/-- The keys of a log stay distinct. -/
theorem nodup_extend (h : (log.map key).Nodup) : ((extend key log batch).map key).Nodup := by
  rw [extend, List.map_append, List.nodup_append]
  refine ⟨h, nodup_fresh, ?_⟩
  rintro k hk _ hk' rfl
  exact (mem_map_fresh.mp hk').2 hk

theorem extend_cons_of_mem (h : key a ∈ log.map key) :
    extend key log (a :: batch) = extend key log batch := by
  rw [extend, extend, fresh, if_pos h]

theorem extend_cons_of_notMem (h : key a ∉ log.map key) :
    extend key log (a :: batch) = extend key (log ++ [a]) batch := by
  rw [extend, extend, fresh, if_neg h, List.append_assoc, List.singleton_append]
  congr 2
  refine fresh_congr fun k => ?_
  rw [List.map_append, List.map_singleton, List.mem_append, List.mem_cons, List.mem_singleton,
    or_comm]

theorem mem_extend (h : Set.InjOn key {a | a ∈ log ++ batch}) :
    a ∈ extend key log batch ↔ a ∈ log ++ batch := by
  have hbatch : Set.InjOn key {a | a ∈ batch} := h.mono fun a ha => List.mem_append_right _ ha
  rw [extend, List.mem_append, List.mem_append, mem_fresh hbatch]
  constructor
  · exact Or.imp_right And.left
  · rintro (ha | ha)
    · exact .inl ha
    · by_cases hkey : key a ∈ log.map key
      · obtain ⟨b, hb, heq⟩ := List.mem_map.mp hkey
        exact .inl (h (List.mem_append_left _ hb) (List.mem_append_right _ ha) heq ▸ hb)
      · exact .inr ⟨ha, hkey⟩

/-- Two batches one after the other are their concatenation. -/
theorem extend_extend : extend key (extend key log batch) batch' =
    extend key log (batch ++ batch') := by
  rw [extend, extend, extend, fresh_append, List.append_assoc]
  congr 2
  refine fresh_congr fun k => ?_
  rw [List.map_append, List.mem_append, List.mem_append, or_comm]

/-- A batch that the log has taken changes nothing. -/
theorem extend_self : extend key (extend key log batch) batch = extend key log batch := by
  have hnone : fresh key ((extend key log batch).map key) batch = [] := by
    rw [List.eq_nil_iff_forall_not_mem]
    intro a ha
    obtain ⟨hbatch, hseen⟩ := mem_map_fresh.mp (List.mem_map_of_mem ha)
    refine hseen ?_
    rw [extend, List.map_append, List.mem_append, mem_map_fresh]
    by_cases h : key a ∈ log.map key
    · exact .inl h
    · exact .inr ⟨hbatch, h⟩
  rw [extend, hnone, List.append_nil]

end KeyedLog
