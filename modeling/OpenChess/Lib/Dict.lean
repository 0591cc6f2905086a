import Mathlib.Data.Finmap
import Mathlib.Data.Finset.Sort
import Mathlib.Tactic

/-!
# Dictionaries

A dictionary is a finite map: two of them are equal when they hold the same
values under the same keys, whatever the order of insertion. Comprehensions over
a key set, updates in a loop and sorted listings are described by what a lookup
finds afterwards.
-/

namespace OpenChess

abbrev Dict (K V : Type*) := Finmap fun _ : K => V

namespace Dict

variable {K V W : Type*}

section Lookup

variable [BEq K] [LawfulBEq K] {k : K} {v : V} {l : List (K × V)}

theorem lookup_cons_of_ne {k' : K} (h : k ≠ k') : ((k', v) :: l).lookup k = l.lookup k := by
  rw [List.lookup_cons, beq_false_of_ne h]

theorem mem_of_lookup (h : l.lookup k = some v) : (k, v) ∈ l := by
  obtain ⟨m, m', rfl, -⟩ := List.lookup_eq_some_iff.mp h
  exact List.mem_append_right m List.mem_cons_self

theorem exists_lookup (h : k ∈ l.map Prod.fst) : ∃ v, l.lookup k = some v := by
  obtain ⟨e, he, rfl⟩ := List.mem_map.mp h
  exact Option.isSome_iff_exists.mp (List.lookup_isSome_iff.mpr ⟨e, he, beq_self_eq_true _⟩)

theorem lookup_eq_none_iff : l.lookup k = none ↔ k ∉ l.map Prod.fst := by
  constructor
  · intro h hk
    obtain ⟨v, hv⟩ := exists_lookup hk
    rw [h] at hv
    cases hv
  · intro h
    cases hk : l.lookup k with
    | none => rfl
    | some v => exact absurd (List.mem_map_of_mem (mem_of_lookup hk)) h

/-- In a listing with distinct keys every member is found under its key. -/
theorem lookup_eq_some_iff_mem (h : (l.map Prod.fst).Nodup) : l.lookup k = some v ↔ (k, v) ∈ l := by
  induction l with
  | nil => simp
  | cons e l ih =>
    obtain ⟨k', v'⟩ := e
    obtain ⟨hk', hl⟩ := List.nodup_cons.mp h
    rw [List.mem_cons, Prod.mk.injEq]
    by_cases hk : k = k'
    · subst hk
      have hnot : (k, v) ∉ l := fun hmem => hk' (List.mem_map.mpr ⟨_, hmem, rfl⟩)
      rw [List.lookup_cons_self]
      simp [hnot, eq_comm]
    · rw [lookup_cons_of_ne hk]
      simp [hk, ih hl]

/-- The members of a listing with distinct keys, each looked up under its key. -/
theorem mapM_lookup (h : (l.map Prod.fst).Nodup) :
    (l.map Prod.fst).mapM (fun name => l.lookup name) = some (l.map Prod.snd) := by
  have hsub : ∀ m : List (K × V), m ⊆ l →
      (m.map Prod.fst).mapM (fun name => l.lookup name) = some (m.map Prod.snd) := by
    intro m
    induction m with
    | nil => exact fun _ => rfl
    | cons e m ih =>
      intro hm
      obtain ⟨he, hm⟩ := List.cons_subset.mp hm
      have hfound := (lookup_eq_some_iff_mem h).mpr he
      simp [List.mapM_cons, hfound, ih hm]
  exact hsub l (List.Subset.refl l)

end Lookup

section Update

variable [DecidableEq K] {k : K} {v : V} {s : Dict K V} {l : List (K × V)}

def ofList (l : List (K × V)) : Dict K V :=
  (l.map fun e => (⟨e.1, e.2⟩ : Σ _ : K, V)).toFinmap

@[simp] theorem lookup_ofList [BEq K] [LawfulBEq K] (l : List (K × V)) (k : K) :
    (ofList l).lookup k = l.lookup k := by
  induction l with
  | nil => rfl
  | cons e l ih =>
    obtain ⟨k', v⟩ := e
    have hcons : ofList ((k', v) :: l) = (ofList l).insert k' v :=
      @Finmap.toFinmap_cons K (fun _ => V) _ k' v _
    rw [hcons]
    by_cases hk : k = k'
    · rw [hk, Finmap.lookup_insert, List.lookup_cons_self]
    · rw [Finmap.lookup_insert_of_ne _ hk, lookup_cons_of_ne hk, ih]

/-- `{key: f(key) for key in keys if f(key) is defined}`. -/
def collect (keys : Finset K) (f : K → Option V) : Dict K V :=
  Finmap.keysLookupEquiv.symm ⟨(keys.filter fun k => (f k).isSome, fun k =>
    if k ∈ keys then f k else none), fun k => by by_cases hk : k ∈ keys <;> simp [hk]⟩

@[simp] theorem lookup_collect (keys : Finset K) (f : K → Option V) (k : K) :
    (collect keys f).lookup k = if k ∈ keys then f k else none :=
  Finmap.keysLookupEquiv_symm_apply_lookup _ k

/-- `for key in keys: del s[key]`. -/
def eraseAll (keys : List K) (s : Dict K V) : Dict K V := keys.foldl (fun s k => s.erase k) s

theorem lookup_eraseAll [BEq K] [LawfulBEq K] (keys : List K) (s : Dict K V) (k : K) :
    (eraseAll keys s).lookup k = if k ∈ keys then none else s.lookup k := by
  induction keys generalizing s with
  | nil => simp [eraseAll]
  | cons k' keys ih =>
    have hstep : eraseAll (k' :: keys) s = eraseAll keys (s.erase k') := rfl
    rw [hstep, ih]
    by_cases hk : k = k'
    · subst hk
      rw [Finmap.lookup_erase, ite_self, if_pos List.mem_cons_self]
    · rw [Finmap.lookup_erase_ne hk]
      simp [hk]

/-- `for key, value in l: s[key] = value`. -/
def insertAll (l : List (K × V)) (s : Dict K V) : Dict K V :=
  l.foldl (fun s e => s.insert e.1 e.2) s

theorem lookup_insertAll [BEq K] [LawfulBEq K] (h : (l.map Prod.fst).Nodup) (s : Dict K V) (k : K) :
    (insertAll l s).lookup k = (l.lookup k).or (s.lookup k) := by
  induction l generalizing s with
  | nil => simp [insertAll]
  | cons e l ih =>
    obtain ⟨k', v'⟩ := e
    obtain ⟨hk', hl⟩ := List.nodup_cons.mp h
    have hstep : insertAll ((k', v') :: l) s = insertAll l (s.insert k' v') := rfl
    rw [hstep, ih hl]
    by_cases hk : k = k'
    · subst hk
      have hnone : l.lookup k = none := by
        rw [Option.eq_none_iff_forall_ne_some]
        exact fun v hv => hk' (List.mem_map.mpr ⟨_, (lookup_eq_some_iff_mem hl).mp hv, rfl⟩)
      rw [hnone, Finmap.lookup_insert, List.lookup_cons_self]
      rfl
    · rw [Finmap.lookup_insert_of_ne _ hk, lookup_cons_of_ne hk]

end Update

/-! ### Listings in key order -/

section Items

variable [DecidableEq K] [LinearOrder K] {k : K} {v : V} {s t : Dict K V}

/-- `sorted(s.items())`. -/
def items (s : Dict K V) : List (K × V) :=
  (s.keys.sort (· ≤ ·)).filterMap fun k => (s.lookup k).map (Prod.mk k)

@[simp] theorem mem_items : (k, v) ∈ s.items ↔ s.lookup k = some v := by
  simp only [items, List.mem_filterMap, Finset.mem_sort, Option.map_eq_some_iff, Prod.mk.injEq]
  constructor
  · intro h
    obtain ⟨k', -, v', hv, rfl, rfl⟩ := h
    exact hv
  · intro h
    exact ⟨k, Finmap.mem_keys.mpr (Finmap.mem_of_lookup_eq_some h), v, h, rfl, rfl⟩

theorem map_fst_items (s : Dict K V) : s.items.map Prod.fst = s.keys.sort (· ≤ ·) := by
  have hlist : ∀ keys : List K, (∀ k ∈ keys, k ∈ s) →
      (keys.filterMap fun k => (s.lookup k).map (Prod.mk k)).map Prod.fst = keys := by
    intro keys
    induction keys with
    | nil => exact fun _ => rfl
    | cons k keys ih =>
      intro h
      obtain ⟨v, hv⟩ := Finmap.mem_iff.mp (h k List.mem_cons_self)
      rw [List.filterMap_cons, hv]
      exact congrArg (List.cons k) (ih fun k' hk' => h k' (List.mem_cons_of_mem _ hk'))
  exact hlist _ fun k hk => Finmap.mem_keys.mp ((Finset.mem_sort _).mp hk)

theorem nodup_items (s : Dict K V) : (s.items.map Prod.fst).Nodup := by
  rw [map_fst_items]
  exact Finset.sort_nodup _ _

theorem lookup_items [BEq K] [LawfulBEq K] (s : Dict K V) (k : K) : s.items.lookup k = s.lookup k :=
  Option.ext fun _ => (lookup_eq_some_iff_mem (nodup_items s)).trans mem_items

@[simp] theorem ofList_items (s : Dict K V) : ofList s.items = s :=
  Finmap.ext_lookup fun k => (lookup_ofList _ k).trans (lookup_items s k)

theorem items_injective : Function.Injective (items : Dict K V → List (K × V)) :=
  Function.LeftInverse.injective ofList_items

end Items

end Dict
end OpenChess
