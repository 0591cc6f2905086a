import OpenChess.Chess.Value
import OpenChess.Lib.Walk

/-!
# Typed equality

Model of `_equal` of `server/control_plane_versioning.py`: two plain trees are compared by
a walk over pairs, with the exact types of both. A string with a lone surrogate has no
UTF-8 form; `lone` says which foreign objects are such strings.
-/

namespace OpenChess
namespace ControlPlane

/-- `math.isnan`, on the `repr` of a float. -/
def isNan (text : Text) : Bool := text == "nan".toList

/-- Equality of floats, on their `repr`. -/
def floatEqual (text text' : Text) : Bool :=
  text == text' || (["0.0".toList, "-0.0".toList].contains text &&
    ["0.0".toList, "-0.0".toList].contains text')

/-- The comparison of two objects that are not containers of one type. -/
def leafEqual (lone : ℕ → Bool) : Value → Value → Bool
  | .null, .null => true
  | .bool b, .bool b' => b == b'
  | .int n, .int n' => n == n'
  | .float _ text, .float _ text' => (isNan text && isNan text') || floatEqual text text'
  | .str t, .str t' => t == t'
  | .foreign tag, .foreign tag' => lone tag && lone tag' && tag == tag'
  | _, _ => false

/-- `dict.keys(a) == dict.keys(b)`. -/
def sameKeys (entries entries' : List (Scalar × Value)) : Bool :=
  (entries.map Prod.fst).all ((entries'.map Prod.fst).contains ·) &&
    (entries'.map Prod.fst).all ((entries.map Prod.fst).contains ·)

def memberPairs (entries entries' : List (Scalar × Value)) : List (Value × Value) :=
  entries.map fun e => (e.2, (entries'.lookup e.1).getD .null)

/-- One turn of the loop: the pairs pushed, the last first, or none where a pair differs. -/
def expand (lone : ℕ → Bool) (pair : Value × Value) (_ : Unit) :
    Option (List (Value × Value) × Unit) :=
  match pair with
  | (.dict entries, .dict entries') =>
    if sameKeys entries entries' then some ((memberPairs entries entries').reverse, ()) else none
  | (.list items, .list items') =>
    if items.length = items'.length then some ((items.zip items').reverse, ()) else none
  | (a, b) => if leafEqual lone a b then some ([], ()) else none

mutual

/-- The objects of a tree. -/
def nodes : Value → ℕ
  | .list items => nodesOfItems items + 1
  | .dict entries => nodesOfMembers entries + 1
  | _ => 1

def nodesOfItems : List Value → ℕ
  | [] => 0
  | v :: items => nodes v + nodesOfItems items

def nodesOfMembers : List (Scalar × Value) → ℕ
  | [] => 0
  | (_, v) :: entries => nodes v + nodesOfMembers entries

end

/-- `_equal`. -/
def equal (lone : ℕ → Bool) (left right : Value) : Bool :=
  (StackWalk.walk (expand lone) (fun pair => nodes pair.1) [(left, right)] ()).isSome

variable {lone : ℕ → Bool} {entries entries' : List (Scalar × Value)} {items items' : List Value}
  {a b c : Value}

/-! ### The walk -/

theorem nodesOfItems_eq (items : List Value) : nodesOfItems items = (items.map nodes).sum := by
  induction items with
  | nil => rfl
  | cons v items ih => rw [nodesOfItems, ih, List.map_cons, List.sum_cons]

theorem nodesOfMembers_eq (entries : List (Scalar × Value)) :
    nodesOfMembers entries = (entries.map fun e => nodes e.2).sum := by
  induction entries with
  | nil => rfl
  | cons e entries ih => rw [nodesOfMembers, ih, List.map_cons, List.sum_cons]

theorem total_zip (h : items.length = items'.length) :
    ((items.zip items').map fun pair => nodes pair.1).sum = nodesOfItems items := by
  have hmap : ((items.zip items').map fun pair => nodes pair.1) =
      ((items.zip items').map Prod.fst).map nodes := by
    rw [List.map_map]
    rfl
  rw [hmap, List.map_fst_zip (le_of_eq h), nodesOfItems_eq]

theorem shrinks_expand (lone : ℕ → Bool) :
    StackWalk.Shrinks (expand lone) fun pair => nodes pair.1 := by
  intro pair u pairs u' h
  obtain ⟨a, b⟩ := pair
  unfold expand at h
  split at h
  · rename_i entries entries' hpair
    obtain ⟨rfl, rfl⟩ := Prod.mk.inj hpair
    split_ifs at h
    obtain ⟨rfl, -⟩ := Prod.mk.inj (Option.some.inj h)
    rw [StackWalk.total_reverse, memberPairs, List.map_map]
    simp only [nodes, nodesOfMembers_eq]
    exact Nat.lt_succ_self _
  · rename_i items items' hpair
    obtain ⟨rfl, rfl⟩ := Prod.mk.inj hpair
    split_ifs at h with hlength
    obtain ⟨rfl, -⟩ := Prod.mk.inj (Option.some.inj h)
    rw [StackWalk.total_reverse, total_zip hlength]
    simp only [nodes]
    exact Nat.lt_succ_self _
  · split_ifs at h
    obtain ⟨rfl, -⟩ := Prod.mk.inj (Option.some.inj h)
    have hpositive : 0 < nodes a := by cases a <;> simp [nodes]
    exact hpositive

theorem walk_isSome (pairs : List (Value × Value)) :
    (StackWalk.walk (expand lone) (fun pair => nodes pair.1) pairs ()).isSome = true ↔
      ∀ pair ∈ pairs, equal lone pair.1 pair.2 = true := by
  induction pairs with
  | nil => simp [StackWalk.walk_nil]
  | cons pair pairs ih =>
    have hsplit : pair :: pairs = [pair] ++ pairs := rfl
    rw [hsplit, StackWalk.walk_append (shrinks_expand lone)]
    rw [List.singleton_append, List.forall_mem_cons, ← ih]
    unfold equal
    cases StackWalk.walk (expand lone) (fun pair => nodes pair.1) [(pair.1, pair.2)] () with
    | none => simp
    | some u => simp

theorem equal_iff_expand (lone : ℕ → Bool) (a b : Value) : equal lone a b = true ↔
    ∃ pairs, expand lone (a, b) () = some (pairs, ()) ∧
      ∀ pair ∈ pairs, equal lone pair.1 pair.2 = true := by
  rw [equal, StackWalk.walk_cons (shrinks_expand lone)]
  cases expand lone (a, b) () with
  | none => simp
  | some p =>
    obtain ⟨pairs, u⟩ := p
    rw [Option.bind_some, List.append_nil, walk_isSome]
    simp

/-! ### Equality by cases -/

theorem equal_dict : equal lone (.dict entries) (.dict entries') = true ↔
    sameKeys entries entries' = true ∧
      ∀ e ∈ entries, equal lone e.2 ((entries'.lookup e.1).getD .null) = true := by
  have hexpand : expand lone (.dict entries, .dict entries') () =
      if sameKeys entries entries' then some ((memberPairs entries entries').reverse, ())
      else none := rfl
  rw [equal_iff_expand, hexpand]
  split_ifs with hkeys
  · simp only [hkeys, Option.some.injEq, Prod.mk.injEq, and_true, true_and]
    constructor
    · intro h e he
      obtain ⟨pairs, rfl, hpairs⟩ := h
      exact hpairs _ (List.mem_reverse.mpr (List.mem_map.mpr ⟨e, he, rfl⟩))
    · intro h
      refine ⟨_, rfl, fun pair hpair => ?_⟩
      obtain ⟨e, he, rfl⟩ := List.mem_map.mp (List.mem_reverse.mp hpair)
      exact h e he
  · simp [hkeys]

theorem equal_list : equal lone (.list items) (.list items') = true ↔
    items.length = items'.length ∧
      ∀ pair ∈ items.zip items', equal lone pair.1 pair.2 = true := by
  have hexpand : expand lone (.list items, .list items') () =
      if items.length = items'.length then some ((items.zip items').reverse, ()) else none := rfl
  rw [equal_iff_expand, hexpand]
  split_ifs with hlength
  · simp only [hlength, Option.some.injEq, Prod.mk.injEq, and_true, true_and]
    constructor
    · intro h pair hpair
      obtain ⟨pairs, rfl, hpairs⟩ := h
      exact hpairs pair (List.mem_reverse.mpr hpair)
    · intro h
      exact ⟨_, rfl, fun pair hpair => h pair (List.mem_reverse.mp hpair)⟩
  · simp [hlength]

/-! ### Reflexivity and transitivity -/

theorem isSome_leaf {c : Bool} {P : Value × Value → Prop} :
    (∃ pairs, (if c = true then some (([] : List (Value × Value)), ()) else none) =
      some (pairs, ()) ∧ ∀ pair ∈ pairs, P pair) ↔ c = true := by
  cases c <;> simp

/-- An object that is not a container is compared as such. -/
theorem equal_leaf (hlist : ∀ items, a ≠ .list items) (hdict : ∀ entries, a ≠ .dict entries) :
    equal lone a b = true ↔ leafEqual lone a b = true := by
  rw [equal_iff_expand]
  cases a with
  | list items => exact absurd rfl (hlist items)
  | dict entries => exact absurd rfl (hdict entries)
  | _ => exact isSome_leaf

theorem equal_str {t : Text} : equal lone (.str t) b = true ↔ b = .str t := by
  rw [equal_leaf (a := .str t) nofun nofun]
  cases b with
  | str t' =>
    change (t == t') = true ↔ _
    rw [beq_iff_eq, Value.str.injEq, eq_comm]
  | _ => exact iff_of_false Bool.false_ne_true nofun

theorem equal_bool {x : Bool} : equal lone (.bool x) b = true ↔ b = .bool x := by
  rw [equal_leaf (a := .bool x) nofun nofun]
  cases b with
  | bool y =>
    change (x == y) = true ↔ _
    rw [beq_iff_eq, Value.bool.injEq, eq_comm]
  | _ => exact iff_of_false Bool.false_ne_true nofun

theorem not_equal_of_expand (h : expand lone (a, b) () = none) : ¬ equal lone a b = true := by
  rw [equal_iff_expand, h]
  exact fun h => nomatch h

theorem equal_list_iff : equal lone (.list items) b = true ↔
    ∃ items', b = .list items' ∧ List.Forall₂ (fun v v' => equal lone v v' = true) items items' := by
  cases b with
  | list items' =>
    rw [equal_list]
    simp only [Value.list.injEq, exists_eq_left', List.forall₂_iff_zip, Prod.forall]
  | _ =>
    refine iff_of_false (not_equal_of_expand rfl) ?_
    rintro ⟨items', hlist, -⟩
    cases hlist

/-- Every member of the left dictionary is found in the right one, which has no others. -/
theorem equal_dict_iff : equal lone (.dict entries) b = true ↔
    ∃ entries', b = .dict entries' ∧ (∀ k ∈ entries'.map Prod.fst, k ∈ entries.map Prod.fst) ∧
      ∀ e ∈ entries, ∃ v, entries'.lookup e.1 = some v ∧ equal lone e.2 v = true := by
  cases b with
  | dict entries' =>
    rw [equal_dict]
    simp only [sameKeys, Bool.and_eq_true, List.all_eq_true, List.contains_iff_mem,
      Value.dict.injEq, exists_eq_left']
    constructor
    · intro h
      obtain ⟨⟨hkeys, hkeys'⟩, hmembers⟩ := h
      refine ⟨hkeys', fun e he => ?_⟩
      obtain ⟨v, hv⟩ := Dict.exists_lookup (hkeys e.1 (List.mem_map_of_mem he))
      have hequal := hmembers e he
      rw [hv] at hequal
      exact ⟨v, hv, hequal⟩
    · intro h
      obtain ⟨hkeys', hmembers⟩ := h
      refine ⟨⟨fun k hk => ?_, hkeys'⟩, fun e he => ?_⟩
      · obtain ⟨e, he, rfl⟩ := List.mem_map.mp hk
        obtain ⟨v, hv, -⟩ := hmembers e he
        exact List.mem_map.mpr ⟨_, Dict.mem_of_lookup hv, rfl⟩
      · obtain ⟨v, hv, hequal⟩ := hmembers e he
        rwa [hv]
  | _ =>
    refine iff_of_false (not_equal_of_expand rfl) ?_
    rintro ⟨entries', hdict, -⟩
    cases hdict

theorem floatEqual_iff {t t' : Text} : floatEqual t t' = true ↔
    t = t' ∨ (t ∈ ["0.0".toList, "-0.0".toList] ∧ t' ∈ ["0.0".toList, "-0.0".toList]) := by
  simp only [floatEqual, Bool.or_eq_true, Bool.and_eq_true, beq_iff_eq, List.contains_iff_mem]

theorem floatEqual_trans {t t' t'' : Text} (h : floatEqual t t' = true)
    (h' : floatEqual t' t'' = true) : floatEqual t t'' = true := by
  rw [floatEqual_iff] at h h' ⊢
  obtain rfl | ⟨ht, ht'⟩ := h
  · exact h'
  · obtain rfl | ⟨-, ht''⟩ := h'
    · exact Or.inr ⟨ht, ht'⟩
    · exact Or.inr ⟨ht, ht''⟩

/-- A number that is none is equal to itself alone. -/
theorem leafEqual_float {finite finite' : Bool} {t t' : Text} :
    leafEqual lone (.float finite t) (.float finite' t') = true ↔ floatEqual t t' = true := by
  change ((isNan t && isNan t') || floatEqual t t') = true ↔ _
  simp only [Bool.or_eq_true, Bool.and_eq_true, isNan, beq_iff_eq, floatEqual_iff]
  constructor
  · intro h
    obtain ⟨rfl, rfl⟩ | h := h
    · exact Or.inl rfl
    · exact h
  · exact Or.inr

theorem leafEqual_trans (h : leafEqual lone a b = true) (h' : leafEqual lone b c = true) :
    leafEqual lone a c = true := by
  cases a with
  | float finite t =>
    cases b with
    | float finite' t' =>
      cases c with
      | float finite'' t'' =>
        rw [leafEqual_float] at h h' ⊢
        exact floatEqual_trans h h'
      | _ => cases h'
    | _ => cases h
  | foreign tag =>
    cases b with
    | foreign tag' =>
      change (lone tag && lone tag' && tag == tag') = true at h
      rw [Bool.and_eq_true, beq_iff_eq] at h
      obtain ⟨-, rfl⟩ := h
      exact h'
    | _ => cases h
  | null =>
    cases b with
    | null => exact h'
    | _ => cases h
  | list items => cases h
  | dict entries => cases h
  | _ =>
    cases b <;> first
      | (obtain rfl := beq_iff_eq.mp h
         exact h')
      | cases h

theorem leaf_of_leafEqual (h : leafEqual lone a b = true) :
    (∀ items, b ≠ .list items) ∧ ∀ entries, b ≠ .dict entries := by
  cases b with
  | list items => cases a <;> cases h
  | dict entries => cases a <;> cases h
  | _ => exact ⟨nofun, nofun⟩

theorem forall₂_equal_trans {items'' : List Value}
    (htrans : ∀ v ∈ items, ∀ v' v'', equal lone v v' = true → equal lone v' v'' = true →
      equal lone v v'' = true)
    (h : List.Forall₂ (fun v v' => equal lone v v' = true) items items')
    (h' : List.Forall₂ (fun v v' => equal lone v v' = true) items' items'') :
    List.Forall₂ (fun v v' => equal lone v v' = true) items items'' := by
  induction h generalizing items'' with
  | nil => exact h'
  | cons hv _ ih =>
    cases h' with
    | cons hv' hrest =>
      obtain ⟨htrans, hitems⟩ := List.forall_mem_cons.mp htrans
      exact List.Forall₂.cons (htrans _ _ hv hv') (ih hitems hrest)

theorem equal_trans (h : equal lone a b = true) (h' : equal lone b c = true) :
    equal lone a c = true := by
  induction a using Value.induction generalizing b c with
  | hatom a hlist hdict =>
    rw [equal_leaf hlist hdict] at h ⊢
    obtain ⟨hlist', hdict'⟩ := leaf_of_leafEqual h
    rw [equal_leaf hlist' hdict'] at h'
    exact leafEqual_trans h h'
  | hlist items ih =>
    obtain ⟨items', rfl, hitems⟩ := equal_list_iff.mp h
    obtain ⟨items'', rfl, hitems'⟩ := equal_list_iff.mp h'
    exact equal_list_iff.mpr ⟨items'', rfl,
      forall₂_equal_trans (fun v hv _ _ => ih v hv) hitems hitems'⟩
  | hdict entries ih =>
    obtain ⟨entries', rfl, hkeys, hmembers⟩ := equal_dict_iff.mp h
    obtain ⟨entries'', rfl, hkeys', hmembers'⟩ := equal_dict_iff.mp h'
    refine equal_dict_iff.mpr ⟨entries'', rfl, fun k hk => hkeys k (hkeys' k hk), fun e he => ?_⟩
    obtain ⟨v, hv, hequal⟩ := hmembers e he
    obtain ⟨v', hv', hequal'⟩ := hmembers' (e.1, v) (Dict.mem_of_lookup hv)
    exact ⟨v', hv', ih e he hequal hequal'⟩

end ControlPlane
end OpenChess
