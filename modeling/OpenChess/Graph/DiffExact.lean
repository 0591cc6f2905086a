import OpenChess.Graph.DiffSpec

/-!
# Computing and applying differences

Applying the computed difference gives the target, and a difference that can be
applied is the computed one.
-/

namespace OpenChess
namespace Diff

open PositionDigest (Sha256)
open TranspositionNode (Record)
open Node (Linked)

variable {sha : Sha256} {k : Text} {s b t : State} {v w : Value} {d : Reading}

/-! ### The computed difference -/

@[simp] theorem lookup_without (s t : State) (k : Text) :
    (without s t).lookup k = if k ∈ t then none else s.lookup k := by
  rw [without, Dict.lookup_collect]
  by_cases hk : k ∈ s
  · rw [if_pos (Finmap.mem_keys.mpr hk)]
  · rw [if_neg (Finmap.mem_keys.not.mpr hk), Finmap.lookup_eq_none.mpr hk, ite_self]

theorem Valid.without (h : Valid sha s) (t : State) : Valid sha (without s t) := by
  intro k r hr
  rw [lookup_without] at hr
  split_ifs at hr
  exact h k r hr

def difference (sha : Sha256) (b t : State) : Difference :=
  ⟨contentId sha b, contentId sha t, without t b, without b t, ∅⟩

theorem items_empty : (∅ : Dict Text Witness).items = [] :=
  List.eq_nil_iff_forall_not_mem.mpr fun _ he => by cases Dict.mem_items.mp he

/-- The difference read in the other direction. -/
def Difference.swap (d : Difference) : Difference :=
  ⟨d.targetId, d.baseId, d.removed, d.added, Dict.collect d.changed.keys fun k =>
    (d.changed.lookup k).map fun w => ⟨w.target, w.base⟩⟩

theorem swap_difference (sha : Sha256) (b t : State) :
    (difference sha b t).swap = difference sha t b := by
  have hchanged : (difference sha b t).swap.changed = ∅ := by
    refine Finmap.ext_lookup fun k => ?_
    simp [Difference.swap, difference]
  exact congrArg (Difference.mk (contentId sha t) (contentId sha b) (without b t) (without t b))
    hchanged

/-- Valid states never disagree under a key, so no member changes. -/
theorem Valid.changes_eq (hb : Valid sha b) (ht : Valid sha t) : changes b t = ∅ := by
  refine Finmap.ext_lookup fun k => ?_
  rw [changes, Dict.lookup_collect, Finmap.lookup_empty]
  split_ifs
  · split
    · rename_i r r' hr hr'
      rw [if_neg (not_not.mpr (hb.agree ht hr hr'))]
    · rfl
  · rfl

theorem compute_eq (hb : validateState sha v = .ok b) (ht : validateState sha w = .ok t) :
    compute sha v w = .ok (difference sha b t) := by
  have hbase := valid_of_validateState hb
  have htarget := valid_of_validateState ht
  simp only [compute, hb, ht, hbase.stateId_eq, htarget.stateId_eq, bind, Except.bind, pure,
    Except.pure, hbase.changes_eq htarget, difference]

/-! ### Validated differences -/

/-- What `validate_diff` establishes. -/
structure Checked (sha : Sha256) (d : Reading) : Prop where
  added : Entries sha d.added
  removed : Entries sha d.removed
  changed : d.changed = []
  disjoint : ∀ e ∈ d.added, e.1 ∉ d.removed.map Prod.fst
  ids : d.added = [] ∧ d.removed = [] ↔ d.baseId = d.targetId

/-- Two records linked to one key are equal, so no pair of records is accepted. -/
theorem readWitness_eq_none (sha : Sha256) (k : Text) (v : Value) :
    readWitness sha k v = none := by
  unfold readWitness
  split
  · split
    · rename_i base target hbase htarget
      rw [if_pos ((readEntry_eq_some.mp hbase).2.unique (readEntry_eq_some.mp htarget).2)]
    · rfl
  · rfl

theorem readChanged_eq_some {l : List (Text × Witness)} (h : readChanged sha v = some l) :
    l = [] := by
  obtain ⟨-, hread⟩ := Value.readMembers_eq_some h
  refine List.eq_nil_iff_forall_not_mem.mpr fun e he => ?_
  obtain ⟨v, hv⟩ := hread e he
  rw [readWitness_eq_none] at hv
  cases hv

theorem readFields_eq_some (h : readFields sha v = some d) :
    Entries sha d.added ∧ Entries sha d.removed ∧ d.changed = [] := by
  unfold readFields at h
  split at h
  · split_ifs at h
    split at h
    · rename_i added removed changed hadded hremoved hchanged
      obtain rfl := Option.some.inj h
      exact ⟨entries_of_read hadded, entries_of_read hremoved, readChanged_eq_some hchanged⟩
    · cases h
  · cases h

theorem checked_of_validateDiff (h : validateDiff sha v = .ok d) : Checked sha d := by
  unfold validateDiff at h
  split at h
  · cases h
  · rename_i d' hread
    split_ifs at h with hdisjoint hempty hsame
    obtain rfl := Except.ok.inj h
    obtain ⟨hadded, hremoved, hchanged⟩ := readFields_eq_some hread
    refine ⟨hadded, hremoved, hchanged, fun e he => (hdisjoint.1 e he).1, ?_⟩
    simp only [Reading.Empty, hchanged, and_true] at hempty hsame
    tauto

def Difference.reading (d : Difference) : Reading :=
  ⟨d.baseId, d.targetId, d.added.items, d.removed.items, d.changed.items⟩

theorem isStateId_contentId (sha : Sha256) (s : State) : isStateId (contentId sha s) = true :=
  sha.tagged tag (stateText s)

theorem readFields_difference (hb : Valid sha b) (ht : Valid sha t) :
    readFields sha (difference sha b t).toValue = some (difference sha b t).reading := by
  have hnodup : diffFields.Nodup := by decide
  have hchanged : readChanged sha (.ofMembers []) = some [] := rfl
  unfold readFields Difference.toValue
  rw [Value.fields?_object hnodup rfl]
  simp only [difference, items_empty, List.map_nil, isStateId_contentId, Bool.true_eq_false,
    or_self, if_false, (ht.without b).readEntries_stateValue,
    (hb.without t).readEntries_stateValue, hchanged, Difference.reading]

theorem without_empty_iff :
    (without t b).items = [] ∧ (without b t).items = [] ↔ ∀ k, k ∈ b ↔ k ∈ t := by
  have hitems : ∀ s t : State, (without s t).items = [] ↔ ∀ k, k ∈ s → k ∈ t := by
    intro s t
    constructor
    · intro h k hk
      by_contra hnot
      obtain ⟨r, hr⟩ := Finmap.mem_iff.mp hk
      have hmem : (k, r) ∈ (without s t).items := by
        rw [Dict.mem_items, lookup_without, if_neg hnot, hr]
      rw [h] at hmem
      cases hmem
    · intro h
      refine List.eq_nil_iff_forall_not_mem.mpr fun e he => ?_
      have hlookup := Dict.mem_items.mp he
      rw [lookup_without] at hlookup
      split_ifs at hlookup with hnot
      exact hnot (h _ (Finmap.mem_of_lookup_eq_some hlookup))
  rw [hitems, hitems]
  exact ⟨fun h k => ⟨h.2 k, h.1 k⟩, fun h => ⟨fun k => (h k).mpr, fun k => (h k).mp⟩⟩

theorem Valid.ext_keys (hb : Valid sha b) (ht : Valid sha t) (h : ∀ k, k ∈ b ↔ k ∈ t) : b = t := by
  refine Finmap.ext_lookup fun k => ?_
  by_cases hk : k ∈ b
  · obtain ⟨r, hr⟩ := Finmap.mem_iff.mp hk
    obtain ⟨r', hr'⟩ := Finmap.mem_iff.mp ((h k).mp hk)
    rw [hr, hr', hb.agree ht hr hr']
  · rw [Finmap.lookup_eq_none.mpr hk, Finmap.lookup_eq_none.mpr ((h k).not.mp hk)]

/-- The computed difference passes `validate_diff`, unless the state ids of two
different states collide. -/
theorem validateDiff_difference (hb : Valid sha b) (ht : Valid sha t)
    (hsha : sha.Separates (stateText b) (stateText t)) :
    validateDiff sha (difference sha b t).toValue = .ok (difference sha b t).reading := by
  have hsame : contentId sha b = contentId sha t ↔ ∀ k, k ∈ b ↔ k ∈ t := by
    constructor
    · intro h
      have htext := hsha (List.append_cancel_left h)
      rw [hb.stateText_injective ht htext]
      exact fun k => Iff.rfl
    · intro h
      rw [hb.ext_keys ht h]
  have hempty : (difference sha b t).reading.Empty ↔ ∀ k, k ∈ b ↔ k ∈ t := by
    rw [← without_empty_iff]
    simp only [Reading.Empty, Difference.reading, difference, items_empty, and_true]
  have hdisjoint : (difference sha b t).reading.Disjoint := by
    simp only [Reading.Disjoint, Difference.reading, difference, items_empty, List.map_nil,
      List.not_mem_nil, not_false_eq_true, and_true, implies_true]
    intro e he hmem
    obtain ⟨e', he', hkey⟩ := List.mem_map.mp hmem
    have hadded := Dict.mem_items.mp he
    have hremoved := Dict.mem_items.mp he'
    rw [lookup_without] at hadded hremoved
    split_ifs at hadded with hbase
    split_ifs at hremoved
    rw [hkey] at hremoved
    exact hbase (Finmap.mem_of_lookup_eq_some hremoved)
  unfold validateDiff
  rw [readFields_difference hb ht]
  simp only [hdisjoint, not_true_eq_false, if_false]
  have hids : (difference sha b t).reading.baseId = (difference sha b t).reading.targetId ↔
      ∀ k, k ∈ b ↔ k ∈ t := hsame
  rw [← hids] at hempty
  by_cases h : (difference sha b t).reading.baseId = (difference sha b t).reading.targetId
  · simp [hempty, h]
  · simp [hempty, h]

/-! ### Applying -/

theorem Entries.lookup_eq_some {l : List (Text × Record)} {r : Record} (h : Entries sha l) :
    l.lookup k = some r ↔ (k, r) ∈ l := Dict.lookup_eq_some_iff_mem h.nodup

theorem checkHeld_eq_ok {l : List (Text × Record)} :
    checkHeld b l = .ok () ↔ ∀ e ∈ l, b.lookup e.1 = some e.2 := by
  induction l with
  | nil => simp [checkHeld]
  | cons e l ih =>
    obtain ⟨k, r⟩ := e
    unfold checkHeld
    rw [List.forall_mem_cons]
    cases hk : b.lookup k with
    | none => simp
    | some held =>
      by_cases hr : held = r
      · simp [hr, ih]
      · simp [hr]

theorem Checked.lookup_stage (h : Checked sha d) (b : State) (k : Text) :
    (d.stage b).lookup k = (d.added.lookup k).or
      (if k ∈ d.removed.map Prod.fst then none else b.lookup k) := by
  have hchanged : d.stage b =
      Dict.insertAll d.added (Dict.eraseAll (d.removed.map Prod.fst) b) := by
    rw [Reading.stage, h.changed]
    rfl
  rw [hchanged, Dict.lookup_insertAll h.added.nodup, Dict.lookup_eraseAll]

/-- The added keys are new to the base and the removed members stand in it. -/
structure Fits (d : Reading) (b : State) : Prop where
  added : ∀ e ∈ d.added, e.1 ∉ b
  removed : ∀ e ∈ d.removed, b.lookup e.1 = some e.2

theorem Checked.without_eq (h : Checked sha d) (hfits : Fits d b) :
    without (d.stage b) b = Dict.ofList d.added ∧ without b (d.stage b) = Dict.ofList d.removed := by
  have hadded : ∀ k r, d.added.lookup k = some r → b.lookup k = none := by
    intro k r hr
    exact Finmap.lookup_eq_none.mpr (hfits.added _ (h.added.lookup_eq_some.mp hr))
  constructor
  · refine Finmap.ext_lookup fun k => ?_
    rw [lookup_without, Dict.lookup_ofList, h.lookup_stage]
    cases hk : d.added.lookup k with
    | some r => simp [Finmap.lookup_eq_none.mp (hadded k r hk)]
    | none =>
      by_cases hb : k ∈ b
      · simp [hb]
      · simp [hb, Finmap.lookup_eq_none.mpr hb]
  · refine Finmap.ext_lookup fun k => ?_
    rw [lookup_without, Dict.lookup_ofList]
    have hremoved : ∀ r, d.removed.lookup k = some r ↔ (k, r) ∈ d.removed :=
      fun r => h.removed.lookup_eq_some
    by_cases hk : k ∈ d.removed.map Prod.fst
    · obtain ⟨e, he, rfl⟩ := List.mem_map.mp hk
      have hnew : d.added.lookup e.1 = none := by
        rw [Option.eq_none_iff_forall_ne_some]
        exact fun r hr => h.disjoint _ (h.added.lookup_eq_some.mp hr) hk
      have hgone : e.1 ∉ d.stage b := by
        rw [← Finmap.lookup_eq_none, h.lookup_stage, hnew, if_pos hk, Option.none_or]
      rw [if_neg hgone, hfits.removed e he, (hremoved e.2).mpr he]
    · have hnone : d.removed.lookup k = none := by
        rw [Option.eq_none_iff_forall_ne_some]
        exact fun r hr => hk (List.mem_map.mpr ⟨_, (hremoved r).mp hr, rfl⟩)
      rw [hnone]
      split_ifs with hstage
      · rfl
      · rw [← Finmap.lookup_eq_none, h.lookup_stage, if_neg hk, Option.or_eq_none_iff] at hstage
        exact hstage.2

theorem Checked.valid_stage (h : Checked sha d) (hb : Valid sha b) : Valid sha (d.stage b) := by
  intro k r hr
  rw [h.lookup_stage] at hr
  cases hk : d.added.lookup k with
  | some r' =>
    rw [hk, Option.some_or, Option.some.injEq] at hr
    subst hr
    exact h.added.linked _ (h.added.lookup_eq_some.mp hk)
  | none =>
    rw [hk, Option.none_or] at hr
    split_ifs at hr
    exact hb k r hr

/-- `apply` succeeds exactly for a validated difference that fits the base and
carries the ids of the base and of the result. -/
theorem apply_eq_ok : apply sha v w = .ok s ↔ ∃ d b, validateDiff sha v = .ok d ∧
    validateState sha w = .ok b ∧ contentId sha b = d.baseId ∧ Fits d b ∧ d.stage b = s ∧
      contentId sha s = d.targetId := by
  cases hd : validateDiff sha v with
  | error e => simp [apply, hd, bind, Except.bind]
  | ok d =>
    cases hb : validateState sha w with
    | error e => simp [apply, hd, hb, bind, Except.bind]
    | ok b =>
      have hbase := valid_of_validateState hb
      have hchecked := checked_of_validateDiff hd
      have hunit : ∀ x : Except FailureClass Unit, x = .ok () ∨ ∃ e, x = .error e := by
        intro x
        cases x with
        | ok u => exact .inl rfl
        | error e => exact .inr ⟨e, rfl⟩
      simp only [apply, hd, hb, hbase.stateId_eq, (hchecked.valid_stage hbase).stateId_eq,
        hchecked.changed, List.map_nil, checkHeld, bind, Except.bind, pure, Except.pure,
        Except.ok.injEq, exists_and_left, exists_eq_left', throw, throwThe, MonadExceptOf.throw]
      by_cases hguard : contentId sha b ≠ d.baseId ∨ ∃ e ∈ d.added, e.1 ∈ b
      · rw [if_pos hguard]
        simp only [reduceCtorEq, false_iff, not_and]
        intro hid hfits
        rcases hguard with hne | ⟨e, he, hmem⟩
        · exact absurd hid hne
        · exact absurd hmem (hfits.added e he)
      · rw [if_neg hguard]
        simp only [not_or, not_not, not_exists, not_and] at hguard
        obtain ⟨hid, hadded⟩ := hguard
        rcases hunit (checkHeld b d.removed) with hheld | ⟨e, hheld⟩
        · rw [hheld]
          have hfits : Fits d b := ⟨hadded, checkHeld_eq_ok.mp hheld⟩
          simp only [hid, hfits, true_and]
          by_cases htarget : contentId sha (d.stage b) = d.targetId
          · rw [if_neg (not_not.mpr htarget), Except.ok.injEq]
            exact ⟨fun h => ⟨h, h ▸ htarget⟩, fun h => h.1⟩
          · rw [if_pos htarget]
            simp only [reduceCtorEq, false_iff, not_and]
            exact fun h => h ▸ htarget
        · rw [hheld]
          simp only [reduceCtorEq, false_iff, not_and]
          intro _ hfits
          rw [checkHeld_eq_ok.mpr hfits.removed] at hheld
          cases hheld

/-! ### Exactness -/

def Denotes (sha : Sha256) (v : Value) (d : Difference) : Prop :=
  ∃ r, validateDiff sha v = .ok r ∧ r.difference = d

theorem denotes_difference (hb : Valid sha b) (ht : Valid sha t)
    (hsha : sha.Separates (stateText b) (stateText t)) :
    Denotes sha (difference sha b t).toValue (difference sha b t) := by
  refine ⟨_, validateDiff_difference hb ht hsha, ?_⟩
  simp only [Reading.difference, Difference.reading, Dict.ofList_items]

theorem fits_difference (hb : Valid sha b) (ht : Valid sha t) :
    Fits (difference sha b t).reading b ∧
      (Checked sha (difference sha b t).reading → (difference sha b t).reading.stage b = t) := by
  have hadded : ∀ k, (difference sha b t).reading.added.lookup k = (without t b).lookup k :=
    fun k => Dict.lookup_items _ k
  have hremoved : ∀ k, k ∈ (difference sha b t).reading.removed.map Prod.fst ↔ k ∈ b ∧ k ∉ t := by
    intro k
    have hkeys : (difference sha b t).reading.removed.map Prod.fst =
        (without b t).keys.sort (· ≤ ·) := Dict.map_fst_items _
    rw [hkeys, Finset.mem_sort, Finmap.mem_keys, ← Finmap.lookup_isSome, lookup_without]
    by_cases hk : k ∈ t <;> simp [hk, Finmap.lookup_isSome]
  refine ⟨⟨fun e he hmem => ?_, fun e he => ?_⟩, fun hchecked => Finmap.ext_lookup fun k => ?_⟩
  · have hlookup : (without t b).lookup e.1 = some e.2 := Dict.mem_items.mp he
    rw [lookup_without, if_pos hmem] at hlookup
    cases hlookup
  · have hlookup : (without b t).lookup e.1 = some e.2 := Dict.mem_items.mp he
    rw [lookup_without] at hlookup
    split_ifs at hlookup
    exact hlookup
  · rw [hchecked.lookup_stage, hadded, lookup_without]
    by_cases hkb : k ∈ b
    · obtain ⟨r, hr⟩ := Finmap.mem_iff.mp hkb
      by_cases hkt : k ∈ t
      · obtain ⟨r', hr'⟩ := Finmap.mem_iff.mp hkt
        have hkept : k ∉ (difference sha b t).reading.removed.map Prod.fst :=
          fun hk => ((hremoved k).mp hk).2 hkt
        rw [if_pos hkb, if_neg hkept, Option.none_or, hr, hr', hb.agree ht hr hr']
      · rw [if_pos hkb, if_pos ((hremoved k).mpr ⟨hkb, hkt⟩), Finmap.lookup_eq_none.mpr hkt]
        rfl
    · have hkept : k ∉ (difference sha b t).reading.removed.map Prod.fst :=
        fun hk => hkb ((hremoved k).mp hk).1
      rw [if_neg hkb, if_neg hkept, Finmap.lookup_eq_none.mpr hkb, Option.or_none]

/-- For valid states whose hashed texts do not collide, the computed difference is
valid, changes no record, takes the base to the target, and is the swap of the
difference computed the other way. Every difference that can be applied is the
computed one. -/
theorem diff_exact (sha : Sha256) :
    (∀ v w b t, validateState sha v = .ok b → validateState sha w = .ok t →
      sha.Separates (stateText b) (stateText t) →
      ∃ d, compute sha v w = .ok d ∧ Denotes sha d.toValue d ∧ d.changed = ∅ ∧
        apply sha d.toValue v = .ok t ∧ compute sha w v = .ok d.swap) ∧
    ∀ v w s, apply sha v w = .ok s →
      ∃ d, compute sha w (stateValue s) = .ok d ∧ Denotes sha v d := by
  constructor
  · intro v w b t hv hw hsha
    have hb := valid_of_validateState hv
    have ht := valid_of_validateState hw
    have hvalidated := validateDiff_difference hb ht hsha
    obtain ⟨hfits, hstage⟩ := fits_difference hb ht
    refine ⟨difference sha b t, compute_eq hv hw, denotes_difference hb ht hsha, rfl, ?_, ?_⟩
    · exact apply_eq_ok.mpr ⟨_, b, hvalidated, hv, rfl, hfits,
        hstage (checked_of_validateDiff hvalidated), rfl⟩
    · rw [swap_difference]
      exact compute_eq hw hv
  · intro v w s h
    obtain ⟨d, b, hd, hb, hbase, hfits, rfl, htarget⟩ := apply_eq_ok.mp h
    have hchecked := checked_of_validateDiff hd
    have hstage := hchecked.valid_stage (valid_of_validateState hb)
    obtain ⟨hadded, hremoved⟩ := hchecked.without_eq hfits
    refine ⟨_, compute_eq hb hstage.validateState_stateValue, d, hd, ?_⟩
    simp only [Reading.difference, difference, hadded, hremoved, hchecked.changed, hbase, htarget]
    rfl

/-- Adding the bare kings to the empty state and taking them out again. -/
theorem diff_exact_bareKings :
    ∃ d, compute (.lengths 64) (.dict []) (stateValue
        (Finmap.singleton (Node.bareKey .white) (Node.bareRecord (.lengths 64) .white))) = .ok d ∧
      apply (.lengths 64) d.toValue (.dict []) =
        .ok (Finmap.singleton (Node.bareKey .white) (Node.bareRecord (.lengths 64) .white)) ∧
      ∃ d', compute (.lengths 64) (.dict []) (stateValue
          (Finmap.singleton (Node.bareKey .white) (Node.bareRecord (.lengths 64) .white))) =
        .ok d' ∧ Denotes (.lengths 64) d.toValue d' := by
  have hvalid := valid_singleton (Node.linked_bareRecord (.lengths 64) .white)
  have hsha : (Hex.Hash.lengths 64).Separates (stateText ∅)
      (stateText (Finmap.singleton (Node.bareKey .white)
        (Node.bareRecord (.lengths 64) .white))) := by
    intro h
    exact absurd h (by decide +kernel)
  obtain ⟨hforward, hback⟩ := diff_exact (.lengths 64)
  obtain ⟨d, hd, -, -, happly, -⟩ := hforward (.dict []) _ ∅ _ rfl
    hvalid.validateState_stateValue hsha
  exact ⟨d, hd, happly, hback _ _ _ happly⟩

end Diff
end OpenChess
