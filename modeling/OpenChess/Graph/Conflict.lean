import OpenChess.Graph.Diff
import OpenChess.Graph.DiffSpec

/-!
# Conflicts of two edits

Model of `graph/conflict.py`. Two states derived from one base are compared
member by member. A record is identified by its key alone, and its digest is only
tested for the format.
-/

namespace OpenChess
namespace Conflict

open PositionDigest (Sha256 digestFormat)
open TranspositionNode (Record)

inductive FailureClass
  | malformedConflictRecord
  | divergentBase
  deriving DecidableEq, Repr

inductive ErrorCode
  | malformedRequest
  | divergentBase
  | internal
  deriving DecidableEq, Repr

/-- `failures.mapping` of the contract. -/
def FailureClass.error : FailureClass → ErrorCode
  | .malformedConflictRecord => .malformedRequest
  | .divergentBase => .divergentBase

/-! ### States -/

abbrev State := Dict Text Record

/-- `_validated_identity`; `none` where it fails. -/
def validatedIdentity (sha : Sha256) (key : Text) (v : Value) : Option Record :=
  match Node.readRecord v with
  | none => none
  | some r =>
    match Node.makeRecord sha (.str r.variant) (.str r.snapshotFen) with
    | .error _ => none
    | .ok derived =>
      match VariantRuntime.parsePosition (.str r.variant) (.str r.snapshotFen) with
      | .error _ => none
      | .ok position =>
        match VariantRuntime.identity position with
        | .error _ => none
        | .ok projection =>
          if r.variant ≠ derived.variant ∨ r.snapshotFen ≠ derived.snapshotFen then none
          else if digestFormat r.digest = false then none
          else if Node.key projection ≠ key then none
          else some r

/-- `_validated_state`. -/
def validatedState (sha : Sha256) (v : Value) : Except FailureClass State :=
  match v.readMembers (validatedIdentity sha) with
  | none => .error .malformedConflictRecord
  | some entries => .ok (Dict.ofList entries)

/-- `_state_id`, the serialization `graph/diff.py` hashes. -/
def stateId (sha : Sha256) (s : State) : Text := Diff.contentId sha s

/-! ### Changes -/

inductive ChangeKind
  | added
  | removed
  | changed
  deriving DecidableEq, Repr

structure Change where
  kind : ChangeKind
  record : Record
  deriving DecidableEq, Repr

/-- What a side did to one key. -/
def changeOf : Option Record → Option Record → Option Change
  | none, some r => some ⟨.added, r⟩
  | some r, some r' => if r ≠ r' then some ⟨.changed, r'⟩ else none
  | some r, none => some ⟨.removed, r⟩
  | none, none => none

/-- `_changes`. -/
def changes (base derived : State) : Dict Text Change :=
  Dict.collect (derived.keys ∪ base.keys) fun k => changeOf (base.lookup k) (derived.lookup k)

/-! ### Conflicts -/

inductive ConflictKind
  | bothChangedDifferently
  | changedVsRemoved
  | addedDifferently
  deriving DecidableEq, Repr

structure Witness where
  kind : ConflictKind
  left : Option Record
  right : Option Record
  deriving DecidableEq, Repr

/-- The body of the loop over the keys both sides changed. -/
def witnessOf (left right : Change) : Option Witness :=
  if left.kind = .removed ∧ right.kind = .removed then none
  else if left.kind = right.kind then
    if left.record ≠ right.record then
      some ⟨if left.kind = .added then .addedDifferently else .bothChangedDifferently,
        some left.record, some right.record⟩
    else none
  else
    some ⟨.changedVsRemoved, if left.kind = .changed then some left.record else none,
      if right.kind = .changed then some right.record else none⟩

def conflicts (left right : Dict Text Change) : Dict Text Witness :=
  Dict.collect (left.keys ∩ right.keys) fun k =>
    match left.lookup k, right.lookup k with
    | some l, some r => witnessOf l r
    | _, _ => none

structure Report where
  baseId : Text
  leftId : Text
  rightId : Text
  conflicts : Dict Text Witness

/-- `detect`. -/
def detect (sha : Sha256) (base left right : Value) : Except FailureClass Report := do
  let base ← validatedState sha base
  let left ← validatedState sha left
  let right ← validatedState sha right
  if stateId sha base = stateId sha left ∨ stateId sha base = stateId sha right then
    throw .divergentBase
  return ⟨stateId sha base, stateId sha left, stateId sha right,
    conflicts (changes base left) (changes base right)⟩

end Conflict
end OpenChess

/-!
## Exact conflicts

A conflict is reported where both sides left the base and reached different
outcomes. These are the keys at which the two change sets do not commute.
-/

namespace OpenChess
namespace Conflict

open PositionDigest (Sha256 digestFormat)
open TranspositionNode (Record)

variable {sha : Sha256} {b l r s : State} {k : Text} {v vb vl vr : Value}

/-! ### Valid states -/

/-- Every member is a snapshot under its own key, with any digest of the format. -/
def Tracked (s : State) : Prop := ∀ k r, s.lookup k = some r →
  ∃ p, Node.Snapshot r.variant r.snapshotFen p ∧ digestFormat r.digest = true ∧
    k = Node.key (Node.projection r.variant p)

theorem tracked_of_validatedIdentity {x : Record} (h : validatedIdentity sha k v = some x) :
    ∃ p, Node.Snapshot x.variant x.snapshotFen p ∧ digestFormat x.digest = true ∧
      k = Node.key (Node.projection x.variant p) := by
  unfold validatedIdentity at h
  split at h
  · cases h
  rename_i y hread
  split at h
  · cases h
  rename_i derived hmake
  split at h
  · cases h
  rename_i position hparse
  split at h
  · cases h
  rename_i projection hidentity
  split_ifs at h with hsame hdigest hkey
  simp only [ne_eq, not_or, not_not] at hsame hkey
  obtain rfl := Option.some.inj h
  obtain ⟨p, hp⟩ := Node.makeRecord_snapshot_iff.mp ⟨derived, hmake, hsame.2.symm⟩
  rw [hp.parse] at hparse
  obtain rfl := Except.ok.inj hparse
  rw [hp.identity] at hidentity
  obtain rfl := Except.ok.inj hidentity
  exact ⟨p, hp, by simpa using hdigest, hkey.symm⟩

theorem tracked_of_validatedState (h : validatedState sha v = .ok s) : Tracked s := by
  unfold validatedState at h
  split at h
  · cases h
  · rename_i entries hread
    obtain rfl := Except.ok.inj h
    obtain ⟨hnodup, hentry⟩ := Value.readMembers_eq_some hread
    intro k x hx
    rw [Dict.lookup_ofList, Dict.lookup_eq_some_iff_mem hnodup] at hx
    obtain ⟨w, hw⟩ := hentry _ hx
    exact tracked_of_validatedIdentity hw

theorem Tracked.validatedState_stateValue (h : Tracked s) :
    validatedState sha (Diff.stateValue s) = .ok s := by
  have hread : (Diff.stateValue s).readMembers (validatedIdentity sha) = some s.items := by
    refine Value.readMembers_ofMembers (Dict.nodup_items s) fun e he => ?_
    have hlookup : s.lookup e.1 = some e.2 := Dict.mem_items.mp he
    obtain ⟨p, hp, hdigest, hkey⟩ := h e.1 e.2 hlookup
    unfold validatedIdentity
    rw [Node.readRecord_recordValue]
    simp only [hp.makeRecord, hp.parse, hp.identity]
    rw [if_neg (by simp), if_neg (by simp [hdigest]), if_neg (not_not.mpr hkey.symm)]
  unfold validatedState
  rw [hread]
  simp only [Dict.ofList_items]

theorem Tracked.separable (h : Tracked s) : ∀ e ∈ s.items, Diff.Separable e := by
  intro e he
  have hlookup : s.lookup e.1 = some e.2 := Dict.mem_items.mp he
  obtain ⟨p, hp, hdigest, hkey⟩ := h e.1 e.2 hlookup
  have hsep := Diff.separable_of_snapshot hp hdigest
  rwa [← hkey] at hsep

theorem Tracked.stateId_eq_iff (hb : Tracked b) (hs : Tracked s)
    (hsha : sha.Separates (Diff.stateText b) (Diff.stateText s)) :
    stateId sha b = stateId sha s ↔ b = s := by
  constructor
  · intro h
    exact Diff.stateText_injective hb.separable hs.separable
      (hsha (List.append_cancel_left h))
  · intro h
    rw [h]

/-! ### Change sets -/

/-- Where a change leads. -/
def Change.outcome (c : Change) : Option Record := if c.kind = .removed then none else some c.record

def applyChanges (c : Dict Text Change) (s : State) : State :=
  Dict.collect (s.keys ∪ c.keys) fun k => ((c.lookup k).map Change.outcome).getD (s.lookup k)

@[simp] theorem lookup_applyChanges (c : Dict Text Change) (s : State) (k : Text) :
    (applyChanges c s).lookup k = ((c.lookup k).map Change.outcome).getD (s.lookup k) := by
  rw [applyChanges, Dict.lookup_collect]
  split_ifs with hk
  · rfl
  · simp only [Finset.mem_union, Finmap.mem_keys, not_or] at hk
    rw [Finmap.lookup_eq_none.mpr hk.1, Finmap.lookup_eq_none.mpr hk.2]
    rfl

@[simp] theorem lookup_changes (b s : State) (k : Text) :
    (changes b s).lookup k = changeOf (b.lookup k) (s.lookup k) := by
  rw [changes, Dict.lookup_collect]
  split_ifs with hk
  · rfl
  · simp only [Finset.mem_union, Finmap.mem_keys, not_or] at hk
    rw [Finmap.lookup_eq_none.mpr hk.1, Finmap.lookup_eq_none.mpr hk.2]
    rfl

theorem outcome_changeOf (x y : Option Record) :
    (changeOf x y).map Change.outcome = if y = x then none else some y := by
  cases x with
  | none => cases y <;> simp [changeOf, Change.outcome]
  | some a =>
    cases y with
    | none => simp [changeOf, Change.outcome]
    | some c =>
      by_cases hac : a = c
      · simp [changeOf, hac]
      · simp [changeOf, Change.outcome, hac, Ne.symm hac]

theorem lookup_applyChanges_changes (b l s : State) (k : Text) :
    (applyChanges (changes b l) s).lookup k =
      if l.lookup k = b.lookup k then s.lookup k else l.lookup k := by
  rw [lookup_applyChanges, lookup_changes, outcome_changeOf]
  split_ifs <;> rfl

/-! ### Conflicts -/

/-- The kind of a conflict, by what the base, the left and the right side hold. -/
def kindOf : Option Record → Option Record → Option Record → ConflictKind
  | none, _, _ => .addedDifferently
  | some _, some _, some _ => .bothChangedDifferently
  | some _, _, _ => .changedVsRemoved

theorem kindOf_comm (x y z : Option Record) : kindOf x y z = kindOf x z y := by
  cases x <;> cases y <;> cases z <;> rfl

theorem witnessOf_changeOf (x y z : Option Record) (w : Witness) :
    ((changeOf x y).bind fun c => (changeOf x z).bind (witnessOf c)) = some w ↔
      y ≠ x ∧ z ≠ x ∧ y ≠ z ∧ w = ⟨kindOf x y z, y, z⟩ := by
  cases x with
  | none =>
    cases y with
    | none => simp [changeOf]
    | some a =>
      cases z with
      | none => simp [changeOf]
      | some c => by_cases hac : a = c <;> simp [changeOf, witnessOf, kindOf, hac, eq_comm]
  | some o =>
    cases y with
    | none =>
      cases z with
      | none => simp [changeOf, witnessOf]
      | some c =>
        by_cases hoc : o = c <;>
          simp [changeOf, witnessOf, kindOf, hoc, Ne.symm, eq_comm]
    | some a =>
      by_cases hoa : o = a
      · simp [changeOf, hoa]
      · cases z with
        | none => simp [changeOf, witnessOf, kindOf, hoa, eq_comm]
        | some c =>
          by_cases hoc : o = c
          · simp [changeOf, hoc]
          · by_cases hac : a = c <;>
              simp [changeOf, witnessOf, kindOf, hoa, hoc, hac, eq_comm]

theorem lookup_conflicts (c d : Dict Text Change) (k : Text) :
    (conflicts c d).lookup k = (c.lookup k).bind fun x => (d.lookup k).bind (witnessOf x) := by
  rw [conflicts, Dict.lookup_collect]
  cases hc : c.lookup k with
  | none => simp
  | some x =>
    cases hd : d.lookup k with
    | none => simp
    | some y =>
      have hmem : k ∈ c.keys ∩ d.keys := Finset.mem_inter.mpr
        ⟨Finmap.mem_keys.mpr (Finmap.mem_of_lookup_eq_some hc),
          Finmap.mem_keys.mpr (Finmap.mem_of_lookup_eq_some hd)⟩
      rw [if_pos hmem]
      rfl

def Clash (b l r : State) (k : Text) : Prop :=
  l.lookup k ≠ b.lookup k ∧ r.lookup k ≠ b.lookup k ∧ l.lookup k ≠ r.lookup k

theorem lookup_conflicts_changes {w : Witness} :
    (conflicts (changes b l) (changes b r)).lookup k = some w ↔ Clash b l r k ∧
      w = ⟨kindOf (b.lookup k) (l.lookup k) (r.lookup k), l.lookup k, r.lookup k⟩ := by
  rw [lookup_conflicts, lookup_changes, lookup_changes, witnessOf_changeOf, Clash, and_assoc,
    and_assoc]

theorem conflicts_eq_empty :
    conflicts (changes b l) (changes b r) = ∅ ↔ ∀ k, ¬ Clash b l r k := by
  constructor
  · intro h k hk
    have hlookup := lookup_conflicts_changes.mpr ⟨hk, rfl⟩
    rw [h] at hlookup
    cases hlookup
  · intro h
    apply Finmap.ext_lookup
    intro k
    rw [Finmap.lookup_empty, Option.eq_none_iff_forall_ne_some]
    exact fun w hw => h k (lookup_conflicts_changes.mp hw).1

theorem commute_iff :
    applyChanges (changes b r) (applyChanges (changes b l) b) =
      applyChanges (changes b l) (applyChanges (changes b r) b) ↔ ∀ k, ¬ Clash b l r k := by
  have hkey : ∀ k, (applyChanges (changes b r) (applyChanges (changes b l) b)).lookup k =
      (applyChanges (changes b l) (applyChanges (changes b r) b)).lookup k ↔
      ¬ Clash b l r k := by
    intro k
    simp only [lookup_applyChanges_changes, Clash]
    by_cases hl : l.lookup k = b.lookup k <;> by_cases hr : r.lookup k = b.lookup k <;>
      simp [hl, hr, eq_comm]
  constructor
  · intro h k
    exact (hkey k).mp (by rw [h])
  · intro h
    exact Finmap.ext_lookup fun k => (hkey k).mpr (h k)

/-! ### Reports -/

def Witness.swap (w : Witness) : Witness := ⟨w.kind, w.right, w.left⟩

/-- The report with its sides exchanged. -/
def Report.swap (r : Report) : Report :=
  ⟨r.baseId, r.rightId, r.leftId,
    Dict.collect r.conflicts.keys fun k => (r.conflicts.lookup k).map Witness.swap⟩

theorem conflicts_swap (b l r : State) :
    conflicts (changes b r) (changes b l) =
      Dict.collect (conflicts (changes b l) (changes b r)).keys fun k =>
        ((conflicts (changes b l) (changes b r)).lookup k).map Witness.swap := by
  have hclash : ∀ k, Clash b r l k ↔ Clash b l r k := fun k =>
    ⟨fun h => ⟨h.2.1, h.1, h.2.2.symm⟩, fun h => ⟨h.2.1, h.1, h.2.2.symm⟩⟩
  refine Finmap.ext_lookup fun k => Option.ext fun w => ?_
  rw [Dict.lookup_collect, lookup_conflicts_changes, hclash, kindOf_comm]
  have hif : ∀ o : Option Witness,
      (if k ∈ (conflicts (changes b l) (changes b r)).keys then o else none) = some w ↔
        k ∈ (conflicts (changes b l) (changes b r)).keys ∧ o = some w := by
    intro o
    split_ifs with hk <;> simp [hk]
  rw [hif, Option.map_eq_some_iff]
  constructor
  · intro h
    have hlookup := lookup_conflicts_changes.mpr ⟨h.1, rfl⟩
    exact ⟨Finmap.mem_keys.mpr (Finmap.mem_of_lookup_eq_some hlookup), _, hlookup, h.2.symm⟩
  · intro h
    obtain ⟨-, x, hx, rfl⟩ := h
    obtain ⟨hk, rfl⟩ := lookup_conflicts_changes.mp hx
    exact ⟨hk, rfl⟩

theorem detect_eq (hb : validatedState sha vb = .ok b) (hl : validatedState sha vl = .ok l)
    (hr : validatedState sha vr = .ok r) : detect sha vb vl vr =
      if stateId sha b = stateId sha l ∨ stateId sha b = stateId sha r then .error .divergentBase
      else .ok ⟨stateId sha b, stateId sha l, stateId sha r,
        conflicts (changes b l) (changes b r)⟩ := by
  by_cases h : stateId sha b = stateId sha l ∨ stateId sha b = stateId sha r
  · rw [if_pos h]
    simp [detect, hb, hl, hr, h, bind, Except.bind, throw, throwThe, MonadExceptOf.throw]
  · rw [if_neg h]
    simp [detect, hb, hl, hr, h, bind, Except.bind, pure, Except.pure]

theorem validatedState_cases (sha : Sha256) (v : Value) :
    validatedState sha v = .error .malformedConflictRecord ∨ ∃ s, validatedState sha v = .ok s := by
  unfold validatedState
  split
  · exact .inl rfl
  · exact .inr ⟨_, rfl⟩

theorem detect_swap (sha : Sha256) (vb vl vr : Value) :
    detect sha vb vr vl = (detect sha vb vl vr).map Report.swap := by
  obtain hb | ⟨b, hb⟩ := validatedState_cases sha vb
  · simp only [detect, hb, bind, Except.bind, Except.map]
  obtain hl | ⟨l, hl⟩ := validatedState_cases sha vl <;>
    obtain hr | ⟨r, hr⟩ := validatedState_cases sha vr
  · simp only [detect, hb, hl, hr, bind, Except.bind, Except.map]
  · simp only [detect, hb, hl, hr, bind, Except.bind, Except.map]
  · simp only [detect, hb, hl, hr, bind, Except.bind, Except.map]
  · rw [detect_eq hb hr hl, detect_eq hb hl hr, conflicts_swap]
    by_cases h : stateId sha b = stateId sha l ∨ stateId sha b = stateId sha r
    · rw [if_pos h, if_pos h.symm]
      rfl
    · rw [if_neg h, if_neg (mt Or.symm h)]
      rfl

/-- Where the hash tells the base from the sides, a comparison fails exactly when a
side is the base. Otherwise the report holds the three ids and, under a key, a
conflict exactly when both sides left the base there and differ from each other,
with what the sides hold. It is empty exactly when the change sets commute.
Exchanging the sides exchanges them in the report. -/
theorem detect_exact (sha : Sha256) (vb vl vr : Value) (b l r : State)
    (hb : validatedState sha vb = .ok b) (hl : validatedState sha vl = .ok l)
    (hr : validatedState sha vr = .ok r)
    (hshaL : sha.Separates (Diff.stateText b) (Diff.stateText l))
    (hshaR : sha.Separates (Diff.stateText b) (Diff.stateText r)) :
    (detect sha vb vl vr = .error .divergentBase ↔ b = l ∨ b = r) ∧
    (¬ (b = l ∨ b = r) → ∃ report, detect sha vb vl vr = .ok report ∧
      report.baseId = stateId sha b ∧ report.leftId = stateId sha l ∧
      report.rightId = stateId sha r ∧
      (∀ k w, report.conflicts.lookup k = some w ↔ Clash b l r k ∧
        w = ⟨kindOf (b.lookup k) (l.lookup k) (r.lookup k), l.lookup k, r.lookup k⟩) ∧
      (report.conflicts = ∅ ↔
        applyChanges (changes b r) (applyChanges (changes b l) b) =
          applyChanges (changes b l) (applyChanges (changes b r) b))) ∧
    detect sha vb vr vl = (detect sha vb vl vr).map Report.swap := by
  have hids : stateId sha b = stateId sha l ∨ stateId sha b = stateId sha r ↔ b = l ∨ b = r :=
    or_congr
      ((tracked_of_validatedState hb).stateId_eq_iff (tracked_of_validatedState hl) hshaL)
      ((tracked_of_validatedState hb).stateId_eq_iff (tracked_of_validatedState hr) hshaR)
  refine ⟨?_, ?_, detect_swap sha vb vl vr⟩
  · rw [detect_eq hb hl hr, ← hids]
    split_ifs with hid
    · simp [hid]
    · simp [hid]
  · intro h
    refine ⟨_, (detect_eq hb hl hr).trans (if_neg (hids.not.mpr h)), rfl, rfl, rfl, ?_, ?_⟩
    · exact fun k w => lookup_conflicts_changes
    · exact conflicts_eq_empty.trans commute_iff.symm

/-- Both sides add the bare kings, one of them under another digest. -/
theorem detect_exact_bareKings : ∃ report, detect (.lengths 64) (.dict [])
      (Diff.stateValue
        (Finmap.singleton (Node.bareKey .white) (Node.bareRecord (.lengths 64) .white)))
      (Diff.stateValue (Finmap.singleton (Node.bareKey .white)
        { Node.bareRecord (.lengths 64) .white with
          digest := PositionDigest.digest (.lengths 64) [] })) = .ok report ∧
      report.conflicts ≠ ∅ := by
  have htracked : ∀ t, Tracked (Finmap.singleton (Node.bareKey .white)
      { Node.bareRecord (.lengths 64) .white with
        digest := PositionDigest.digest (.lengths 64) t }) := by
    intro t k x hx
    have hk := (Finmap.mem_singleton _ _ _).mp (Finmap.mem_of_lookup_eq_some hx)
    subst hk
    rw [Finmap.lookup_singleton_eq] at hx
    obtain rfl := Option.some.inj hx
    exact ⟨TranspositionNode.bareKings .white 1, Node.snapshot_bareKings .white,
      TranspositionNode.digestFormat_digest _ _, rfl⟩
  obtain ⟨-, hreport, -⟩ := detect_exact (.lengths 64) (.dict []) _ _ ∅ _ _ rfl
    (htracked (PositionDigest.encoding "standard".toList
      (TranspositionNode.bareKings .white 1))).validatedState_stateValue
    (htracked []).validatedState_stateValue
    (fun h => absurd h (by decide +kernel)) (fun h => absurd h (by decide +kernel))
  have hne : ∀ x : Record, ∅ ≠ (Finmap.singleton (Node.bareKey .white) x : State) := by
    intro x h
    have hlookup := congrArg (Finmap.lookup (Node.bareKey .white)) h
    rw [Finmap.lookup_singleton_eq] at hlookup
    cases hlookup
  obtain ⟨report, hdetect, -, -, -, hconflicts, -⟩ := hreport (not_or.mpr ⟨hne _, hne _⟩)
  refine ⟨report, hdetect, fun hempty => ?_⟩
  have hclash := (hconflicts (Node.bareKey .white) _).mpr ⟨⟨?_, ?_, ?_⟩, rfl⟩
  · rw [hempty] at hclash
    cases hclash
  · simp
  · simp
  · simp only [Finmap.lookup_singleton_eq, ne_eq, Option.some.injEq]
    decide +kernel

end Conflict
end OpenChess
