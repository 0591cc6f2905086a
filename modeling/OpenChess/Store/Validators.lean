import OpenChess.Store.RestoreSpec

/-!
# Agreement of the record validators

Four validators read a caller's node record. Three of them test exact types first;
`record_identity` of the graph compares, and an object that is no exact string may
compare equal to one. Apart from such objects the four agree.
-/

namespace OpenChess
namespace Validators

open PositionDigest (Sha256)
open TranspositionNode (Record)
open Node (Linked recordFields readRecord)

variable {equals : ℕ → Text → Bool} {sha : Sha256} {v : Value} {r : Record} {k name : Text}
  {entries : List (Scalar × Value)} {members : List (Text × Value)}

/-! ### The four validators -/

/-- The key of an entry is this name, or compares equal to it. Foreign objects compare
as `equals` says. -/
def sameKey (equals : ℕ → Text → Bool) (name : Text) : Scalar → Bool
  | .str t => t == name
  | .foreign tag => equals tag name

/-- `value == t` for a text `t`. -/
def sameText (equals : ℕ → Text → Bool) (t : Text) : Value → Bool
  | .str u => u == t
  | .foreign tag => equals tag t
  | _ => false

/-- A member as the FEN runtimes see it. -/
def scalarOf : Value → Scalar
  | .str t => .str t
  | _ => .foreign 0

/-- `record[name]`. -/
def item (equals : ℕ → Text → Bool) (entries : List (Scalar × Value)) (name : Text) :
    Option Value := (entries.find? fun e => sameKey equals name e.1).map Prod.snd

/-- `graph.node.record_identity` on an object; `none` where it raises. -/
def nodeIdentity (equals : ℕ → Text → Bool) (sha : Sha256) : Value → Option Text
  | .dict entries =>
    if entries.length ≠ recordFields.length ∨
        ¬ ∀ e ∈ entries, ∃ name ∈ recordFields, sameKey equals name e.1 = true then none
    else
      match item equals entries "variant".toList, item equals entries "digest".toList,
          item equals entries "snapshot_fen".toList with
      | some variant, some digest, some snapshot =>
        match Node.makeRecord sha (scalarOf variant) (scalarOf snapshot) with
        | .error _ => none
        | .ok expected =>
          if sameText equals expected.variant variant = false ∨
              sameText equals expected.digest digest = false ∨
              sameText equals expected.snapshotFen snapshot = false then none
          else
            match VariantRuntime.parsePosition (scalarOf variant) (scalarOf snapshot) with
            | .error _ => none
            | .ok position =>
              match VariantRuntime.identity position with
              | .error _ => none
              | .ok projection => some (Node.key projection)
      | _, _, _ => none
  | _ => none

/-- `graph.diff._record_identity` on an object. -/
def diffIdentity (sha : Sha256) (v : Value) : Option Text :=
  (readRecord v).bind (Diff.recordIdentity sha)

/-- `store.wal._validate_record` on an object. -/
def walIdentity (sha : Sha256) (v : Value) : Option Text := (Wal.validateRecord sha v).map Prod.fst

/-! ### What they accept -/

theorem diffIdentity_eq_some :
    diffIdentity sha v = some k ↔ ∃ r, readRecord v = some r ∧ Linked sha k r := by
  simp only [diffIdentity, Option.bind_eq_some_iff, Diff.recordIdentity_eq_some]

theorem walIdentity_eq_some :
    walIdentity sha v = some k ↔ ∃ r, readRecord v = some r ∧ Linked sha k r :=
  Wal.map_validateRecord_eq_some

/-- The object is a dictionary that compares equal to the record, its variant and its
snapshot being exact strings. -/
structure Passes (equals : ℕ → Text → Bool) (v : Value) (r : Record) : Prop where
  exists_entries : ∃ entries digest, v = .dict entries ∧ entries.length = recordFields.length ∧
    (∀ e ∈ entries, ∃ name ∈ recordFields, sameKey equals name e.1 = true) ∧
    item equals entries "variant".toList = some (.str r.variant) ∧
    item equals entries "digest".toList = some digest ∧ sameText equals r.digest digest = true ∧
    item equals entries "snapshot_fen".toList = some (.str r.snapshotFen)

theorem sameText_str {t : Text} : sameText equals t (.str t) = true := beq_self_eq_true t

theorem scalarOf_eq_str {w : Value} {t : Text} (h : scalarOf w = .str t) : w = .str t := by
  cases w with
  | str u => rw [Scalar.str.inj h]
  | _ => cases h

theorem nodeIdentity_eq_some :
    nodeIdentity equals sha v = some k ↔ ∃ r, Passes equals v r ∧ Linked sha k r := by
  constructor
  · intro h
    cases v with
    | dict entries =>
      simp only [nodeIdentity] at h
      split_ifs at h with hkeys
      obtain ⟨hlength, hkeys⟩ := not_or.mp hkeys
      rw [not_not] at hlength hkeys
      cases hvariant : item equals entries "variant".toList with
      | none =>
        simp only [hvariant] at h
        cases h
      | some variant =>
        cases hdigest : item equals entries "digest".toList with
        | none =>
          simp only [hvariant, hdigest] at h
          cases h
        | some digest =>
          cases hsnapshot : item equals entries "snapshot_fen".toList with
          | none =>
            simp only [hvariant, hdigest, hsnapshot] at h
            cases h
          | some snapshot =>
            simp only [hvariant, hdigest, hsnapshot] at h
            cases hmake : Node.makeRecord sha (scalarOf variant) (scalarOf snapshot) with
            | error e =>
              simp only [hmake] at h
              cases h
            | ok expected =>
              simp only [hmake] at h
              split_ifs at h with hsame
              simp only [not_or, Bool.not_eq_false] at hsame
              obtain ⟨hv, p, hp, hexpected⟩ := Node.snapshot_of_makeRecord hmake
              obtain rfl := scalarOf_eq_str hv
              have hsnapshotText : snapshot = .str expected.snapshotFen := by
                cases snapshot with
                | str t =>
                  have hequal := hsame.2.2
                  simp only [sameText, beq_iff_eq] at hequal
                  rw [hequal]
                | _ =>
                  obtain ⟨_, _, -, -, hfen, -⟩ := Agreement.accepted_of_makeRecord hmake
                  cases hfen
              subst hsnapshotText
              simp only [scalarOf, hp.parse, hp.identity] at h
              exact ⟨expected, ⟨entries, digest, rfl, hlength, hkeys, hvariant, hdigest, hsame.2.1,
                hsnapshot⟩, p, hp, hexpected, (Option.some.inj h).symm⟩
    | _ => cases h
  · intro h
    obtain ⟨r, ⟨entries, digest, rfl, hlength, hkeys, hvariant, hdigest, hsame, hsnapshot⟩, p, hp,
      hexpected, rfl⟩ := h
    have hmake : Node.makeRecord sha _ _ = _ := hp.makeRecord
    simp only [nodeIdentity]
    rw [if_neg (not_or.mpr ⟨not_not.mpr hlength, not_not.mpr hkeys⟩)]
    simp only [hvariant, hdigest, hsnapshot, scalarOf, hmake, sameText_str, ← hexpected, hsame,
      Bool.true_eq_false, or_self, if_false, hp.parse, hp.identity]

/-! ### Agreement -/

theorem item_eq_lookup (hentries : entries = members.map fun e => (.str e.1, e.2)) :
    item equals entries name = members.lookup name := by
  subst hentries
  induction members with
  | nil => rfl
  | cons e members ih =>
    by_cases hname : name = e.1
    · subst hname
      rw [List.lookup_cons_self]
      simp [item, sameKey]
    · have hkey : (e.1 == name) = false := beq_false_of_ne (Ne.symm hname)
      have hskip : item equals ((e :: members).map fun e => (.str e.1, e.2)) name =
          item equals (members.map fun e => (.str e.1, e.2)) name := by
        rw [item, List.map_cons, List.find?_cons_of_neg (by simp [sameKey, hkey])]
        rfl
      rw [hskip, ih]
      exact (Dict.lookup_cons_of_ne hname).symm

theorem members_of_readRecord (h : readRecord v = some r) : ∃ members,
    v.members? = some members ∧ (members.map Prod.fst).Perm recordFields ∧
      members.lookup "variant".toList = some (.str r.variant) ∧
      members.lookup "digest".toList = some (.str r.digest) ∧
      members.lookup "snapshot_fen".toList = some (.str r.snapshotFen) := by
  unfold readRecord at h
  split at h
  · rename_i variant digest snapshot hfields
    obtain rfl := Option.some.inj h
    unfold Value.fields? at hfields
    split at hfields
    · cases hfields
    · rename_i members hmembers
      split_ifs at hfields with hperm
      simp only [recordFields, List.mapM_cons, List.mapM_nil, Option.bind_eq_bind,
        Option.bind_eq_some_iff, Option.pure_def, Option.some.injEq] at hfields
      obtain ⟨_, hvariant, _, ⟨_, hdigest, _, ⟨_, hsnapshot, _, rfl, rfl⟩, rfl⟩, heq⟩ := hfields
      simp only [List.cons.injEq, and_true] at heq
      obtain ⟨rfl, rfl, rfl⟩ := heq
      exact ⟨members, hmembers, hperm, hvariant, hdigest, hsnapshot⟩
  · cases h

theorem passes_of_readRecord (h : readRecord v = some r) : Passes equals v r := by
  obtain ⟨members, hmembers, hperm, hvariant, hdigest, hsnapshot⟩ := members_of_readRecord h
  cases v with
  | dict entries =>
    have hentries := Value.members?_dict hmembers
    refine ⟨entries, .str r.digest, rfl, ?_, fun e he => ?_, ?_, ?_, sameText_str, ?_⟩
    · rw [hentries, List.length_map, ← hperm.length_eq, List.length_map]
    · rw [hentries] at he
      obtain ⟨m, hm, rfl⟩ := List.mem_map.mp he
      exact ⟨m.1, hperm.mem_iff.mp (List.mem_map_of_mem hm), beq_self_eq_true m.1⟩
    · rw [item_eq_lookup hentries, hvariant]
    · rw [item_eq_lookup hentries, hdigest]
    · rw [item_eq_lookup hentries, hsnapshot]
  | _ => cases hmembers

/-- An exact record passes for itself only. -/
theorem Passes.unique {r' : Record} (h : Passes equals v r) (h' : readRecord v = some r') :
    r = r' := by
  obtain ⟨entries, digest, rfl, -, -, hvariant, hdigest, hsame, hsnapshot⟩ := h
  obtain ⟨members, hmembers, -, hvariant', hdigest', hsnapshot'⟩ := members_of_readRecord h'
  have hentries := Value.members?_dict hmembers
  rw [item_eq_lookup hentries] at hvariant hdigest hsnapshot
  obtain hv := Value.str.inj (Option.some.inj (hvariant.symm.trans hvariant'))
  obtain hs := Value.str.inj (Option.some.inj (hsnapshot.symm.trans hsnapshot'))
  obtain rfl := Option.some.inj (hdigest.symm.trans hdigest')
  have hd := beq_iff_eq.mp hsame
  obtain ⟨variant, digest, snapshot⟩ := r
  obtain ⟨variant', digest', snapshot'⟩ := r'
  rw [Record.mk.injEq]
  exact ⟨hv, hd.symm, hs⟩

/-- The four validators answer alike. -/
def Agree (equals : ℕ → Text → Bool) (sha : Sha256) (v : Value) : Prop :=
  nodeIdentity equals sha v = diffIdentity sha v ∧ diffIdentity sha v = walIdentity sha v ∧
    walIdentity sha v = Restore.recordIdentity sha v

/-- The object compares equal to a linked record, but one of its keys or its digest is
no exact string. -/
def Disguised (equals : ℕ → Text → Bool) (sha : Sha256) (v : Value) : Prop :=
  (∃ k r, Linked sha k r ∧ Passes equals v r) ∧ readRecord v = none

theorem replay_ne_diff (calls : ℕ → Wal.Canonicalizer) (log : Value) (cls : Diff.FailureClass) :
    Wal.replay sha calls log ≠ .error (.diff cls) := by
  cases log with
  | list vs =>
    simp only [Wal.replay]
    cases hvalidated : Wal.validateLog sha vs with
    | error e => simp
    | ok es =>
      have hwf := (Wal.validated_of_validateFrom hvalidated).1.wellFormed
      have hvalid := Wal.valid_fold fun e he => (hwf e he).linked
      simp only [Wal.derive]
      cases Wal.rederive sha calls es with
      | error e => simp
      | ok => simp [hvalid.stateId_eq]
  | _ => simp [Wal.replay]

/-- The four validators agree on an object unless it is a disguised record, and a
replay never fails in the state id. -/
theorem agree_iff (equals : ℕ → Text → Bool) (sha : Sha256) :
    (∀ v, Agree equals sha v ↔ ¬ Disguised equals sha v) ∧
    ∀ calls log cls, Wal.replay sha calls log ≠ .error (.diff cls) := by
  refine ⟨fun v => ⟨fun hagree hdisguised => ?_, fun hplain => ⟨?_, ?_, ?_⟩⟩, replay_ne_diff⟩
  · obtain ⟨⟨k, r, hlinked, hpasses⟩, hread⟩ := hdisguised
    have hnode := nodeIdentity_eq_some.mpr ⟨r, hpasses, hlinked⟩
    rw [hagree.1, diffIdentity_eq_some] at hnode
    obtain ⟨r', hread', -⟩ := hnode
    rw [hread] at hread'
    cases hread'
  · refine Option.ext fun k => ?_
    rw [nodeIdentity_eq_some, diffIdentity_eq_some]
    constructor
    · intro h
      obtain ⟨r, hpasses, hlinked⟩ := h
      cases hread : readRecord v with
      | none => exact absurd ⟨⟨k, r, hlinked, hpasses⟩, hread⟩ hplain
      | some r' =>
        obtain rfl := hpasses.unique hread
        exact ⟨r, rfl, hlinked⟩
    · intro h
      obtain ⟨r, hread, hlinked⟩ := h
      exact ⟨r, passes_of_readRecord hread, hlinked⟩
  · exact Option.ext fun k => diffIdentity_eq_some.trans walIdentity_eq_some.symm
  · exact Option.ext fun k => walIdentity_eq_some.trans Restore.recordIdentity_eq_some.symm

/-- The record of the bare kings, its digest an object that compares equal to it. -/
def disguised (sha : Sha256) : Value :=
  .object recordFields [.str (Node.bareRecord sha .white).variant, .foreign 0,
    .str (Node.bareRecord sha .white).snapshotFen]

theorem disguised_not_agree :
    ¬ ∀ (equals : ℕ → Text → Bool) (sha : Sha256) (v : Value), Agree equals sha v := by
  intro hagree
  have hpasses : Passes (fun _ t => t == (Node.bareRecord (.lengths 64) .white).digest)
      (disguised (.lengths 64)) (Node.bareRecord (.lengths 64) .white) := by
    refine ⟨_, .foreign 0, rfl, rfl, fun e he => ?_, rfl, rfl, beq_self_eq_true _, rfl⟩
    obtain ⟨m, hm, rfl⟩ := List.mem_map.mp he
    exact ⟨m.1, (List.of_mem_zip hm).1, beq_self_eq_true m.1⟩
  have hnode := nodeIdentity_eq_some.mpr
    ⟨_, hpasses, Node.linked_bareRecord (.lengths 64) .white⟩
  rw [(hagree _ _ _).1, diffIdentity_eq_some] at hnode
  obtain ⟨r, hread, -⟩ := hnode
  have hnodup : recordFields.Nodup := by decide
  unfold readRecord disguised at hread
  rw [Value.fields?_object hnodup rfl] at hread
  cases hread

end Validators
end OpenChess
