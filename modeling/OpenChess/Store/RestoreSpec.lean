import OpenChess.Store.Restore
import OpenChess.Store.WalSpec

/-!
# Backups that restore

The bundle determines the state, and the honest parser inverts the honest serializer.
A receipt that was produced is verified, and whatever parser a restore succeeds with,
the state is the one of the bundle.
-/

namespace OpenChess
namespace Restore

open PositionDigest (Sha256)
open TranspositionNode (Record)
open Wal (Accepted Entry canonicalPayload genesis)
open Backup (Serializer serializeBundle)
open Diff (Valid Separable)

variable {sha : Sha256} {log v : Value} {vs : List Value} {es : List Entry} {s : Diff.State}
  {r : Record} {k : Text} {serializer : Serializer} {receipt : Backup.Receipt} {t : Text}

/-! ### The honest parser -/

theorem partition_append {name value : Text} (h : '=' ∉ name) :
    partition (name ++ '=' :: value) = (name, value) := by
  have hall : ∀ c ∈ name, (c != '=') = true := by
    intro c hc
    exact bne_iff_ne.mpr (ne_of_mem_of_not_mem hc h)
  rw [partition, List.takeWhile_append_of_pos hall, List.dropWhile_append_of_pos hall]
  simp

/-- The members of a parsed record, in the order of the bundle. -/
def parsedRecord (r : Record) : Value :=
  .ofMembers [("digest".toList, .str r.digest), ("snapshot_fen".toList, .str r.snapshotFen),
    ("variant".toList, .str r.variant)]

theorem readRecord_parsedRecord (r : Record) : Node.readRecord (parsedRecord r) = some r := by
  have hmembers : (parsedRecord r).members? = some [("digest".toList, .str r.digest),
      ("snapshot_fen".toList, .str r.snapshotFen), ("variant".toList, .str r.variant)] :=
    Value.members?_ofMembers (by simp only [List.map_cons, List.map_nil]; decide)
  have hperm : ["digest".toList, "snapshot_fen".toList, "variant".toList].Perm
      Node.recordFields := by decide
  unfold Node.readRecord Value.fields?
  rw [hmembers]
  simp only [List.map_cons, List.map_nil, hperm, if_true]
  rfl

theorem parseRecord_recordText (h : Separable (k, r)) :
    parseRecord (Diff.recordText r) = parsedRecord r := by
  have hdigest : '=' ∉ "digest".toList := by decide
  have hsnapshot : '=' ∉ "snapshot_fen".toList := by decide
  have hvariant : '=' ∉ "variant".toList := by decide
  have hparts := Diff.splitOn_recordText h
  have hsplit : (Diff.recordText r).splitOn '|' = ["digest".toList ++ '=' :: r.digest,
      "snapshot_fen".toList ++ '=' :: r.snapshotFen, "variant".toList ++ '=' :: r.variant] := hparts
  unfold parseRecord parsedRecord
  rw [hsplit]
  simp only [List.foldl_cons, List.foldl_nil, partition_append hdigest, partition_append hsnapshot,
    partition_append hvariant]
  rfl

theorem parseLines_lines {l : List (Text × Record)} {acc : List (Text × Value)}
    (hl : ∀ e ∈ l, Separable e)
    (hnodup : ((acc ++ l.map fun e => (e.1, parsedRecord e.2)).map Prod.fst).Nodup) :
    parseLines acc (Diff.lines l) = some (acc ++ l.map fun e => (e.1, parsedRecord e.2)) := by
  induction l generalizing acc with
  | nil => simp [Diff.lines, parseLines]
  | cons e l ih =>
    obtain ⟨he, hl⟩ := List.forall_mem_cons.mp hl
    have hstep : Diff.lines (e :: l) = e.1 :: Diff.recordText e.2 :: Diff.lines l := rfl
    have hassoc : acc ++ (e :: l).map (fun e => (e.1, parsedRecord e.2)) =
        (acc ++ [(e.1, parsedRecord e.2)]) ++ l.map fun e => (e.1, parsedRecord e.2) := by simp
    have hnew : e.1 ∉ acc.map Prod.fst := by
      rw [List.map_append, List.nodup_append] at hnodup
      exact fun hmem => hnodup.2.2 e.1 hmem e.1 List.mem_cons_self rfl
    rw [hstep, parseLines, parseRecord_recordText he, Assoc.assign_of_notMem hnew, hassoc]
    exact ih hl (by rwa [← hassoc])

theorem separable_items (hs : Valid sha s) : ∀ e ∈ s.items, Separable e := fun e he =>
  Diff.separable_of_linked (hs.entries.linked e he)

theorem parseBundle_serializeBundle (hs : Valid sha s) : parseBundle (serializeBundle s) =
    some (.ofMembers (s.items.map fun e => (e.1, parsedRecord e.2))) := by
  have hsplit : (serializeBundle s).splitOn '\n' = Diff.lines s.items ++ [[]] :=
    Diff.splitOn_stateText (separable_items hs)
  have hlines : splitLines (serializeBundle s) = Diff.lines s.items := by
    unfold splitLines
    rw [hsplit, List.getLast?_concat, if_pos rfl, List.dropLast_concat]
  have hkeys : (([] ++ s.items.map fun e : Text × Record =>
      (e.1, parsedRecord e.2)).map Prod.fst).Nodup := by
    rw [List.nil_append, List.map_map]
    exact Dict.nodup_items s
  unfold parseBundle
  rw [hlines, parseLines_lines (separable_items hs) hkeys]
  rfl

/-! ### Record identities -/

theorem recordIdentity_eq_some : recordIdentity sha v = some k ↔
    ∃ r, Node.readRecord v = some r ∧ Node.Linked sha k r := by
  have hwal : recordIdentity sha v = (Wal.validateRecord sha v).map Prod.fst := by
    unfold recordIdentity Wal.validateRecord
    cases Node.readRecord v with
    | none => rfl
    | some r =>
      cases hmake : Node.makeRecord sha (.str r.variant) (.str r.snapshotFen) with
      | error e => simp only [hmake, Option.map_none]
      | ok derived =>
        cases hidentity : Node.recordIdentity sha derived with
        | none => simp only [hmake, hidentity, Option.map_none]
        | some identity =>
          simp only [hmake, hidentity]
          split_ifs <;> rfl
  rw [hwal]
  exact Wal.map_validateRecord_eq_some

theorem readEntry_eq_some :
    readEntry sha k v = some r ↔ Node.readRecord v = some r ∧ Node.Linked sha k r := by
  unfold readEntry
  by_cases h : recordIdentity sha v = some k
  · rw [if_pos h]
    obtain ⟨r', hread, hlinked⟩ := recordIdentity_eq_some.mp h
    rw [hread, Option.some.injEq]
    exact ⟨fun heq => ⟨heq, heq ▸ hlinked⟩, fun h' => h'.1⟩
  · rw [if_neg h]
    simp only [reduceCtorEq, false_iff]
    exact fun h' => h (recordIdentity_eq_some.mpr ⟨r, h'⟩)

/-! ### Backups -/

/-- The receipt of a frozen log and a bundle. -/
def receiptOf (sha : Sha256) (es : List Entry) (bundle : Text) : Backup.Receipt :=
  ⟨Backup.deriveBackupId sha (Wal.tipOf es) (Diff.contentId sha (Wal.fold es)) es.length bundle,
    Wal.tipOf es, Diff.contentId sha (Wal.fold es), es.length, bundle⟩

theorem backup_list_eq_ok : Backup.backup sha serializer (.list vs) = .ok receipt ↔
    ∃ es t, Accepted sha canonicalPayload vs es ∧ serializer (Wal.fold es) = some (.str t) ∧
      receipt = receiptOf sha es t := by
  unfold Backup.backup
  constructor
  · intro h
    cases hreplay : Wal.replay sha (Wal.pure canonicalPayload) (.list vs) with
    | error e => cases e <;> simp [hreplay] at h
    | ok replayed =>
      simp only [hreplay] at h
      obtain ⟨es, haccepted, rfl⟩ := Wal.replay_list_eq_ok.mp hreplay
      cases hserialize : Backup.serialize (serializer (Wal.receipt sha es).state) with
      | error e => simp [hserialize] at h
      | ok bundle =>
        simp only [hserialize, Except.ok.injEq] at h
        unfold Backup.serialize at hserialize
        split at hserialize
        · rename_i t hanswer
          obtain rfl := Except.ok.inj hserialize
          exact ⟨es, t, haccepted, hanswer, h.symm⟩
        · cases hserialize
  · intro h
    obtain ⟨es, t, haccepted, hanswer, rfl⟩ := h
    have hstate : (Wal.receipt sha es).state = Wal.fold es := rfl
    simp only [Wal.replay_list_eq_ok.mpr ⟨es, haccepted, rfl⟩, hstate, hanswer, Backup.serialize]
    rfl

theorem verify_receiptOf (h : Accepted sha canonicalPayload vs es)
    (hlength : vs.length ≤ Backup.countMax) (bundle : Text) :
    Backup.verify sha (receiptOf sha es bundle).toValue = .ok (receiptOf sha es bundle) := by
  have hnodup : Backup.recordFields.Nodup := by decide
  obtain ⟨hvalidated, hcount⟩ := Wal.validated_of_validateFrom h.validated
  have hbackup : Backup.backupGrammar (Backup.deriveBackupId sha (Wal.tipOf es)
      (Diff.contentId sha (Wal.fold es)) es.length bundle) = true := sha.tagged _ _
  have hhead : Backup.headGrammar (Wal.tipOf es) = true := hvalidated.priorGrammar_tipOf
  have hstate : Backup.stateGrammar (Diff.contentId sha (Wal.fold es)) = true := sha.tagged _ _
  have hrange : ¬ ((es.length : ℤ) < 0 ∨ (Backup.countMax : ℤ) < es.length) := by omega
  have hempty : ¬ ((es.length : ℤ) = 0 ∧ (Wal.tipOf es ≠ genesis ∨
      Diff.contentId sha (Wal.fold es) ≠ Backup.emptyStateId sha)) := by
    intro hdiverges
    obtain ⟨hzero, hne⟩ := hdiverges
    obtain rfl := List.eq_nil_of_length_eq_zero (Int.ofNat_eq_zero.mp hzero)
    exact hne.elim (fun hne => hne rfl) fun hne => hne rfl
  have hgenesis : ¬ (0 < (es.length : ℤ) ∧ Wal.tipOf es = genesis) := by
    intro hdiverges
    obtain ⟨hpos, htip⟩ := hdiverges
    cases es using List.reverseRecOn with
    | nil => exact absurd hpos (by decide)
    | append_singleton es e =>
      have hgrammar := (hvalidated.wellFormed e (by simp)).grammar
      rw [Wal.tipOf, HashChain.tipOf_concat] at htip
      rw [htip] at hgrammar
      exact absurd hgrammar (by decide)
  unfold Backup.verify Backup.Receipt.toValue
  rw [Value.fields?_object hnodup rfl]
  simp only [hbackup, receiptOf, hhead, hstate, hrange, hempty, hgenesis, Bool.true_eq_false,
    or_self, if_false, Int.toNat_natCast, ne_eq, not_true_eq_false]

/-! ### Restores -/

theorem of_restore {parser : Parser} {out : Receipt} (h : restore sha parser v = .ok out) :
    ∃ r, Backup.verify sha v = .ok r ∧ Valid sha out.state ∧
      serializeBundle out.state = r.bundle := by
  unfold restore at h
  cases hverify : Backup.verify sha v with
  | error e => cases e <;> simp [hverify] at h
  | ok r =>
    simp only [hverify] at h
    cases hparse : parse (parser r.bundle) with
    | error e => simp [hparse] at h
    | ok parsed =>
      simp only [hparse] at h
      cases hstage : stage sha r.stateId r.bundle parsed with
      | error e => simp [hstage] at h
      | ok state =>
        simp only [hstage, Except.ok.injEq] at h
        subst h
        refine ⟨r, rfl, ?_⟩
        unfold stage at hstage
        split at hstage
        · cases hstage
        · split at hstage
          · cases hstage
          · rename_i hid
            split_ifs at hstage with hsame hbundle
            obtain rfl := Except.ok.inj hstage
            exact ⟨(Diff.stateId_eq_ok.mp hid).1, not_not.mp hbundle⟩

theorem stage_serializeBundle (hs : Valid sha s) :
    stage sha (Diff.contentId sha s) (serializeBundle s)
      (.ofMembers (s.items.map fun e => (e.1, parsedRecord e.2))) = .ok s := by
  have hread : (Value.ofMembers (s.items.map fun e => (e.1, parsedRecord e.2))).readMembers
      (readEntry sha) = some s.items :=
    Value.readMembers_ofMembers (Dict.nodup_items s) fun e he =>
      readEntry_eq_some.mpr ⟨readRecord_parsedRecord e.2, hs.entries.linked e he⟩
  simp only [stage, hread, Dict.ofList_items, hs.stateId_eq, ne_eq, not_true_eq_false, if_false]

theorem state_of_replay {calls : ℕ → Wal.Canonicalizer} {out : Wal.Receipt}
    (h : Wal.replay sha calls (.list vs) = .ok out) :
    ∃ es, Wal.validateLog sha vs = .ok es ∧ out.state = Wal.fold es := by
  simp only [Wal.replay] at h
  cases hvalidated : Wal.validateLog sha vs with
  | error e => simp [hvalidated] at h
  | ok es =>
    simp only [hvalidated, Wal.derive] at h
    cases hrederive : Wal.rederive sha calls es with
    | error e => simp [hrederive] at h
    | ok =>
      cases hid : Diff.stateId sha (Wal.fold es) with
      | error e => simp [hrederive, hid] at h
      | ok id =>
        simp only [hrederive, hid, Except.ok.injEq] at h
        subst h
        exact ⟨es, rfl, rfl⟩

/-- A log that replays has a backup with the honest serializer, and the restore of it
with the honest parser returns the replayed state. Every receipt that was produced is
verified, whatever text the serializer returned. Two restores of one receipt return
one state, whatever the parsers. The length of a log is the length of a list. -/
theorem backup_restore (sha : Sha256) :
    (∀ vs calls out, vs.length ≤ Backup.countMax → Wal.replay sha calls (.list vs) = .ok out →
      (calls = Wal.pure canonicalPayload →
        ∃ receipt, Backup.backup sha Backup.honest (.list vs) = .ok receipt) ∧
      ∀ receipt, Backup.backup sha Backup.honest (.list vs) = .ok receipt →
        ∃ out', restore sha parseBundle receipt.toValue = .ok out' ∧ out'.state = out.state) ∧
    (∀ vs serializer receipt, vs.length ≤ Backup.countMax →
      Backup.backup sha serializer (.list vs) = .ok receipt →
      Backup.verify sha receipt.toValue = .ok receipt) ∧
    ∀ parser parser' v out out', restore sha parser v = .ok out →
      restore sha parser' v = .ok out' → out.state = out'.state := by
  refine ⟨?_, ?_, ?_⟩
  · intro vs calls out hlength hreplay
    constructor
    · intro hcalls
      subst hcalls
      obtain ⟨es, haccepted, -⟩ := Wal.replay_list_eq_ok.mp hreplay
      exact ⟨_, backup_list_eq_ok.mpr ⟨es, _, haccepted, rfl, rfl⟩⟩
    · intro receipt hbackup
      obtain ⟨es, t, haccepted, hanswer, rfl⟩ := backup_list_eq_ok.mp hbackup
      obtain ⟨fs, hvalidated, hstate⟩ := state_of_replay hreplay
      obtain rfl := Except.ok.inj (haccepted.validated.symm.trans hvalidated)
      obtain rfl := Value.str.inj (Option.some.inj hanswer)
      have hvalid := Wal.valid_fold haccepted.linked
      unfold restore
      simp only [verify_receiptOf haccepted hlength]
      simp only [receiptOf, parseBundle_serializeBundle hvalid]
      have hparse : parse (some (.ofMembers ((Wal.fold es).items.map fun e =>
          (e.1, parsedRecord e.2)))) =
          .ok (.ofMembers ((Wal.fold es).items.map fun e => (e.1, parsedRecord e.2))) := rfl
      simp only [hparse, stage_serializeBundle hvalid]
      exact ⟨_, rfl, hstate.symm⟩
  · intro vs serializer receipt hlength hbackup
    obtain ⟨es, t, haccepted, -, rfl⟩ := backup_list_eq_ok.mp hbackup
    exact verify_receiptOf haccepted hlength t
  · intro parser parser' v out out' hout hout'
    obtain ⟨r, hr, hvalid, hbundle⟩ := of_restore hout
    obtain ⟨r', hr', hvalid', hbundle'⟩ := of_restore hout'
    obtain rfl := Except.ok.inj (hr.symm.trans hr')
    exact hvalid.stateText_injective hvalid' (hbundle.trans hbundle'.symm)

/-- The log of the bare kings, backed up and restored. -/
theorem backup_restore_bareKings : ∃ vs receipt out,
    Backup.backup (.lengths 64) Backup.honest (.list vs) = .ok receipt ∧
    restore (.lengths 64) parseBundle receipt.toValue = .ok out ∧
    out.state.lookup (Node.bareKey .white) = some (Node.bareRecord (.lengths 64) .white) := by
  have hlinked : Node.Linked (.lengths 64) (Wal.bareRequest (.lengths 64)).identity
      (Wal.bareRequest (.lengths 64)).record := Node.linked_bareRecord (.lengths 64) .white
  have hempty : Accepted (.lengths 64) canonicalPayload [] [] := Accepted.nil
  have haccepted := hempty.append hlinked
  have hreplay := Wal.replay_list_eq_ok.mpr ⟨_, haccepted, rfl⟩
  obtain ⟨hrestores, -, -⟩ := backup_restore (.lengths 64)
  obtain ⟨hbackup, hrestore⟩ := hrestores _ _ _ (by decide) hreplay
  obtain ⟨receipt, hreceipt⟩ := hbackup rfl
  obtain ⟨out, hout, hstate⟩ := hrestore receipt hreceipt
  refine ⟨_, receipt, out, hreceipt, hout, ?_⟩
  rw [hstate]
  have hfold := Wal.fold_concat []
    (Wal.staged (.lengths 64) canonicalPayload [] (Wal.bareRequest (.lengths 64)))
  exact (congrArg (Finmap.lookup _) hfold).trans
    ((Wal.lookup_apply _ _ _ _ _).trans (if_pos rfl))

end Restore
end OpenChess

/-!
## Bundles of valid states

A bundle is parsed back to the state it was written from, whatever the order of the members
was, so that no two valid states have one bundle.
-/

namespace OpenChess
namespace Restore

open PositionDigest (Sha256)
open TranspositionNode (Record)
open Backup (serializeBundle)

variable {sha : Sha256} {v w : Value} {names : List Text} {values : List Value} {r : Record}
  {s : Diff.State} {l m : List (Text × Value)}

/-- `==` of two dictionaries, by the comparison of their values: the order does not count. -/
def SameMembers (same : Value → Value → Prop) (v w : Value) : Prop :=
  ∃ l m, v.members? = some l ∧ w.members? = some m ∧
    ∀ name, Option.Rel same (l.lookup name) (m.lookup name)

/-- `==` of two states: the same identities, and under each the same fields. -/
def SameState : Value → Value → Prop := SameMembers (SameMembers (· = ·))

theorem lookup_eq_none {V : Type} {l : List (Text × V)} {name : Text}
    (h : name ∉ l.map Prod.fst) : l.lookup name = none := by
  rw [List.lookup_eq_none_iff]
  intro e he
  rw [bne_iff_ne]
  rintro rfl
  exact h (List.mem_map.mpr ⟨e, he, rfl⟩)

theorem sameMembers_of_fields? (hv : v.fields? names = some values)
    (hw : w.fields? names = some values) : SameMembers (· = ·) v w := by
  have hmembers : ∀ u : Value, u.fields? names = some values →
      ∃ l, u.members? = some l ∧ (l.map Prod.fst).Perm names := by
    intro u hu
    rw [Value.fields?] at hu
    cases hl : u.members? with
    | none => simp [hl] at hu
    | some l =>
      simp only [hl] at hu
      split_ifs at hu with hperm
      exact ⟨l, rfl, hperm⟩
  obtain ⟨l, hl, hlnames⟩ := hmembers v hv
  obtain ⟨m, hm, hmnames⟩ := hmembers w hw
  refine ⟨l, m, hl, hm, fun name => ?_⟩
  have hlookup : l.lookup name = m.lookup name := by
    by_cases hname : name ∈ names
    · obtain ⟨i, hi⟩ := List.mem_iff_getElem?.mp hname
      have hboth := (Value.member?_of_fields? hv hi).trans (Value.member?_of_fields? hw hi).symm
      rw [Value.member?, Value.member?, hl, hm] at hboth
      exact hboth
    · rw [lookup_eq_none fun h => hname (hlnames.mem_iff.mp h),
        lookup_eq_none fun h => hname (hmnames.mem_iff.mp h)]
  rw [hlookup]
  cases m.lookup name with
  | none => exact .none
  | some value => exact .some rfl

theorem sameMembers_of_readRecord (hv : Node.readRecord v = some r)
    (hw : Node.readRecord w = some r) : SameMembers (· = ·) v w := by
  have hfields : ∀ u, Node.readRecord u = some r → u.fields? Node.recordFields =
      some [.str r.variant, .str r.digest, .str r.snapshotFen] := by
    intro u hu
    unfold Node.readRecord at hu
    split at hu
    · rename_i hfields
      rw [hfields, ← Option.some.inj hu]
    · cases hu
  exact sameMembers_of_fields? (hfields v hv) (hfields w hw)

theorem lookup_of_readMembers {V : Type} {read : Text → Value → Option V} {es : List (Text × V)}
    (h : v.readMembers read = some es) : ∃ l, v.members? = some l ∧
      ∀ name, Option.Rel (fun x y => read name x = some y) (l.lookup name) (es.lookup name) := by
  have hread : ∀ (l : List (Text × Value)) (es : List (Text × V)),
      l.mapM (fun e => (read e.1 e.2).map (Prod.mk e.1)) = some es →
      ∀ name, Option.Rel (fun x y => read name x = some y) (l.lookup name) (es.lookup name) := by
    intro l
    induction l with
    | nil =>
      intro es hes name
      obtain rfl := Option.some.inj hes
      exact .none
    | cons e l ih =>
      intro es hes name
      obtain ⟨k, x⟩ := e
      simp only [List.mapM_cons, Option.bind_eq_bind, Option.bind_eq_some_iff, Option.pure_def,
        Option.some.injEq, Option.map_eq_some_iff] at hes
      obtain ⟨_, ⟨y, hy, rfl⟩, es, hes, rfl⟩ := hes
      by_cases hname : name = k
      · subst hname
        rw [List.lookup_cons_self, List.lookup_cons_self]
        exact .some hy
      · rw [Dict.lookup_cons_of_ne hname, Dict.lookup_cons_of_ne hname]
        exact ih es hes name
  unfold Value.readMembers at h
  split at h
  · cases h
  · rename_i l hl
    exact ⟨l, hl, hread l es h⟩

/-- Two objects whose members are read as the same records have the same members. -/
theorem sameState_of_readMembers {read : Text → Value → Option Record}
    {es es' : List (Text × Record)}
    (hrecord : ∀ name x r, read name x = some r → Node.readRecord x = some r)
    (hv : v.readMembers read = some es) (hw : w.readMembers read = some es')
    (hsame : Dict.ofList es = Dict.ofList es') : SameState v w := by
  obtain ⟨l, hl, hlread⟩ := lookup_of_readMembers hv
  obtain ⟨m, hm, hmread⟩ := lookup_of_readMembers hw
  refine ⟨l, m, hl, hm, fun name => ?_⟩
  have hvalue := hlread name
  have hvalue' := hmread name
  rw [← Dict.lookup_ofList es, hsame, Dict.lookup_ofList] at hvalue
  generalize es'.lookup name = found at hvalue hvalue'
  generalize l.lookup name = x at hvalue ⊢
  generalize m.lookup name = y at hvalue' ⊢
  cases hvalue with
  | none =>
    cases hvalue'
    exact .none
  | some hx =>
    cases hvalue' with
    | some hy =>
      exact .some (sameMembers_of_readRecord (hrecord _ _ _ hx) (hrecord _ _ _ hy))

theorem sameState_of_validateState (hv : Diff.validateState sha v = .ok s)
    (hw : Diff.validateState sha w = .ok s) : SameState v w := by
  obtain ⟨es, hes, hs⟩ := Diff.validateState_eq_ok.mp hv
  obtain ⟨es', hes', hs'⟩ := Diff.validateState_eq_ok.mp hw
  exact sameState_of_readMembers (fun _ _ _ hread => (Diff.readEntry_eq_some.mp hread).1) hes hes'
    (hs.symm.trans hs')

theorem validateState_parsed (hs : Diff.Valid sha s) :
    Diff.validateState sha (.ofMembers (s.items.map fun e => (e.1, parsedRecord e.2))) = .ok s :=
  Diff.validateState_eq_ok.mpr ⟨s.items, Value.readMembers_ofMembers (Dict.nodup_items s)
    fun e he => Diff.readEntry_eq_some.mpr ⟨readRecord_parsedRecord _, hs.entries.linked e he⟩,
    (Dict.ofList_items s).symm⟩

/-- The parser inverts the serializer on every state that is accepted, and no two states that
differ have one bundle, which is the text behind the state id. -/
theorem bundle_inverse (sha : Sha256) :
    (∀ v s, Diff.validateState sha v = .ok s →
      Diff.stateId sha s = .ok (Diff.tag ++ sha.hexdigest (serializeBundle s)) ∧
      ∃ parsed, parseBundle (serializeBundle s) = some parsed ∧ SameState parsed v) ∧
    ∀ v w s t, Diff.validateState sha v = .ok s → Diff.validateState sha w = .ok t →
      serializeBundle s = serializeBundle t → SameState v w := by
  refine ⟨fun v s hv => ?_, fun v w s t hv hw hbundle => ?_⟩
  · have hvalid := Diff.valid_of_validateState hv
    exact ⟨hvalid.stateId_eq, _, parseBundle_serializeBundle hvalid,
      sameState_of_validateState (validateState_parsed hvalid) hv⟩
  · obtain rfl : s = t := (Diff.valid_of_validateState hv).stateText_injective
      (Diff.valid_of_validateState hw) hbundle
    exact sameState_of_validateState hv hw

/-- The bundle of the bare kings. -/
theorem bundle_inverse_bareKings : ∃ parsed,
    parseBundle (serializeBundle (Finmap.singleton (Node.bareKey .white)
      (Node.bareRecord (.lengths 64) .white))) = some parsed ∧
    SameState parsed (Diff.stateValue (Finmap.singleton (Node.bareKey .white)
      (Node.bareRecord (.lengths 64) .white))) :=
  ((bundle_inverse (.lengths 64)).1 _ _
    (Diff.valid_singleton (Node.linked_bareRecord _ .white)).validateState_stateValue).2

end Restore
end OpenChess
