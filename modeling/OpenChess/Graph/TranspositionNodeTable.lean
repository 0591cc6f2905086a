import OpenChess.Graph.TranspositionNodeSpec

/-!
# Runs of a node table

Insertion adds the made record unless the table holds that very record. A run
therefore keeps every record valid exactly as long as the oracle answers on an
accepted text as it answers on the snapshot that is stored for it.
-/

namespace OpenChess
namespace TranspositionNode

open Fen PositionDigest

variable {o o' : Oracle} {r : Record} {T T' : Table}

/-! ### Records as dictionaries -/

theorem readRecord_object (r : Record) :
    ∃ members, r.object = .mapping members ∧ exactDict members ∧ readRecord members = some r := by
  have hvd : key "variant" ≠ key "digest" := by unfold key; decide
  have hvs : key "variant" ≠ key "snapshot_fen" := by unfold key; decide
  have hds : key "digest" ≠ key "snapshot_fen" := by unfold key; decide
  have hstr : ∀ name, (key name).text?.isSome := by
    intro name
    unfold key
    rfl
  refine ⟨_, rfl, fun k hk => ?_, ?_⟩
  · simp only [Finmap.mem_keys, Finmap.mem_insert, Finmap.notMem_empty, or_false] at hk
    obtain rfl | rfl | rfl := hk <;> exact hstr _
  · unfold readRecord
    rw [if_pos]
    · simp only [Finmap.lookup_insert_of_ne _ hvs, Finmap.lookup_insert_of_ne _ hvd,
        Finmap.lookup_insert_of_ne _ hds, Finmap.lookup_insert, Option.bind_some, Member.text?]
    · ext k
      simp only [Finmap.mem_keys, Finmap.mem_insert, Finmap.notMem_empty, or_false,
        Finset.mem_insert, Finset.mem_singleton]
      tauto

theorem validateRecord_object : validateRecord o r.object = .ok r ↔ Valid o r := by
  rw [validateRecord_eq_ok, and_iff_right_iff_imp]
  intro
  obtain ⟨members, hobject, -, hread⟩ := readRecord_object r
  exact ⟨members, hobject, hread⟩

theorem freeze_object (r : Record) : freeze r.object = some r.object := by
  obtain ⟨members, hobject, hexact, -⟩ := readRecord_object r
  rw [hobject, freeze, if_pos hexact]

/-! ### Insertion -/

/-- What holds of every table, whatever the oracle answers. -/
structure Sound (T : Table) : Prop where
  keyed : Buckets.Keyed Record.digest T
  stored : ∀ r ∈ Buckets.records T, Stored r
  nodup : (Buckets.records T).Nodup

theorem Sound.new : Sound [] :=
  ⟨Buckets.Keyed.nil _, (fun _ hr => by cases hr), List.nodup_nil⟩

def add (T : Table) (r : Record) : Table :=
  if r ∈ Buckets.records T then T else Buckets.push T r.digest r

theorem mem_add {s : Record} :
    s ∈ Buckets.records (add T r) ↔ s = r ∨ s ∈ Buckets.records T := by
  unfold add
  split_ifs with h
  · constructor
    · exact .inr
    · intro hs
      obtain rfl | hs := hs
      · exact h
      · exact hs
  · exact Buckets.mem_records_push

theorem Sound.add (h : Sound T) (hr : Stored r) : Sound (add T r) := by
  have hstored : ∀ s ∈ Buckets.records (TranspositionNode.add T r), Stored s := by
    intro s hs
    obtain rfl | hs := mem_add.mp hs
    · exact hr
    · exact h.stored s hs
  unfold TranspositionNode.add at hstored ⊢
  split_ifs at hstored ⊢ with hmem
  · exact h
  · refine ⟨h.keyed.push, hstored, ?_⟩
    rw [(Buckets.records_push T r.digest r).nodup_iff]
    exact List.nodup_cons.mpr ⟨hmem, h.nodup⟩

theorem findExisting_spec {new : Identity} {bucket : List Record} (h : ∀ s ∈ bucket, Stored s) :
    (∃ e ∈ bucket, identity e = some new ∧ findExisting new bucket = .ok (some e)) ∨
      (∀ s ∈ bucket, identity s ≠ some new) ∧ findExisting new bucket = .ok none := by
  induction bucket with
  | nil => exact .inr ⟨(fun s hs => by cases hs), rfl⟩
  | cons e bucket ih =>
    obtain ⟨i, hi, -, -⟩ := (h e List.mem_cons_self).identity_eq
    rw [findExisting, hi]
    simp only
    split_ifs with heq
    · exact .inl ⟨e, List.mem_cons_self, heq ▸ hi, rfl⟩
    · rcases ih fun s hs => h s (List.mem_cons_of_mem _ hs) with ⟨e', he', hsame, hfind⟩ | hnone
      · exact .inl ⟨e', List.mem_cons_of_mem _ he', hsame, hfind⟩
      · refine .inr ⟨fun s hs => ?_, hnone.2⟩
        rcases List.mem_cons.mp hs with rfl | hs
        · rw [hi, ne_eq, Option.some.injEq]
          exact heq
        · exact hnone.1 s hs

/-- An accepted insertion returns the made record, and adds it. -/
theorem insert_eq (h : Sound T) (variant fen : Scalar) : insert o variant fen T =
    match makeRecord o variant fen with
    | .error e => (.error e, T)
    | .ok r => (.ok r, add T r) := by
  unfold insert
  cases hmake : makeRecord o variant fen with
  | error e => rfl
  | ok r =>
    have hr := stored_of_makeRecord hmake
    obtain ⟨new, hnew, -, -⟩ := hr.identity_eq
    have hbucket : ∀ s ∈ Buckets.get T r.digest, s ∈ Buckets.records T ∧ s.digest = r.digest :=
      fun s hs => h.keyed.mem_get.mp hs
    -- within one bucket, the records of one identity are equal
    have hsame : ∀ s ∈ Buckets.get T r.digest, identity s = some new → s = r := by
      intro s hs hident
      obtain ⟨hmem, hdigest⟩ := hbucket s hs
      obtain ⟨hv, ht⟩ := (identity_eq_iff (h.stored s hmem) hr).mp (hident.trans hnew.symm)
      cases s
      cases r
      simp_all
    simp only
    rw [hnew]
    simp only
    rcases @findExisting_spec new _ fun s hs => h.stored s (hbucket s hs).1 with
      ⟨e, he, hident, hfind⟩ | ⟨hnone, hfind⟩
    · rw [hfind]
      simp only
      rw [hsame e he hident, add, if_pos]
      rw [← hsame e he hident]
      exact (hbucket e he).1
    · rw [hfind]
      simp only
      rw [add, if_neg]
      exact fun hmem => hnone r (h.keyed.mem_get.mpr ⟨hmem, rfl⟩) hnew

theorem insert_rejected {variant fen : Scalar} {e : Failure}
    (h : (insert o variant fen T).1 = .error e) : (insert o variant fen T).2 = T := by
  unfold insert at h ⊢
  split at h
  · rfl
  · split at h
    · rfl
    · split at h
      · rfl
      · cases h
      · cases h

/-! ### Merging -/

/-- `o'` answers with a digest only where `o` answers with that digest. -/
def Serves (o' o : Oracle) : Prop :=
  ∀ v t d, oracleDigest o' v t = .ok d → oracleDigest o v t = .ok d

theorem Serves.refl (o : Oracle) : Serves o o := fun _ _ _ h => h

theorem Serves.makeRecord (h : Serves o' o) {variant fen : Scalar}
    (hmake : makeRecord o' variant fen = .ok r) : makeRecord o variant fen = .ok r := by
  obtain ⟨v, p, hv, hfen, hmem, hp, hd, hr⟩ := makeRecord_eq_ok.mp hmake
  exact makeRecord_eq_ok.mpr ⟨v, p, hv, hfen, hmem, hp, h _ _ _ hd, hr⟩

/-- A valid record is made again from its own snapshot. -/
theorem Valid.makeRecord (h : Valid o r) :
    makeRecord o (.str r.variant) (.str r.snapshotFen) = .ok r := by
  obtain ⟨p, hp, hnormal, htext⟩ := h.stored.snapshot
  have hdigest := h.digest
  rw [htext] at hdigest ⊢
  refine makeRecord_eq_ok.mpr ⟨r.variant, p, rfl, rfl, h.stored.variant, hp, hdigest, ?_⟩
  rw [recordOf, hnormal, ← htext]

theorem validateAll_eq_ok {calls : ℕ → Oracle} {frozen : List Object} {rs : List Record}
    (hcalls : ∀ n, Serves (calls n) o) (h : validateAll calls frozen = .ok rs) :
    ∀ r ∈ rs, Valid o r := by
  induction frozen generalizing calls rs with
  | nil =>
    cases h
    exact fun r hr => by cases hr
  | cons record frozen ih =>
    unfold validateAll at h
    split at h
    · cases h
    · rename_i r hr
      split at h
      · cases h
      · rename_i rest hrest
        cases h
        have hvalid := (validateRecord_eq_ok.mp hr).2
        intro s hs
        rcases List.mem_cons.mp hs with rfl | hs
        · exact ⟨hvalid.stored, hcalls 0 _ _ _ hvalid.digest⟩
        · exact ih (fun n => hcalls (n + 1)) hrest s hs

theorem insertAll_eq_ok {calls : ℕ → Oracle} {rs : List Record} (hcalls : ∀ n, Serves (calls n) o)
    (hT : Sound T) (hrs : ∀ r ∈ rs, Valid o r) (h : insertAll calls rs T = (.ok (), T')) :
    T' = rs.foldl add T := by
  induction rs generalizing calls T with
  | nil =>
    cases h
    rfl
  | cons r rs ih =>
    have hr := hrs r List.mem_cons_self
    rw [insertAll, insert_eq hT] at h
    cases hmake : makeRecord (calls 0) (.str r.variant) (.str r.snapshotFen) with
    | error e =>
      rw [hmake] at h
      cases h
    | ok r' =>
      have heq : r' = r := by
        have hmade := (hcalls 0).makeRecord hmake
        rw [hr.makeRecord] at hmade
        cases hmade
        rfl
      rw [hmake, heq] at h
      exact ih (fun n => hcalls (n + 1)) (hT.add hr.stored)
        (fun s hs => hrs s (List.mem_cons_of_mem _ hs)) h

/-- With an oracle that keeps answering, staging valid records succeeds. -/
theorem insertAll_pure {rs : List Record} (hT : Sound T) (hrs : ∀ r ∈ rs, Valid o r) :
    insertAll (fun _ => o) rs T = (.ok (), rs.foldl add T) := by
  induction rs generalizing T with
  | nil => rfl
  | cons r rs ih =>
    have hr := hrs r List.mem_cons_self
    rw [insertAll, insert_eq hT, hr.makeRecord]
    exact ih (hT.add hr.stored) fun s hs => hrs s (List.mem_cons_of_mem _ hs)

theorem mem_foldl_add {rs : List Record} {s : Record} :
    s ∈ Buckets.records (rs.foldl add T) ↔ s ∈ rs ∨ s ∈ Buckets.records T := by
  induction rs generalizing T with
  | nil => simp
  | cons r rs ih =>
    rw [List.foldl_cons, ih, mem_add, List.mem_cons]
    tauto

theorem Sound.foldl_add {rs : List Record} (h : Sound T) (hrs : ∀ r ∈ rs, Stored r) :
    Sound (rs.foldl TranspositionNode.add T) := by
  induction rs generalizing T with
  | nil => exact h
  | cons r rs ih =>
    exact ih (h.add (hrs r List.mem_cons_self)) fun s hs => hrs s (List.mem_cons_of_mem _ hs)

/-- A merge either leaves the table as it is or adds valid records. -/
theorem merge_cases {calls : ℕ → Oracle} (hcalls : ∀ n, Serves (calls n) o) (hT : Sound T)
    (other : Listing) :
    (∃ e, merge calls other T = (.error e, T)) ∨
      ∃ source frozen rs, other = .list source ∧ source.mapM freeze = some frozen ∧
        validateAll calls frozen = .ok rs ∧ (∀ r ∈ rs, Valid o r) ∧
        merge calls other T = (.ok (), rs.foldl add T) := by
  cases other with
  | raised => exact .inl ⟨_, rfl⟩
  | foreign => exact .inl ⟨_, rfl⟩
  | list source =>
    unfold merge
    cases hfrozen : source.mapM freeze with
    | none => exact .inl ⟨_, by simp only [hfrozen]; rfl⟩
    | some frozen =>
      cases hrs : validateAll calls frozen with
      | error e => exact .inl ⟨e, by simp only [hfrozen, hrs]⟩
      | ok rs =>
        have hvalid := validateAll_eq_ok hcalls hrs
        rcases hstaged : insertAll (fun n => calls (frozen.length + n)) rs T with ⟨out, staged⟩
        cases out with
        | error e => exact .inl ⟨e, by simp only [hfrozen, hrs, hstaged]⟩
        | ok u =>
          refine .inr ⟨source, frozen, rs, rfl, hfrozen, hrs, hvalid, ?_⟩
          simp only [hfrozen, hrs, hstaged]
          rw [← insertAll_eq_ok (fun n => hcalls _) hT hvalid hstaged]

theorem merge_rejected {calls : ℕ → Oracle} {other : Listing} {e : Failure}
    (h : (merge calls other T).1 = .error e) : (merge calls other T).2 = T := by
  unfold merge at h ⊢
  split at h
  · rfl
  · rfl
  · split at h
    · rfl
    · split at h
      · rfl
      · split at h
        · rfl
        · cases h

/-! ### Runs -/

/-- One call on the table. -/
inductive Step
  | insert (variant fen : Scalar)
  | merge (other : Listing)

/-- The table after a call, accepted or rejected. -/
def Step.apply (o : Oracle) (T : Table) : Step → Table
  | .insert variant fen => (TranspositionNode.insert o variant fen T).2
  | .merge other => (TranspositionNode.merge (fun _ => o) other T).2

def run (o : Oracle) (steps : List Step) : Table := steps.foldl (Step.apply o) []

/-- The oracle answers on the text of the call as on the snapshot of its
position, if it answers on the text. -/
def Step.Stable (o : Oracle) : Step → Prop
  | .insert variant fen => ∀ v p d, variant = .str v → v ∈ variantIds → Accepted p →
      fen = .str (fenText p) → oracleDigest o v (fenText p) = .ok d →
      oracleDigest o v (fenText (normal p)) = .ok d
  | .merge _ => True

theorem Sound.step (h : Sound T) (step : Step) : Sound (step.apply o T) := by
  cases step with
  | insert variant fen =>
    rw [Step.apply, insert_eq h]
    cases hmake : makeRecord o variant fen with
    | error e => exact h
    | ok r => exact h.add (stored_of_makeRecord hmake)
  | merge other =>
    rw [Step.apply]
    rcases merge_cases (fun _ => Serves.refl o) h other with
      ⟨e, heq⟩ | ⟨_, _, rs, -, -, -, hrs, heq⟩
    · rw [heq]
      exact h
    · rw [heq]
      exact h.foldl_add fun r hr => (hrs r hr).stored

theorem mem_step (h : Sound T) (hr : r ∈ Buckets.records T) (step : Step) :
    r ∈ Buckets.records (step.apply o T) := by
  cases step with
  | insert variant fen =>
    rw [Step.apply, insert_eq h]
    cases makeRecord o variant fen with
    | error e => exact hr
    | ok r' => exact mem_add.mpr (.inr hr)
  | merge other =>
    rw [Step.apply]
    rcases merge_cases (fun _ => Serves.refl o) h other with ⟨e, heq⟩ | ⟨_, _, rs, -, -, -, -, heq⟩
    · rw [heq]
      exact hr
    · rw [heq]
      exact mem_foldl_add.mpr (.inr hr)

theorem valid_step (h : Sound T) (hvalid : ∀ r ∈ Buckets.records T, Valid o r) (step : Step) :
    (∀ r ∈ Buckets.records (step.apply o T), Valid o r) ↔ step.Stable o := by
  cases step with
  | insert variant fen =>
    rw [Step.apply, insert_eq h, Step.Stable]
    constructor
    · intro hall v p d hv hmem hp hfen hd
      have hmake : makeRecord o variant fen = .ok (recordOf v d p) :=
        makeRecord_eq_ok.mpr ⟨v, p, hv, hfen, hmem, hp, hd, rfl⟩
      rw [hmake] at hall
      exact (hall _ (mem_add.mpr (.inl rfl))).digest
    · intro hstable
      cases hmake : makeRecord o variant fen with
      | error e => exact hvalid
      | ok r =>
        intro s hs
        rcases mem_add.mp hs with rfl | hs
        · obtain ⟨v, p, hv, hfen, hmem, hp, hd, hrec⟩ := makeRecord_eq_ok.mp hmake
          refine ⟨stored_of_makeRecord hmake, ?_⟩
          have := hstable v p s.digest hv hmem hp hfen hd
          rw [hrec]
          exact this
        · exact hvalid s hs
  | merge other =>
    rw [Step.apply, Step.Stable, iff_true]
    rcases merge_cases (fun _ => Serves.refl o) h other with
      ⟨e, heq⟩ | ⟨_, _, rs, -, -, -, hrs, heq⟩
    · rw [heq]
      exact hvalid
    · rw [heq]
      intro r hr
      rcases mem_foldl_add.mp hr with hr | hr
      · exact hrs r hr
      · exact hvalid r hr

/-- Valid records of one identity are one record. -/
theorem Sound.distinct (h : Sound T) (hvalid : ∀ r ∈ Buckets.records T, Valid o r) :
    Buckets.Distinct identity T := by
  refine List.Pairwise.imp_of_mem (fun {r s} hr hs hne heq => hne ?_) h.nodup
  obtain ⟨hv, ht⟩ := (identity_eq_iff (h.stored r hr) (h.stored s hs)).mp heq
  have hd : r.digest = s.digest := by
    have hdr := (hvalid r hr).digest
    rw [hv, ht, (hvalid s hs).digest] at hdr
    exact (Except.ok.inj hdr).symm
  cases r
  cases s
  simp_all

/-- No two stored records have the same identity, and every stored record
passes validation. -/
def TableInvariant (o : Oracle) (T : Table) : Prop :=
  Buckets.Distinct identity T ∧ ∀ r ∈ Buckets.records T, validateRecord o r.object = .ok r

theorem tableInvariant_iff (h : Sound T) :
    TableInvariant o T ↔ ∀ r ∈ Buckets.records T, Valid o r := by
  simp only [TableInvariant, validateRecord_object, and_iff_right_iff_imp]
  exact h.distinct

theorem foldl_apply (hT : Sound T) (hvalid : ∀ r ∈ Buckets.records T, Valid o r)
    (steps : List Step) : TableInvariant o (steps.foldl (Step.apply o) T) ↔
      ∀ step ∈ steps, step.Stable o := by
  -- an invalid record would stay in the table to the end of the run
  have hstays : ∀ (steps : List Step) {T : Table}, Sound T →
      Sound (steps.foldl (Step.apply o) T) ∧
        ∀ r ∈ Buckets.records T, r ∈ Buckets.records (steps.foldl (Step.apply o) T) := by
    intro steps
    induction steps with
    | nil => exact fun hT => ⟨hT, fun r hr => hr⟩
    | cons step steps ih =>
      intro T hT
      obtain ⟨hsound, hmem⟩ := ih (hT.step (o := o) step)
      exact ⟨hsound, fun r hr => hmem r (mem_step hT hr step)⟩
  induction steps generalizing T with
  | nil => simpa [tableInvariant_iff hT] using hvalid
  | cons step steps ih =>
    have hsound := hT.step (o := o) step
    rw [List.foldl_cons, List.forall_mem_cons, ← valid_step hT hvalid step]
    constructor
    · intro h
      obtain ⟨hend, hmem⟩ := hstays steps hsound
      have hnext : ∀ r ∈ Buckets.records (step.apply o T), Valid o r := fun r hr =>
        (tableInvariant_iff hend).mp h r (hmem r hr)
      exact ⟨hnext, (ih hsound hnext).mp h⟩
    · intro h
      exact (ih hsound h.1).mpr h.2

/-- A run satisfies the table invariant exactly when every call was stable. -/
theorem run_invariant_iff (o : Oracle) (steps : List Step) :
    TableInvariant o (run o steps) ↔ ∀ step ∈ steps, step.Stable o :=
  foldl_apply Sound.new (fun _ hr => by cases hr) steps

/-- Two kings on their home squares. -/
def bareKings (color : Color) (full : ℕ) : Position where
  board s :=
    if s = ⟨4, 0⟩ then some (king .white)
    else if s = ⟨4, 7⟩ then some (king .black)
    else none
  color := color
  rights := []
  ep := none
  half := 0
  full := full

theorem accepted_bareKings {color : Color} {full : ℕ} (hpos : 1 ≤ full)
    (hfull : (Nat.toDigits 10 full).length ≤ intMaxStrDigits) :
    Accepted (bareKings color full) := by
  have hhalf : (Nat.toDigits 10 0).length ≤ intMaxStrDigits := by decide
  have hok : positionOk (bareKings color 1) = true := by
    revert color
    decide
  exact ⟨⟨rfl, (fun s hs => by cases hs), hhalf, hfull, hpos⟩, positionOk_iff.mp hok⟩

/-- An oracle that looks at the last digit of the fullmove number. -/
def clockOracle : Oracle := fun _ fen =>
  .returned (.str (tag ++ List.replicate hexLength (if fen.getLast? = some '1' then 'a' else 'b')))

/-- The record of move two is not the one its own snapshot gives. -/
theorem not_run_invariant : ¬ ∀ o : Oracle, (∀ v t, ∃ d, oracleDigest o v t = .ok d) →
    ∀ steps, TableInvariant o (run o steps) := by
  intro h
  have hpure : ∀ v t, ∃ d, oracleDigest clockOracle v t = .ok d := by
    intro v t
    refine ⟨_, oracleDigest_eq_ok.mpr ⟨rfl, ?_⟩⟩
    split_ifs <;> decide
  have hstable := (foldl_apply Sound.new (fun _ hr => by cases hr) _).mp (h clockOracle hpure
    [.insert (.str "standard".toList) (.str "4k3/8/8/8/8/8/8/4K3 w - - 0 2".toList)])
  have htext : "4k3/8/8/8/8/8/8/4K3 w - - 0 2".toList = fenText (bareKings .white 2) := by decide
  have hsnapshot := hstable _ List.mem_cons_self "standard".toList (bareKings .white 2)
    (tag ++ List.replicate hexLength 'b') rfl (by decide)
    (accepted_bareKings (by decide) (by decide)) (by rw [htext]) (by decide)
  revert hsnapshot
  decide

end TranspositionNode
end OpenChess
