import OpenChess.Privacy.Delete

/-!
# Deletion is durable

A deleted collection stays deleted, and its pending stores only become fewer: a store leaves
them by an erase that succeeded after the tombstone. A retry asks the pending stores alone,
and an approved deletion goes through at every revision.
-/

namespace OpenChess
namespace Privacy

variable {sha : Hex.Hash 64} {d d' : Deleter} {call : DeleterCall} {collection : Text}
  {c c' : Deletion} {name : StoreName} {r : DeleteRequest} {req : Value}
  {outcome : StoreName → Outcome}

/-- What a deletion that passes its checks writes. -/
structure Writes (d : Deleter) (collection : Text) (revision : ℕ) (targets left : List StoreName)
    (entries : List Entry) (d' : Deleter) : Prop where
  cells : d'.cells = d.cells.insert collection ⟨.deleted, revision, left⟩
  log : d'.log = d.log ++ .tombstone collection :: entries
  ordered : left.Sublist targets
  erased : ∀ name ∈ targets, name ∉ left → .erase collection name .erased ∈ entries
  asked : ∀ entry ∈ entries, ∃ name ∈ targets, ∃ result, entry = .erase collection name result

theorem delete_writes {revision : ℕ} {targets : List StoreName} (hread : readDelete req = some r)
    (hcell : d.cells.lookup r.collection = some c)
    (htargets : c.targets (r.approved sha) r.expected = .ok (revision, targets)) :
    ∃ left entries, Writes d r.collection revision targets left entries
      (d.delete sha outcome req).2 := by
  cases hloop : eraseLoop outcome r.collection targets with
  | mk left entries =>
    have hasked : ∀ entry ∈ entries, ∃ name ∈ targets, ∃ result,
        entry = .erase r.collection name result := by
      intro entry hentry
      have hmem : entry ∈ (eraseLoop outcome r.collection targets).2 := by rwa [hloop]
      obtain ⟨name, hname, rfl⟩ := mem_entries hmem
      exact ⟨name, hname, outcome name, rfl⟩
    cases left with
    | none =>
      -- the call ended in the loop, and every target stays pending
      refine ⟨targets, entries, ?_, ?_, List.Sublist.refl targets, ?_, hasked⟩
      · simp only [Deleter.delete, hread, hcell, htargets, hloop]
      · simp only [Deleter.delete, hread, hcell, htargets, hloop, List.append_assoc,
          List.singleton_append]
      · exact fun name hname hnot => absurd hname hnot
    | some left =>
      obtain ⟨hsub, herased⟩ := of_eraseLoop hloop
      refine ⟨left, entries, ?_, ?_, hsub, herased, hasked⟩
      · simp only [Deleter.delete, hread, hcell, htargets, hloop, Finmap.insert_insert]
      · simp only [Deleter.delete, hread, hcell, htargets, hloop, List.append_assoc,
          List.singleton_append]

/-- What a call does: nothing, a fresh collection, or a deletion. -/
theorem step_cases (sha : Hex.Hash 64) (d : Deleter) (call : DeleterCall) :
    d.step sha call = d ∨
      (∃ new, d.cells.lookup new = none ∧
        d.step sha call = { d with cells := d.cells.insert new ⟨.live, 0, []⟩ }) ∨
      ∃ req outcome r c revision targets left entries, call = .delete req outcome ∧
        readDelete req = some r ∧ d.cells.lookup r.collection = some c ∧
        c.targets (r.approved sha) r.expected = .ok (revision, targets) ∧
        Writes d r.collection revision targets left entries (d.step sha call) := by
  cases call with
  | access req => exact Or.inl rfl
  | register id =>
    simp only [Deleter.step, Deleter.call, Deleter.register]
    cases readId collectionOk id with
    | none => exact Or.inl rfl
    | some new =>
      simp only
      split_ifs
      · exact Or.inl rfl
      · unfold Cells.setDefault
        cases hfound : d.cells.lookup new with
        | some c => exact Or.inl rfl
        | none => exact Or.inr (Or.inl ⟨new, hfound, rfl⟩)
  | delete req outcome =>
    simp only [Deleter.step, Deleter.call]
    cases hread : readDelete req with
    | none =>
      refine Or.inl ?_
      simp only [Deleter.delete, hread]
    | some r =>
      cases hcell : d.cells.lookup r.collection with
      | none =>
        refine Or.inl ?_
        simp only [Deleter.delete, hread, hcell]
      | some c =>
        cases htargets : c.targets (r.approved sha) r.expected with
        | error e =>
          refine Or.inl ?_
          simp only [Deleter.delete, hread, hcell, htargets]
        | ok written =>
          obtain ⟨revision, targets⟩ := written
          obtain ⟨left, entries, hwrites⟩ := delete_writes hread hcell htargets
          exact Or.inr (Or.inr ⟨req, outcome, r, c, revision, targets, left, entries, rfl, hread,
            hcell, htargets, hwrites⟩)

/-- The targets of a deletion: the pending stores of a deleted collection at its revision,
and every store of a live one with a decision. -/
theorem of_targets {approved : Bool} {expected revision : ℕ} {targets : List StoreName}
    (h : c.targets approved expected = .ok (revision, targets)) :
    expected = c.revision ∧ (c.status = .deleted ∧ revision = c.revision ∧ targets = c.pending ∨
      c.status = .live ∧ approved = true ∧ targets = stores) := by
  unfold Deletion.targets at h
  by_cases hexpected : expected = c.revision
  case neg =>
    rw [if_pos hexpected] at h
    cases h
  rw [if_neg (not_not.mpr hexpected)] at h
  refine ⟨hexpected, ?_⟩
  cases hstatus : c.status with
  | deleted =>
    simp only [hstatus] at h
    obtain ⟨rfl, rfl⟩ := Prod.mk.inj (Except.ok.inj h)
    exact Or.inl ⟨rfl, rfl, rfl⟩
  | live =>
    simp only [hstatus] at h
    split_ifs at h with happroved
    · obtain ⟨-, rfl⟩ := Prod.mk.inj (Except.ok.inj h)
      exact Or.inr ⟨rfl, by simpa using happroved, rfl⟩
    · obtain ⟨-, rfl⟩ := Prod.mk.inj (Except.ok.inj h)
      exact Or.inr ⟨rfl, by simpa using happroved, rfl⟩

/-! ### Invariants -/

def ErasedAfter (log : List Entry) (collection : Text) (name : StoreName) : Prop :=
  ∃ before between after, log =
    before ++ .tombstone collection :: (between ++ .erase collection name .erased :: after)

theorem ErasedAfter.append {log : List Entry} (h : ErasedAfter log collection name)
    (entries : List Entry) : ErasedAfter (log ++ entries) collection name := by
  obtain ⟨before, between, after, rfl⟩ := h
  exact ⟨before, between, after ++ entries, by simp⟩

/-- The pending stores of a deleted collection are in order, and the others were erased. -/
def Deleter.Sound (d : Deleter) : Prop :=
  ∀ collection c, d.cells.lookup collection = some c → c.status = .deleted →
    c.pending.Sublist stores ∧ ∀ name, name ∉ c.pending → ErasedAfter d.log collection name

theorem mem_stores (name : StoreName) : name ∈ stores := by
  cases name <;> decide

theorem sound_step (h : d.Sound) (call : DeleterCall) : (d.step sha call).Sound := by
  obtain hsame | ⟨new, hnew, hafter⟩ |
    ⟨req, outcome, r, c, revision, targets, left, entries, rfl, hread, hcell, htargets, hwrites⟩ :=
      step_cases sha d call
  · rw [hsame]
    exact h
  · rw [hafter]
    intro collection c hc hdeleted
    by_cases hk : collection = new
    · subst hk
      rw [Finmap.lookup_insert] at hc
      obtain rfl := Option.some.inj hc
      cases hdeleted
    · rw [Finmap.lookup_insert_of_ne _ hk] at hc
      exact h collection c hc hdeleted
  · intro collection c' hc' hdeleted
    rw [hwrites.cells] at hc'
    rw [hwrites.log]
    by_cases hk : collection = r.collection
    · subst hk
      rw [Finmap.lookup_insert] at hc'
      obtain rfl := Option.some.inj hc'
      obtain ⟨-, ⟨hstatus, -, rfl⟩ | ⟨-, -, rfl⟩⟩ := of_targets htargets
      · obtain ⟨hsub, herased⟩ := h r.collection c hcell hstatus
        refine ⟨hwrites.ordered.trans hsub, fun name hname => ?_⟩
        by_cases hpending : name ∈ c.pending
        · obtain ⟨between, after, rfl⟩ :=
            List.append_of_mem (hwrites.erased name hpending hname)
          exact ⟨d.log, between, after, rfl⟩
        · exact (herased name hpending).append _
      · refine ⟨hwrites.ordered, fun name hname => ?_⟩
        obtain ⟨between, after, rfl⟩ :=
          List.append_of_mem (hwrites.erased name (mem_stores name) hname)
        exact ⟨d.log, between, after, rfl⟩
    · rw [Finmap.lookup_insert_of_ne _ hk] at hc'
      obtain ⟨hsub, herased⟩ := h collection c' hc' hdeleted
      exact ⟨hsub, fun name hname => (herased name hname).append _⟩

def Shrinks (collection : Text) (c : Deletion) (d : Deleter) : Prop :=
  ∃ c', d.cells.lookup collection = some c' ∧ c'.status = .deleted ∧ c'.pending.Sublist c.pending

theorem shrinks_step (h : Shrinks collection c d) (call : DeleterCall) :
    Shrinks collection c (d.step sha call) := by
  obtain ⟨c', hc', hdeleted, hsub⟩ := h
  obtain hsame | ⟨new, hnew, hafter⟩ |
    ⟨req, outcome, r, c₀, revision, targets, left, entries, rfl, hread, hcell, htargets, hwrites⟩ :=
      step_cases sha d call
  · rw [hsame]
    exact ⟨c', hc', hdeleted, hsub⟩
  · rw [hafter]
    have hk : collection ≠ new := by
      rintro rfl
      rw [hnew] at hc'
      cases hc'
    exact ⟨c', (Finmap.lookup_insert_of_ne _ hk).trans hc', hdeleted, hsub⟩
  · unfold Shrinks
    rw [hwrites.cells]
    by_cases hk : collection = r.collection
    · subst hk
      obtain rfl := Option.some.inj (hcell.symm.trans hc')
      refine ⟨_, Finmap.lookup_insert _, rfl, ?_⟩
      obtain ⟨-, ⟨-, -, rfl⟩ | ⟨hlive, -, -⟩⟩ := of_targets htargets
      · exact hwrites.ordered.trans hsub
      · rw [hlive] at hdeleted
        cases hdeleted
    · exact ⟨c', (Finmap.lookup_insert_of_ne _ hk).trans hc', hdeleted, hsub⟩

theorem shrinks_run (h : Shrinks collection c d) (calls : List DeleterCall) :
    Shrinks collection c (Trace.run (Deleter.step sha) d calls) := by
  induction calls using List.reverseRecOn with
  | nil => exact h
  | append_singleton calls call ih =>
    rw [Trace.run_snoc]
    exact shrinks_step ih call

theorem sound_run (sha : Hex.Hash 64) (calls : List DeleterCall) :
    (Deleter.run sha calls).Sound := by
  have hstart : Deleter.empty.Sound := by
    intro collection c hc
    simp [Deleter.empty] at hc
  have hstep : ∀ d call, Deleter.Sound d → (d.step sha call).Sound :=
    fun d call h => sound_step h call
  exact Trace.run_invariant hstart hstep calls

/-! ### Retries and decisions -/

theorem register_deleted {id : Value} (hid : readId collectionOk id = some collection)
    (hc : d.cells.lookup collection = some c) (hdeleted : c.status = .deleted) :
    d.register id = (.refused .collectionDeleted, d) := by
  simp [Deleter.register, hid, hc, hdeleted]

theorem delete_not_refused {revision : ℕ} {targets : List StoreName}
    (hread : readDelete req = some r) (hcell : d.cells.lookup r.collection = some c)
    (htargets : c.targets (r.approved sha) r.expected = .ok (revision, targets))
    (e : DeleteFailure) : (d.delete sha outcome req).1 ≠ .refused e := by
  cases hloop : eraseLoop outcome r.collection targets with
  | mk left entries =>
    cases left with
    | none => simp [Deleter.delete, hread, hcell, htargets, hloop]
    | some left => simp [Deleter.delete, hread, hcell, htargets, hloop]

/-- The checks of a delete of a deleted collection at its revision; no decision is asked
for. -/
theorem targets_deleted {approved : Bool} (hdeleted : c.status = .deleted) :
    c.targets approved c.revision = .ok (c.revision, c.pending) := by
  simp [Deletion.targets, hdeleted]

/-- The checks of an approved delete of a live collection at its revision, which may be the
last one. -/
theorem targets_live (hlive : c.status = .live) : c.targets true c.revision =
    .ok (if c.revision = maxRev then c.revision else c.revision + 1, stores) := by
  simp [Deletion.targets, hlive]

/-- Every call after the deletion of a collection asks only its pending stores to erase
it. -/
theorem asks_pending (hc : d.cells.lookup collection = some c) (hdeleted : c.status = .deleted)
    (call : DeleterCall) : ∃ entries, (d.step sha call).log = d.log ++ entries ∧
      ∀ name result, .erase collection name result ∈ entries → name ∈ c.pending := by
  obtain hsame | ⟨new, -, hafter⟩ |
    ⟨req, outcome, r, c₀, revision, targets, left, entries, rfl, hread, hcell, htargets, hwrites⟩ :=
      step_cases sha d call
  · exact ⟨[], by rw [hsame, List.append_nil], by simp⟩
  · exact ⟨[], by rw [hafter, List.append_nil], by simp⟩
  · refine ⟨_, hwrites.log, fun name result hmem => ?_⟩
    rcases List.mem_cons.mp hmem with htombstone | hmem
    · cases htombstone
    · obtain ⟨name', hname', result', heq⟩ := hwrites.asked _ hmem
      obtain ⟨rfl, rfl, rfl⟩ := Entry.erase.inj heq
      obtain rfl := Option.some.inj (hcell.symm.trans hc)
      obtain ⟨-, ⟨-, -, rfl⟩ | ⟨hlive, -, -⟩⟩ := of_targets htargets
      · exact hname'
      · rw [hlive] at hdeleted
        cases hdeleted

/-- Deletion is durable. After any run a deleted collection is deleted for good and every
registration of it is refused; its pending stores are a sublist of the stores in order, and
become fewer at most; every other store erased it after a tombstone; a later delete at its
revision goes through without a decision and no call asks a store that is not pending. An
approved deletion of a live collection goes through at every revision. -/
theorem deletion_durable (sha : Hex.Hash 64) (before : List DeleterCall) :
    (∀ collection c, (Deleter.run sha before).cells.lookup collection = some c →
      c.status = .deleted →
      (∀ after, ∃ c', (Deleter.run sha (before ++ after)).cells.lookup collection = some c' ∧
        c'.status = .deleted ∧ c'.pending.Sublist c.pending ∧
        ∀ id, readId collectionOk id = some collection →
          (Deleter.run sha (before ++ after)).register id =
            (.refused .collectionDeleted, Deleter.run sha (before ++ after))) ∧
      c.pending.Sublist stores ∧
      (∀ name, name ∉ c.pending → ErasedAfter (Deleter.run sha before).log collection name) ∧
      (∀ req r outcome, readDelete req = some r → r.collection = collection →
        r.expected = c.revision →
        (∀ e, ((Deleter.run sha before).delete sha outcome req).1 ≠ .refused e) ∧
        ∃ left entries, Writes (Deleter.run sha before) collection c.revision c.pending left
          entries ((Deleter.run sha before).delete sha outcome req).2) ∧
      ∀ call, ∃ entries, (Deleter.run sha (before ++ [call])).log =
          (Deleter.run sha before).log ++ entries ∧
        ∀ name result, .erase collection name result ∈ entries → name ∈ c.pending) ∧
    ∀ req r c outcome, readDelete req = some r →
      (Deleter.run sha before).cells.lookup r.collection = some c → c.status = .live →
      r.expected = c.revision → r.approved sha = true →
      (∀ e, ((Deleter.run sha before).delete sha outcome req).1 ≠ .refused e) ∧
      ∃ revision left entries, Writes (Deleter.run sha before) r.collection revision stores left
        entries ((Deleter.run sha before).delete sha outcome req).2 := by
  constructor
  · intro collection c hc hdeleted
    obtain ⟨hsub, herased⟩ := sound_run sha before collection c hc hdeleted
    refine ⟨fun after => ?_, hsub, herased, ?_, fun call => ?_⟩
    · have hkept : Shrinks collection c (Deleter.run sha before) :=
        ⟨c, hc, hdeleted, List.Sublist.refl _⟩
      have hrun : Shrinks collection c (Deleter.run sha (before ++ after)) := by
        rw [Deleter.run, Trace.run_append]
        exact shrinks_run hkept after
      obtain ⟨c', hc', hdeleted', hsub'⟩ := hrun
      exact ⟨c', hc', hdeleted', hsub', fun id hid => register_deleted hid hc' hdeleted'⟩
    · intro req r outcome hread hcollection hexpected
      subst hcollection
      have htargets : c.targets (r.approved sha) r.expected = .ok (c.revision, c.pending) := by
        rw [hexpected]
        exact targets_deleted hdeleted
      exact ⟨delete_not_refused hread hc htargets, delete_writes hread hc htargets⟩
    · rw [Deleter.run, Trace.run_snoc]
      exact asks_pending hc hdeleted call
  · intro req r c outcome hread hc hlive hexpected happroved
    have htargets := targets_live hlive
    rw [← happroved, ← hexpected] at htargets
    obtain ⟨left, entries, hwrites⟩ := delete_writes hread hc htargets
    exact ⟨delete_not_refused hread hc htargets, _, left, entries, hwrites⟩

/-! ### A store that fails -/

def deleteSha : Hex.Hash 64 := Hex.Hash.lengths 64

def deletedCollection : Text := "col1:".toList ++ List.replicate 64 '0'

def sampleDelete (expected : ℕ) (decision : Value) : Value :=
  Value.object ["collection_id".toList, "expected_revision".toList, "decision".toList]
    [.str deletedCollection, .int expected, decision]

def sampleDeletion : List DeleterCall :=
  [.register (.str deletedCollection),
    .delete (sampleDelete 0 (.str (decisionFor deleteSha deletedCollection 0))) fun name =>
      if name = .index ∨ name = .training then .failed else .erased]

def sampleRetry : DeleterCall := .delete (sampleDelete 1 .null) fun _ => .erased

theorem deletion_durable_sample :
    (∃ c', (Deleter.run deleteSha (sampleDeletion ++ [sampleRetry])).cells.lookup
      deletedCollection = some c' ∧ c'.status = .deleted ∧
        c'.pending.Sublist [.index, .training]) ∧
      ErasedAfter (Deleter.run deleteSha sampleDeletion).log deletedCollection .content := by
  have hc : (Deleter.run deleteSha sampleDeletion).cells.lookup deletedCollection =
      some ⟨.deleted, 1, [.index, .training]⟩ := by decide +kernel
  obtain ⟨hdurable, -⟩ := deletion_durable deleteSha sampleDeletion
  obtain ⟨hshrinks, -, herased, -⟩ := hdurable deletedCollection _ hc rfl
  obtain ⟨c', hc', hdeleted, hsub, -⟩ := hshrinks [sampleRetry]
  exact ⟨⟨c', hc', hdeleted, hsub⟩, herased .content (by simp)⟩

end Privacy
end OpenChess
