import OpenChess.ControlPlane.Outbox

/-!
# Publication is atomic and idempotent

A call of `publish` extends the log of events by its batch, or fails and leaves the committed
rows alone. It succeeds where the batch is a list of events that clash neither with each other
nor with the outbox, and no statement fails.
-/

namespace OpenChess
namespace Outbox

open Prog (Ensures)
open KeyedLog (fresh extend)

variable {es batch l : List Envelope} {rows work : List Row} {n : ℕ} {row : Row} {faults : ℕ → Bool}
  {R : Failure → Database → Prop}

/-! ### Statements -/

theorem ensures_statement {db : Database} {Q : Unit → Database → Prop}
    (hok : faults db.statements = false → Q () { db with statements := db.statements + 1 })
    (hfault : faults db.statements = true →
      R .sqlite { db with statements := db.statements + 1 }) :
    Ensures (· = db) (statement faults) Q R := by
  refine Prog.ensures_get_bind ?_
  rintro s rfl
  refine Prog.ensures_bind (Prog.ensures_modify (Q := fun _ s' =>
    s' = { s with statements := s.statements + 1 }) ?_) fun _ => ?_
  · rintro _ rfl
    rfl
  · by_cases h : faults s.statements = true
    · rw [if_pos h]
      exact Prog.ensures_throw fun _ hs => hs ▸ hfault h
    · rw [if_neg h]
      exact Prog.ensures_pure fun _ hs => hs ▸ hok (Bool.eq_false_iff.mpr h)

theorem ensures_statement_bind {A : Type} {f : Unit → Run A} {Q : A → Database → Prop}
    {db : Database}
    (hok : faults db.statements = false →
      Ensures (· = { db with statements := db.statements + 1 }) (f ()) Q R)
    (hfault : faults db.statements = true →
      R .sqlite { db with statements := db.statements + 1 }) :
    Ensures (· = db) (statement faults >>= f) Q R := by
  refine Prog.ensures_bind (ensures_statement (Q := fun _ s => faults db.statements = false ∧
    s = { db with statements := db.statements + 1 }) (fun h => ⟨h, rfl⟩) hfault) fun _ => ?_
  rintro s ⟨h, rfl⟩
  exact hok h _ rfl

theorem ensures_beginImmediate {Q : Unit → Database → Prop}
    (hok : faults n = false → Q () ⟨rows, some rows, n + 1⟩)
    (hfault : faults n = true → R .sqlite ⟨rows, none, n + 1⟩) :
    Ensures (· = ⟨rows, none, n⟩) (beginImmediate faults) Q R := by
  refine ensures_statement_bind (fun h => Prog.ensures_get_bind ?_) hfault
  rintro _ rfl
  refine Prog.ensures_modify ?_
  rintro _ rfl
  exact hok h

theorem ensures_selectRows {Q : List Row → Database → Prop}
    (hok : faults n = false → Q work ⟨rows, some work, n + 1⟩)
    (hfault : faults n = true → R .sqlite ⟨rows, some work, n + 1⟩) :
    Ensures (· = ⟨rows, some work, n⟩) (selectRows faults) Q R := by
  refine ensures_statement_bind (fun h => Prog.ensures_get_bind ?_) hfault
  rintro _ rfl
  refine Prog.ensures_pure ?_
  rintro _ rfl
  exact hok h

theorem ensures_countRows {Q : ℕ → Database → Prop}
    (hok : faults n = false → Q work.length ⟨rows, some work, n + 1⟩)
    (hfault : faults n = true → R .sqlite ⟨rows, some work, n + 1⟩) :
    Ensures (· = ⟨rows, some work, n⟩) (countRows faults) Q R := by
  refine ensures_statement_bind (fun h => Prog.ensures_get_bind ?_) hfault
  rintro _ rfl
  refine Prog.ensures_pure ?_
  rintro _ rfl
  exact hok h

theorem ensures_insertRow {Q : Unit → Database → Prop}
    (hnew : row.eventId ∉ work.map Row.eventId)
    (hok : faults n = false → Q () ⟨rows, some (work ++ [row]), n + 1⟩)
    (hfault : faults n = true → R .sqlite ⟨rows, some work, n + 1⟩) :
    Ensures (· = ⟨rows, some work, n⟩) (insertRow faults row) Q R := by
  refine ensures_statement_bind (fun h => Prog.ensures_get_bind ?_) hfault
  rintro _ rfl
  rw [Option.getD_some, if_neg hnew]
  refine Prog.ensures_modify ?_
  rintro _ rfl
  exact hok h

theorem ensures_commit {Q : Unit → Database → Prop}
    (hok : faults n = false → Q () ⟨work, none, n + 1⟩)
    (hfault : faults n = true → R .sqlite ⟨rows, some work, n + 1⟩) :
    Ensures (· = ⟨rows, some work, n⟩) (commit faults) Q R := by
  refine ensures_statement_bind (fun h => Prog.ensures_get_bind ?_) hfault
  rintro _ rfl
  refine Prog.ensures_modify ?_
  rintro _ rfl
  exact hok h

theorem ensures_finish {Q : ℕ → Database → Prop}
    (hok : faults n = false → faults (n + 1) = false → Q work.length ⟨work, none, n + 2⟩)
    (hfault : ∀ i s, i < n + 2 → faults i = true → s.committed = rows → R .sqlite s) :
    Ensures (· = ⟨rows, some work, n⟩)
      (do let count ← countRows faults; commit faults; pure count) Q R := by
  refine Prog.ensures_bind (ensures_countRows (Q := fun count db => faults n = false ∧
    count = work.length ∧ db = ⟨rows, some work, n + 1⟩) (fun hn => ⟨hn, rfl, rfl⟩)
    fun hn => hfault n _ (by omega) hn rfl) fun count => Prog.ensures_of_forall ?_
  rintro _ ⟨hn, rfl, rfl⟩
  refine Prog.ensures_bind (ensures_commit (Q := fun _ db => faults (n + 1) = false ∧
    db = ⟨work, none, n + 2⟩) (fun hn' => ⟨hn', rfl⟩)
    fun hn' => hfault (n + 1) _ (by omega) hn' rfl) fun _ => Prog.ensures_pure ?_
  rintro _ ⟨hn', rfl⟩
  exact hok hn hn'

theorem ensures_insertAll {Q : Unit → Database → Prop}
    (hnodup : ((work ++ l.map Envelope.row).map Row.eventId).Nodup)
    (hok : (∀ i, n ≤ i → i < n + l.length → faults i = false) →
      Q () ⟨rows, some (work ++ l.map Envelope.row), n + l.length⟩)
    (hfault : ∀ i s, n ≤ i → i < n + l.length → faults i = true → s.committed = rows →
      R .sqlite s) :
    Ensures (· = ⟨rows, some work, n⟩) (insertAll faults (l.map fun e => (e.eventId, e))) Q R := by
  induction l generalizing work n with
  | nil =>
    refine Prog.ensures_pure ?_
    rintro _ rfl
    have hdone := hok fun i hle hlt => absurd hlt (not_lt.mpr hle)
    rwa [List.map_nil, List.append_nil] at hdone
  | cons e l ih =>
    rw [List.length_cons] at hok hfault
    have hsplit : work ++ (e :: l).map Envelope.row =
        (work ++ [e.row]) ++ l.map Envelope.row := by
      rw [List.map_cons, List.append_assoc, List.singleton_append]
    rw [hsplit] at hnodup hok
    have hnew : e.row.eventId ∉ work.map Row.eventId := by
      intro hmem
      rw [List.map_append, List.map_append] at hnodup
      exact (List.nodup_append.mp (List.nodup_append.mp hnodup).1).2.2 _ hmem _
        List.mem_cons_self rfl
    refine Prog.ensures_bind (ensures_insertRow (Q := fun _ s => faults n = false ∧
      s = ⟨rows, some (work ++ [e.row]), n + 1⟩) hnew (fun h => ⟨h, rfl⟩)
      fun h => hfault n _ le_rfl (by omega) h rfl) fun _ => ?_
    refine Prog.ensures_of_forall ?_
    rintro _ ⟨hn, rfl⟩
    refine ih hnodup (fun hrest => ?_) fun i s hle hlt => hfault i s (by omega) (by omega)
    have hdone := hok fun i hle hlt => by
      rcases hle.eq_or_lt with rfl | hlt'
      · exact hn
      · exact hrest i hlt' (by omega)
    rwa [Nat.add_comm l.length 1, ← Nat.add_assoc] at hdone

/-! ### Batches -/

def keyed (e : Envelope) : Text × Envelope := (e.eventId, e)

theorem map_fst_keyed (l : List Envelope) :
    (l.map keyed).map Prod.fst = l.map Envelope.eventId := by
  rw [List.map_map]
  rfl

theorem lookup_keyed (h : (l.map Envelope.eventId).Nodup) {k : Text} {e : Envelope} :
    (l.map keyed).lookup k = some e ↔ e ∈ l ∧ e.eventId = k := by
  rw [Dict.lookup_eq_some_iff_mem (by rwa [map_fst_keyed]), List.mem_map]
  constructor
  · rintro ⟨e', he', heq⟩
    obtain ⟨rfl, rfl⟩ := Prod.mk.inj heq
    exact ⟨he', rfl⟩
  · rintro ⟨he, rfl⟩
    exact ⟨e, he, rfl⟩

def Clashless (l : List Envelope) : Prop := Set.InjOn Envelope.eventId {e | e ∈ l}

theorem clashless_of_nodup (h : (l.map Envelope.eventId).Nodup) : Clashless l :=
  fun _ he _ he' heq => List.inj_on_of_nodup_map h he he' heq

theorem stage_eq (h : (l.map Envelope.eventId).Nodup) :
    (Clashless (l ++ batch) ∧
      stage (l.map keyed) batch = .ok ((extend Envelope.eventId l batch).map keyed)) ∨
    (¬ Clashless (l ++ batch) ∧ stage (l.map keyed) batch = .error .duplicateConflict) := by
  induction batch generalizing l with
  | nil =>
    refine .inl ⟨?_, ?_⟩
    · rw [List.append_nil]
      exact clashless_of_nodup h
    · rw [stage, extend, fresh, List.append_nil]
  | cons e batch ih =>
    have hself : e ∈ l ++ e :: batch := List.mem_append_right _ List.mem_cons_self
    cases hlookup : (l.map keyed).lookup e.eventId with
    | none =>
      have hnew : e.eventId ∉ l.map Envelope.eventId := by
        intro hmem
        obtain ⟨e', he', hid⟩ := List.mem_map.mp hmem
        rw [(lookup_keyed h).mpr ⟨he', hid⟩] at hlookup
        cases hlookup
      have hassign : Assoc.assign (l.map keyed) e.eventId e = (l ++ [e]).map keyed := by
        rw [Assoc.assign_of_notMem (by rwa [map_fst_keyed]), List.map_append]
        rfl
      have hnext : ((l ++ [e]).map Envelope.eventId).Nodup := by
        rw [List.map_append, List.nodup_append]
        refine ⟨h, List.nodup_singleton _, ?_⟩
        rintro k hk _ hk' rfl
        exact hnew (List.mem_singleton.mp hk' ▸ hk)
      rw [stage, hlookup, Option.any_none, if_neg Bool.false_ne_true, hassign,
        KeyedLog.extend_cons_of_notMem hnew]
      have hrest := ih hnext
      rwa [List.append_assoc, List.singleton_append] at hrest
    | some e' =>
      obtain ⟨hmem, hid⟩ := (lookup_keyed h).mp hlookup
      rw [stage, hlookup, Option.any_some]
      by_cases heq : e' = e
      · subst heq
        have hassign : Assoc.assign (l.map keyed) e'.eventId e' = l.map keyed :=
          Assoc.assign_of_mem (by rwa [map_fst_keyed]) (List.mem_map_of_mem (f := keyed) hmem)
        have hclash : Clashless (l ++ e' :: batch) ↔ Clashless (l ++ batch) := by
          unfold Clashless
          refine iff_of_eq (congrArg _ (Set.ext fun a => ?_))
          simp only [Set.mem_ofPred_eq, List.mem_append, List.mem_cons]
          constructor
          · rintro (ha | rfl | ha)
            · exact .inl ha
            · exact .inl hmem
            · exact .inr ha
          · exact Or.imp_right .inr
        rw [if_neg (by simp), hassign, KeyedLog.extend_cons_of_mem (List.mem_map_of_mem hmem),
          hclash]
        exact ih h
      · refine .inr ⟨fun hclash => heq ?_, if_pos (decide_eq_true heq)⟩
        exact hclash (List.mem_append_left _ hmem) hself hid

theorem mapM_decode_rows (l : List Envelope) : (l.map Envelope.row).mapM decode = .ok l := by
  induction l with
  | nil => rfl
  | cons e l ih =>
    rw [List.map_cons, List.mapM_cons, decode_row, ih]
    rfl

theorem existingEvents_rows (l : List Envelope) :
    existingEvents (l.map Envelope.row) = .ok (l.map keyed) := by
  induction l with
  | nil => rfl
  | cons e l ih =>
    rw [existingEvents] at ih ⊢
    rw [List.map_cons, List.mapM_cons, decode_row, ih]
    rfl

theorem conflicts_eq_true_iff (h : (es.map Envelope.eventId).Nodup) (hbatch : Clashless batch) :
    conflicts (es.map keyed) ((fresh Envelope.eventId [] batch).map keyed) = true ↔
      ¬ Clashless (es ++ batch) := by
  have hfresh : ∀ a, a ∈ fresh Envelope.eventId [] batch ↔ a ∈ batch := fun a => by
    rw [KeyedLog.mem_fresh hbatch]
    exact and_iff_left List.not_mem_nil
  constructor
  · intro hconflict hclash
    obtain ⟨s, hs, hany⟩ := List.any_eq_true.mp hconflict
    obtain ⟨a, ha, rfl⟩ := List.mem_map.mp hs
    cases hlookup : (es.map keyed).lookup (keyed a).1 with
    | none =>
      rw [hlookup] at hany
      cases hany
    | some e =>
      rw [hlookup] at hany
      obtain ⟨hmem, hid⟩ := (lookup_keyed h).mp hlookup
      exact of_decide_eq_true hany (hclash (List.mem_append_left _ hmem)
        (List.mem_append_right _ ((hfresh a).mp ha)) hid)
  · intro hclash
    by_contra hconflict
    have hagree : ∀ e ∈ es, ∀ a ∈ batch, e.eventId = a.eventId → e = a := by
      intro e he a ha hid
      by_contra hne
      refine hconflict (List.any_eq_true.mpr ⟨keyed a,
        List.mem_map_of_mem (f := keyed) ((hfresh a).mpr ha), ?_⟩)
      have hlookup : (es.map keyed).lookup (keyed a).1 = some e := (lookup_keyed h).mpr ⟨he, hid⟩
      rw [hlookup]
      exact decide_eq_true hne
    refine hclash fun a ha b hb hid => ?_
    rcases List.mem_append.mp ha with ha | ha <;> rcases List.mem_append.mp hb with hb | hb
    · exact clashless_of_nodup h ha hb hid
    · exact hagree a ha b hb hid
    · exact (hagree b hb a ha hid.symm).symm
    · exact hbatch ha hb hid

theorem filter_staged (h : (es.map Envelope.eventId).Nodup) :
    ((fresh Envelope.eventId [] batch).map keyed).filter
        (fun s => ((es.map keyed).lookup s.1).isNone) =
      (fresh Envelope.eventId (es.map Envelope.eventId) batch).map keyed := by
  have hnew : ∀ e : Envelope, ((es.map keyed).lookup e.eventId).isNone =
      decide (e.eventId ∉ es.map Envelope.eventId) := by
    intro e
    rw [Bool.eq_iff_iff, decide_eq_true_iff, Option.isNone_iff_eq_none]
    constructor
    · intro hnone hmem
      obtain ⟨e', he', hid⟩ := List.mem_map.mp hmem
      rw [(lookup_keyed h).mpr ⟨he', hid⟩] at hnone
      cases hnone
    · intro hmem
      rw [Option.eq_none_iff_forall_ne_some]
      intro e' he'
      obtain ⟨hmem', hid⟩ := (lookup_keyed h).mp he'
      exact hmem (hid ▸ List.mem_map_of_mem hmem')
  rw [List.filter_map, ← List.nil_append (es.map Envelope.eventId), ← KeyedLog.fresh_filter]
  exact congrArg _ (List.filter_congr fun e _ => (hnew e).trans (decide_eq_decide.mpr Iff.rfl))

/-! ### A call -/

def Proposes (call : Call) (batch : List Envelope) : Prop :=
  ∃ items, call.batch = .list items ∧ items.mapM validate = .ok batch

/-- The batch does not clash with the outbox, and no statement of the transaction fails. -/
structure Sound (es batch : List Envelope) (failCommit : Bool) (faults : ℕ → Bool) : Prop where
  clashless : Clashless (es ++ batch)
  commits : failCommit = false
  runs : ∀ i < (fresh Envelope.eventId (es.map Envelope.eventId) batch).length + 4,
    faults i = false

/-- A transaction that succeeds commits the log extended by the batch. -/
def Commits (es batch : List Envelope) (count : ℕ) (db : Database) : Prop :=
  db.committed = (extend Envelope.eventId es batch).map Envelope.row ∧ db.working = none ∧
    count = (extend Envelope.eventId es batch).length

theorem map_eventId_row (l : List Envelope) :
    (l.map Envelope.row).map Row.eventId = l.map Envelope.eventId := by
  rw [List.map_map]
  rfl

theorem ensures_transaction (h : (es.map Envelope.eventId).Nodup) (hbatch : Clashless batch)
    (failCommit : Bool) :
    Ensures (· = ⟨es.map Envelope.row, none, 0⟩)
      (transaction faults ((fresh Envelope.eventId [] batch).map keyed) failCommit)
      (fun count db => Sound es batch failCommit faults ∧ Commits es batch count db)
      fun _ db => ¬ Sound es batch failCommit faults ∧ db.committed = es.map Envelope.row := by
  have hfault : ∀ i, i < (fresh Envelope.eventId (es.map Envelope.eventId) batch).length + 4 →
      faults i = true → ¬ Sound es batch failCommit faults := by
    intro i hi htrue hsound
    rw [hsound.runs i hi] at htrue
    cases htrue
  refine Prog.ensures_bind (ensures_beginImmediate (Q := fun _ db => faults 0 = false ∧
    db = ⟨es.map Envelope.row, some (es.map Envelope.row), 1⟩) (fun h0 => ⟨h0, rfl⟩)
    fun h0 => ⟨hfault 0 (by omega) h0, rfl⟩) fun _ => Prog.ensures_of_forall ?_
  rintro _ ⟨h0, rfl⟩
  refine Prog.ensures_bind (ensures_selectRows (Q := fun found db => faults 1 = false ∧
    found = es.map Envelope.row ∧
    db = ⟨es.map Envelope.row, some (es.map Envelope.row), 2⟩) (fun h1 => ⟨h1, rfl, rfl⟩)
    fun h1 => ⟨hfault 1 (by omega) h1, rfl⟩) fun found => Prog.ensures_of_forall ?_
  rintro _ ⟨h1, rfl, rfl⟩
  rw [existingEvents_rows]
  dsimp only
  by_cases hclash : Clashless (es ++ batch)
  · rw [if_neg fun hc => (conflicts_eq_true_iff h hbatch).mp hc hclash, filter_staged h]
    have hdistinct : ((es.map Envelope.row ++ (fresh Envelope.eventId
        (es.map Envelope.eventId) batch).map Envelope.row).map Row.eventId).Nodup := by
      rw [← List.map_append, map_eventId_row]
      exact KeyedLog.nodup_extend h
    refine Prog.ensures_bind (ensures_insertAll (Q := fun _ db =>
      (∀ i, 2 ≤ i → i < 2 + (fresh Envelope.eventId (es.map Envelope.eventId) batch).length →
        faults i = false) ∧
      db = ⟨es.map Envelope.row, some (es.map Envelope.row ++ (fresh Envelope.eventId
        (es.map Envelope.eventId) batch).map Envelope.row),
        2 + (fresh Envelope.eventId (es.map Envelope.eventId) batch).length⟩) hdistinct
      (fun hrest => ⟨hrest, rfl⟩) fun i s _ hlt htrue hs => ⟨hfault i (by omega) htrue, hs⟩)
      fun _ => Prog.ensures_of_forall ?_
    rintro _ ⟨hrest, rfl⟩
    cases failCommit with
    | true =>
      exact Prog.ensures_throw fun db hdb => ⟨fun hs => Bool.noConfusion hs.commits, hdb ▸ rfl⟩
    | false =>
      refine ensures_finish (fun hcount hcommit => ⟨⟨hclash, rfl, fun i hi => ?_⟩, ?_⟩)
        fun i s hlt htrue hs => ⟨hfault i (by omega) htrue, hs⟩
      · rcases Nat.lt_or_ge i 2 with hi2 | hi2
        · interval_cases i
          · exact h0
          · exact h1
        · rcases Nat.lt_or_ge i (2 + (fresh Envelope.eventId (es.map Envelope.eventId)
            batch).length) with hlt | hge
          · exact hrest i hi2 hlt
          · rcases hge.eq_or_lt with rfl | hgt
            · exact hcount
            · obtain rfl : i = 2 + (fresh Envelope.eventId (es.map Envelope.eventId)
                batch).length + 1 := by omega
              exact hcommit
      · rw [Commits, extend, List.map_append]
        refine ⟨rfl, rfl, ?_⟩
        rw [List.length_append, List.length_append, List.length_map, List.length_map]
  · rw [if_pos ((conflicts_eq_true_iff h hbatch).mpr hclash)]
    exact Prog.ensures_throw fun db hdb => ⟨fun hs => hclash hs.clashless, hdb ▸ rfl⟩

theorem propose_cases (v : Value) :
    (∃ items batch, v = .list items ∧ items.mapM validate = .ok batch ∧ Clashless batch ∧
      propose v = .ok ((fresh Envelope.eventId [] batch).map keyed)) ∨
    ∃ r, propose v = .error r ∧
      ∀ items batch, v = .list items → items.mapM validate = .ok batch → ¬ Clashless batch := by
  unfold propose
  split
  · rename_i items
    cases hvalid : items.mapM validate with
    | error r =>
      refine .inr ⟨r, rfl, ?_⟩
      rintro _ batch ⟨⟩ hbatch
      cases hvalid.symm.trans hbatch
    | ok batch =>
      have hstaged : ([] : List Envelope).map Envelope.eventId |>.Nodup := List.nodup_nil
      rcases @stage_eq batch [] hstaged with ⟨hclash, hstage⟩ | hstage
      · exact .inl ⟨items, batch, rfl, hvalid, hclash, hstage⟩
      · refine .inr ⟨_, hstage.2, ?_⟩
        rintro _ batch' ⟨⟩ hbatch'
        cases hvalid.symm.trans hbatch'
        exact hstage.1
  · rename_i hlist
    refine .inr ⟨_, rfl, ?_⟩
    rintro items _ rfl
    exact absurd rfl (hlist items)

/-- The outbox holds the events, with distinct ids, and no transaction is open. -/
structure Stored (es : List Envelope) (db : Database) : Prop where
  committed : db.committed = es.map Envelope.row
  closed : db.working = none
  distinct : (es.map Envelope.eventId).Nodup

/-- The call proposes the batch and commits, and nothing stands against it. -/
structure Admissible (es batch : List Envelope) (call : Call) : Prop where
  proposes : Proposes call batch
  commits : call.failCommit = .bool false
  sound : Sound es batch false call.faults

theorem ensures_publish (call : Call) (h : (es.map Envelope.eventId).Nodup) :
    Ensures (· = ⟨es.map Envelope.row, none, 0⟩) (publish call)
      (fun count db => ∃ batch, Admissible es batch call ∧ Commits es batch count db)
      fun _ db => (∀ batch, ¬ Admissible es batch call) ∧ db.committed = es.map Envelope.row ∧
        db.working = none := by
  have hthrow : ∀ failure : Failure, (∀ batch, ¬ Admissible es batch call) →
      Ensures (· = ⟨es.map Envelope.row, none, 0⟩) (throw failure : Run ℕ)
        (fun count db => ∃ batch, Admissible es batch call ∧ Commits es batch count db)
        fun _ db => (∀ batch, ¬ Admissible es batch call) ∧ db.committed = es.map Envelope.row ∧
          db.working = none := by
    intro failure hnone
    refine Prog.ensures_throw ?_
    rintro _ rfl
    exact ⟨hnone, rfl, rfl⟩
  unfold publish
  split
  · rename_i failCommit hcommit
    rcases propose_cases call.batch with
      ⟨items, batch, hlist, hvalid, hclash, hpropose⟩ | ⟨r, hpropose, hnone⟩
    · have hbatch : ∀ batch', Admissible es batch' call →
          Sound es batch failCommit call.faults := by
        intro batch' hadmissible
        obtain ⟨items', hlist', hvalid'⟩ := hadmissible.proposes
        obtain rfl := Value.list.inj (hlist.symm.trans hlist')
        obtain rfl := Except.ok.inj (hvalid.symm.trans hvalid')
        obtain rfl := Value.bool.inj (hcommit.symm.trans hadmissible.commits)
        exact hadmissible.sound
      rw [hpropose]
      refine Prog.ensures_tryCatch ((ensures_transaction h hclash failCommit).post ?_) ?_
      · rintro count db ⟨hsound, hcommits⟩
        have hfalse := hsound.commits
        subst hfalse
        exact ⟨batch, ⟨⟨items, hlist, hvalid⟩, hcommit, hsound⟩, hcommits⟩
      · have hhandler : ∀ failure : Failure, Ensures
            (fun db => ¬ Sound es batch failCommit call.faults ∧
              db.committed = es.map Envelope.row)
            (do rollback; throw failure : Run ℕ)
            (fun count db => ∃ batch, Admissible es batch call ∧ Commits es batch count db)
            fun _ db => (∀ batch, ¬ Admissible es batch call) ∧
              db.committed = es.map Envelope.row ∧ db.working = none := by
          intro failure
          refine Prog.ensures_bind (Prog.ensures_modify (Q := fun _ db =>
            ¬ Sound es batch failCommit call.faults ∧ db.committed = es.map Envelope.row ∧
              db.working = none) fun db hdb => ⟨hdb.1, hdb.2, rfl⟩) fun _ => ?_
          exact Prog.ensures_throw fun db hdb => ⟨fun b hb => hdb.1 (hbatch b hb), hdb.2⟩
        rintro (_ | r)
        · exact hhandler _
        · exact hhandler _
    · rw [hpropose]
      refine hthrow _ fun batch hadmissible => ?_
      obtain ⟨items, hlist, hvalid⟩ := hadmissible.proposes
      exact hnone items batch hlist hvalid
        (hadmissible.sound.clashless.mono fun _ he => List.mem_append_right _ he)
  · rename_i hbool
    exact hthrow _ fun batch hadmissible => hbool _ hadmissible.commits

/-- What a step does to a stored outbox. -/
theorem step_cases {db : Database} (h : Stored es db) (call : Call) :
    (∃ batch, Admissible es batch call ∧
      (step db call).1 = .ok (extend Envelope.eventId es batch).length ∧
      Stored (extend Envelope.eventId es batch) (step db call).2) ∨
    ((∀ batch, ¬ Admissible es batch call) ∧ (∃ failure, (step db call).1 = .error failure) ∧
      Stored es (step db call).2) := by
  have hstart : { db with statements := 0 } = ⟨es.map Envelope.row, none, 0⟩ := by
    rw [h.committed, h.closed]
  have hrun := ensures_publish call h.distinct _ hstart
  change Prog.Meets _ _ (step db call) at hrun
  generalize step db call = out at hrun ⊢
  obtain ⟨result, db'⟩ := out
  cases result with
  | ok count =>
    obtain ⟨batch, hadmissible, hcommitted, hclosed, rfl⟩ := hrun
    exact .inl ⟨batch, hadmissible, rfl, hcommitted, hclosed, KeyedLog.nodup_extend h.distinct⟩
  | error failure =>
    obtain ⟨hnone, hcommitted, hclosed⟩ := hrun
    exact .inr ⟨hnone, ⟨failure, rfl⟩, hcommitted, hclosed, h.distinct⟩

theorem exists_stored (calls : List Call) : ∃ es, Stored es (runAll calls) := by
  have hfold : ∀ (calls : List Call) es db, Stored es db →
      ∃ es', Stored es' (calls.foldl (fun db call => (step db call).2) db) := by
    intro calls
    induction calls with
    | nil => exact fun es db h => ⟨es, h⟩
    | cons call calls ih =>
      intro es db h
      rcases step_cases h call with ⟨batch, -, -, hstored⟩ | ⟨-, -, hstored⟩
      · exact ih _ _ hstored
      · exact ih _ _ hstored
  exact hfold calls [] _ ⟨rfl, rfl, List.nodup_nil⟩

/-! ### Batches in a row -/

def Succeeds (db : Database) (call : Call) : Prop := ∃ count, (step db call).1 = .ok count

variable {db : Database} {call : Call} {items items' : List Value} {batch' : List Envelope}

theorem events_of_stored (h : Stored es db) : events db = .ok es := by
  rw [events, h.committed, mapM_decode_rows]

theorem proposes_unique (h : Proposes call batch) (h' : Proposes call batch') : batch = batch' := by
  obtain ⟨items, hlist, hvalid⟩ := h
  obtain ⟨items', hlist', hvalid'⟩ := h'
  obtain rfl := Value.list.inj (hlist.symm.trans hlist')
  exact Except.ok.inj (hvalid.symm.trans hvalid')

theorem extended_of_succeeds (h : Stored es db) (hcall : Succeeds db call) :
    ∃ batch, Admissible es batch call ∧
      Stored (extend Envelope.eventId es batch) (step db call).2 := by
  obtain ⟨count, hok⟩ := hcall
  rcases step_cases h call with ⟨batch, hadmissible, -, hstored⟩ | ⟨-, ⟨failure, herror⟩, -⟩
  · exact ⟨batch, hadmissible, hstored⟩
  · rw [hok] at herror
    cases herror

theorem succeeds_of_admissible (h : Stored es db) (hcall : Admissible es batch call) :
    Succeeds db call := by
  rcases step_cases h call with ⟨batch', -, hok, -⟩ | ⟨hnone, -⟩
  · exact ⟨_, hok⟩
  · exact absurd hcall (hnone batch)

theorem mapM_append_ok (h : items.mapM validate = .ok batch)
    (h' : items'.mapM validate = .ok batch') :
    (items ++ items').mapM validate = .ok (batch ++ batch') := by
  rw [List.mapM_append, h, h']
  rfl

theorem clashless_append (h : Clashless (es ++ batch))
    (h' : Clashless (extend Envelope.eventId es batch ++ batch')) :
    Clashless (es ++ (batch ++ batch')) := by
  refine h'.mono fun e he => ?_
  rw [← List.append_assoc] at he
  rcases List.mem_append.mp he with he | he
  · exact List.mem_append_left _ ((KeyedLog.mem_extend h).mpr he)
  · exact List.mem_append_right _ he

/-- A batch that the outbox has taken changes nothing, whether its call returns or not. -/
theorem committed_again (h : Stored es db) (hcall : Succeeds db call) {again : Call}
    (hsame : again.batch = call.batch) :
    (step (step db call).2 again).2.committed = (step db call).2.committed := by
  obtain ⟨batch, hadmissible, hstored⟩ := extended_of_succeeds h hcall
  rcases step_cases hstored again with ⟨batch', hagain, -, hstored'⟩ | ⟨-, -, hstored'⟩
  · have hbatch : batch' = batch := by
      obtain ⟨items, hlist, hvalid⟩ := hagain.proposes
      exact proposes_unique ⟨items, hsame.symm.trans hlist, hvalid⟩ hadmissible.proposes
    rw [hstored'.committed, hstored.committed, hbatch, KeyedLog.extend_self]
  · rw [hstored'.committed, hstored.committed]

theorem committed_append (h : Stored es db) {first second both : Call}
    (hfirst : first.batch = .list items) (hsecond : second.batch = .list items')
    (hboth : both.batch = .list (items ++ items')) (h1 : Succeeds db first)
    (h2 : Succeeds (step db first).2 second) :
    (Succeeds db both →
        (step db both).2.committed = (step (step db first).2 second).2.committed) ∧
      (both.failCommit = .bool false → (∀ i, both.faults i = false) → Succeeds db both) := by
  obtain ⟨batch, hadmissible, hstored⟩ := extended_of_succeeds h h1
  obtain ⟨batch', hadmissible', hstored'⟩ := extended_of_succeeds hstored h2
  have hvalid : items.mapM validate = .ok batch := by
    obtain ⟨found, hlist, hvalid⟩ := hadmissible.proposes
    obtain rfl := Value.list.inj (hfirst.symm.trans hlist)
    exact hvalid
  have hvalid' : items'.mapM validate = .ok batch' := by
    obtain ⟨found, hlist, hvalid⟩ := hadmissible'.proposes
    obtain rfl := Value.list.inj (hsecond.symm.trans hlist)
    exact hvalid
  have hproposes : Proposes both (batch ++ batch') :=
    ⟨_, hboth, mapM_append_ok hvalid hvalid'⟩
  constructor
  · intro hsucceeds
    obtain ⟨whole, hwhole, hstored''⟩ := extended_of_succeeds h hsucceeds
    obtain rfl := proposes_unique hproposes hwhole.proposes
    rw [hstored''.committed, hstored'.committed, KeyedLog.extend_extend]
  · intro hcommit hfaults
    exact succeeds_of_admissible h ⟨hproposes, hcommit,
      clashless_append hadmissible.sound.clashless hadmissible'.sound.clashless, rfl,
      fun i _ => hfaults i⟩

/-- From every outbox that calls reach, a call either appends the events of its batch whose ids
are new, each at its first occurrence, or raises and leaves the rows as they are: where the
batch has an invalid event or a clash, where the commit is to fail, or where a statement fails.
A batch published again changes nothing, and two batches in a row leave what their
concatenation leaves. -/
theorem publication_atomic (calls : List Call) :
    ∃ es, events (runAll calls) = .ok es ∧ (es.map Envelope.eventId).Nodup ∧
      (∀ call,
        (∃ batch, Admissible es batch call ∧
          (step (runAll calls) call).1 = .ok (es ++ fresh Envelope.eventId
            (es.map Envelope.eventId) batch).length ∧
          events (step (runAll calls) call).2 =
            .ok (es ++ fresh Envelope.eventId (es.map Envelope.eventId) batch) ∧
          ((es ++ fresh Envelope.eventId (es.map Envelope.eventId) batch).map
            Envelope.eventId).Nodup) ∨
        ((∀ batch, ¬ Admissible es batch call) ∧
          (∃ failure, (step (runAll calls) call).1 = .error failure) ∧
          (step (runAll calls) call).2.committed = (runAll calls).committed)) ∧
      (∀ call again, Succeeds (runAll calls) call → again.batch = call.batch →
        (step (step (runAll calls) call).2 again).2.committed =
          (step (runAll calls) call).2.committed) ∧
      ∀ first second both items items', first.batch = .list items →
        second.batch = .list items' → both.batch = .list (items ++ items') →
        Succeeds (runAll calls) first → Succeeds (step (runAll calls) first).2 second →
        (Succeeds (runAll calls) both → (step (runAll calls) both).2.committed =
          (step (step (runAll calls) first).2 second).2.committed) ∧
        (both.failCommit = .bool false → (∀ i, both.faults i = false) →
          Succeeds (runAll calls) both) := by
  obtain ⟨es, hstored⟩ := exists_stored calls
  refine ⟨es, events_of_stored hstored, hstored.distinct, fun call => ?_,
    fun call again h hsame => committed_again hstored h hsame,
    fun first second both items items' hfirst hsecond hboth h1 h2 =>
      committed_append hstored hfirst hsecond hboth h1 h2⟩
  rcases step_cases hstored call with ⟨batch, hadmissible, hok, hnext⟩ | ⟨hnone, herror, hnext⟩
  · exact .inl ⟨batch, hadmissible, hok, events_of_stored hnext, hnext.distinct⟩
  · exact .inr ⟨hnone, herror, hnext.committed.trans hstored.committed.symm⟩

end Outbox
end OpenChess
