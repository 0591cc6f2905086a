import OpenChess.Lib.Trace
import OpenChess.Lib.UndoStack
import OpenChess.Privacy.SensitiveFlag

/-!
# The history of a flag

The state of a collection is an undo stack of the values its flag had. A transition that
changes the flag sets it, and a rollback undoes the last such change.
-/

namespace OpenChess
namespace Privacy

open UndoStack (Act Balanced Stack)

/-- The calls of the store that may write. -/
inductive FlagCall
  | register (id : Value)
  | transition (req : Value)
  | rollback (req : Value)

/-- The store after a call; a call that fails leaves it alone. -/
def flagStep (sha : Hex.Hash 64) (cells : Flags) : FlagCall → Flags
  | .register id => Cells.kept cells (registerCollection cells id)
  | .transition req => Cells.kept cells (flagTransition sha cells req)
  | .rollback req => Cells.kept cells (flagRollback sha cells req)

def runFlags (sha : Hex.Hash 64) (calls : List FlagCall) : Flags := Trace.run (flagStep sha) ∅ calls

def Flag.stack (c : Flag) : Stack Bool := ⟨c.history, c.sensitive⟩

def stackOf (cells : Flags) (collection : Text) : Stack Bool :=
  ((cells.lookup collection).map Flag.stack).getD ⟨[], true⟩

def FlagCall.request? : FlagCall → Option FlagRequest
  | .register _ => none
  | .transition req => (readFlagTransition req).map Prod.fst
  | .rollback req => readRollback req

/-- What a call does to the flag of a collection: an effective transition sets it, and an
accepted rollback undoes. -/
def actOf (sha : Hex.Hash 64) (cells : Flags) (collection : Text) : FlagCall → List (Act Bool)
  | .register _ => []
  | .transition req =>
    match readFlagTransition req, flagTransition sha cells req with
    | some (r, target), .ok _ =>
      if r.collection = collection ∧ target ≠ (stackOf cells collection).value then [.set target]
      else []
    | _, _ => []
  | .rollback req =>
    match readRollback req, flagRollback sha cells req with
    | some r, .ok _ => if r.collection = collection then [.undo] else []
    | _, _ => []

def actsFrom (sha : Hex.Hash 64) (collection : Text) : Flags → List FlagCall → List (Act Bool)
  | _, [] => []
  | cells, call :: calls =>
    actOf sha cells collection call ++ actsFrom sha collection (flagStep sha cells call) calls

def Consents (sha : Hex.Hash 64) (cells : Flags) (collection : Text) (call : FlagCall) : Prop :=
  ∃ r c, call.request? = some r ∧ r.collection = collection ∧ cells.lookup collection = some c ∧
    r.expected = c.revision ∧ r.token = some (approvalFor sha collection c.revision)

/-- What a call can do to the flag of a collection. -/
inductive Does (sha : Hex.Hash 64) (cells : Flags) (collection : Text) (call : FlagCall) :
    List (Act Bool) → Stack Bool → Prop
  | nothing : Does sha cells collection call [] (stackOf cells collection)
  | set (target : Bool) (hne : target ≠ (stackOf cells collection).value)
      (hconsent : target = false → Consents sha cells collection call) :
      Does sha cells collection call [.set target] ((stackOf cells collection).set target)
  | undo (s : Stack Bool) (hundo : (stackOf cells collection).undo = some s)
      (hconsent : s.value = false → Consents sha cells collection call) :
      Does sha cells collection call [.undo] s

variable {sha : Hex.Hash 64} {cells cells' : Flags} {collection : Text} {call : FlagCall}
  {calls : List FlagCall} {c c' : Flag} {r : FlagRequest} {req out : Value}

/-! ### One call -/

theorem stackOf_eq (h : cells.lookup collection = some c) : stackOf cells collection = c.stack := by
  rw [stackOf, h]
  rfl

theorem stackOf_insert_self : stackOf (cells.insert collection c) collection = c.stack :=
  stackOf_eq (Finmap.lookup_insert cells)

theorem stackOf_insert_of_ne {other : Text} (h : collection ≠ other) :
    stackOf (cells.insert other c) collection = stackOf cells collection := by
  rw [stackOf, stackOf, Finmap.lookup_insert_of_ne _ h]

theorem stackOf_setDefault {other : Text} :
    stackOf (Cells.setDefault cells other ⟨true, 0, []⟩) collection = stackOf cells collection := by
  rw [stackOf, stackOf, Cells.lookup_setDefault]
  split_ifs with h
  · subst h
    cases cells.lookup collection <;> rfl
  · rfl

theorem consents_of_approved (hrequest : call.request? = some r)
    (hcell : cells.lookup r.collection = some c) (hexpected : r.expected = c.revision)
    (happroved : r.approved sha = true) : Consents sha cells r.collection call := by
  refine ⟨r, c, hrequest, rfl, hcell, hexpected, ?_⟩
  rw [← hexpected]
  exact of_decide_eq_true happroved

theorem target_eq_of_apply {approved target : Bool} {expected : ℕ}
    (h : c.apply approved expected target = .ok c) : target = c.sensitive := by
  unfold Flag.apply at h
  split_ifs at h with hexpected hsame happroval
  · exact hsame
  · split at h
    · cases h
    · rename_i n hbump
      have hrevision : n = c.revision := congrArg Flag.revision (Except.ok.inj h)
      have hraised := (bump_eq_some.mp hbump).2
      omega

theorem does_register (id : Value) : Does sha cells collection (.register id)
    (actOf sha cells collection (.register id)) (stackOf (flagStep sha cells (.register id))
      collection) := by
  rw [flagStep, registerCollection]
  cases readId collectionOk id with
  | none => exact .nothing
  | some other =>
    simp only [Cells.kept, stackOf_setDefault]
    exact .nothing

theorem does_transition (req : Value) : Does sha cells collection (.transition req)
    (actOf sha cells collection (.transition req)) (stackOf (flagStep sha cells (.transition req))
      collection) := by
  rw [actOf, flagStep, flagTransition]
  cases hread : readFlagTransition req with
  | none => exact .nothing
  | some read =>
    obtain ⟨r, target⟩ := read
    have hrequest : (FlagCall.transition req).request? = some r := by rw [FlagCall.request?, hread]; rfl
    cases hupdate : Cells.update cells r.collection FlagFailure.unknownCollection
        (Flag.apply (r.approved sha) r.expected target) with
    | error e =>
      simp only [hupdate, Cells.kept]
      exact .nothing
    | ok written =>
      obtain ⟨c', cells'⟩ := written
      obtain ⟨c, hcell, happly, rfl⟩ := Cells.update_eq_ok.mp hupdate
      simp only [hupdate, Cells.kept]
      by_cases hcollection : r.collection = collection
      · subst hcollection
        rw [stackOf_insert_self]
        obtain ⟨hexpected, rfl | ⟨hne, hconsent, -, rfl⟩⟩ := Flag.of_apply happly
        · rw [if_neg fun h => h.2 (by rw [stackOf_eq hcell]; exact target_eq_of_apply happly),
            ← stackOf_eq hcell]
          exact .nothing
        · have hstack := stackOf_eq hcell
          have hchanged : target ≠ (stackOf cells r.collection).value := by rwa [hstack]
          rw [if_pos ⟨rfl, hchanged⟩]
          have hset : Does sha cells r.collection (.transition req) [.set target] _ :=
            .set target hchanged fun hlow =>
              consents_of_approved hrequest hcell hexpected (hconsent hlow)
          rwa [hstack] at hset
      · rw [if_neg fun h => hcollection h.1, stackOf_insert_of_ne (Ne.symm hcollection)]
        exact .nothing

theorem does_rollback (req : Value) : Does sha cells collection (.rollback req)
    (actOf sha cells collection (.rollback req)) (stackOf (flagStep sha cells (.rollback req))
      collection) := by
  rw [actOf, flagStep, flagRollback]
  cases hread : readRollback req with
  | none => exact .nothing
  | some r =>
    cases hupdate : Cells.update cells r.collection FlagFailure.unknownCollection
        (Flag.rollback (r.approved sha) r.expected) with
    | error e =>
      simp only [hupdate, Cells.kept]
      exact .nothing
    | ok written =>
      obtain ⟨c', cells'⟩ := written
      obtain ⟨c, hcell, hrollback, rfl⟩ := Cells.update_eq_ok.mp hupdate
      simp only [hupdate, Cells.kept]
      by_cases hcollection : r.collection = collection
      · subst hcollection
        obtain ⟨hexpected, target, htarget, hconsent, -, rfl⟩ := Flag.of_rollback hrollback
        rw [if_pos rfl, stackOf_insert_self]
        refine .undo _ ?_ fun hlow => consents_of_approved hread hcell hexpected (hconsent hlow)
        rw [stackOf_eq hcell, Stack.undo, Flag.stack, htarget]
        rfl
      · rw [if_neg hcollection, stackOf_insert_of_ne (Ne.symm hcollection)]
        exact .nothing

/-- What every call does. -/
theorem does (sha : Hex.Hash 64) (cells : Flags) (collection : Text) (call : FlagCall) :
    Does sha cells collection call (actOf sha cells collection call)
      (stackOf (flagStep sha cells call) collection) := by
  cases call with
  | register id => exact does_register id
  | transition req => exact does_transition req
  | rollback req => exact does_rollback req

/-! ### Runs -/

variable {acts : List (Act Bool)} {s : Stack Bool}

theorem Does.run_eq (h : Does sha cells collection call acts s) :
    (stackOf cells collection).run acts = some s := by
  cases h with
  | nothing => rfl
  | set target => rfl
  | undo s hundo => rw [UndoStack.run_cons, Stack.act, hundo]; rfl

theorem Does.eq_nil_or (h : Does sha cells collection call acts s) : acts = [] ∨ ∃ a, acts = [a] := by
  cases h with
  | nothing => exact .inl rfl
  | set target => exact .inr ⟨_, rfl⟩
  | undo s => exact .inr ⟨_, rfl⟩

theorem Does.alternates (h : Does sha cells collection call acts s)
    (hbefore : (stackOf cells collection).Alternates true) : s.Alternates true := by
  cases h with
  | nothing => exact hbefore
  | set target hne => exact hbefore.set hne
  | undo s hundo => exact hbefore.undo hundo

theorem Does.consents (h : Does sha cells collection call acts s)
    (hsensitive : (stackOf cells collection).value = true) (hlow : s.value = false) :
    Consents sha cells collection call := by
  cases h with
  | nothing => exact absurd (hsensitive.symm.trans hlow) (by decide)
  | set target hne hconsent => exact hconsent hlow
  | undo s hundo hconsent => exact hconsent hlow

theorem run_actsFrom (sha : Hex.Hash 64) (collection : Text) (calls : List FlagCall)
    (cells : Flags) : (stackOf cells collection).run (actsFrom sha collection cells calls) =
      some (stackOf (Trace.run (flagStep sha) cells calls) collection) := by
  induction calls generalizing cells with
  | nil => rfl
  | cons call calls ih =>
    rw [actsFrom, UndoStack.run_append, (does sha cells collection call).run_eq, Option.bind_some,
      ih]
    rfl

theorem exists_call {before between : List (Act Bool)} {a : Act Bool}
    (h : actsFrom sha collection cells calls = before ++ a :: between) :
    ∃ earlier call later, calls = earlier ++ call :: later ∧
      actsFrom sha collection cells earlier = before ∧
      actOf sha (Trace.run (flagStep sha) cells earlier) collection call = [a] ∧
      actsFrom sha collection (Trace.run (flagStep sha) cells (earlier ++ [call])) later =
        between := by
  induction calls generalizing cells before with
  | nil => simp [actsFrom] at h
  | cons call calls ih =>
    rw [actsFrom] at h
    have hlater : ∀ {before' : List (Act Bool)},
        actsFrom sha collection (flagStep sha cells call) calls = before' ++ a :: between →
        actOf sha cells collection call ++ before' = before → ∃ earlier call' later,
          call :: calls = earlier ++ call' :: later ∧
          actsFrom sha collection cells earlier = before ∧
          actOf sha (Trace.run (flagStep sha) cells earlier) collection call' = [a] ∧
          actsFrom sha collection (Trace.run (flagStep sha) cells (earlier ++ [call'])) later =
            between := by
      rintro before' hacts rfl
      obtain ⟨earlier, call', later, rfl, rfl, hact, hbetween⟩ := ih hacts
      exact ⟨call :: earlier, call', later, rfl, rfl, hact, hbetween⟩
    obtain hnone | ⟨b, hb⟩ := (does sha cells collection call).eq_nil_or
    · rw [hnone, List.nil_append] at h
      exact hlater h (by rw [hnone]; rfl)
    · rw [hb] at h
      cases before with
      | nil =>
        obtain ⟨rfl, hrest⟩ := List.cons.inj h
        exact ⟨[], call, calls, rfl, rfl, hb, hrest⟩
      | cons b' before =>
        obtain ⟨rfl, hrest⟩ := List.cons.inj h
        exact hlater hrest (by rw [hb]; rfl)

theorem alternates_run (sha : Hex.Hash 64) (calls : List FlagCall) (collection : Text) :
    (stackOf (runFlags sha calls) collection).Alternates true := by
  have hstart : (stackOf ∅ collection).Alternates true :=
    ⟨rfl, List.isChain_singleton true⟩
  have hstep : ∀ cells call, (stackOf cells collection).Alternates true →
      (stackOf (flagStep sha cells call) collection).Alternates true :=
    fun cells call h => (does sha cells collection call).alternates h
  exact @Trace.run_invariant _ _ (flagStep sha) ∅
    (fun cells => (stackOf cells collection).Alternates true) hstart hstep calls

theorem undo_of_rollback (hread : readRollback req = some r)
    (h : flagRollback sha cells req = .ok (out, cells')) :
    (stackOf cells r.collection).undo = some (stackOf cells' r.collection) := by
  have hstep : flagStep sha cells (.rollback req) = cells' := by rw [flagStep, h]; rfl
  have hact : actOf sha cells r.collection (.rollback req) = [.undo] := by
    rw [actOf, hread, h]
    exact if_pos rfl
  have hdoes := (does sha cells r.collection (.rollback req)).run_eq
  rw [hact, hstep, UndoStack.run_cons, Stack.act, Option.bind_eq_some_iff] at hdoes
  obtain ⟨s, hs, hlast⟩ := hdoes
  rw [hs, ← hlast]
  rfl

/-- The history of a flag is an undo stack. The flag alternates from the sensitive value of
the registration. A rollback restores what an effective transition replaced, with the
history before it, where every other change since then was itself rolled back. And a flag is
lowered only by a call that carries the matching approval. -/
theorem flag_history (sha : Hex.Hash 64) (calls : List FlagCall) :
    (∀ collection c, (runFlags sha calls).lookup collection = some c →
      (c.history ++ [c.sensitive]).head? = some true ∧
        (c.history ++ [c.sensitive]).IsChain (· ≠ ·)) ∧
    (∀ req r out cells', readRollback req = some r →
      flagRollback sha (runFlags sha calls) req = .ok (out, cells') →
      ∃ earlier call later v, calls = earlier ++ call :: later ∧
        actOf sha (runFlags sha earlier) r.collection call = [.set v] ∧
        Balanced (actsFrom sha r.collection (runFlags sha (earlier ++ [call])) later) ∧
        stackOf cells' r.collection = stackOf (runFlags sha earlier) r.collection) ∧
    ∀ collection call, (stackOf (runFlags sha calls) collection).value = true →
      (stackOf (flagStep sha (runFlags sha calls) call) collection).value = false →
      Consents sha (runFlags sha calls) collection call := by
  refine ⟨fun collection c hc => ?_, fun req r out cells' hread hrollback => ?_,
    fun collection call hsensitive hlow => ?_⟩
  · have halternates := alternates_run sha calls collection
    rwa [stackOf_eq hc] at halternates
  · have hrun : (stackOf ∅ r.collection).run (actsFrom sha r.collection ∅ calls) =
        some (stackOf (runFlags sha calls) r.collection) := run_actsFrom sha r.collection calls ∅
    obtain ⟨before, v, between, hacts, hbetween, hbefore⟩ :=
      UndoStack.exists_set_of_undo rfl hrun (undo_of_rollback hread hrollback)
    obtain ⟨earlier, call, later, rfl, rfl, hact, rfl⟩ := exists_call hacts
    refine ⟨earlier, call, later, v, rfl, hact, hbetween, ?_⟩
    rw [run_actsFrom] at hbefore
    exact (Option.some.inj hbefore).symm
  · exact (does sha (runFlags sha calls) collection call).consents hsensitive hlow

end Privacy
end OpenChess
