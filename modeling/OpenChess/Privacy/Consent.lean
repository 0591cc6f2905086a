import OpenChess.Lib.Trace
import OpenChess.Privacy.Byom

/-!
# The stores together

The switch, the flags and the accepted terms gate one decision. A call goes to one of them,
and what one call can do is said once.
-/

namespace OpenChess
namespace Privacy

/-- The states of the three stores. -/
structure Stores where
  switches : Switches
  flags : Flags
  providers : Providers

def Stores.empty : Stores := ⟨∅, ∅, ∅⟩

/-- The public calls of the three stores. -/
inductive Call
  | registerInstall (id : Value)
  | cloudVerdict (req : Value)
  | cloudTransition (req : Value)
  | registerCollection (id : Value)
  | flagVerdict (req : Value)
  | flagTransition (req : Value)
  | flagRollback (req : Value)
  | registerProvider (install provider : Value)
  | send (req : Value)
  | termsTransition (req : Value)

/-- The stores after a call; a call that fails leaves them alone. -/
def step (sha : Hex.Hash 64) (s : Stores) : Call → Stores
  | .registerInstall id =>
    { s with switches := Cells.kept s.switches (registerInstall s.switches id) }
  | .cloudTransition req =>
    { s with switches := Cells.kept s.switches (cloudTransition sha s.switches req) }
  | .registerCollection id => { s with flags := Cells.kept s.flags (registerCollection s.flags id) }
  | .flagTransition req => { s with flags := Cells.kept s.flags (flagTransition sha s.flags req) }
  | .flagRollback req => { s with flags := Cells.kept s.flags (flagRollback sha s.flags req) }
  | .registerProvider install provider =>
    { s with providers := Cells.kept s.providers (registerProvider s.providers install provider) }
  | .termsTransition req =>
    { s with providers := Cells.kept s.providers (termsTransition sha s.providers req) }
  | .cloudVerdict _ => s
  | .flagVerdict _ => s
  | .send _ => s

def run (sha : Hex.Hash 64) (calls : List Call) : Stores := Trace.run (step sha) Stores.empty calls

/-! ### Effects -/

/-- What a call can do to the stores. -/
inductive Effect (sha : Hex.Hash 64) (s : Stores) : Call → Stores → Prop
  | keep (call : Call) : Effect sha s call s
  | registerInstall {id : Value} {install : Text} (hnew : s.switches.lookup install = none) :
      Effect sha s (.registerInstall id)
        { s with switches := s.switches.insert install ⟨.off, 0⟩ }
  | registerCollection {id : Value} {collection : Text}
      (hnew : s.flags.lookup collection = none) :
      Effect sha s (.registerCollection id)
        { s with flags := s.flags.insert collection ⟨true, 0, []⟩ }
  | registerProvider {install provider : Value} {pair : Text × Text}
      (hnew : s.providers.lookup pair = none) :
      Effect sha s (.registerProvider install provider)
        { s with providers := s.providers.insert pair ⟨none, 0⟩ }
  | turn {req : Value} {r : CloudRequest} {c : Switch} (hread : readCloudTransition req = some r)
      (hcell : s.switches.lookup r.install = some c) (hexpected : r.expected = c.revision)
      (hconsent : r.target = .on → r.approved sha = true) (hmax : c.revision < maxRev) :
      Effect sha s (.cloudTransition req)
        { s with switches := s.switches.insert r.install ⟨r.target, c.revision + 1⟩ }
  | setFlag {req : Value} {r : FlagRequest} {target : Bool} {c : Flag}
      (hread : readFlagTransition req = some (r, target))
      (hcell : s.flags.lookup r.collection = some c) (hexpected : r.expected = c.revision)
      (hconsent : target = false → r.approved sha = true) (hmax : c.revision < maxRev) :
      Effect sha s (.flagTransition req)
        { s with
          flags := s.flags.insert r.collection ⟨target, c.revision + 1, c.history ++ [c.sensitive]⟩ }
  | rollBack {req : Value} {r : FlagRequest} {target : Bool} {c : Flag}
      (hread : readRollback req = some r) (hcell : s.flags.lookup r.collection = some c)
      (htarget : c.history.getLast? = some target) (hexpected : r.expected = c.revision)
      (hconsent : target = false → r.approved sha = true) (hmax : c.revision < maxRev) :
      Effect sha s (.flagRollback req)
        { s with flags := s.flags.insert r.collection ⟨target, c.revision + 1, c.history.dropLast⟩ }
  | setTerms {req : Value} {r : TermsRequest} {c c' : Terms}
      (hread : readTermsTransition req = some r) (hcell : s.providers.lookup r.pair = some c)
      (hexpected : r.expected = c.revision) (hchanged : r.target sha ≠ c.accepted)
      (hconsent : (r.target sha).isSome = true → r.approved sha = true ∧ c.revision < maxRev)
      (haccepted : c'.accepted = r.target sha)
      (hrevision : c.revision < maxRev ∧ c'.revision = c.revision + 1 ∨
        r.target sha = none ∧ c.revision = maxRev ∧ c'.revision = maxRev) :
      Effect sha s (.termsTransition req)
        { s with providers := s.providers.insert r.pair c' }

variable {sha : Hex.Hash 64} {s : Stores} {call : Call}

theorem setDefault_cases {K C : Type*} [DecidableEq K] (cells : Dict K C) (k : K) (c : C) :
    Cells.setDefault cells k c = cells ∨
      cells.lookup k = none ∧ Cells.setDefault cells k c = cells.insert k c := by
  unfold Cells.setDefault
  cases cells.lookup k with
  | none => exact Or.inr ⟨rfl, rfl⟩
  | some c => exact Or.inl rfl

theorem step_effect (sha : Hex.Hash 64) (s : Stores) (call : Call) :
    Effect sha s call (step sha s call) := by
  cases call with
  | cloudVerdict req => exact .keep _
  | flagVerdict req => exact .keep _
  | send req => exact .keep _
  | registerInstall id =>
    simp only [step, registerInstall]
    cases readId installOk id with
    | none => exact .keep _
    | some install =>
      obtain hkeep | ⟨hnew, hinsert⟩ := setDefault_cases s.switches install ⟨.off, 0⟩
      · simp only [Cells.kept, hkeep]
        exact .keep _
      · simp only [Cells.kept, hinsert]
        exact .registerInstall hnew
  | registerCollection id =>
    simp only [step, registerCollection]
    cases readId collectionOk id with
    | none => exact .keep _
    | some collection =>
      obtain hkeep | ⟨hnew, hinsert⟩ := setDefault_cases s.flags collection ⟨true, 0, []⟩
      · simp only [Cells.kept, hkeep]
        exact .keep _
      · simp only [Cells.kept, hinsert]
        exact .registerCollection hnew
  | registerProvider install provider =>
    simp only [step, registerProvider]
    cases readPair install provider with
    | none => exact .keep _
    | some pair =>
      obtain hkeep | ⟨hnew, hinsert⟩ := setDefault_cases s.providers pair ⟨none, 0⟩
      · simp only [Cells.kept, hkeep]
        exact .keep _
      · simp only [Cells.kept, hinsert]
        exact .registerProvider hnew
  | cloudTransition req =>
    simp only [step, cloudTransition]
    cases hread : readCloudTransition req with
    | none => exact .keep _
    | some r =>
      cases hupdate : Cells.update s.switches r.install CloudFailure.unknownInstall
          (Switch.transition (r.approved sha) r.expected r.target) with
      | error e => simpa only [Cells.kept, hupdate] using Effect.keep _
      | ok written =>
        obtain ⟨c', cells'⟩ := written
        simp only [Cells.kept, hupdate]
        obtain ⟨c, hcell, htransition, rfl⟩ := Cells.update_eq_ok.mp hupdate
        obtain ⟨hexpected, rfl | ⟨-, hconsent, hmax, rfl⟩⟩ := Switch.of_transition htransition
        · rw [Cells.insert_lookup hcell]
          exact .keep _
        · exact .turn hread hcell hexpected hconsent hmax
  | flagTransition req =>
    simp only [step, flagTransition]
    cases hread : readFlagTransition req with
    | none => exact .keep _
    | some p =>
      obtain ⟨r, target⟩ := p
      cases hupdate : Cells.update s.flags r.collection FlagFailure.unknownCollection
          (Flag.apply (r.approved sha) r.expected target) with
      | error e => simpa only [Cells.kept, hupdate] using Effect.keep _
      | ok written =>
        obtain ⟨c', cells'⟩ := written
        simp only [Cells.kept, hupdate]
        obtain ⟨c, hcell, happly, rfl⟩ := Cells.update_eq_ok.mp hupdate
        obtain ⟨hexpected, rfl | ⟨-, hconsent, hmax, rfl⟩⟩ := Flag.of_apply happly
        · rw [Cells.insert_lookup hcell]
          exact .keep _
        · exact .setFlag hread hcell hexpected hconsent hmax
  | flagRollback req =>
    simp only [step, flagRollback]
    cases hread : readRollback req with
    | none => exact .keep _
    | some r =>
      cases hupdate : Cells.update s.flags r.collection FlagFailure.unknownCollection
          (Flag.rollback (r.approved sha) r.expected) with
      | error e => simpa only [Cells.kept, hupdate] using Effect.keep _
      | ok written =>
        obtain ⟨c', cells'⟩ := written
        simp only [Cells.kept, hupdate]
        obtain ⟨c, hcell, hrollback, rfl⟩ := Cells.update_eq_ok.mp hupdate
        obtain ⟨hexpected, target, htarget, hconsent, hmax, rfl⟩ := Flag.of_rollback hrollback
        exact .rollBack hread hcell htarget hexpected hconsent hmax
  | termsTransition req =>
    simp only [step, termsTransition]
    cases hread : readTermsTransition req with
    | none => exact .keep _
    | some r =>
      cases hupdate : Cells.update s.providers r.pair ByomFailure.unknownProvider
          (Terms.transition (r.approved sha) r.expected (r.target sha)) with
      | error e => simpa only [Cells.kept, hupdate] using Effect.keep _
      | ok written =>
        obtain ⟨c', cells'⟩ := written
        simp only [Cells.kept, hupdate]
        obtain ⟨c, hcell, htransition, rfl⟩ := Cells.update_eq_ok.mp hupdate
        obtain ⟨hexpected, rfl | ⟨hchanged, hconsent, haccepted, hrevision⟩⟩ :=
          Terms.of_transition htransition
        · rw [Cells.insert_lookup hcell]
          exact .keep _
        · exact .setTerms hread hcell hexpected hchanged hconsent haccepted hrevision

end Privacy
end OpenChess
