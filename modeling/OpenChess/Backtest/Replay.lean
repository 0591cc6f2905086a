import OpenChess.Chess.Notation
import OpenChess.Lib.StableSort

/-!
# The replay harness

Model of `backtest/replay.py`. At every weekly decision point the inputs are built from the
events before it; labels read the events after it. Dates are days from the first one, and a
sum past the last date raises.
-/

namespace OpenChess
namespace Backtest

/-- `date.toordinal() - 1`. -/
abbrev Date := Fin 3652059

/-- `date + timedelta(days)`. -/
def Date.plus (d : Date) (days : ℕ) : Option Date :=
  if h : d.val + days < 3652059 then some ⟨d.val + days, h⟩ else none

/-- `LABEL_WINDOW_DAYS`. -/
def labelWindowDays : ℕ := 30

/-- An event, with a payload of values of any type. -/
structure Event (V : Type) where
  eventTime : Date
  kind : Text
  line : Text
  payload : List (Text × V)

inductive Action
  | surfaced
  | held
  deriving DecidableEq, Repr

inductive Label
  | useful
  | reverted
  | noChange
  deriving DecidableEq, Repr

structure DecisionRecord (Inputs Score : Type) where
  decisionTime : Date
  line : Text
  score : Score
  action : Action
  inputs : Inputs

structure LabelRecord where
  decisionTime : Date
  line : Text
  label : Label
  labelWindow : ℕ

structure ReplayLog (Inputs Score : Type) where
  decisions : List (DecisionRecord Inputs Score)
  labels : List LabelRecord

/-- What a run can raise. -/
inductive Failure
  | leakageError
  | overflowError
  deriving DecidableEq, Repr

/-- The functions a run is given, and the comparison of payload values; an absent value is
none. -/
structure Strategy (V Inputs Score : Type) where
  buildInputs : List (Event V) → Text → Date → Inputs
  scoreFn : Inputs → Score
  surfaceFn : Score → Bool
  same : Option V → Option V → Bool

variable {V Inputs Score : Type}

/-- Events are sorted by time, and the sort is stable. -/
def sortEvents (events : List (Event V)) : List (Event V) :=
  events.insertionSort fun e e' => e.eventTime ≤ e'.eventTime

/-- `past_view`. -/
def pastView (events : List (Event V)) (decisionTime : Date) : List (Event V) :=
  events.filter fun e => decide (e.eventTime < decisionTime)

/-- `future_view`, up to the end of its window. -/
def futureView (events : List (Event V)) (decisionTime windowEnd : Date) : List (Event V) :=
  events.filter fun e => decide (decisionTime < e.eventTime) && decide (e.eventTime ≤ windowEnd)

/-- `weekly_decision_points`, or none where a week passes the last date. -/
def weeklyDecisionPoints (t finish : Date) : Option (List Date) :=
  if t ≤ finish then
    if hweek : t.val + 7 < 3652059 then
      (weeklyDecisionPoints ⟨t.val + 7, hweek⟩ finish).map (t :: ·)
    else none
  else some []
termination_by finish.val + 1 - t.val
decreasing_by
  rename_i hle
  have hval : t.val ≤ finish.val := hle
  omega

/-- `min` by time: the first of the earliest events. -/
def earliest : List (Event V) → Option (Event V)
  | [] => none
  | e :: events =>
    match earliest events with
    | none => some e
    | some e' => if e'.eventTime < e.eventTime then some e' else some e

/-- `max` by time: the first of the latest events. -/
def latest : List (Event V) → Option (Event V)
  | [] => none
  | e :: events =>
    match latest events with
    | none => some e
    | some e' => if e.eventTime < e'.eventTime then some e' else some e

/-- `_label`, on the events of the window. -/
def labelOf (same : Option V → Option V → Bool) (future : List (Event V)) (line : Text) : Label :=
  let changes := future.filter fun e => e.kind == "repertoire_change".toList && e.line == line
  match earliest changes with
  | none => .noChange
  | some first =>
    if changes.any fun e => decide (first.eventTime < e.eventTime) &&
        same (e.payload.lookup "reverts".toList) (first.payload.lookup "id".toList) then .reverted
    else .useful

def decideLine (strategy : Strategy V Inputs Score) (past : List (Event V)) (decisionTime : Date)
    (line : Text) : DecisionRecord Inputs Score :=
  let inputs := strategy.buildInputs past line decisionTime
  let score := strategy.scoreFn inputs
  ⟨decisionTime, line, score, if strategy.surfaceFn score then .surfaced else .held, inputs⟩

def labelLine (strategy : Strategy V Inputs Score) (future : List (Event V))
    (decision : DecisionRecord Inputs Score) : Option LabelRecord :=
  if decision.action = .surfaced then
    some ⟨decision.decisionTime, decision.line, labelOf strategy.same future decision.line,
      labelWindowDays⟩
  else none

/-- The body of the loop over the decision points. -/
def runPoint (strategy : Strategy V Inputs Score) (events : List (Event V)) (lines : List Text)
    (log : ReplayLog Inputs Score) (decisionTime : Date) :
    Except Failure (ReplayLog Inputs Score) :=
  match decisionTime.plus labelWindowDays with
  | none => .error .overflowError
  | some windowEnd =>
    let past := pastView events decisionTime
    let future := futureView events decisionTime windowEnd
    if (earliest future).any fun e => decide (e.eventTime ≤ decisionTime) then
      .error .leakageError
    else if (latest past).any fun e => decide (decisionTime ≤ e.eventTime) then
      .error .leakageError
    else
      let decisions := lines.map (decideLine strategy past decisionTime)
      .ok ⟨log.decisions ++ decisions, log.labels ++ decisions.filterMap (labelLine strategy future)⟩

/-- The loop over the decision points. -/
def runPoints (strategy : Strategy V Inputs Score) (events : List (Event V)) (lines : List Text) :
    List Date → ReplayLog Inputs Score → Except Failure (ReplayLog Inputs Score)
  | [], log => .ok log
  | decisionTime :: points, log =>
    match runPoint strategy events lines log decisionTime with
    | .error e => .error e
    | .ok log => runPoints strategy events lines points log

/-- `ReplayHarness(events).run`. -/
def replay (strategy : Strategy V Inputs Score) (events : List (Event V)) (start finish : Date)
    (lines : List Text) : Except Failure (ReplayLog Inputs Score) :=
  match weeklyDecisionPoints start finish with
  | none => .error .overflowError
  | some points => runPoints strategy (sortEvents events) lines points ⟨[], []⟩

/-! ### Views -/

variable {events events' : List (Event V)} {strategy : Strategy V Inputs Score} {lines : List Text}
  {d dt windowEnd : Date} {points : List Date} {log log' : ReplayLog Inputs Score}

theorem pastView_sort (h : pastView events d = pastView events' d) (hdt : dt ≤ d) :
    pastView (sortEvents events) dt = pastView (sortEvents events') dt := by
  have hnarrow : ∀ es : List (Event V), pastView es dt = pastView (pastView es d) dt := by
    intro es
    rw [pastView, pastView, pastView, List.filter_filter]
    refine List.filter_congr fun e _ => ?_
    by_cases he : e.eventTime < dt
    · simp [he, he.trans_le hdt]
    · simp [he]
  let before : Event V → Event V → Prop := fun e e' => e.eventTime ≤ e'.eventTime
  have htotal : Std.Total before := ⟨fun e e' => le_total e.eventTime e'.eventTime⟩
  have htrans : IsTrans (Event V) before :=
    ⟨fun e e' e'' h h' => le_trans (show e.eventTime ≤ e'.eventTime from h) h'⟩
  have hsort : ∀ es : List (Event V), pastView (sortEvents es) dt = sortEvents (pastView es dt) :=
    fun es => StableSort.filter_insertionSort before (fun e => decide (e.eventTime < dt)) es
  rw [hsort, hsort, hnarrow events, hnarrow events', h]

theorem mem_of_earliest {e : Event V} (h : earliest events = some e) : e ∈ events := by
  induction events with
  | nil => cases h
  | cons x events ih =>
    rw [earliest] at h
    split at h
    · obtain rfl := Option.some.inj h
      exact List.mem_cons_self
    · rename_i e' he'
      split_ifs at h
      · obtain rfl := Option.some.inj h
        exact List.mem_cons_of_mem x (ih he')
      · obtain rfl := Option.some.inj h
        exact List.mem_cons_self

theorem mem_of_latest {e : Event V} (h : latest events = some e) : e ∈ events := by
  induction events with
  | nil => cases h
  | cons x events ih =>
    rw [latest] at h
    split at h
    · obtain rfl := Option.some.inj h
      exact List.mem_cons_self
    · rename_i e' he'
      split_ifs at h
      · obtain rfl := Option.some.inj h
        exact List.mem_cons_of_mem x (ih he')
      · obtain rfl := Option.some.inj h
        exact List.mem_cons_self

/-- The guards find nothing: every event of the window is later, and every past event is
earlier. -/
theorem guards_pass (events : List (Event V)) (dt windowEnd : Date) :
    (earliest (futureView events dt windowEnd)).any (fun e => decide (e.eventTime ≤ dt)) = false ∧
      (latest (pastView events dt)).any (fun e => decide (dt ≤ e.eventTime)) = false := by
  constructor
  · cases hfound : earliest (futureView events dt windowEnd) with
    | none => rfl
    | some e =>
      have hmem := List.of_mem_filter (mem_of_earliest hfound)
      simp only [Bool.and_eq_true, decide_eq_true_eq] at hmem
      simpa using hmem.1
  · cases hfound : latest (pastView events dt) with
    | none => rfl
    | some e =>
      have hmem := List.of_mem_filter (mem_of_latest hfound)
      simpa using hmem

/-! ### Runs -/

/-- The decisions at a point. -/
def decisionsAt (strategy : Strategy V Inputs Score) (events : List (Event V)) (lines : List Text)
    (dt : Date) : List (DecisionRecord Inputs Score) :=
  lines.map (decideLine strategy (pastView events dt) dt)

theorem runPoint_cases (strategy : Strategy V Inputs Score) (events : List (Event V))
    (lines : List Text) (log : ReplayLog Inputs Score) (dt : Date) :
    dt.plus labelWindowDays = none ∧
        runPoint strategy events lines log dt = .error .overflowError ∨
      (dt.plus labelWindowDays).isSome = true ∧
        ∃ labels, runPoint strategy events lines log dt =
          .ok ⟨log.decisions ++ decisionsAt strategy events lines dt, labels⟩ := by
  unfold runPoint
  cases dt.plus labelWindowDays with
  | none => exact Or.inl ⟨rfl, rfl⟩
  | some windowEnd =>
    obtain ⟨hfuture, hpast⟩ := guards_pass events dt windowEnd
    simp only [hfuture, hpast]
    exact Or.inr ⟨rfl, _, rfl⟩

/-- A run over points appends the decisions of all of them, or the window of one of them
passes the last date. -/
theorem runPoints_cases (strategy : Strategy V Inputs Score) (events : List (Event V))
    (lines : List Text) (points : List Date) (log : ReplayLog Inputs Score) :
    (∃ dt ∈ points, dt.plus labelWindowDays = none) ∧
        runPoints strategy events lines points log = .error .overflowError ∨
      (∀ dt ∈ points, (dt.plus labelWindowDays).isSome = true) ∧
        ∃ labels, runPoints strategy events lines points log =
          .ok ⟨log.decisions ++ points.flatMap (decisionsAt strategy events lines), labels⟩ := by
  induction points generalizing log with
  | nil => exact Or.inr ⟨by simp, log.labels, by simp [runPoints]⟩
  | cons dt points ih =>
    rw [runPoints]
    obtain ⟨hnone, hrun⟩ | ⟨hsome, labels, hrun⟩ := runPoint_cases strategy events lines log dt
    · rw [hrun]
      exact Or.inl ⟨⟨dt, List.mem_cons_self, hnone⟩, rfl⟩
    · rw [hrun]
      simp only
      obtain ⟨⟨dt', hdt', hnone⟩, hrest⟩ | ⟨hall, labels', hrest⟩ :=
        ih ⟨log.decisions ++ decisionsAt strategy events lines dt, labels⟩
      · exact Or.inl ⟨⟨dt', List.mem_cons_of_mem dt hdt', hnone⟩, hrest⟩
      · refine Or.inr ⟨List.forall_mem_cons.mpr ⟨hsome, hall⟩, labels', ?_⟩
        rw [hrest, List.flatMap_cons, List.append_assoc]

theorem filter_decisions (strategy : Strategy V Inputs Score) (events : List (Event V))
    (lines : List Text) (points : List Date) (d : Date) :
    (points.flatMap (decisionsAt strategy events lines)).filter
        (fun record => decide (record.decisionTime ≤ d)) =
      (points.filter fun dt => decide (dt ≤ d)).flatMap (decisionsAt strategy events lines) := by
  induction points with
  | nil => rfl
  | cons dt points ih =>
    rw [List.flatMap_cons, List.filter_append, ih, List.filter_cons]
    have htime : ∀ record ∈ decisionsAt strategy events lines dt, record.decisionTime = dt := by
      intro record hrecord
      obtain ⟨line, -, rfl⟩ := List.mem_map.mp hrecord
      rfl
    by_cases hdt : dt ≤ d
    · have hall : ∀ record ∈ decisionsAt strategy events lines dt,
          decide (record.decisionTime ≤ d) = true := by
        intro record hrecord
        rw [htime record hrecord]
        exact decide_eq_true hdt
      rw [List.filter_eq_self.mpr hall, if_pos (decide_eq_true hdt), List.flatMap_cons]
    · have hnone : ∀ record ∈ decisionsAt strategy events lines dt,
          ¬ decide (record.decisionTime ≤ d) = true := by
        intro record hrecord
        rw [htime record hrecord, decide_eq_true_eq]
        exact hdt
      rw [List.filter_eq_nil_iff.mpr hnone, if_neg (by simpa using hdt), List.nil_append]

/-- Replay has no look-ahead: where the events before a date are the same, two runs make the
same decisions at every point up to the date, or both pass the last date; and no guard is
ever raised. -/
theorem no_look_ahead (strategy : Strategy V Inputs Score) (events events' : List (Event V))
    (d start finish : Date) (lines : List Text) (h : pastView events d = pastView events' d) :
    (∀ log, replay strategy events start finish lines = .ok log →
      ∃ log', replay strategy events' start finish lines = .ok log' ∧
        log.decisions.filter (fun record => decide (record.decisionTime ≤ d)) =
          log'.decisions.filter fun record => decide (record.decisionTime ≤ d)) ∧
      replay strategy events start finish lines ≠ .error .leakageError := by
  unfold replay
  cases weeklyDecisionPoints start finish with
  | none => exact ⟨fun log hlog => (by cases hlog), by simp⟩
  | some points =>
    simp only
    obtain ⟨-, hrun⟩ | ⟨hall, labels, hrun⟩ :=
      runPoints_cases strategy (sortEvents events) lines points ⟨[], []⟩
    · rw [hrun]
      exact ⟨fun log hlog => (by cases hlog), by simp⟩
    · rw [hrun]
      refine ⟨fun log hlog => ?_, by simp⟩
      obtain rfl := Except.ok.inj hlog
      obtain ⟨⟨dt, hdt, hnone⟩, -⟩ | ⟨-, labels', hrun'⟩ :=
        runPoints_cases strategy (sortEvents events') lines points ⟨[], []⟩
      · have hsome := hall dt hdt
        rw [hnone] at hsome
        cases hsome
      · refine ⟨_, hrun', ?_⟩
        simp only [List.nil_append, filter_decisions]
        refine List.flatMap_congr fun dt hdt => ?_
        have hle : dt ≤ d := by simpa using List.of_mem_filter hdt
        rw [decisionsAt, decisionsAt, pastView_sort h hle]

/-! ### Labels -/

/-- `_label`; a window that passes the last date raises. -/
def labelAt (same : Option V → Option V → Bool) (events : List (Event V)) (decisionTime : Date)
    (line : Text) : Option Label :=
  (decisionTime.plus labelWindowDays).map fun windowEnd =>
    labelOf same (futureView (sortEvents events) decisionTime windowEnd) line

/-- The changes to the repertoire of a line in the window after a date, in the order of the
harness. -/
def changesAfter (events : List (Event V)) (decisionTime : Date) (line : Text) :
    List (Event V) :=
  (sortEvents events).filter fun e =>
    decide (decisionTime < e.eventTime ∧ e.eventTime.val ≤ decisionTime.val + labelWindowDays) &&
      (e.kind == "repertoire_change".toList && e.line == line)

section Values

variable {A : Type} {eq : A → A → Bool} {first e : Event (Option A)}
  {changes rest : List (Event (Option A))}

/-- `payload.get(key)`, where `None` is a value like an absent one. -/
def Event.get (e : Event (Option A)) (key : String) : Option A := (e.payload.lookup key.toList).join

/-- Equality of what two payloads give, for an equality of the values that are not `None`. -/
def sameValue (eq : A → A → Bool) (v v' : Option (Option A)) : Bool :=
  match v.join, v'.join with
  | none, none => true
  | some a, some a' => eq a a'
  | _, _ => false

def Names (eq : A → A → Bool) (first e : Event (Option A)) : Prop :=
  ∃ id target, first.get "id" = some id ∧ e.get "reverts" = some target ∧ eq target id = true

def Reverted (eq : A → A → Bool) (changes : List (Event (Option A))) : Prop :=
  ∃ first rest, changes = first :: rest ∧ ∃ e ∈ rest, Names eq first e

/-- The label of a decision says what became of the first change. -/
def LabelRight (eq : A → A → Bool) (events : List (Event (Option A))) (decisionTime : Date)
    (line : Text) : Prop :=
  ∃ label, labelAt (sameValue eq) events decisionTime line = some label ∧
    (label = .reverted ↔ Reverted eq (changesAfter events decisionTime line)) ∧
    (label = .noChange ↔ changesAfter events decisionTime line = [])

/-- Of the changes that name the first one some is of a later day, and where the first one has
no id, every change of a later day has a target. -/
def RevertsTold (eq : A → A → Bool) (changes : List (Event (Option A))) : Prop :=
  ∀ first rest, changes = first :: rest →
    ((∃ e ∈ rest, Names eq first e) →
      ∃ e ∈ rest, first.eventTime < e.eventTime ∧ Names eq first e) ∧
    (first.get "id" = none →
      ∀ e ∈ rest, first.eventTime < e.eventTime → e.get "reverts" ≠ none)

theorem reverted_cons : Reverted eq (first :: rest) ↔ ∃ e ∈ rest, Names eq first e := by
  constructor
  · rintro ⟨first', rest', heq, hnames⟩
    obtain ⟨rfl, rfl⟩ := List.cons.inj heq
    exact hnames
  · exact fun h => ⟨first, rest, rfl, h⟩

theorem revertsTold_cons : RevertsTold eq (first :: rest) ↔
    ((∃ e ∈ rest, Names eq first e) →
      ∃ e ∈ rest, first.eventTime < e.eventTime ∧ Names eq first e) ∧
    (first.get "id" = none →
      ∀ e ∈ rest, first.eventTime < e.eventTime → e.get "reverts" ≠ none) := by
  constructor
  · exact fun h => h first rest rfl
  · intro h first' rest' heq
    obtain ⟨rfl, rfl⟩ := List.cons.inj heq
    exact h

theorem not_names_of_absent (hid : first.get "id" = none) : ¬ Names eq first e := by
  rintro ⟨id, target, hfound, -⟩
  rw [hid] at hfound
  cases hfound

theorem names_of_sameValue (hid : first.get "id" ≠ none) :
    sameValue eq (e.payload.lookup "reverts".toList) (first.payload.lookup "id".toList) = true ↔
      Names eq first e := by
  obtain ⟨id, hid⟩ := Option.ne_none_iff_exists'.mp hid
  unfold Event.get at hid
  unfold Names Event.get sameValue
  rw [hid]
  cases (e.payload.lookup "reverts".toList).join with
  | none => simp
  | some target => simp

theorem sameValue_of_absent (hid : first.get "id" = none) :
    sameValue eq (e.payload.lookup "reverts".toList) (first.payload.lookup "id".toList) = true ↔
      e.get "reverts" = none := by
  unfold Event.get at hid
  unfold Event.get sameValue
  rw [hid]
  cases (e.payload.lookup "reverts".toList).join with
  | none => simp
  | some target => simp

end Values

theorem earliest_of_pairwise {e : Event V} (h : (e :: events).Pairwise fun e e' =>
    e.eventTime ≤ e'.eventTime) : earliest (e :: events) = some e := by
  obtain ⟨hfirst, -⟩ := List.pairwise_cons.mp h
  rw [earliest]
  split
  · rfl
  · rename_i e' he'
    rw [if_neg (not_lt.mpr (hfirst e' (mem_of_earliest he')))]

theorem pairwise_changesAfter (events : List (Event V)) (dt : Date) (line : Text) :
    (changesAfter events dt line).Pairwise fun e e' => e.eventTime ≤ e'.eventTime := by
  let before : Event V → Event V → Prop := fun e e' => e.eventTime ≤ e'.eventTime
  have htotal : Std.Total before := ⟨fun e e' => le_total e.eventTime e'.eventTime⟩
  have htrans : IsTrans (Event V) before :=
    ⟨fun e e' e'' h h' => le_trans (show e.eventTime ≤ e'.eventTime from h) h'⟩
  exact (List.pairwise_insertionSort before events).sublist List.filter_sublist

theorem changes_of_futureView (hend : dt.plus labelWindowDays = some windowEnd)
    (events : List (Event V)) (line : Text) :
    ((futureView (sortEvents events) dt windowEnd).filter fun e =>
        e.kind == "repertoire_change".toList && e.line == line) =
      changesAfter events dt line := by
  unfold Date.plus at hend
  split_ifs at hend with hlast
  obtain rfl := Option.some.inj hend
  rw [futureView, List.filter_filter, changesAfter]
  refine List.filter_congr fun e _ => ?_
  rw [Bool.and_comm, Bool.decide_and]
  rfl

theorem labelOf_nil {same : Option V → Option V → Bool} {line : Text}
    (h : (events.filter fun e => e.kind == "repertoire_change".toList && e.line == line) = []) :
    labelOf same events line = .noChange := by
  simp only [labelOf, h, earliest]

theorem labelOf_cons {same : Option V → Option V → Bool} {line : Text} {first : Event V}
    {rest : List (Event V)}
    (h : (events.filter fun e => e.kind == "repertoire_change".toList && e.line == line) =
      first :: rest)
    (hsorted : (first :: rest).Pairwise fun e e' => e.eventTime ≤ e'.eventTime) :
    labelOf same events line =
      if ∃ e ∈ rest, first.eventTime < e.eventTime ∧
        same (e.payload.lookup "reverts".toList) (first.payload.lookup "id".toList) = true
      then .reverted else .useful := by
  simp only [labelOf, h, earliest_of_pairwise hsorted, List.any_cons, lt_irrefl, decide_false,
    Bool.false_and, Bool.false_or, List.any_eq_true, Bool.and_eq_true, decide_eq_true_eq]

/-- The labels are right exactly where the window ends within the dates, some change that
reverts the first one is of a later day, and no missing target stands beside a missing id. -/
theorem labelRight_iff {A : Type} (eq : A → A → Bool) (events : List (Event (Option A)))
    (decisionTime : Date) (line : Text) :
    LabelRight eq events decisionTime line ↔
      decisionTime.val + labelWindowDays < 3652059 ∧
        RevertsTold eq (changesAfter events decisionTime line) := by
  by_cases hlast : decisionTime.val + labelWindowDays < 3652059
  · have hend : decisionTime.plus labelWindowDays = some ⟨_, hlast⟩ := dif_pos hlast
    have hchanges := changes_of_futureView hend events line
    have hsorted := pairwise_changesAfter events decisionTime line
    simp only [LabelRight, labelAt, hend, Option.map_some, Option.some.injEq, exists_eq_left',
      hlast, true_and]
    cases hcase : changesAfter events decisionTime line with
    | nil =>
      rw [hcase] at hchanges
      rw [labelOf_nil hchanges]
      simp [Reverted, RevertsTold]
    | cons first rest =>
      rw [hcase] at hchanges hsorted
      rw [labelOf_cons hchanges hsorted, reverted_cons, revertsTold_cons]
      have hlabel : ∀ later : Prop, [Decidable later] →
          (((if later then Label.reverted else .useful) = .reverted) ↔ later) ∧
            ¬ (if later then Label.reverted else .useful) = .noChange := by
        intro later _
        split_ifs with h <;> simp [h]
      rw [(hlabel _).1, iff_false_intro (hlabel _).2, iff_false_intro (List.cons_ne_nil first rest),
        iff_self, and_true]
      by_cases hid : first.get "id" = none
      · -- a change without a target counts as one that reverts a change without an id
        simp only [sameValue_of_absent hid, not_names_of_absent hid, and_false, exists_false,
          iff_false, false_imp_iff, true_and, true_imp_iff, hid, not_exists, not_and, ne_eq]
      · simp only [names_of_sameValue hid, hid, false_imp_iff, and_true]
        refine ⟨fun h => h.mpr, fun h => ⟨fun hlater => ?_, h⟩⟩
        obtain ⟨e, he, -, hnames⟩ := hlater
        exact ⟨e, he, hnames⟩
  · have hend : decisionTime.plus labelWindowDays = none := dif_neg hlast
    simp [LabelRight, labelAt, hend, hlast]

def change (eventTime : Date) (payload : List (Text × Option Text)) : Event (Option Text) :=
  ⟨eventTime, "repertoire_change".toList, "e4".toList, payload⟩

def unnamed (eventTime : Date) : Event (Option Text) := change eventTime []

def added : Event (Option Text) := change 5 [("id".toList, some "a".toList)]

def removed : Event (Option Text) :=
  change 5 [("id".toList, some "b".toList), ("reverts".toList, some "a".toList)]

/-- Two changes without ids are labelled as a change that was reverted, and one that is
reverted on its own day is labelled useful. -/
theorem labels_wrong :
    ¬ LabelRight (fun t t' => t == t') [unnamed 5, unnamed 10] 0 "e4".toList ∧
      ¬ LabelRight (fun t t' => t == t') [added, removed] 0 "e4".toList := by
  constructor
  · rintro ⟨label, hlabel, hreverted, -⟩
    have hcode : labelAt (sameValue fun t t' => t == t') [unnamed 5, unnamed 10] 0 "e4".toList =
        some .reverted := by rfl
    have hchanges : changesAfter [unnamed 5, unnamed 10] 0 "e4".toList =
        [unnamed 5, unnamed 10] := by rfl
    rw [hcode, Option.some.injEq] at hlabel
    rw [hchanges, reverted_cons] at hreverted
    obtain ⟨e, -, hnames⟩ := hreverted.mp hlabel.symm
    exact not_names_of_absent (by rfl) hnames
  · rintro ⟨label, hlabel, hreverted, -⟩
    have hcode : labelAt (sameValue fun t t' => t == t') [added, removed] 0 "e4".toList =
        some .useful := by rfl
    have hchanges : changesAfter [added, removed] 0 "e4".toList = [added, removed] := by rfl
    rw [hcode, Option.some.injEq] at hlabel
    rw [hchanges, reverted_cons] at hreverted
    have hlater : ∃ e ∈ [removed], Names (fun t t' => t == t') added e :=
      ⟨removed, List.mem_cons_self, "a".toList, "a".toList, by rfl, by rfl, by rfl⟩
    rw [← hlabel] at hreverted
    exact absurd (hreverted.mpr hlater) (by decide)

/-! ### A late event -/

/-- A strategy that counts the events of a line. -/
def countStrategy : Strategy Unit ℕ ℕ where
  buildInputs := fun past line _ => (past.filter fun e => e.line == line).length
  scoreFn := fun inputs => inputs
  surfaceFn := fun score => decide (1 ≤ score)
  same := fun v v' => v == v'

def game (eventTime : Date) : Event Unit := ⟨eventTime, "line_game".toList, "e4".toList, []⟩

theorem no_look_ahead_late :
    replay countStrategy [game 3, game 10] 0 14 ["e4".toList] ≠ .error .leakageError ∧
      ∀ log, replay countStrategy [game 3, game 10] 0 14 ["e4".toList] = .ok log →
        ∃ log', replay countStrategy [game 3] 0 14 ["e4".toList] = .ok log' ∧
          log.decisions.filter (fun record => decide (record.decisionTime ≤ 10)) =
            log'.decisions.filter fun record => decide (record.decisionTime ≤ 10) := by
  obtain ⟨hsame, hguards⟩ := no_look_ahead countStrategy [game 3, game 10] [game 3] 10 0 14
    ["e4".toList] (by rfl)
  exact ⟨hguards, hsame⟩

end Backtest
end OpenChess
