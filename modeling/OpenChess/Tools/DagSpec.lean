import OpenChess.Tools.Dag
import OpenChess.Lib.Separated

/-!
# The law of the task board

The verifier reports a cycle exactly where the well-formed tasks have one, and it returns
on every board but those with a well-formed task that has no list of dependencies. On a
verified board the commands keep the law that the dependencies of a done task are done.
-/

namespace OpenChess
namespace Dag

open Doc (isText hashable)

/-- The dependencies of a task; a missing list counts as empty. -/
def dependenciesOf (t : Doc) : List Str :=
  ((dependenciesField t).list?.getD []).filterMap Doc.str?

def DependsOn (tasks : List Doc) (a b : Str) : Prop :=
  (∃ t ∈ tasks, idOf t = some a ∧ b ∈ dependenciesOf t) ∧ ∃ t ∈ tasks, idOf t = some b

def CyclicTasks (tasks : List Doc) : Prop := ∃ a, Relation.TransGen (DependsOn tasks) a a

def tasksOf (board : Doc) : List Doc := ((board.get? "tasks").bind Doc.list?).getD []

/-- Every task that is well formed for the search of cycles has a list of dependencies. -/
def ListsDependencies (board : Doc) : Prop :=
  ∀ t ∈ clean (tasksOf board), (t.get? "dependencies").isSome = true

variable {py : Python} {board board' t u : Doc} {tasks ts : List Doc} {i tid dep : Str}
  {ids known seen : List Str} {p : Problem}

theorem isText_iff {s : Str} {v : Doc} : isText s v = true ↔ v = .str s := by
  cases v <;> simp [isText, Doc.str?]

/-- A language in which nothing but strings has a text or is equal to anything. -/
instance : Inhabited Python where
  default :=
    { text := fun _ => []
      repr := fun _ => []
      firstSorted := fun _ => []
      eq := fun v w => v.str?.any fun s => isText s w
      eq_str := fun _ _ => isText_iff }

/-! ### The search of cycles -/

theorem mem_idsOf : i ∈ idsOf ts ↔ ∃ t ∈ ts, idOf t = some i := List.mem_filterMap

theorem depSets_eq (h : ∀ t ∈ ts, (t.get? "dependencies").isSome = true) :
    depSets ts = .ok (ts.map fun t => ((idOf t).getD [], dependenciesOf t)) := by
  induction ts with
  | nil => rfl
  | cons t ts ih =>
    obtain ⟨ht, hts⟩ := List.forall_mem_cons.mp h
    obtain ⟨deps, hdeps⟩ := Option.isSome_iff_exists.mp ht
    have hfield : dependenciesField t = deps := by rw [dependenciesField, hdeps, Option.getD_some]
    rw [depSets, hdeps, ih hts]
    simp only [Except.map, dependenciesOf, hfield, List.map_cons]

theorem depSets_eq_error (ht : t ∈ ts) (h : (t.get? "dependencies").isSome = false) :
    depSets ts = .error .keyError := by
  induction ts with
  | nil => cases ht
  | cons first ts ih =>
    rw [depSets]
    cases hfirst : first.get? "dependencies" with
    | none => rfl
    | some deps =>
      obtain rfl | ht := List.mem_cons.mp ht
      · rw [hfirst] at h
        cases h
      · simp only [ih ht]
        rfl

theorem isClean_cases (h : isClean tasks t = true) : ∃ i deps, idOf t = some i ∧
    dependenciesField t = .list deps ∧ strip i ≠ [] ∧
      tasks.countP (fun t => idOf t == some i) = 1 ∧ ∀ d ∈ deps, d.str?.isSome = true := by
  unfold isClean at h
  split at h
  · rename_i i deps hid hdeps
    simp only [Bool.and_eq_true, bne_iff_ne, beq_iff_eq, List.all_eq_true] at h
    exact ⟨i, deps, hid, hdeps, h.1.1, h.1.2, h.2⟩
  · cases h

theorem nodup_clean (tasks : List Doc) : ((clean tasks).map fun t => (idOf t).getD []).Nodup := by
  rw [List.nodup_iff_count_le_one]
  intro i
  by_contra hmany
  obtain ⟨t, ht, hid⟩ : ∃ t ∈ clean tasks, (idOf t).getD [] = i := by
    refine List.mem_map.mp (List.count_pos_iff.mp ?_)
    omega
  obtain ⟨i', deps, hsome, -, -, hcount, -⟩ := isClean_cases (List.mem_filter.mp ht).2
  rw [hsome, Option.getD_some] at hid
  subst hid
  have hsame : ∀ u ∈ clean tasks, ((idOf u).getD [] == i') = (idOf u == some i') := by
    intro u hu
    obtain ⟨j, deps, hj, -⟩ := isClean_cases (List.mem_filter.mp hu).2
    rw [hj, Option.getD_some]
    rfl
  have hle : (clean tasks).countP (fun u => idOf u == some i') ≤ 1 := by
    rw [← hcount]
    exact List.filter_sublist.countP_le
  rw [List.count, List.countP_map] at hmany
  rw [← List.countP_congr fun u hu => by rw [← hsame u hu]] at hle
  exact hmany hle

theorem depends_eq (tasks : List Doc) :
    Kahn.Depends ((clean tasks).map fun t => (idOf t).getD []) (fun i =>
      (((clean tasks).map fun t => ((idOf t).getD [], dependenciesOf t)).lookup i).getD []) =
      DependsOn (clean tasks) := by
  have hnode : ∀ i, i ∈ (clean tasks).map (fun t => (idOf t).getD []) ↔
      ∃ t ∈ clean tasks, idOf t = some i := by
    intro i
    rw [List.mem_map]
    refine exists_congr fun t => and_congr_right fun ht => ?_
    obtain ⟨j, deps, hj, -⟩ := isClean_cases (List.mem_filter.mp ht).2
    rw [hj, Option.getD_some, Option.some.injEq]
  have hkeys : (((clean tasks).map fun t => ((idOf t).getD [], dependenciesOf t)).map
      Prod.fst).Nodup := by
    rw [List.map_map]
    exact nodup_clean tasks
  have hlookup : ∀ t ∈ clean tasks, ∀ a, idOf t = some a →
      ((clean tasks).map fun t => ((idOf t).getD [], dependenciesOf t)).lookup a =
        some (dependenciesOf t) := by
    intro t ht a ha
    refine (Dict.lookup_eq_some_iff_mem hkeys).mpr (List.mem_map.mpr ⟨t, ht, ?_⟩)
    rw [ha, Option.getD_some]
  funext a b
  simp only [Kahn.Depends, DependsOn, hnode]
  refine propext ⟨?_, ?_⟩
  · intro h
    obtain ⟨⟨t, ht, ha⟩, hdep, hb⟩ := h
    rw [hlookup t ht a ha, Option.getD_some] at hdep
    exact ⟨⟨t, ht, ha, hdep⟩, hb⟩
  · intro h
    obtain ⟨⟨t, ht, ha, hdep⟩, hb⟩ := h
    refine ⟨⟨t, ht, ha⟩, ?_, hb⟩
    rwa [hlookup t ht a ha, Option.getD_some]

/-- The search ends, and finds out whether there is a cycle. -/
theorem cycleProblems_eq (h : ∀ t ∈ clean tasks, (t.get? "dependencies").isSome = true) :
    ∃ problems, cycleProblems tasks = .ok problems ∧
      (problems = [] ∨ problems = [.cycle]) ∧
      (problems = [] ↔ ¬ CyclicTasks (clean tasks)) := by
  have hnodup := nodup_clean tasks
  have hdepends := depends_eq tasks
  unfold cycleProblems
  rw [depSets_eq h]
  simp only [List.map_map, Function.comp_def]
  have hlength : ((clean tasks).map fun t => (idOf t).getD []).length = (clean tasks).length :=
    List.length_map _
  generalize (fun i =>
      (((clean tasks).map fun t => ((idOf t).getD [], dependenciesOf t)).lookup i).getD []) =
    deps at hdepends ⊢
  generalize ((clean tasks).map fun t => (idOf t).getD []) = nodes at hnodup hdepends hlength ⊢
  obtain ⟨count, taken, -, hvisited⟩ := Kahn.exists_visited deps hnodup
  have hcyclic : Kahn.Cyclic nodes deps ↔ CyclicTasks (clean tasks) := by
    rw [Kahn.Cyclic, hdepends, CyclicTasks]
  have hiff := Kahn.visited_eq_iff deps hnodup
  rw [hvisited, Option.some.injEq, hcyclic, hlength] at hiff
  rw [hvisited]
  refine ⟨_, rfl, ?_, ?_⟩
  · split_ifs
    · exact Or.inl rfl
    · exact Or.inr rfl
  · rw [← hiff]
    by_cases hall : taken.length = (clean tasks).length
    · rw [if_pos hall]
      exact iff_of_true rfl hall
    · rw [if_neg hall]
      exact iff_of_false (List.cons_ne_nil _ _) hall

theorem cycleProblems_eq_error (ht : t ∈ clean tasks)
    (h : (t.get? "dependencies").isSome = false) : cycleProblems tasks = .error .keyError := by
  rw [cycleProblems, depSets_eq_error ht h]

/-! ### The other problems -/

theorem cycle_notMem_schemaProblems : .cycle ∉ schemaProblems board := by
  simp only [schemaProblems]
  split_ifs <;> simp

theorem cycle_notMem_entryProblems : .cycle ∉ entryProblems t := by
  unfold entryProblems
  split_ifs
  · simp
  · split
    · split_ifs <;> simp
    · simp

theorem cycle_notMem_duplicateIds : .cycle ∉ duplicateIds seen ids := by
  induction ids generalizing seen with
  | nil => exact List.not_mem_nil
  | cons i ids ih =>
    rw [duplicateIds, List.mem_append, not_or]
    refine ⟨?_, ih⟩
    split_ifs <;> simp

theorem cycle_notMem_taskProblems : .cycle ∉ taskProblems py known t := by
  unfold taskProblems
  split_ifs <;> simp

/-- The problems of a board before the search of cycles. -/
def earlierProblems (py : Python) (board : Doc) (tasks : List Doc) : List Problem :=
  schemaProblems board ++ (if tasks = [] then [.tasksEmpty] else []) ++
    tasks.flatMap entryProblems ++ duplicateIds [] (idsOf tasks) ++
    tasks.flatMap (taskProblems py (idsOf tasks))

theorem cycle_notMem_earlierProblems : .cycle ∉ earlierProblems py board tasks := by
  have hempty : Problem.cycle ∉ (if tasks = [] then [Problem.tasksEmpty] else []) := by
    split_ifs <;> simp
  simp only [earlierProblems, List.mem_append, List.mem_flatMap, not_or, not_exists, not_and]
  exact ⟨⟨⟨⟨cycle_notMem_schemaProblems, hempty⟩, fun _ _ => cycle_notMem_entryProblems⟩,
    cycle_notMem_duplicateIds⟩, fun _ _ => cycle_notMem_taskProblems⟩

theorem verify_of_tasks (hdict : board.isDict = true)
    (h : (board.get? "tasks").bind Doc.list? = some tasks) :
    verify py board = (cycleProblems tasks).map (earlierProblems py board tasks ++ ·) := by
  rw [verify, hdict, h]
  rfl

theorem verify_of_no_tasks (py : Python)
    (h : board.isDict = false ∨ (board.get? "tasks").bind Doc.list? = none) :
    ∃ problems, verify py board = .ok problems ∧ problems ≠ [] ∧ .cycle ∉ problems := by
  unfold verify
  by_cases hdict : board.isDict = true
  · rw [hdict, h.resolve_left (by simp [hdict])]
    refine ⟨_, rfl, by simp, ?_⟩
    rw [List.mem_append, not_or]
    exact ⟨cycle_notMem_schemaProblems, by simp⟩
  · rw [Bool.not_eq_true] at hdict
    rw [hdict]
    exact ⟨_, rfl, List.cons_ne_nil _ _, by simp⟩

theorem tasksOf_eq (h : (board.get? "tasks").bind Doc.list? = some tasks) :
    tasksOf board = tasks := by
  rw [tasksOf, h, Option.getD_some]

theorem isDict_of_tasks (h : (board.get? "tasks").bind Doc.list? = some tasks) :
    board.isDict = true := by
  cases board with
  | dict entries => rfl
  | _ => cases h

theorem verify_returns_iff :
    (∃ problems, verify py board = .ok problems) ↔ ListsDependencies board := by
  cases h : (board.get? "tasks").bind Doc.list? with
  | none =>
    obtain ⟨problems, hverify, -⟩ := verify_of_no_tasks py (Or.inr h)
    refine iff_of_true ⟨problems, hverify⟩ ?_
    intro t ht
    rw [tasksOf, h] at ht
    cases ht
  | some tasks =>
    rw [verify_of_tasks (isDict_of_tasks h) h, ListsDependencies, tasksOf_eq h]
    constructor
    · intro hreturns t ht
      obtain ⟨problems, hproblems⟩ := hreturns
      by_contra hmissing
      rw [cycleProblems_eq_error ht (Bool.eq_false_iff.mpr hmissing)] at hproblems
      cases hproblems
    · intro hlists
      obtain ⟨problems, hproblems, -⟩ := cycleProblems_eq hlists
      exact ⟨earlierProblems py board tasks ++ problems, by rw [hproblems]; rfl⟩

theorem cycle_mem_iff {problems : List Problem} (h : verify py board = .ok problems) :
    .cycle ∈ problems ↔ CyclicTasks (clean (tasksOf board)) := by
  have hlists : ListsDependencies board := verify_returns_iff.mp ⟨problems, h⟩
  cases htasks : (board.get? "tasks").bind Doc.list? with
  | none =>
    obtain ⟨problems', hverify, -, hcycle⟩ := verify_of_no_tasks py (Or.inr htasks)
    obtain rfl := Except.ok.inj (h.symm.trans hverify)
    refine iff_of_false hcycle fun hcyclic => ?_
    rw [tasksOf, htasks] at hcyclic
    obtain ⟨a, hpath⟩ := hcyclic
    obtain ⟨b, ⟨⟨t, ht, -⟩, -⟩, -⟩ := (Relation.TransGen.head'_iff).mp hpath
    cases ht
  | some tasks =>
    rw [ListsDependencies, tasksOf_eq htasks] at hlists
    obtain ⟨found, hfound, hcases, hnil⟩ := cycleProblems_eq hlists
    rw [verify_of_tasks (isDict_of_tasks htasks) htasks, hfound] at h
    obtain rfl := Except.ok.inj h
    rw [tasksOf_eq htasks, List.mem_append, or_iff_right cycle_notMem_earlierProblems]
    obtain rfl | rfl := hcases
    · exact iff_of_false List.not_mem_nil (hnil.mp rfl)
    · exact iff_of_true (List.mem_singleton_self _)
        (not_not.mp fun hacyclic => List.cons_ne_nil _ _ (hnil.mpr hacyclic))

/-! ### Verified boards -/

theorem entryProblems_eq_nil (h : entryProblems t = []) :
    ∃ i, t.get? "id" = some (.str i) ∧ strip i ≠ [] := by
  unfold entryProblems at h
  split_ifs at h
  split at h
  · rename_i i hid
    split_ifs at h with hblank
    exact ⟨i, hid, hblank⟩
  · cases h

theorem duplicateIds_eq_nil : duplicateIds seen ids = [] ↔ ids.Nodup ∧ ∀ i ∈ ids, i ∉ seen := by
  induction ids generalizing seen with
  | nil => simp [duplicateIds]
  | cons i ids ih =>
    rw [duplicateIds, List.append_eq_nil_iff, ih, List.nodup_cons, List.forall_mem_cons]
    simp only [ite_eq_right_iff, List.cons_ne_nil, imp_false, List.mem_cons, not_or]
    constructor
    · intro h
      obtain ⟨hi, hnodup, hseen⟩ := h
      exact ⟨⟨fun hmem => (hseen i hmem).1 rfl, hnodup⟩, hi, fun j hj => (hseen j hj).2⟩
    · intro h
      obtain ⟨⟨hfresh, hnodup⟩, hi, hseen⟩ := h
      refine ⟨hi, hnodup, fun j hj => ⟨?_, hseen j hj⟩⟩
      rintro rfl
      exact hfresh hj

theorem dependencyProblems_eq_nil {deps : List Doc} (h : dependencyProblems known seen deps = []) :
    ∃ l : List Str, deps = l.map .str ∧ ∀ d ∈ l, d ∈ known := by
  induction deps generalizing seen with
  | nil => exact ⟨[], rfl, nofun⟩
  | cons dep deps ih =>
    cases dep with
    | str d =>
      rw [dependencyProblems] at h
      split_ifs at h with hseen hknown
      obtain ⟨l, rfl, hl⟩ := ih h
      exact ⟨d :: l, rfl, List.forall_mem_cons.mpr ⟨hknown, hl⟩⟩
    | _ => cases h

theorem taskProblems_eq_nil_iff (hdict : t.isDict = true) : taskProblems py known t = [] ↔
    (∀ f ∈ requiredFields, (t.get? f).isSome = true) ∧
      (∀ f ∈ textFields, fieldProblems t f = []) ∧ statusProblems t = [] ∧
      dependenciesProblems known t = [] ∧
      doneProblems py ((t.get? "id").getD (.str (codes "?"))) t = [] := by
  simp only [taskProblems, hdict, Bool.not_true, Bool.false_eq_true, if_false,
    List.map_eq_nil_iff, List.append_eq_nil_iff, List.flatMap_eq_nil_iff, ite_eq_left_iff,
    List.cons_ne_nil, imp_false, not_not, List.filter_eq_nil_iff,
    Option.isSome_iff_ne_none, Option.isNone_iff_eq_none, and_assoc, ne_eq]

theorem dependencies_of_taskProblems (hdict : t.isDict = true)
    (h : taskProblems py known t = []) :
    ∃ l : List Str, t.get? "dependencies" = some (.list (l.map .str)) ∧ ∀ d ∈ l, d ∈ known := by
  obtain ⟨hrequired, -, -, hdeps, -⟩ := (taskProblems_eq_nil_iff hdict).mp h
  obtain ⟨v, hv⟩ := Option.isSome_iff_exists.mp (hrequired "dependencies" (by decide))
  rw [dependenciesProblems, dependenciesField, hv, Option.getD_some] at hdeps
  cases v with
  | list deps =>
    obtain ⟨l, rfl, hl⟩ := dependencyProblems_eq_nil hdeps
    exact ⟨l, hv, hl⟩
  | _ => cases hdeps

/-- What the verifier has checked before the search of cycles, where it finds nothing. -/
structure Checked (py : Python) (board : Doc) (tasks : List Doc) : Prop where
  tasks_eq : (board.get? "tasks").bind Doc.list? = some tasks
  schema : schemaProblems board = []
  ne_nil : tasks ≠ []
  entries : ∀ t ∈ tasks, entryProblems t = []
  nodup : (idsOf tasks).Nodup
  each : ∀ t ∈ tasks, taskProblems py (idsOf tasks) t = []

theorem earlierProblems_eq_nil_iff : earlierProblems py board tasks = [] ↔
    schemaProblems board = [] ∧ tasks ≠ [] ∧ (∀ t ∈ tasks, entryProblems t = []) ∧
      (idsOf tasks).Nodup ∧ ∀ t ∈ tasks, taskProblems py (idsOf tasks) t = [] := by
  have hunseen : (∀ i ∈ idsOf tasks, i ∉ ([] : List Str)) ↔ True :=
    iff_true_intro fun _ _ => List.not_mem_nil
  simp only [earlierProblems, List.append_eq_nil_iff, List.flatMap_eq_nil_iff,
    duplicateIds_eq_nil, hunseen, and_true, ite_eq_right_iff, List.cons_ne_nil, imp_false,
    and_assoc, ne_eq]

theorem Checked.isDict (h : Checked py board tasks) (ht : t ∈ tasks) : t.isDict = true := by
  obtain ⟨i, hid, -⟩ := entryProblems_eq_nil (h.entries t ht)
  cases t with
  | dict entries => rfl
  | _ => cases hid

theorem Checked.exists_id (h : Checked py board tasks) (ht : t ∈ tasks) :
    ∃ i, t.get? "id" = some (.str i) ∧ idOf t = some i ∧ strip i ≠ [] := by
  obtain ⟨i, hid, hvisible⟩ := entryProblems_eq_nil (h.entries t ht)
  exact ⟨i, hid, by rw [idOf, hid]; rfl, hvisible⟩

theorem Checked.map_idOf (h : Checked py board tasks) :
    tasks.map idOf = (idsOf tasks).map some := by
  have hall : ∀ ts ⊆ tasks, ts.map idOf = (idsOf ts).map some := by
    intro ts
    induction ts with
    | nil => exact fun _ => rfl
    | cons t ts ih =>
      intro hts
      obtain ⟨ht, hts⟩ := List.cons_subset.mp hts
      obtain ⟨i, -, hid, -⟩ := h.exists_id ht
      have hids : idsOf (t :: ts) = i :: idsOf ts := List.filterMap_cons_some hid
      rw [List.map_cons, hid, ih hts, hids, List.map_cons]
  exact hall tasks (List.Subset.refl tasks)

theorem Checked.eq_of_id (h : Checked py board tasks) (ht : t ∈ tasks) (hu : u ∈ tasks)
    (hid : idOf t = idOf u) : t = u := by
  have hnodup : (tasks.map idOf).Nodup := by
    rw [h.map_idOf]
    exact h.nodup.map (Option.some_injective _)
  exact List.inj_on_of_nodup_map hnodup ht hu hid

theorem Checked.dependencies (h : Checked py board tasks) (ht : t ∈ tasks) :
    ∃ l : List Str, t.get? "dependencies" = some (.list (l.map .str)) ∧ dependenciesOf t = l ∧
      ∀ d ∈ l, ∃ u ∈ tasks, idOf u = some d := by
  obtain ⟨l, hl, hknown⟩ := dependencies_of_taskProblems (h.isDict ht) (h.each t ht)
  refine ⟨l, hl, ?_, fun d hd => mem_idsOf.mp (hknown d hd)⟩
  rw [dependenciesOf, dependenciesField, hl, Option.getD_some]
  change (l.map Doc.str).filterMap Doc.str? = l
  rw [List.filterMap_map]
  exact List.filterMap_some

theorem Checked.clean_eq (h : Checked py board tasks) : clean tasks = tasks := by
  refine List.filter_eq_self.mpr fun t ht => ?_
  obtain ⟨i, -, hid, hvisible⟩ := h.exists_id ht
  obtain ⟨l, hl, -, -⟩ := h.dependencies ht
  have hcount : tasks.countP (fun u => idOf u == some i) = 1 := by
    have hnodup : (tasks.map idOf).Nodup := by
      rw [h.map_idOf]
      exact h.nodup.map (Option.some_injective _)
    have hone := List.count_eq_one_of_mem hnodup (List.mem_map.mpr ⟨t, ht, hid⟩)
    rwa [List.count, List.countP_map] at hone
  have hfield : dependenciesField t = .list (l.map .str) := by
    rw [dependenciesField, hl, Option.getD_some]
  rw [isClean, hid, hfield]
  simp [hvisible, hcount, Doc.str?]

theorem Checked.listsDependencies (h : Checked py board tasks) :
    ∀ t ∈ clean tasks, (t.get? "dependencies").isSome = true := by
  rw [h.clean_eq]
  intro t ht
  obtain ⟨l, hl, -⟩ := h.dependencies ht
  rw [hl]
  rfl

theorem Checked.cycleProblems_eq_nil_iff (h : Checked py board tasks) :
    cycleProblems tasks = .ok [] ↔ ¬ CyclicTasks tasks := by
  obtain ⟨found, hfound, -, hnil⟩ := cycleProblems_eq h.listsDependencies
  rw [h.clean_eq] at hnil
  rw [hfound, ← hnil, Except.ok.injEq]

theorem verify_eq_nil_iff : verify py board = .ok [] ↔
    ∃ tasks, Checked py board tasks ∧ ¬ CyclicTasks tasks := by
  constructor
  · intro h
    cases htasks : (board.get? "tasks").bind Doc.list? with
    | none =>
      obtain ⟨problems, hverify, hne, -⟩ := verify_of_no_tasks py (Or.inr htasks)
      exact absurd (Except.ok.inj (hverify.symm.trans h)) hne
    | some tasks =>
      rw [verify_of_tasks (isDict_of_tasks htasks) htasks] at h
      cases hcycle : cycleProblems tasks with
      | error e =>
        rw [hcycle] at h
        cases h
      | ok found =>
        rw [hcycle] at h
        obtain ⟨hearlier, rfl⟩ := List.append_eq_nil_iff.mp (Except.ok.inj h)
        obtain ⟨hschema, hne, hentries, hnodup, heach⟩ := earlierProblems_eq_nil_iff.mp hearlier
        have hchecked : Checked py board tasks := ⟨htasks, hschema, hne, hentries, hnodup, heach⟩
        exact ⟨tasks, hchecked, hchecked.cycleProblems_eq_nil_iff.mp hcycle⟩
  · intro h
    obtain ⟨tasks, h, hacyclic⟩ := h
    have hearlier : earlierProblems py board tasks = [] :=
      earlierProblems_eq_nil_iff.mpr ⟨h.schema, h.ne_nil, h.entries, h.nodup, h.each⟩
    rw [verify_of_tasks (isDict_of_tasks h.tasks_eq) h.tasks_eq,
      h.cycleProblems_eq_nil_iff.mpr hacyclic]
    simp only [Except.map, hearlier, List.append_nil]

/-! ### Changed tasks -/

theorem get?_set_of_ne {name name' : String} {v : Doc} (h : codes name' ≠ codes name) :
    (t.set name v).get? name' = t.get? name' := by
  cases t with
  | dict entries =>
    change (Assoc.assign entries (codes name) v).lookup (codes name') = _
    rw [Assoc.lookup_assign, if_neg h]
    rfl
  | _ => rfl

theorem get?_set_self {name : String} {v : Doc} (h : t.isDict = true) :
    (t.set name v).get? name = some v := by
  cases t with
  | dict entries =>
    change (Assoc.assign entries (codes name) v).lookup (codes name) = _
    rw [Assoc.lookup_assign, if_pos rfl]
  | _ => cases h

theorem isDict_set {name : String} {v : Doc} : (t.set name v).isDict = t.isDict := by
  cases t <;> rfl

def keptFields : List String := "id" :: "dependencies" :: textFields

/-- The second task is the first one with other values in the fields that commands write. -/
structure Kept (t u : Doc) : Prop where
  isDict : u.isDict = t.isDict
  field : ∀ f ∈ keptFields, u.get? f = t.get? f

theorem kept_set {name : String} {v : Doc} (h : codes name ∉ keptFields.map codes) :
    Kept t (t.set name v) := by
  refine ⟨isDict_set, fun f hf => get?_set_of_ne fun heq => h ?_⟩
  rw [← heq]
  exact List.mem_map_of_mem hf

theorem Kept.trans {w : Doc} (h : Kept t u) (h' : Kept u w) : Kept t w :=
  ⟨h'.isDict.trans h.isDict, fun f hf => (h'.field f hf).trans (h.field f hf)⟩

theorem Kept.id_eq (h : Kept t u) : u.get? "id" = t.get? "id" := h.field "id" (by decide)

theorem Kept.idOf_eq (h : Kept t u) : idOf u = idOf t := by rw [idOf, h.id_eq, idOf]

theorem Kept.dependenciesField_eq (h : Kept t u) : dependenciesField u = dependenciesField t := by
  rw [dependenciesField, h.field "dependencies" (by decide), dependenciesField]

theorem Kept.dependenciesOf_eq (h : Kept t u) : dependenciesOf u = dependenciesOf t := by
  rw [dependenciesOf, h.dependenciesField_eq, dependenciesOf]

def isDone (t : Doc) : Bool := isText (codes "done") ((t.get? "status").getD .null)

def Law (tasks : List Doc) : Prop :=
  ∀ t ∈ tasks, isDone t = true → ∀ d ∈ dependenciesOf t, ∃ u ∈ tasks,
    idOf u = some d ∧ isDone u = true

def changeTask (taskId : Str) (change : Doc → Doc) (t : Doc) : Doc :=
  if idOf t = some taskId then change t else t

variable {taskId : Str} {change : Doc → Doc}

theorem kept_changeTask (h : ∀ t, Kept t (change t)) : Kept t (changeTask taskId change t) := by
  unfold changeTask
  split_ifs
  · exact h t
  · exact ⟨rfl, fun _ _ => rfl⟩

theorem Law.map_changeTask (hlaw : Law tasks) (hkept : ∀ t, Kept t (change t))
    (hopen : ∀ t ∈ tasks, idOf t = some taskId → isDone t = false)
    (hdeps : ∀ t ∈ tasks, idOf t = some taskId → ∀ d ∈ dependenciesOf t, ∃ u ∈ tasks,
      idOf u = some d ∧ isDone u = true) : Law (tasks.map (changeTask taskId change)) := by
  intro t' ht' hdone d hd
  obtain ⟨t, ht, rfl⟩ := List.mem_map.mp ht'
  rw [(kept_changeTask hkept).dependenciesOf_eq] at hd
  have hfound : ∃ u ∈ tasks, idOf u = some d ∧ isDone u = true := by
    by_cases hid : idOf t = some taskId
    · exact hdeps t ht hid d hd
    · rw [changeTask, if_neg hid] at hdone
      exact hlaw t ht hdone d hd
  obtain ⟨u, hu, hid, hdoneU⟩ := hfound
  have hother : idOf u ≠ some taskId := by
    intro heq
    rw [hopen u hu heq] at hdoneU
    cases hdoneU
  refine ⟨u, ?_, hid, hdoneU⟩
  rw [← show changeTask taskId change u = u from if_neg hother]
  exact List.mem_map_of_mem hu

/-! ### The commands -/

theorem subscript_eq_ok {name : String} (h : subscript name t = .ok u) : t.get? name = some u := by
  unfold subscript at h
  split_ifs at h
  split at h
  · cases h
  · rename_i v hv
    rw [hv, Except.ok.inj h]

theorem list?_eq_some {v : Doc} {items : List Doc} : v.list? = some items ↔ v = .list items := by
  cases v <;> simp [Doc.list?]

theorem mem_index {byId : List (Doc × Doc)} (h : index py board = .ok byId)
    (htasks : (board.get? "tasks").bind Doc.list? = some tasks) :
    ∀ e ∈ byId, e.2 ∈ tasks ∧ e.2.get? "id" = some e.1 := by
  obtain ⟨v, hv, hrest⟩ := Separated.bind_eq_ok.mp h
  obtain ⟨items, hitems, hrest⟩ := Separated.bind_eq_ok.mp hrest
  obtain ⟨ids, hids, hrest⟩ := Separated.bind_eq_ok.mp hrest
  rw [subscript_eq_ok hv, Option.bind_some, list?_eq_some] at htasks
  subst htasks
  obtain rfl := Except.ok.inj hitems
  simp only at hrest
  split_ifs at hrest
  obtain rfl := Except.ok.inj hrest
  have hall := List.forall₂_iff_zip.mp (Separated.forall₂_of_mapM_ok hids)
  intro e he
  obtain ⟨hid, htask⟩ := List.of_mem_zip he
  have hswap : (e.2, e.1) ∈ tasks.zip ids := by
    rw [← List.zip_swap]
    exact List.mem_map.mpr ⟨e, he, rfl⟩
  exact ⟨htask, subscript_eq_ok (hall.2 hswap)⟩

theorem find_str {byId : List (Doc × Doc)} (hindex : ∀ e ∈ byId, e.2 ∈ tasks ∧
      e.2.get? "id" = some e.1) (h : find py byId (.str i) = some t) :
    t ∈ tasks ∧ idOf t = some i := by
  obtain ⟨e, hfound, rfl⟩ := Option.map_eq_some_iff.mp h
  obtain ⟨ht, hid⟩ := hindex e (List.mem_of_find?_eq_some hfound)
  have heq := List.find?_some hfound
  have hkey : e.1 = .str i := (py.eq_str i e.1).mp heq
  refine ⟨ht, ?_⟩
  rw [idOf, hid, hkey]
  rfl

theorem done_of_unmetDeps {byId : List (Doc × Doc)} {l : List Str}
    (hindex : ∀ e ∈ byId, e.2 ∈ tasks ∧ e.2.get? "id" = some e.1)
    (hl : t.get? "dependencies" = some (.list (l.map .str)))
    (h : unmetDeps py byId t = .ok []) :
    ∀ d ∈ l, ∃ u ∈ tasks, idOf u = some d ∧ isDone u = true := by
  obtain ⟨v, hv, hrest⟩ := Separated.bind_eq_ok.mp h
  obtain ⟨deps, hdeps, hrest⟩ := Separated.bind_eq_ok.mp hrest
  obtain ⟨flags, hflags, hrest⟩ := Separated.bind_eq_ok.mp hrest
  rw [subscript_eq_ok hv] at hl
  obtain rfl := Option.some.inj hl
  obtain rfl := Except.ok.inj hdeps
  have hunmet := List.map_eq_nil_iff.mp (Except.ok.inj hrest)
  intro d hd
  obtain ⟨n, hn, rfl⟩ := List.getElem_of_mem hd
  have hall := Separated.forall₂_of_mapM_ok hflags
  have hn' : n < (l.map Doc.str).length := by rwa [List.length_map]
  have hflag : n < flags.length := hall.length_eq ▸ hn'
  have hmet : isUnmet py byId (l.map Doc.str)[n] = .ok flags[n] := hall.get hn' hflag
  have hfalse : flags[n] = false := by
    have hzip : ((l.map Doc.str)[n], flags[n]) ∈ (l.map Doc.str).zip flags := by
      rw [← List.getElem_zip (h := by simpa using ⟨hn, hflag⟩)]
      exact List.getElem_mem _
    simpa using List.filter_eq_nil_iff.mp hunmet _ hzip
  rw [hfalse, List.getElem_map, isUnmet] at hmet
  split_ifs at hmet
  split at hmet
  · cases hmet
  · rename_i u hu
    obtain ⟨hmem, hid⟩ := find_str hindex hu
    cases hstatus : subscript "status" u with
    | error e =>
      rw [hstatus] at hmet
      cases hmet
    | ok status =>
      rw [hstatus] at hmet
      have hdone : (!isText (codes "done") status) = false := Except.ok.inj hmet
      refine ⟨u, hmem, hid, ?_⟩
      rw [isDone, subscript_eq_ok hstatus, Option.getD_some]
      simpa using hdone

theorem transition_eq_ok {permit : Doc → Except Failure Unit} {check : Except Failure Unit}
    (hboard : Checked py board tasks)
    (h : transition py taskId permit check change board = .ok board') :
    ∃ t ∈ tasks, idOf t = some taskId ∧
      (∃ status, t.get? "status" = some status ∧ permit status = .ok ()) ∧ check = .ok () ∧
      (∀ d ∈ dependenciesOf t, ∃ u ∈ tasks, idOf u = some d ∧ isDone u = true) ∧
      board' = updateTask taskId change board := by
  obtain ⟨byId, hindex, hrest⟩ := Separated.bind_eq_ok.mp h
  have hmem := mem_index hindex hboard.tasks_eq
  split at hrest
  · cases hrest
  · rename_i t ht
    obtain ⟨hin, hid⟩ := find_str hmem ht
    obtain ⟨status, hstatus, hrest⟩ := Separated.bind_eq_ok.mp hrest
    obtain ⟨_, hpermit, hrest⟩ := Separated.bind_eq_ok.mp hrest
    obtain ⟨_, hcheck, hrest⟩ := Separated.bind_eq_ok.mp hrest
    obtain ⟨unmet, hunmet, hrest⟩ := Separated.bind_eq_ok.mp hrest
    split_ifs at hrest with hnil
    rw [hnil] at hunmet
    obtain ⟨l, hl, hdeps, -⟩ := hboard.dependencies hin
    refine ⟨t, hin, hid, ⟨status, subscript_eq_ok hstatus, hpermit⟩, hcheck, ?_,
      (Except.ok.inj hrest).symm⟩
    rw [hdeps]
    exact done_of_unmetDeps hmem hl hunmet

theorem tasks_updateTask (h : (board.get? "tasks").bind Doc.list? = some tasks) :
    ((updateTask taskId change board).get? "tasks").bind Doc.list? =
      some (tasks.map (changeTask taskId change)) := by
  rw [updateTask, h]
  simp only [get?_set_self (isDict_of_tasks h), Option.bind_some]
  rfl

theorem get?_updateTask {name : String} (h : codes name ≠ codes "tasks") :
    (updateTask taskId change board).get? name = board.get? name := by
  unfold updateTask
  split
  · rfl
  · exact get?_set_of_ne h

/-- The values that the verifier looks for in a changed task. -/
structure Admissible (py : Python) (t : Doc) : Prop where
  status : ∃ s ∈ validStatus, t.get? "status" = some (.str s)
  done : doneProblems py ((t.get? "id").getD (.str (codes "?"))) t = []

theorem taskProblems_change (hdict : t.isDict = true) (hkept : Kept t u)
    (hadmissible : Admissible py u) (h : taskProblems py known t = []) :
    taskProblems py known u = [] := by
  obtain ⟨hrequired, htext, -, hdeps, -⟩ := (taskProblems_eq_nil_iff hdict).mp h
  obtain ⟨s, hs, hstatus⟩ := hadmissible.status
  refine (taskProblems_eq_nil_iff (hkept.isDict.trans hdict)).mpr ⟨fun f hf => ?_, fun f hf => ?_,
    ?_, ?_, hadmissible.done⟩
  · have hcases : f = "status" ∨ f ∈ keptFields := by
      revert f
      decide
    obtain rfl | hkeptField := hcases
    · rw [hstatus]
      rfl
    · rw [hkept.field f hkeptField]
      exact hrequired f hf
  · have hfield := hkept.field f (List.mem_cons_of_mem _ (List.mem_cons_of_mem _ hf))
    rw [fieldProblems, hfield]
    exact htext f hf
  · have hvalid : (validStatus.any fun s => isText s ((u.get? "status").getD .null)) = true := by
      rw [hstatus, Option.getD_some, List.any_eq_true]
      exact ⟨s, hs, isText_iff.mpr rfl⟩
    rw [statusProblems]
    simp only [hvalid, if_true]
  · rw [dependenciesProblems, hkept.dependenciesField_eq]
    exact hdeps

theorem entryProblems_change (hkept : Kept t u) : entryProblems u = [] ↔ entryProblems t = [] := by
  unfold entryProblems
  rw [hkept.isDict, hkept.id_eq]
  split_ifs
  · simp
  · exact Iff.rfl

theorem idsOf_change (hkept : ∀ t, Kept t (change t)) :
    idsOf (tasks.map (changeTask taskId change)) = idsOf tasks := by
  rw [idsOf, List.filterMap_map]
  exact List.filterMap_congr fun t _ => (kept_changeTask hkept).idOf_eq

theorem dependsOn_change (hkept : ∀ t, Kept t (change t)) :
    DependsOn (tasks.map (changeTask taskId change)) = DependsOn tasks := by
  funext a b
  simp only [DependsOn, List.mem_map, exists_exists_and_eq_and,
    (kept_changeTask hkept).idOf_eq, (kept_changeTask hkept).dependenciesOf_eq]

theorem Checked.map_changeTask (h : Checked py board tasks) (hkept : ∀ t, Kept t (change t))
    (hadmissible : ∀ t ∈ tasks, idOf t = some taskId → Admissible py (change t)) :
    Checked py (updateTask taskId change board) (tasks.map (changeTask taskId change)) := by
  refine ⟨tasks_updateTask h.tasks_eq, ?_, ?_, ?_, ?_, ?_⟩
  · rw [schemaProblems, get?_updateTask (by decide)]
    exact h.schema
  · rw [Ne, List.map_eq_nil_iff]
    exact h.ne_nil
  · intro t' ht'
    obtain ⟨t, ht, rfl⟩ := List.mem_map.mp ht'
    exact (entryProblems_change (kept_changeTask hkept)).mpr (h.entries t ht)
  · rw [idsOf_change hkept]
    exact h.nodup
  · intro t' ht'
    obtain ⟨t, ht, rfl⟩ := List.mem_map.mp ht'
    rw [idsOf_change hkept]
    by_cases hid : idOf t = some taskId
    · rw [changeTask, if_pos hid]
      exact taskProblems_change (h.isDict ht) (hkept t) (hadmissible t ht hid) (h.each t ht)
    · rw [changeTask, if_neg hid]
      exact h.each t ht

/-- The commands, with their arguments. -/
inductive Command
  | claim (taskId claimant : Str)
  | start (taskId claimant : Str)
  | complete (taskId sha evidence : Str)

/-- A command on a board. -/
def Command.run (py : Python) : Command → Doc → Except Failure Doc
  | .claim taskId claimant => cmdClaim py taskId claimant
  | .start taskId claimant => cmdStart py taskId claimant
  | .complete taskId sha evidence => cmdComplete py taskId sha evidence

/-- A board on which the verifier finds nothing, and whose done tasks follow the law. -/
def Lawful (py : Python) (board : Doc) : Prop := verify py board = .ok [] ∧ Law (tasksOf board)

theorem lawful_transition {permit : Doc → Except Failure Unit} {check : Except Failure Unit}
    (hlawful : Lawful py board) (hkept : ∀ t, Kept t (change t))
    (hopen : ∀ status, permit status = .ok () → isText (codes "done") status = false)
    (hadmissible : check = .ok () → ∀ t, t.isDict = true → t.get? "id" = some (.str taskId) →
      Admissible py (change t))
    (h : transition py taskId permit check change board = .ok board') : Lawful py board' := by
  obtain ⟨hverify, hlaw⟩ := hlawful
  obtain ⟨tasks, hchecked, hacyclic⟩ := verify_eq_nil_iff.mp hverify
  rw [tasksOf_eq hchecked.tasks_eq] at hlaw
  obtain ⟨t, ht, hid, ⟨status, hstatus, hpermit⟩, hcheck, hdeps, rfl⟩ :=
    transition_eq_ok hchecked h
  have hsame : ∀ u ∈ tasks, idOf u = some taskId → u = t := fun u hu hidu =>
    hchecked.eq_of_id hu ht (hidu.trans hid.symm)
  have hnotDone : isDone t = false := by
    rw [isDone, hstatus, Option.getD_some]
    exact hopen status hpermit
  have hkeys : t.get? "id" = some (.str taskId) := by
    obtain ⟨i, hget, hsome, -⟩ := hchecked.exists_id ht
    rw [hget, Option.some.inj (hsome.symm.trans hid)]
  have hchecked' : Checked py (updateTask taskId change board)
      (tasks.map (changeTask taskId change)) := by
    refine hchecked.map_changeTask hkept fun u hu hidu => ?_
    rw [hsame u hu hidu]
    exact hadmissible hcheck t (hchecked.isDict ht) hkeys
  refine ⟨verify_eq_nil_iff.mpr ⟨_, hchecked', ?_⟩, ?_⟩
  · rwa [CyclicTasks, dependsOn_change hkept]
  · rw [tasksOf_eq hchecked'.tasks_eq]
    refine hlaw.map_changeTask hkept (fun u hu hidu => ?_) fun u hu hidu => ?_
    · rw [hsame u hu hidu]
      exact hnotDone
    · rw [hsame u hu hidu]
      exact hdeps

theorem admissible_of_status {s : Str} (hstatus : u.get? "status" = some (.str s))
    (hs : s ∈ validStatus) (hne : isText (codes "done") (.str s) = false) : Admissible py u := by
  refine ⟨⟨s, hs, hstatus⟩, ?_⟩
  rw [doneProblems, hstatus, Option.getD_some, hne]
  rfl

theorem lawful_cmdClaim {claimant : Str} (hlawful : Lawful py board)
    (h : cmdClaim py taskId claimant board = .ok board') : Lawful py board' := by
  refine lawful_transition hlawful (fun t => (kept_set (by decide)).trans (kept_set (by decide)))
    (fun status hpermit => ?_) (fun _ t hdict _ => ?_) h
  · split_ifs at hpermit with htodo
    rw [isText_iff.mp htodo]
    decide
  · have hstatus : ((t.set "status" (.str (codes "claimed"))).set "claimed_by"
        (.str claimant)).get? "status" = some (.str (codes "claimed")) := by
      rw [get?_set_of_ne (by decide), get?_set_self hdict]
    exact admissible_of_status hstatus (by decide) (by decide)

theorem lawful_cmdStart {claimant : Str} (hlawful : Lawful py board)
    (h : cmdStart py taskId claimant board = .ok board') : Lawful py board' := by
  refine lawful_transition hlawful (fun t => (kept_set (by decide)).trans (kept_set (by decide)))
    (fun status hpermit => ?_) (fun _ t hdict _ => ?_) h
  · split_ifs at hpermit with hhash hpermitted
    rw [Bool.or_eq_true, isText_iff, isText_iff] at hpermitted
    obtain rfl | rfl := hpermitted
    · decide
    · decide
  · have hstatus : ((t.set "status" (.str (codes "in_progress"))).set "claimed_by"
        (.str claimant)).get? "status" = some (.str (codes "in_progress")) := by
      rw [get?_set_of_ne (by decide), get?_set_self hdict]
    exact admissible_of_status hstatus (by decide) (by decide)

theorem lawful_cmdComplete {sha evidence : Str} (hlawful : Lawful py board)
    (h : cmdComplete py taskId sha evidence board = .ok board') : Lawful py board' := by
  refine lawful_transition hlawful
    (fun t => ((kept_set (by decide)).trans (kept_set (by decide))).trans (kept_set (by decide)))
    (fun status hpermit => ?_) (fun hcheck t hdict hid => ?_) h
  · split_ifs at hpermit with hhash hdone
    exact Bool.eq_false_iff.mpr hdone
  · obtain ⟨_, hsha, hevidence⟩ := Separated.bind_eq_ok.mp hcheck
    unfold requireSha at hsha
    unfold requireEvidence at hevidence
    split_ifs at hsha with hisSha
    split_ifs at hevidence with hmanifest
    have hdict' : (t.set "status" (.str (codes "done"))).isDict = true := by rwa [isDict_set]
    have hdict'' : ((t.set "status" (.str (codes "done"))).set "done_sha"
        (.str sha)).isDict = true := by rwa [isDict_set]
    refine ⟨⟨codes "done", by decide, ?_⟩, ?_⟩
    · rw [get?_set_of_ne (by decide), get?_set_of_ne (by decide), get?_set_self hdict]
    · rw [get?_set_of_ne (by decide), get?_set_of_ne (by decide), get?_set_of_ne (by decide), hid,
        doneProblems, get?_set_of_ne (by decide), get?_set_of_ne (by decide),
        get?_set_self hdict, get?_set_of_ne (by decide), get?_set_self hdict',
        get?_set_self hdict'', hmanifest]
      simp [isText_iff, Doc.str?, Python.format, hisSha]

theorem lawful_run {c : Command} (hlawful : Lawful py board)
    (h : c.run py board = .ok board') : Lawful py board' := by
  cases c with
  | claim taskId claimant => exact lawful_cmdClaim hlawful h
  | start taskId claimant => exact lawful_cmdStart hlawful h
  | complete taskId sha evidence => exact lawful_cmdComplete hlawful h

theorem lawful_runs {commands : List Command} (hlawful : Lawful py board)
    (h : commands.foldlM (fun b c => c.run py b) board = .ok board') : Lawful py board' := by
  induction commands generalizing board with
  | nil =>
    obtain rfl := Except.ok.inj h
    exact hlawful
  | cons c commands ih =>
    rw [List.foldlM_cons] at h
    obtain ⟨middle, hmiddle, hrest⟩ := Separated.bind_eq_ok.mp h
    exact ih (lawful_run hlawful hmiddle) hrest

/-! ### The board as a whole -/

/-- Unique ids, only known dependencies and no cycle. -/
structure Sound (tasks : List Doc) : Prop where
  ids : ∃ ids : List Str, tasks.map idOf = ids.map some ∧ ids.Nodup
  known : ∀ t ∈ tasks, ∃ deps : List Str, t.get? "dependencies" = some (.list (deps.map .str)) ∧
    ∀ d ∈ deps, ∃ u ∈ tasks, idOf u = some d
  acyclic : ¬ CyclicTasks tasks

/-- The verifier returns, tells sound boards and cycles, and the commands keep the law on
boards that it passes. -/
structure Exact (py : Python) (board : Doc) : Prop where
  returns : ∃ problems, verify py board = .ok problems
  sound : verify py board = .ok [] → Sound (tasksOf board)
  cycle : ∀ problems, verify py board = .ok problems →
    (.cycle ∈ problems ↔ CyclicTasks (clean (tasksOf board)))
  law : Lawful py board → ∀ (c : Command) (board' : Doc), c.run py board = .ok board' →
    Lawful py board'

theorem sound_of_verify (h : verify py board = .ok []) : Sound (tasksOf board) := by
  obtain ⟨tasks, hchecked, hacyclic⟩ := verify_eq_nil_iff.mp h
  rw [tasksOf_eq hchecked.tasks_eq]
  refine ⟨⟨idsOf tasks, hchecked.map_idOf, hchecked.nodup⟩, fun t ht => ?_, hacyclic⟩
  obtain ⟨deps, hdeps, -, hknown⟩ := hchecked.dependencies ht
  exact ⟨deps, hdeps, hknown⟩

/-- The verifier is total and exact on a board exactly where every well-formed task of it
has a list of dependencies. -/
theorem exact_iff (py : Python) (board : Doc) : Exact py board ↔ ListsDependencies board := by
  constructor
  · exact fun h => verify_returns_iff.mp h.returns
  · intro h
    exact ⟨verify_returns_iff.mpr h, sound_of_verify, fun _ hverify => cycle_mem_iff hverify,
      fun hlawful _ _ hrun => lawful_run hlawful hrun⟩

/-- A board with one task that has nothing but an id. -/
def bareBoard : Doc :=
  .dict [(codes "schema_version", .str expectedSchemaVersion),
    (codes "tasks", .list [.dict [(codes "id", .str (codes "A"))]])]

/-- The verifier raises on it. -/
theorem bareBoard_not_exact :
    verify default bareBoard = .error .keyError ∧ ¬ ∃ py : Python, Exact py bareBoard := by
  have hraises : ∀ py : Python, verify py bareBoard = .error .keyError := fun _ => rfl
  refine ⟨hraises default, ?_⟩
  rintro ⟨py, h⟩
  obtain ⟨problems, hproblems⟩ := h.returns
  rw [hraises] at hproblems
  cases hproblems

end Dag
end OpenChess
