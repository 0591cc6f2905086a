import OpenChess.Jobs.Validators

/-!
# Committed states

A new state is read back from its canonical text, so its containers are new. A state
keeps its invariant as a structure: the states the queue accepts are the valid ones, and
a valid state is accepted as the object it is committed as.
-/

namespace OpenChess
namespace Jobs

open Payload (Plain PlainItems PlainMembers Passes trail trails memberTrails payloadsOk)

/-! ### New objects -/

mutual

/-- A new object with this value, its containers at the addresses from `n` on, and the
next free address. -/
def build : ℕ → Value → PyObj × ℕ
  | n, .null => (.atom .null, n)
  | n, .bool b => (.atom (.bool b), n)
  | n, .int i => (.atom (.int i), n)
  | n, .float finite text => (.atom (.float finite text), n)
  | n, .str t => (.atom (.str t), n)
  | n, .foreign tag => (.atom (.foreign tag), n)
  | n, .list items => (.list (buildItems n items).2 (buildItems n items).1, (buildItems n items).2 + 1)
  | n, .dict entries =>
    (.dict (buildMembers n entries).2 (buildMembers n entries).1, (buildMembers n entries).2 + 1)

def buildItems : ℕ → List Value → List PyObj × ℕ
  | n, [] => ([], n)
  | n, v :: items =>
    ((build n v).1 :: (buildItems (build n v).2 items).1, (buildItems (build n v).2 items).2)

def buildMembers : ℕ → List (Scalar × Value) → List (Scalar × PyObj) × ℕ
  | n, [] => ([], n)
  | n, (k, v) :: entries =>
    ((k, (build n v).1) :: (buildMembers (build n v).2 entries).1,
      (buildMembers (build n v).2 entries).2)

end

def State.object (s : State) : PyObj := (build 0 s.toValue).1

/-- What a new object is: its value, and its containers in the order of their addresses. -/
structure Built (n : ℕ) (v : Value) (o : PyObj) (next : ℕ) : Prop where
  content : o.content = v
  le : n ≤ next
  trail : trail o = List.range' n (next - n)

theorem built_leaf {n : ℕ} {v : Value} (a : Live.Atom) (h : a.value = v) :
    Built n v (.atom a) n := by
  refine ⟨h, le_refl n, ?_⟩
  rw [Nat.sub_self]
  rfl

theorem range'_split {n m k : ℕ} (h : n ≤ m) (h' : m ≤ k) :
    List.range' n (m - n) ++ List.range' m (k - m) = List.range' n (k - n) := by
  have hsum : k - n = (m - n) + (k - m) := by omega
  have hstart : m = n + (m - n) := by omega
  rw [hsum, ← List.range'_append_1, ← hstart]

/-- What new items are. -/
structure BuiltItems (n : ℕ) (items : List Value) (os : List PyObj) (next : ℕ) : Prop where
  content : os.map PyObj.content = items
  le : n ≤ next
  trail : trails os = List.range' n (next - n)

theorem builtItems {items : List Value}
    (ih : ∀ v ∈ items, ∀ n, Built n v (build n v).1 (build n v).2) (n : ℕ) :
    BuiltItems n items (buildItems n items).1 (buildItems n items).2 := by
  induction items generalizing n with
  | nil => exact ⟨rfl, le_refl n, by rw [buildItems, Nat.sub_self]; rfl⟩
  | cons v items hitems =>
    rw [List.forall_mem_cons] at ih
    have hv := ih.1 n
    have hrest := hitems ih.2 (build n v).2
    refine ⟨?_, le_trans hv.le hrest.le, ?_⟩
    · rw [buildItems, List.map_cons, hv.content, hrest.content]
    · rw [buildItems, trails, hv.trail, hrest.trail, range'_split hv.le hrest.le]

theorem buildMembers_eq (n : ℕ) (entries : List (Scalar × Value)) :
    (buildMembers n entries).1 =
        (entries.map Prod.fst).zip (buildItems n (entries.map Prod.snd)).1 ∧
      (buildMembers n entries).2 = (buildItems n (entries.map Prod.snd)).2 := by
  induction entries generalizing n with
  | nil => exact ⟨rfl, rfl⟩
  | cons e entries ih =>
    obtain ⟨hmembers, hnext⟩ := ih (build n e.2).2
    rw [buildMembers, List.map_cons, List.map_cons, buildItems, List.zip_cons_cons, hmembers, hnext]
    exact ⟨rfl, rfl⟩

theorem length_buildItems (n : ℕ) (items : List Value) :
    (buildItems n items).1.length = items.length := by
  induction items generalizing n with
  | nil => rfl
  | cons v items ih => rw [buildItems, List.length_cons, ih, List.length_cons]

theorem built_container {n next id : ℕ} {os : List PyObj} (hle : n ≤ next)
    (h : trails os = List.range' n (next - n)) (hid : id = next) :
    trails os ++ [id] = List.range' n (next + 1 - n) := by
  have hlast : [id] = List.range' next (next + 1 - next) := by
    rw [hid, Nat.add_sub_cancel_left]
    rfl
  rw [h, hlast, range'_split hle (Nat.le_succ next)]

/-- A new object has its value, and its containers are new. -/
theorem built (v : Value) (n : ℕ) : Built n v (build n v).1 (build n v).2 := by
  induction v using Value.induction generalizing n with
  | hatom v hlist hdict =>
    cases v with
    | list items => exact absurd rfl (hlist items)
    | dict entries => exact absurd rfl (hdict entries)
    | null => exact built_leaf .null rfl
    | bool b => exact built_leaf (.bool b) rfl
    | int i => exact built_leaf (.int i) rfl
    | float finite text => exact built_leaf (.float finite text) rfl
    | str t => exact built_leaf (.str t) rfl
    | foreign tag => exact built_leaf (.foreign tag) rfl
  | hlist items ih =>
    have hitems := builtItems ih n
    refine ⟨?_, le_trans hitems.le (Nat.le_succ _), ?_⟩
    · rw [build, PyObj.content, PyObj.contents_eq, hitems.content]
    · exact built_container hitems.le hitems.trail rfl
  | hdict entries ih =>
    have hparts : ∀ v ∈ entries.map Prod.snd, ∀ n, Built n v (build n v).1 (build n v).2 := by
      intro v hv
      obtain ⟨e, he, rfl⟩ := List.mem_map.mp hv
      exact ih e he
    have hitems := builtItems hparts n
    obtain ⟨hmembers, hnext⟩ := buildMembers_eq n entries
    have hlength : (entries.map Prod.fst).length =
        (buildItems n (entries.map Prod.snd)).1.length := by
      rw [length_buildItems, List.length_map, List.length_map]
    refine ⟨?_, by rw [build, hnext]; exact le_trans hitems.le (Nat.le_succ _), ?_⟩
    · rw [build, PyObj.content, PyObj.memberContents_eq, hmembers]
      have hcontent : (((entries.map Prod.fst).zip (buildItems n (entries.map Prod.snd)).1).map
          fun e => (e.1, e.2.content)) = entries := by
        have hmap : (fun e : Scalar × PyObj => (e.1, e.2.content)) = Prod.map id PyObj.content := rfl
        rw [hmap, ← List.zip_map_right, hitems.content, List.zip_map']
        exact List.map_id' entries
      exact congrArg Value.dict hcontent
    · rw [build, trail, Payload.memberTrails_eq, hmembers, List.map_snd_zip (ge_of_eq hlength)]
      exact built_container (by rw [hnext]; exact hitems.le) (by rw [hnext]; exact hitems.trail) rfl

/-- A new object passes after containers at lower addresses, if its value is plain. -/
theorem passes_build {L : Payload.Limits} {v : Value} {n : ℕ} {visited : List ℕ}
    (h : Plain L L.depth v) (hvisited : ∀ p ∈ visited, p < n) :
    Passes L 1 visited (build n v).1 := by
  have hbuilt := built v n
  refine ⟨by rwa [hbuilt.content], ?_, fun p hp hmem => ?_⟩
  · rw [hbuilt.trail]
    exact List.nodup_range'
  · rw [hbuilt.trail, List.mem_range'_1] at hp
    have hlt := hvisited p hmem
    omega

theorem fields?_build {names : List Text} {values : List Value} (n : ℕ) (hnodup : names.Nodup)
    (hlength : names.length = values.length) :
    (build n (.object names values)).1.fields? names = some (buildItems n values).1 := by
  have hkeys : ((names.zip values).map fun e => ((.str e.1, e.2) : Scalar × Value)).map Prod.fst =
      names.map Scalar.str := by
    rw [List.map_map]
    have hmap : (names.zip values).map (Prod.fst ∘ fun e => ((.str e.1, e.2) : Scalar × Value)) =
        ((names.zip values).map Prod.fst).map Scalar.str := by rw [List.map_map]; rfl
    rw [hmap, List.map_fst_zip (le_of_eq hlength)]
  have hvalues : ((names.zip values).map fun e => ((.str e.1, e.2) : Scalar × Value)).map Prod.snd =
      values := by
    rw [List.map_map]
    exact List.map_snd_zip (ge_of_eq hlength)
  obtain ⟨hmembers, -⟩ := buildMembers_eq n
    ((names.zip values).map fun e => ((.str e.1, e.2) : Scalar × Value))
  rw [hkeys, hvalues] at hmembers
  have hobject : (build n (.object names values)).1 =
      PyObj.object (buildMembers n
        ((names.zip values).map fun e => ((.str e.1, e.2) : Scalar × Value))).2 names
        (buildItems n values).1 := by
    rw [Value.object, Value.ofMembers, build, hmembers, PyObj.object, List.zip_map_left]
    rfl
  rw [hobject]
  exact PyObj.fields?_object _ hnodup (by rw [length_buildItems, hlength])

/-! ### Valid states -/

open Queue (maxJobs maxAttempts maxNow maxPriority)

/-- The invariant of one job. -/
structure Job.Valid (j : Job) : Prop where
  jobId : jobIdGrammar j.jobId = true
  priority : j.priority ≤ maxPriority
  attempts : j.attempts ≤ maxAttempts
  leased : j.status = .leased → ∃ worker expires, j.leaseOwner = some worker ∧
    j.leaseExpiresAt = some expires ∧ workerGrammar worker = true ∧ 1 ≤ expires ∧
    expires ≤ maxNow ∧ 1 ≤ j.attempts
  unleased : j.status ≠ .leased → j.leaseOwner = none ∧ j.leaseExpiresAt = none
  dead : j.status = .dead → j.attempts = maxAttempts
  done : j.status = .done → 1 ≤ j.attempts
  payload : Plain Queue.bounds.payload Queue.maxDepth j.payload

/-- The invariant of a state. -/
structure State.Valid (s : State) : Prop where
  nextSeq : s.nextSeq ≤ maxNow
  length : s.jobs.length ≤ maxJobs
  jobs : ∀ j ∈ s.jobs, j.Valid
  ids : (s.jobs.map Job.jobId).Nodup
  increasing : (s.jobs.map Job.seq).Pairwise (· < ·)
  below : ∀ j ∈ s.jobs, j.seq < s.nextSeq

variable {j : Job} {js : List Job} {s : State} {o job : PyObj} {lowest highest : ℤ}
  {visited met : List ℕ}

theorem valid_of_jobOk (hlowest : 0 ≤ lowest)
    (h : jobOk Restart.bounds lowest highest visited job = some (j, met)) : j.Valid := by
  obtain ⟨seq, priority, payload, status, attempts, owner, expires, -, hgrammar, hread⟩ :=
    jobOk_eq_some.mp h
  obtain ⟨hreads, -, -, hm⟩ := (readJob_eq_some hlowest).mp hread
  obtain ⟨hpasses, -⟩ := Payload.payloadsOk_eq_some.mp hm
  have hbound : ∀ {o : PyObj} {hi n : ℕ}, o.nat? 0 hi = some n → n ≤ hi := by
    intro o hi n hn
    obtain ⟨m, -, hlo, hhi, rfl⟩ := PyObj.nat?_eq_some.mp hn
    omega
  refine ⟨hgrammar, hbound hreads.priority, hbound hreads.attempts, fun hs => ?_, fun hs => ?_,
    hreads.dead, hreads.done, ?_⟩
  · rcases readLease_eq_some.mp hreads.lease with ⟨-, hlease⟩ | ⟨hne, -⟩
    · obtain ⟨w, e, -, hw, hexpires, ha, howner, hexpiry⟩ := hlease
      obtain ⟨m, -, hlo, hhi, rfl⟩ := PyObj.nat?_eq_some.mp hexpires
      have hmax : m ≤ maxNow := hhi
      exact ⟨w, m.toNat, howner, hexpiry, hw, by omega, by omega, ha⟩
    · exact absurd hs hne
  · rcases readLease_eq_some.mp hreads.lease with ⟨hleased, -⟩ | ⟨-, -, -, howner, hexpiry⟩
    · exact absurd hleased hs
    · exact ⟨howner, hexpiry⟩
  · rw [bounds_eq.1, hreads.payload]
    exact hpasses.plain

theorem of_jobsOk {nextSeq : ℕ} {ids : List Text} {priorSeq : ℤ} {jobs : List PyObj}
    (hprior : -1 ≤ priorSeq) (h : Restart.jobsOk nextSeq ids priorSeq visited jobs = some js) :
    js.length = jobs.length ∧ (∀ j ∈ js, j.Valid ∧ j.jobId ∉ ids ∧ priorSeq < j.seq ∧
      j.seq < nextSeq) ∧ (js.map Job.jobId).Nodup ∧ (js.map Job.seq).Pairwise (· < ·) := by
  induction jobs generalizing ids priorSeq visited js with
  | nil =>
    cases h
    exact ⟨rfl, fun j hj => absurd hj List.not_mem_nil, List.nodup_nil, List.Pairwise.nil⟩
  | cons job jobs ih =>
    rw [Restart.jobsOk, Restart.jobOk] at h
    cases hjob : jobOk Restart.bounds (priorSeq + 1) ((nextSeq : ℤ) - 1) visited job with
    | none => simp [hjob] at h
    | some p =>
      obtain ⟨j, met⟩ := p
      simp only [hjob] at h
      split_ifs at h with hid
      obtain ⟨js', hjs, rfl⟩ := Option.map_eq_some_iff.mp h
      obtain ⟨hlength, hall, hnodup, hincreasing⟩ := ih (by omega) hjs
      obtain ⟨seq, priority, payload, status, attempts, owner, expires, -, -, hread⟩ :=
        jobOk_eq_some.mp hjob
      obtain ⟨-, hlo, hhi, -⟩ := (readJob_eq_some (by omega)).mp hread
      refine ⟨by rw [List.length_cons, hlength, List.length_cons],
        List.forall_mem_cons.mpr ⟨⟨valid_of_jobOk (by omega) hjob, hid, by omega, by omega⟩,
          fun k hk => ?_⟩, ?_, ?_⟩
      · obtain ⟨hvalid, hnot, hlt, hbelow⟩ := hall k hk
        exact ⟨hvalid, fun hmem => hnot (List.mem_cons_of_mem _ hmem), by omega, hbelow⟩
      · rw [List.map_cons, List.nodup_cons]
        refine ⟨fun hmem => ?_, hnodup⟩
        obtain ⟨k, hk, hsame⟩ := List.mem_map.mp hmem
        exact (hall k hk).2.1 (hsame ▸ List.mem_cons_self)
      · rw [List.map_cons, List.pairwise_cons]
        refine ⟨fun n hn => ?_, hincreasing⟩
        obtain ⟨k, hk, rfl⟩ := List.mem_map.mp hn
        have hlt := (hall k hk).2.2.1
        omega

/-- An accepted state is valid. -/
theorem valid_of_checkState (h : Queue.checkState o = some s) : s.Valid := by
  obtain ⟨id, jobs, -, hnext, hlength, hjobs⟩ := checkState_eq_some.mp h
  rw [checkJobs_eq] at hjobs
  obtain ⟨hsame, hall, hnodup, hincreasing⟩ := of_jobsOk (by omega) hjobs
  exact ⟨hnext, by omega, fun j hj => (hall j hj).1, hnodup, hincreasing,
    fun j hj => (hall j hj).2.2.2⟩

/-! ### Committed states are accepted -/

theorem fields?_buildJob (n : ℕ) (j : Job) : (build n j.toValue).1.fields? jobFields =
    some [.atom (.str j.jobId), .atom (.int j.seq), .atom (.int j.priority), (build n j.payload).1,
      .atom (.str j.status.text), .atom (.int j.attempts),
      (j.leaseOwner.map fun w => PyObj.atom (.str w)).getD (.atom .null),
      (j.leaseExpiresAt.map fun e => PyObj.atom (.int (e : ℕ))).getD (.atom .null)] := by
  have hnodup : jobFields.Nodup := by decide
  rw [Job.toValue, fields?_build n hnodup rfl]
  cases j.leaseOwner <;> cases j.leaseExpiresAt <;> simp [buildItems, build]

theorem next_buildJob (n : ℕ) (j : Job) :
    (build n j.toValue).2 = (build n j.payload).2 + 1 := by
  cases howner : j.leaseOwner <;> cases hexpires : j.leaseExpiresAt <;>
    simp [Job.toValue, howner, hexpires, Value.object, Value.ofMembers, jobFields, build,
      buildMembers]

theorem jobOk_build {n : ℕ} (h : j.Valid) (hvisited : ∀ p ∈ visited, p < n) (hlowest : 0 ≤ lowest)
    (hlo : lowest ≤ j.seq) (hhi : (j.seq : ℤ) ≤ highest) :
    jobOk Restart.bounds lowest highest visited (build n j.toValue).1 =
      some (j, trail (build n j.payload).1 ++ visited) := by
  have hnat : ∀ {lo m hi : ℕ}, lo ≤ m → m ≤ hi → (PyObj.atom (.int m)).nat? lo hi = some m :=
    fun hlo hhi => PyObj.nat?_eq_some.mpr
      ⟨_, rfl, Int.ofNat_le.mpr hlo, Int.ofNat_le.mpr hhi, Int.toNat_natCast _⟩
  have hpasses := passes_build h.payload hvisited
  rw [bounds_eq.1] at hpasses
  refine jobOk_eq_some.mpr ⟨_, _, _, _, _, _, _, fields?_buildJob n j, h.jobId,
    (readJob_eq_some hlowest).mpr ⟨⟨rfl, rfl, hnat (Nat.zero_le _) h.priority,
      (built j.payload n).content.symm, rfl, hnat (Nat.zero_le _) h.attempts, ?_, h.dead, h.done⟩,
    hlo, hhi, Payload.payloadsOk_eq_some.mpr ⟨hpasses, rfl⟩⟩⟩
  rw [readLease_eq_some]
  by_cases hs : j.status = .leased
  · obtain ⟨w, e, howner, hexpires, hw, he, hmax, ha⟩ := h.leased hs
    refine .inl ⟨hs, w, e, ?_, hw, ?_, ha, howner, hexpires⟩
    · rw [howner]
      rfl
    · rw [hexpires]
      exact hnat he hmax
  · obtain ⟨howner, hexpires⟩ := h.unleased hs
    refine .inr ⟨hs, ?_, ?_, howner, hexpires⟩
    · rw [howner]
      rfl
    · rw [hexpires]
      rfl

theorem jobsOk_build {nextSeq : ℕ} {ids : List Text} {priorSeq : ℤ} {n : ℕ}
    (hvalid : ∀ j ∈ js, j.Valid) (hnodup : (js.map Job.jobId).Nodup)
    (hincreasing : (js.map Job.seq).Pairwise (· < ·)) (hids : ∀ j ∈ js, j.jobId ∉ ids)
    (hprior : -1 ≤ priorSeq) (hlo : ∀ j ∈ js, priorSeq < j.seq) (hhi : ∀ j ∈ js, j.seq < nextSeq)
    (hvisited : ∀ p ∈ visited, p < n) :
    Restart.jobsOk nextSeq ids priorSeq visited (buildItems n (js.map Job.toValue)).1 = some js := by
  induction js generalizing ids priorSeq n visited with
  | nil => rfl
  | cons j js ih =>
    rw [List.forall_mem_cons] at hvalid hids hlo hhi
    rw [List.map_cons, List.nodup_cons] at hnodup
    rw [List.map_cons, List.pairwise_cons] at hincreasing
    have hjob : jobOk Restart.bounds (priorSeq + 1) ((nextSeq : ℤ) - 1) visited
        (build n j.toValue).1 = some (j, trail (build n j.payload).1 ++ visited) :=
      jobOk_build hvalid.1 hvisited (by omega) (by omega) (by omega)
    have hbuilt := built j.payload n
    have hnext : ∀ p ∈ trail (build n j.payload).1 ++ visited, p < (build n j.toValue).2 := by
      intro p hp
      have hle := hbuilt.le
      rw [next_buildJob]
      rcases List.mem_append.mp hp with hp | hp
      · rw [hbuilt.trail, List.mem_range'_1] at hp
        omega
      · have hlt := hvisited p hp
        omega
    have hfresh : ∀ k ∈ js, k.jobId ∉ j.jobId :: ids := by
      intro k hk hmem
      rcases List.mem_cons.mp hmem with hsame | hmem
      · exact hnodup.1 (hsame ▸ List.mem_map_of_mem hk)
      · exact hids.2 k hk hmem
    have hlater : ∀ k ∈ js, (j.seq : ℤ) < k.seq :=
      fun k hk => Int.ofNat_lt.mpr (hincreasing.1 _ (List.mem_map_of_mem hk))
    have hrest := ih hvalid.2 hnodup.2 hincreasing.2 hfresh (by omega) hlater hhi.2 hnext
    rw [List.map_cons, buildItems, Restart.jobsOk, Restart.jobOk, hjob]
    simp only [hids.1, if_false, hrest, Option.map_some]

/-- A valid state is accepted as the object it is committed as. -/
theorem State.Valid.checkState (h : s.Valid) : Queue.checkState s.object = some s := by
  have hnodup : stateFields.Nodup := by decide
  have hfields : s.object.fields? stateFields = some [.list (buildItems 0 (s.jobs.map Job.toValue)).2
      (buildItems 0 (s.jobs.map Job.toValue)).1, .atom (.int s.nextSeq)] := by
    rw [State.object, State.toValue, fields?_build 0 hnodup rfl]
    simp [buildItems, build]
  refine checkState_eq_some.mpr ⟨_, _, hfields, h.nextSeq, ?_, ?_⟩
  · rw [length_buildItems, List.length_map]
    exact h.length
  · rw [checkJobs_eq]
    exact jobsOk_build h.jobs h.ids h.increasing (fun _ _ => List.not_mem_nil) (by omega)
      (fun j _ => by omega) h.below (fun p hp => absurd hp List.not_mem_nil)

end Jobs
end OpenChess
