import OpenChess.Chess.Value
import OpenChess.Lib.Trace

/-!
# Downloads that resume

Model of `data/downloader.py` on the two files of a download, the part and the published one. Reads
may end anywhere, and the process may be killed. Only verified bytes are published, and from
a server with one content the part is always the beginning of it.
-/

namespace OpenChess
namespace Download

abbrev Bytes := List UInt8

/-- What the server does: no answer is opened, or one with a status, the bytes that are read of it,
and whether a read then raises. -/
inductive Response
  | refused
  | body (status : ℕ) (bytes : Bytes) (cut : Bool)

structure Disk where
  part : Option Bytes
  dest : Option Bytes
  deriving DecidableEq

inductive Failure
  | refused
  | noRange (status : ℕ)
  | cut
  | incomplete (total want : ℕ)
  | mismatch (digest pinned : Text)
  deriving DecidableEq, Repr

/-- `PublishResult`, without the path. -/
structure PublishResult where
  bytesWritten : ℕ
  sha256 : Text
  resumedFrom : ℕ
  deriving DecidableEq, Repr

/-- `expected_bytes` and `expected_sha256`. -/
structure Pins where
  bytes : Option ℕ
  sha256 : Option Text

/-- `_fetch_range`: the bytes that are written, and what is raised. A budget stops it before the
next read. -/
def fetchRange (start : ℕ) (budget : Option ℕ) : Response → Bytes × Option Failure
  | .refused => ([], some .refused)
  | .body status bytes cut =>
    if 0 < start ∧ status ≠ 206 then ([], some (.noRange status))
    else
      match budget.filter (· ≤ bytes.length) with
      | some n => (bytes.take n, none)
      | none => (bytes, if cut = true then some .cut else none)

/-- The part that is appended to: one longer than the pinned size is removed first. -/
def resumed (pins : Pins) (disk : Disk) : Bytes :=
  let part := disk.part.getD []
  if pins.bytes.any (· < part.length) then [] else part

/-- The checks of a part against the pins. -/
def verify (digest : Bytes → Text) (pins : Pins) (part : Bytes) : Except Failure Unit :=
  if pins.bytes.any (part.length ≠ ·) then
    .error (.incomplete part.length (pins.bytes.getD 0))
  else if pins.sha256.any (digest part ≠ ·) then
    .error (.mismatch (digest part) (pins.sha256.getD []))
  else .ok ()

/-- `download`. -/
def download (digest : Bytes → Text) (pins : Pins) (budget : Option ℕ) (response : ℕ → Response)
    (disk : Disk) : Except Failure PublishResult × Disk :=
  let start := resumed pins disk
  let fetched := fetchRange start.length budget (response start.length)
  let part := start ++ fetched.1
  match fetched.2 with
  | some e => (.error e, { disk with part := some part })
  | none =>
    match verify digest pins part with
    | .error e => (.error e, { disk with part := some part })
    | .ok () => (.ok ⟨part.length, digest part, start.length⟩, ⟨none, some part⟩)

/-! ### Runs -/

/-- A call. The server answers a request by where it starts; a call that is killed, after it opened
the part and before it publishes, leaves so many of the bytes it fetched. -/
structure Call where
  budget : Option ℕ
  response : ℕ → Response
  killed : Option ℕ

/-- The bytes of a call that reach the part. -/
def stored (pins : Pins) (disk : Disk) (call : Call) : Bytes :=
  let start := (resumed pins disk).length
  let fetched := (fetchRange start call.budget (call.response start)).1
  match call.killed with
  | none => fetched
  | some n => fetched.take n

/-- What a call returns, unless it is killed. -/
def result (digest : Bytes → Text) (pins : Pins) (disk : Disk) (call : Call) :
    Option (Except Failure PublishResult) :=
  match call.killed with
  | none => some (download digest pins call.budget call.response disk).1
  | some _ => none

/-- The files after a call. -/
def step (digest : Bytes → Text) (pins : Pins) (disk : Disk) (call : Call) : Disk :=
  match call.killed with
  | none => (download digest pins call.budget call.response disk).2
  | some _ => { disk with part := some (resumed pins disk ++ stored pins disk call) }

def runAll (digest : Bytes → Text) (pins : Pins) (disk : Disk) (calls : List Call) : Disk :=
  Trace.run (step digest pins) disk calls

/-- How many bytes these calls fetched into the part. -/
def transferred (digest : Bytes → Text) (pins : Pins) : Disk → List Call → ℕ
  | _, [] => 0
  | disk, call :: calls => (stored pins disk call).length +
      transferred digest pins (step digest pins disk call) calls

def Verified (digest : Bytes → Text) (pins : Pins) (bytes : Bytes) : Prop :=
  (∀ n, pins.bytes = some n → bytes.length = n) ∧
    ∀ pinned, pins.sha256 = some pinned → digest bytes = pinned

/-- A server with one content: what it sends for a start is the content from there, or the first of
it. A request in the middle may be answered with another status. -/
def Serves (content : Bytes) (response : ℕ → Response) : Prop :=
  ∀ start status bytes cut, response start = .body status bytes cut →
    start = 0 ∨ status = 206 → bytes <+: content.drop start

/-- The answer holds all of the content from the start. -/
def Whole (content : Bytes) (start : ℕ) (response : Response) : Prop :=
  ∃ status, response = .body status (content.drop start) false ∧ (start = 0 ∨ status = 206)

/-- The server that sends the first bytes of what is missing, and then ends the answer or cuts it. -/
def answer (content : Bytes) (sent : ℕ) (cut : Bool) (start : ℕ) : Response :=
  .body (if start = 0 then 200 else 206) ((content.drop start).take sent) cut

theorem serves_answer (content : Bytes) (sent : ℕ) (cut : Bool) :
    Serves content (answer content sent cut) := by
  intro start status bytes cut' h _
  obtain ⟨-, rfl, -⟩ := Response.body.inj h
  exact List.take_prefix _ _

variable {digest : Bytes → Text} {pins : Pins} {disk : Disk} {call : Call} {calls : List Call}
  {content part bytes : Bytes} {budget : Option ℕ} {response : Response} {start : ℕ}

/-! ### One call -/

theorem verify_eq_ok : verify digest pins part = .ok () ↔ Verified digest pins part := by
  have hbytes : pins.bytes.any (part.length ≠ ·) = false ↔
      ∀ n, pins.bytes = some n → part.length = n := by
    cases pins.bytes <;> simp
  have hsha : pins.sha256.any (digest part ≠ ·) = false ↔
      ∀ pinned, pins.sha256 = some pinned → digest part = pinned := by
    cases pins.sha256 <;> simp
  rw [Verified, ← hbytes, ← hsha, verify]
  split_ifs with hlength hdigest
  · exact iff_of_false (by simp) fun h => by
      rw [h.1] at hlength
      cases hlength
  · exact iff_of_false (by simp) fun h => by
      rw [h.2] at hdigest
      cases hdigest
  · exact iff_of_true rfl ⟨Bool.eq_false_iff.mpr hlength, Bool.eq_false_iff.mpr hdigest⟩

/-- What a call leaves: a longer part and what was published before, or a part that was verified as
what is published, with its size, its digest and where it was resumed. -/
theorem step_cases (digest : Bytes → Text) (pins : Pins) (disk : Disk) (call : Call) :
    (step digest pins disk call =
        ⟨some (resumed pins disk ++ stored pins disk call), disk.dest⟩ ∧
      ∀ r, result digest pins disk call ≠ some (.ok r)) ∨
    (step digest pins disk call = ⟨none, some (resumed pins disk ++ stored pins disk call)⟩ ∧
      Verified digest pins (resumed pins disk ++ stored pins disk call) ∧
      result digest pins disk call = some (.ok
        ⟨(resumed pins disk ++ stored pins disk call).length,
          digest (resumed pins disk ++ stored pins disk call), (resumed pins disk).length⟩)) := by
  obtain ⟨budget, response, killed⟩ := call
  cases killed with
  | some n => exact .inl ⟨rfl, fun r h => by cases h⟩
  | none =>
    simp only [step, result, stored, download]
    cases hfetched : (fetchRange (resumed pins disk).length budget
        (response (resumed pins disk).length)).2 with
    | some e => exact .inl ⟨rfl, fun r h => by cases h⟩
    | none =>
      dsimp only
      cases hverify : verify digest pins (resumed pins disk ++ (fetchRange
          (resumed pins disk).length budget (response (resumed pins disk).length)).1) with
      | error e => exact .inl ⟨rfl, fun r h => by cases h⟩
      | ok => exact .inr ⟨rfl, verify_eq_ok.mp hverify, rfl⟩

theorem fetchRange_isPrefix (start : ℕ) (budget : Option ℕ) (response : Response) :
    (fetchRange start budget response).1 = [] ∨ ∃ status bytes cut,
      response = .body status bytes cut ∧ (start = 0 ∨ status = 206) ∧
        (fetchRange start budget response).1 <+: bytes := by
  cases response with
  | refused => exact .inl rfl
  | body status bytes cut =>
    simp only [fetchRange]
    by_cases hstatus : 0 < start ∧ status ≠ 206
    · rw [if_pos hstatus]
      exact .inl rfl
    · rw [if_neg hstatus]
      refine .inr ⟨status, bytes, cut, rfl, by omega, ?_⟩
      cases budget.filter (· ≤ bytes.length) with
      | some n => exact List.take_prefix _ _
      | none => exact List.prefix_rfl

/-! ### One content -/

theorem resumed_isPrefix (h : disk.part.getD [] <+: content) : resumed pins disk <+: content := by
  unfold resumed
  dsimp only
  split_ifs
  · exact List.nil_prefix
  · exact h

/-- Bytes from where the part ends make a longer beginning of the content. -/
theorem prefix_append (hpart : part <+: content) (hbytes : bytes <+: content.drop part.length) :
    part ++ bytes <+: content := by
  obtain ⟨rest, rfl⟩ := hpart
  rw [List.drop_left] at hbytes
  exact (List.prefix_append_right_inj part).mpr hbytes

theorem stored_isPrefix (hserves : Serves content call.response)
    (h : disk.part.getD [] <+: content) :
    resumed pins disk ++ stored pins disk call <+: content := by
  refine prefix_append (resumed_isPrefix h) ?_
  have hfetched : (fetchRange (resumed pins disk).length call.budget
      (call.response (resumed pins disk).length)).1 <+:
      content.drop (resumed pins disk).length := by
    rcases fetchRange_isPrefix (resumed pins disk).length call.budget
      (call.response (resumed pins disk).length) with hnil | ⟨status, bytes, cut, hbody, hrange, hle⟩
    · rw [hnil]
      exact List.nil_prefix
    · exact hle.trans (hserves _ status bytes cut hbody hrange)
  unfold stored
  dsimp only
  split
  · exact hfetched
  · exact (List.take_prefix _ _).trans hfetched

theorem resumed_of_prefix (hpins : ∀ n, pins.bytes = some n → content.length ≤ n)
    (h : disk.part.getD [] <+: content) : resumed pins disk = disk.part.getD [] := by
  have hle := h.length_le
  unfold resumed
  dsimp only
  cases hbytes : pins.bytes with
  | none => rfl
  | some n =>
    have hn := hpins n hbytes
    rw [if_neg]
    simp only [Option.any_some, decide_eq_true_eq]
    omega

theorem part_step (hserves : Serves content call.response) (h : disk.part.getD [] <+: content) :
    (step digest pins disk call).part.getD [] <+: content := by
  rcases step_cases digest pins disk call with ⟨hstep, -⟩ | ⟨hstep, -⟩
  · rw [hstep]
    exact stored_isPrefix hserves h
  · rw [hstep]
    exact List.nil_prefix

/-! ### Runs of calls -/

theorem part_runAll (hserves : ∀ call ∈ calls, Serves content call.response)
    (h : disk.part.getD [] <+: content) :
    (runAll digest pins disk calls).part.getD [] <+: content := by
  induction calls generalizing disk with
  | nil => exact h
  | cons call calls ih =>
    obtain ⟨hcall, hcalls⟩ := List.forall_mem_cons.mp hserves
    exact ih hcalls (part_step hcall h)

def Publishes (digest : Bytes → Text) (pins : Pins) (disk : Disk) (calls : List Call) : Prop :=
  ∃ before call after r, calls = before ++ call :: after ∧
    result digest pins (runAll digest pins disk before) call = some (.ok r)

theorem not_publishes_cons (h : ¬ Publishes digest pins disk (call :: calls)) :
    (∀ r, result digest pins disk call ≠ some (.ok r)) ∧
      ¬ Publishes digest pins (step digest pins disk call) calls := by
  refine ⟨fun r hr => h ⟨[], call, calls, r, rfl, hr⟩, ?_⟩
  rintro ⟨before, call', after, r, rfl, hr⟩
  exact h ⟨call :: before, call', after, r, rfl, hr⟩

theorem length_part_runAll (hpins : ∀ n, pins.bytes = some n → content.length ≤ n)
    (hserves : ∀ call ∈ calls, Serves content call.response)
    (h : disk.part.getD [] <+: content) (hnone : ¬ Publishes digest pins disk calls) :
    ((runAll digest pins disk calls).part.getD []).length =
      (disk.part.getD []).length + transferred digest pins disk calls := by
  induction calls generalizing disk with
  | nil => rfl
  | cons call calls ih =>
    obtain ⟨hcall, hcalls⟩ := List.forall_mem_cons.mp hserves
    obtain ⟨hresult, hrest⟩ := not_publishes_cons hnone
    have hpart : ((step digest pins disk call).part.getD []).length =
        (disk.part.getD []).length + (stored pins disk call).length := by
      rcases step_cases digest pins disk call with ⟨hstep, -⟩ | ⟨-, -, hok⟩
      · rw [hstep, Option.getD_some, List.length_append, resumed_of_prefix hpins h]
      · exact absurd hok (hresult _)
    have hrun := ih hcalls (part_step hcall h) hrest
    change ((runAll digest pins (step digest pins disk call) calls).part.getD []).length = _
    rw [hrun, hpart, transferred, Nat.add_assoc]

/-- Whatever a server sends, and wherever calls are cut, or killed before they publish: what is
published in the end was there before or has the pinned size and digest. A call that returns a
result published exactly bytes of that size and digest and leaves no part; any other call leaves
what was published as it was, and the part it resumed with what it fetched. -/
theorem published_verified (digest : Bytes → Text) (pins : Pins) (disk : Disk)
    (calls : List Call) :
    ((runAll digest pins disk calls).dest = disk.dest ∨ ∃ bytes,
      (runAll digest pins disk calls).dest = some bytes ∧ Verified digest pins bytes) ∧
    ∀ call,
      (∃ r bytes, result digest pins (runAll digest pins disk calls) call = some (.ok r) ∧
        runAll digest pins disk (calls ++ [call]) = ⟨none, some bytes⟩ ∧
        Verified digest pins bytes ∧ r.bytesWritten = bytes.length ∧ r.sha256 = digest bytes) ∨
      (∀ r, result digest pins (runAll digest pins disk calls) call ≠ some (.ok r)) ∧
        (runAll digest pins disk (calls ++ [call])).dest =
          (runAll digest pins disk calls).dest ∧
        (runAll digest pins disk (calls ++ [call])).part =
          some (resumed pins (runAll digest pins disk calls) ++
            stored pins (runAll digest pins disk calls) call) := by
  have hsnoc : ∀ (calls : List Call) (call : Call), runAll digest pins disk (calls ++ [call]) =
      step digest pins (runAll digest pins disk calls) call := Trace.run_snoc
  refine ⟨?_, fun call => ?_⟩
  · induction calls using List.reverseRecOn with
    | nil => exact .inl rfl
    | append_singleton calls call ih =>
      rw [hsnoc]
      rcases step_cases digest pins (runAll digest pins disk calls) call with
        ⟨hstep, -⟩ | ⟨hstep, hverified, -⟩
      · rw [hstep]
        exact ih
      · rw [hstep]
        exact .inr ⟨_, rfl, hverified⟩
  · rw [hsnoc]
    rcases step_cases digest pins (runAll digest pins disk calls) call with
      ⟨hstep, hresult⟩ | ⟨hstep, hverified, hresult⟩
    · exact .inr ⟨hresult, by rw [hstep], by rw [hstep]⟩
    · exact .inl ⟨_, _, hresult, hstep, hverified, rfl, rfl⟩

/-- With a server of one content that the pins name, and a part that is the beginning of it: however
calls are cut or killed, the part stays a beginning of the content and nothing else is published.
Until a call publishes, every call fetches what was missing, so that a call with an answer to its end
publishes the content, and together they fetched every missing byte once. -/
theorem resumed_exact (digest : Bytes → Text) (pins : Pins) (content : Bytes) (disk : Disk)
    (calls : List Call) (hsize : pins.bytes = some content.length)
    (hdigest : ∀ pinned, pins.sha256 = some pinned → digest content = pinned)
    (hpart : disk.part.getD [] <+: content)
    (hserves : ∀ call ∈ calls, Serves content call.response) :
    (runAll digest pins disk calls).part.getD [] <+: content ∧
    ((runAll digest pins disk calls).dest = disk.dest ∨
      (runAll digest pins disk calls).dest = some content) ∧
    ∀ call, call.killed = none → call.budget = none →
      Whole content ((runAll digest pins disk calls).part.getD []).length
        (call.response ((runAll digest pins disk calls).part.getD []).length) →
      result digest pins (runAll digest pins disk calls) call = some (.ok ⟨content.length,
        digest content, ((runAll digest pins disk calls).part.getD []).length⟩) ∧
      runAll digest pins disk (calls ++ [call]) = ⟨none, some content⟩ ∧
      (¬ Publishes digest pins disk calls → (disk.part.getD []).length +
        transferred digest pins disk (calls ++ [call]) = content.length) := by
  have hpins : ∀ n, pins.bytes = some n → content.length ≤ n := by
    intro n hn
    rw [hsize] at hn
    exact (Option.some.inj hn).le
  have hverified : Verified digest pins content := by
    refine ⟨fun n hn => ?_, hdigest⟩
    rw [hsize] at hn
    exact Option.some.inj hn
  have hrun : ∀ (calls : List Call), (∀ call ∈ calls, Serves content call.response) →
      (runAll digest pins disk calls).part.getD [] <+: content :=
    fun calls hserves => part_runAll hserves hpart
  refine ⟨hrun calls hserves, ?_, ?_⟩
  · induction calls using List.reverseRecOn with
    | nil => exact .inl rfl
    | append_singleton calls call ih =>
      have hsnoc : runAll digest pins disk (calls ++ [call]) =
          step digest pins (runAll digest pins disk calls) call := Trace.run_snoc calls call
      have hbefore : ∀ call ∈ calls, Serves content call.response :=
        fun call hcall => hserves call (List.mem_append_left _ hcall)
      rw [hsnoc]
      rcases step_cases digest pins (runAll digest pins disk calls) call with
        ⟨hstep, -⟩ | ⟨hstep, hpublished, -⟩
      · rw [hstep]
        exact ih hbefore
      · -- What is published is a beginning of the content that has its size.
        rw [hstep]
        have hbegin : resumed pins (runAll digest pins disk calls) ++
            stored pins (runAll digest pins disk calls) call <+: content :=
          stored_isPrefix (hserves call (List.mem_append_right _ List.mem_cons_self))
            (hrun calls hbefore)
        exact .inr (congrArg some (hbegin.eq_of_length (hpublished.1 _ hsize)))
  · intro call hkilled hbudget hwhole
    obtain ⟨status, hbody, hrange⟩ := hwhole
    have hresumed := resumed_of_prefix hpins (hrun calls hserves)
    obtain ⟨rest, hrest⟩ := hrun calls hserves
    have hfetched : fetchRange ((runAll digest pins disk calls).part.getD []).length call.budget
        (call.response ((runAll digest pins disk calls).part.getD []).length) = (rest, none) := by
      have hdrop : content.drop ((runAll digest pins disk calls).part.getD []).length = rest := by
        rw [← hrest, List.drop_left]
      rw [hbody, hbudget, fetchRange, if_neg (by omega), hdrop]
      rfl
    have hstored : resumed pins (runAll digest pins disk calls) ++
        stored pins (runAll digest pins disk calls) call = content := by
      unfold stored
      rw [hkilled, hresumed]
      dsimp only
      rw [hfetched]
      exact hrest
    have hresult : result digest pins (runAll digest pins disk calls) call = some (.ok
        ⟨content.length, digest content,
          ((runAll digest pins disk calls).part.getD []).length⟩) := by
      unfold result download
      rw [hkilled, hresumed]
      dsimp only
      rw [hfetched]
      dsimp only
      rw [hrest, verify_eq_ok.mpr hverified]
    have hsnoc : runAll digest pins disk (calls ++ [call]) =
        step digest pins (runAll digest pins disk calls) call := Trace.run_snoc calls call
    refine ⟨hresult, ?_, fun hnone => ?_⟩
    · rw [hsnoc]
      rcases step_cases digest pins (runAll digest pins disk calls) call with
        ⟨-, hnever⟩ | ⟨hstep, -⟩
      · exact absurd hresult (hnever _)
      · rw [hstep, hstored]
    · have hlength := length_part_runAll hpins hserves hpart hnone
      have hsum : ∀ (disk : Disk), transferred digest pins disk (calls ++ [call]) =
          transferred digest pins disk calls +
            (stored pins (runAll digest pins disk calls) call).length := by
        clear * -
        intro disk
        induction calls generalizing disk with
        | nil => simp [transferred, runAll]
        | cons call' calls ih =>
          rw [List.cons_append, transferred, ih, transferred, Nat.add_assoc]
          rfl
      have htotal := congrArg List.length hstored
      rw [List.length_append, hresumed] at htotal
      rw [hsum]
      omega

/-- An answer that is cut after a byte, one whose call is killed after another, and a whole one. -/
theorem resumed_exact_cut :
    let digest : Bytes → Text := fun bytes => bytes.map fun b => Char.ofNat (b.toNat + 97)
    let pins : Pins := ⟨some 3, some "bcd".toList⟩
    let calls : List Call := [⟨none, answer [1, 2, 3] 1 true, none⟩,
      ⟨none, answer [1, 2, 3] 5 false, some 1⟩]
    let call : Call := ⟨none, answer [1, 2, 3] 5 false, none⟩
    result digest pins (runAll digest pins ⟨none, none⟩ calls) call =
        some (.ok ⟨3, "bcd".toList, 2⟩) ∧
      runAll digest pins ⟨none, none⟩ (calls ++ [call]) = ⟨none, some [1, 2, 3]⟩ := by
  intro digest pins calls call
  have hserves : ∀ call ∈ calls, Serves [1, 2, 3] call.response := by
    intro call hcall
    rcases List.mem_cons.mp hcall with rfl | hcall
    · exact serves_answer _ _ _
    · obtain rfl := List.mem_singleton.mp hcall
      exact serves_answer _ _ _
  obtain ⟨-, -, hlast⟩ := resumed_exact digest pins [1, 2, 3] ⟨none, none⟩ calls rfl
    (fun pinned h => by rw [← Option.some.inj h]; rfl) List.nil_prefix hserves
  obtain ⟨hresult, hrun, -⟩ := hlast call rfl rfl ⟨206, rfl, .inr rfl⟩
  exact ⟨hresult, hrun⟩

end Download
end OpenChess
