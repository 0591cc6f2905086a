import OpenChess.Lib.Growth
import OpenChess.Store.RecoverySpec

/-!
# Life cycle of a store

Runs of appends, rollbacks, scans and resumes with honest oracles, from the empty
log. Every log reached replays, a rollback restores an earlier log, and a damaged
tail costs no entry before it.
-/

namespace OpenChess
namespace LifeCycle

open PositionDigest (Sha256)
open Wal (Accepted Entry canonicalPayload)
open Corruption (encode canonicalEncoding)
open Recovery (longest)

variable {sha : Sha256} {log log' log₁ : List Value} {es : List Entry} {v request : Value}
  {p t : ℕ} {history : List (List Value)} {damage : List Value}

/-- An operation on the log, with its request. -/
inductive Operation
  | append (request : Value)
  | rollback (request : Value)
  | scan (request : Value)
  | resume (request : Value)

/-- The log an engine leaves when it returns. -/
def Operation.result (sha : Sha256) (op : Operation) (log : Value) : Option Value :=
  match op with
  | .append request =>
    (Wal.append sha (Wal.pure canonicalPayload) log request).toOption.map Prod.fst
  | .rollback request =>
    (Rollback.rollback sha (Rollback.honest sha) log request).toOption.map Prod.fst
  | .scan request => (Corruption.scan sha (Corruption.honest sha) log request).toOption.map Prod.fst
  | .resume request =>
    (CrashResume.resume sha (CrashResume.honest sha) log request).toOption.map Prod.fst

/-- The log after a call; a call that raises leaves it. -/
def Operation.step (sha : Sha256) (op : Operation) (log : List Value) : List Value :=
  match op.result sha (.list log) with
  | some (.list log') => log'
  | _ => log

/-- The logs of a run, the latest first. -/
inductive Run (sha : Sha256) : List (List Value) → Prop
  | start : Run sha [[]]
  | step (op : Operation) (log : List Value) (history : List (List Value)) :
    Run sha (log :: history) → Run sha (op.step sha log :: log :: history)

/-! ### What an operation does -/

theorem toOption_map_fst {ε α β : Type} {x : Except ε (α × β)} {a : α}
    (h : x.toOption.map Prod.fst = some a) : ∃ b, x = .ok (a, b) := by
  cases x with
  | error e => cases h
  | ok y =>
    obtain ⟨a', b⟩ := y
    obtain rfl := Option.some.inj h
    exact ⟨b, rfl⟩

theorem plan_of_rollback {archiver : Rollback.Archiver} {log' : Value} {r : Rollback.Receipt}
    (h : Rollback.rollback sha archiver (.list log) request = .ok (log', r)) :
    ∃ plan token, Rollback.plan sha (.list log) request = .ok plan ∧
      log' = .list (log.take plan.target) ∧ r = plan.receipt sha token := by
  unfold Rollback.rollback at h
  split at h
  · cases h
  · rename_i plan hplan
    split at h
    · cases h
    · rename_i token _
      obtain ⟨rfl, rfl⟩ := Prod.mk.inj (Except.ok.inj h)
      exact ⟨plan, token, hplan, rfl, rfl⟩

theorem rollback_eq (h : Accepted sha canonicalPayload log es)
    (hrequest : request.fields? Rollback.requestFields = some [.int t]) (ht : t ≤ log.length) :
    ∃ r, Rollback.rollback sha (Rollback.honest sha) (.list log) request =
        .ok (.list (log.take t), r) ∧ r.toHead = Wal.tipOf (es.take t) := by
  have hrange : ¬ ((t : ℤ) < 0 ∨ (log.length : ℤ) < t) := by omega
  have hplan : Rollback.plan sha (.list log) request = .ok ⟨es, t⟩ := by
    simp only [Rollback.plan, hrequest, Wal.replay_list_eq_ok.mpr ⟨es, h, rfl⟩, hrange, if_false,
      h.validated, Int.toNat_natCast]
  have hgrammar : Hex.tagged Rollback.tokenTag 64 (Rollback.archiveTail sha (es.drop t)) = true :=
    sha.tagged _ _
  unfold Rollback.rollback
  rw [hplan]
  simp only [Rollback.Plan.token, Rollback.Plan.tail, Rollback.honest, Rollback.archive, hgrammar,
    Bool.true_eq_false, if_false, ne_eq, not_true_eq_false]
  exact ⟨_, rfl, rfl⟩

theorem cut_of_scan {sink : Corruption.Sink} {log' : Value} {r : Corruption.Receipt}
    (h : Corruption.scan sha sink (.list log) request = .ok (log', r)) :
    ∃ n, log' = .list (log.take n) := by
  simp only [Corruption.scan] at h
  cases hraw : canonicalEncoding (.list log) with
  | none =>
    rw [hraw] at h
    split at h
    · split_ifs at h
    · cases h
  | some raw =>
    simp only [hraw] at h
    split at h
    · split_ifs at h
      · obtain ⟨rfl, -⟩ := Prod.mk.inj (Except.ok.inj h)
        exact ⟨log.length, by rw [List.take_length]⟩
      · split at h
        · cases h
        · obtain ⟨rfl, -⟩ := Prod.mk.inj (Except.ok.inj h)
          exact ⟨_, rfl⟩
    · cases h

theorem cut_of_resume {sink : Corruption.Sink} {log' : Value} {r : CrashResume.Receipt}
    (h : CrashResume.resume sha sink (.list log) request = .ok (log', r)) :
    ∃ n, log' = .list (log.take n) := by
  unfold CrashResume.resume at h
  split at h
  · cases h
  · split at h
    · cases h
    · obtain ⟨rfl, -⟩ := Prod.mk.inj (Except.ok.inj h)
      exact ⟨_, rfl⟩

/-- An operation appends one entry of an accepted log, or cuts the log. -/
theorem step_cases (sha : Sha256) (op : Operation) (log : List Value) :
    (∃ es q, Accepted sha canonicalPayload log es ∧ Node.Linked sha q.identity q.record ∧
      op.step sha log = log ++ [(Wal.staged sha canonicalPayload es q).toValue]) ∨
    ∃ n, op.step sha log = log.take n := by
  have hkeep : ∃ n, log = log.take n := ⟨log.length, List.take_length.symm⟩
  unfold Operation.step
  cases hresult : op.result sha (.list log) with
  | none => exact .inr hkeep
  | some out =>
    cases op with
    | append request =>
      obtain ⟨e, happend⟩ := toOption_map_fst hresult
      obtain ⟨vs, es, q, hlog, haccepted, hq, rfl, rfl⟩ := Wal.append_eq_ok.mp happend
      obtain rfl := Value.list.inj hlog
      exact .inl ⟨es, q, haccepted, Wal.linked_of_validateRequest hq, rfl⟩
    | rollback request =>
      obtain ⟨r, hrollback⟩ := toOption_map_fst hresult
      obtain ⟨plan, -, -, rfl, -⟩ := plan_of_rollback hrollback
      exact .inr ⟨_, rfl⟩
    | scan request =>
      obtain ⟨r, hscan⟩ := toOption_map_fst hresult
      obtain ⟨n, rfl⟩ := cut_of_scan hscan
      exact .inr ⟨n, rfl⟩
    | resume request =>
      obtain ⟨r, hresume⟩ := toOption_map_fst hresult
      obtain ⟨n, rfl⟩ := cut_of_resume hresume
      exact .inr ⟨n, rfl⟩

/-! ### Runs -/

/-- The log is accepted, and its values are those of its entries. -/
structure Sound (sha : Sha256) (log : List Value) (es : List Entry) : Prop where
  accepted : Accepted sha canonicalPayload log es
  written : log = es.map Entry.toValue

theorem Sound.step {es : List Entry} (h : Sound sha log es) (op : Operation) :
    ∃ fs, Sound sha (op.step sha log) fs := by
  obtain ⟨fs, q, haccepted, hq, hstep⟩ | ⟨n, hstep⟩ := step_cases sha op log
  · obtain rfl := h.accepted.unique haccepted
    rw [hstep]
    refine ⟨_, haccepted.append hq, ?_⟩
    rw [List.map_append, ← h.written]
    rfl
  · rw [hstep]
    refine ⟨_, h.accepted.take n, ?_⟩
    rw [List.map_take, ← h.written]

theorem step_of_operation (op : Operation) (log : List Value) :
    LogHistory.Step log (op.step sha log) := by
  obtain ⟨es, q, -, -, hstep⟩ | ⟨n, hstep⟩ := step_cases sha op log
  · rw [hstep]
    exact .push _
  · rw [hstep]
    exact .cut n

theorem Run.sound (h : Run sha (log :: history)) : ∃ es, Sound sha log es := by
  have hall : ∀ logs, Run sha logs → ∀ log history, logs = log :: history →
      ∃ es, Sound sha log es := by
    intro logs hrun
    induction hrun with
    | start =>
      intro log history heq
      obtain ⟨rfl, rfl⟩ := List.cons.inj heq
      exact ⟨[], Accepted.nil, rfl⟩
    | step op log history _ ih =>
      intro log' history' heq
      obtain ⟨rfl, rfl⟩ := List.cons.inj heq
      obtain ⟨es, hes⟩ := ih log history rfl
      exact hes.step op
  exact hall _ h log history rfl

theorem Run.remembers (h : Run sha (log :: history)) : LogHistory.Remembers log history := by
  have hall : ∀ logs, Run sha logs → ∀ log history, logs = log :: history →
      LogHistory.Remembers log history := by
    intro logs hrun
    induction hrun with
    | start =>
      intro log history heq
      obtain ⟨rfl, rfl⟩ := List.cons.inj heq
      exact LogHistory.Remembers.start
    | step op log history _ ih =>
      intro log' history' heq
      obtain ⟨rfl, rfl⟩ := List.cons.inj heq
      exact (ih log history rfl).step (step_of_operation op log)
  exact hall _ h log history rfl

/-! ### Damage -/

/-- The greatest length of a list, `sys.maxsize`. -/
def maxLength : ℕ := 2 ^ 63 - 1

theorem Sound.domain {es : List Entry} (h : Sound sha log es) (hlength : log.length ≤ maxLength) :
    ∀ v ∈ log, (encode 7 v).isSome = true := by
  intro v hv
  rw [h.written] at hv
  obtain ⟨e, he, rfl⟩ := List.mem_map.mp hv
  obtain ⟨hvalidated, hcount⟩ := Wal.validated_of_validateFrom h.accepted.validated
  have hsequence : e.sequence ∈ es.map Entry.sequence := List.mem_map_of_mem he
  rw [hvalidated.numbered, List.mem_range'_1] at hsequence
  have hbits : maxLength < 2 ^ Corruption.maxIntBits := by decide
  exact Recovery.isSome_encode_entry (by omega)

/-- A value that may be an entry of a log of the scan domain. -/
def inDomain (v : Value) : Bool := (encode (Corruption.maxDepth - 1) v).isSome

def damaged (log : List Value) (p : ℕ) (damage : List Value) : List Value := log.take p ++ damage

theorem Sound.domain_damaged {es : List Entry} (h : Sound sha log es)
    (hlength : (damaged log p damage).length ≤ maxLength)
    (hdamage : ∀ v ∈ damage, inDomain v = true) :
    (canonicalEncoding (.list (damaged log p damage))).isSome = true := by
  have htake : Sound sha (log.take p) (es.take p) :=
    ⟨h.accepted.take p, by rw [List.map_take, ← h.written]⟩
  rw [damaged, List.length_append] at hlength
  refine Recovery.isSome_encode_list.mpr fun v hv => ?_
  rcases List.mem_append.mp hv with hv | hv
  · exact htake.domain (by omega) v hv
  · exact hdamage v hv

theorem Sound.prefix_longest {es : List Entry} (h : Sound sha log es) (hp : p ≤ log.length)
    (damage : List Value) :
    log.take p <+: (damaged log p damage).take (longest sha (damaged log p damage)) ∧
      (damaged log p damage).length - longest sha (damaged log p damage) ≤ damage.length := by
  have hlength : (log.take p).length = p := by rw [List.length_take, Nat.min_eq_left hp]
  have htake : (damaged log p damage).take p = log.take p := by
    rw [damaged, List.take_append_of_le_length (le_of_eq hlength.symm), List.take_take, Nat.min_self]
  have haccepted : Accepted sha canonicalPayload ((damaged log p damage).take p) (es.take p) :=
    htake ▸ h.accepted.take p
  have htotal : (damaged log p damage).length = p + damage.length := by
    rw [damaged, List.length_append, hlength]
  have hle := Recovery.le_longest (by omega) haccepted
  refine ⟨?_, by omega⟩
  rw [← htake]
  exact List.take_prefix_take_left hle

/-! ### The life cycle -/

/-- In every run the log replays. A rollback leaves the log as it was when it last
had the target length. Two rollbacks leave what the second alone leaves. Where the
entries from a position on are replaced by values of the scan domain, a scan with
enough loss allowed and a resume from the start leave a log that replays and holds
the entries before that position. -/
theorem life_cycle (sha : Sha256) (log : List Value) (history : List (List Value))
    (h : Run sha (log :: history)) :
    (∃ out, Wal.replay sha (Wal.pure canonicalPayload) (.list log) = .ok out) ∧
    (∀ request log' r,
      Rollback.rollback sha (Rollback.honest sha) (.list log) request = .ok (log', r) →
      ∃ (t : ℕ) (earlier : List Value) (out : Wal.Receipt),
        request.fields? Rollback.requestFields = some [.int t] ∧
        LogHistory.latest t (log :: history) = some earlier ∧ log' = .list earlier ∧
        Wal.replay sha (Wal.pure canonicalPayload) (.list earlier) = .ok out ∧
        r.toHead = out.head) ∧
    (∀ (request₁ request₂ : Value) (t₁ t₂ : ℕ),
      request₁.fields? Rollback.requestFields = some [.int t₁] →
      request₂.fields? Rollback.requestFields = some [.int t₂] → t₂ ≤ t₁ → t₁ ≤ log.length →
      ∃ log₁ log₂ r₁ r₂ r,
        Rollback.rollback sha (Rollback.honest sha) (.list log) request₁ = .ok (log₁, r₁) ∧
        Rollback.rollback sha (Rollback.honest sha) log₁ request₂ = .ok (log₂, r₂) ∧
        Rollback.rollback sha (Rollback.honest sha) (.list log) request₂ = .ok (log₂, r)) ∧
    ∀ (p : ℕ) (damage : List Value), p ≤ log.length → (∀ v ∈ damage, inDomain v = true) →
      (damaged log p damage).length ≤ maxLength →
      (∀ (request : Value) (maxLoss : ℤ),
        request.fields? Corruption.requestFields = some [.int maxLoss] →
        (damage.length : ℤ) ≤ maxLoss →
        ∃ kept r out, Corruption.scan sha (Corruption.honest sha) (.list (damaged log p damage))
            request = .ok (.list kept, r) ∧ log.take p <+: kept ∧
          Wal.replay sha (Wal.pure canonicalPayload) (.list kept) = .ok out) ∧
      ∀ request : Value, request.fields? CrashResume.requestFields = some [.int 0] →
        ∃ kept r out, CrashResume.resume sha (CrashResume.honest sha)
            (.list (damaged log p damage)) request = .ok (.list kept, r) ∧ log.take p <+: kept ∧
          Wal.replay sha (Wal.pure canonicalPayload) (.list kept) = .ok out := by
  obtain ⟨es, hsound⟩ := h.sound
  have haccepted := hsound.accepted
  refine ⟨⟨_, Wal.replay_list_eq_ok.mpr ⟨es, haccepted, rfl⟩⟩, ?_, ?_, ?_⟩
  · intro request log' r hrollback
    obtain ⟨plan, token, hplan, rfl, rfl⟩ := plan_of_rollback hrollback
    obtain ⟨hrequest, hle, hfrozen⟩ := Recovery.accepted_of_rollbackPlan hplan
    exact ⟨plan.target, _, _, hrequest, h.remembers plan.target hle, rfl,
      Wal.replay_list_eq_ok.mpr ⟨_, hfrozen.take plan.target, rfl⟩, rfl⟩
  · intro request₁ request₂ t₁ t₂ hrequest₁ hrequest₂ hle hlength
    obtain ⟨r₁, hr₁, -⟩ := rollback_eq haccepted hrequest₁ hlength
    obtain ⟨r, hr, -⟩ := rollback_eq haccepted hrequest₂ (hle.trans hlength)
    obtain ⟨r₂, hr₂, -⟩ := rollback_eq (haccepted.take t₁) hrequest₂
      (by rw [List.length_take]; omega)
    rw [List.take_take, Nat.min_eq_left hle] at hr₂
    exact ⟨_, _, r₁, r₂, r, hr₁, hr₂, hr⟩
  · intro p damage hp hdamage hlength
    have hdomain := hsound.domain_damaged hlength hdamage
    obtain ⟨fs, hlongest⟩ := Recovery.exists_accepted_longest sha (damaged log p damage)
    obtain ⟨hkept, hloss⟩ := hsound.prefix_longest hp damage
    have hreplay := Wal.replay_list_eq_ok.mpr ⟨fs, hlongest, rfl⟩
    constructor
    · intro request maxLoss hrequest hmax
      obtain ⟨r, hr, -⟩ := Recovery.scan_eq hrequest hdomain (by omega) (by omega) hlongest
      exact ⟨_, r, _, hr, hkept, hreplay⟩
    · intro request hrequest
      obtain ⟨r, hr, -⟩ :=
        Recovery.resume_eq hrequest (Recovery.isCanonicalJson_of_domain hdomain) hlongest
      exact ⟨_, r, _, hr, hkept, hreplay⟩

theorem step_append {es : List Wal.Entry} {q : Wal.Request} {log : List Value}
    (h : Accepted sha canonicalPayload log es) (hq : Node.Linked sha q.identity q.record) :
    (Operation.append q.toValue).step sha log =
      log ++ [(Wal.staged sha canonicalPayload es q).toValue] := by
  have happend := Wal.append_eq_ok.mpr ⟨log, es, q, rfl, h, Wal.validateRequest_toValue hq, rfl, rfl⟩
  rw [Operation.step, Operation.result, happend]
  rfl

/-- The log of the bare kings, rolled back to nothing, and resumed with a damaged tail. -/
theorem life_cycle_bareKings : ∃ v, Run (.lengths 64) [[v], []] ∧
    (∃ r, Rollback.rollback (.lengths 64) (Rollback.honest (.lengths 64)) (.list [v])
      (.object Rollback.requestFields [.int 0]) = .ok (.list [], r)) ∧
    ∃ kept r, CrashResume.resume (.lengths 64) (CrashResume.honest (.lengths 64))
      (.list (damaged [v] 1 [.null])) (.object CrashResume.requestFields [.int 0]) =
        .ok (.list kept, r) ∧ [v] <+: kept := by
  have hstep := step_append (Accepted.nil : Accepted (.lengths 64) canonicalPayload [] [])
    (q := Wal.bareRequest (.lengths 64)) (Node.linked_bareRecord (.lengths 64) .white)
  rw [List.nil_append] at hstep
  have hrun := Run.step (Operation.append (Wal.bareRequest (.lengths 64)).toValue) [] []
    (Run.start : Run (.lengths 64) [[]])
  rw [hstep] at hrun
  generalize (Wal.staged (.lengths 64) canonicalPayload []
    (Wal.bareRequest (.lengths 64))).toValue = v at hrun
  obtain ⟨-, hback, hbacks, hdamage⟩ := life_cycle (.lengths 64) _ _ hrun
  refine ⟨v, hrun, ?_, ?_⟩
  · have hrequest : (Value.object Rollback.requestFields [.int 0]).fields?
        Rollback.requestFields = some [.int (0 : ℕ)] := Value.fields?_object (by decide) rfl
    obtain ⟨log₁, log₂, r₁, r₂, r, hr, -, -⟩ := hbacks _ _ 0 0 hrequest hrequest le_rfl
      (Nat.zero_le _)
    obtain ⟨t, earlier, out, ht, hearlier, rfl, -⟩ := hback _ _ _ hr
    rw [hrequest] at ht
    obtain rfl : t = 0 := by simpa using ht.symm
    obtain rfl : earlier = [] := by simpa [LogHistory.latest] using hearlier.symm
    exact ⟨r₁, hr⟩
  · have hnull : ∀ v ∈ [Value.null], inDomain v = true := by
      intro v hv
      rw [List.mem_singleton.mp hv]
      rfl
    obtain ⟨-, hresume⟩ := hdamage 1 [.null] le_rfl hnull (by simp [damaged]; decide)
    obtain ⟨kept, r, -, hr, hkept, -⟩ := hresume _ (Value.fields?_object (by decide) rfl)
    exact ⟨kept, r, hr, hkept⟩

end LifeCycle
end OpenChess
