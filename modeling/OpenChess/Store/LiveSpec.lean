import OpenChess.Store.LiveCommit
import OpenChess.Store.RecoverySpec

/-!
# Atomic operations

A failed operation leaves log, ledger and request with their old values, whatever the
oracle did to them. One that succeeds leaves the one append or truncation of its
receipt, except for a keyed append whose log and ledger are the same empty list.
-/

namespace OpenChess
namespace Live

open ObjectHeap
open ObjectHeap.Heap (capture restore path reach Within)
open PositionDigest (Sha256)
open TranspositionNode (Record)
open Wal (Entry)

variable {sha : Sha256} {h g : Objects} {log ledger request r : Handle} {p : ℕ} {l : List Handle}
  {es : List Entry} {addrs : List ℕ}

/-! ### The log engine -/

theorem grows_rederive (sha : Sha256) (o : Oracle (Text × Record)) (n : ℕ) (es : List Entry)
    (h : Objects) :
    h.next ≤ (rederive sha o n es h).2.next := by
  induction es generalizing n h with
  | nil => exact le_refl _
  | cons e es ih =>
    have hcall := o.grows n (e.identity, e.record) h
    rw [rederive]
    simp only [canonicalize]
    cases Wal.canonicalize (fun _ _ => (o.call n (e.identity, e.record) h).1) e.identity
        e.record with
    | error err => exact hcall
    | ok canonical =>
      simp only
      split_ifs
      · exact hcall
      · exact hcall.trans (ih _ _)

theorem grows_stage (sha : Sha256) (o : Oracle (Text × Record)) (es : List Entry) (q : Wal.Request)
    (h : Objects) : h.next ≤ (stage sha o es q h).2.next := by
  have hderive := grows_rederive sha o 0 es h
  unfold stage
  cases hrun : rederive sha o 0 es h with
  | mk out h₁ =>
    rw [hrun] at hderive
    cases out with
    | error err => exact hderive
    | ok =>
      have hcall := o.grows es.length (q.identity, q.record) h₁
      simp only [canonicalize]
      cases Wal.canonicalize (fun _ _ => (o.call es.length (q.identity, q.record) h₁).1)
          q.identity q.record with
      | error err => exact hderive.trans hcall
      | ok canonical => exact hderive.trans hcall

theorem append_cases (sha : Sha256) (o : Oracle (Text × Record)) (log request : Handle) (h : Objects) :
    (∃ e, append sha o log request h = (.error e, h)) ∨
    ∃ p l q es g, log = .ptr p ∧ h.cells p = .list l ∧
      Wal.validateRequest sha (value h 3 request) = .ok q ∧
      Wal.validateLog sha (l.map (value h 3)) = .ok es ∧ h.next ≤ g.next ∧
      ((∃ e, append sha o log request h = (.error e,
          restore (capture h (logContainers h log ++ path h recordPath request)) g)) ∨
        ∃ staged, append sha o log request h = (.ok staged, pushEntry log staged
          (restore (capture h (logContainers h log ++ path h recordPath request)) g))) := by
  unfold append
  cases hlog : value h 4 log with
  | list entries =>
    obtain ⟨p, l, rfl, hcell, rfl⟩ := ptr_of_list hlog
    cases hrequest : Wal.validateRequest sha (value h 3 request) with
    | error err => exact .inl ⟨err, rfl⟩
    | ok q =>
      cases hes : Wal.validateLog sha (l.map (value h 3)) with
      | error err => exact .inl ⟨err, by simp only [hes]⟩
      | ok es =>
        have hgrows := grows_stage sha o es q h
        cases hstage : stage sha o es q h with
        | mk out g =>
          rw [hstage] at hgrows
          refine .inr ⟨p, l, q, es, g, rfl, hcell, rfl, hes, hgrows, ?_⟩
          cases out with
          | error err => exact .inl ⟨err, by simp only [hes, hstage]⟩
          | ok staged => exact .inr ⟨staged, by simp only [hes, hstage]⟩
  | _ => exact .inl ⟨_, rfl⟩

theorem mem_logContainers : p ∈ logContainers h (.ptr p) :=
  List.mem_append_left _ (mem_path_nil.mpr rfl)

theorem within_log (hcell : h.cells p = .list l)
    (hes : Wal.validateLog sha (l.map (value h 3)) = .ok es) :
    (∀ c ∈ l, h.Within (fun q => q ∈ logContainers h (.ptr p) ∧ IsDict h q) c) ∧
      h.Within (· ∈ logContainers h (.ptr p)) (.ptr p) := by
  have hitems : ∀ c ∈ l, h.Within (fun q => q ∈ logContainers h (.ptr p) ∧ IsDict h q) c := by
    refine within_entries (d := 0) hes fun q hq hdict => ⟨?_, hdict⟩
    rw [logContainers, items_ptr hcell]
    exact List.mem_append_right _ hq
  exact ⟨hitems, within_list hcell mem_logContainers fun c hc =>
    (hitems c hc).mono fun q hq => hq.1⟩

theorem ne_of_isDict {q : ℕ} (hdict : IsDict h q) (hcell : h.cells p = .list l) : q ≠ p := by
  intro heq
  obtain ⟨entries, hentries⟩ := hdict
  rw [heq, hcell] at hentries
  cases hentries

/-- A captured tree of dictionaries is below `next` after the restore, and apart from
any list. -/
theorem tree_restored (hclosed : h.Closed) (hlive : h.Live r) (hgrows : h.next ≤ g.next)
    (hr : h.Within (fun q => q ∈ addrs ∧ IsDict h q) r) (hcell : h.cells p = .list l) :
    (restore (capture h addrs) g).Within
      (fun q => q < (restore (capture h addrs) g).next ∧ q ≠ p) r := by
  have hwithin := within_restored g (hr.live hclosed hlive) fun q hq => hq.1.1
  refine hwithin.mono fun q hq => ⟨?_, ne_of_isDict hq.1.2 hcell⟩
  rw [Heap.next_restore]
  exact hq.2.trans_le hgrows

theorem live_items (hclosed : h.Closed) (hlive : h.Live (.ptr p)) (hcell : h.cells p = .list l) :
    ∀ c ∈ l, h.Live c := fun c hc => hclosed p hlive c (by rwa [hcell])

/-- After an append that fails, log and request have their old values; one that
succeeds leaves the entry it returns. -/
def AppendAtomic (sha : Sha256) (o : Oracle (Text × Record)) (log request : Handle) (h : Objects) :
    Prop :=
  Kept h (append sha o log request h).2 request ∧
    match (append sha o log request h).1 with
    | .error _ => Kept h (append sha o log request h).2 log
    | .ok e => Appended h (append sha o log request h).2 log e.toValue

theorem append_atomic (o : Oracle (Text × Record)) (hclosed : h.Closed) (hlog : h.Live log)
    (hrequest : h.Live request) : AppendAtomic sha o log request h := by
  unfold AppendAtomic
  obtain ⟨e, happend⟩ | ⟨p, l, q, es, g, rfl, hcell, hq, hes, hgrows, hrun⟩ :=
    append_cases sha o log request h
  · rw [happend]
    exact ⟨.refl, .refl⟩
  · obtain ⟨hitems, htree⟩ := within_log hcell hes
    have hdicts : h.Within (fun q => q ∈ logContainers h (.ptr p) ++ path h recordPath request ∧
        IsDict h q) request :=
      within_request (d := 0) hq fun q hq hdict => ⟨List.mem_append_right _ hq, hdict⟩
    have hkept := kept_restored g (hdicts.mono fun q hq => hq.1)
    have hlogKept := kept_restored g
      (htree.mono fun q hq => List.mem_append_left (path h recordPath request) hq)
    obtain ⟨e, happend⟩ | ⟨staged, happend⟩ := hrun
    · rw [happend]
      exact ⟨hkept, hlogKept⟩
    · rw [happend]
      have hp : p ∈ logContainers h (.ptr p) ++ path h recordPath request :=
        List.mem_append_left _ mem_logContainers
      have hcell' := (cells_restored g hp).trans hcell
      have hpush := pushed_entry (by rw [Heap.next_restore]; exact hlog.trans_le hgrows) hcell'
        staged
      refine ⟨hkept.trans (hpush.kept (tree_restored hclosed hrequest hgrows hdicts hcell)),
        hlogKept.appended (hpush.appended hcell' fun c hc => ?_)⟩
      have hdict := (hitems c hc).mono fun q hq =>
        (⟨List.mem_append_left (path h recordPath request) hq.1, hq.2⟩ :
          q ∈ logContainers h (.ptr p) ++ path h recordPath request ∧ IsDict h q)
      exact tree_restored hclosed (live_items hclosed hlog hcell c hc) hgrows hdict hcell

/-! ### Rollback -/

theorem rollback_cases (sha : Sha256) (o : Oracle (List Entry)) (log request : Handle) (h : Objects) :
    (∃ e, rollback sha o log request h = (.error e, h)) ∨
    ∃ p l plan g, log = .ptr p ∧ h.cells p = .list l ∧
      Rollback.plan sha (.list (l.map (value h 3))) (value h 1 request) = .ok plan ∧
      h.next ≤ g.next ∧
      ((∃ e, rollback sha o log request h = (.error e,
          restore (capture h (logContainers h log ++ path h [] request)) g)) ∨
        ∃ token, rollback sha o log request h = (.ok (plan.receipt sha token),
          truncate plan.target log
            (restore (capture h (logContainers h log ++ path h [] request)) g))) := by
  unfold rollback
  cases hplan : Rollback.plan sha (value h 4 log) (value h 1 request) with
  | error err => exact .inl ⟨err, rfl⟩
  | ok plan =>
    cases hlog : value h 4 log with
    | list entries =>
      obtain ⟨p, l, rfl, hcell, rfl⟩ := ptr_of_list hlog
      rw [hlog] at hplan
      refine .inr ⟨p, l, plan, _, rfl, hcell, hplan, o.grows 0 plan.tail h, ?_⟩
      cases htoken : plan.token sha (o.call 0 plan.tail h).1 with
      | error err => exact .inl ⟨err, by simp only [htoken]⟩
      | ok token => exact .inr ⟨token, by simp only [htoken]⟩
    | _ =>
      rw [hlog] at hplan
      cases hplan

/-- After a rollback that fails, log and request have their old values; one that
succeeds removes as many last entries as it reports. -/
def RollbackAtomic (sha : Sha256) (o : Oracle (List Entry)) (log request : Handle) (h : Objects) :
    Prop :=
  Kept h (rollback sha o log request h).2 request ∧
    match (rollback sha o log request h).1 with
    | .error _ => Kept h (rollback sha o log request h).2 log
    | .ok r => ∃ kept, Truncated h (rollback sha o log request h).2 log kept r.truncatedCount

theorem rollback_atomic (o : Oracle (List Entry)) (hclosed : h.Closed) (hlog : h.Live log)
    (hrequest : h.Live request) : RollbackAtomic sha o log request h := by
  unfold RollbackAtomic
  obtain ⟨e, hrollback⟩ | ⟨p, l, plan, g, rfl, hcell, hplan, hgrows, hrun⟩ :=
    rollback_cases sha o log request h
  · rw [hrollback]
    exact ⟨.refl, .refl⟩
  · obtain ⟨hnumber, hle, haccepted⟩ := Recovery.accepted_of_rollbackPlan hplan
    obtain ⟨hitems, htree⟩ := within_log hcell haccepted.validated
    have hdicts : h.Within (fun q => q ∈ logContainers h (.ptr p) ++ path h [] request ∧
        IsDict h q) request :=
      within_number (d := 0) hnumber fun q hq hdict => ⟨List.mem_append_right _ hq, hdict⟩
    have hkept := kept_restored g (hdicts.mono fun q hq => hq.1)
    obtain ⟨e, hrollback⟩ | ⟨token, hrollback⟩ := hrun
    · rw [hrollback]
      exact ⟨hkept, kept_restored g (htree.mono fun q hq => List.mem_append_left _ hq)⟩
    · rw [hrollback]
      have hapart := tree_restored hclosed hrequest hgrows hdicts hcell
      refine ⟨hkept.trans (kept_truncate (hapart.mono fun q hq => hq.2)), plan.target, ?_⟩
      have hlogKept := kept_restored g
        (htree.mono fun q hq => List.mem_append_left (path h [] request) hq)
      have hp : p ∈ logContainers h (.ptr p) ++ path h [] request :=
        List.mem_append_left _ mem_logContainers
      have hcell' := (cells_restored g hp).trans hcell
      have hlength : l.length = plan.target + (plan.frozen.length - plan.target) := by
        rw [haccepted.length_eq, List.length_map]
        rw [List.length_map] at hle
        omega
      refine hlogKept.truncated (truncated_of_within hcell' (fun c hc => ?_) hlength)
      have hdict := (hitems c (List.mem_of_mem_take hc)).mono fun q hq =>
        (⟨List.mem_append_left (path h [] request) hq.1, hq.2⟩ :
          q ∈ logContainers h (.ptr p) ++ path h [] request ∧ IsDict h q)
      have hlive := live_items hclosed hlog hcell c (List.mem_of_mem_take hc)
      exact (tree_restored hclosed hlive hgrows hdict hcell).mono fun q hq => hq.2

/-! ### Crash resume -/

theorem resume_cases (sha : Sha256) (o : Oracle (List Value)) (log request : Handle) (h : Objects) :
    (∃ e, resume sha o log request h = (.error e, h)) ∨
    ∃ p l plan g, log = .ptr p ∧ h.cells p = .list l ∧
      CrashResume.plan sha (.list (l.map (entryValue h))) (value h 1 request) = .ok plan ∧
      h.next ≤ g.next ∧
      ((∃ e, resume sha o log request h = (.error e,
          restore (capture h (reach h (CrashResume.maxDepth + 1) log ++
            reach h (CrashResume.maxDepth + 1) request)) g)) ∨
        ∃ token, resume sha o log request h = (.ok (plan.receipt sha token),
          truncate plan.kept log
            (restore (capture h (reach h (CrashResume.maxDepth + 1) log ++
              reach h (CrashResume.maxDepth + 1) request)) g))) := by
  unfold resume
  cases hplan : CrashResume.plan sha (logValue h log) (value h 1 request) with
  | error err => exact .inl ⟨err, rfl⟩
  | ok plan =>
    unfold logValue at hplan
    cases hlog : value h 1 log with
    | list entries =>
      obtain ⟨p, l, rfl, hcell, -⟩ := ptr_of_list hlog
      simp only [hlog, items_ptr hcell] at hplan
      refine .inr ⟨p, l, plan, _, rfl, hcell, hplan, o.grows 0 plan.tail h, ?_⟩
      cases htoken : plan.token sha (o.call 0 plan.tail h).1 with
      | error err => exact .inl ⟨err, by simp only [htoken]⟩
      | ok token => exact .inr ⟨token, by simp only [htoken]⟩
    | _ =>
      simp only [hlog] at hplan
      cases hplan

/-- After a resume that fails, log and request have their old values; one that
succeeds keeps and removes as many entries as it reports. -/
def ResumeAtomic (sha : Sha256) (o : Oracle (List Value)) (log request : Handle) (h : Objects) :
    Prop :=
  Kept h (resume sha o log request h).2 request ∧
    match (resume sha o log request h).1 with
    | .error _ => Kept h (resume sha o log request h).2 log
    | .ok r =>
      Truncated h (resume sha o log request h).2 log r.resumedCount r.discardedCount

theorem of_isCanonicalJson (hr : CrashResume.isCanonicalJson (entryValue h r) = true) :
    entryValue h r = value h CrashResume.maxDepth r ∧
      h.Within (· ∈ reach h CrashResume.maxDepth r) r := by
  unfold entryValue at hr ⊢
  split_ifs at hr ⊢ with hdistinct
  · exact ⟨rfl, within_admissible hr⟩
  · cases hr

theorem resume_atomic (o : Oracle (List Value)) (hclosed : h.Closed) (hlog : h.Live log)
    (hrequest : h.Live request) : ResumeAtomic sha o log request h := by
  unfold ResumeAtomic
  obtain ⟨e, hresume⟩ | ⟨p, l, plan, g, rfl, hcell, hplan, hgrows, hrun⟩ :=
    resume_cases sha o log request h
  · rw [hresume]
    exact ⟨.refl, .refl⟩
  · obtain ⟨⟨checkpoint, hnumber⟩, hle, htail, hcanonical, es, haccepted⟩ :=
      Recovery.accepted_of_resumePlan hplan
    generalize haddrs : reach h (CrashResume.maxDepth + 1) (.ptr p) ++
      reach h (CrashResume.maxDepth + 1) request = addrs at hrun
    have hadmitted : ∀ c ∈ l, entryValue h c = value h CrashResume.maxDepth c ∧
        h.Within (· ∈ reach h CrashResume.maxDepth c) c := fun c hc =>
      of_isCanonicalJson (hcanonical _ (List.mem_map_of_mem hc))
    have hp : p ∈ addrs := by
      rw [← haddrs]
      exact List.mem_append_left _ List.mem_cons_self
    have htree : h.Within (· ∈ addrs) (.ptr p) := by
      refine within_list hcell hp fun c hc => (hadmitted c hc).2.mono fun q hq => ?_
      rw [← haddrs, reach, hcell]
      exact List.mem_append_left _ (List.mem_cons_of_mem _ (List.mem_flatMap.mpr ⟨c, hc, hq⟩))
    have hdicts : h.Within (fun q => q ∈ addrs ∧ IsDict h q) request := by
      refine within_number (d := 0) hnumber fun q hq hdict => ⟨?_, hdict⟩
      rw [← haddrs, mem_path_nil.mp hq]
      exact List.mem_append_right _ List.mem_cons_self
    have hkept := kept_restored g (hdicts.mono fun q hq => hq.1)
    obtain ⟨e, hresume⟩ | ⟨token, hresume⟩ := hrun
    · rw [hresume]
      exact ⟨hkept, kept_restored g htree⟩
    · rw [hresume]
      have hapart := tree_restored hclosed hrequest hgrows hdicts hcell
      refine ⟨hkept.trans (kept_truncate (hapart.mono fun q hq => hq.2)), ?_⟩
      have hcell' := (cells_restored g hp).trans hcell
      have hlength : l.length = plan.kept + plan.tail.length := by
        rw [List.length_map] at hle
        rw [htail, List.length_drop, List.length_map]
        omega
      refine (kept_restored g htree).truncated
        (truncated_of_within hcell' (fun c hc => ?_) hlength)
      have hvalues : (l.map (entryValue h)).take plan.kept =
          (l.take plan.kept).map (value h (61 + 3)) := by
        rw [← List.map_take]
        exact List.map_congr_left fun c hc => (hadmitted c (List.mem_of_mem_take hc)).1
      have hvalidated := haccepted.validated
      rw [hvalues] at hvalidated
      have hdict := within_entries hvalidated (fun q _ hdict => hdict) c hc
      have hlive := live_items hclosed hlog hcell c (List.mem_of_mem_take hc)
      have hcaptured := ((htree.child hcell c (List.mem_of_mem_take hc)).and hdict)
      exact (tree_restored hclosed hlive hgrows hcaptured hcell).mono fun q hq => hq.2

/-! ### Keyed appends -/

/-- What `apply` captures. -/
def applyContainers (h : Objects) (log ledger request : Handle) : List ℕ :=
  logContainers h log ++ ledgerContainers h ledger ++ path h recordPath request

theorem apply_cases (sha : Sha256) (o : Oracle Wal.Request) (log ledger request : Handle) (h : Objects) :
    (∃ e, apply sha o log ledger request h = (.error e, h)) ∨
    ∃ p q l rs g, ∃ plan : Idempotency.Plan, log = .ptr p ∧ ledger = .ptr q ∧ h.cells p = .list l ∧
      h.cells q = .list rs ∧
      Idempotency.validateRequest sha (value h 3 request) = some plan.request ∧
      Wal.Accepted sha Wal.canonicalPayload (l.map (value h 3)) plan.log ∧
      Idempotency.validateReceipts sha plan.log [] 0 (rs.map (value h 3)) = some plan.ledger ∧
      h.next ≤ g.next ∧
      ((∃ e, apply sha o log ledger request h = (.error e,
          restore (capture h (applyContainers h log ledger request)) g)) ∨
        (∃ r, apply sha o log ledger request h = (.ok ⟨.replayed, r⟩,
          restore (capture h (applyContainers h log ledger request)) g)) ∨
        ∃ r staged,
          plan.settle sha (o.call 0 plan.request.operation h).1 = .ok (r, some staged) ∧
          apply sha o log ledger request h = (.ok ⟨.applied, r⟩, pushReceipt ledger r
            (pushEntry log staged
              (restore (capture h (applyContainers h log ledger request)) g)))) := by
  unfold apply
  cases hplan : Idempotency.plan sha (value h 4 log) (value h 4 ledger) (value h 3 request) with
  | error err => exact .inl ⟨_, rfl⟩
  | ok plan =>
    obtain ⟨entries, receipts, hlog, hledger, hrequest, haccepted, hreceipts⟩ :=
      Idempotency.of_plan hplan
    obtain ⟨p, l, rfl, hcell, rfl⟩ := ptr_of_list hlog
    obtain ⟨q, rs, rfl, hcell', rfl⟩ := ptr_of_list hledger
    refine .inr ⟨p, q, l, rs, _, plan, rfl, rfl, hcell, hcell', hrequest, haccepted, hreceipts,
      o.grows 0 plan.request.operation h, ?_⟩
    cases hsettle : plan.settle sha (o.call 0 plan.request.operation h).1 with
    | error err => exact .inl ⟨err, by simp only [hsettle, applyContainers]⟩
    | ok out =>
      obtain ⟨r, staged⟩ := out
      cases staged with
      | none => exact .inr (.inl ⟨r, by simp only [hsettle, applyContainers]⟩)
      | some staged => exact .inr (.inr ⟨r, staged, rfl, by simp only [hsettle, applyContainers]⟩)

theorem mem_ledgerContainers : p ∈ ledgerContainers h (.ptr p) :=
  List.mem_append_left _ (mem_path_nil.mpr rfl)

theorem within_ledger {rs : List Idempotency.Receipt} (hcell : h.cells p = .list l)
    (hrs : Idempotency.validateReceipts sha es [] 0 (l.map (value h 3)) = some rs) :
    (∀ c ∈ l, h.Within (fun q => q ∈ ledgerContainers h (.ptr p) ∧ IsDict h q) c) ∧
      h.Within (· ∈ ledgerContainers h (.ptr p)) (.ptr p) := by
  have hitems : ∀ c ∈ l, h.Within (fun q => q ∈ ledgerContainers h (.ptr p) ∧ IsDict h q) c := by
    refine within_receipts (d := 2) hrs fun q hq hdict => ⟨?_, hdict⟩
    rw [ledgerContainers, items_ptr hcell]
    exact List.mem_append_right _ hq
  exact ⟨hitems, within_list hcell mem_ledgerContainers fun c hc =>
    (hitems c hc).mono fun q hq => hq.1⟩

/-- After a keyed append that fails or replays, log, ledger and request have their old
values; one that applies leaves its receipt and the entry that the receipt names. -/
def ApplyAtomic (sha : Sha256) (o : Oracle Wal.Request) (log ledger request : Handle)
    (h : Objects) : Prop :=
  Kept h (apply sha o log ledger request h).2 request ∧
    match (apply sha o log ledger request h).1 with
    | .error _ => Kept h (apply sha o log ledger request h).2 log ∧
      Kept h (apply sha o log ledger request h).2 ledger
    | .ok ⟨.replayed, _⟩ => Kept h (apply sha o log ledger request h).2 log ∧
      Kept h (apply sha o log ledger request h).2 ledger
    | .ok ⟨.applied, r⟩ =>
      (∃ e : Entry, e.entryId = r.entryId ∧ e.sequence = r.sequence ∧
        Appended h (apply sha o log ledger request h).2 log e.toValue) ∧
      Appended h (apply sha o log ledger request h).2 ledger r.toValue

/-- Log and ledger are the same empty list, the request is accepted, and the answer is
its fingerprint. -/
def Shared (sha : Sha256) (o : Oracle Wal.Request) (log ledger request : Handle) (h : Objects) :
    Prop :=
  (∃ p, log = .ptr p ∧ ledger = .ptr p ∧ h.cells p = .list []) ∧
    ∃ q, Idempotency.validateRequest sha (value h 3 request) = some q ∧
      (o.call 0 q.operation h).1 = Idempotency.honest sha q.operation

theorem apply_atomic (o : Oracle Wal.Request) (hclosed : h.Closed) (hlog : h.Live log)
    (hledger : h.Live ledger) (hrequest : h.Live request)
    (hshared : ¬ Shared sha o log ledger request h) :
    ApplyAtomic sha o log ledger request h := by
  unfold ApplyAtomic
  obtain ⟨e, happly⟩ | ⟨p, q, l, rs, g, plan, rfl, rfl, hcell, hcell', hplan, haccepted,
    hreceipts, hgrows, hrun⟩ := apply_cases sha o log ledger request h
  · rw [happly]
    exact ⟨.refl, .refl, .refl⟩
  · obtain ⟨hitems, htree⟩ := within_log hcell haccepted.validated
    obtain ⟨hitems', htree'⟩ := within_ledger hcell' hreceipts
    generalize haddrs : applyContainers h (.ptr p) (.ptr q) request = addrs at hrun
    have hlogAddrs : ∀ a ∈ logContainers h (.ptr p), a ∈ addrs := by
      intro a ha
      rw [← haddrs]
      exact List.mem_append_left _ (List.mem_append_left _ ha)
    have hledgerAddrs : ∀ a ∈ ledgerContainers h (.ptr q), a ∈ addrs := by
      intro a ha
      rw [← haddrs]
      exact List.mem_append_left _ (List.mem_append_right _ ha)
    have hdicts : h.Within (fun a => a ∈ addrs ∧ IsDict h a) request := by
      refine within_keyed (d := 0) hplan fun a ha hdict => ⟨?_, hdict⟩
      rw [← haddrs]
      exact List.mem_append_right _ ha
    have hkept := kept_restored g (hdicts.mono fun a ha => ha.1)
    have hlogKept := kept_restored g (htree.mono hlogAddrs)
    have hledgerKept := kept_restored g (htree'.mono hledgerAddrs)
    obtain ⟨e, happly⟩ | ⟨r, happly⟩ | ⟨r, staged, hsettle, happly⟩ := hrun
    · rw [happly]
      exact ⟨hkept, hlogKept, hledgerKept⟩
    · rw [happly]
      exact ⟨hkept, hlogKept, hledgerKept⟩
    · rw [happly]
      obtain ⟨hanswer, hnames⟩ := Idempotency.of_settle hsettle
      have hne : q ≠ p := by
        intro heq
        subst heq
        obtain rfl := Cell.list.inj (hcell.symm.trans hcell')
        cases l with
        | nil => exact hshared ⟨⟨q, rfl, rfl, hcell⟩, plan.request, hplan, hanswer⟩
        | cons c l =>
          obtain ⟨e, _, hentry, -, -⟩ := Wal.validateFrom_cons_eq_ok.mp haccepted.validated
          obtain ⟨r, _, hreceipt, -, -⟩ := Idempotency.validateReceipts_cons.mp hreceipts
          exact Idempotency.not_entry_of_receipt hentry hreceipt
      have hp : p < (restore (capture h addrs) g).next := by
        rw [Heap.next_restore]
        exact hlog.trans_le hgrows
      have hq : q < (restore (capture h addrs) g).next := by
        rw [Heap.next_restore]
        exact hledger.trans_le hgrows
      have hcell₁ := (cells_restored g (hlogAddrs p mem_logContainers)).trans hcell
      have hcell₁' := (cells_restored g (hledgerAddrs q mem_ledgerContainers)).trans hcell'
      have hapart : ∀ c, h.Live c → h.Within (fun a => a ∈ addrs ∧ IsDict h a) c →
          (restore (capture h addrs) g).Within
            (fun a => a < (restore (capture h addrs) g).next ∧ a ≠ p ∧ a ≠ q) c := by
        intro c hlive hdict
        have hboth := (tree_restored hclosed hlive hgrows hdict hcell).and
          (tree_restored hclosed hlive hgrows hdict hcell')
        exact hboth.mono fun a ha => ⟨ha.1.1, ha.1.2, ha.2.2⟩
      have hfirst := pushed_entry hp hcell₁ staged
      have hsecond := pushed_receipt (hq.trans_le hfirst.grows)
        ((hfirst.frame q hq hne).trans hcell₁') r
      obtain ⟨hentry, hreceipt⟩ := hfirst.appended_both hsecond hp hq hne hcell₁ hcell₁'
        (fun c hc => hapart c (live_items hclosed hlog hcell c hc)
          ((hitems c hc).mono fun a ha => ⟨hlogAddrs a ha.1, ha.2⟩))
        (fun c hc => hapart c (live_items hclosed hledger hcell' c hc)
          ((hitems' c hc).mono fun a ha => ⟨hledgerAddrs a ha.1, ha.2⟩))
      obtain ⟨hid, hsequence⟩ := hnames staged rfl
      exact ⟨hkept.trans (hfirst.kept_both hsecond (hapart request hrequest hdicts)),
        ⟨staged, hid, hsequence, hlogKept.appended hentry⟩, hledgerKept.appended hreceipt⟩

theorem not_apply_atomic (o : Oracle Wal.Request) (hlog : h.Live log)
    (hshared : Shared sha o log ledger request h) : ¬ ApplyAtomic sha o log ledger request h := by
  obtain ⟨⟨p, rfl, rfl, hcell⟩, q, hrequest, hanswer⟩ := hshared
  have hvalue : value h 4 (.ptr p) = .list [] := value_list hcell
  obtain ⟨r, e, hsettle⟩ := Idempotency.settle_empty hrequest
  rw [← hanswer] at hsettle
  have hrun : apply sha o (.ptr p) (.ptr p) request h = (.ok ⟨.applied, r⟩,
      pushReceipt (.ptr p) r (pushEntry (.ptr p) e
        (restore (capture h (applyContainers h (.ptr p) (.ptr p) request))
          (o.call 0 q.operation h).2))) := by
    unfold apply
    simp only [hvalue, Idempotency.plan_empty hrequest, hsettle, applyContainers]
  have hp : p < (restore (capture h (applyContainers h (.ptr p) (.ptr p) request))
      (o.call 0 q.operation h).2).next := by
    rw [Heap.next_restore]
    exact lt_of_lt_of_le hlog (o.grows 0 q.operation h)
  have hmem : p ∈ applyContainers h (.ptr p) (.ptr p) request :=
    List.mem_append_left _ (List.mem_append_left _ mem_logContainers)
  have hcell₁ := (cells_restored (o.call 0 q.operation h).2 hmem).trans hcell
  have hfirst := pushed_entry hp hcell₁ e
  obtain ⟨c, hcell₂, -⟩ := hfirst.item [] hcell₁
  obtain ⟨c', hcell₃, -⟩ :=
    (pushed_receipt (hp.trans_le hfirst.grows) hcell₂ r).item _ hcell₂
  intro hatomic
  unfold ApplyAtomic at hatomic
  rw [hrun] at hatomic
  obtain ⟨-, -, hledger⟩ := hatomic
  obtain ⟨vs, hold, hnew⟩ := hledger 3 (le_refl _)
  rw [hvalue] at hold
  obtain rfl := Value.list.inj hold
  rw [value_list hcell₃] at hnew
  have hlength := congrArg List.length (Value.list.inj hnew)
  simp at hlength

/-! ### The engines on values -/

/-- A live pass over the ids is the pass on values, with the answers given on the way
and any further answer after them. -/
theorem rederive_answers (sha : Sha256) (o : Oracle (Text × Record)) (n : ℕ)
    (es : List Entry) (h : Objects)
    (last : Wal.Canonicalizer) : ∃ calls,
      (rederive sha o n es h).1 = Wal.rederive sha calls es ∧ calls es.length = last := by
  induction es generalizing n h with
  | nil => exact ⟨fun _ => last, rfl, rfl⟩
  | cons e es ih =>
    obtain ⟨calls, hcalls, hlast⟩ := ih (n + 1) (o.call n (e.identity, e.record) h).2
    refine ⟨fun m => Nat.casesOn m (fun _ _ => (o.call n (e.identity, e.record) h).1) calls, ?_,
      hlast⟩
    rw [rederive, Wal.rederive]
    simp only [canonicalize]
    cases hcanonical : Wal.canonicalize (fun _ _ => (o.call n (e.identity, e.record) h).1)
        e.identity e.record with
    | error err => rfl
    | ok canonical =>
      simp only
      split_ifs
      · rfl
      · exact hcalls

theorem append_answers (o : Oracle (Text × Record)) (log request : Handle) (h : Objects) :
    ∃ calls, (append sha o log request h).1 =
      (Wal.append sha calls (value h 4 log) (value h 3 request)).map Prod.snd := by
  unfold append Wal.append
  cases hlog : value h 4 log with
  | list entries =>
    cases hrequest : Wal.validateRequest sha (value h 3 request) with
    | error err => exact ⟨fun _ _ _ => none, rfl⟩
    | ok q =>
      cases hes : Wal.validateLog sha entries with
      | error err => exact ⟨fun _ _ _ => none, by simp only [hes]; rfl⟩
      | ok es =>
        obtain ⟨calls, hcalls, hlast⟩ := rederive_answers sha o 0 es h
          fun _ _ => (o.call es.length (q.identity, q.record) (rederive sha o 0 es h).2).1
        refine ⟨calls, ?_⟩
        have hstage : (stage sha o es q h).1 = Wal.stage sha calls es q := by
          unfold stage Wal.stage
          rw [← hcalls, hlast]
          cases hrun : rederive sha o 0 es h with
          | mk out h₁ =>
            cases out with
            | error err => rfl
            | ok =>
              simp only [canonicalize]
              cases Wal.canonicalize (fun _ _ => (o.call es.length (q.identity, q.record) h₁).1)
                q.identity q.record with
              | error err => rfl
              | ok canonical => rfl
        simp only [hes, ← hstage]
        cases hrun : stage sha o es q h with
        | mk out h₁ =>
          cases out with
          | error err => rfl
          | ok staged => rfl
  | _ => exact ⟨fun _ _ _ => none, rfl⟩

theorem rollback_answers (o : Oracle (List Entry)) (log request : Handle) (h : Objects) :
    (rollback sha o log request h).1 = (Rollback.rollback sha (fun tail => (o.call 0 tail h).1)
      (value h 4 log) (value h 1 request)).map Prod.snd := by
  unfold rollback Rollback.rollback
  cases Rollback.plan sha (value h 4 log) (value h 1 request) with
  | error err => rfl
  | ok plan =>
    simp only
    cases plan.token sha (o.call 0 plan.tail h).1 with
    | error err => rfl
    | ok token => rfl

theorem resume_answers (o : Oracle (List Value)) (log request : Handle) (h : Objects) :
    (resume sha o log request h).1 = (CrashResume.resume sha (fun tail => (o.call 0 tail h).1)
      (logValue h log) (value h 1 request)).map Prod.snd := by
  unfold resume CrashResume.resume
  cases CrashResume.plan sha (logValue h log) (value h 1 request) with
  | error err => rfl
  | ok plan =>
    simp only
    cases plan.token sha (o.call 0 plan.tail h).1 with
    | error err => rfl
    | ok token => rfl

theorem apply_answers (o : Oracle Wal.Request) (log ledger request : Handle) (h : Objects) :
    (apply sha o log ledger request h).1 =
      (Idempotency.apply sha (fun q => (o.call 0 q h).1) (value h 4 log) (value h 4 ledger)
        (value h 3 request)).map fun out => out.2.2 := by
  unfold apply Idempotency.apply
  cases Idempotency.plan sha (value h 4 log) (value h 4 ledger) (value h 3 request) with
  | error err => rfl
  | ok plan =>
    simp only
    cases plan.settle sha (o.call 0 plan.request.operation h).1 with
    | error err => rfl
    | ok out =>
      obtain ⟨r, staged⟩ := out
      cases staged with
      | none => rfl
      | some staged => rfl

/-! ### All operations -/

inductive Call
  | append (o : Oracle (Text × Record)) (log request : Handle)
  | rollback (o : Oracle (List Entry)) (log request : Handle)
  | resume (o : Oracle (List Value)) (log request : Handle)
  | apply (o : Oracle Wal.Request) (log ledger request : Handle)

/-- The arguments of the call exist. -/
def Call.Allocated (h : Objects) : Call → Prop
  | .append _ log request => h.Live log ∧ h.Live request
  | .rollback _ log request => h.Live log ∧ h.Live request
  | .resume _ log request => h.Live log ∧ h.Live request
  | .apply _ log ledger request => h.Live log ∧ h.Live ledger ∧ h.Live request

/-- The call leaves what its outcome says. -/
def Call.Atomic (sha : Sha256) (h : Objects) : Call → Prop
  | .append o log request => AppendAtomic sha o log request h
  | .rollback o log request => RollbackAtomic sha o log request h
  | .resume o log request => ResumeAtomic sha o log request h
  | .apply o log ledger request => ApplyAtomic sha o log ledger request h

/-- A keyed append to an empty log that is its own ledger, accepted and answered
honestly. -/
def Call.Shared (sha : Sha256) (h : Objects) : Call → Prop
  | .apply o log ledger request => Live.Shared sha o log ledger request h
  | _ => False

/-- A call leaves what its outcome says unless it is a keyed append to an empty log
that is its own ledger. -/
theorem atomic_iff (sha : Sha256) (h : Objects) (hclosed : h.Closed) (call : Call)
    (hlive : call.Allocated h) : call.Atomic sha h ↔ ¬ call.Shared sha h := by
  cases call with
  | append o log request =>
    exact iff_of_true (append_atomic o hclosed hlive.1 hlive.2) not_false
  | rollback o log request =>
    exact iff_of_true (rollback_atomic o hclosed hlive.1 hlive.2) not_false
  | resume o log request =>
    exact iff_of_true (resume_atomic o hclosed hlive.1 hlive.2) not_false
  | apply o log ledger request =>
    obtain ⟨hlog, hledger, hrequest⟩ := hlive
    constructor
    · intro hatomic hshared
      exact not_apply_atomic o hlog hshared hatomic
    · exact apply_atomic o hclosed hlog hledger hrequest

/-- A keyed put of the bare kings, between two empty lists. -/
def bareObjects (sha : Sha256) : Objects :=
  (((((⟨fun _ => .list [], 0⟩ : Objects).alloc (.list [])).alloc
    (dict Node.recordFields [text (Node.bareRecord sha .white).variant,
      text (Node.bareRecord sha .white).digest, text (Node.bareRecord sha .white).snapshotFen])).alloc
    (dict Wal.payloadFields [text (Node.bareKey .white), .ptr 1])).alloc
    (dict Idempotency.requestFields [text "k".toList, text Wal.Op.put.text, .ptr 2])).alloc
    (.list [])

/-- An oracle that gives this answer and empties every container. -/
def wiping {A : Type} (answer : A → Option Value) : Oracle A where
  call _ a h := (answer a, ⟨fun _ => .list [], h.next⟩)
  grows _ _ _ := le_refl _

theorem closed_bareObjects (sha : Sha256) : (bareObjects sha).Closed := by
  intro p hp c hc
  have hcases : p = 0 ∨ p = 1 ∨ p = 2 ∨ p = 3 ∨ p = 4 := by
    have hnext : (bareObjects sha).next = 5 := rfl
    omega
  obtain rfl | rfl | rfl | rfl | rfl := hcases
  · cases hc
  · have hmem := @children_dict c Node.recordFields _ hc
    simp only [text, List.mem_cons, List.not_mem_nil, or_false] at hmem
    obtain rfl | rfl | rfl := hmem <;> trivial
  · have hmem := @children_dict c Wal.payloadFields _ hc
    simp only [text, List.mem_cons, List.not_mem_nil, or_false] at hmem
    obtain rfl | rfl := hmem
    · trivial
    · exact (by decide : 1 < 5)
  · have hmem := @children_dict c Idempotency.requestFields _ hc
    simp only [text, List.mem_cons, List.not_mem_nil, or_false] at hmem
    obtain rfl | rfl | rfl := hmem
    · trivial
    · trivial
    · exact (by decide : 2 < 5)
  · cases hc

theorem validateRequest_bareObjects (sha : Sha256) :
    Idempotency.validateRequest sha (value (bareObjects sha) 3 (.ptr 3)) =
      some ⟨"k".toList, Wal.bareRequest sha⟩ := by
  have hvalue : value (bareObjects sha) 3 (.ptr 3) = .object Idempotency.requestFields
      [.str "k".toList, .str Wal.Op.put.text,
        Wal.payloadValue (Node.bareKey .white) (Node.bareRecord sha .white)] := by
    have hrecord : (bareObjects sha).cells 1 = dict Node.recordFields
        [text (Node.bareRecord sha .white).variant, text (Node.bareRecord sha .white).digest,
          text (Node.bareRecord sha .white).snapshotFen] := rfl
    have hpayload : (bareObjects sha).cells 2 =
        dict Wal.payloadFields [text (Node.bareKey .white), .ptr 1] := rfl
    have hrequest : (bareObjects sha).cells 3 = dict Idempotency.requestFields
        [text "k".toList, text Wal.Op.put.text, .ptr 2] := rfl
    rw [value_object hrequest]
    simp only [List.map_cons, List.map_nil, text, value_atom, value_object hpayload,
      value_object hrecord]
    rfl
  have hkey : Idempotency.validKey "k".toList = true := by decide
  rw [hvalue]
  exact Idempotency.validateRequest_object hkey (q := Wal.bareRequest sha)
    (Node.linked_bareRecord sha .white)

/-- The log of the bare request, given as its own ledger, gets two items. -/
theorem shared_not_atomic :
    (bareObjects (.lengths 64)).Closed ∧
    (Call.apply (wiping (Idempotency.honest (.lengths 64))) (.ptr 0) (.ptr 0) (.ptr 3)).Allocated
      (bareObjects (.lengths 64)) ∧
    ¬ (Call.apply (wiping (Idempotency.honest (.lengths 64))) (.ptr 0) (.ptr 0) (.ptr 3)).Atomic
      (.lengths 64) (bareObjects (.lengths 64)) := by
  have hlive : (bareObjects (.lengths 64)).Live (.ptr 0) := (by decide : 0 < 5)
  have hrequest : (bareObjects (.lengths 64)).Live (.ptr 3) := (by decide : 3 < 5)
  refine ⟨closed_bareObjects _, ⟨hlive, hlive, hrequest⟩, ?_⟩
  exact not_apply_atomic _ hlive
    ⟨⟨0, rfl, rfl, rfl⟩, _, validateRequest_bareObjects (.lengths 64), rfl⟩

/-- With a ledger of its own the append is atomic, though the oracle empties every
container. -/
theorem atomic_iff_bareObjects :
    (Call.apply (wiping (Idempotency.honest (.lengths 64))) (.ptr 0) (.ptr 4) (.ptr 3)).Atomic
      (.lengths 64) (bareObjects (.lengths 64)) := by
  have hlive : (Call.apply (wiping (Idempotency.honest (.lengths 64))) (.ptr 0) (.ptr 4)
      (.ptr 3)).Allocated (bareObjects (.lengths 64)) :=
    ⟨(by decide : 0 < 5), (by decide : 4 < 5), (by decide : 3 < 5)⟩
  refine (atomic_iff (.lengths 64) _ (closed_bareObjects _) _ hlive).mpr fun hshared => ?_
  obtain ⟨⟨p, hlog, hledger, -⟩, -⟩ := hshared
  rw [← hlog] at hledger
  cases hledger

end Live
end OpenChess
