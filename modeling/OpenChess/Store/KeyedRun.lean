import OpenChess.Store.Idempotency

/-!
# Ledgers of a log

A ledger is validated when every receipt names the entry at its sequence number and
rederives from it, the keys are distinct and the sequence numbers increase. Such a
ledger stays one when the log grows, and when a receipt of the new entry is added
under a fresh key.
-/

namespace OpenChess
namespace Idempotency

open PositionDigest (Sha256)
open Wal (Entry canonicalPayload)

variable {sha : Sha256} {v log ledger request : Value} {q : Request} {e : Entry} {r : Receipt}
  {es fs : List Entry} {rs : List Receipt} {seen : List Text} {last : ℕ} {key : Text}

/-- What validation establishes of one receipt. -/
structure Fits (sha : Sha256) (es : List Entry) (r : Receipt) : Prop where
  key : validKey r.idempotencyKey = true
  entryId : Wal.entryGrammar r.entryId = true
  receiptId : r.receiptId =
    deriveReceiptId sha r.idempotencyKey r.requestFingerprint r.entryId r.sequence
  positive : 0 < r.sequence
  entry : ∃ e, es[r.sequence - 1]? = some e ∧ e.entryId = r.entryId ∧
    requestFingerprint sha e.op e.identity e.record = r.requestFingerprint

theorem Fits.sequence_le (h : Fits sha es r) : r.sequence ≤ es.length := by
  obtain ⟨e, he, -⟩ := h.entry
  obtain ⟨hlt, -⟩ := List.getElem?_eq_some_iff.mp he
  omega

theorem Fits.grow (h : Fits sha es r) (fs : List Entry) : Fits sha (es ++ fs) r := by
  obtain ⟨e, he, hsame⟩ := h.entry
  obtain ⟨hlt, -⟩ := List.getElem?_eq_some_iff.mp he
  exact { h with entry := ⟨e, by rw [List.getElem?_append_left hlt, he], hsame⟩ }

theorem of_validateReceipt (h : validateReceipt sha es seen last v = some r) :
    Fits sha es r ∧ last < r.sequence ∧ r.idempotencyKey ∉ seen ∧
      v.fields? receiptFields = some [.str r.receiptId, .str r.idempotencyKey,
        .str r.requestFingerprint, .str r.entryId, .int r.sequence] := by
  unfold validateReceipt at h
  split at h
  · rename_i rid key token entryId sequence hfields
    split_ifs at h with hgrammar hrange hseen hrid
    split at h
    · cases h
    · rename_i e he
      split_ifs at h with hentry
      obtain rfl := Option.some.inj h
      simp only [not_or, Bool.not_eq_false, not_not] at hgrammar hentry hrid
      have hpositive : 0 < sequence.toNat := by omega
      have hsequence : ((sequence.toNat : ℕ) : ℤ) = sequence := by omega
      refine ⟨⟨hgrammar.1, hgrammar.2.2.1, hrid, hpositive, e, he, hentry⟩, ?_, hseen, ?_⟩
      · change last < sequence.toNat
        omega
      · change _ = some [_, _, _, _, Value.int (sequence.toNat : ℤ)]
        rw [hsequence]
        exact hfields
  · cases h

theorem Fits.validateReceipt (h : Fits sha es r) (hlast : last < r.sequence)
    (hseen : r.idempotencyKey ∉ seen) :
    Idempotency.validateReceipt sha es seen last r.toValue = some r := by
  have hnodup : receiptFields.Nodup := by decide
  obtain ⟨e, he, hid, htoken⟩ := h.entry
  have hgrammar : tokenGrammar r.requestFingerprint = true := by
    rw [← htoken]
    exact sha.tagged _ _
  have hreceipt : receiptGrammar r.receiptId = true := by
    rw [h.receiptId]
    exact sha.tagged _ _
  have hrange : ¬ ((r.sequence : ℤ) ≤ last ∨ (es.length : ℤ) < r.sequence) := by
    have hle := h.sequence_le
    omega
  unfold Idempotency.validateReceipt Receipt.toValue
  rw [Value.fields?_object hnodup rfl]
  simp only [h.key, hgrammar, h.entryId, hreceipt, Bool.true_eq_false, or_self, if_false, hrange,
    hseen, Int.toNat_natCast, ← h.receiptId, ne_eq, not_true_eq_false, he, hid, htoken]

/-- A ledger of the log. -/
structure Ledger (sha : Sha256) (es : List Entry) (rs : List Receipt) : Prop where
  fits : ∀ r ∈ rs, Fits sha es r
  keys : (rs.map Receipt.idempotencyKey).Nodup
  increasing : (rs.map Receipt.sequence).Pairwise (· < ·)

theorem Ledger.nil : Ledger sha es [] :=
  ⟨(fun _ hr => by cases hr), List.nodup_nil, List.Pairwise.nil⟩

theorem Ledger.grow (h : Ledger sha es rs) (fs : List Entry) : Ledger sha (es ++ fs) rs :=
  { h with fits := fun r hr => (h.fits r hr).grow fs }

theorem Ledger.concat (h : Ledger sha es rs) (hr : Fits sha (es ++ [e]) r)
    (hlast : r.sequence = es.length + 1) (hkey : r.idempotencyKey ∉ rs.map Receipt.idempotencyKey) :
    Ledger sha (es ++ [e]) (rs ++ [r]) := by
  refine ⟨fun s hs => ?_, ?_, ?_⟩
  · rcases List.mem_append.mp hs with hs | hs
    · exact (h.fits s hs).grow [e]
    · rw [List.mem_singleton.mp hs]
      exact hr
  · rw [List.map_append, List.map_singleton]
    exact List.nodup_append.mpr ⟨h.keys, List.nodup_singleton _, fun a ha b hb hab =>
      hkey (by rwa [← List.mem_singleton.mp hb, ← hab])⟩
  · rw [List.map_append, List.map_singleton]
    refine List.pairwise_append.mpr ⟨h.increasing, List.pairwise_singleton _ _, fun a ha b hb => ?_⟩
    obtain ⟨s, hs, rfl⟩ := List.mem_map.mp ha
    rw [List.mem_singleton.mp hb, hlast]
    have hle := (h.fits s hs).sequence_le
    omega

/-- The receipt under a key of a ledger is the only one. -/
theorem Ledger.unique {r' : Receipt} (h : Ledger sha es rs) (hr : r ∈ rs) (hr' : r' ∈ rs)
    (hkey : r.idempotencyKey = r'.idempotencyKey) : r = r' :=
  List.inj_on_of_nodup_map h.keys hr hr' hkey

theorem validateReceipts_toValue (hfits : ∀ r ∈ rs, Fits sha es r)
    (hkeys : (rs.map Receipt.idempotencyKey).Nodup)
    (hincreasing : (rs.map Receipt.sequence).Pairwise (· < ·))
    (hseen : ∀ r ∈ rs, r.idempotencyKey ∉ seen) (hlast : ∀ r ∈ rs, last < r.sequence) :
    validateReceipts sha es seen last (rs.map Receipt.toValue) = some rs := by
  induction rs generalizing seen last with
  | nil => rfl
  | cons r rs ih =>
    rw [List.forall_mem_cons] at hfits hseen hlast
    rw [List.map_cons, List.nodup_cons] at hkeys
    rw [List.map_cons, List.pairwise_cons] at hincreasing
    have hfresh : ∀ s ∈ rs, s.idempotencyKey ∉ r.idempotencyKey :: seen := by
      intro s hs hmem
      rcases List.mem_cons.mp hmem with hmem | hmem
      · exact hkeys.1 (hmem ▸ List.mem_map_of_mem hs)
      · exact hseen.2 s hs hmem
    have hrest := ih hfits.2 hkeys.2 hincreasing.2 hfresh
      fun s hs => hincreasing.1 _ (List.mem_map_of_mem hs)
    exact validateReceipts_cons.mpr ⟨r, rs, hfits.1.validateReceipt hlast.1 hseen.1, hrest, rfl⟩

theorem Ledger.validateReceipts (h : Ledger sha es rs) :
    Idempotency.validateReceipts sha es [] 0 (rs.map Receipt.toValue) = some rs :=
  validateReceipts_toValue h.fits h.keys h.increasing (fun _ _ => List.not_mem_nil)
    fun r hr => (h.fits r hr).positive

end Idempotency
end OpenChess

/-!
## Runs of keyed appends

Keyed calls and direct appends write one log. Every key is written at most once: its
entry is the one its receipt names, and a call that repeats the key is answered with
that receipt or refused. A log that was cut below a receipt accepts no keyed call.
-/

namespace OpenChess
namespace Idempotency

open PositionDigest (Sha256)
open Wal (Accepted Entry canonicalPayload staged)

variable {sha : Sha256} {v request : Value} {q q' : Request} {e : Entry} {r : Receipt}
  {es fs : List Entry} {rs : List Receipt} {key : Text}

/-- A call of the engine, or an append by another writer of the log. -/
inductive Event
  | keyed (request : Value)
  | direct (request : Value)

/-- The log and the ledger of a run. Every entry has an author: the key of the call that
appended it, or none. The keys of the calls that returned are kept in order. -/
structure Trail where
  log : Value
  ledger : Value
  authors : List (Option Text)
  accepted : List Text

def Trail.start : Trail := ⟨.list [], .list [], [], []⟩

/-- `len(log)`. -/
def size : Value → ℕ
  | .list items => items.length
  | _ => 0

/-- The trail after a call that returned. -/
def Trail.write (s : Trail) (log ledger : Value) (author : Option Text) : Trail :=
  ⟨log, ledger, s.authors ++ List.replicate (size log - size s.log) author,
    s.accepted ++ author.toList⟩

/-- The trail after an event; a call that raises leaves it. -/
def Event.step (sha : Sha256) (s : Trail) : Event → Trail
  | .keyed request =>
    match validateRequest sha request with
    | none => s
    | some q =>
      match apply sha (honest sha) s.log s.ledger request with
      | .ok (log, ledger, _) => s.write log ledger (some q.key)
      | .error _ => s
  | .direct request =>
    match Wal.append sha (Wal.pure canonicalPayload) s.log request with
    | .ok (log, _) => s.write log s.ledger none
    | .error _ => s

def run (sha : Sha256) (events : List Event) : Trail := events.foldl (Event.step sha) .start

/-! ### The calls on a sound trail -/

/-- The text hashed for the fingerprint of a request. -/
def requestText (q : Wal.Request) : Text :=
  Separated.framed "idf1".toList
    [q.op.text, q.identity, q.record.variant, q.record.digest, q.record.snapshotFen]

def tokenOf (sha : Sha256) (q : Wal.Request) : Text :=
  requestFingerprint sha q.op q.identity q.record

theorem requestText_injective : Function.Injective requestText := by
  intro q q' h
  obtain ⟨op, k, ⟨v, d, t⟩⟩ := q
  obtain ⟨op', k', ⟨v', d', t'⟩⟩ := q'
  have hfields := Separated.framed_injective _ h
  simp only [List.cons.injEq, and_true] at hfields
  obtain ⟨hop, rfl, rfl, rfl, rfl⟩ := hfields
  have hregistered : Wal.opOf? op.text = Wal.opOf? op'.text := by rw [hop]
  rw [Wal.opOf?_text, Wal.opOf?_text] at hregistered
  rw [Option.some.inj hregistered]

theorem tokenOf_ne {q q' : Wal.Request} (hsha : sha.Separates (requestText q) (requestText q'))
    (h : q ≠ q') : tokenOf sha q ≠ tokenOf sha q' := by
  intro htoken
  have hhash : sha.hexdigest (requestText q) = sha.hexdigest (requestText q') :=
    List.append_cancel_left htoken
  exact h (requestText_injective (hsha hhash))

/-- The written log is accepted, and the ledger is a ledger of it with these receipts. -/
structure Written (sha : Sha256) (log ledger : Value) (es : List Entry) (rs : List Receipt) :
    Prop where
  log : log = .list (es.map Entry.toValue)
  accepted : Accepted sha canonicalPayload (es.map Entry.toValue) es
  ledger : ledger = .list (rs.map Receipt.toValue)
  receipts : Ledger sha es rs

variable {log ledger : Value}

theorem Written.plan (h : Written sha log ledger es rs)
    (hq : validateRequest sha request = some q) :
    Idempotency.plan sha log ledger request = .ok ⟨q, es, rs⟩ := by
  have hreplay := Wal.replay_list_eq_ok.mpr ⟨es, h.accepted, rfl⟩
  have hledger : validateLedger sha es (.list (rs.map Receipt.toValue)) = some rs :=
    h.receipts.validateReceipts
  rw [h.log, h.ledger]
  simp only [Idempotency.plan, hq, hreplay, h.accepted.validated, hledger]

/-- The receipt under the key of the request is the stored one. -/
theorem Ledger.stored (h : Ledger sha es rs) (hr : r ∈ rs) (hkey : r.idempotencyKey = q.key) :
    (Plan.mk q es rs).stored = some r := by
  unfold Plan.stored
  cases hfound : rs.reverse.find? (fun r => r.idempotencyKey == q.key) with
  | none =>
    have hnone := List.find?_eq_none.mp hfound r (List.mem_reverse.mpr hr)
    simp [hkey] at hnone
  | some s =>
    have hs := List.mem_reverse.mp (List.mem_of_find?_eq_some hfound)
    have hsame := List.find?_some hfound
    rw [beq_iff_eq, ← hkey] at hsame
    rw [h.unique hs hr hsame]

theorem stored_fresh (hkey : q.key ∉ rs.map Receipt.idempotencyKey) :
    (Plan.mk q es rs).stored = none := by
  apply List.find?_eq_none.mpr
  intro s hs hsame
  have hmem := List.mem_map_of_mem (f := Receipt.idempotencyKey) (List.mem_reverse.mp hs)
  rw [beq_iff_eq.mp hsame] at hmem
  exact hkey hmem

theorem Written.apply_used (h : Written sha log ledger es rs)
    (hq : validateRequest sha request = some q) (hr : r ∈ rs) (hkey : r.idempotencyKey = q.key) :
    apply sha (honest sha) log ledger request =
      if r.requestFingerprint ≠ tokenOf sha q.operation then
        .error (.idempotency .keyConflict)
      else .ok (log, ledger, ⟨.replayed, r⟩) := by
  unfold apply
  rw [h.plan hq]
  simp only [Plan.settle, fingerprint_honest, h.receipts.stored hr hkey]
  change _ = if r.requestFingerprint ≠ requestFingerprint sha q.operation.op q.operation.identity
    q.operation.record then _ else _
  split_ifs <;> rfl

def entryOf (sha : Sha256) (es : List Entry) (q : Request) : Entry :=
  staged sha canonicalPayload es q.operation

def issued (sha : Sha256) (es : List Entry) (q : Request) : Receipt :=
  receiptOf sha q.key (tokenOf sha q.operation) (entryOf sha es q)

theorem Written.apply_fresh (h : Written sha log ledger es rs)
    (hq : validateRequest sha request = some q)
    (hkey : q.key ∉ rs.map Receipt.idempotencyKey) :
    apply sha (honest sha) log ledger request =
      .ok (.list ((es ++ [entryOf sha es q]).map Entry.toValue),
        .list ((rs ++ [issued sha es q]).map Receipt.toValue), ⟨.applied, issued sha es q⟩) := by
  obtain ⟨payload, -, -, hpayload⟩ := of_validateRequest hq
  have hrequest := Wal.validateRequest_toValue (Wal.linked_of_validatePayload hpayload)
  have happend := Wal.append_eq_ok.mpr
    ⟨_, es, q.operation, rfl, h.accepted, hrequest, rfl, rfl⟩
  unfold Wal.Request.toValue at happend
  unfold apply
  rw [h.plan hq]
  simp only [Plan.settle, fingerprint_honest, stored_fresh hkey, happend, h.log, h.ledger, push,
    List.map_append, List.map_singleton]
  rfl

theorem Written.direct (h : Written sha log ledger es rs) {q : Wal.Request}
    (hq : Node.Linked sha q.identity q.record) :
    Written sha (.list ((es ++ [staged sha canonicalPayload es q]).map Entry.toValue)) ledger
      (es ++ [staged sha canonicalPayload es q]) rs := by
  refine ⟨rfl, ?_, h.ledger, h.receipts.grow _⟩
  rw [List.map_append, List.map_singleton]
  exact h.accepted.append hq

theorem fits_issued (hq : validateRequest sha request = some q) :
    Fits sha (es ++ [entryOf sha es q]) (issued sha es q) := by
  obtain ⟨payload, -, hkey, -⟩ := of_validateRequest hq
  refine ⟨hkey, sha.tagged _ _, rfl, Nat.succ_pos _, entryOf sha es q, ?_, rfl, rfl⟩
  change (es ++ [entryOf sha es q])[es.length + 1 - 1]? = _
  rw [Nat.add_sub_cancel, List.getElem?_concat_length]

theorem Written.keyed (h : Written sha log ledger es rs)
    (hq : validateRequest sha request = some q)
    (hkey : q.key ∉ rs.map Receipt.idempotencyKey) :
    Written sha (.list ((es ++ [entryOf sha es q]).map Entry.toValue))
      (.list ((rs ++ [issued sha es q]).map Receipt.toValue)) (es ++ [entryOf sha es q])
      (rs ++ [issued sha es q]) := by
  obtain ⟨payload, -, -, hpayload⟩ := of_validateRequest hq
  have hlinked := Wal.linked_of_validatePayload hpayload
  exact ⟨rfl, (h.direct hlinked).accepted, rfl, h.receipts.concat (fits_issued hq) rfl hkey⟩

/-! ### Sound trails -/

/-- The keys of the ledger are the keys of the accepted calls, and the author of an entry
is the key of the receipt that names it. -/
structure Sound (sha : Sha256) (s : Trail) (es : List Entry) (rs : List Receipt) : Prop where
  written : Written sha s.log s.ledger es rs
  length : s.authors.length = es.length
  authored : ∀ i key, s.authors[i]? = some (some key) ↔
    ∃ r ∈ rs, r.sequence = i + 1 ∧ r.idempotencyKey = key
  keys : ∀ key, key ∈ s.accepted ↔ key ∈ rs.map Receipt.idempotencyKey

theorem Sound.start (sha : Sha256) : Sound sha .start [] [] := by
  refine ⟨⟨rfl, Accepted.nil, rfl, Ledger.nil⟩, rfl, fun i key => ?_, fun key => Iff.rfl⟩
  simp [Trail.start]

theorem getElem?_concat_eq_some {α : Type} {l : List α} {a b : α} {i : ℕ} :
    (l ++ [a])[i]? = some b ↔ l[i]? = some b ∨ i = l.length ∧ a = b := by
  rcases Nat.lt_trichotomy i l.length with hi | rfl | hi
  · rw [List.getElem?_append_left hi]
    have hne : i ≠ l.length := Nat.ne_of_lt hi
    simp [hne]
  · simp
  · have hne : i ≠ l.length := Nat.ne_of_gt hi
    rw [List.getElem?_eq_none (by simp; omega), List.getElem?_eq_none (by omega)]
    simp [hne]

variable {s : Trail}

theorem Sound.size_log (h : Sound sha s es rs) : size s.log = es.length := by
  rw [h.written.log, size, List.length_map]

theorem Sound.write_used (h : Sound sha s es rs) (hkey : key ∈ rs.map Receipt.idempotencyKey) :
    Sound sha (s.write s.log s.ledger (some key)) es rs := by
  have hauthors : (s.write s.log s.ledger (some key)).authors = s.authors := by
    simp [Trail.write]
  refine ⟨h.written, by rw [hauthors, h.length], by rw [hauthors]; exact h.authored, fun k => ?_⟩
  change k ∈ s.accepted ++ [key] ↔ _
  rw [List.mem_append, List.mem_singleton, h.keys]
  constructor
  · intro hk
    rcases hk with hk | rfl
    · exact hk
    · exact hkey
  · exact .inl

theorem Sound.write_direct (h : Sound sha s es rs) {log : Value}
    (hwritten : Written sha log s.ledger (es ++ [e]) rs) :
    Sound sha (s.write log s.ledger none) (es ++ [e]) rs := by
  have hgrown : size log - size s.log = 1 := by
    rw [hwritten.log, size, h.size_log, List.length_map, List.length_append, List.length_singleton,
      Nat.add_sub_cancel_left]
  have hauthors : (s.write log s.ledger none).authors = s.authors ++ [none] := by
    simp [Trail.write, hgrown]
  refine ⟨hwritten, ?_, fun i key => ?_, fun k => ?_⟩
  · rw [hauthors, List.length_append, h.length, List.length_append, List.length_singleton,
      List.length_singleton]
  · rw [hauthors, getElem?_concat_eq_some, ← h.authored]
    simp
  · change k ∈ s.accepted ++ [] ↔ _
    rw [List.append_nil, h.keys]

theorem Sound.write_fresh (h : Sound sha s es rs) {log ledger : Value}
    (hwritten : Written sha log ledger (es ++ [e]) (rs ++ [r]))
    (hsequence : r.sequence = es.length + 1) :
    Sound sha (s.write log ledger (some r.idempotencyKey)) (es ++ [e]) (rs ++ [r]) := by
  have hgrown : size log - size s.log = 1 := by
    rw [hwritten.log, size, h.size_log, List.length_map, List.length_append, List.length_singleton,
      Nat.add_sub_cancel_left]
  have hauthors : (s.write log ledger (some r.idempotencyKey)).authors =
      s.authors ++ [some r.idempotencyKey] := by
    simp [Trail.write, hgrown]
  refine ⟨hwritten, ?_, fun i key => ?_, fun k => ?_⟩
  · rw [hauthors, List.length_append, h.length, List.length_append, List.length_singleton,
      List.length_singleton]
  · rw [hauthors, getElem?_concat_eq_some, h.authored, h.length]
    constructor
    · intro hkey
      rcases hkey with ⟨r', hr', hsame⟩ | ⟨rfl, hkey⟩
      · exact ⟨r', List.mem_append_left _ hr', hsame⟩
      · exact ⟨r, List.mem_append_right _ List.mem_cons_self, hsequence, Option.some.inj hkey⟩
    · intro hkey
      obtain ⟨r', hr', hi, hkey⟩ := hkey
      rcases List.mem_append.mp hr' with hr' | hr'
      · exact .inl ⟨r', hr', hi, hkey⟩
      · rw [List.mem_singleton.mp hr'] at hi hkey
        exact .inr ⟨by omega, congrArg some hkey⟩
  · change k ∈ s.accepted ++ [r.idempotencyKey] ↔ _
    rw [List.map_append, List.mem_append, List.mem_append, h.keys]
    rfl

/-- An event keeps a trail sound and the receipts issued so far. -/
theorem Sound.step (h : Sound sha s es rs) (event : Event) :
    ∃ es' rs', Sound sha (event.step sha s) es' rs' ∧ rs <+: rs' := by
  cases event with
  | keyed request =>
    cases hq : validateRequest sha request with
    | none =>
      simp only [Event.step, hq]
      exact ⟨es, rs, h, List.prefix_rfl⟩
    | some q =>
      simp only [Event.step, hq]
      by_cases hkey : q.key ∈ rs.map Receipt.idempotencyKey
      · obtain ⟨r, hr, hsame⟩ := List.mem_map.mp hkey
        rw [h.written.apply_used hq hr hsame]
        split_ifs
        · exact ⟨es, rs, h, List.prefix_rfl⟩
        · exact ⟨es, rs, h.write_used hkey, List.prefix_rfl⟩
      · rw [h.written.apply_fresh hq hkey]
        exact ⟨_, _, h.write_fresh (h.written.keyed hq hkey) rfl, List.prefix_append _ _⟩
  | direct request =>
    cases happend : Wal.append sha (Wal.pure canonicalPayload) s.log request with
    | error err =>
      simp only [Event.step, happend]
      exact ⟨es, rs, h, List.prefix_rfl⟩
    | ok out =>
      obtain ⟨log', e⟩ := out
      simp only [Event.step, happend]
      obtain ⟨vs, es', q, hlog, haccepted, hq, rfl, rfl⟩ := Wal.append_eq_ok.mp happend
      have hvs := h.written.log
      rw [hlog] at hvs
      obtain rfl := Value.list.inj hvs
      obtain rfl := haccepted.unique h.written.accepted
      have hdirect := h.written.direct (Wal.linked_of_validateRequest hq)
      rw [List.map_append, List.map_singleton] at hdirect
      exact ⟨_, rs, h.write_direct hdirect, List.prefix_rfl⟩

theorem Sound.run (h : Sound sha s es rs) (events : List Event) :
    ∃ es' rs', Sound sha (events.foldl (Event.step sha) s) es' rs' ∧ rs <+: rs' := by
  induction events generalizing s es rs with
  | nil => exact ⟨es, rs, h, List.prefix_rfl⟩
  | cons event events ih =>
    obtain ⟨es', rs', hstep, hprefix⟩ := h.step event
    obtain ⟨es'', rs'', hrun, hprefix'⟩ := ih hstep
    exact ⟨es'', rs'', hrun, hprefix.trans hprefix'⟩

theorem sound_run (sha : Sha256) (events : List Event) : ∃ es rs, Sound sha (run sha events) es rs := by
  obtain ⟨es, rs, h, -⟩ := (Sound.start sha).run events
  exact ⟨es, rs, h⟩

/-! ### Exactly once -/

/-- The calls of a trail refuse only malformed requests and key conflicts. -/
theorem Written.refused (h : Written sha log ledger es rs) {f : Failure}
    (herr : apply sha (honest sha) log ledger request = .error f) :
    (f = .idempotency .malformedIdempotencyRequest ∧ validateRequest sha request = none) ∨
      f = .idempotency .keyConflict := by
  cases hq : validateRequest sha request with
  | none =>
    simp only [apply, Idempotency.plan, hq] at herr
    exact .inl ⟨(Except.error.inj herr).symm, rfl⟩
  | some q =>
    by_cases hkey : q.key ∈ rs.map Receipt.idempotencyKey
    · obtain ⟨r, hr, hsame⟩ := List.mem_map.mp hkey
      rw [h.apply_used hq hr hsame] at herr
      split_ifs at herr
      exact .inr (Except.error.inj herr).symm
    · rw [h.apply_fresh hq hkey] at herr
      cases herr

/-- A call that returned leaves its receipt in the ledger. -/
theorem Sound.returned (h : Sound sha s es rs) (hq : validateRequest sha request = some q)
    {out : Value × Value × Result}
    (hok : apply sha (honest sha) s.log s.ledger request = .ok out) :
    ∃ es' rs', Sound sha (Event.step sha s (.keyed request)) es' rs' ∧ out.2.2.receipt ∈ rs' ∧
      out.2.2.receipt.idempotencyKey = q.key ∧
      out.2.2.receipt.requestFingerprint = tokenOf sha q.operation := by
  simp only [Event.step, hq]
  by_cases hkey : q.key ∈ rs.map Receipt.idempotencyKey
  · obtain ⟨r, hr, hsame⟩ := List.mem_map.mp hkey
    rw [h.written.apply_used hq hr hsame] at hok ⊢
    split_ifs at hok ⊢ with htoken
    rw [not_not] at htoken
    obtain rfl := Except.ok.inj hok
    exact ⟨es, rs, h.write_used hkey, hr, hsame, htoken⟩
  · rw [h.written.apply_fresh hq hkey] at hok ⊢
    obtain rfl := Except.ok.inj hok
    exact ⟨_, _, h.write_fresh (h.written.keyed hq hkey) rfl,
      List.mem_append_right _ List.mem_cons_self, rfl, rfl⟩

/-- Every accepted key is the author of exactly one entry, and every author of an entry
is an accepted key. -/
structure Trail.Once (s : Trail) : Prop where
  length : s.authors.length = size s.log
  once : ∀ key ∈ s.accepted, ∃! i : ℕ, s.authors[i]? = some (some key)
  accepted : ∀ (i : ℕ) key, s.authors[i]? = some (some key) → key ∈ s.accepted

theorem Sound.once (h : Sound sha s es rs) : s.Once := by
  refine ⟨by rw [h.length, h.size_log], fun key hkey => ?_, fun i key hi => ?_⟩
  · obtain ⟨r, hr, rfl⟩ := List.mem_map.mp ((h.keys key).mp hkey)
    have hpositive := (h.written.receipts.fits r hr).positive
    refine ⟨r.sequence - 1, (h.authored _ _).mpr ⟨r, hr, by omega, rfl⟩, fun j hj => ?_⟩
    obtain ⟨r', hr', hsequence, hsame⟩ := (h.authored _ _).mp hj
    obtain rfl := h.written.receipts.unique hr' hr hsame
    omega
  · obtain ⟨r, hr, -, rfl⟩ := (h.authored i key).mp hi
    exact (h.keys _).mpr (List.mem_map_of_mem hr)

/-- The entry a receipt names is at its sequence number. -/
def Placed (entries : List Value) (receipt : Value) : Prop :=
  ∃ (id : Text) (n : ℕ) (entry : Value), receipt.member? "entry_id".toList = some (.str id) ∧
    receipt.member? "sequence".toList = some (.int n) ∧ 0 < n ∧ entries[n - 1]? = some entry ∧
    entry.member? "entry_id".toList = some (.str id)

theorem member?_of_validateEntry {n : ℕ} {tip : Text} (h : Wal.validateEntry sha n tip v = .ok e) :
    v.member? "entry_id".toList = some (.str e.entryId) := by
  have hname : Wal.entryFields[0]? = some "entry_id".toList := rfl
  unfold Wal.validateEntry at h
  split at h
  · rename_i hfields
    split at h
    · cases h
    · split at h
      · split_ifs at h
        split at h
        · split_ifs at h
          split at h
          · cases h
          · obtain rfl := Except.ok.inj h
            exact Value.member?_of_fields? hfields hname
        · cases h
      · cases h
  · cases h

theorem getElem?_of_validateFrom {n i : ℕ} {tip : Text} {vs : List Value}
    (h : Wal.validateFrom sha n tip vs = .ok es) (he : es[i]? = some e) :
    ∃ v, vs[i]? = some v ∧ v.member? "entry_id".toList = some (.str e.entryId) := by
  induction vs generalizing n i tip es with
  | nil =>
    obtain rfl := Except.ok.inj h
    cases he
  | cons v vs ih =>
    obtain ⟨x, xs, hx, hxs, rfl⟩ := Wal.validateFrom_cons_eq_ok.mp h
    cases i with
    | zero =>
      obtain rfl := Option.some.inj he
      exact ⟨v, rfl, member?_of_validateEntry hx⟩
    | succ i =>
      obtain ⟨w, hw, hid⟩ := ih hxs he
      exact ⟨w, hw, hid⟩

theorem fits_of_validateReceipts {seen : List Text} {last : ℕ} {vs : List Value}
    (h : validateReceipts sha es seen last vs = some rs) : ∀ v ∈ vs, ∃ r, Fits sha es r ∧
      v.fields? receiptFields = some [.str r.receiptId, .str r.idempotencyKey,
        .str r.requestFingerprint, .str r.entryId, .int r.sequence] := by
  induction vs generalizing seen last rs with
  | nil => exact fun v hv => by cases hv
  | cons v vs ih =>
    obtain ⟨r, rs', hr, hrs, rfl⟩ := validateReceipts_cons.mp h
    obtain ⟨hfits, -, -, hfields⟩ := of_validateReceipt hr
    exact List.forall_mem_cons.mpr ⟨⟨r, hfits, hfields⟩, ih hrs⟩

theorem placed_of_apply {fingerprinter : Fingerprinter} {entries receipts : List Value}
    {out : Value × Value × Result}
    (h : apply sha fingerprinter (.list entries) (.list receipts) request = .ok out) :
    ∀ receipt ∈ receipts, Placed entries receipt := by
  unfold apply at h
  cases hplan : plan sha (.list entries) (.list receipts) request with
  | error f => simp [hplan] at h
  | ok p =>
    obtain ⟨_, _, hlog, hledger, -, haccepted, hreceipts⟩ := of_plan hplan
    obtain rfl := Value.list.inj hlog
    obtain rfl := Value.list.inj hledger
    intro receipt hreceipt
    obtain ⟨r, hfits, hfields⟩ := fits_of_validateReceipts hreceipts receipt hreceipt
    obtain ⟨e, he, hid, -⟩ := hfits.entry
    obtain ⟨entry, hentry, hentryId⟩ := getElem?_of_validateFrom haccepted.validated he
    exact ⟨r.entryId, r.sequence, entry, Value.member?_of_fields? (i := 3) hfields rfl,
      Value.member?_of_fields? (i := 4) hfields rfl, hfits.positive, hentry, by rw [hentryId, hid]⟩

/-- In every run from the empty log and ledger, a keyed call is refused only where its
request is malformed or its key conflicts. Every accepted key is the author of exactly one
entry. A key whose call returned answers its request with the same receipt, and refuses
every other request whose hashed text does not collide, without change. Where some
receipt of the ledger is not placed in the log, every call is refused. -/
theorem exactly_once (sha : Sha256) :
    (∀ events request f, apply sha (honest sha) (run sha events).log (run sha events).ledger
        request = .error f →
      (f = .idempotency .malformedIdempotencyRequest ∧ validateRequest sha request = none) ∨
        f = .idempotency .keyConflict) ∧
    (∀ events, (run sha events).Once) ∧
    (∀ events events' request request' q q' out,
      validateRequest sha request = some q → validateRequest sha request' = some q' →
      q'.key = q.key →
      apply sha (honest sha) (run sha events).log (run sha events).ledger request = .ok out →
      let s := run sha (events ++ .keyed request :: events')
      s.authors[out.2.2.receipt.sequence - 1]? = some (some q.key) ∧
      (q'.operation = q.operation →
        apply sha (honest sha) s.log s.ledger request' =
          .ok (s.log, s.ledger, ⟨.replayed, out.2.2.receipt⟩)) ∧
      (q'.operation ≠ q.operation →
        sha.Separates (requestText q'.operation) (requestText q.operation) →
        apply sha (honest sha) s.log s.ledger request' = .error (.idempotency .keyConflict) ∧
          Event.step sha s (.keyed request') = s)) ∧
    ∀ entries receipts, (∃ receipt ∈ receipts, ¬ Placed entries receipt) →
      ∀ fingerprinter request,
        ∃ f, apply sha fingerprinter (.list entries) (.list receipts) request = .error f := by
  refine ⟨?_, ?_, ?_, ?_⟩
  · intro events request f herr
    obtain ⟨es, rs, h⟩ := sound_run sha events
    exact h.written.refused herr
  · intro events
    obtain ⟨es, rs, h⟩ := sound_run sha events
    exact h.once
  · intro events events' request request' q q' out hq hq' hkey hok s
    obtain ⟨es, rs, h⟩ := sound_run sha events
    obtain ⟨es', rs', h', hmem, hsame, htoken⟩ := h.returned hq hok
    obtain ⟨es'', rs'', hs, hprefix⟩ := h'.run events'
    have hrun : s = events'.foldl (Event.step sha) (Event.step sha (run sha events)
        (.keyed request)) := by
      change run sha _ = _
      rw [run, List.foldl_append, List.foldl_cons]
      rfl
    rw [← hrun] at hs
    have hr := hprefix.subset hmem
    have hpositive := (hs.written.receipts.fits _ hr).positive
    have hused := hs.written.apply_used hq' hr (hsame.trans hkey.symm)
    refine ⟨(hs.authored _ _).mpr ⟨_, hr, by omega, hsame⟩, fun hop => ?_, fun hop hsha => ?_⟩
    · rw [hused, htoken, hop, if_neg (not_not.mpr rfl)]
    · rw [htoken, if_pos (tokenOf_ne hsha hop).symm] at hused
      refine ⟨hused, ?_⟩
      simp only [Event.step, hq', hused]
  · intro entries receipts hmissing fingerprinter request
    obtain ⟨receipt, hreceipt, hplaced⟩ := hmissing
    cases happly : apply sha fingerprinter (.list entries) (.list receipts) request with
    | error f => exact ⟨f, rfl⟩
    | ok out => exact absurd (placed_of_apply happly receipt hreceipt) hplaced

/-- The bare kings put under a key, then deleted under it. -/
theorem exactly_once_bareKings : ∃ (sha : Sha256) (put delete : Value) (receipt : Receipt),
    apply sha (honest sha) (run sha [.keyed put]).log (run sha [.keyed put]).ledger put =
      .ok ((run sha [.keyed put]).log, (run sha [.keyed put]).ledger, ⟨.replayed, receipt⟩) ∧
    apply sha (honest sha) (run sha [.keyed put]).log (run sha [.keyed put]).ledger delete =
      .error (.idempotency .keyConflict) ∧
    ∃ f, apply sha (honest sha) (.list []) (.list [receipt.toValue]) delete = .error f := by
  have hlinked := Node.linked_bareRecord (.lengths 64) .white
  have hvalid : ∀ q : Wal.Request, q.identity = Node.bareKey .white →
      q.record = Node.bareRecord (.lengths 64) .white →
      validateRequest (.lengths 64) (.object requestFields [.str ['k'], .str q.op.text,
        Wal.payloadValue q.identity q.record]) = some ⟨['k'], q⟩ := by
    intro q hidentity hrecord
    exact validateRequest_object (by decide) (by rw [hidentity, hrecord]; exact hlinked)
  have hput := hvalid (Wal.bareRequest (.lengths 64)) rfl rfl
  have hdelete := hvalid { Wal.bareRequest (.lengths 64) with op := .delete } rfl rfl
  have hne : ({ Wal.bareRequest (.lengths 64) with op := .delete } : Wal.Request) ≠
      Wal.bareRequest (.lengths 64) := by
    intro h
    exact absurd (congrArg Wal.Request.op h) (by decide)
  have hsha : (Hex.Hash.lengths 64).Separates
      (requestText { Wal.bareRequest (.lengths 64) with op := .delete })
      (requestText (Wal.bareRequest (.lengths 64))) :=
    fun h => absurd h (by decide +kernel)
  have hstart : Written (.lengths 64) (run (.lengths 64) []).log (run (.lengths 64) []).ledger
      [] [] := (Sound.start (.lengths 64)).written
  have hfirst := hstart.apply_fresh hput List.not_mem_nil
  obtain ⟨-, -, hrepeat, hcut⟩ := exactly_once (.lengths 64)
  obtain ⟨-, hsame, -⟩ := hrepeat [] [] _ _ _ _ _ hput hput rfl hfirst
  obtain ⟨-, -, hconflict⟩ := hrepeat [] [] _ _ _ _ _ hput hdelete rfl hfirst
  refine ⟨.lengths 64, _, _, _, hsame rfl, (hconflict hne hsha).1, hcut _ _ ?_ _ _⟩
  refine ⟨_, List.mem_singleton_self _, fun hplaced => ?_⟩
  obtain ⟨id, n, entry, -, -, -, hentry, -⟩ := hplaced
  cases hentry

end Idempotency
end OpenChess
