import OpenChess.Chess.LiveObject
import OpenChess.Store.CrashResume
import OpenChess.Store.Idempotency

/-!
# The store engines on live objects

The caller's log, ledger and request are containers on a heap, and an oracle may
rewrite any of them while it runs. The engines read them as values, freeze and
capture what they read, restore it after the oracle, and commit last.
-/

namespace OpenChess
namespace Live

open ObjectHeap
open ObjectHeap.Heap (view capture restore path reach)
open PositionDigest (Sha256)
open TranspositionNode (Record)
open Wal (Entry)

/-! ### Commits -/

def newEntry (e : Entry) (h : Objects) : Objects :=
  ((h.alloc (dict Node.recordFields
    [text e.record.variant, text e.record.digest, text e.record.snapshotFen])).alloc
    (dict Wal.payloadFields [text e.identity, .ptr h.next])).alloc
    (dict Wal.entryFields [text e.entryId, .atom (.int e.sequence), text e.op.text,
      .ptr (h.next + 1), text e.prior])

/-- `log.append(staged)`. -/
def pushEntry (log : Handle) (e : Entry) (h : Objects) : Objects :=
  push log (.ptr (h.next + 2)) (newEntry e h)

def newReceipt (r : Idempotency.Receipt) (h : Objects) : Objects :=
  h.alloc (dict Idempotency.receiptFields
    [text r.receiptId, text r.idempotencyKey, text r.requestFingerprint, text r.entryId,
      .atom (.int r.sequence)])

/-- `ledger.append(dict(receipt))`. -/
def pushReceipt (ledger : Handle) (r : Idempotency.Receipt) (h : Objects) : Objects :=
  push ledger (.ptr h.next) (newReceipt r h)

/-! ### The log engine -/

def recordPath : List Scalar := [.str "payload".toList, .str "record".toList]

/-- The containers `snapshot` captures. -/
def logContainers (h : Objects) (log : Handle) : List ℕ :=
  path h [] log ++ (items h log).flatMap (path h recordPath)

/-- `_canonicalize`, the n-th call. -/
def canonicalize (o : Oracle (Text × Record)) (n : ℕ) (identity : Text) (record : Record)
    (h : Objects) : Except Wal.FailureClass Text × Objects :=
  (Wal.canonicalize (fun _ _ => (o.call n (identity, record) h).1) identity record,
    (o.call n (identity, record) h).2)

/-- The loop of `_rederive`, from the n-th call. -/
def rederive (sha : Sha256) (o : Oracle (Text × Record)) :
    ℕ → List Entry → Objects → Except Wal.FailureClass Unit × Objects
  | _, [], h => (.ok (), h)
  | n, e :: frozen, h =>
    match canonicalize o n e.identity e.record h with
    | (.error err, h) => (.error err, h)
    | (.ok canonical, h) =>
      if Wal.deriveEntryId sha e.sequence e.op canonical e.prior ≠ e.entryId then
        (.error .corruptChain, h)
      else rederive sha o (n + 1) frozen h

/-- The `try` block of `append`: the staged entry. -/
def stage (sha : Sha256) (o : Oracle (Text × Record)) (frozen : List Entry)
    (request : Wal.Request) (h : Objects) : Except Wal.FailureClass Entry × Objects :=
  match rederive sha o 0 frozen h with
  | (.error e, h) => (.error e, h)
  | (.ok (), h) =>
    match canonicalize o frozen.length request.identity request.record h with
    | (.error e, h) => (.error e, h)
    | (.ok canonical, h) =>
      (.ok ⟨Wal.deriveEntryId sha (frozen.length + 1) request.op canonical (Wal.tipOf frozen),
        frozen.length + 1, request.op, request.identity, request.record, Wal.tipOf frozen⟩, h)

/-- `WalEngine.append`. -/
def append (sha : Sha256) (o : Oracle (Text × Record)) (log request : Handle) (h : Objects) :
    Except Wal.FailureClass Entry × Objects :=
  match value h 4 log with
  | .list entries =>
    match Wal.validateRequest sha (value h 3 request) with
    | .error e => (.error e, h)
    | .ok q =>
      match Wal.validateLog sha entries with
      | .error e => (.error e, h)
      | .ok frozen =>
        let saved := capture h (logContainers h log ++ path h recordPath request)
        match stage sha o frozen q h with
        | (.error e, h') => (.error e, restore saved h')
        | (.ok staged, h') => (.ok staged, pushEntry log staged (restore saved h'))
  | _ => (.error .malformedWalEntry, h)

/-! ### Rollback -/

/-- `RollbackEngine.rollback`. -/
def rollback (sha : Sha256) (o : Oracle (List Entry)) (log request : Handle) (h : Objects) :
    Except Rollback.FailureClass Rollback.Receipt × Objects :=
  match Rollback.plan sha (value h 4 log) (value h 1 request) with
  | .error e => (.error e, h)
  | .ok p =>
    let saved := capture h (logContainers h log ++ path h [] request)
    let h' := restore saved (o.call 0 p.tail h).2
    match p.token sha (o.call 0 p.tail h).1 with
    | .error e => (.error e, h')
    | .ok token => (.ok (p.receipt sha token), truncate p.target log h')

/-! ### Crash resume -/

/-- The value of an entry as the admission walk sees it: one that meets a container
twice is not admitted. -/
def entryValue (h : Objects) (entry : Handle) : Value :=
  if (reach h CrashResume.maxDepth entry).Nodup then value h CrashResume.maxDepth entry
  else .foreign 0

/-- The value of a log, its entries as the admission walk sees them. -/
def logValue (h : Objects) (log : Handle) : Value :=
  match value h 1 log with
  | .list _ => .list ((items h log).map (entryValue h))
  | v => v

/-- `ResumeEngine.resume`. The walk of `_snapshot` stays within the admitted depth
below the log. -/
def resume (sha : Sha256) (o : Oracle (List Value)) (log request : Handle) (h : Objects) :
    Except CrashResume.FailureClass CrashResume.Receipt × Objects :=
  match CrashResume.plan sha (logValue h log) (value h 1 request) with
  | .error e => (.error e, h)
  | .ok p =>
    let saved := capture h (reach h (CrashResume.maxDepth + 1) log ++
      reach h (CrashResume.maxDepth + 1) request)
    let h' := restore saved (o.call 0 p.tail h).2
    match p.token sha (o.call 0 p.tail h).1 with
    | .error e => (.error e, h')
    | .ok token => (.ok (p.receipt sha token), truncate p.kept log h')

/-! ### Keyed appends -/

def ledgerContainers (h : Objects) (ledger : Handle) : List ℕ :=
  path h [] ledger ++ (items h ledger).flatMap (path h [])

/-- `IdempotencyEngine.apply`. -/
def apply (sha : Sha256) (o : Oracle Wal.Request) (log ledger request : Handle) (h : Objects) :
    Except Idempotency.Failure Idempotency.Result × Objects :=
  match Idempotency.plan sha (value h 4 log) (value h 4 ledger) (value h 3 request) with
  | .error e => (.error (.idempotency e), h)
  | .ok p =>
    let saved := capture h (logContainers h log ++ ledgerContainers h ledger ++
      path h recordPath request)
    let h' := restore saved (o.call 0 p.request.operation h).2
    match p.settle sha (o.call 0 p.request.operation h).1 with
    | .error e => (.error e, h')
    | .ok (receipt, none) => (.ok ⟨.replayed, receipt⟩, h')
    | .ok (receipt, some staged) =>
      (.ok ⟨.applied, receipt⟩, pushReceipt ledger receipt (pushEntry log staged h'))

end Live
end OpenChess
