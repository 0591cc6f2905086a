import OpenChess.Store.Corruption

/-!
# Crash resume

Model of `store/crash_resume.py` on values. The log is cut to its longest
replayable prefix of admissible entries, found by a scan from above. The tail is
handed to an untrusted sink, and removed once its token is the one derived here. A
value is a tree, so the test for cycles and aliases has nothing to find in it.
-/

namespace OpenChess
namespace CrashResume

open PositionDigest (Sha256)
open Corruption (Sink sortMembers)
open Rollback (truncate)

inductive FailureClass
  | malformedResumeRecord
  | unknownCheckpoint
  | corruptSource
  | divergentQuarantine
  deriving DecidableEq, Repr

inductive ErrorCode
  | malformedRequest
  | unknownCheckpoint
  | corruptSource
  | divergentQuarantine
  | internal
  deriving DecidableEq, Repr

/-- `failures.mapping` of the contract. -/
def FailureClass.error : FailureClass → ErrorCode
  | .malformedResumeRecord => .malformedRequest
  | .unknownCheckpoint => .unknownCheckpoint
  | .corruptSource => .corruptSource
  | .divergentQuarantine => .divergentQuarantine

/-! ### Admission -/

def maxDepth : ℕ := 64

def maxIntDigits : ℕ := 4000

/-- `math.ceil(MAX_INT_DIGITS * math.log2(10))`. -/
def maxIntBits : ℕ := 13288

/-- `_scalar_ok`. -/
def scalarOk : Value → Bool
  | .null | .bool _ => true
  | .int n =>
    decide (n.natAbs < 2 ^ maxIntBits) &&
      decide ((Nat.toDigits 10 n.natAbs).length ≤ maxIntDigits)
  | .float finite _ => finite
  | .str _ => true
  | .list _ | .dict _ | .foreign _ => false

/-- The walk of `_is_canonical_json`, with the levels of containers left. -/
def admissible : ℕ → Value → Bool
  | 0, v => scalarOk v
  | levels + 1, .list items => items.all (admissible levels)
  | levels + 1, .dict entries =>
    match (Value.dict entries).members? with
    | none => false
    | some members => members.all fun e => scalarOk (.str e.1) && admissible levels e.2
  | _ + 1, v => scalarOk v

/-- `_is_canonical_json`. -/
def isCanonicalJson (v : Value) : Bool := admissible maxDepth v

/-! ### Quarantine -/

def doubleQuote : Char := Char.ofNat 34

def backslash : Char := Char.ofNat 92

def shortEscape? (c : Char) : Option Char :=
  [(8, 'b'), (9, 't'), (10, 'n'), (12, 'f'), (13, 'r')].lookup c.toNat

def escape (c : Char) : Text :=
  if c = doubleQuote ∨ c = backslash then [backslash, c]
  else if 0x20 ≤ c.toNat then [c]
  else
    match shortEscape? c with
    | some letter => [backslash, letter]
    | none =>
      [backslash, 'u', '0', '0', Nat.digitChar (c.toNat / 16), Nat.digitChar (c.toNat % 16)]

def jsonText (t : Text) : Text := doubleQuote :: (t.flatMap escape ++ [doubleQuote])

/-- `_canon` of an admissible value; the levels are those of the admission, and one
more for the scalars in the innermost containers. -/
def canon : ℕ → Value → Text
  | 0, _ => []
  | _ + 1, .null => "null".toList
  | _ + 1, .bool b => if b then "true".toList else "false".toList
  | _ + 1, .int n => intText n
  | _ + 1, .float _ text => text
  | _ + 1, .str t => jsonText t
  | levels + 1, .list items => '[' :: ([','].intercalate (items.map (canon levels)) ++ [']'])
  | levels + 1, .dict entries =>
    Char.ofNat 123 :: ([','].intercalate
      ((sortMembers ((Value.dict entries).members?.getD [])).map fun e =>
        jsonText e.1 ++ ':' :: canon levels e.2) ++ [Char.ofNat 125])
  | _ + 1, .foreign _ => []

def tokenTag : Text := "qtn1:".toList

/-- `quarantine_tail`. -/
def quarantineTail (sha : Sha256) (tail : List Value) : Text :=
  tokenTag ++ sha.hexdigest (Separated.framed "qtn1".toList (tail.map (canon (maxDepth + 1))))

/-- `_quarantine`, on the answer of the sink. -/
def quarantine (answer : Option Value) : Except FailureClass Text :=
  match answer with
  | some (.str out) =>
    if Hex.tagged tokenTag 64 out = false then .error .divergentQuarantine else .ok out
  | _ => .error .divergentQuarantine

/-! ### Valid prefixes -/

/-- `replay(log[:k])` does not raise. -/
def replays (sha : Sha256) (log : List Value) (k : ℕ) : Bool :=
  match Wal.replay sha (Wal.pure Wal.canonicalPayload) (.list (log.take k)) with
  | .error _ => false
  | .ok _ => true

/-- `_valid_prefix_length`: the lengths are tried from the first inadmissible entry
down, and the empty prefix always replays. -/
def validPrefixLength (sha : Sha256) (log : List Value) : ℕ :=
  Nat.findGreatest (fun k => replays sha log k = true) (log.takeWhile isCanonicalJson).length

/-! ### Resume -/

structure Receipt where
  resumeId : Text
  head : Text
  stateId : Text
  resumedCount : ℕ
  discardedCount : ℕ
  quarantineToken : Text
  deriving DecidableEq, Repr

/-- `_derive_resume_id`. -/
def deriveResumeId (sha : Sha256) (head stateId : Text) (resumed discarded : ℕ) (token : Text) :
    Text :=
  "rsm1:".toList ++ sha.hexdigest (['\n'].intercalate
    [head, stateId, Nat.toDigits 10 resumed, Nat.toDigits 10 discarded, token])

/-- `request.fields` of the contract. -/
def requestFields : List Text := ["checkpoint_sequence".toList]

/-- An accepted request: the length kept, the tail and the replayed prefix. -/
structure Plan where
  kept : ℕ
  tail : List Value
  replayed : Wal.Receipt

/-- The checks of `resume` before the sink is called. The frozen tail is the tail:
reading back its JSON text gives the same values. -/
def plan (sha : Sha256) (log request : Value) : Except FailureClass Plan :=
  match log with
  | .list entries =>
    match request.fields? requestFields with
    | some [.int checkpoint] =>
      if checkpoint < 0 then .error .unknownCheckpoint
      else if (entries.length : ℤ) < checkpoint then .error .corruptSource
      else if (validPrefixLength sha entries : ℤ) < checkpoint then .error .corruptSource
      else if (entries.drop (validPrefixLength sha entries)).all isCanonicalJson = false then
        .error .malformedResumeRecord
      else
        match Wal.replay sha (Wal.pure Wal.canonicalPayload)
            (.list (entries.take (validPrefixLength sha entries))) with
        | .error _ => .error .corruptSource
        | .ok replayed =>
          .ok ⟨validPrefixLength sha entries, entries.drop (validPrefixLength sha entries), replayed⟩
    | _ => .error .malformedResumeRecord
  | _ => .error .malformedResumeRecord

/-- The `try` block: the token bound to the tail. -/
def Plan.token (sha : Sha256) (p : Plan) (answer : Option Value) : Except FailureClass Text :=
  match quarantine answer with
  | .error e => .error e
  | .ok token => if token ≠ quarantineTail sha p.tail then .error .divergentQuarantine else .ok token

def Plan.receipt (sha : Sha256) (p : Plan) (token : Text) : Receipt :=
  ⟨deriveResumeId sha p.replayed.head p.replayed.stateId p.kept p.tail.length token,
    p.replayed.head, p.replayed.stateId, p.kept, p.tail.length, token⟩

/-- `resume`: the log it leaves and the receipt. -/
def resume (sha : Sha256) (sink : Sink) (log request : Value) :
    Except FailureClass (Value × Receipt) :=
  match plan sha log request with
  | .error e => .error e
  | .ok p =>
    match p.token sha (sink p.tail) with
    | .error e => .error e
    | .ok token => .ok (truncate p.kept log, p.receipt sha token)

def honest (sha : Sha256) : Sink := fun tail => some (.str (quarantineTail sha tail))

end CrashResume
end OpenChess
