import OpenChess.Lib.LongestPrefix
import OpenChess.Store.Rollback

/-!
# Corruption scan

Model of `store/corruption.py` on values. A log of the scan domain is cut to its
longest replayable prefix, found by halving. The suffix is handed to an untrusted
sink, and removed once its token is the one derived here. A value is a tree, so the
test for cycles and aliases has nothing to find in it.
-/

namespace OpenChess
namespace Corruption

open PositionDigest (Sha256)
open Wal (genesis)
open Rollback (truncate)

inductive FailureClass
  | malformedCorruptionRecord
  | excessiveLoss
  | divergentQuarantine
  deriving DecidableEq, Repr

inductive ErrorCode
  | malformedRequest
  | excessiveLoss
  | divergentQuarantine
  | internal
  deriving DecidableEq, Repr

/-- `failures.mapping` of the contract. -/
def FailureClass.error : FailureClass → ErrorCode
  | .malformedCorruptionRecord => .malformedRequest
  | .excessiveLoss => .excessiveLoss
  | .divergentQuarantine => .divergentQuarantine

/-! ### The scan domain -/

def maxDepth : ℕ := 8

def maxIntBits : ℕ := 256

/-- `len(t.encode("utf-8"))`. -/
def utf8Length (t : Text) : ℕ := (t.map fun c => c.utf8Size).sum

def frame (letter : Char) (n : ℕ) : Text := letter :: (Nat.toDigits 10 n ++ [':'])

def sortMembers (members : List (Text × Value)) : List (Text × Value) :=
  members.insertionSort fun e e' => e.1 ≤ e'.1

/-- `_encode` of a text. -/
def encodeText (t : Text) : Text := frame 's' (utf8Length t) ++ t

/-- `_encode`, with the levels left below `MAX_DEPTH`; `none` out of the domain. The
bytes are those of the text. The copy it returns is the value itself. -/
def encode : ℕ → Value → Option Text
  | 0, _ => none
  | _ + 1, .null => some ['n']
  | _ + 1, .bool b => some [if b then 't' else 'f']
  | _ + 1, .int n =>
    if 2 ^ maxIntBits ≤ n.natAbs then none
    else some (frame 'i' (intText n).length ++ intText n)
  | _ + 1, .str t => some (encodeText t)
  | levels + 1, .list items =>
    (items.mapM (encode levels)).map fun parts => frame 'l' items.length ++ parts.flatten
  | levels + 1, .dict entries =>
    match (Value.dict entries).members? with
    | none => none
    | some members =>
      ((sortMembers members).mapM fun e => (encode levels e.2).map (encodeText e.1 ++ ·)).map
        fun parts => frame 'd' members.length ++ parts.flatten
  | _ + 1, .float _ _ => none
  | _ + 1, .foreign _ => none

/-- `canonical_encoding`. -/
def canonicalEncoding (v : Value) : Option Text := encode maxDepth v

/-! ### Quarantine -/

def tokenTag : Text := "qrn1:".toList

/-- `quarantine_suffix`; `none` out of the domain. -/
def quarantineSuffix (sha : Sha256) (suffix : List Value) : Option Text :=
  (canonicalEncoding (.list suffix)).map fun raw => tokenTag ++ sha.hexdigest ("qrn1|".toList ++ raw)

/-- A call of the sink; `none` where it raises. -/
abbrev Sink := List Value → Option Value

/-- `_quarantine`, on the answer of the sink. -/
def quarantine (answer : Option Value) : Except FailureClass Text :=
  match answer with
  | some (.str out) =>
    if Hex.tagged tokenTag 64 out = false then .error .divergentQuarantine else .ok out
  | _ => .error .divergentQuarantine

/-! ### Verified prefixes -/

/-- `_prefix_head`. -/
def prefixHead (sha : Sha256) (frozen : List Value) (count : ℕ) : Option Text :=
  if count = 0 then some genesis
  else
    match Wal.replay sha (Wal.pure Wal.canonicalPayload) (.list (frozen.take count)) with
    | .error _ => none
    | .ok out => some out.head

/-- `_verified_prefix`. -/
def verifiedPrefix (sha : Sha256) (frozen : List Value) : ℕ × Option Text :=
  match prefixHead sha frozen frozen.length with
  | some head => (frozen.length, some head)
  | none =>
    let good := PrefixSearch.bisect (fun n => (prefixHead sha frozen n).isSome) frozen.length 0
      frozen.length
    (good, prefixHead sha frozen good)

/-! ### The scan -/

inductive Verdict
  | clean
  | salvaged
  deriving DecidableEq, Repr

def Verdict.text : Verdict → Text
  | .clean => "clean".toList
  | .salvaged => "salvaged".toList

structure Receipt where
  scanId : Text
  verdict : Verdict
  verifiedHead : Option Text
  verifiedCount : ℕ
  quarantinedCount : ℕ
  quarantineToken : Option Text
  deriving DecidableEq, Repr

/-- `derive_scan_id`. -/
def deriveScanId (sha : Sha256) (verdict : Verdict) (head : Option Text) (count lost : ℕ)
    (token : Option Text) : Text :=
  "crp1:".toList ++ sha.hexdigest (['\n'].intercalate
    [verdict.text, head.getD "None".toList, Nat.toDigits 10 count, Nat.toDigits 10 lost,
      token.getD ['-']])

/-- `_receipt`. -/
def receipt (sha : Sha256) (verdict : Verdict) (head : Option Text) (count lost : ℕ)
    (token : Option Text) : Receipt :=
  ⟨deriveScanId sha verdict head count lost token, verdict, head, count, lost, token⟩

def requestFields : List Text := ["max_loss".toList]

/-- The `try` block: the token bound to the suffix. -/
def token (sha : Sha256) (suffix : List Value) (answer : Option Value) : Except FailureClass Text :=
  match quarantine answer with
  | .error e => .error e
  | .ok out =>
    if some out ≠ quarantineSuffix sha suffix then .error .divergentQuarantine else .ok out

/-- `scan`: the log it leaves and the receipt. -/
def scan (sha : Sha256) (sink : Sink) (log request : Value) :
    Except FailureClass (Value × Receipt) :=
  match request.fields? requestFields with
  | some [.int maxLoss] =>
    if maxLoss < 0 then .error .malformedCorruptionRecord
    else
      match log with
      | .list frozen =>
        match canonicalEncoding log with
        | none => .error .malformedCorruptionRecord
        | some _ =>
          let count := (verifiedPrefix sha frozen).1
          let head := (verifiedPrefix sha frozen).2
          let lost := frozen.length - count
          if lost = 0 then .ok (log, receipt sha .clean head count 0 none)
          else if maxLoss < lost then .error .excessiveLoss
          else
            match token sha (frozen.drop count) (sink (frozen.drop count)) with
            | .error e => .error e
            | .ok out =>
              .ok (truncate count log, receipt sha .salvaged head count lost (some out))
      | _ => .error .malformedCorruptionRecord
  | _ => .error .malformedCorruptionRecord

def honest (sha : Sha256) : Sink := fun suffix => (quarantineSuffix sha suffix).map Value.str

end Corruption
end OpenChess
