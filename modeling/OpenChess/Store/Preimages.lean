import OpenChess.Jobs.IdempotencySpec
import OpenChess.Jobs.JsonInjective
import OpenChess.Jobs.QueueSpec
import OpenChess.Store.CrashResume
import OpenChess.Store.KeyedRun

/-!
# What is hashed tells the values apart

The tokens of an archived tail, of a quarantined tail and of a request, in the store and
in the queue, are digests of texts. Each of these texts determines the entries or the
request it is written of, so only a collision of the hash gives two of them one token.
-/

namespace OpenChess
namespace Preimages

open Json (Same FloatsPrinted Printable)
open PositionDigest (Sha256)
open Wal (Entry)

def Digests {A : Type} (token : Sha256 → A → Text) (tag : Text) (text : A → Text) : Prop :=
  ∀ sha a, token sha a = tag ++ sha.hexdigest (text a)

/-! ### Archived tails -/

/-- What `rollback.archive_tail` hashes. -/
def archiveText (tail : List Entry) : Text :=
  Separated.framed "arc1".toList (tail.flatMap Rollback.archiveFields)

theorem archiveFields_injective : Function.Injective Rollback.archiveFields := by
  rintro ⟨id, n, op, k, ⟨v, d, t⟩, prior⟩ ⟨id', n', op', k', ⟨v', d', t'⟩, prior'⟩ h
  simp only [Rollback.archiveFields, List.cons.injEq, and_true] at h
  obtain ⟨hsequence, hop, rfl, rfl, rfl, rfl, rfl, rfl⟩ := h
  obtain rfl := Separated.toDigits_injective hsequence
  have hknown : Wal.opOf? op.text = Wal.opOf? op'.text := by rw [hop]
  rw [Wal.opOf?_text, Wal.opOf?_text] at hknown
  rw [Option.some.inj hknown]

theorem archiveText_injective : Function.Injective archiveText := by
  intro tail tail' h
  replace h := Separated.framed_injective _ h
  induction tail generalizing tail' with
  | nil =>
    cases tail' with
    | nil => rfl
    | cons e' tail' => simp [Rollback.archiveFields] at h
  | cons e tail ih =>
    cases tail' with
    | nil => simp [Rollback.archiveFields] at h
    | cons e' tail' =>
      rw [List.flatMap_cons, List.flatMap_cons] at h
      obtain ⟨hfields, hrest⟩ := List.append_inj h rfl
      rw [archiveFields_injective hfields, ih hrest]

/-! ### Quarantined tails -/

/-- What `crash_resume.quarantine_tail` hashes. -/
def quarantineText (tail : List Value) : Text :=
  Separated.framed "qtn1".toList (tail.map (CrashResume.canon (CrashResume.maxDepth + 1)))

theorem escape_eq (c : Char) : CrashResume.escape c = Json.escape false c := by
  by_cases hcontrol : c.toNat < 0x20
  · have hall : ∀ n < 0x20, CrashResume.escape (Char.ofNat n) = Json.escape false (Char.ofNat n) := by
      decide
    have hc := hall c.toNat hcontrol
    rwa [Char.ofNat_toNat] at hc
  · have hquote : c = CrashResume.doubleQuote ∨ c = CrashResume.backslash ↔
        c.toNat = 0x22 ∨ c.toNat = 0x5c := by
      have hcode : ∀ d : Char, c = d ↔ c.toNat = d.toNat := fun d => Char.toNat_inj.symm
      exact or_congr (hcode _) (hcode _)
    unfold CrashResume.escape Json.escape
    simp only [hquote, if_pos (Nat.not_lt.mp hcontrol), true_or, if_true]
    split_ifs <;> first | rfl | omega

theorem jsonText_eq (t : Text) : CrashResume.jsonText t = Json.quoted false t := by
  have hescape : CrashResume.escape = Json.escape false := funext escape_eq
  rw [CrashResume.jsonText, hescape]
  rfl

theorem canon_eq_dumps {v : Value} {levels : ℕ} (h : CrashResume.admissible levels v = true) :
    CrashResume.canon (levels + 1) v = Json.dumps false v := by
  induction v using Value.induction generalizing levels with
  | hatom v hlist hdict =>
    cases v with
    | str t => exact jsonText_eq t
    | list items => exact absurd rfl (hlist items)
    | dict entries => exact absurd rfl (hdict entries)
    | _ => rfl
  | hlist items ih =>
    cases levels with
    | zero => cases h
    | succ levels =>
      rw [CrashResume.admissible, List.all_eq_true] at h
      have hitems : items.map (CrashResume.canon (levels + 1)) = items.map (Json.dumps false) :=
        List.map_congr_left fun v hv => ih v hv (h v hv)
      rw [CrashResume.canon, hitems, Json.dumps, Json.dumpsItems_eq]
  | hdict entries ih =>
    cases levels with
    | zero => cases h
    | succ levels =>
      rw [CrashResume.admissible] at h
      cases hmembers : (Value.dict entries).members? with
      | none => simp [hmembers] at h
      | some members =>
        simp only [hmembers, List.all_eq_true, Bool.and_eq_true] at h
        obtain rfl := Value.members?_dict hmembers
        have htexts : ((Json.byKey members).map fun e =>
            CrashResume.jsonText e.1 ++ ':' :: CrashResume.canon (levels + 1) e.2) =
            (Json.byKey members).map fun e =>
              Json.quoted false e.1 ++ ':' :: Json.dumps false e.2 := by
          refine List.map_congr_left fun e he => ?_
          have hmem := (Json.perm_byKey members).subset he
          rw [jsonText_eq, ih (.str e.1, e.2) (List.mem_map_of_mem hmem) (h e hmem).2]
        rw [CrashResume.canon, hmembers, Json.dumps, Json.dumpsMembers_eq, Json.sorted_map,
          Json.sorted_ofMembers, List.map_map, List.map_map]
        exact congrArg (fun l => Char.ofNat 0x7b :: ([','].intercalate l ++ [Char.ofNat 0x7d])) htexts

theorem printable_of_admissible {v : Value} {levels : ℕ}
    (h : CrashResume.admissible levels v = true) (hfloats : FloatsPrinted v) : Printable v := by
  induction v using Value.induction generalizing levels with
  | hatom v hlist hdict =>
    have hscalar : CrashResume.scalarOk v = true := by
      cases v <;> cases levels <;>
        first | exact h | exact absurd rfl (hlist _) | exact absurd rfl (hdict _)
    cases v with
    | null => exact .null
    | bool b => exact .bool b
    | int n => exact .int n
    | float finite text =>
      cases finite with
      | true => exact .float text hfloats
      | false => cases hscalar
    | str t => exact .str t
    | list items => exact absurd rfl (hlist items)
    | dict entries => exact absurd rfl (hdict entries)
    | foreign tag => cases hscalar
  | hlist items ih =>
    rw [FloatsPrinted, Json.itemsPrinted_iff] at hfloats
    cases levels with
    | zero => cases h
    | succ levels =>
      rw [CrashResume.admissible, List.all_eq_true] at h
      exact .list items fun v hv => ih v hv (h v hv) (hfloats v hv)
  | hdict entries ih =>
    rw [FloatsPrinted, Json.membersPrinted_iff] at hfloats
    cases levels with
    | zero => cases h
    | succ levels =>
      rw [CrashResume.admissible] at h
      cases hmembers : (Value.dict entries).members? with
      | none => simp [hmembers] at h
      | some members =>
        simp only [hmembers, List.all_eq_true, Bool.and_eq_true] at h
        obtain rfl := Value.members?_dict hmembers
        refine .dict _ (fun e he => ?_) fun e he => ?_ <;>
          obtain ⟨m, hm, rfl⟩ := List.mem_map.mp he
        · rfl
        · exact ih _ he (h m hm).2 (hfloats _ he)

def Admitted (v : Value) : Prop := CrashResume.isCanonicalJson v = true ∧ FloatsPrinted v

theorem quarantineText_inj {tail tail' : List Value} (hadmitted : ∀ v ∈ tail, Admitted v)
    (hadmitted' : ∀ v ∈ tail', Admitted v) (h : quarantineText tail = quarantineText tail') :
    List.Forall₂ Same tail tail' := by
  have htexts := Separated.framed_injective _ h
  rw [← List.forall₂_eq_eq_eq, List.forall₂_map_left_iff, List.forall₂_map_right_iff] at htexts
  have hleft := (List.forall₂_and_left tail tail').mpr ⟨hadmitted, htexts⟩
  have hboth := (List.forall₂_and_left tail' tail).mpr ⟨hadmitted', hleft.flip⟩
  refine hboth.flip.imp fun v v' hv => ?_
  obtain ⟨⟨hok', hfloats'⟩, ⟨hok, hfloats⟩, htext⟩ := hv
  rw [canon_eq_dumps hok, canon_eq_dumps hok'] at htext
  exact Json.same_of_dumps (printable_of_admissible hok hfloats)
    (printable_of_admissible hok' hfloats') htext

/-! ### Requests of the queue -/

open KeyedQueue (payloadOf valuesOf)
open Queue (Request Op)

/-- What `jobs_idempotency.request_fingerprint` hashes. -/
def queueText (q : Request) : Text :=
  Separated.framed "jif1".toList [q.op.text, Json.dumps false (payloadOf q)]

theorem printable_payloadOf {q : Request} {limit : ℕ} (hvalid : q.Valid limit)
    (hfloats : FloatsPrinted (payloadOf q)) : Printable (payloadOf q) := by
  rw [payloadOf, Value.object, Value.ofMembers] at hfloats ⊢
  rw [FloatsPrinted, Json.membersPrinted_iff] at hfloats
  have hvalues : ∀ v ∈ (valuesOf q).tail, FloatsPrinted v → Printable v := by
    intro v hv hprinted
    cases q with
    | enqueue key priority payload =>
      simp only [valuesOf, List.tail_cons, List.mem_cons, List.not_mem_nil, or_false] at hv
      obtain rfl | rfl | rfl := hv
      · exact .str key
      · exact .int priority
      · exact Json.printable_of_plain hvalid.2.1 hprinted
    | _ =>
      simp only [valuesOf, List.tail_cons, List.mem_cons, List.not_mem_nil, or_false] at hv
      obtain rfl | rfl | rfl := hv <;> constructor
  refine .dict _ (fun e he => ?_) fun e he => ?_ <;>
    obtain ⟨m, hm, rfl⟩ := List.mem_map.mp he
  · rfl
  · exact hvalues m.2 (List.of_mem_zip hm).2 (hfloats _ he)

theorem queueText_inj {q q' : Request} {limit limit' : ℕ} (hvalid : q.Valid limit)
    (hvalid' : q'.Valid limit') (hfloats : FloatsPrinted (payloadOf q))
    (hfloats' : FloatsPrinted (payloadOf q')) (h : queueText q = queueText q') : q = q' := by
  have hparts := Separated.framed_injective _ h
  simp only [List.cons.injEq, and_true] at hparts
  obtain ⟨hop, htext⟩ := hparts
  have hsame := Json.same_of_dumps (printable_payloadOf hvalid hfloats)
    (printable_payloadOf hvalid' hfloats') htext
  have hknown : Queue.opOf? q.op.text = Queue.opOf? q'.op.text := by rw [hop]
  rw [KeyedQueue.opOf?_text, KeyedQueue.opOf?_text] at hknown
  have hops : q.op = q'.op := Option.some.inj hknown
  rw [payloadOf, payloadOf, ← hops] at hsame
  have hlengths : ∀ p : Request, p.op.fields.tail.length = (valuesOf p).tail.length := by
    intro p
    cases p <;> rfl
  have hnodup : q.op.fields.tail.Nodup := by
    cases q.op <;> decide
  have hcopies := Json.copies_of_same_object hnodup (hlengths q) (hops ▸ hlengths q') hsame
  cases q <;> cases q' <;> cases hops
  · simp only [valuesOf, List.tail_cons, List.map_cons, List.map_nil, Json.copy, hvalid.2.2,
      hvalid'.2.2, List.cons.injEq, Value.str.injEq, Value.int.injEq, Nat.cast_inj, and_true] at hcopies
    obtain ⟨rfl, rfl, rfl⟩ := hcopies
    rfl
  all_goals
    simp only [valuesOf, List.tail_cons, List.map_cons, List.map_nil, Json.copy,
      List.cons.injEq, Value.str.injEq, Value.int.injEq, Nat.cast_inj, and_true] at hcopies
    obtain ⟨rfl, rfl, rfl⟩ := hcopies
    rfl

def Accepted (q : Request) : Prop :=
  (∃ request p, KeyedQueue.validateRequest request = some p ∧ p.operation = q) ∧
    FloatsPrinted (payloadOf q)

theorem Accepted.valid {q : Request} (h : Accepted q) : q.Valid Queue.clockLimit := by
  obtain ⟨⟨request, p, hp, rfl⟩, -⟩ := h
  exact Queue.valid_of_checkRequest (KeyedQueue.of_validateRequest hp).2.2

/-- The four tokens are digests of texts that determine what they are written of: the
entries of an archived tail, the values of a quarantined one, types included, and the
operation with its payload. -/
theorem preimages_injective :
    (Digests Rollback.archiveTail Rollback.tokenTag archiveText ∧
      Function.Injective archiveText) ∧
    (Digests CrashResume.quarantineTail CrashResume.tokenTag quarantineText ∧
      ∀ tail tail', (∀ v ∈ tail, Admitted v) → (∀ v ∈ tail', Admitted v) →
        quarantineText tail = quarantineText tail' → List.Forall₂ Same tail tail') ∧
    (Digests (fun sha (q : Wal.Request) =>
        Idempotency.requestFingerprint sha q.op q.identity q.record) Idempotency.tokenTag
        Idempotency.requestText ∧
      Function.Injective Idempotency.requestText) ∧
    (Digests KeyedQueue.requestFingerprint KeyedQueue.tokenTag queueText ∧
      Set.InjOn queueText {q | Accepted q}) :=
  ⟨⟨fun _ _ => rfl, archiveText_injective⟩,
    ⟨fun _ _ => rfl, fun _ _ hadmitted hadmitted' => quarantineText_inj hadmitted hadmitted'⟩,
    ⟨fun _ _ => rfl, Idempotency.requestText_injective⟩,
    ⟨fun _ _ => rfl, fun _ hq _ hq' => queueText_inj hq.valid hq'.valid hq.2 hq'.2⟩⟩

def claimCall (now : ℕ) : PyObj :=
  .dict 0 [(.str "idempotency_key".toList, .atom (.str "key-1".toList)),
    (.str "op".toList, .atom (.str "claim".toList)),
    (.str "payload".toList, .dict 1 [(.str "worker".toList, .atom (.str "w-1".toList)),
      (.str "now".toList, .atom (.int now)), (.str "lease_ms".toList, .atom (.int 1000))])]

theorem accepted_claim {now : ℕ} (h : now ≤ 2) : Accepted (.claim "w-1".toList now 1000) := by
  refine ⟨⟨claimCall now, ⟨"key-1".toList, .claim "w-1".toList now 1000⟩, ?_, rfl⟩, ?_⟩
  · interval_cases now <;> rfl
  · exact ⟨trivial, trivial, trivial, trivial⟩

/-- The entry of the bare kings is not hashed as no entry, an empty list not as an empty dictionary,
a put not as a delete, and a claim not as a later one. -/
theorem preimages_injective_differ :
    archiveText [Wal.staged (.lengths 64) Wal.canonicalPayload []
      (Wal.bareRequest (.lengths 64))] ≠ archiveText [] ∧
    quarantineText [.list []] ≠ quarantineText [.dict []] ∧
    Idempotency.requestText (Wal.bareRequest (.lengths 64)) ≠
      Idempotency.requestText { Wal.bareRequest (.lengths 64) with op := .delete } ∧
    queueText (.claim "w-1".toList 1 1000) ≠ queueText (.claim "w-1".toList 2 1000) := by
  obtain ⟨⟨-, harchive⟩, ⟨-, hquarantine⟩, ⟨-, hrequest⟩, -, hqueue⟩ := preimages_injective
  refine ⟨fun h => ?_, fun h => ?_, fun h => ?_, fun h => ?_⟩
  · cases harchive h
  · have hlist : ∀ v ∈ [Value.list []], Admitted v := by
      rintro v hv
      obtain rfl := List.mem_singleton.mp hv
      exact ⟨rfl, trivial⟩
    have hdict : ∀ v ∈ [Value.dict []], Admitted v := by
      rintro v hv
      obtain rfl := List.mem_singleton.mp hv
      exact ⟨rfl, trivial⟩
    cases hquarantine _ _ hlist hdict h with
    | cons hsame _ => cases hsame
  · cases congrArg Wal.Request.op (hrequest h)
  · cases hqueue (accepted_claim (by decide)) (accepted_claim (by decide)) h

end Preimages
end OpenChess
