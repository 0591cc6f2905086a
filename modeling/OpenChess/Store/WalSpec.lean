import OpenChess.Graph.DiffSpec
import OpenChess.Store.Wal

/-!
# Replayable logs

With a pure canonicalizer, a log is replayed exactly when it is validated and every
entry carries the id derived from it. An append extends such a log by one derived
entry, and every prefix of such a log is one.
-/

namespace OpenChess
namespace Wal

open PositionDigest (Sha256)
open TranspositionNode (Record)
open Node (Linked)

variable {sha : Sha256} {k : Text} {r : Record} {v log log' request : Value}
  {vs ws : List Value} {e : Entry} {es fs gs : List Entry} {n : ℕ} {tip : Text}
  {canon : Text → Record → Text} {q : Request}

/-! ### Records and payloads -/

theorem validateRecord_eq_some :
    validateRecord sha v = some (k, r) ↔ Node.readRecord v = some r ∧ Linked sha k r := by
  constructor
  · intro h
    unfold validateRecord at h
    split at h
    · cases h
    · rename_i r' hread
      split at h
      · cases h
      · split at h
        · cases h
        · rename_i identity hidentity
          split_ifs at h with hsame
          rw [not_not] at hsame
          subst hsame
          obtain ⟨rfl, rfl⟩ := Prod.mk.inj (Option.some.inj h)
          exact ⟨hread, Node.recordIdentity_eq_some.mp hidentity⟩
  · intro h
    obtain ⟨hread, hlinked⟩ := h
    have hidentity := Node.recordIdentity_eq_some.mpr hlinked
    obtain ⟨p, hp, hdigest, -⟩ := hlinked
    have hmake : Node.makeRecord sha (.str r.variant) (.str r.snapshotFen) = .ok r := by
      rw [hp.makeRecord, ← hdigest]
    unfold validateRecord
    rw [hread]
    simp only [hmake, hidentity, ne_eq, not_true_eq_false, if_false]

/-- The identity alone, where it is computed from the record. -/
theorem map_validateRecord_eq_some : (validateRecord sha v).map Prod.fst = some k ↔
    ∃ r, Node.readRecord v = some r ∧ Linked sha k r := by
  rw [Option.map_eq_some_iff]
  constructor
  · intro h
    obtain ⟨⟨k, r⟩, hr, rfl⟩ := h
    exact ⟨r, validateRecord_eq_some.mp hr⟩
  · intro h
    obtain ⟨r, hr⟩ := h
    exact ⟨(k, r), validateRecord_eq_some.mpr hr, rfl⟩

theorem linked_of_validatePayload (h : validatePayload sha v = .ok (k, r)) : Linked sha k r := by
  unfold validatePayload at h
  split at h
  · split at h
    · cases h
    · rename_i hrecord
      split_ifs at h with hsame
      rw [not_not] at hsame
      subst hsame
      obtain ⟨rfl, rfl⟩ := Prod.mk.inj (Except.ok.inj h)
      exact (validateRecord_eq_some.mp hrecord).2
  · cases h

theorem validatePayload_payloadValue (h : Linked sha k r) :
    validatePayload sha (payloadValue k r) = .ok (k, r) := by
  have hnodup : payloadFields.Nodup := by decide
  have hrecord := validateRecord_eq_some.mpr ⟨Node.readRecord_recordValue r, h⟩
  unfold validatePayload payloadValue
  rw [Value.fields?_object hnodup rfl]
  simp only [hrecord, ne_eq, not_true_eq_false, if_false]

theorem opOf?_text (op : Op) : opOf? op.text = some op := by
  cases op <;> decide

/-! ### Validated logs -/

/-- What validation establishes of one entry. -/
structure WellFormed (sha : Sha256) (e : Entry) : Prop where
  grammar : entryGrammar e.entryId = true
  linked : Linked sha e.identity e.record

theorem wellFormed_of_validateEntry (h : validateEntry sha n tip v = .ok e) :
    WellFormed sha e ∧ e.sequence = n ∧ e.prior = tip := by
  unfold validateEntry at h
  split at h
  · split at h
    · cases h
    · split at h
      · split_ifs at h
        split at h
        · split_ifs at h with hgrammar htip
          split at h
          · cases h
          · rename_i hpayload
            obtain rfl := Except.ok.inj h
            simp only [not_or, Bool.not_eq_false] at hgrammar
            rw [not_not] at htip
            exact ⟨⟨hgrammar.1, linked_of_validatePayload hpayload⟩, rfl, htip⟩
        · cases h
      · cases h
  · cases h

theorem WellFormed.validateEntry_toValue (h : WellFormed sha e)
    (hprior : priorGrammar e.prior = true) :
    validateEntry sha e.sequence e.prior e.toValue = .ok e := by
  have hnodup : entryFields.Nodup := by decide
  unfold validateEntry Entry.toValue
  rw [Value.fields?_object hnodup rfl]
  simp only [opOf?_text, ne_eq, not_true_eq_false, if_false, h.grammar, hprior, Bool.true_eq_false,
    or_self, validatePayload_payloadValue h.linked]

theorem validateFrom_cons_eq_ok : validateFrom sha n tip (v :: vs) = .ok es ↔
    ∃ e fs, validateEntry sha n tip v = .ok e ∧ validateFrom sha (n + 1) e.entryId vs = .ok fs ∧
      es = e :: fs := by
  rw [validateFrom]
  cases validateEntry sha n tip v with
  | error err => simp
  | ok e =>
    cases hrest : validateFrom sha (n + 1) e.entryId vs with
    | error err => simp [hrest, Except.map]
    | ok fs => simp [hrest, Except.map, eq_comm]

theorem validateFrom_append_eq_ok : validateFrom sha n tip (vs ++ ws) = .ok gs ↔
    ∃ es fs, validateFrom sha n tip vs = .ok es ∧
      validateFrom sha (n + vs.length) (HashChain.tipOf Entry.entryId tip es) ws = .ok fs ∧
      gs = es ++ fs := by
  induction vs generalizing n tip gs with
  | nil => simp [validateFrom]
  | cons v vs ih =>
    have hposition : n + 1 + vs.length = n + (v :: vs).length := by
      rw [List.length_cons]
      omega
    rw [List.cons_append, validateFrom_cons_eq_ok]
    simp only [ih, validateFrom_cons_eq_ok, hposition]
    constructor
    · intro h
      obtain ⟨e, _, he, ⟨es, fs, hes, hfs, rfl⟩, rfl⟩ := h
      exact ⟨e :: es, fs, ⟨e, es, he, hes, rfl⟩, hfs, rfl⟩
    · intro h
      obtain ⟨_, fs, ⟨e, es, he, hes, rfl⟩, hfs, rfl⟩ := h
      exact ⟨e, es ++ fs, he, ⟨es, fs, hes, hfs, rfl⟩, rfl⟩

/-- A validated log is numbered and chained, and its entries are well formed. -/
structure Validated (sha : Sha256) (n : ℕ) (tip : Text) (es : List Entry) : Prop where
  wellFormed : ∀ e ∈ es, WellFormed sha e
  chained : HashChain.Chained Entry.entryId Entry.prior tip es
  numbered : es.map Entry.sequence = List.range' n es.length

theorem validated_of_validateFrom (h : validateFrom sha n tip vs = .ok es) :
    Validated sha n tip es ∧ es.length = vs.length := by
  induction vs generalizing n tip es with
  | nil =>
    obtain rfl := Except.ok.inj h
    exact ⟨⟨(fun _ he => by cases he), trivial, rfl⟩, rfl⟩
  | cons v vs ih =>
    obtain ⟨e, fs, he, hfs, rfl⟩ := validateFrom_cons_eq_ok.mp h
    obtain ⟨hwf, hsequence, hprior⟩ := wellFormed_of_validateEntry he
    obtain ⟨hvalidated, hlength⟩ := ih hfs
    refine ⟨⟨List.forall_mem_cons.mpr ⟨hwf, hvalidated.wellFormed⟩,
      ⟨hprior, hvalidated.chained⟩, ?_⟩, by simp [hlength]⟩
    rw [List.map_cons, hvalidated.numbered, hsequence, List.length_cons, List.range'_succ]

theorem Validated.priorGrammar_tipOf (h : Validated sha n genesis es) :
    priorGrammar (tipOf es) = true := by
  cases es using List.reverseRecOn with
  | nil => decide
  | append_singleton es e =>
    have he := (h.wellFormed e (by simp)).grammar
    rw [tipOf, HashChain.tipOf_concat, priorGrammar, he, Bool.or_true]

/-! ### Derived ids -/

def Derived (sha : Sha256) (canon : Text → Record → Text) (e : Entry) : Prop :=
  e.entryId = deriveEntryId sha e.sequence e.op (canon e.identity e.record) e.prior

theorem rederive_pure :
    rederive sha (pure canon) es = .ok () ↔ ∀ e ∈ es, Derived sha canon e := by
  induction es with
  | nil => simp [rederive]
  | cons e es ih =>
    have hshift : (fun n => pure canon (n + 1)) = pure canon := rfl
    rw [rederive, List.forall_mem_cons, hshift]
    simp only [pure, canonicalize]
    by_cases h : deriveEntryId sha e.sequence e.op (canon e.identity e.record) e.prior = e.entryId
    · rw [if_neg (not_not.mpr h), ← ih]
      exact (and_iff_right h.symm).symm
    · rw [if_pos h]
      simp only [reduceCtorEq, false_iff, not_and]
      exact fun he => absurd he.symm h

/-- The log is validated, and its ids are derived. -/
structure Accepted (sha : Sha256) (canon : Text → Record → Text) (vs : List Value)
    (es : List Entry) : Prop where
  validated : validateLog sha vs = .ok es
  derived : ∀ e ∈ es, Derived sha canon e

theorem Accepted.nil : Accepted sha canon [] [] := ⟨rfl, fun _ he => by cases he⟩

theorem Accepted.length_eq (h : Accepted sha canon vs es) : es.length = vs.length :=
  (validated_of_validateFrom h.validated).2

theorem Accepted.unique (h : Accepted sha canon vs es) (h' : Accepted sha canon vs fs) : es = fs :=
  Except.ok.inj (h.validated.symm.trans h'.validated)

theorem accepted_append : Accepted sha canon (vs ++ ws) gs → ∃ es fs,
    Accepted sha canon vs es ∧ gs = es ++ fs := by
  intro h
  obtain ⟨es, fs, hes, -, rfl⟩ := validateFrom_append_eq_ok.mp h.validated
  exact ⟨es, fs, ⟨hes, fun e he => h.derived e (List.mem_append_left _ he)⟩, rfl⟩

theorem Accepted.take (h : Accepted sha canon vs es) (n : ℕ) :
    Accepted sha canon (vs.take n) (es.take n) := by
  have hsplit := h
  rw [← List.take_append_drop n vs] at hsplit
  obtain ⟨fs, gs, hfs, rfl⟩ := accepted_append hsplit
  have hlength : fs.length = min n vs.length := by rw [hfs.length_eq, List.length_take]
  have htotal := h.length_eq
  rw [List.length_append] at htotal
  have htake : (fs ++ gs).take n = fs := by
    rcases Nat.le_total n vs.length with hn | hn
    · rw [← (show fs.length = n by omega), List.take_left]
    · have hnil : gs = [] := List.eq_nil_of_length_eq_zero (by omega)
      rw [hnil, List.append_nil, List.take_of_length_le (by omega)]
  rwa [htake]

/-! ### The state -/

theorem lookup_apply (op : Op) (k : Text) (r : Record) (s : Diff.State) (k' : Text) :
    (op.apply k r s).lookup k' =
      if k' = k then (if op = .put then some r else none) else s.lookup k' := by
  by_cases hk : k' = k
  · subst hk
    cases op <;> simp [Op.apply]
  · rw [if_neg hk]
    cases op with
    | put => exact Finmap.lookup_insert_of_ne _ hk
    | delete => exact Finmap.lookup_erase_ne hk

theorem valid_apply {s : Diff.State} (op : Op) (hs : Diff.Valid sha s) (h : Linked sha k r) :
    Diff.Valid sha (op.apply k r s) := by
  intro k' r' hr'
  rw [lookup_apply] at hr'
  split_ifs at hr' with hk hop
  · obtain rfl := Option.some.inj hr'
    rwa [hk]
  · exact hs k' r' hr'

theorem fold_concat (es : List Entry) (e : Entry) :
    fold (es ++ [e]) = e.op.apply e.identity e.record (fold es) := List.foldl_append

theorem valid_fold (h : ∀ e ∈ es, Linked sha e.identity e.record) : Diff.Valid sha (fold es) := by
  induction es using List.reverseRecOn with
  | nil => exact fun k r hr => by cases hr
  | append_singleton es e ih =>
    rw [fold_concat]
    exact valid_apply _ (ih fun x hx => h x (List.mem_append_left _ hx)) (h e (by simp))

def Entry.effect (e : Entry) : Option Record := if e.op = .put then some e.record else none

theorem lookup_fold (es : List Entry) (k : Text) :
    (fold es).lookup k = (es.reverse.find? fun e => e.identity == k).bind Entry.effect := by
  induction es using List.reverseRecOn with
  | nil => rfl
  | append_singleton es e ih =>
    rw [fold_concat, lookup_apply, List.reverse_append, List.reverse_singleton,
      List.singleton_append, List.find?_cons]
    by_cases hk : e.identity = k
    · simp [hk, Entry.effect]
    · rw [if_neg (Ne.symm hk), ih, beq_false_of_ne hk]

/-! ### Replays -/

def receipt (sha : Sha256) (es : List Entry) : Receipt :=
  ⟨fold es, Diff.contentId sha (fold es), tipOf es, es.length⟩

theorem Accepted.linked (h : Accepted sha canon vs es) :
    ∀ e ∈ es, Linked sha e.identity e.record := fun e he =>
  ((validated_of_validateFrom h.validated).1.wellFormed e he).linked

theorem replay_list_eq_ok {out : Receipt} : replay sha (pure canon) (.list vs) = .ok out ↔
    ∃ es, Accepted sha canon vs es ∧ out = receipt sha es := by
  constructor
  · intro h
    simp only [replay] at h
    split at h
    · cases h
    · rename_i es hvalidated
      unfold derive at h
      split at h
      · cases h
      · rename_i hderived
        have haccepted : Accepted sha canon vs es := ⟨hvalidated, rederive_pure.mp hderived⟩
        rw [(valid_fold haccepted.linked).stateId_eq] at h
        exact ⟨es, haccepted, (Except.ok.inj h).symm⟩
  · intro h
    obtain ⟨es, haccepted, rfl⟩ := h
    simp only [replay, haccepted.validated, derive, rederive_pure.mpr haccepted.derived,
      (valid_fold haccepted.linked).stateId_eq]
    rfl

theorem replay_eq_ok {out : Receipt} : replay sha (pure canon) log = .ok out ↔
    ∃ vs es, log = .list vs ∧ Accepted sha canon vs es ∧ out = receipt sha es := by
  cases log with
  | list vs => simp [replay_list_eq_ok]
  | _ => simp [replay]

/-! ### Appends -/

def staged (sha : Sha256) (canon : Text → Record → Text) (es : List Entry) (q : Request) : Entry :=
  ⟨deriveEntryId sha (es.length + 1) q.op (canon q.identity q.record) (tipOf es), es.length + 1,
    q.op, q.identity, q.record, tipOf es⟩

theorem stage_pure (h : ∀ e ∈ es, Derived sha canon e) :
    stage sha (pure canon) es q = .ok (staged sha canon es q) := by
  simp only [stage, rederive_pure.mpr h]
  rfl

theorem linked_of_validateRequest (h : validateRequest sha request = .ok q) :
    Linked sha q.identity q.record := by
  unfold validateRequest at h
  split at h
  · split at h
    · cases h
    · split at h
      · cases h
      · rename_i hpayload
        obtain rfl := Except.ok.inj h
        exact linked_of_validatePayload hpayload
  · cases h

def Request.toValue (q : Request) : Value :=
  .object requestFields [.str q.op.text, payloadValue q.identity q.record]

theorem validateRequest_toValue (h : Linked sha q.identity q.record) :
    validateRequest sha q.toValue = .ok q := by
  have hnodup : requestFields.Nodup := by decide
  unfold validateRequest Request.toValue
  rw [Value.fields?_object hnodup rfl]
  simp only [opOf?_text, validatePayload_payloadValue h]

theorem Accepted.append (h : Accepted sha canon vs es) (hq : Linked sha q.identity q.record) :
    Accepted sha canon (vs ++ [(staged sha canon es q).toValue]) (es ++ [staged sha canon es q]) := by
  obtain ⟨hvalidated, hlength⟩ := validated_of_validateFrom h.validated
  have hwf : WellFormed sha (staged sha canon es q) := ⟨sha.tagged _ _, hq⟩
  have hentry := hwf.validateEntry_toValue hvalidated.priorGrammar_tipOf
  refine ⟨validateFrom_append_eq_ok.mpr ⟨es, _, h.validated, ?_, rfl⟩, fun e he => ?_⟩
  · refine validateFrom_cons_eq_ok.mpr ⟨_, [], ?_, rfl, rfl⟩
    rw [← hlength, Nat.add_comm]
    exact hentry
  · rcases List.mem_append.mp he with he | he
    · exact h.derived e he
    · rw [List.mem_singleton.mp he]
      rfl

theorem append_eq_ok {e : Entry} : append sha (pure canon) log request = .ok (log', e) ↔
    ∃ vs es q, log = .list vs ∧ Accepted sha canon vs es ∧ validateRequest sha request = .ok q ∧
      e = staged sha canon es q ∧ log' = .list (vs ++ [e.toValue]) := by
  constructor
  · intro h
    unfold append at h
    split at h
    · rename_i vs
      split at h
      · cases h
      · rename_i q hq
        split at h
        · cases h
        · rename_i es hes
          split at h
          · cases h
          · rename_i e' hstage
            obtain ⟨rfl, rfl⟩ := Prod.mk.inj (Except.ok.inj h)
            have hderived : ∀ e ∈ es, Derived sha canon e := by
              refine rederive_pure.mp ?_
              unfold stage at hstage
              split at hstage
              · cases hstage
              · assumption
            rw [stage_pure hderived] at hstage
            exact ⟨vs, es, q, rfl, ⟨hes, hderived⟩, hq, (Except.ok.inj hstage).symm, rfl⟩
    · cases h
  · intro h
    obtain ⟨vs, es, q, rfl, haccepted, hq, rfl, rfl⟩ := h
    simp only [append, hq, haccepted.validated, stage_pure haccepted.derived]

/-- With a pure canonicalizer, an append to a replayable log leaves a replayable
log whose state is the old one with the operation applied. An append is refused on a
replayable log only where the request is malformed. A replayed state holds under
every identity the record of the last entry for it, if that is a put. The prefixes of
a replayable log are replayable. -/
theorem append_refines (sha : Sha256) (canon : Text → Record → Text) :
    (∀ log request log' e old, replay sha (pure canon) log = .ok old →
      append sha (pure canon) log request = .ok (log', e) →
      ∃ q new, validateRequest sha request = .ok q ∧ replay sha (pure canon) log' = .ok new ∧
        new.state = q.op.apply q.identity q.record old.state ∧ new.applied = old.applied + 1) ∧
    (∀ log request q old, replay sha (pure canon) log = .ok old →
      validateRequest sha request = .ok q →
      ∃ log' e, append sha (pure canon) log request = .ok (log', e)) ∧
    (∀ vs out, replay sha (pure canon) (.list vs) = .ok out →
      ∃ es, validateLog sha vs = .ok es ∧ ∀ k, out.state.lookup k =
        (es.reverse.find? fun e => e.identity == k).bind Entry.effect) ∧
    ∀ vs n out, replay sha (pure canon) (.list vs) = .ok out →
      ∃ out', replay sha (pure canon) (.list (vs.take n)) = .ok out' := by
  refine ⟨?_, ?_, ?_, ?_⟩
  · intro log request log' e old hreplay happend
    obtain ⟨vs, es, q, rfl, haccepted, hq, rfl, rfl⟩ := append_eq_ok.mp happend
    obtain ⟨fs, haccepted', rfl⟩ := replay_list_eq_ok.mp hreplay
    obtain rfl := haccepted.unique haccepted'
    have hnew := replay_list_eq_ok.mpr
      ⟨_, haccepted.append (linked_of_validateRequest hq), rfl⟩
    refine ⟨q, _, hq, hnew, fold_concat _ _, ?_⟩
    simp only [receipt, List.length_append, List.length_singleton]
  · intro log request q old hreplay hq
    obtain ⟨vs, es, rfl, haccepted, -⟩ := replay_eq_ok.mp hreplay
    exact ⟨_, _, append_eq_ok.mpr ⟨vs, es, q, rfl, haccepted, hq, rfl, rfl⟩⟩
  · intro vs out hreplay
    obtain ⟨es, haccepted, rfl⟩ := replay_list_eq_ok.mp hreplay
    exact ⟨es, haccepted.validated, lookup_fold es⟩
  · intro vs n out hreplay
    obtain ⟨es, haccepted, -⟩ := replay_list_eq_ok.mp hreplay
    exact ⟨_, replay_list_eq_ok.mpr ⟨_, haccepted.take n, rfl⟩⟩

def bareRequest (sha : Sha256) : Request :=
  ⟨.put, Node.bareKey .white, Node.bareRecord sha .white⟩

theorem append_refines_bareKings : ∃ log' e new,
    append (.lengths 64) (pure canonicalPayload) (.list []) (bareRequest (.lengths 64)).toValue =
      .ok (log', e) ∧
    replay (.lengths 64) (pure canonicalPayload) log' = .ok new ∧
    new.state.lookup (Node.bareKey .white) = some (Node.bareRecord (.lengths 64) .white) := by
  have hlinked : Linked (.lengths 64) (bareRequest (.lengths 64)).identity
      (bareRequest (.lengths 64)).record := Node.linked_bareRecord (.lengths 64) .white
  have hrequest := validateRequest_toValue hlinked
  have hempty := replay_list_eq_ok.mpr
    ⟨_, (Accepted.nil : Accepted (.lengths 64) canonicalPayload [] []), rfl⟩
  obtain ⟨hrefines, haccepts, -⟩ := append_refines (.lengths 64) canonicalPayload
  obtain ⟨log', e, happend⟩ := haccepts _ _ _ _ hempty hrequest
  obtain ⟨q, new, hq, hreplay, hstate, -⟩ := hrefines _ _ _ _ _ hempty happend
  obtain rfl := Except.ok.inj (hrequest.symm.trans hq)
  refine ⟨log', e, new, happend, hreplay, ?_⟩
  rw [hstate]
  exact (lookup_apply _ _ _ _ _).trans (if_pos rfl)

end Wal
end OpenChess

/-!
## The head of a log

The hashed text of an entry lists all its fields, separated by characters that
occur in none of them. Where these texts do not collide, the head of a replayed
log determines the log.
-/

namespace OpenChess
namespace Wal

open PositionDigest (Sha256)
open Node (Linked)

variable {sha : Sha256} {e f : Entry} {es fs : List Entry} {vs ws : List Value}

def Entry.text (e : Entry) : Text :=
  entryText e.sequence e.op (canonicalPayload e.identity e.record) e.prior

/-- The fields of the hashed text. -/
def Entry.parts (e : Entry) : List Text :=
  [Nat.toDigits 10 e.sequence, e.op.text, e.identity, e.record.variant, e.record.digest,
    e.record.snapshotFen, e.prior]

theorem text_eq (e : Entry) : e.text = ['\n'].intercalate e.parts := by
  simp [Entry.text, entryText, canonicalPayload, Entry.parts]

theorem newline_not_mem_prior {t : Text} (h : priorGrammar t = true) : '\n' ∉ t := by
  have htag : '\n' ∉ entryTag := by decide
  have hdigits : '\n' ∉ Hex.digits := by decide
  intro hc
  rw [priorGrammar, Bool.or_eq_true, beq_iff_eq] at h
  obtain rfl | h := h
  · exact absurd hc (by decide)
  · exact (Hex.mem_of_tagged h hc).elim htag hdigits

theorem newline_not_mem_parts (h : WellFormed sha e) (hprior : priorGrammar e.prior = true) :
    ∀ t ∈ e.parts, '\n' ∉ t := by
  have hsep := Diff.separable_of_linked h.linked
  have hop : '\n' ∉ e.op.text := by cases e.op <;> decide
  have hnumber : '\n' ∉ Nat.toDigits 10 e.sequence := Separated.notMem_toDigits (by decide) _
  intro t ht
  simp only [Entry.parts, List.mem_cons, List.not_mem_nil, or_false] at ht
  obtain rfl | rfl | rfl | rfl | rfl | rfl | rfl := ht
  · exact hnumber
  · exact hop
  · exact hsep.key
  · exact fun hc => (hsep.variant _ hc).1 rfl
  · exact fun hc => (hsep.digest _ hc).1 rfl
  · exact fun hc => (hsep.snapshot _ hc).1 rfl
  · exact newline_not_mem_prior hprior

theorem parts_eq_of_text_eq (he : WellFormed sha e) (hep : priorGrammar e.prior = true)
    (hf : WellFormed sha f) (hfp : priorGrammar f.prior = true) (h : e.text = f.text) :
    e.parts = f.parts := by
  have hsplit : ∀ {g : Entry}, WellFormed sha g → priorGrammar g.prior = true →
      g.text.splitOn '\n' = g.parts := by
    intro g hg hgp
    rw [text_eq]
    exact List.splitOn_intercalate '\n' (newline_not_mem_parts hg hgp) (by simp [Entry.parts])
  rw [← hsplit he hep, ← hsplit hf hfp, h]

theorem eq_of_parts_eq (hid : e.entryId = f.entryId) (h : e.parts = f.parts) : e = f := by
  obtain ⟨id, n, op, k, ⟨v, d, t⟩, prior⟩ := e
  obtain ⟨id', n', op', k', ⟨v', d', t'⟩, prior'⟩ := f
  simp only [Entry.parts, List.cons.injEq, and_true] at h
  obtain ⟨hn, hop, rfl, rfl, rfl, rfl, rfl⟩ := h
  obtain rfl : id = id' := hid
  obtain rfl : n = n' := Separated.toDigits_injective hn
  have hopText : opOf? op.text = opOf? op'.text := by rw [hop]
  rw [opOf?_text, opOf?_text] at hopText
  obtain rfl := Option.some.inj hopText
  rfl

/-- The link of every entry of a validated log has the form of an id. -/
theorem Validated.priorGrammar (h : Validated sha 1 genesis es) :
    ∀ e ∈ es, Wal.priorGrammar e.prior = true := by
  induction es using List.reverseRecOn with
  | nil => exact fun _ he => by cases he
  | append_singleton es e ih =>
    have hchained := (HashChain.chained_append Entry.entryId Entry.prior).mp h.chained
    have hinit : Validated sha 1 genesis es := by
      refine ⟨fun x hx => h.wellFormed x (List.mem_append_left _ hx), hchained.1, ?_⟩
      have hnumbered := h.numbered
      rw [List.map_append, List.length_append, List.range'_append_1.symm] at hnumbered
      exact (List.append_inj hnumbered (by simp)).1
    intro x hx
    rcases List.mem_append.mp hx with hx | hx
    · exact ih hinit x hx
    · rw [List.mem_singleton.mp hx, hchained.2.1]
      exact hinit.priorGrammar_tipOf

theorem entryId_ne_genesis (h : WellFormed sha e) : e.entryId ≠ genesis := by
  intro heq
  have hgrammar := h.grammar
  rw [heq] at hgrammar
  exact absurd hgrammar (by decide)

/-- Two logs replayed to one head are the same, entry by entry, if the hash tells
the texts of their entries apart. -/
theorem log_eq_of_head (sha : Sha256) (vs ws : List Value) (es fs : List Entry)
    (hes : validateLog sha vs = .ok es) (hfs : validateLog sha ws = .ok fs)
    (hsha : ∀ e ∈ es, ∀ f ∈ fs, sha.Separates e.text f.text) (out out' : Receipt)
    (hout : replay sha (pure canonicalPayload) (.list vs) = .ok out)
    (hout' : replay sha (pure canonicalPayload) (.list ws) = .ok out')
    (hhead : out.head = out'.head) : es = fs ∧ vs.length = ws.length := by
  obtain ⟨es', hvs, rfl⟩ := replay_list_eq_ok.mp hout
  obtain ⟨fs', hws, rfl⟩ := replay_list_eq_ok.mp hout'
  obtain rfl := Except.ok.inj (hes.symm.trans hvs.validated)
  obtain rfl := Except.ok.inj (hfs.symm.trans hws.validated)
  obtain ⟨hvalid, hlength⟩ := validated_of_validateFrom hes
  obtain ⟨hvalid', hlength'⟩ := validated_of_validateFrom hfs
  have heq : es = fs := by
    refine HashChain.eq_of_tipOf_eq Entry.entryId Entry.prior hvalid.chained hvalid'.chained
      (fun e he => ?_) (fun e he f hf hid => ?_) hhead
    · rcases List.mem_append.mp he with he | he
      · exact entryId_ne_genesis (hvalid.wellFormed e he)
      · exact entryId_ne_genesis (hvalid'.wellFormed e he)
    · have hhash : sha.hexdigest e.text = sha.hexdigest f.text := by
        have hderived := hid
        rw [hvs.derived e he, hws.derived f hf] at hderived
        exact List.append_cancel_left hderived
      exact eq_of_parts_eq hid (parts_eq_of_text_eq (hvalid.wellFormed e he)
        (hvalid.priorGrammar e he) (hvalid'.wellFormed f hf) (hvalid'.priorGrammar f hf)
        (hsha e he f hf hhash))
  exact ⟨heq, by rw [← hlength, ← hlength', heq]⟩

/-- The logs that put and that delete the bare kings have different heads. -/
theorem log_eq_of_head_bareKings :
    tipOf [staged (.lengths 64) canonicalPayload [] (bareRequest (.lengths 64))] ≠
      tipOf [staged (.lengths 64) canonicalPayload []
        { bareRequest (.lengths 64) with op := .delete }] := by
  intro hhead
  have haccepted : ∀ q : Request, q.identity = Node.bareKey .white →
      q.record = Node.bareRecord (.lengths 64) .white →
      Accepted (.lengths 64) canonicalPayload [(staged (.lengths 64) canonicalPayload [] q).toValue]
        [staged (.lengths 64) canonicalPayload [] q] := by
    intro q hidentity hrecord
    have hlinked : Linked (.lengths 64) q.identity q.record := by
      rw [hidentity, hrecord]
      exact Node.linked_bareRecord (.lengths 64) .white
    exact Accepted.nil.append hlinked
  have hput := haccepted (bareRequest (.lengths 64)) rfl rfl
  have hdelete := haccepted { bareRequest (.lengths 64) with op := .delete } rfl rfl
  have hsha : (Hex.Hash.lengths 64).Separates
      (staged (.lengths 64) canonicalPayload [] (bareRequest (.lengths 64))).text
      (staged (.lengths 64) canonicalPayload []
        { bareRequest (.lengths 64) with op := .delete }).text :=
    fun h => absurd h (by decide +kernel)
  obtain ⟨hsame, -⟩ := log_eq_of_head (.lengths 64) _ _ _ _ hput.validated hdelete.validated
    (fun e he f hf => by rwa [List.mem_singleton.mp he, List.mem_singleton.mp hf]) _ _
    (replay_list_eq_ok.mpr ⟨_, hput, rfl⟩) (replay_list_eq_ok.mpr ⟨_, hdelete, rfl⟩) hhead
  exact absurd (congrArg (List.map Entry.op) hsame) (by decide)

end Wal
end OpenChess
