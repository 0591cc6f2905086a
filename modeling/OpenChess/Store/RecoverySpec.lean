import Mathlib.Data.List.TakeWhile
import OpenChess.Store.CrashResume
import OpenChess.Store.WalSpec

/-!
# Agreement of the recoveries

Acceptance by replay is closed under prefixes, so the halving of the scan and the
countdown of the resume find the same prefix, the longest that replays. On that
prefix either recovery discards nothing.
-/

namespace OpenChess
namespace Recovery

open PositionDigest (Sha256)
open Wal (Accepted Entry canonicalPayload)
open Corruption (canonicalEncoding encode prefixHead verifiedPrefix sortMembers)
open CrashResume (admissible isCanonicalJson replays validPrefixLength)

variable {sha : Sha256} {log entries : List Value} {es : List Entry} {k m n : ℕ} {v request : Value}

/-! ### Replayable prefixes -/

theorem replays_iff :
    replays sha log k = true ↔ ∃ es, Accepted sha canonicalPayload (log.take k) es := by
  have hiff : (∃ out, Wal.replay sha (Wal.pure canonicalPayload) (.list (log.take k)) = .ok out) ↔
      ∃ es, Accepted sha canonicalPayload (log.take k) es := by
    constructor
    · intro h
      obtain ⟨out, hout⟩ := h
      obtain ⟨es, haccepted, -⟩ := Wal.replay_list_eq_ok.mp hout
      exact ⟨es, haccepted⟩
    · intro h
      obtain ⟨es, haccepted⟩ := h
      exact ⟨_, Wal.replay_list_eq_ok.mpr ⟨es, haccepted, rfl⟩⟩
  rw [← hiff]
  unfold replays
  cases Wal.replay sha (Wal.pure canonicalPayload) (.list (log.take k)) with
  | error e =>
    constructor
    · intro h
      cases h
    · intro h
      obtain ⟨out, hout⟩ := h
      cases hout
  | ok out => exact ⟨fun _ => ⟨out, rfl⟩, fun _ => rfl⟩

theorem replays_zero (sha : Sha256) (log : List Value) : replays sha log 0 = true :=
  replays_iff.mpr ⟨[], Accepted.nil⟩

theorem monotone_replays (sha : Sha256) (log : List Value) :
    PrefixSearch.Monotone (replays sha log) := by
  intro m n hmn h
  obtain ⟨es, haccepted⟩ := replays_iff.mp h
  have htake : (log.take n).take m = log.take m := by rw [List.take_take, Nat.min_eq_left hmn]
  exact replays_iff.mpr ⟨_, htake ▸ haccepted.take m⟩

theorem prefixHead_of_accepted (h : Accepted sha canonicalPayload (log.take k) es) :
    prefixHead sha log k = some (Wal.tipOf es) := by
  unfold prefixHead
  split_ifs with hk
  · subst hk
    obtain rfl := h.unique Accepted.nil
    rfl
  · simp only [Wal.replay_list_eq_ok.mpr ⟨es, h, rfl⟩]
    rfl

theorem isSome_prefixHead (sha : Sha256) (log : List Value) (k : ℕ) :
    (prefixHead sha log k).isSome = replays sha log k := by
  unfold prefixHead
  split_ifs with hk
  · rw [hk, replays_zero]
    rfl
  · unfold replays
    cases Wal.replay sha (Wal.pure canonicalPayload) (.list (log.take k)) with
    | error e => rfl
    | ok out => rfl

def longest (sha : Sha256) (log : List Value) : ℕ :=
  Nat.findGreatest (fun k => replays sha log k = true) log.length

theorem longest_le (sha : Sha256) (log : List Value) : longest sha log ≤ log.length :=
  Nat.findGreatest_le _

theorem exists_accepted_longest (sha : Sha256) (log : List Value) :
    ∃ es, Accepted sha canonicalPayload (log.take (longest sha log)) es :=
  replays_iff.mp (PrefixSearch.findGreatest_good (replays_zero sha log))

theorem le_longest (hk : k ≤ log.length) (h : Accepted sha canonicalPayload (log.take k) es) :
    k ≤ longest sha log := Nat.le_findGreatest hk (replays_iff.mpr ⟨es, h⟩)

theorem verifiedPrefix_eq (h : Accepted sha canonicalPayload (log.take (longest sha log)) es) :
    verifiedPrefix sha log = (longest sha log, some (Wal.tipOf es)) := by
  have hok : (fun n => (prefixHead sha log n).isSome) = replays sha log :=
    funext fun n => isSome_prefixHead sha log n
  unfold verifiedPrefix
  cases hfull : prefixHead sha log log.length with
  | some head =>
    have hreplays : replays sha log log.length = true := by
      rw [← isSome_prefixHead, hfull]
      rfl
    have hlength : longest sha log = log.length :=
      le_antisymm (longest_le sha log) (Nat.le_findGreatest le_rfl hreplays)
    have hhead := prefixHead_of_accepted h
    rw [hlength, hfull] at hhead
    rw [hlength, Option.some.inj hhead]
  | none =>
    have hbad : replays sha log log.length = false := by
      rw [← isSome_prefixHead, hfull]
      rfl
    have hbisect : PrefixSearch.bisect (fun n => (prefixHead sha log n).isSome) log.length 0
        log.length = longest sha log := by
      rw [hok]
      exact PrefixSearch.bisect_eq_findGreatest (monotone_replays sha log) (replays_zero sha log) hbad
    simp only [hbisect, prefixHead_of_accepted h]

/-! ### The scan domain -/

theorem isSome_mapM {α β : Type} {f : α → Option β} {l : List α} :
    (l.mapM f).isSome = true ↔ ∀ a ∈ l, (f a).isSome = true := by
  induction l with
  | nil => simp
  | cons a l ih =>
    rw [List.mapM_cons, List.forall_mem_cons, ← ih]
    cases f a with
    | none => simp
    | some b => cases l.mapM f <;> simp

theorem isSome_encode_list {levels : ℕ} {items : List Value} :
    (encode (levels + 1) (.list items)).isSome = true ↔
      ∀ v ∈ items, (encode levels v).isSome = true := by
  rw [encode, Option.isSome_map, isSome_mapM]

theorem mem_sortMembers {members : List (Text × Value)} {e : Text × Value} :
    e ∈ sortMembers members ↔ e ∈ members := (List.perm_insertionSort _ members).mem_iff

theorem scalarOk_of_lt {i : ℤ} (h : i.natAbs < 2 ^ Corruption.maxIntBits) :
    CrashResume.scalarOk (.int i) = true := by
  have hbits : 2 ^ Corruption.maxIntBits ≤ 2 ^ CrashResume.maxIntBits :=
    Nat.pow_le_pow_right (by decide) (by decide)
  have hdigits : 2 ^ Corruption.maxIntBits ≤ 10 ^ 78 := by decide
  have hlength : (Nat.toDigits 10 i.natAbs).length ≤ 78 :=
    (Nat.length_toDigits_le_iff (by decide) (by decide)).mpr (h.trans_le hdigits)
  simp only [CrashResume.scalarOk, Bool.and_eq_true, decide_eq_true_eq]
  exact ⟨h.trans_le hbits, hlength.trans (by decide)⟩

theorem admissible_of_encode {levels : ℕ} (h : (encode levels v).isSome = true) :
    ∀ m, levels ≤ m → admissible m v = true := by
  induction levels generalizing v with
  | zero => simp [encode] at h
  | succ levels ih =>
    intro m hm
    obtain ⟨m, rfl⟩ : ∃ n, m = n + 1 := ⟨m - 1, by omega⟩
    have hm : levels ≤ m := by omega
    cases v with
    | null => rfl
    | bool b => rfl
    | int i =>
      rw [admissible]
      · refine scalarOk_of_lt (not_le.mp fun hlarge => ?_)
        rw [encode, if_pos hlarge] at h
        cases h
      · exact fun _ hv => by cases hv
      · exact fun _ hv => by cases hv
    | float finite text => cases h
    | str t => rfl
    | list items =>
      rw [admissible, List.all_eq_true]
      exact fun v hv => ih (isSome_encode_list.mp h v hv) m hm
    | dict members =>
      rw [encode] at h
      rw [admissible]
      cases hmembers : (Value.dict members).members? with
      | none =>
        rw [hmembers] at h
        cases h
      | some l =>
        rw [hmembers] at h
        simp only [Option.isSome_map, isSome_mapM, mem_sortMembers] at h
        simp only [List.all_eq_true, Bool.and_eq_true]
        exact fun e he => ⟨rfl, ih (h e he) m hm⟩
    | foreign tag => cases h

theorem isCanonicalJson_of_domain (h : (canonicalEncoding (.list entries)).isSome = true) :
    ∀ v ∈ entries, isCanonicalJson v = true := fun v hv =>
  admissible_of_encode (isSome_encode_list.mp h v hv) _ (by decide)

theorem domain_of_subset {l : List Value} (h : (canonicalEncoding (.list entries)).isSome = true)
    (hl : ∀ v ∈ l, v ∈ entries) : (canonicalEncoding (.list l)).isSome = true :=
  isSome_encode_list.mpr fun v hv => isSome_encode_list.mp h v (hl v hv)

/-! ### The honest scan -/

/-- With enough loss allowed, a scan leaves the longest prefix. -/
theorem scan_eq {maxLoss : ℤ} (hrequest : request.fields? Corruption.requestFields =
      some [.int maxLoss]) (hdomain : (canonicalEncoding (.list entries)).isSome = true)
    (hnonneg : 0 ≤ maxLoss) (hloss : ((entries.length - longest sha entries : ℕ) : ℤ) ≤ maxLoss)
    (h : Accepted sha canonicalPayload (entries.take (longest sha entries)) es) :
    ∃ r, Corruption.scan sha (Corruption.honest sha) (.list entries) request =
        .ok (.list (entries.take (longest sha entries)), r) ∧
      r.verifiedHead = some (Wal.tipOf es) ∧ r.verifiedCount = longest sha entries ∧
      r.quarantinedCount = entries.length - longest sha entries := by
  obtain ⟨raw, hraw⟩ := Option.isSome_iff_exists.mp hdomain
  have hsuffix : (canonicalEncoding (.list (entries.drop (longest sha entries)))).isSome = true :=
    domain_of_subset hdomain fun v hv => List.mem_of_mem_drop hv
  obtain ⟨suffix, hsuffix⟩ := Option.isSome_iff_exists.mp hsuffix
  unfold Corruption.scan
  simp only [hrequest, hraw, verifiedPrefix_eq h, if_neg (not_lt.mpr hnonneg),
    if_neg (not_lt.mpr hloss)]
  by_cases hclean : entries.length - longest sha entries = 0
  · rw [if_pos hclean, List.take_of_length_le (by omega)]
    exact ⟨_, rfl, rfl, rfl, hclean.symm⟩
  · have htoken : Corruption.quarantineSuffix sha (entries.drop (longest sha entries)) =
        some (Corruption.tokenTag ++ sha.hexdigest ("qrn1|".toList ++ suffix)) := by
      rw [Corruption.quarantineSuffix, hsuffix]
      rfl
    have hgrammar := sha.tagged Corruption.tokenTag ("qrn1|".toList ++ suffix)
    rw [if_neg hclean]
    simp only [Corruption.token, Corruption.honest, htoken, Option.map_some, Corruption.quarantine,
      hgrammar, Bool.true_eq_false, if_false, ne_eq, not_true_eq_false]
    exact ⟨_, rfl, rfl, rfl, rfl⟩

/-! ### Accepted requests -/

theorem accepted_of_rollbackPlan {plan : Rollback.Plan}
    (h : Rollback.plan sha (.list entries) request = .ok plan) :
    request.fields? Rollback.requestFields = some [.int plan.target] ∧
      plan.target ≤ entries.length ∧ Accepted sha canonicalPayload entries plan.frozen := by
  simp only [Rollback.plan] at h
  split at h
  · rename_i target hrequest
    split at h
    · cases h
    · rename_i out hreplay
      split_ifs at h with hrange
      obtain ⟨es, haccepted, -⟩ := Wal.replay_list_eq_ok.mp hreplay
      rw [haccepted.validated] at h
      obtain rfl := Except.ok.inj h
      obtain ⟨n, rfl⟩ := Int.eq_ofNat_of_zero_le (show 0 ≤ target by omega)
      exact ⟨hrequest, by simp only [Int.toNat_natCast]; omega, haccepted⟩
  · cases h

theorem accepted_of_resumePlan {plan : CrashResume.Plan}
    (h : CrashResume.plan sha (.list entries) request = .ok plan) :
    (∃ checkpoint, request.fields? CrashResume.requestFields = some [.int checkpoint]) ∧
      plan.kept ≤ entries.length ∧ plan.tail = entries.drop plan.kept ∧
      (∀ v ∈ entries, isCanonicalJson v = true) ∧
      ∃ es, Accepted sha canonicalPayload (entries.take plan.kept) es := by
  simp only [CrashResume.plan] at h
  split at h
  · rename_i checkpoint hrequest
    split_ifs at h with hneg hmissing hdamaged htail
    rw [Bool.not_eq_false, List.all_eq_true] at htail
    have hcap : validPrefixLength sha entries ≤ (entries.takeWhile isCanonicalJson).length :=
      Nat.findGreatest_le _
    have hsplit := List.take_append_drop (validPrefixLength sha entries) entries
    have hcanonical : ∀ v ∈ entries, isCanonicalJson v = true := by
      intro v hv
      rw [← hsplit] at hv
      rcases List.mem_append.mp hv with hv | hv
      · have htake : entries.take (validPrefixLength sha entries) <+:
            entries.takeWhile isCanonicalJson := by
          rw [List.prefix_iff_eq_take.mp (List.takeWhile_prefix isCanonicalJson)]
          exact List.take_prefix_take_left hcap
        exact List.mem_takeWhile_imp (htake.subset hv)
      · exact htail v hv
    split at h
    · cases h
    · rename_i hreplay
      obtain rfl := Except.ok.inj h
      obtain ⟨es, haccepted, -⟩ := Wal.replay_list_eq_ok.mp hreplay
      exact ⟨⟨checkpoint, hrequest⟩, hcap.trans (List.takeWhile_prefix _).length_le, rfl,
        hcanonical, es, haccepted⟩
  · cases h

/-! ### The honest resume -/

theorem validPrefixLength_eq (h : ∀ v ∈ entries, isCanonicalJson v = true) :
    validPrefixLength sha entries = longest sha entries := by
  have hcap : entries.takeWhile isCanonicalJson = entries := List.takeWhile_eq_self_iff.mpr h
  rw [validPrefixLength, hcap, longest]

/-- From the start of the log, a resume leaves the longest prefix. -/
theorem resume_eq (hrequest : request.fields? CrashResume.requestFields = some [.int 0])
    (hadmissible : ∀ v ∈ entries, isCanonicalJson v = true)
    (h : Accepted sha canonicalPayload (entries.take (longest sha entries)) es) :
    ∃ r, CrashResume.resume sha (CrashResume.honest sha) (.list entries) request =
        .ok (.list (entries.take (longest sha entries)), r) ∧
      r.head = Wal.tipOf es ∧ r.stateId = Diff.contentId sha (Wal.fold es) ∧
      r.resumedCount = longest sha entries ∧
      r.discardedCount = entries.length - longest sha entries := by
  have hreplay := Wal.replay_list_eq_ok.mpr ⟨es, h, rfl⟩
  have hall : (entries.drop (longest sha entries)).all isCanonicalJson = true :=
    List.all_eq_true.mpr fun v hv => hadmissible v (List.mem_of_mem_drop hv)
  have hnonneg : ∀ n : ℕ, ¬ ((n : ℤ) < 0) := fun n => by omega
  have hplan : CrashResume.plan sha (.list entries) request = .ok ⟨longest sha entries,
      entries.drop (longest sha entries), Wal.receipt sha es⟩ := by
    unfold CrashResume.plan
    simp only [hrequest, validPrefixLength_eq hadmissible, hnonneg, hall, hreplay, lt_self_iff_false,
      if_false, Bool.true_eq_false]
  have hgrammar : Hex.tagged CrashResume.tokenTag 64
      (CrashResume.quarantineTail sha (entries.drop (longest sha entries))) = true :=
    sha.tagged _ _
  unfold CrashResume.resume
  rw [hplan]
  simp only [CrashResume.Plan.token, CrashResume.honest, CrashResume.quarantine, hgrammar,
    Bool.true_eq_false, if_false, ne_eq, not_true_eq_false]
  exact ⟨_, rfl, rfl, rfl, rfl, List.length_drop⟩

/-! ### Entries of the scan domain -/

theorem isSome_encode_object {levels : ℕ} {names : List Text} {values : List Value}
    (hnodup : names.Nodup) (hlength : names.length = values.length)
    (h : ∀ v ∈ values, (encode levels v).isSome = true) :
    (encode (levels + 1) (.object names values)).isSome = true := by
  have hnames : (names.zip values).map Prod.fst = names := List.map_fst_zip (le_of_eq hlength)
  have hmembers : (Value.object names values).members? = some (names.zip values) :=
    Value.members?_ofMembers (by rwa [hnames])
  simp only [Value.object, Value.ofMembers] at hmembers ⊢
  rw [encode, hmembers]
  simp only [Option.isSome_map, isSome_mapM, mem_sortMembers]
  exact fun e he => h e.2 (List.of_mem_zip he).2

/-- An entry whose sequence number is in range lies in the scan domain. -/
theorem isSome_encode_entry {e : Entry} (h : e.sequence < 2 ^ Corruption.maxIntBits) :
    (encode 7 e.toValue).isSome = true := by
  have hstr : ∀ (levels : ℕ) (t : Text), (encode (levels + 1) (.str t)).isSome = true :=
    fun _ _ => rfl
  have hsequence : (encode 6 (.int e.sequence)).isSome = true := by
    rw [encode, Int.natAbs_natCast, if_neg (by omega)]
    rfl
  have hrecord : (encode 5 (Node.recordValue e.record)).isSome = true :=
    isSome_encode_object (by decide) rfl (by simp [hstr])
  have hpayload : (encode 6 (Wal.payloadValue e.identity e.record)).isSome = true :=
    isSome_encode_object (by decide) rfl (by simp [hstr, hrecord])
  exact isSome_encode_object (by decide) rfl (by simp [hstr, hsequence, hpayload])

/-! ### Agreement -/

theorem longest_of_accepted (h : Accepted sha canonicalPayload log es) :
    longest sha log = log.length := by
  have hfull : Accepted sha canonicalPayload (log.take log.length) es := by rwa [List.take_length]
  exact le_antisymm (longest_le sha log) (le_longest le_rfl hfull)

/-- On a log of the scan domain, the scan that may lose anything and the resume from
the start leave the same prefix, the longest that replays, and report its head and
state. Run again on it, either discards nothing and reports the same. -/
theorem recoveries_agree (sha : Sha256) (entries : List Value) (scanRequest resumeRequest : Value)
    (maxLoss : ℤ) (hdomain : (canonicalEncoding (.list entries)).isSome = true)
    (hscan : scanRequest.fields? Corruption.requestFields = some [.int maxLoss])
    (hresume : resumeRequest.fields? CrashResume.requestFields = some [.int 0])
    (hloss : (entries.length : ℤ) ≤ maxLoss) :
    ∃ k ≤ entries.length, ∃ out r r',
      Wal.replay sha (Wal.pure canonicalPayload) (.list (entries.take k)) = .ok out ∧
      (∀ n out', k < n → n ≤ entries.length →
        Wal.replay sha (Wal.pure canonicalPayload) (.list (entries.take n)) ≠ .ok out') ∧
      Corruption.scan sha (Corruption.honest sha) (.list entries) scanRequest =
        .ok (.list (entries.take k), r) ∧ r.verifiedHead = some out.head ∧
      CrashResume.resume sha (CrashResume.honest sha) (.list entries) resumeRequest =
        .ok (.list (entries.take k), r') ∧ r'.head = out.head ∧ r'.stateId = out.stateId ∧
      (∃ s, Corruption.scan sha (Corruption.honest sha) (.list (entries.take k)) scanRequest =
        .ok (.list (entries.take k), s) ∧ s.quarantinedCount = 0 ∧
          s.verifiedHead = some out.head) ∧
      ∃ s, CrashResume.resume sha (CrashResume.honest sha) (.list (entries.take k)) resumeRequest =
        .ok (.list (entries.take k), s) ∧ s.discardedCount = 0 ∧ s.head = out.head ∧
          s.stateId = out.stateId := by
  obtain ⟨es, h⟩ := exists_accepted_longest sha entries
  have hle := longest_le sha entries
  have hkept := longest_of_accepted h
  have hagain : (entries.take (longest sha entries)).take
      (longest sha (entries.take (longest sha entries))) =
        entries.take (longest sha entries) := by
    rw [hkept, List.take_length]
  have h' : Accepted sha canonicalPayload ((entries.take (longest sha entries)).take
      (longest sha (entries.take (longest sha entries)))) es := by rwa [hagain]
  have hnonneg : 0 ≤ maxLoss := by omega
  have hdomain' : (canonicalEncoding (.list (entries.take (longest sha entries)))).isSome = true :=
    domain_of_subset hdomain fun v hv => List.mem_of_mem_take hv
  obtain ⟨r, hr, hhead, -, -⟩ := scan_eq hscan hdomain hnonneg (by omega) h
  obtain ⟨r', hr', hhead', hstate', -, -⟩ :=
    resume_eq hresume (isCanonicalJson_of_domain hdomain) h
  obtain ⟨s, hs, hsHead, -, hsLost⟩ := scan_eq hscan hdomain' hnonneg (by omega) h'
  obtain ⟨s', hs', hsHead', hsState', -, hsLost'⟩ :=
    resume_eq hresume (isCanonicalJson_of_domain hdomain') h'
  rw [hagain] at hs hs'
  rw [hkept, Nat.sub_self] at hsLost hsLost'
  refine ⟨longest sha entries, hle, Wal.receipt sha es, r, r',
    Wal.replay_list_eq_ok.mpr ⟨es, h, rfl⟩, ?_, hr, hhead, hr', hhead', hstate',
    ⟨s, hs, hsLost, hsHead⟩, s', hs', hsLost', hsHead', hsState'⟩
  intro n out' hlt hn hreplay
  obtain ⟨fs, hfs, -⟩ := Wal.replay_list_eq_ok.mp hreplay
  exact absurd (le_longest hn hfs) (not_le.mpr hlt)

/-- The entry of the bare kings, and behind it a value that is no entry. -/
theorem recoveries_agree_bareKings :
    let entry := (Wal.staged (.lengths 64) canonicalPayload []
      (Wal.bareRequest (.lengths 64))).toValue
    ∃ k, 1 ≤ k ∧ k ≤ 2 ∧ ∃ r r',
      Corruption.scan (.lengths 64) (Corruption.honest (.lengths 64)) (.list [entry, .null])
          (.object Corruption.requestFields [.int 2]) = .ok (.list ([entry, .null].take k), r) ∧
      CrashResume.resume (.lengths 64) (CrashResume.honest (.lengths 64)) (.list [entry, .null])
          (.object CrashResume.requestFields [.int 0]) =
        .ok (.list ([entry, .null].take k), r') := by
  intro entry
  have haccepted := (Accepted.nil : Accepted (.lengths 64) canonicalPayload [] []).append
    (q := Wal.bareRequest (.lengths 64)) (Node.linked_bareRecord (.lengths 64) .white)
  have hdomain : (canonicalEncoding (.list [entry, .null])).isSome = true := by
    refine isSome_encode_list.mpr fun v hv => ?_
    rcases List.mem_cons.mp hv with rfl | hv
    · exact isSome_encode_entry (by decide)
    · rw [List.mem_singleton.mp hv]
      rfl
  obtain ⟨k, hk, out, r, r', -, hlongest, hr, -, hr', -⟩ := recoveries_agree (.lengths 64)
    [entry, .null] (.object Corruption.requestFields [.int 2])
    (.object CrashResume.requestFields [.int 0]) 2 hdomain (Value.fields?_object (by decide) rfl)
    (Value.fields?_object (by decide) rfl) (by simp)
  refine ⟨k, ?_, hk, r, r', hr, hr'⟩
  by_contra hnone
  exact hlongest 1 _ (by omega) (by simp) (Wal.replay_list_eq_ok.mpr ⟨_, haccepted, rfl⟩)

end Recovery
end OpenChess
