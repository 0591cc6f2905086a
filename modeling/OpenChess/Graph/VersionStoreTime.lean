import OpenChess.Graph.VersionStoreMerge

/-!
# Timestamps of a version store

An insertion compares the texts of two timestamps by code points, and their
instants are read from decimal digits of any script. The two orders agree as long
as no comparison is decided between digits of different scripts.
-/

namespace OpenChess
namespace VersionStore

open ParentsFirst (keys)
open Decimal (readNat digit? stampFrom Aligned SameScript)

variable {sha : Sha256} {r : Record} {s s' o t t' : Store} {v w : Text} {i j : Instant}

/-! ### Instants -/

def Instant.fields (i : Instant) : List ℕ :=
  [i.year, i.month, i.day, i.hour, i.minute, i.second]

def NotEarlier (child parent : Text) : Prop :=
  ∃ i j, readInstant child = some i ∧ readInstant parent = some j ∧ ¬ i.fields < j.fields

def Chronological (s : Store) : Prop := OnEdges (fun r rp => NotEarlier r.createdAt rp.createdAt) s

/-- The fields as one number of fourteen digits. -/
def Instant.stamp (i : Instant) : ℕ :=
  ((((i.year * 100 + i.month) * 100 + i.day) * 100 + i.hour) * 100 + i.minute) * 100 + i.second

def Instant.TwoDigit (i : Instant) : Prop :=
  i.month < 100 ∧ i.day < 100 ∧ i.hour < 100 ∧ i.minute < 100 ∧ i.second < 100

theorem Instant.stamp_lt (hi : i.TwoDigit) (hj : j.TwoDigit) (h : i.fields < j.fields) :
    i.stamp < j.stamp := by
  obtain ⟨hi1, hi2, hi3, hi4, hi5⟩ := hi
  obtain ⟨hj1, hj2, hj3, hj4, hj5⟩ := hj
  simp only [Instant.fields, List.cons_lt_cons_iff, List.not_lt_nil, and_false, or_false] at h
  unfold Instant.stamp
  omega

/-! ### The form of a timestamp -/

theorem slice_append (v : Text) {a b : ℕ} (h : a ≤ b) : slice v a b ++ v.drop b = v.drop a := by
  have hdrop : v.drop b = (v.drop a).drop (b - a) := by
    rw [List.drop_drop]
    congr 1
    omega
  rw [slice, hdrop, List.take_append_drop]

theorem length_slice {a b : ℕ} (h : b ≤ v.length) : (slice v a b).length = b - a := by
  rw [slice, List.length_take, List.length_drop]
  omega

/-- A timestamp is six runs of digits between fixed separators. -/
structure Written (v : Text) (i : Instant) (runs : Fin 6 → Text) : Prop where
  text : v = runs 0 ++ (['-'] ++ (runs 1 ++ (['-'] ++ (runs 2 ++ (['T'] ++ (runs 3 ++ ([':'] ++
    (runs 4 ++ ([':'] ++ (runs 5 ++ ['Z']))))))))))
  lengths : ∀ n, (runs n).length = if n = 0 then 4 else 2
  read : ∀ n, readNat (runs n) = i.fields[n.val]?

theorem exists_written (h : readInstant v = some i) : ∃ runs, Written v i runs := by
  unfold readInstant at h
  split_ifs at h with hform
  obtain ⟨hlength, h4, h7, h10, h13, h16, h19⟩ := hform
  simp only [Option.bind_eq_bind, Option.pure_def, Option.bind_eq_some_iff,
    Option.some.injEq] at h
  obtain ⟨year, hyear, month, hmonth, day, hday, hour, hhour, minute, hminute, second, hsecond,
    rfl⟩ := h
  refine ⟨![slice v 0 4, slice v 5 7, slice v 8 10, slice v 11 13, slice v 14 16, slice v 17 19],
    ?_, ?_, ?_⟩
  · have hsplit : ∀ a b : ℕ, a ≤ b → v.drop a = slice v a b ++ v.drop b :=
      fun a b hab => (slice_append v hab).symm
    have hend : v.drop 20 = [] := List.drop_eq_nil_of_le (by omega)
    calc v = v.drop 0 := rfl
      _ = _ := by
        rw [hsplit 0 4 (by decide), hsplit 4 5 (by decide), hsplit 5 7 (by decide),
          hsplit 7 8 (by decide), hsplit 8 10 (by decide), hsplit 10 11 (by decide),
          hsplit 11 13 (by decide), hsplit 13 14 (by decide), hsplit 14 16 (by decide),
          hsplit 16 17 (by decide), hsplit 17 19 (by decide), hsplit 19 20 (by decide), hend,
          h4, h7, h10, h13, h16, h19, List.append_nil]
        rfl
  · intro n
    have hslice : ∀ a b : ℕ, b ≤ 20 → (slice v a b).length = b - a :=
      fun a b hb => length_slice (hlength ▸ hb)
    fin_cases n <;> exact hslice _ _ (by decide)
  · intro n
    fin_cases n
    · exact hyear
    · exact hmonth
    · exact hday
    · exact hhour
    · exact hminute
    · exact hsecond

variable {runs runs' : Fin 6 → Text}

theorem Written.digits (h : Written v i runs) (n : Fin 6) : ∀ c ∈ runs n, (digit? c).isSome := by
  have hfield : ∃ m, i.fields[n.val]? = some m := by
    fin_cases n <;> exact ⟨_, rfl⟩
  obtain ⟨m, hm⟩ := hfield
  exact (Decimal.readNat_eq_some ((h.read n).trans hm)).1

/-- The value of a run, and its bound. -/
theorem Written.field (h : Written v i runs) {n : Fin 6} {m : ℕ} (hm : i.fields[n.val]? = some m)
    (acc : ℕ) : stampFrom acc (runs n) = acc * 10 ^ (runs n).length + m ∧
      m < 10 ^ (runs n).length := by
  have hvalue := (Decimal.readNat_eq_some ((h.read n).trans hm)).2
  have hplace := Decimal.stampFrom_digits (n := acc) (h.digits n)
  rwa [hvalue] at hplace

theorem Written.twoDigit (h : Written v i runs) : i.TwoDigit := by
  have hbound : ∀ (n : Fin 6) (m : ℕ), n ≠ 0 → i.fields[n.val]? = some m → m < 100 := by
    intro n m hn hm
    have hlt := (h.field hm 0).2
    rwa [h.lengths n, if_neg hn] at hlt
  exact ⟨hbound 1 _ (by decide) rfl, hbound 2 _ (by decide) rfl, hbound 3 _ (by decide) rfl,
    hbound 4 _ (by decide) rfl, hbound 5 _ (by decide) rfl⟩

theorem Written.stamp (h : Written v i runs) : stampFrom 0 v = i.stamp := by
  have hseparator : ∀ (acc : ℕ) (c : Char), digit? c = none → stampFrom acc [c] = acc :=
    fun acc c hc => Decimal.stampFrom_cons_separator hc
  have hdash : digit? '-' = none := by decide
  have htee : digit? 'T' = none := by decide
  have hcolon : digit? ':' = none := by decide
  have hzed : digit? 'Z' = none := by decide
  have hyear := fun acc => (h.field (n := 0) (m := i.year) rfl acc).1
  have hmonth := fun acc => (h.field (n := 1) (m := i.month) rfl acc).1
  have hday := fun acc => (h.field (n := 2) (m := i.day) rfl acc).1
  have hhour := fun acc => (h.field (n := 3) (m := i.hour) rfl acc).1
  have hminute := fun acc => (h.field (n := 4) (m := i.minute) rfl acc).1
  have hsecond := fun acc => (h.field (n := 5) (m := i.second) rfl acc).1
  rw [h.text]
  simp only [Decimal.stampFrom_append, hseparator _ _ hdash, hseparator _ _ htee,
    hseparator _ _ hcolon, hseparator _ _ hzed, hyear, hmonth, hday, hhour, hminute, hsecond,
    h.lengths, Fin.reduceEq, if_false, Nat.zero_mul, Nat.zero_add, Instant.stamp]
  norm_num

theorem Written.aligned (h : Written v i runs) (h' : Written w j runs') : Aligned v w := by
  have hrun : ∀ n, Aligned (runs n) (runs' n) := fun n =>
    Decimal.aligned_digits (h.digits n) (h'.digits n) ((h.lengths n).trans (h'.lengths n).symm)
  have hsame : ∀ c : Char, Aligned [c] [c] := fun c => Decimal.aligned_refl [c]
  rw [h.text, h'.text]
  exact (hrun 0).append ((hsame _).append ((hrun 1).append ((hsame _).append ((hrun 2).append
    ((hsame _).append ((hrun 3).append ((hsame _).append ((hrun 4).append ((hsame _).append
      ((hrun 5).append (hsame _)))))))))))

theorem notEarlier_of_sameScript (hv : readInstant v = some i) (hw : readInstant w = some j)
    (hscript : SameScript v w) (hle : ¬ v < w) : NotEarlier v w := by
  obtain ⟨runs, hruns⟩ := exists_written hv
  obtain ⟨runs', hruns'⟩ := exists_written hw
  refine ⟨i, j, hv, hw, fun hlt => ?_⟩
  have hstamp := Decimal.stampFrom_le (n := 0) (hruns.aligned hruns') hscript hle
  rw [hruns.stamp, hruns'.stamp] at hstamp
  exact absurd (Instant.stamp_lt hruns.twoDigit hruns'.twoDigit hlt) (not_lt.mpr hstamp)

/-! ### Runs -/

/-- The insertion of a valid record that is new, and whose parents are stored and have no larger
timestamp, compares it with them in one script. -/
def InsertComparable (sha : Sha256) (record : RecordObject) (s : Store) : Prop :=
  ∀ members r, record = .mapping members → readRecord members = some r → validate sha r = true →
    r.versionId ∉ keys s.records →
    (∀ p ∈ r.parentIds, ∃ rp, (p, rp) ∈ s.records ∧ ¬ r.createdAt < rp.createdAt) →
    ∀ p ∈ r.parentIds, ∀ rp, (p, rp) ∈ s.records → SameScript r.createdAt rp.createdAt

def Among (s o : Store) (p : Text) (rp : Record) : Prop :=
  (p, rp) ∈ s.records ∨ rp ∈ pendingOf o ∧ rp.versionId = p

/-- No check of a merge refuses an incoming record: all are valid, stored ones are the same, their
parents are there and have no larger timestamp, and there is one root. -/
structure Admitted (sha : Sha256) (s o : Store) : Prop where
  valid : (pendingOf o).all (validate sha) = true
  same : ∀ r ∈ pendingOf o, ∀ r', (r.versionId, r') ∈ s.records → r' = r.canonical
  parents : ∀ r ∈ pendingOf o, ∀ p ∈ r.parentIds,
    ∃ rp, Among s o p rp ∧ ¬ r.createdAt < rp.createdAt
  root : ∀ k r k' r', Among s o k r → Among s o k' r' → r.parentIds = [] → r'.parentIds = [] →
    k = k'

/-- A merge whose records are all admitted compares the new ones with their stored or incoming
parents in one script. -/
def MergeComparable (sha : Sha256) (other : Other) (s : Store) : Prop :=
  ∀ o, other = .store o → Admitted sha s o → ∀ r ∈ pendingOf o, r.versionId ∉ keys s.records →
    ∀ p ∈ r.parentIds, ∀ rp, Among s o p rp → SameScript r.createdAt rp.createdAt

/-- Stores reached by steps, accepted or rejected, that meet the condition. -/
inductive ScriptedRun (sha : Sha256) : Store → Prop
  | new : ScriptedRun sha Store.new
  | insert {s : Store} {record : RecordObject} : ScriptedRun sha s → InsertComparable sha record s →
      ScriptedRun sha (insert sha record s).2
  | merge {s s' : Store} {rounds : ℕ} {other : Other} {out : Except VersionError Unit} :
      ScriptedRun sha s → MergeComparable sha other s →
      merge sha rounds other s = some (out, s') → ScriptedRun sha s'

abbrev Scripted (s : Store) : Prop :=
  OnEdges (fun r rp => SameScript r.createdAt rp.createdAt) s

theorem Scripted.insert (hq : Scripted s) (h : Lineage sha s) {record : RecordObject}
    (hrecord : InsertComparable sha record s) : Scripted (insert sha record s).2 := by
  cases record with
  | foreign tag => exact hq
  | mapping members =>
    rw [VersionStore.insert]
    cases hread : readRecord members with
    | none => exact hq
    | some r =>
      dsimp only
      by_cases hvalid : validate sha r = true
      · rcases h.insertRecord_eq hvalid with ⟨-, heq⟩ | ⟨hnew, hfits, heq⟩ | ⟨⟨e, heq⟩, -⟩
        · rwa [heq]
        · rw [heq]
          refine hq.push h hnew hfits.mem_keys fun p hp rp hrp => ?_
          exact hrecord members r rfl hread hvalid hnew
            (fun p hp => hfits.parents p (mem_canonical.mpr hp)) p (mem_canonical.mp hp) rp hrp
        · rwa [heq]
      · rw [VersionStore.insertRecord, if_pos (by simpa using hvalid)]
        exact hq

/-- What a store is after a merge that succeeds. -/
structure Joined (sha : Sha256) (s o t : Store) : Prop where
  sound : Sound sha t
  grows : ∀ e ∈ s.records, e ∈ t.records
  gains : ∀ e ∈ t.records, e ∈ s.records ∨ ∃ r ∈ pendingOf o, e = (r.versionId, r.canonical)
  covers : ∀ r ∈ pendingOf o, (r.versionId, r.canonical) ∈ t.records

theorem Sound.joined {rounds : ℕ} (h : Sound sha s)
    (hloop : VersionStore.mergeLoop sha rounds (pendingOf o) s = some (.ok (), t)) :
    Joined sha s o t :=
  ⟨h.mergeLoop hloop, fun _ he => mergeLoop_grows h hloop he, mergeLoop_gains h hloop,
    mergeLoop_covers h hloop⟩

theorem Joined.mem_of_among {p : Text} {rp : Record} (h : Joined sha s o t)
    (hamong : Among s o p rp) : ∃ rp', (p, rp') ∈ t.records ∧ rp'.createdAt = rp.createdAt ∧
      (rp.parentIds = [] → rp'.parentIds = []) := by
  rcases hamong with hrp | ⟨hrp, rfl⟩
  · exact ⟨rp, h.grows _ hrp, rfl, id⟩
  · refine ⟨rp.canonical, h.covers rp hrp, rfl, fun hnil => ?_⟩
    rw [Record.canonical, hnil]
    rfl

theorem Joined.among {p : Text} {rp : Record} (h : Joined sha s o t) (hrp : (p, rp) ∈ t.records) :
    ∃ rp', Among s o p rp' ∧ rp'.createdAt = rp.createdAt := by
  rcases h.gains _ hrp with hold | ⟨rp', hrp', heq⟩
  · exact ⟨rp, .inl hold, rfl⟩
  · obtain ⟨rfl, rfl⟩ := Prod.mk.inj heq
    exact ⟨rp', .inr ⟨hrp', rfl⟩, rfl⟩

/-- A merge that succeeds has refused no record. -/
theorem Joined.admitted (h : Joined sha s o t)
    (hvalid : (pendingOf o).all (validate sha) = true) : Admitted sha s o := by
  refine ⟨hvalid, fun r hr r' hr' => ?_, fun r hr p hp => ?_, ?_⟩
  · exact h.sound.lineage.record_unique (h.grows _ hr') (h.covers r hr)
  · have hcanonical : p ∈ r.canonical.parentIds := mem_canonical.mpr hp
    have hstored := h.covers r hr
    obtain ⟨rp, hrp⟩ := ParentsFirst.mem_keys.mp
      (h.sound.lineage.grown.parent_mem ⟨_, hstored, hcanonical⟩)
    obtain ⟨rp', hamong, hcreated⟩ := h.among hrp
    refine ⟨rp', hamong, ?_⟩
    rw [hcreated]
    exact h.sound.ordered.created _ r.canonical p rp hstored hcanonical hrp
  · intro k r k' r' hr hr' hnil hnil'
    obtain ⟨u, hu, -, huroot⟩ := h.mem_of_among hr
    obtain ⟨u', hu', -, huroot'⟩ := h.mem_of_among hr'
    have hroot := h.sound.lineage.root_eq hu (huroot hnil)
    exact Option.some.inj (hroot.symm.trans (h.sound.lineage.root_eq hu' (huroot' hnil')))

theorem Joined.scripted (h : Joined sha s o t) (hs : Lineage sha s) (hq : Scripted s)
    (hadmitted : Admitted sha s o) (hother : MergeComparable sha (.store o) s) : Scripted t := by
  intro k r p rp hr hp hrp
  have hold : (k, r) ∈ s.records → SameScript r.createdAt rp.createdAt := by
    intro hin
    obtain ⟨rp', hrp'⟩ := ParentsFirst.mem_keys.mp (hs.grown.parent_mem ⟨r, hin, hp⟩)
    rw [h.sound.lineage.record_unique hrp (h.grows _ hrp')]
    exact hq k r p rp' hin hp hrp'
  rcases h.gains _ hr with hin | ⟨r₀, hr₀, heq⟩
  · exact hold hin
  · obtain ⟨rfl, rfl⟩ := Prod.mk.inj heq
    by_cases hnew : r₀.versionId ∈ keys s.records
    · obtain ⟨r', hr'⟩ := ParentsFirst.mem_keys.mp hnew
      rw [h.sound.lineage.record_unique (h.grows _ hr') hr] at hr'
      exact hold hr'
    · obtain ⟨rp', hamong, hcreated⟩ := h.among hrp
      rw [← hcreated]
      exact hother o rfl hadmitted r₀ hr₀ hnew p (mem_canonical.mp hp) rp' hamong

theorem Scripted.merge {rounds : ℕ} {other : Other} {out : Except VersionError Unit}
    (hq : Scripted s) (h : Sound sha s) (hother : MergeComparable sha other s)
    (hmerge : merge sha rounds other s = some (out, t)) : Scripted t := by
  unfold VersionStore.merge at hmerge
  split at hmerge
  · cases hmerge
    exact hq
  · split_ifs at hmerge with hinvalid
    · cases hmerge
      exact hq
    · split at hmerge
      · cases hmerge
      · cases hmerge
        exact hq
      · rename_i hloop
        cases hmerge
        have hjoined := h.joined hloop
        exact hjoined.scripted h.lineage hq (hjoined.admitted (by simpa using hinvalid)) hother

theorem ScriptedRun.reachable (h : ScriptedRun sha s) : Reachable sha s := by
  induction h with
  | new => exact .new
  | insert _ _ ih => exact ih.insert _
  | merge _ _ hmerge ih => exact ih.merge hmerge

theorem ScriptedRun.scripted (h : ScriptedRun sha s) : Scripted s := by
  induction h with
  | new => exact fun _ _ _ _ hr => by cases hr
  | insert hrun hrecord ih => exact ih.insert hrun.reachable.lineage hrecord
  | merge hrun hother hmerge ih => exact ih.merge hrun.reachable.sound hother hmerge

theorem exists_instant (h : validate sha r = true) : ∃ i, readInstant r.createdAt = some i := by
  have htime : timestamp r.createdAt = true := by
    simp only [validate, Bool.and_eq_true] at h
    exact h.1.1.2
  unfold timestamp at htime
  split at htime
  · cases htime
  · rename_i i hi
    exact ⟨i, hi⟩

/-- In a run whose accepted records are compared with their parents within one script, every store
is chronological. -/
theorem chronological_of_scriptedRun (sha : Sha256) (s : Store) (h : ScriptedRun sha s) :
    Chronological s := by
  have hsound := h.reachable.sound
  intro k r p rp hr hp hrp
  have hle := hsound.ordered.created k r p rp hr hp hrp
  obtain ⟨i, hi⟩ := exists_instant (hsound.lineage.valid k r hr).1
  obtain ⟨j, hj⟩ := exists_instant (hsound.lineage.valid p rp hrp).1
  exact notEarlier_of_sameScript hi hj (h.scripted k r p rp hr hp hrp) hle

theorem sameScript_marked : ∀ r ∈ [rootVersion, leftVersion, rightVersion],
    ∀ rp ∈ [rootVersion, leftVersion, rightVersion], SameScript r.createdAt rp.createdAt := by
  decide

theorem mem_of_entriesOf {rs : List Record} {p : Text} (h : (p, r) ∈ entriesOf rs) : r ∈ rs := by
  obtain ⟨r', hr', heq⟩ := List.mem_map.mp h
  exact (Prod.mk.inj heq).2 ▸ hr'

theorem insertComparable_left : InsertComparable (.marks 64) leftVersion.object
    (storeOf [rootVersion]) := by
  intro members r hobject hread _ _ _ p _ rp hrp
  obtain rfl := Option.some.inj ((readRecord_object hobject).symm.trans hread)
  rw [storeOf_eq] at hrp
  have hroot : rp ∈ [rootVersion] := mem_of_entriesOf hrp
  exact sameScript_marked leftVersion (by simp) rp (List.mem_cons.mpr (.inl (by simpa using hroot)))

theorem mergeComparable_right : MergeComparable (.marks 64)
    (.store (storeOf [rootVersion, rightVersion])) (storeOf [rootVersion, leftVersion]) := by
  intro o ho _ r hr _ p _ rp hrp
  obtain rfl := Other.store.inj ho
  have hpending : pendingOf (storeOf [rootVersion, rightVersion]) =
      [rootVersion, rightVersion] := by
    rw [storeOf_right]
    rfl
  rw [hpending] at hr
  refine sameScript_marked r (by simp at hr ⊢; tauto) rp ?_
  rcases hrp with hrp | ⟨hrp, -⟩
  · rw [storeOf_left] at hrp
    have hmem := mem_of_entriesOf hrp
    simp at hmem ⊢
    tauto
  · rw [hpending] at hrp
    simp at hrp ⊢
    tauto

/-- A root, a child, and a second child that is merged in. -/
theorem chronological_of_scriptedRun_merged : Chronological mergedStore :=
  chronological_of_scriptedRun (.marks 64) mergedStore
    (.merge (.insert (.insert .new fun _ _ _ _ _ _ _ _ _ _ hrp => by cases hrp)
      insertComparable_left) mergeComparable_right merge_right)

/-! ### A child in another script -/

/-- A hash that tells texts with a parent line from texts without. -/
def lengthHash : Sha256 where
  hexdigest t := List.replicate 64 (if t.length ≤ 100 then '0' else '1')
  form t := by
    split_ifs <;> decide

/-- A child of `firstVersion` dated 2023 in Arabic-Indic digits. -/
def earlierVersion : Record :=
  ⟨idTag ++ List.replicate 64 '1', [firstVersion.versionId], digestTag ++ List.replicate 64 'b',
    "٢٠٢٣-٠١-٠١T٠٠:٠٠:٠٠Z".toList, "earlier".toList⟩

def earlierStore : Store :=
  (insert lengthHash earlierVersion.object
    (insert lengthHash firstVersion.object Store.new).2).2

theorem earlierStore_records : earlierStore.records =
      [(firstVersion.versionId, firstVersion), (earlierVersion.versionId, earlierVersion)] ∧
    readInstant earlierVersion.createdAt = some ⟨2023, 1, 1, 0, 0, 0⟩ ∧
    readInstant firstVersion.createdAt = some ⟨2024, 2, 29, 12, 0, 0⟩ := by
  rw [earlierStore, insert_object, insert_object]
  decide +kernel

/-- The text of the child's timestamp is larger, and its instant is earlier. -/
theorem not_chronological : ¬ ∀ sha s, Reachable sha s → Chronological s := by
  intro h
  have hstore := h lengthHash earlierStore (.insert _ (.insert _ .new))
  obtain ⟨hmem, hchild, hparent⟩ := earlierStore_records
  obtain ⟨i, j, hi, hj, hle⟩ := hstore earlierVersion.versionId earlierVersion
    firstVersion.versionId firstVersion (by rw [hmem]; simp) (by decide) (by rw [hmem]; simp)
  cases hi.symm.trans hchild
  cases hj.symm.trans hparent
  exact hle (by decide)

end VersionStore
end OpenChess
