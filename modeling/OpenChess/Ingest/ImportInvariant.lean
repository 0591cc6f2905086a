import OpenChess.Ingest.ImportRecord
import OpenChess.Ingest.ImportStore

/-!
# What recovery accepts

A store holds an index when its manifest is that index, no game id is listed twice and
every record named is there, whole and valid. Recovery accepts exactly these stores,
and an operation that keeps away from the manifest and the records keeps the index.
-/

namespace OpenChess
namespace ImportPgn

open Pgn
open PositionDigest (Sha256)

variable {sha : Sha256} {s : Session} {g : ParsedGame} {d d' : Disk} {index index' : Index}
  {e : Text × Text} {op : Op} {ops : List Op} {p q : Path} {c : Content} {gid rec : Text} {v : Value}

def Stored (sha : Sha256) (d : Disk) (e : Text × Text) : Prop :=
  ∃ v, d.read (recordPath e.2) = some (.json v) ∧ validateRecord sha v e.1 e.2 = .ok ()

/-- The names of an entry are in their grammar and agree. -/
structure Named (e : Text × Text) : Prop where
  gid : gameIdRe e.1 = true
  record : recordNameRe e.2 = true
  agree : (splitDashes e.2).1 = e.1

structure Holds (sha : Sha256) (d : Disk) (index : Index) : Prop where
  manifest : d.read indexPath = some (.json (indexValue index)) ∨
    d.read indexPath = none ∧ index = []
  distinct : (index.map Prod.fst).Nodup
  named : ∀ e ∈ index, Named e
  stored : ∀ e ∈ index, Stored sha d e

/-! ### Recovery -/

theorem refuseIf_eq_ok {E : Type} {b : Prop} [Decidable b] {err : E} :
    refuseIf b err = .ok () ↔ ¬ b := by
  unfold refuseIf
  split_ifs with hb <;> simp [hb]

theorem refuseIf_bind_eq_ok {E A : Type} {b : Prop} [Decidable b] {err : E} {f : Unit → Except E A}
    {x : A} : (refuseIf b err >>= f) = .ok x ↔ ¬ b ∧ f () = .ok x := by
  unfold refuseIf
  split_ifs with hb
  · simp [bind, Except.bind, hb]
  · simp [bind, Except.bind, hb]

theorem orRefuse_bind_eq_ok {E A B : Type} {a : Option A} {err : E} {f : A → Except E B} {x : B} :
    (orRefuse a err >>= f) = .ok x ↔ ∃ y, a = some y ∧ f y = .ok x := by
  cases a <;> simp [orRefuse, bind, Except.bind]

theorem eq_object_of_ordered? {names : List Text} {values : List Value}
    (h : ordered? names v = some values) : v = .object names values := by
  cases v with
  | dict entries =>
    simp only [ordered?] at h
    split_ifs at h with hkeys
    obtain rfl := Option.some.inj h
    have hzip : entries = (names.map Scalar.str).zip (entries.map Prod.snd) := by
      rw [← hkeys]
      exact List.zip_of_prod rfl rfl
    simp only [Value.object, Value.ofMembers]
    rw [List.zip_map_left] at hzip
    exact congrArg Value.dict hzip
  | _ => cases h

variable {seenIds seenRecords : List Text} {pos : ℕ} {entry : Value} {entries : List Value}

def entryValue (e : Text × Text) : Value := .object entryFields [.str e.1, .str e.2]

theorem validateEntry_eq_ok :
    validateEntry sha d seenIds seenRecords pos entry = .ok e ↔
      entry = entryValue e ∧ Named e ∧ e.1 ∉ seenIds ∧ e.2 ∉ seenRecords ∧ Stored sha d e := by
  constructor
  · intro h
    unfold validateEntry at h
    split at h
    · next gid rec hread =>
      simp only [orRefuse_bind_eq_ok, refuseIf_bind_eq_ok] at h
      obtain ⟨gid', hgid, hnew, rec', hrec, hnew', h⟩ := h
      obtain ⟨hgid, hre⟩ := Option.filter_eq_some_iff.mp hgid
      obtain ⟨hrec, hname⟩ := Option.filter_eq_some_iff.mp hrec
      obtain ⟨hname, hagree⟩ := Bool.and_eq_true_iff.mp hname
      obtain rfl := Value.text?_eq_some.mp hgid
      obtain rfl := Value.text?_eq_some.mp hrec
      split at h
      · cases h
      · cases h
      · next stored hstored =>
        split at h
        · cases h
        · next hvalid =>
          obtain rfl := Except.ok.inj h
          exact ⟨eq_object_of_ordered? hread, ⟨hre, hname, eq_of_beq hagree⟩, hnew, hnew', stored,
            hstored, hvalid⟩
    · cases h
  · intro h
    obtain ⟨rfl, hnamed, hnew, hnew', v, hread, hvalid⟩ := h
    have hentry : ordered? entryFields (entryValue e) = some [.str e.1, .str e.2] :=
      ordered?_object rfl
    rw [validateEntry, hentry]
    simp [orRefuse, refuseIf, Value.text?, Option.filter_some, hnamed.gid, hnamed.record,
      hnamed.agree, hnew, hnew', hread, hvalid, bind, Except.bind]

theorem validateEntries_eq_ok (hseen : seenIds = seenRecords.map fun rec => (splitDashes rec).1) :
    validateEntries sha d seenIds seenRecords pos entries = .ok index ↔
      entries = index.map entryValue ∧ (∀ e ∈ index, Named e ∧ Stored sha d e) ∧
        (index.map Prod.fst).Nodup ∧ ∀ e ∈ index, e.1 ∉ seenIds := by
  induction entries generalizing seenIds seenRecords pos index with
  | nil =>
    simp only [validateEntries, Except.ok.injEq]
    constructor
    · rintro rfl
      simp
    · rintro ⟨h, -⟩
      exact (List.map_eq_nil_iff.mp h.symm).symm
  | cons entry entries ih =>
    have hstep : validateEntries sha d seenIds seenRecords pos (entry :: entries) = .ok index ↔
        ∃ e rest, index = e :: rest ∧ validateEntry sha d seenIds seenRecords pos entry = .ok e ∧
          validateEntries sha d (e.1 :: seenIds) (e.2 :: seenRecords) (pos + 1) entries = .ok rest := by
      rw [validateEntries]
      cases hentry : validateEntry sha d seenIds seenRecords pos entry with
      | error fault => simp [bind, Except.bind]
      | ok e =>
        cases hrest : validateEntries sha d (e.1 :: seenIds) (e.2 :: seenRecords) (pos + 1) entries with
        | error fault =>
          simp only [bind, Except.bind, hrest, Except.ok.injEq]
          constructor
          · intro h
            cases h
          · rintro ⟨e', rest, -, rfl, h⟩
            rw [hrest] at h
            cases h
        | ok rest =>
          simp only [bind, Except.bind, hrest, pure, Except.pure, Except.ok.injEq]
          constructor
          · rintro rfl
            exact ⟨e, rest, rfl, rfl, hrest⟩
          · rintro ⟨e', rest', rfl, rfl, h⟩
            rw [hrest] at h
            obtain rfl := Except.ok.inj h
            rfl
    rw [hstep]
    constructor
    · rintro ⟨e, rest, rfl, hentry, hrest⟩
      obtain ⟨rfl, hnamed, hnew, hnew', hstored⟩ := validateEntry_eq_ok.mp hentry
      have hseen' : e.1 :: seenIds = (e.2 :: seenRecords).map fun rec => (splitDashes rec).1 := by
        rw [List.map_cons, hnamed.agree, ← hseen]
      obtain ⟨rfl, hall, hdistinct, hout⟩ := (ih hseen').mp hrest
      refine ⟨rfl, List.forall_mem_cons.mpr ⟨⟨hnamed, hstored⟩, hall⟩, ?_, ?_⟩
      · refine List.nodup_cons.mpr ⟨fun hmem => ?_, hdistinct⟩
        obtain ⟨e', he', heq⟩ := List.mem_map.mp hmem
        exact hout e' he' (heq ▸ List.mem_cons_self)
      · refine List.forall_mem_cons.mpr ⟨hnew, fun e' he' hmem => ?_⟩
        exact hout e' he' (List.mem_cons_of_mem _ hmem)
    · rintro ⟨hentries, hall, hdistinct, hout⟩
      cases index with
      | nil => cases hentries
      | cons e rest =>
        obtain ⟨rfl, rfl⟩ := List.cons.inj hentries
        obtain ⟨⟨hnamed, hstored⟩, hall⟩ := List.forall_mem_cons.mp hall
        obtain ⟨hfirst, hdistinct⟩ := List.nodup_cons.mp hdistinct
        obtain ⟨hnew, hout⟩ := List.forall_mem_cons.mp hout
        have hseen' : e.1 :: seenIds = (e.2 :: seenRecords).map fun rec => (splitDashes rec).1 := by
          rw [List.map_cons, hnamed.agree, ← hseen]
        have hnew' : e.2 ∉ seenRecords := by
          intro hmem
          refine hnew ?_
          rw [hseen, ← hnamed.agree]
          exact List.mem_map_of_mem hmem
        refine ⟨e, rest, rfl, validateEntry_eq_ok.mpr ⟨rfl, hnamed, hnew, hnew', hstored⟩,
          (ih hseen').mpr ⟨rfl, hall, hdistinct, fun e' he' hmem => ?_⟩⟩
        rcases List.mem_cons.mp hmem with heq | hmem
        · exact hfirst (heq ▸ List.mem_map_of_mem he')
        · exact hout e' he' hmem

theorem validateIndex_eq_ok : validateIndex sha d v = .ok index ↔
    v = indexValue index ∧ (∀ e ∈ index, Named e ∧ Stored sha d e) ∧
      (index.map Prod.fst).Nodup := by
  have hentries : ∀ entries, validateEntries sha d [] [] 0 entries = .ok index ↔
      entries = index.map entryValue ∧ (∀ e ∈ index, Named e ∧ Stored sha d e) ∧
        (index.map Prod.fst).Nodup ∧ ∀ e ∈ index, e.1 ∉ ([] : List Text) :=
    fun entries => validateEntries_eq_ok rfl
  cases v with
  | list entries =>
    have hvalue : indexValue index = .list (index.map entryValue) := rfl
    rw [validateIndex, hentries, hvalue, Value.list.injEq]
    simp
  | _ => simp [validateIndex, indexValue]

/-- Recovery accepts the stores that hold an index, and returns that index. -/
theorem recoverStore_eq_ok :
    recoverStore sha d = .ok (ops, index) ↔ ops = cleanOps d index ∧ Holds sha d index := by
  unfold recoverStore
  cases hread : d.read indexPath with
  | none =>
    simp only [Except.ok.injEq, Prod.mk.injEq]
    constructor
    · rintro ⟨rfl, rfl⟩
      exact ⟨rfl, ⟨.inr ⟨hread, rfl⟩, List.nodup_nil, by simp, by simp⟩⟩
    · rintro ⟨rfl, hholds⟩
      obtain h | ⟨-, rfl⟩ := hholds.manifest
      · rw [hread] at h
        cases h
      · exact ⟨rfl, rfl⟩
  | some c =>
    cases c with
    | unreadable =>
      simp only [reduceCtorEq, false_iff, not_and]
      rintro - hholds
      obtain h | ⟨h, -⟩ := hholds.manifest
      · rw [hread] at h
        cases h
      · rw [hread] at h
        cases h
    | json v =>
      have hvalid : validateIndex sha d v = .ok index ↔ Holds sha d index := by
        rw [validateIndex_eq_ok]
        constructor
        · rintro ⟨rfl, hall, hdistinct⟩
          exact ⟨.inl hread, hdistinct, fun e he => (hall e he).1, fun e he => (hall e he).2⟩
        · intro hholds
          obtain h | ⟨h, -⟩ := hholds.manifest
          · rw [hread] at h
            obtain rfl : v = indexValue index := by simpa using h
            exact ⟨rfl, fun e he => ⟨hholds.named e he, hholds.stored e he⟩, hholds.distinct⟩
          · rw [hread] at h
            cases h
      rw [← hvalid]
      cases hindex : validateIndex sha d v with
      | error fault => simp [hindex]
      | ok index' =>
        simp only [hindex, Except.ok.injEq, Prod.mk.injEq]
        constructor
        · rintro ⟨rfl, rfl⟩
          exact ⟨rfl, rfl⟩
        · rintro ⟨rfl, rfl⟩
          exact ⟨rfl, rfl⟩

/-! ### Operations and what they leave alone -/

/-- The files an operation can change. -/
def Op.touched : Op → List Path
  | .emit _ => []
  | .create p => [p]
  | .fill p _ => [p]
  | .replace p q => [p, q]
  | .unlink p => [p]

theorem execAll_cons (op : Op) (ops : List Op) :
    d.execAll (op :: ops) = (d.exec op).execAll ops :=
  rfl

theorem execAll_append (ops ops' : List Op) :
    d.execAll (ops ++ ops') = (d.execAll ops).execAll ops' :=
  Trace.run_append _ _

theorem read_put : (d.put p c).read q = if q = p then some c else d.read q := Assoc.lookup_assign

theorem read_remove : (d.remove p).read q = if q = p then none else d.read q := Assoc.lookup_erase

theorem read_exec (h : p ∉ op.touched) : (d.exec op).read p = d.read p := by
  cases op with
  | emit event => rfl
  | create q =>
    have hne : p ≠ q := by simpa [Op.touched] using h
    rw [Disk.exec, read_put, if_neg hne]
  | fill q v =>
    have hne : p ≠ q := by simpa [Op.touched] using h
    rw [Disk.exec, read_put, if_neg hne]
  | unlink q =>
    have hne : p ≠ q := by simpa [Op.touched] using h
    rw [Disk.exec, read_remove, if_neg hne]
  | replace q r =>
    obtain ⟨hq, hr⟩ : p ≠ q ∧ p ≠ r := by simpa [Op.touched] using h
    rw [Disk.exec]
    split
    · rfl
    · rw [read_put, if_neg hr, read_remove, if_neg hq]

theorem Stored.congr (h : Stored sha d e) (hread : d'.read (recordPath e.2) = d.read (recordPath e.2)) :
    Stored sha d' e := by
  obtain ⟨v, hv, hvalid⟩ := h
  exact ⟨v, hread.trans hv, hvalid⟩

/-- The index depends on the manifest and on the records it names. -/
theorem Holds.congr (h : Holds sha d index) (hindex : d'.read indexPath = d.read indexPath)
    (hrecords : ∀ e ∈ index, d'.read (recordPath e.2) = d.read (recordPath e.2)) :
    Holds sha d' index where
  manifest := hindex ▸ h.manifest
  distinct := h.distinct
  named := h.named
  stored := fun e he => (h.stored e he).congr (hrecords e he)

/-! ### Temporary names -/

theorem getLast_recordName (h : recordNameRe rec = true) :
    rec.getLast? = some 'n' ∨ rec.getLast? = some '\n' := by
  simp only [recordNameRe, anchored, Bool.or_eq_true, Bool.and_eq_true, beq_iff_eq] at h
  rcases h with ⟨-, hend⟩ | ⟨hnewline, -⟩
  · left
    have hsplit := List.take_append_drop 34 rec
    rw [hend] at hsplit
    rw [← hsplit]
    simp
  · exact .inr hnewline

theorem getLast_tmp (p : Path) : (tmp p).name.getLast? = some 'p' := by
  simp [tmp]

theorem recordPath_ne_tmp (h : recordNameRe rec = true) : recordPath rec ≠ tmp p := by
  intro heq
  have hname : rec = (tmp p).name := congrArg Path.name heq
  have hlast := getLast_tmp p
  rw [← hname] at hlast
  rcases getLast_recordName h with h | h
  · rw [h] at hlast
    cases hlast
  · rw [h] at hlast
    cases hlast

theorem indexPath_ne_tmp : indexPath ≠ tmp p := by
  intro heq
  have hname : "index.json".toList = (tmp p).name := congrArg Path.name heq
  have hlast := getLast_tmp p
  rw [← hname] at hlast
  revert hlast
  decide

/-! ### Atomic writes -/

/-- A property of the disk that the temporary file does not matter for, and that the new
file keeps, holds throughout an atomic write. -/
theorem throughout_atomicWrite {P : Disk → Prop}
    (hbefore : ∀ d', (∀ q ≠ tmp p, d'.read q = d.read q) → P d')
    (hafter : ∀ d', d'.read p = some (.json v) → (∀ q, q ≠ p → q ≠ tmp p → d'.read q = d.read q) →
      P d') : Trace.Throughout Disk.exec P d (atomicWrite p v) := by
  have hput : ∀ (d' : Disk) (c : Content), (∀ q ≠ tmp p, d'.read q = d.read q) →
      ∀ q ≠ tmp p, (d'.put (tmp p) c).read q = d.read q := by
    intro d' c hd' q hq
    rw [read_put, if_neg hq, hd' q hq]
  have hfirst := hput d .unreadable fun _ _ => rfl
  have hsecond := hput _ (.json v) hfirst
  rw [atomicWrite, Trace.throughout_cons, Trace.throughout_cons, Trace.throughout_cons,
    Trace.throughout_nil]
  refine ⟨hbefore d fun _ _ => rfl, hbefore _ hfirst, hbefore _ hsecond, hafter _ ?_ fun q hq htmp => ?_⟩
  · simp [Disk.exec, read_put]
  · rw [read_exec (by simp [Op.touched, hq, htmp])]
    exact hsecond q htmp

theorem read_atomicWrite : (d.execAll (atomicWrite p v)).read p = some (.json v) ∧
    ∀ q, q ≠ p → q ≠ tmp p → (d.execAll (atomicWrite p v)).read q = d.read q := by
  constructor
  · simp [Disk.execAll, Trace.run, atomicWrite, Disk.exec, read_put]
  · intro q hq htmp
    simp [Disk.execAll, Trace.run, atomicWrite, Disk.exec, read_put, read_remove, hq, htmp]

end ImportPgn
end OpenChess
