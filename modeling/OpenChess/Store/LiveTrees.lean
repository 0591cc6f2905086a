import OpenChess.Store.Live
import OpenChess.Store.Idempotency

/-!
# Accepted objects are captured trees

What validation reads of an object fixes the object: an accepted entry, request or
receipt is a tree whose containers are the ones on the captured path, and an admitted
entry is a tree within the admitted depth.
-/

namespace OpenChess
namespace Live

open ObjectHeap
open ObjectHeap.Heap (Within path reach)
open PositionDigest (Sha256)

variable {sha : Sha256} {h : Objects} {P : ℕ → Prop} {r c log request ledger : Handle}
  {p : ℕ} {d n : ℕ} {v : Value} {vs : List Value} {names : List Text}
  {members : List (Text × Value)} {tip : Text}

/-! ### Reading containers -/

@[simp] theorem value_atom (a : Atom) : value h d (.atom a) = a.value := by
  cases d <;> rfl

theorem value_list {l : List Handle} (hcell : h.cells p = .list l) :
    value h (d + 1) (.ptr p) = .list (l.map (value h d)) := by
  rw [value, Heap.view, hcell]
  rfl

theorem value_dict {entries : List (Scalar × Handle)} (hcell : h.cells p = .dict entries) :
    value h (d + 1) (.ptr p) = .dict (entries.map fun e => (e.1, value h d e.2)) := by
  rw [value, Heap.view, hcell]
  rfl

/-- An object without parts reads as a value without parts. -/
def leaf : Value → Bool
  | .list _ | .dict _ | .foreign _ => false
  | _ => true

theorem within_leaf (hv : leaf (value h d r) = true) : h.Within P r := by
  cases r with
  | atom a => exact .atom a
  | ptr p =>
    cases d with
    | zero => cases hv
    | succ d =>
      cases hcell : h.cells p with
      | list l => rw [value_list hcell] at hv; cases hv
      | dict entries => rw [value_dict hcell] at hv; cases hv

theorem ptr_of_list (hv : value h (d + 1) r = .list vs) :
    ∃ p l, r = .ptr p ∧ h.cells p = .list l ∧ vs = l.map (value h d) := by
  cases r with
  | atom a =>
    rw [value_atom] at hv
    cases a <;> cases hv
  | ptr p =>
    cases hcell : h.cells p with
    | list l =>
      rw [value_list hcell] at hv
      exact ⟨p, l, rfl, hcell, (Value.list.inj hv).symm⟩
    | dict entries =>
      rw [value_dict hcell] at hv
      cases hv

def IsDict (h : Objects) (p : ℕ) : Prop := ∃ entries, h.cells p = .dict entries

/-- The children of a dictionary are its members. -/
theorem exists_member (hv : (value h (d + 1) r).members? = some members) :
    ∃ p, r = .ptr p ∧ IsDict h p ∧ ∀ c ∈ (h.cells p).children,
      ∃ e ∈ members, h.member p (.str e.1) = some c ∧ value h d c = e.2 := by
  cases r with
  | atom a =>
    rw [value_atom] at hv
    cases a <;> cases hv
  | ptr p =>
    cases hcell : h.cells p with
    | list l =>
      rw [value_list hcell] at hv
      cases hv
    | dict entries =>
      rw [value_dict hcell] at hv
      have hentries := Value.members?_dict hv
      have hkeys : (entries.map Prod.fst).Nodup := by
        have hfst : entries.map Prod.fst = (members.map Prod.fst).map Scalar.str := by
          have := congrArg (List.map Prod.fst) hentries
          rw [List.map_map, List.map_map] at this
          rw [List.map_map]
          exact this
        rw [hfst]
        exact (Value.members?_nodup hv).map fun _ _ h => Scalar.str.inj h
      refine ⟨p, rfl, ⟨entries, hcell⟩, fun c hc => ?_⟩
      rw [hcell] at hc
      obtain ⟨e, he, rfl⟩ := List.mem_map.mp hc
      have hmem : (e.1, value h d e.2) ∈ members.map fun e => ((.str e.1, e.2) : Scalar × Value) := by
        rw [← hentries]
        exact List.mem_map_of_mem he
      obtain ⟨m, hm, heq⟩ := List.mem_map.mp hmem
      obtain ⟨hkey, hvalue⟩ := Prod.mk.inj heq
      refine ⟨m, hm, ?_, hvalue.symm⟩
      rw [Heap.member, hcell, hkey]
      exact (Dict.lookup_eq_some_iff_mem hkeys).mpr he

theorem mem_zip_of_mapM {name : Text} (h : names.mapM (fun k => members.lookup k) = some vs)
    (hname : name ∈ names) (hv : members.lookup name = some v) : (name, v) ∈ names.zip vs := by
  induction names generalizing vs with
  | nil => cases hname
  | cons k names ih =>
    simp only [List.mapM_cons, Option.bind_eq_bind, Option.bind_eq_some_iff, Option.pure_def,
      Option.some.injEq] at h
    obtain ⟨w, hw, ws, hws, rfl⟩ := h
    rw [List.zip_cons_cons, List.mem_cons]
    rcases List.mem_cons.mp hname with rfl | hname
    · rw [hv] at hw
      exact .inl (by rw [Option.some.inj hw])
    · exact .inr (ih hws hname)

/-- A dictionary of the declared fields is a tree where its fields are. -/
theorem within_fields (hv : (value h (d + 1) r).fields? names = some vs)
    (hp : ∀ p, r = .ptr p → IsDict h p → P p)
    (hchild : ∀ p c name v, r = .ptr p → (name, v) ∈ names.zip vs →
      h.member p (.str name) = some c → value h d c = v → h.Within P c) : h.Within P r := by
  unfold Value.fields? at hv
  split at hv
  · cases hv
  · rename_i members hmembers
    split_ifs at hv with hperm
    obtain ⟨p, rfl, hdict, hchildren⟩ := exists_member hmembers
    refine .ptr p (hp p rfl hdict) fun c hc => ?_
    obtain ⟨e, he, hmember, hvalue⟩ := hchildren c hc
    have hlookup : members.lookup e.1 = some e.2 :=
      (Dict.lookup_eq_some_iff_mem (Value.members?_nodup hmembers)).mpr he
    have hname : e.1 ∈ names := hperm.mem_iff.mp (List.mem_map_of_mem he)
    exact hchild p c e.1 e.2 rfl (mem_zip_of_mapM hv hname hlookup) hmember hvalue

/-- A dictionary whose declared fields are all leaves. -/
theorem within_leaves (hv : (value h (d + 1) r).fields? names = some vs)
    (hleaf : ∀ v ∈ vs, leaf v = true) (hp : ∀ p, r = .ptr p → IsDict h p → P p) :
    h.Within P r := by
  refine within_fields hv hp fun p c name v _ hmem _ hvalue => within_leaf (d := d) ?_
  rw [hvalue]
  exact hleaf v (List.of_mem_zip hmem).2

/-! ### Records, entries, requests and receipts -/

theorem mem_path_nil : p ∈ path h [] r ↔ r = .ptr p := by
  cases r with
  | atom a => simp [path]
  | ptr q => simp [path, eq_comm]

theorem mem_path_ptr (ks : List Scalar) : p ∈ path h ks (.ptr p) := by
  cases ks <;> simp [path]

theorem mem_path_cons {k : Scalar} {ks : List Scalar} {q : ℕ} (hmember : h.member p k = some c)
    (hq : q ∈ path h ks c) : q ∈ path h (k :: ks) (.ptr p) := by
  rw [path, hmember]
  exact List.mem_cons_of_mem _ hq

theorem within_record {x : Text × TranspositionNode.Record}
    (hv : Wal.validateRecord sha (value h (d + 1) r) = some x)
    (hp : ∀ p ∈ path h [] r, IsDict h p → P p) : h.Within P r := by
  obtain ⟨identity, record⟩ := x
  obtain ⟨hread, -⟩ := Wal.validateRecord_eq_some.mp hv
  unfold Node.readRecord at hread
  split at hread
  · rename_i hfields
    refine within_leaves hfields (fun v hv => ?_) fun p hr => hp p (mem_path_nil.mpr hr)
    simp only [List.mem_cons, List.not_mem_nil, or_false] at hv
    obtain rfl | rfl | rfl := hv <;> rfl
  · cases hread

theorem within_payload {x : Text × TranspositionNode.Record}
    (hv : Wal.validatePayload sha (value h (d + 2) r) = .ok x)
    (hp : ∀ p ∈ path h [.str "record".toList] r, IsDict h p → P p) : h.Within P r := by
  unfold Wal.validatePayload at hv
  split at hv
  · rename_i hfields
    refine within_fields hfields (fun p hr => hp p (hr ▸ mem_path_ptr _)) ?_
    rintro p c name v rfl hmem hmember hvalue
    simp only [Wal.payloadFields, List.zip_cons_cons, List.zip_nil_right, List.mem_cons,
      Prod.mk.injEq, List.not_mem_nil, or_false] at hmem
    obtain ⟨-, rfl⟩ | ⟨rfl, rfl⟩ := hmem
    · exact within_leaf (by rw [hvalue]; rfl)
    · split at hv
      · cases hv
      · rename_i hrecord
        rw [← hvalue] at hrecord
        exact within_record hrecord fun q hq => hp q (mem_path_cons hmember hq)
  · cases hv

theorem within_entry {e : Wal.Entry}
    (hv : Wal.validateEntry sha n tip (value h (d + 3) r) = .ok e)
    (hp : ∀ p ∈ path h recordPath r, IsDict h p → P p) : h.Within P r := by
  unfold Wal.validateEntry at hv
  split at hv
  · rename_i entryId sequence op payload prior hfields
    refine within_fields hfields (fun p hr => hp p (hr ▸ mem_path_ptr _)) ?_
    rintro p c name v rfl hmem hmember hvalue
    split at hv
    · cases hv
    · split at hv
      · split_ifs at hv
        split at hv
        · split_ifs at hv
          split at hv
          · cases hv
          · rename_i hpayload
            simp only [Wal.entryFields, List.zip_cons_cons, List.zip_nil_right, List.mem_cons,
              Prod.mk.injEq, List.not_mem_nil, or_false] at hmem
            obtain ⟨-, rfl⟩ | ⟨-, rfl⟩ | ⟨-, rfl⟩ | ⟨rfl, rfl⟩ | ⟨-, rfl⟩ := hmem
            · exact within_leaf (by rw [hvalue]; rfl)
            · exact within_leaf (by rw [hvalue]; rfl)
            · exact within_leaf (by rw [hvalue]; rfl)
            · rw [← hvalue] at hpayload
              exact within_payload hpayload fun q hq => hp q (mem_path_cons hmember hq)
            · exact within_leaf (by rw [hvalue]; rfl)
        · cases hv
      · cases hv
  · cases hv

theorem within_request {q : Wal.Request}
    (hv : Wal.validateRequest sha (value h (d + 3) r) = .ok q)
    (hp : ∀ p ∈ path h recordPath r, IsDict h p → P p) : h.Within P r := by
  unfold Wal.validateRequest at hv
  split at hv
  · rename_i hfields
    refine within_fields hfields (fun p hr => hp p (hr ▸ mem_path_ptr _)) ?_
    rintro p c name v rfl hmem hmember hvalue
    split at hv
    · cases hv
    · split at hv
      · cases hv
      · rename_i hpayload
        simp only [Wal.requestFields, List.zip_cons_cons, List.zip_nil_right, List.mem_cons,
          Prod.mk.injEq, List.not_mem_nil, or_false] at hmem
        obtain ⟨-, rfl⟩ | ⟨rfl, rfl⟩ := hmem
        · exact within_leaf (by rw [hvalue]; rfl)
        · rw [← hvalue] at hpayload
          exact within_payload hpayload fun q hq => hp q (mem_path_cons hmember hq)
  · cases hv

theorem within_keyed {q : Idempotency.Request}
    (hv : Idempotency.validateRequest sha (value h (d + 3) r) = some q)
    (hp : ∀ p ∈ path h recordPath r, IsDict h p → P p) : h.Within P r := by
  obtain ⟨payload, hfields, -, hpayload⟩ := Idempotency.of_validateRequest hv
  refine within_fields hfields (fun p hr => hp p (hr ▸ mem_path_ptr _)) ?_
  rintro p c name v rfl hmem hmember hvalue
  simp only [Idempotency.requestFields, List.zip_cons_cons, List.zip_nil_right, List.mem_cons,
    Prod.mk.injEq, List.not_mem_nil, or_false] at hmem
  obtain ⟨-, rfl⟩ | ⟨-, rfl⟩ | ⟨rfl, rfl⟩ := hmem
  · exact within_leaf (by rw [hvalue]; rfl)
  · exact within_leaf (by rw [hvalue]; rfl)
  · rw [← hvalue] at hpayload
    exact within_payload hpayload fun q hq => hp q (mem_path_cons hmember hq)

theorem within_receipt {es : List Wal.Entry} {seen : List Text} {x : Idempotency.Receipt}
    (hv : Idempotency.validateReceipt sha es seen n (value h (d + 1) r) = some x)
    (hp : ∀ p ∈ path h [] r, IsDict h p → P p) : h.Within P r := by
  unfold Idempotency.validateReceipt at hv
  split at hv
  · rename_i hfields
    refine within_leaves hfields (fun v hv => ?_) fun p hr => hp p (mem_path_nil.mpr hr)
    simp only [List.mem_cons, List.not_mem_nil, or_false] at hv
    obtain rfl | rfl | rfl | rfl | rfl := hv <;> rfl
  · cases hv

/-- An integer under the one declared name. -/
theorem within_number {name : Text} {x : ℤ}
    (hv : (value h (d + 1) r).fields? [name] = some [.int x])
    (hp : ∀ p ∈ path h [] r, IsDict h p → P p) : h.Within P r := by
  refine within_leaves hv (fun v hv => ?_) fun p hr => hp p (mem_path_nil.mpr hr)
  obtain rfl := List.mem_singleton.mp hv
  rfl

/-! ### Logs and ledgers -/

theorem within_entries {l : List Handle} {es : List Wal.Entry}
    (hv : Wal.validateFrom sha n tip (l.map (value h (d + 3))) = .ok es)
    (hp : ∀ p ∈ l.flatMap (path h recordPath), IsDict h p → P p) : ∀ c ∈ l, h.Within P c := by
  induction l generalizing n tip es with
  | nil => exact fun _ hc => by cases hc
  | cons c l ih =>
    obtain ⟨e, fs, he, hfs, -⟩ := Wal.validateFrom_cons_eq_ok.mp hv
    rw [List.flatMap_cons] at hp
    exact List.forall_mem_cons.mpr
      ⟨within_entry he fun p hmem => hp p (List.mem_append_left _ hmem),
        ih hfs fun p hmem => hp p (List.mem_append_right _ hmem)⟩

theorem within_receipts {l : List Handle} {es : List Wal.Entry} {seen : List Text}
    {rs : List Idempotency.Receipt}
    (hv : Idempotency.validateReceipts sha es seen n (l.map (value h (d + 1))) = some rs)
    (hp : ∀ p ∈ l.flatMap (path h []), IsDict h p → P p) : ∀ c ∈ l, h.Within P c := by
  induction l generalizing n seen rs with
  | nil => exact fun _ hc => by cases hc
  | cons c l ih =>
    obtain ⟨r, rs', hr, hrs, -⟩ := Idempotency.validateReceipts_cons.mp hv
    rw [List.flatMap_cons] at hp
    exact List.forall_mem_cons.mpr
      ⟨within_receipt hr fun p hmem => hp p (List.mem_append_left _ hmem),
        ih hrs fun p hmem => hp p (List.mem_append_right _ hmem)⟩

theorem items_ptr {l : List Handle} (hcell : h.cells p = .list l) : items h (.ptr p) = l := by
  simp only [items, hcell]

/-- A list is a tree where its items are. -/
theorem within_list {l : List Handle} (hcell : h.cells p = .list l) (hp : P p)
    (hitems : ∀ c ∈ l, h.Within P c) : h.Within P (.ptr p) :=
  .ptr p hp (by rwa [hcell])

/-! ### Admitted entries -/

/-- What the admission walk accepts is a tree within its levels. -/
theorem within_admissible (hv : CrashResume.admissible n (value h n r) = true) :
    h.Within (· ∈ reach h n r) r := by
  induction n generalizing r with
  | zero =>
    cases r with
    | atom a => exact .atom a
    | ptr p => cases hv
  | succ n ih =>
    cases r with
    | atom a => exact .atom a
    | ptr p =>
      have hchildren : ∀ c ∈ (h.cells p).children,
          CrashResume.admissible n (value h n c) = true := by
        intro c hc
        cases hcell : h.cells p with
        | list l =>
          rw [value_list hcell, CrashResume.admissible, List.all_map, List.all_eq_true] at hv
          rw [hcell] at hc
          exact hv c hc
        | dict entries =>
          rw [value_dict hcell] at hv
          rw [CrashResume.admissible] at hv
          split at hv
          · cases hv
          · rename_i members hmembers
            rw [← value_dict hcell] at hmembers
            obtain ⟨q, hq, -, hall⟩ := exists_member hmembers
            cases hq
            obtain ⟨e, he, -, hvalue⟩ := hall c hc
            rw [List.all_eq_true] at hv
            have hmember := hv e he
            rw [Bool.and_eq_true] at hmember
            rw [hvalue]
            exact hmember.2
      refine .ptr p List.mem_cons_self fun c hc => ?_
      exact (ih (hchildren c hc)).mono fun q hq =>
        List.mem_cons_of_mem _ (List.mem_flatMap.mpr ⟨c, hc, hq⟩)

end Live
end OpenChess
