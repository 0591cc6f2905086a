import OpenChess.Jobs.IdempotencySpec

/-!
# Live objects of the keyed queue

What is read from the heap depends on the containers in it alone. A new object is read
back as it was built, at addresses that were free before, so a commit changes the state
or the ledger and nothing else.
-/

namespace OpenChess
namespace KeyedQueue

open Jobs
open Live (Handle Objects)
open ObjectHeap (Ref Cell)
open ObjectHeap.Heap (Live Closed)
open Payload (Plain trail trails memberTrails)
open PyObj (unfold)

variable {h h' : Objects} {r : Handle} {o : PyObj} {d p q : ℕ} {v : Value}

/-! ### Containers -/

theorem mem_trails {items : List PyObj} : p ∈ trails items ↔ ∃ o ∈ items, p ∈ trail o := by
  induction items with
  | nil => simp [trails]
  | cons o items ih => simp [trails, ih]

theorem mem_trail_list {id : ℕ} {items : List PyObj} :
    p ∈ trail (.list id items) ↔ p = id ∨ ∃ o ∈ items, p ∈ trail o := by
  rw [trail, List.mem_append, mem_trails, List.mem_singleton, or_comm]

theorem mem_trail_dict {id : ℕ} {entries : List (Scalar × PyObj)} :
    p ∈ trail (.dict id entries) ↔ p = id ∨ ∃ e ∈ entries, p ∈ trail e.2 := by
  rw [trail, Payload.memberTrails_eq, List.mem_append, mem_trails, List.mem_singleton, or_comm]
  simp only [List.mem_map, exists_exists_and_eq_and]

theorem unfold_list {l : List Handle} (hcell : h.cells p = .list l) :
    unfold h (d + 1) (.ptr p) = .list p (l.map (unfold h d)) := by
  simp only [unfold, hcell]

theorem unfold_dict {entries : List (Scalar × Handle)} (hcell : h.cells p = .dict entries) :
    unfold h (d + 1) (.ptr p) = .dict p (entries.map fun e => (e.1, unfold h d e.2)) := by
  simp only [unfold, hcell]

theorem unfold_atom (a : Live.Atom) : unfold h d (.atom a) = .atom a := by
  cases d <;> rfl

/-- An object is the same where its containers are. -/
theorem unfold_congr (heq : ∀ p ∈ trail (unfold h d r), h'.cells p = h.cells p) :
    unfold h' d r = unfold h d r := by
  induction d generalizing r with
  | zero => cases r <;> rfl
  | succ d ih =>
    cases r with
    | atom a => rfl
    | ptr p =>
      cases hcell : h.cells p with
      | list l =>
        rw [unfold_list hcell] at heq ⊢
        simp only [mem_trail_list, List.mem_map] at heq
        have hcell' : h'.cells p = .list l := by rw [heq p (.inl rfl), hcell]
        rw [unfold_list hcell']
        have hitems : l.map (unfold h' d) = l.map (unfold h d) :=
          List.map_congr_left fun c hc => ih fun q hq => heq q (.inr ⟨_, ⟨c, hc, rfl⟩, hq⟩)
        rw [hitems]
      | dict entries =>
        rw [unfold_dict hcell] at heq ⊢
        simp only [mem_trail_dict, List.mem_map] at heq
        have hcell' : h'.cells p = .dict entries := by rw [heq p (.inl rfl), hcell]
        rw [unfold_dict hcell']
        have hentries : (entries.map fun e => (e.1, unfold h' d e.2)) =
            entries.map fun e => (e.1, unfold h d e.2) :=
          List.map_congr_left fun e he => by
            rw [ih fun q hq => heq q (.inr ⟨_, ⟨e, he, rfl⟩, hq⟩)]
        rw [hentries]

/-- The containers of a live object exist. -/
theorem trail_lt (hclosed : h.Closed) (hlive : h.Live r) : ∀ p ∈ trail (unfold h d r), p < h.next := by
  induction d generalizing r with
  | zero => cases r <;> exact fun p hp => by cases hp
  | succ d ih =>
    cases r with
    | atom a => exact fun p hp => by cases hp
    | ptr p =>
      have hchildren := hclosed p hlive
      cases hcell : h.cells p with
      | list l =>
        rw [hcell] at hchildren
        rw [unfold_list hcell]
        intro q hq
        rcases mem_trail_list.mp hq with rfl | ⟨o, ho, hq⟩
        · exact hlive
        · obtain ⟨c, hc, rfl⟩ := List.mem_map.mp ho
          exact ih (hchildren c hc) q hq
      | dict entries =>
        rw [hcell] at hchildren
        rw [unfold_dict hcell]
        intro q hq
        rcases mem_trail_dict.mp hq with rfl | ⟨e, he, hq⟩
        · exact hlive
        · obtain ⟨c, hc, rfl⟩ := List.mem_map.mp he
          exact ih (hchildren c.2 (List.mem_map_of_mem hc)) q hq

/-! ### New objects -/

mutual

def levels : Value → ℕ
  | .list items => levelsOfItems items + 1
  | .dict entries => levelsOfMembers entries + 1
  | _ => 0

def levelsOfItems : List Value → ℕ
  | [] => 0
  | v :: items => max (levels v) (levelsOfItems items)

def levelsOfMembers : List (Scalar × Value) → ℕ
  | [] => 0
  | (_, v) :: entries => max (levels v) (levelsOfMembers entries)

end

theorem levelsOfItems_le {items : List Value} :
    levelsOfItems items ≤ d ↔ ∀ v ∈ items, levels v ≤ d := by
  induction items with
  | nil => simp [levelsOfItems]
  | cons v items ih => rw [levelsOfItems, max_le_iff, ih, List.forall_mem_cons]

theorem levelsOfMembers_le {entries : List (Scalar × Value)} :
    levelsOfMembers entries ≤ d ↔ ∀ e ∈ entries, levels e.2 ≤ d := by
  induction entries with
  | nil => simp [levelsOfMembers]
  | cons e entries ih => rw [levelsOfMembers, max_le_iff, ih, List.forall_mem_cons]

theorem levels_le {L : Payload.Limits} (hplain : Plain L d v) : levels v ≤ d := by
  induction v using Value.induction generalizing d with
  | hatom v hlist hdict =>
    cases v with
    | list items => exact absurd rfl (hlist items)
    | dict entries => exact absurd rfl (hdict entries)
    | _ => exact Nat.zero_le d
  | hlist items ih =>
    simp only [Plain, Payload.plainItems_iff] at hplain
    have hitems : levelsOfItems items ≤ d - 1 :=
      levelsOfItems_le.mpr fun v hv => ih v hv (hplain.2 v hv)
    rw [levels]
    omega
  | hdict entries ih =>
    simp only [Plain, Payload.plainMembers_iff] at hplain
    have hentries : levelsOfMembers entries ≤ d - 1 :=
      levelsOfMembers_le.mpr fun e he => ih e he (hplain.2 e he).2
    rw [levels]
    omega

theorem levels_object {names : List Text} {values : List Value}
    (hvalues : ∀ v ∈ values, levels v ≤ d) : levels (.object names values) ≤ d + 1 := by
  rw [Value.object, Value.ofMembers, levels, Nat.add_le_add_iff_right, levelsOfMembers_le]
  intro e he
  obtain ⟨m, hm, rfl⟩ := List.mem_map.mp he
  exact hvalues _ (List.of_mem_zip hm).2

/-- A new object is the built one, and the objects from before are left. -/
structure Stored (h : Objects) (v : Value) (out : Handle × Objects) : Prop where
  next : out.2.next = (build h.next v).2
  frame : ∀ q < h.next, out.2.cells q = h.cells q
  object : ∀ d, levels v ≤ d → unfold out.2 d out.1 = (build h.next v).1

structure StoredItems (h : Objects) (items : List Value) (out : List Handle × Objects) : Prop where
  next : out.2.next = (buildItems h.next items).2
  frame : ∀ q < h.next, out.2.cells q = h.cells q
  objects : ∀ d, (∀ v ∈ items, levels v ≤ d) →
    out.1.map (unfold out.2 d) = (buildItems h.next items).1

theorem next_le_build (n : ℕ) (v : Value) : n ≤ (build n v).2 := (built v n).le

theorem lt_of_mem_build {n : ℕ} (hp : p ∈ trail (build n v).1) : p < (build n v).2 := by
  have hbuilt := built v n
  rw [hbuilt.trail, List.mem_range'_1] at hp
  have hle := hbuilt.le
  omega

theorem builtItems_of (n : ℕ) (items : List Value) :
    BuiltItems n items (buildItems n items).1 (buildItems n items).2 :=
  builtItems (fun v _ n => built v n) n

theorem storedItems {items : List Value} (ih : ∀ v ∈ items, ∀ h, Stored h v (store v h))
    (h : Objects) : StoredItems h items (storeItems items h) := by
  induction items generalizing h with
  | nil => exact ⟨rfl, fun q _ => rfl, fun d _ => rfl⟩
  | cons v items hitems =>
    rw [List.forall_mem_cons] at ih
    have hv := ih.1 h
    have hrest := hitems ih.2 (store v h).2
    have hle := next_le_build h.next v
    refine ⟨?_, fun q hq => ?_, fun d hd => ?_⟩
    · rw [storeItems, buildItems, hrest.next, hv.next]
    · rw [storeItems, hrest.frame q (by rw [hv.next]; omega), hv.frame q hq]
    · rw [List.forall_mem_cons] at hd
      have hfirst : unfold (storeItems items (store v h).2).2 d (store v h).1 =
          unfold (store v h).2 d (store v h).1 := by
        apply unfold_congr
        intro p hp
        rw [hv.object d hd.1] at hp
        exact hrest.frame p (by rw [hv.next]; exact lt_of_mem_build hp)
      rw [storeItems, buildItems, List.map_cons, hfirst, hv.object d hd.1, hrest.objects d hd.2,
        hv.next]

theorem storeMembers_eq (entries : List (Scalar × Value)) (h : Objects) :
    (storeMembers entries h).1 =
        (entries.map Prod.fst).zip (storeItems (entries.map Prod.snd) h).1 ∧
      (storeMembers entries h).2 = (storeItems (entries.map Prod.snd) h).2 := by
  induction entries generalizing h with
  | nil => exact ⟨rfl, rfl⟩
  | cons e entries ih =>
    obtain ⟨hmembers, hheap⟩ := ih (store e.2 h).2
    rw [storeMembers, List.map_cons, List.map_cons, storeItems, List.zip_cons_cons, hmembers, hheap]
    exact ⟨rfl, rfl⟩

theorem objects_alloc {items : List Value} {out : List Handle × Objects}
    (hitems : StoredItems h items out) (c : Cell Scalar Live.Atom) (hd : ∀ v ∈ items, levels v ≤ d) :
    out.1.map (unfold (out.2.alloc c) d) = (buildItems h.next items).1 := by
  rw [← hitems.objects d hd]
  apply List.map_congr_left
  intro r hr
  apply unfold_congr
  intro p hp
  refine ObjectHeap.Heap.cells_alloc_of_lt ?_
  have hmem : unfold out.2 d r ∈ (buildItems h.next items).1 := by
    rw [← hitems.objects d hd]
    exact List.mem_map_of_mem hr
  have hp' : p ∈ trails (buildItems h.next items).1 := mem_trails.mpr ⟨_, hmem, hp⟩
  have hbuilt := builtItems_of h.next items
  rw [hbuilt.trail, List.mem_range'_1] at hp'
  rw [hitems.next]
  have hle := hbuilt.le
  omega

theorem stored (v : Value) (h : Objects) : Stored h v (store v h) := by
  induction v using Value.induction generalizing h with
  | hatom v hlist hdict =>
    cases v with
    | list items => exact absurd rfl (hlist items)
    | dict entries => exact absurd rfl (hdict entries)
    | _ => exact ⟨rfl, fun q _ => rfl, fun d _ => unfold_atom _⟩
  | hlist items ih =>
    have hitems := storedItems ih h
    have hbuilt := builtItems_of h.next items
    refine ⟨?_, fun q hq => ?_, fun d hd => ?_⟩
    · rw [store, ObjectHeap.Heap.next_alloc, hitems.next, build]
    · rw [store, ObjectHeap.Heap.cells_alloc_of_lt, hitems.frame q hq]
      rw [hitems.next]
      exact hq.trans_le hbuilt.le
    · rw [levels] at hd
      obtain ⟨k, rfl⟩ := Nat.exists_eq_add_of_le' (le_trans (Nat.le_add_left 1 _) hd)
      have hlevels := levelsOfItems_le.mp (Nat.le_of_add_le_add_right hd)
      rw [store, unfold_list ObjectHeap.Heap.cells_alloc_self, objects_alloc hitems _ hlevels, build,
        hitems.next]
  | hdict entries ih =>
    have hparts : ∀ v ∈ entries.map Prod.snd, ∀ h, Stored h v (store v h) := by
      intro v hv
      obtain ⟨e, he, rfl⟩ := List.mem_map.mp hv
      exact ih e he
    have hitems := storedItems hparts h
    have hbuilt := builtItems_of h.next (entries.map Prod.snd)
    obtain ⟨hmembers, hheap⟩ := storeMembers_eq entries h
    obtain ⟨hbuildMembers, hbuildNext⟩ := buildMembers_eq h.next entries
    refine ⟨?_, fun q hq => ?_, fun d hd => ?_⟩
    · rw [store, ObjectHeap.Heap.next_alloc, hheap, hitems.next, build, hbuildNext]
    · rw [store, hheap, ObjectHeap.Heap.cells_alloc_of_lt, hitems.frame q hq]
      rw [hitems.next]
      exact hq.trans_le hbuilt.le
    · rw [levels] at hd
      obtain ⟨k, rfl⟩ := Nat.exists_eq_add_of_le' (le_trans (Nat.le_add_left 1 _) hd)
      have hlevels : ∀ v ∈ entries.map Prod.snd, levels v ≤ k :=
        List.forall_mem_map.mpr (levelsOfMembers_le.mp (Nat.le_of_add_le_add_right hd))
      have hobjects := objects_alloc hitems (.dict (storeMembers entries h).1) hlevels
      have hmap : ∀ g : Objects, (fun e : Scalar × Handle => (e.1, unfold g k e.2)) =
          Prod.map id (unfold g k) := fun g => rfl
      rw [store, unfold_dict ObjectHeap.Heap.cells_alloc_self, hmap, hheap, hmembers,
        ← List.zip_map_right, ← hmembers, hobjects, build, hbuildMembers, hbuildNext, hitems.next]

/-! ### Restores -/

/-- What was captured is read as before, whatever was made of the heap in between. -/
theorem read_restore {addrs : List ℕ} (g : Objects) (haddrs : trail (read h r) ⊆ addrs) :
    read (ObjectHeap.Heap.restore (ObjectHeap.Heap.capture h addrs) g) r = read h r := by
  apply unfold_congr
  intro p hp
  rw [ObjectHeap.Heap.cells_restore, if_pos (haddrs hp)]

/-! ### Commits -/

theorem unfold_record {names : List Text} {members : List Handle}
    (hcell : h.cells p = Live.dict names members) :
    unfold h (d + 1) (.ptr p) = .object p names (members.map (unfold h d)) := by
  rw [unfold_dict hcell, PyObj.object, List.zip_map_right, List.map_map, List.map_map]
  rfl

variable {s : State} {j : Job}

theorem levels_job (hj : j.Valid) : levels j.toValue ≤ Queue.maxDepth + 1 := by
  refine levels_object fun v hv => ?_
  simp only [List.mem_cons, List.not_mem_nil, or_false] at hv
  rcases hv with rfl | rfl | rfl | rfl | rfl | rfl | rfl | rfl
  case inr.inr.inr.inl => exact levels_le hj.payload
  case inr.inr.inr.inr.inr.inr.inl => cases j.leaseOwner <;> exact Nat.zero_le _
  case inr.inr.inr.inr.inr.inr.inr => cases j.leaseExpiresAt <;> exact Nat.zero_le _
  all_goals exact Nat.zero_le _

/-- The state is read as the new one, in new containers below its own, and the other
containers are left. -/
structure WroteState (h h' : Objects) (p : ℕ) (s : State) : Prop where
  state : Queue.checkState (read h' (.ptr p)) = some s
  trail : ∀ q ∈ trail (read h' (.ptr p)), q = p ∨ (h.next ≤ q ∧ q < h'.next)
  frame : ∀ q < h.next, q ≠ p → h'.cells q = h.cells q
  grows : h.next ≤ h'.next

theorem wroteState (hp : p < h.next) (hs : s.Valid) : WroteState h (writeState (.ptr p) s h) p s := by
  have hstored := stored (.list (s.jobs.map Job.toValue)) h
  have hlevels : levels (.list (s.jobs.map Job.toValue)) ≤ Queue.maxDepth + 2 := by
    rw [levels, Nat.add_le_add_iff_right (n := 1) (m := levelsOfItems _), levelsOfItems_le]
    exact List.forall_mem_map.mpr fun j hj => levels_job (hs.jobs j hj)
  have hle := next_le_build h.next (.list (s.jobs.map Job.toValue))
  have hcell : (writeState (.ptr p) s h).cells p = Live.dict stateFields
      [(store (.list (s.jobs.map Job.toValue)) h).1, .atom (.int s.nextSeq)] :=
    ObjectHeap.Heap.cells_set_self
  have hjobs : unfold (writeState (.ptr p) s h) (Queue.maxDepth + 2)
      (store (.list (s.jobs.map Job.toValue)) h).1 =
        (build h.next (.list (s.jobs.map Job.toValue))).1 := by
    rw [← hstored.object _ hlevels]
    apply unfold_congr
    intro q hq
    rw [hstored.object _ hlevels, (built _ _).trail, List.mem_range'_1] at hq
    exact ObjectHeap.Heap.cells_set_of_ne (by omega)
  have hread : read (writeState (.ptr p) s h) (.ptr p) = .object p stateFields
      [(build h.next (.list (s.jobs.map Job.toValue))).1, .atom (.int s.nextSeq)] := by
    rw [← hjobs]
    exact unfold_record hcell
  refine ⟨?_, fun q hq => ?_, fun q hq hne => ?_, ?_⟩
  · have hnodup : stateFields.Nodup := by decide
    rw [hread]
    refine checkState_eq_some.mpr ⟨_, _, PyObj.fields?_object p hnodup rfl, hs.nextSeq, ?_, ?_⟩
    · rw [length_buildItems, List.length_map]
      exact hs.length
    · rw [checkJobs_eq]
      exact jobsOk_build hs.jobs hs.ids hs.increasing (fun _ _ => List.not_mem_nil) (by omega)
        (fun j _ => by omega) hs.below (fun q hq => absurd hq List.not_mem_nil)
  · rw [hread] at hq
    rcases mem_trail_dict.mp hq with rfl | ⟨e, he, hq⟩
    · exact .inl rfl
    · right
      simp only [stateFields, List.zip_cons_cons, List.zip_nil_right, List.map_cons, List.map_nil,
        List.mem_cons, List.not_mem_nil, or_false] at he
      rcases he with rfl | rfl
      · have hnext : (writeState (.ptr p) s h).next =
            (build h.next (.list (s.jobs.map Job.toValue))).2 := hstored.next
        rw [(built _ _).trail, List.mem_range'_1] at hq
        omega
      · cases hq
  · exact (ObjectHeap.Heap.cells_set_of_ne hne).trans (hstored.frame q hq)
  · exact hle.trans (ge_of_eq hstored.next)

/-- A container reads as itself. -/
theorem cell_of_list {id : ℕ} {items : List PyObj} (hread : unfold h (d + 1) r = .list id items) :
    r = .ptr id ∧ ∃ l, h.cells id = .list l ∧ items = l.map (unfold h d) := by
  cases r with
  | atom a => cases hread
  | ptr p =>
    cases hcell : h.cells p with
    | list l =>
      rw [unfold_list hcell] at hread
      obtain ⟨rfl, rfl⟩ := PyObj.list.inj hread
      exact ⟨rfl, l, hcell, rfl⟩
    | dict entries =>
      rw [unfold_dict hcell] at hread
      cases hread

theorem cell_of_dict {id : ℕ} {entries : List (Scalar × PyObj)}
    (hread : unfold h d r = .dict id entries) : r = .ptr id ∧ ∃ members, h.cells id = .dict members ∧
      members.map Prod.fst = entries.map Prod.fst := by
  cases d with
  | zero => cases r <;> cases hread
  | succ d =>
    cases r with
    | atom a => cases hread
    | ptr p =>
      cases hcell : h.cells p with
      | list l =>
        rw [unfold_list hcell] at hread
        cases hread
      | dict members =>
        rw [unfold_dict hcell] at hread
        obtain ⟨rfl, rfl⟩ := PyObj.dict.inj hread
        refine ⟨rfl, members, hcell, ?_⟩
        rw [List.map_map]
        rfl

/-- The ledger has one more receipt, in a new container, and the other containers are
left. -/
structure PushedReceipt (h h' : Objects) (p : ℕ) (items : List PyObj) (r : Receipt) : Prop where
  ledger : read h' (.ptr p) = .list p (items ++ [r.object h.next])
  frame : ∀ q < h.next, q ≠ p → h'.cells q = h.cells q
  next : h'.next = h.next + 1

theorem pushedReceipt {id : ℕ} {items : List PyObj} (receipt : Receipt)
    (hread : read h (.ptr p) = .list id items) (hp : p < h.next)
    (hitems : ∀ o ∈ items, ∀ q ∈ trail o, q < h.next ∧ q ≠ p) :
    PushedReceipt h (pushReceipt (.ptr p) receipt h) p items receipt := by
  obtain ⟨hptr, l, hcell, rfl⟩ := cell_of_list hread
  obtain rfl := Ref.ptr.inj hptr
  have hpush : pushReceipt (.ptr p) receipt h = (h.alloc (Live.dict receiptFields
      [Live.text receipt.receiptId, Live.text receipt.idempotencyKey,
        Live.text receipt.requestFingerprint, Live.text receipt.priorStateId,
        Live.text receipt.stateId, .atom (.int receipt.sequence)])).set p
          (.list (l ++ [.ptr h.next])) := by
    simp only [pushReceipt, Live.push, ObjectHeap.Heap.cells_alloc_of_lt hp, hcell]
  have hframe : ∀ q < h.next, q ≠ p →
      (pushReceipt (.ptr p) receipt h).cells q = h.cells q := by
    intro q hq hne
    rw [hpush, ObjectHeap.Heap.cells_set_of_ne hne, ObjectHeap.Heap.cells_alloc_of_lt hq]
  refine ⟨?_, hframe, by rw [hpush]; rfl⟩
  have hlist : (pushReceipt (.ptr p) receipt h).cells p = .list (l ++ [.ptr h.next]) := by
    rw [hpush, ObjectHeap.Heap.cells_set_self]
  have hnew : unfold (pushReceipt (.ptr p) receipt h) (Queue.maxDepth + 2) (.ptr h.next) =
      receipt.object h.next := by
    have hcell' : (pushReceipt (.ptr p) receipt h).cells h.next = Live.dict receiptFields
        [Live.text receipt.receiptId, Live.text receipt.idempotencyKey,
          Live.text receipt.requestFingerprint, Live.text receipt.priorStateId,
          Live.text receipt.stateId, .atom (.int receipt.sequence)] := by
      rw [hpush, ObjectHeap.Heap.cells_set_of_ne (by omega), ObjectHeap.Heap.cells_alloc_self]
    exact unfold_record hcell'
  have hold : l.map (unfold (pushReceipt (.ptr p) receipt h) (Queue.maxDepth + 2)) =
      l.map (unfold h (Queue.maxDepth + 2)) := by
    apply List.map_congr_left
    intro c hc
    apply unfold_congr
    intro q hq
    obtain ⟨hlt, hne⟩ := hitems _ (List.mem_map_of_mem hc) q hq
    exact hframe q hlt hne
  have hwhole : read (pushReceipt (.ptr p) receipt h) (.ptr p) =
      .list p ((l ++ [Ref.ptr h.next]).map
        (unfold (pushReceipt (.ptr p) receipt h) (Queue.maxDepth + 2))) := unfold_list hlist
  rw [hwhole, List.map_append, hold, List.map_singleton, hnew]

/-- A record has the keys and the values of its fields. -/
theorem keys_of_fields? {names : List Text} {values : List PyObj}
    (hfields : o.fields? names = some values) :
    ∃ id entries, o = .dict id entries ∧ (entries.map Prod.fst).Perm (names.map Scalar.str) ∧
      ∀ e ∈ entries, e.2 ∈ values := by
  unfold PyObj.fields? at hfields
  cases o with
  | dict id entries =>
    cases hmembers : (PyObj.dict id entries).members? with
    | none => simp [hmembers] at hfields
    | some members =>
      simp only [hmembers] at hfields
      split_ifs at hfields with hperm
      simp only [PyObj.members?] at hmembers
      cases hread : entries.mapM fun e => e.1.text?.map fun k => (k, e.2) with
      | none => simp [hread] at hmembers
      | some l =>
        simp only [hread] at hmembers
        split_ifs at hmembers with hnodup
        obtain rfl := Option.some.inj hmembers
        refine ⟨id, entries, rfl, ?_, fun e he => ?_⟩
        · rw [Scalar.of_mapM_text hread, List.map_map]
          exact (List.map_map (f := Prod.fst) (g := Scalar.str) (l := l)) ▸ hperm.map Scalar.str
        · rw [Scalar.of_mapM_text hread] at he
          obtain ⟨⟨k, v⟩, hm, rfl⟩ := List.mem_map.mp he
          have hk : k ∈ names := hperm.mem_iff.mp (List.mem_map_of_mem hm)
          obtain ⟨i, hi⟩ := List.mem_iff_getElem?.mp hk
          have hvalue := Separated.getElem?_of_mapM hfields hi
          rw [(Dict.lookup_eq_some_iff_mem hnodup).mpr hm] at hvalue
          exact List.mem_of_getElem? hvalue.symm
  | _ => cases hfields

theorem record_of_validateReceipt {sha : Hex.Hash 64} {seen : List Text} {prevState : Option Text}
    {index : ℕ} {receipt : Receipt} (hr : validateReceipt sha seen prevState index o = some receipt) :
    ∃ id entries, o = .dict id entries ∧
      (entries.map Prod.fst).Perm (receiptFields.map Scalar.str) ∧ ∀ q ∈ trail o, q = id := by
  unfold validateReceipt at hr
  split at hr
  · rename_i rid key token prior stateId sequence hfields
    split at hr
    · rename_i hrid hkey htoken hprior hstateId hsequence
      obtain ⟨id, entries, rfl, hkeys, hvalues⟩ := keys_of_fields? hfields
      obtain ⟨_, hint, -⟩ := PyObj.nat?_eq_some.mp hsequence
      refine ⟨id, entries, rfl, hkeys, fun q hq => ?_⟩
      rcases mem_trail_dict.mp hq with rfl | ⟨e, he, hq⟩
      · rfl
      · have hmem := hvalues e he
        rw [(PyObj.text?_eq_some.mp hrid).1, (PyObj.text?_eq_some.mp hkey).1,
          (PyObj.text?_eq_some.mp htoken).1, (PyObj.text?_eq_some.mp hprior).1,
          (PyObj.text?_eq_some.mp hstateId).1, hint] at hmem
        simp only [List.mem_cons, List.not_mem_nil, or_false] at hmem
        rcases hmem with h | h | h | h | h | h <;> rw [h] at hq <;> cases hq
    · cases hr
  · cases hr

theorem records_of_validateReceipts {sha : Hex.Hash 64} {seen : List Text}
    {prevState : Option Text} {index : ℕ} {receipts : List PyObj} {rs : List Receipt}
    (hrs : validateReceipts sha seen prevState index receipts = some rs) :
    ∀ o ∈ receipts, ∃ id entries, o = .dict id entries ∧
      (entries.map Prod.fst).Perm (receiptFields.map Scalar.str) ∧ ∀ q ∈ trail o, q = id := by
  induction receipts generalizing seen prevState index rs with
  | nil => exact fun o ho => by cases ho
  | cons first receipts ih =>
    obtain ⟨r₁, rs', hfirst, hrs', -⟩ := validateReceipts_cons.mp hrs
    exact List.forall_mem_cons.mpr ⟨record_of_validateReceipt hfirst, ih hrs'⟩

end KeyedQueue
end OpenChess
