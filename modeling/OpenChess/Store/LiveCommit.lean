import OpenChess.Store.LiveTrees

/-!
# Restores and commits

What an engine leaves after an oracle: the captured trees with their old values, and
one list with one new item or without its tail.
-/

namespace OpenChess
namespace Live

open ObjectHeap
open ObjectHeap.Heap (capture restore Within)

variable {h h' h₁ h₂ : Objects} {P Q : ℕ → Prop} {r c : Handle} {p q : ℕ} {d n m : ℕ}
  {v : Value} {l : List Handle} {addrs : List ℕ} {e : Wal.Entry} {receipt : Idempotency.Receipt}

/-! ### Values before and after -/

def Kept (h h' : Objects) (r : Handle) : Prop := ∀ d, value h' d r = value h d r

/-- The list has its old value and one more item, read down to the parts of the item. -/
def Appended (h h' : Objects) (r : Handle) (v : Value) : Prop :=
  ∀ d, 3 ≤ d → ∃ vs, value h (d + 1) r = .list vs ∧ value h' (d + 1) r = .list (vs ++ [v])

/-- The list has lost its last items. -/
def Truncated (h h' : Objects) (r : Handle) (kept dropped : ℕ) : Prop :=
  ∀ d, ∃ vs, value h (d + 1) r = .list vs ∧ vs.length = kept + dropped ∧
    value h' (d + 1) r = .list (vs.take kept)

theorem Kept.refl : Kept h h r := fun _ => rfl

theorem Kept.trans (h₁₂ : Kept h h₁ r) (h₂₃ : Kept h₁ h₂ r) : Kept h h₂ r := fun d =>
  (h₂₃ d).trans (h₁₂ d)

theorem Kept.appended (hkept : Kept h h₁ r) (happended : Appended h₁ h₂ r v) :
    Appended h h₂ r v := by
  intro d hd
  obtain ⟨vs, hvs, hnew⟩ := happended d hd
  exact ⟨vs, by rw [← hkept, hvs], hnew⟩

theorem Kept.truncated (hkept : Kept h h₁ r) (htruncated : Truncated h₁ h₂ r n m) :
    Truncated h h₂ r n m := by
  intro d
  obtain ⟨vs, hvs, hlength, hnew⟩ := htruncated d
  exact ⟨vs, by rw [← hkept, hvs], hlength, hnew⟩

theorem Appended.kept (happended : Appended h h₁ r v) (hkept : Kept h₁ h₂ r) :
    Appended h h₂ r v := by
  intro d hd
  obtain ⟨vs, hvs, hnew⟩ := happended d hd
  exact ⟨vs, hvs, by rw [hkept, hnew]⟩

theorem kept_of_within (hr : h.Within P r) (heq : ∀ p, P p → h'.cells p = h.cells p) :
    Kept h h' r := fun d => hr.view_eq heq d

/-! ### New objects -/

/-- A dictionary reads as the object of its members. -/
theorem value_object {names : List Text} {members : List Handle}
    (hcell : h.cells p = dict names members) :
    value h (d + 1) (.ptr p) = .object names (members.map (value h d)) := by
  rw [value_dict hcell, List.map_map]
  simp only [Value.object, Value.ofMembers, List.zip_map_right, List.map_map]
  rfl

theorem next_newEntry : (newEntry e h).next = h.next + 3 := rfl

theorem cells_newEntry_of_lt (hp : p < h.next) : (newEntry e h).cells p = h.cells p := by
  unfold newEntry
  rw [Heap.cells_alloc_of_lt (by simp only [Heap.next_alloc]; omega),
    Heap.cells_alloc_of_lt (by simp only [Heap.next_alloc]; omega), Heap.cells_alloc_of_lt hp]

theorem cells_newEntry_record : (newEntry e h).cells h.next = dict Node.recordFields
    [text e.record.variant, text e.record.digest, text e.record.snapshotFen] := by
  unfold newEntry
  rw [Heap.cells_alloc_of_lt (by simp only [Heap.next_alloc]; omega),
    Heap.cells_alloc_of_lt (by simp only [Heap.next_alloc]; omega), Heap.cells_alloc_self]

theorem cells_newEntry_payload : (newEntry e h).cells (h.next + 1) =
    dict Wal.payloadFields [text e.identity, .ptr h.next] := by
  unfold newEntry
  rw [Heap.cells_alloc_of_lt (by simp only [Heap.next_alloc]; omega), ← Heap.next_alloc,
    Heap.cells_alloc_self]

theorem cells_newEntry_entry : (newEntry e h).cells (h.next + 2) = dict Wal.entryFields
    [text e.entryId, .atom (.int e.sequence), text e.op.text, .ptr (h.next + 1), text e.prior] :=
  Heap.cells_alloc_self

theorem value_newEntry (hd : 3 ≤ d) :
    value (newEntry e h) d (.ptr (h.next + 2)) = e.toValue := by
  obtain ⟨k, rfl⟩ := Nat.exists_eq_add_of_le' hd
  rw [value_object cells_newEntry_entry]
  simp only [List.map_cons, List.map_nil, text, value_atom, value_object cells_newEntry_payload,
    value_object cells_newEntry_record]
  rfl

theorem children_dict {names : List Text} {members : List Handle}
    (hc : c ∈ (dict names members).children) : c ∈ members := by
  simp only [dict, Cell.children, List.map_map, List.mem_map] at hc
  obtain ⟨e, he, rfl⟩ := hc
  exact (List.of_mem_zip he).2

theorem within_newEntry :
    (newEntry e h).Within (fun p => h.next ≤ p ∧ p < (newEntry e h).next) (.ptr (h.next + 2)) := by
  rw [next_newEntry]
  have hrecord : (newEntry e h).Within (fun p => h.next ≤ p ∧ p < h.next + 3) (.ptr h.next) := by
    refine .ptr _ (by omega) fun c hc => ?_
    rw [cells_newEntry_record] at hc
    have hmem := children_dict hc
    simp only [text, List.mem_cons, List.not_mem_nil, or_false] at hmem
    obtain rfl | rfl | rfl := hmem <;> exact .atom _
  have hpayload : (newEntry e h).Within (fun p => h.next ≤ p ∧ p < h.next + 3)
      (.ptr (h.next + 1)) := by
    refine .ptr _ (by omega) fun c hc => ?_
    rw [cells_newEntry_payload] at hc
    have hmem := children_dict hc
    simp only [text, List.mem_cons, List.not_mem_nil, or_false] at hmem
    obtain rfl | rfl := hmem
    · exact .atom _
    · exact hrecord
  refine .ptr _ (by omega) fun c hc => ?_
  rw [cells_newEntry_entry] at hc
  have hmem := children_dict hc
  simp only [text, List.mem_cons, List.not_mem_nil, or_false] at hmem
  obtain rfl | rfl | rfl | rfl | rfl := hmem
  · exact .atom _
  · exact .atom _
  · exact .atom _
  · exact hpayload
  · exact .atom _

theorem cells_newReceipt : (newReceipt receipt h).cells h.next = dict Idempotency.receiptFields
    [text receipt.receiptId, text receipt.idempotencyKey, text receipt.requestFingerprint,
      text receipt.entryId, .atom (.int receipt.sequence)] := Heap.cells_alloc_self

theorem value_newReceipt (hd : 3 ≤ d) :
    value (newReceipt receipt h) d (.ptr h.next) = receipt.toValue := by
  obtain ⟨k, rfl⟩ := Nat.exists_eq_add_of_le' hd
  rw [value_object cells_newReceipt]
  simp only [List.map_cons, List.map_nil, text, value_atom]
  rfl

theorem within_newReceipt : (newReceipt receipt h).Within
    (fun p => h.next ≤ p ∧ p < (newReceipt receipt h).next) (.ptr h.next) := by
  refine .ptr _ ⟨le_refl _, Nat.lt_succ_self _⟩ fun c hc => ?_
  rw [cells_newReceipt] at hc
  have hmem := children_dict hc
  simp only [text, List.mem_cons, List.not_mem_nil, or_false] at hmem
  obtain rfl | rfl | rfl | rfl | rfl := hmem <;> exact .atom _

/-! ### Pushes -/

/-- A list has one more item, a new tree with this value, and the other containers are
left. -/
structure Pushed (h h' : Objects) (p : ℕ) (v : Value) : Prop where
  item : ∀ l, h.cells p = .list l → ∃ r, h'.cells p = .list (l ++ [r]) ∧
    h'.Within (fun q => h.next ≤ q ∧ q < h'.next) r ∧ ∀ d, 3 ≤ d → value h' d r = v
  frame : ∀ q < h.next, q ≠ p → h'.cells q = h.cells q
  grows : h.next ≤ h'.next

theorem push_list (hcell : h.cells p = .list l) : push (.ptr p) r h = h.set p (.list (l ++ [r])) := by
  simp only [push, hcell]

theorem pushed_of_new (hp : p < h.next) (hcell : h.cells p = .list l) (hgrows : h.next ≤ h₁.next)
    (hframe : ∀ q < h.next, h₁.cells q = h.cells q)
    (hr : h₁.Within (fun q => h.next ≤ q ∧ q < h₁.next) r)
    (hvalue : ∀ d, 3 ≤ d → value h₁ d r = v) : Pushed h (push (.ptr p) r h₁) p v := by
  have hcell₁ : h₁.cells p = .list l := by rw [hframe p hp, hcell]
  rw [push_list hcell₁]
  have hnew : ∀ q, h.next ≤ q ∧ q < h₁.next →
      (h₁.set p (.list (l ++ [r]))).cells q = h₁.cells q := fun q hq =>
    Heap.cells_set_of_ne (by omega)
  constructor
  · intro l' hl'
    rw [hcell] at hl'
    obtain rfl := Cell.list.inj hl'
    exact ⟨r, Heap.cells_set_self, hr.frame hnew, fun d hd =>
      (hr.view_eq hnew d).trans (hvalue d hd)⟩
  · intro q hq hne
    rw [Heap.cells_set_of_ne hne, hframe q hq]
  · exact hgrows

theorem pushed_entry (hp : p < h.next) (hcell : h.cells p = .list l) (e : Wal.Entry) :
    Pushed h (pushEntry (.ptr p) e h) p e.toValue :=
  pushed_of_new hp hcell (by rw [next_newEntry]; omega) (fun _ hq => cells_newEntry_of_lt hq)
    within_newEntry fun _ hd => value_newEntry hd

theorem pushed_receipt (hp : p < h.next) (hcell : h.cells p = .list l)
    (receipt : Idempotency.Receipt) : Pushed h (pushReceipt (.ptr p) receipt h) p receipt.toValue :=
  pushed_of_new hp hcell (Nat.le_succ _) (fun _ hq => Heap.cells_alloc_of_lt hq)
    within_newReceipt fun _ hd => value_newReceipt hd

/-- A tree apart from the list is left by a push. -/
theorem Pushed.kept (hpush : Pushed h h' p v) (hr : h.Within (fun q => q < h.next ∧ q ≠ p) r) :
    Kept h h' r := kept_of_within hr fun q hq => hpush.frame q hq.1 hq.2

theorem Pushed.appended (hpush : Pushed h h' p v) (hcell : h.cells p = .list l)
    (hitems : ∀ c ∈ l, h.Within (fun q => q < h.next ∧ q ≠ p) c) : Appended h h' (.ptr p) v := by
  intro d hd
  obtain ⟨r, hr, -, hvalue⟩ := hpush.item l hcell
  have hold : l.map (value h' d) = l.map (value h d) :=
    List.map_congr_left fun c hc => hpush.kept (hitems c hc) d
  refine ⟨l.map (value h d), value_list hcell, ?_⟩
  rw [value_list hr, List.map_append, hold, List.map_singleton, hvalue d hd]

/-- What holds of the list, its items and new containers holds of the longer list. -/
theorem Pushed.within (hpush : Pushed h h' p v) (hcell : h.cells p = .list l) (hp : P p)
    (hitems : ∀ c ∈ l, h.Within (fun q => (q < h.next ∧ q ≠ p) ∧ P q) c)
    (hnew : ∀ q, h.next ≤ q ∧ q < h'.next → P q) : h'.Within P (.ptr p) := by
  obtain ⟨r, hr, hwithin, -⟩ := hpush.item l hcell
  refine within_list hr hp fun c hc => ?_
  rcases List.mem_append.mp hc with hc | hc
  · have hframe := (hitems c hc).frame fun q hq => hpush.frame q hq.1.1 hq.1.2
    exact hframe.mono fun q hq => hq.2
  · rw [List.mem_singleton.mp hc]
    exact hwithin.mono hnew

section Both

variable {l' : List Handle} {w : Value} (hfirst : Pushed h h₁ p v) (hsecond : Pushed h₁ h₂ q w)
include hfirst hsecond

/-- A tree apart from two lists is left by a push to each. -/
theorem Pushed.kept_both (hr : h.Within (fun a => a < h.next ∧ a ≠ p ∧ a ≠ q) r) :
    Kept h h₂ r := by
  have hframe : h₁.Within (fun a => a < h.next ∧ a ≠ p ∧ a ≠ q) r :=
    hr.frame fun a ha => hfirst.frame a ha.1 ha.2.1
  exact (hfirst.kept (hr.mono fun a ha => ⟨ha.1, ha.2.1⟩)).trans
    (hsecond.kept (hframe.mono fun a ha => ⟨ha.1.trans_le hfirst.grows, ha.2.2⟩))

/-- A push to each of two lists, the items of both apart from both. -/
theorem Pushed.appended_both (hp : p < h.next) (hq : q < h.next) (hne : q ≠ p)
    (hcell : h.cells p = .list l) (hcell' : h.cells q = .list l')
    (hitems : ∀ c ∈ l, h.Within (fun a => a < h.next ∧ a ≠ p ∧ a ≠ q) c)
    (hitems' : ∀ c ∈ l', h.Within (fun a => a < h.next ∧ a ≠ p ∧ a ≠ q) c) :
    Appended h h₂ (.ptr p) v ∧ Appended h h₂ (.ptr q) w := by
  constructor
  · have hlist : h₁.Within (fun a => a < h₁.next ∧ a ≠ q) (.ptr p) :=
      hfirst.within hcell ⟨hp.trans_le hfirst.grows, hne.symm⟩
        (fun c hc => (hitems c hc).mono fun a ha =>
          ⟨⟨ha.1, ha.2.1⟩, ha.1.trans_le hfirst.grows, ha.2.2⟩)
        fun a ha => ⟨ha.2, by omega⟩
    exact (hfirst.appended hcell fun c hc => (hitems c hc).mono fun a ha => ⟨ha.1, ha.2.1⟩).kept
      (hsecond.kept hlist)
  · have hkept : Kept h h₁ (.ptr q) :=
      hfirst.kept (within_list hcell' ⟨hq, hne⟩ fun c hc =>
        (hitems' c hc).mono fun a ha => ⟨ha.1, ha.2.1⟩)
    have hcell₁ : h₁.cells q = .list l' := (hfirst.frame q hq hne).trans hcell'
    refine hkept.appended (hsecond.appended hcell₁ fun c hc => ?_)
    have hframe : h₁.Within (fun a => a < h.next ∧ a ≠ p ∧ a ≠ q) c :=
      (hitems' c hc).frame fun a ha => hfirst.frame a ha.1 ha.2.1
    exact hframe.mono fun a ha => ⟨ha.1.trans_le hfirst.grows, ha.2.2⟩

end Both

/-! ### Truncations -/

theorem truncated_of_within (hcell : h.cells p = .list l)
    (hitems : ∀ c ∈ l.take n, h.Within (· ≠ p) c) (hlength : l.length = n + m) :
    Truncated h (truncate n (.ptr p) h) (.ptr p) n m := by
  intro d
  have htruncate : truncate n (.ptr p) h = h.set p (.list (l.take n)) := by
    simp only [truncate, hcell]
  have hold : (l.take n).map (value (h.set p (.list (l.take n))) d) = (l.take n).map (value h d) :=
    List.map_congr_left fun c hc =>
      (hitems c hc).view_eq (fun q hq => Heap.cells_set_of_ne hq) d
  refine ⟨l.map (value h d), value_list hcell, by rw [List.length_map, hlength], ?_⟩
  rw [htruncate, value_list Heap.cells_set_self, hold, List.map_take]

theorem kept_truncate (hr : h.Within (· ≠ p) r) : Kept h (truncate n (.ptr p) h) r := by
  cases hcell : h.cells p with
  | list l =>
    have htruncate : truncate n (.ptr p) h = h.set p (.list (l.take n)) := by
      simp only [truncate, hcell]
    rw [htruncate]
    exact kept_of_within hr fun q hq => Heap.cells_set_of_ne hq
  | dict entries =>
    have htruncate : truncate n (.ptr p) h = h := by simp only [truncate, hcell]
    rw [htruncate]
    exact .refl

/-! ### Restores -/

theorem cells_restored (h' : Objects) (hp : p ∈ addrs) :
    (restore (capture h addrs) h').cells p = h.cells p := by
  rw [Heap.cells_restore, if_pos hp]

theorem within_restored (h' : Objects) (hr : h.Within P r) (hP : ∀ p, P p → p ∈ addrs) :
    (restore (capture h addrs) h').Within P r :=
  hr.frame fun p hp => cells_restored h' (hP p hp)

theorem kept_restored (h' : Objects) (hr : h.Within (· ∈ addrs) r) :
    Kept h (restore (capture h addrs) h') r := kept_of_within hr fun _ hp => cells_restored h' hp

end Live
end OpenChess
