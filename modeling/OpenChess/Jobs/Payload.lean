import OpenChess.Chess.Reference
import OpenChess.Jobs.Json
import OpenChess.Lib.Walk

/-!
# Job payloads

Model of the payload walk the job modules share: exact JSON, bounded in depth and in the
digits of its integers, in which no container is met twice. An object passes exactly when
its value is plain and its containers are distinct and new.
-/

namespace OpenChess
namespace Payload

/-- The bounds of a walk: containers on the way down, and bits and digits of an integer. -/
structure Limits where
  depth : ℕ
  bits : ℕ
  digits : ℕ

/-- `_scalar`. A string here has a UTF-8 form. -/
def scalar (L : Limits) : Value → Bool
  | .null => true
  | .bool _ => true
  | .int n => decide (n.natAbs.size ≤ L.bits) && decide ((Nat.toDigits 10 n.natAbs).length ≤ L.digits)
  | .float finite _ => finite
  | .str _ => true
  | _ => false

/-- One turn of the loop: what is pushed for a node, the last first, and the containers
met so far. -/
def expand (L : Limits) (node : PyObj × ℕ) (visited : List ℕ) :
    Option (List (PyObj × ℕ) × List ℕ) :=
  match node.1 with
  | .atom a => if scalar L a.value then some ([], visited) else none
  | .list id items =>
    if L.depth < node.2 ∨ id ∈ visited then none
    else some ((items.map fun o => (o, node.2 + 1)).reverse, id :: visited)
  | .dict id entries =>
    if L.depth < node.2 ∨ id ∈ visited then none
    else if entries.all fun e => e.1.text?.isSome then
      some ((entries.map fun e => (e.2, node.2 + 1)).reverse, id :: visited)
    else none

/-- `_payloads_ok`: the containers met, or none where the walk fails. -/
def payloadsOk (L : Limits) (roots : List PyObj) (visited : List ℕ) : Option (List ℕ) :=
  StackWalk.walk (expand L) (fun node => node.1.size) (roots.map fun o => (o, 1)).reverse visited

/-! ### Plain values -/

mutual

/-- Exact JSON within the bounds, with so many levels of containers left. -/
def Plain (L : Limits) : ℕ → Value → Prop
  | levels, .list items => 0 < levels ∧ PlainItems L (levels - 1) items
  | levels, .dict entries => 0 < levels ∧ PlainMembers L (levels - 1) entries
  | _, v => scalar L v = true

def PlainItems (L : Limits) : ℕ → List Value → Prop
  | _, [] => True
  | levels, v :: items => Plain L levels v ∧ PlainItems L levels items

def PlainMembers (L : Limits) : ℕ → List (Scalar × Value) → Prop
  | _, [] => True
  | levels, (k, v) :: entries =>
    (k.text?.isSome = true ∧ Plain L levels v) ∧ PlainMembers L levels entries

end

mutual

/-- The containers of an object, those met last first. -/
def trail : PyObj → List ℕ
  | .atom _ => []
  | .list id items => trails items ++ [id]
  | .dict id entries => memberTrails entries ++ [id]

def trails : List PyObj → List ℕ
  | [] => []
  | o :: items => trail o ++ trails items

def memberTrails : List (Scalar × PyObj) → List ℕ
  | [] => []
  | (_, o) :: entries => trail o ++ memberTrails entries

end

variable {L : Limits} {levels : ℕ} {v : Value}

theorem plainItems_iff {items : List Value} :
    PlainItems L levels items ↔ ∀ v ∈ items, Plain L levels v := by
  induction items with
  | nil => simp [PlainItems]
  | cons v items ih => rw [PlainItems, ih, List.forall_mem_cons]

theorem plainMembers_iff {entries : List (Scalar × Value)} : PlainMembers L levels entries ↔
    ∀ e ∈ entries, e.1.text?.isSome = true ∧ Plain L levels e.2 := by
  induction entries with
  | nil => simp [PlainMembers]
  | cons e entries ih => rw [PlainMembers, ih, List.forall_mem_cons]

theorem memberTrails_eq (entries : List (Scalar × PyObj)) :
    memberTrails entries = trails (entries.map Prod.snd) := by
  induction entries with
  | nil => rfl
  | cons e entries ih => rw [memberTrails, ih, List.map_cons, trails]

/-- A copy of a plain value is plain. -/
theorem Plain.copy (h : Plain L levels v) : Plain L levels (Json.copy v) := by
  induction v using Value.induction generalizing levels with
  | hatom v hlist hdict => rwa [Json.copy_leaf hlist hdict]
  | hlist items ih =>
    simp only [Json.copy, Json.copyItems_eq, Plain, plainItems_iff] at h ⊢
    refine ⟨h.1, fun w hw => ?_⟩
    obtain ⟨u, hu, rfl⟩ := List.mem_map.mp hw
    exact ih u hu (h.2 u hu)
  | hdict entries ih =>
    simp only [Json.copy, Json.copyMembers_eq, Plain, plainMembers_iff] at h ⊢
    refine ⟨h.1, fun e he => ?_⟩
    obtain ⟨e', he', rfl⟩ := List.mem_map.mp (Json.mem_sorted.mp he)
    exact ⟨(h.2 e' he').1, ih e' he' (h.2 e' he').2⟩

/-! ### The walk -/

theorem shrinks (L : Limits) : StackWalk.Shrinks (expand L) fun node => node.1.size := by
  intro n s nodes s' h
  obtain ⟨o, depth⟩ := n
  cases o with
  | atom a =>
    simp only [expand] at h
    split_ifs at h
    obtain ⟨rfl, -⟩ := Prod.mk.inj (Option.some.inj h)
    exact Nat.one_pos
  | list id items =>
    simp only [expand] at h
    split_ifs at h
    obtain ⟨rfl, -⟩ := Prod.mk.inj (Option.some.inj h)
    simp [StackWalk.total, PyObj.size, PyObj.sizes_eq, List.sum_reverse, Function.comp_def]
  | dict id entries =>
    simp only [expand] at h
    split_ifs at h
    obtain ⟨rfl, -⟩ := Prod.mk.inj (Option.some.inj h)
    simp [StackWalk.total, PyObj.size, PyObj.memberSizes_eq, List.sum_reverse, Function.comp_def]

def visit (L : Limits) (o : PyObj) (depth : ℕ) (visited : List ℕ) : Option (List ℕ) :=
  StackWalk.walk (expand L) (fun node => node.1.size) [(o, depth)] visited

/-- The walk below nodes at one depth, the first of them last. -/
def visitAll (L : Limits) (items : List PyObj) (depth : ℕ) (visited : List ℕ) :
    Option (List ℕ) :=
  StackWalk.walk (expand L) (fun node => node.1.size) (items.map fun o => (o, depth)).reverse visited

theorem visitAll_cons (o : PyObj) (items : List PyObj) (depth : ℕ) (visited : List ℕ) :
    visitAll L (o :: items) depth visited =
      (visitAll L items depth visited).bind (visit L o depth) := by
  rw [visitAll, List.map_cons, List.reverse_cons, StackWalk.walk_append (shrinks L)]
  rfl

theorem visit_eq (o : PyObj) (depth : ℕ) (visited : List ℕ) : visit L o depth visited =
    (expand L (o, depth) visited).bind fun p =>
      StackWalk.walk (expand L) (fun node => node.1.size) p.1 p.2 := by
  rw [visit, StackWalk.walk_cons (shrinks L)]
  simp only [List.append_nil]

/-- The object passes: its value is plain, and its containers are distinct and new. -/
structure Passes (L : Limits) (depth : ℕ) (visited : List ℕ) (o : PyObj) : Prop where
  plain : Plain L (L.depth + 1 - depth) o.content
  nodup : (trail o).Nodup
  fresh : ∀ p ∈ trail o, p ∉ visited

theorem passes_iff {o : PyObj} {depth : ℕ} {visited : List ℕ} : Passes L depth visited o ↔
    Plain L (L.depth + 1 - depth) o.content ∧ (trail o).Nodup ∧ ∀ p ∈ trail o, p ∉ visited :=
  ⟨fun h => ⟨h.plain, h.nodup, h.fresh⟩, fun h => ⟨h.1, h.2.1, h.2.2⟩⟩

theorem visitAll_eq_some {items : List PyObj} {depth : ℕ}
    (ih : ∀ o ∈ items, ∀ visited out, visit L o depth visited = some out ↔
      Passes L depth visited o ∧ out = trail o ++ visited) (visited out : List ℕ) :
    visitAll L items depth visited = some out ↔
      ((∀ o ∈ items, Plain L (L.depth + 1 - depth) o.content) ∧ (trails items).Nodup ∧
        ∀ p ∈ trails items, p ∉ visited) ∧ out = trails items ++ visited := by
  induction items generalizing out with
  | nil =>
    simp only [visitAll, List.map_nil, List.reverse_nil, StackWalk.walk_nil, trails,
      List.not_mem_nil, false_implies, implies_true, List.nodup_nil, and_self, true_and,
      List.nil_append, Option.some.injEq, eq_comm]
  | cons o items hitems =>
    rw [List.forall_mem_cons] at ih
    rw [visitAll_cons, Option.bind_eq_some_iff, List.forall_mem_cons, trails]
    simp only [hitems ih.2, ih.1]
    constructor
    · intro h
      obtain ⟨mid, ⟨⟨hplain, hnodup, hfresh⟩, rfl⟩, hpasses, rfl⟩ := h
      refine ⟨⟨⟨hpasses.plain, hplain⟩, List.nodup_append.mpr ⟨hpasses.nodup, hnodup, ?_⟩, ?_⟩,
        (List.append_assoc _ _ _).symm⟩
      · intro p hp q hq hpq
        exact hpasses.fresh p hp (List.mem_append_left _ (hpq ▸ hq))
      · intro p hp
        rcases List.mem_append.mp hp with hp | hp
        · exact fun hv => hpasses.fresh p hp (List.mem_append_right _ hv)
        · exact hfresh p hp
    · intro h
      obtain ⟨⟨hplain, hnodup, hfresh⟩, rfl⟩ := h
      obtain ⟨ho, hrest, hapart⟩ := List.nodup_append.mp hnodup
      refine ⟨trails items ++ visited, ⟨⟨hplain.2, hrest, fun p hp =>
        hfresh p (List.mem_append_right _ hp)⟩, rfl⟩, ⟨hplain.1, ho, fun p hp hmem => ?_⟩,
        List.append_assoc _ _ _⟩
      rcases List.mem_append.mp hmem with hmem | hmem
      · exact hapart p hp p hmem rfl
      · exact hfresh p (List.mem_append_left _ hp) hmem

theorem passes_container {id : ℕ} {items : List PyObj} {depth : ℕ} {visited out : List ℕ}
    (hdepth : depth ≤ L.depth) (hid : id ∉ visited)
    (h : visitAll L items (depth + 1) (id :: visited) = some out ↔
      ((∀ o ∈ items, Plain L (L.depth + 1 - (depth + 1)) o.content) ∧ (trails items).Nodup ∧
        ∀ p ∈ trails items, p ∉ id :: visited) ∧ out = trails items ++ id :: visited) :
    visitAll L items (depth + 1) (id :: visited) = some out ↔
      ((0 < L.depth + 1 - depth ∧ ∀ o ∈ items, Plain L (L.depth + 1 - depth - 1) o.content) ∧
        (trails items ++ [id]).Nodup ∧ ∀ p ∈ trails items ++ [id], p ∉ visited) ∧
      out = trails items ++ [id] ++ visited := by
  have hlevels : L.depth + 1 - (depth + 1) = L.depth + 1 - depth - 1 := by omega
  have hout : trails items ++ id :: visited = trails items ++ [id] ++ visited := by simp
  rw [h, hlevels, hout]
  refine and_congr_left fun _ => ?_
  constructor
  · intro hpasses
    obtain ⟨hplain, hnodup, hfresh⟩ := hpasses
    refine ⟨⟨by omega, hplain⟩, List.nodup_append.mpr ⟨hnodup, List.nodup_singleton _, ?_⟩, ?_⟩
    · intro p hp q hq hpq
      rw [List.mem_singleton.mp hq] at hpq
      exact hfresh p hp (hpq ▸ List.mem_cons_self)
    · intro p hp
      rcases List.mem_append.mp hp with hp | hp
      · exact fun hv => hfresh p hp (List.mem_cons_of_mem _ hv)
      · rwa [List.mem_singleton.mp hp]
  · intro hpasses
    obtain ⟨⟨-, hplain⟩, hnodup, hfresh⟩ := hpasses
    obtain ⟨hitems, -, hapart⟩ := List.nodup_append.mp hnodup
    refine ⟨hplain, hitems, fun p hp hmem => ?_⟩
    rcases List.mem_cons.mp hmem with rfl | hmem
    · exact hapart p hp p List.mem_cons_self rfl
    · exact hfresh p (List.mem_append_left _ hp) hmem

theorem not_passes_of_refused {id depth : ℕ} {visited seen : List ℕ} {P Q : Prop}
    (h : L.depth < depth ∨ id ∈ visited) :
    ¬((0 < L.depth + 1 - depth ∧ P) ∧ Q ∧ ∀ p ∈ seen ++ [id], p ∉ visited) := by
  rintro ⟨⟨hlevels, -⟩, -, hfresh⟩
  rcases h with hdepth | hid
  · omega
  · exact hfresh id (List.mem_append_right _ List.mem_cons_self) hid

theorem visit_eq_some (o : PyObj) (depth : ℕ) (visited out : List ℕ) :
    visit L o depth visited = some out ↔
      Passes L depth visited o ∧ out = trail o ++ visited := by
  induction o using PyObj.induction generalizing depth visited out with
  | hatom a =>
    rw [passes_iff, visit_eq]
    have hscalar : Plain L (L.depth + 1 - depth) a.value ↔ scalar L a.value = true := by
      cases a <;> exact Iff.rfl
    simp only [expand, PyObj.content, trail, hscalar]
    split_ifs with ha
    · simp [StackWalk.walk_nil, ha, eq_comm]
    · simp [ha]
  | hlist id items ih =>
    rw [passes_iff, visit_eq]
    simp only [expand]
    split_ifs with hrefused
    · simp only [Option.bind_none, reduceCtorEq, false_iff, PyObj.content, Plain, trail]
      exact fun h => not_passes_of_refused hrefused h.1
    · obtain ⟨hdepth, hid⟩ := not_or.mp hrefused
      have hitems := visitAll_eq_some (fun o ho => ih o ho (depth + 1)) (id :: visited) out
      have hpasses := passes_container (by omega) hid hitems
      simp only [PyObj.content, PyObj.contents_eq, Plain, plainItems_iff, trail,
        List.forall_mem_map]
      exact hpasses
  | hdict id entries ih =>
    rw [passes_iff, visit_eq]
    simp only [expand]
    split_ifs with hrefused hkeys
    · simp only [Option.bind_none, reduceCtorEq, false_iff, PyObj.content, Plain, trail]
      exact fun h => not_passes_of_refused hrefused h.1
    · obtain ⟨hdepth, hid⟩ := not_or.mp hrefused
      have hparts : ∀ o ∈ entries.map Prod.snd, ∀ visited out,
          visit L o (depth + 1) visited = some out ↔
            Passes L (depth + 1) visited o ∧ out = trail o ++ visited := by
        intro o ho
        obtain ⟨e, he, rfl⟩ := List.mem_map.mp ho
        exact ih e he (depth + 1)
      have hmembers := visitAll_eq_some hparts (id :: visited) out
      have hpasses := passes_container (by omega) hid hmembers
      have hplain : (∀ e ∈ entries, e.1.text?.isSome = true ∧
          Plain L (L.depth + 1 - depth - 1) e.2.content) ↔
          ∀ o ∈ entries.map Prod.snd, Plain L (L.depth + 1 - depth - 1) o.content := by
        rw [List.forall_mem_map]
        exact ⟨fun h e he => (h e he).2, fun h e he => ⟨List.all_eq_true.mp hkeys e he, h e he⟩⟩
      simp only [PyObj.content, PyObj.memberContents_eq, Plain, plainMembers_iff, trail,
        memberTrails_eq, List.forall_mem_map, hplain]
      simp only [visitAll, List.map_map, List.forall_mem_map] at hpasses
      exact hpasses
    · simp only [Option.bind_none, reduceCtorEq, false_iff, PyObj.content,
        PyObj.memberContents_eq, Plain, plainMembers_iff, List.forall_mem_map]
      intro h
      exact hkeys (List.all_eq_true.mpr fun e he => (h.1.1.2 e he).1)

/-- One payload passes after the containers met so far. -/
theorem payloadsOk_eq_some {o : PyObj} {visited out : List ℕ} :
    payloadsOk L [o] visited = some out ↔ Passes L 1 visited o ∧ out = trail o ++ visited :=
  visit_eq_some o 1 visited out

end Payload
end OpenChess
