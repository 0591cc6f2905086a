import Mathlib.Data.Finset.Card
import Mathlib.Logic.Relation
import Mathlib.Order.WellFounded
import Mathlib.Tactic

/-!
# Counted dependencies

Every node counts the dependencies that were not taken yet, and a node whose count comes
to zero is put on a stack. Taking nodes off the stack until it is empty takes all of them
exactly where no node depends on itself through others.
-/

namespace Kahn

variable {α : Type*} [DecidableEq α] (nodes : List α) (deps : α → List α)

def Depends (a b : α) : Prop := a ∈ nodes ∧ b ∈ deps a ∧ b ∈ nodes

def Cyclic : Prop := ∃ a, Relation.TransGen (Depends nodes deps) a a

def pending (taken : List α) (a : α) : Finset α :=
  (deps a).toFinset.filter fun b => b ∈ nodes ∧ b ∉ taken

/-- One node loses a dependency, and is pushed when it was the last. -/
def relax (node : α) (state : (α → ℤ) × List α) (a : α) : (α → ℤ) × List α :=
  if node ∈ deps a then
    let count := Function.update state.1 a (state.1 a - 1)
    if count a = 0 then (count, a :: state.2) else (count, state.2)
  else state

/-- The loop over the stack, with fuel: how many nodes were taken. -/
def drain : ℕ → (α → ℤ) → List α → ℕ → Option ℕ
  | _, _, [], seen => some seen
  | 0, _, _ :: _, _ => none
  | fuel + 1, count, node :: stack, seen =>
    let state := nodes.foldl (relax deps node) (count, stack)
    drain fuel state.1 state.2 (seen + 1)

def degree (a : α) : ℤ := (pending nodes deps [] a).card

/-- How many nodes the loop takes. -/
def visited : Option ℕ :=
  drain nodes deps nodes.length (degree nodes deps)
    (nodes.filter fun a => degree nodes deps a = 0).reverse 0

/-- Behind every element of the list stand the nodes it depends on. -/
def Ordered : List α → Prop
  | [] => True
  | a :: taken => (∀ b, Depends nodes deps a b → b ∈ taken) ∧ Ordered taken

/-- What holds before every turn: the nodes without a pending dependency are taken or on
the stack. -/
structure Progress (count : α → ℤ) (stack taken : List α) : Prop where
  nodup : (taken ++ stack).Nodup
  mem : ∀ a, a ∈ taken ++ stack ↔ a ∈ nodes ∧ pending nodes deps taken a = ∅
  count : ∀ a ∈ nodes, count a = (pending nodes deps taken a).card
  ordered : Ordered nodes deps taken

variable {nodes deps} {count : α → ℤ} {stack taken l : List α} {node a b : α}

/-! ### One turn -/

theorem mem_pending : b ∈ pending nodes deps taken a ↔ b ∈ deps a ∧ b ∈ nodes ∧ b ∉ taken := by
  simp [pending]

theorem pending_cons : pending nodes deps (node :: taken) a =
    (pending nodes deps taken a).erase node := by
  ext b
  simp only [mem_pending, Finset.mem_erase, List.mem_cons, not_or]
  tauto

theorem foldl_relax (hl : l.Nodup) (count : α → ℤ) (stack : List α) :
    l.foldl (relax deps node) (count, stack) =
      (fun a => if a ∈ l ∧ node ∈ deps a then count a - 1 else count a,
        (l.filter fun a => node ∈ deps a ∧ count a = 1).reverse ++ stack) := by
  induction l generalizing count stack with
  | nil => simp
  | cons a l ih =>
    obtain ⟨ha, hl⟩ := List.nodup_cons.mp hl
    have hcount : ∀ x, ∀ b ∈ l, Function.update count a x b = count b := by
      intro x b hb
      refine Function.update_of_ne (fun heq => ha ?_) _ _
      rwa [← heq]
    rw [List.foldl_cons, relax]
    by_cases hdep : node ∈ deps a
    · have hfilter : (l.filter fun b => node ∈ deps b ∧
          Function.update count a (count a - 1) b = 1) =
          l.filter fun b => node ∈ deps b ∧ count b = 1 :=
        List.filter_congr fun b hb => by rw [hcount _ b hb]
      have hlater : (fun b => if b ∈ l ∧ node ∈ deps b then
            Function.update count a (count a - 1) b - 1
          else Function.update count a (count a - 1) b) =
          fun b => if b ∈ a :: l ∧ node ∈ deps b then count b - 1 else count b := by
        funext b
        by_cases hb : b = a
        · subst hb
          simp [ha, hdep]
        · simp [hb]
      simp only [if_pos hdep, Function.update_self]
      by_cases hzero : count a - 1 = 0
      · have hone : count a = 1 := by omega
        rw [if_pos hzero, ih hl, hfilter, hlater]
        simp [hdep, hone]
      · have hone : count a ≠ 1 := by omega
        rw [if_neg hzero, ih hl, hfilter, hlater]
        simp [hone]
    · rw [if_neg hdep, ih hl]
      have hlater : (fun b => if b ∈ l ∧ node ∈ deps b then count b - 1 else count b) =
          fun b => if b ∈ a :: l ∧ node ∈ deps b then count b - 1 else count b := by
        funext b
        by_cases hb : b = a
        · subst hb
          simp [hdep]
        · simp [hb]
      rw [hlater]
      simp [hdep]

/-- A turn takes one node. -/
theorem Progress.turn (hnodes : nodes.Nodup) (h : Progress nodes deps count (node :: stack) taken) :
    Progress nodes deps (nodes.foldl (relax deps node) (count, stack)).1
      (nodes.foldl (relax deps node) (count, stack)).2 (node :: taken) := by
  obtain ⟨hnode, hready⟩ := (h.mem node).mp (by simp)
  have hfresh : node ∉ taken := fun hmem =>
    (List.nodup_append.mp h.nodup).2.2 node hmem node List.mem_cons_self rfl
  have hpending : ∀ a ∈ nodes, node ∈ pending nodes deps taken a ↔ node ∈ deps a := by
    intro a _
    rw [mem_pending]
    exact ⟨fun h => h.1, fun h => ⟨h, hnode, hfresh⟩⟩
  have hlast : ∀ a ∈ nodes, (node ∈ deps a ∧ count a = 1) ↔
      pending nodes deps taken a = {node} := by
    intro a ha
    rw [h.count a ha, Nat.cast_eq_one, Finset.card_eq_one, ← hpending a ha]
    constructor
    · rintro ⟨hmem, b, hb⟩
      rw [hb] at hmem ⊢
      rw [Finset.mem_singleton.mp hmem]
    · intro hb
      exact ⟨by rw [hb]; exact Finset.mem_singleton_self node, node, hb⟩
  have hnew : ∀ a, a ∈ nodes.filter (fun a => node ∈ deps a ∧ count a = 1) ↔
      a ∈ nodes ∧ pending nodes deps taken a = {node} := by
    intro a
    rw [List.mem_filter, decide_eq_true_eq]
    exact and_congr_right fun ha => hlast a ha
  rw [foldl_relax hnodes]
  constructor
  · have hperm : (node :: taken ++ ((nodes.filter fun a => node ∈ deps a ∧ count a = 1).reverse ++
        stack)).Perm ((nodes.filter fun a => node ∈ deps a ∧ count a = 1) ++
          (taken ++ node :: stack)) := by
      refine (List.perm_append_comm_assoc _ _ _).trans (((List.reverse_perm _).append ?_))
      exact List.perm_middle.symm
    refine hperm.nodup_iff.mpr (List.nodup_append.mpr ⟨hnodes.filter _, h.nodup, ?_⟩)
    rintro a hin b hold rfl
    have hempty := ((h.mem a).mp hold).2
    rw [((hnew a).mp hin).2] at hempty
    exact Finset.singleton_ne_empty node hempty
  · intro a
    have hold := h.mem a
    rw [pending_cons, Finset.erase_eq_empty_iff]
    simp only [List.mem_append, List.mem_cons, List.mem_reverse, hnew] at hold ⊢
    tauto
  · intro a ha
    simp only [ha, true_and, pending_cons]
    split_ifs with hdep
    · have hmem := (hpending a ha).mpr hdep
      have hpos := Finset.card_pos.mpr ⟨node, hmem⟩
      rw [h.count a ha, Finset.card_erase_of_mem hmem]
      omega
    · rw [h.count a ha, Finset.erase_eq_of_notMem fun hmem => hdep ((hpending a ha).mp hmem)]
  · refine ⟨fun b hb => ?_, h.ordered⟩
    by_contra hout
    have hmem : b ∈ pending nodes deps taken node := mem_pending.mpr ⟨hb.2.1, hb.2.2, hout⟩
    rw [hready] at hmem
    exact absurd hmem (Finset.notMem_empty b)

/-! ### The whole loop -/

theorem Progress.length_le (h : Progress nodes deps count stack taken) :
    (taken ++ stack).length ≤ nodes.length :=
  (h.nodup.subperm fun a ha => ((h.mem a).mp ha).1).length_le

/-- With enough fuel the stack is emptied. -/
theorem Progress.drain (hnodes : nodes.Nodup) {fuel : ℕ}
    (h : Progress nodes deps count stack taken) (hfuel : nodes.length ≤ fuel + taken.length) :
    ∃ count' taken', Progress nodes deps count' [] taken' ∧
      Kahn.drain nodes deps fuel count stack taken.length = some taken'.length := by
  induction fuel generalizing count stack taken with
  | zero =>
    cases stack with
    | nil => exact ⟨count, taken, h, by rw [Kahn.drain]⟩
    | cons node stack =>
      have hle := h.length_le
      rw [List.length_append, List.length_cons] at hle
      omega
  | succ fuel ih =>
    cases stack with
    | nil => exact ⟨count, taken, h, by rw [Kahn.drain]⟩
    | cons node stack =>
      have hfuel' : nodes.length ≤ fuel + (node :: taken).length := by
        rw [List.length_cons]
        omega
      obtain ⟨count', taken', hprogress, hdrain⟩ := ih (h.turn hnodes) hfuel'
      exact ⟨count', taken', hprogress, hdrain⟩

theorem progress_start (hnodes : nodes.Nodup) : Progress nodes deps (degree nodes deps)
    (nodes.filter fun a => degree nodes deps a = 0).reverse [] := by
  constructor
  · rw [List.nil_append, List.nodup_reverse]
    exact hnodes.filter _
  · intro a
    rw [List.nil_append, List.mem_reverse, List.mem_filter, decide_eq_true_eq, degree,
      Int.natCast_eq_zero, Finset.card_eq_zero]
  · exact fun a _ => rfl
  · trivial

/-- The loop ends, with an order of nodes in which nothing is left to take. -/
theorem exists_visited (deps : α → List α) (hnodes : nodes.Nodup) : ∃ count taken,
    Progress nodes deps count [] taken ∧ visited nodes deps = some taken.length :=
  (progress_start hnodes).drain hnodes (Nat.le_add_right _ _)

/-! ### Orders and cycles -/

theorem Ordered.idxOf_lt (h : Ordered nodes deps taken) (hnodup : taken.Nodup) (ha : a ∈ taken)
    (hdep : Depends nodes deps a b) : b ∈ taken ∧ taken.idxOf a < taken.idxOf b := by
  induction taken with
  | nil => cases ha
  | cons node taken ih =>
    obtain ⟨hbehind, hordered⟩ := h
    obtain ⟨hfresh, hnodup⟩ := List.nodup_cons.mp hnodup
    have hshift : b ∈ taken → (node :: taken).idxOf b = taken.idxOf b + 1 := fun hb =>
      List.idxOf_cons_ne taken fun heq => hfresh (heq ▸ hb)
    by_cases heq : a = node
    · subst heq
      have hb := hbehind b hdep
      refine ⟨List.mem_cons_of_mem a hb, ?_⟩
      rw [List.idxOf_cons_self, hshift hb]
      exact Nat.succ_pos _
    · have ha := (List.mem_cons.mp ha).resolve_left heq
      obtain ⟨hb, hlt⟩ := ih hordered hnodup ha
      refine ⟨List.mem_cons_of_mem node hb, ?_⟩
      rw [List.idxOf_cons_ne taken (Ne.symm heq), hshift hb]
      omega

theorem Ordered.not_cyclic (h : Ordered nodes deps taken) (hnodup : taken.Nodup)
    (hall : ∀ a ∈ nodes, a ∈ taken) : ¬ Cyclic nodes deps := by
  have hlt : ∀ a b, Relation.TransGen (Depends nodes deps) a b →
      taken.idxOf a < taken.idxOf b := by
    intro a b hpath
    induction hpath with
    | single hdep => exact (h.idxOf_lt hnodup (hall a hdep.1) hdep).2
    | tail _ hdep ih => exact ih.trans (h.idxOf_lt hnodup (hall _ hdep.1) hdep).2
  rintro ⟨a, hcycle⟩
  exact lt_irrefl _ (hlt a a hcycle)

variable (nodes deps) in
def Precedes (x y : {x // x ∈ nodes.toFinset}) : Prop :=
  Relation.TransGen (Depends nodes deps) y.1 x.1

theorem wellFounded_precedes (h : ¬ Cyclic nodes deps) : WellFounded (Precedes nodes deps) := by
  have htrans : IsTrans _ (Precedes nodes deps) := ⟨fun _ _ _ hxy hyz => hyz.trans hxy⟩
  have hirrefl : Std.Irrefl (Precedes nodes deps) := ⟨fun x hx => h ⟨x.1, hx⟩⟩
  exact Finite.wellFounded_of_trans_of_irrefl _

/-- Where every node that was not taken waits for another such node, some of them depend on
themselves. -/
theorem cyclic_of_waiting (hmem : a ∈ nodes) (hout : a ∉ taken)
    (hwaiting : ∀ b ∈ nodes, b ∉ taken → (pending nodes deps taken b).Nonempty) :
    Cyclic nodes deps := by
  by_contra hacyclic
  obtain ⟨least, hleast, hmin⟩ := (wellFounded_precedes hacyclic).has_min {x | x.1 ∉ taken}
    ⟨⟨a, List.mem_toFinset.mpr hmem⟩, hout⟩
  have hin : least.1 ∈ nodes := List.mem_toFinset.mp least.2
  obtain ⟨b, hb⟩ := hwaiting least.1 hin hleast
  obtain ⟨hdep, hnode, hfresh⟩ := mem_pending.mp hb
  exact hmin ⟨b, List.mem_toFinset.mpr hnode⟩ hfresh (Relation.TransGen.single ⟨hin, hdep, hnode⟩)

/-- All nodes are taken exactly where none depends on itself. -/
theorem visited_eq_iff (deps : α → List α) (hnodes : nodes.Nodup) :
    visited nodes deps = some nodes.length ↔ ¬ Cyclic nodes deps := by
  obtain ⟨count, taken, hprogress, hvisited⟩ := exists_visited deps hnodes
  have hnodup : taken.Nodup := by simpa using hprogress.nodup
  have hmem : ∀ a, a ∈ taken ↔ a ∈ nodes ∧ pending nodes deps taken a = ∅ := by
    simpa using hprogress.mem
  rw [hvisited, Option.some.injEq]
  constructor
  · intro hlength
    have hperm : taken.Perm nodes :=
      (hnodup.subperm fun a ha => ((hmem a).mp ha).1).perm_of_length_le (ge_of_eq hlength)
    exact hprogress.ordered.not_cyclic hnodup fun a ha => hperm.mem_iff.mpr ha
  · intro hacyclic
    have hall : ∀ a ∈ nodes, a ∈ taken := by
      intro a ha
      by_contra hout
      refine hacyclic (cyclic_of_waiting ha hout fun b hb hfresh => ?_)
      exact Finset.nonempty_iff_ne_empty.mpr fun hempty => hfresh ((hmem b).mpr ⟨hb, hempty⟩)
    have hperm : taken.Perm nodes :=
      (List.perm_ext_iff_of_nodup hnodup hnodes).mpr fun a =>
        ⟨fun ha => ((hmem a).mp ha).1, hall a⟩
    exact hperm.length_eq

end Kahn
