import Mathlib.Tactic

/-!
# Heaps of containers

Lists and dictionaries live at addresses and hold references, so several references
may name one container, and a container may hold itself. A reference is read as a
tree of values down to a depth. Containers that were captured are written back over
whatever another party made of them in between.
-/

namespace OpenChess
namespace ObjectHeap

/-- A value without parts, or the address of a container. -/
inductive Ref (A : Type*)
  | atom (a : A)
  | ptr (p : ℕ)

inductive Cell (K A : Type*)
  | list (items : List (Ref A))
  | dict (entries : List (K × Ref A))

/-- The containers, of which those below `next` exist. -/
structure Heap (K A : Type*) where
  cells : ℕ → Cell K A
  next : ℕ

variable {K A V : Type*}

def Cell.children : Cell K A → List (Ref A)
  | .list items => items
  | .dict entries => entries.map Prod.snd

namespace Heap

variable {h h' : Heap K A} {p q : ℕ} {r : Ref A} {c : Cell K A} {addrs : List ℕ}
  {P Q : ℕ → Prop} {d : ℕ}

/-! ### Writing -/

def set (h : Heap K A) (p : ℕ) (c : Cell K A) : Heap K A :=
  ⟨Function.update h.cells p c, h.next⟩

/-- The heap with a new container, at the old `next`. -/
def alloc (h : Heap K A) (c : Cell K A) : Heap K A := ⟨Function.update h.cells h.next c, h.next + 1⟩

@[simp] theorem cells_set_self : (h.set p c).cells p = c := Function.update_self _ _ _

theorem cells_set_of_ne (hp : q ≠ p) : (h.set p c).cells q = h.cells q :=
  Function.update_of_ne hp _ _

@[simp] theorem next_set : (h.set p c).next = h.next := rfl

@[simp] theorem cells_alloc_self : (h.alloc c).cells h.next = c := Function.update_self _ _ _

theorem cells_alloc_of_lt (hp : p < h.next) : (h.alloc c).cells p = h.cells p :=
  Function.update_of_ne hp.ne _ _

@[simp] theorem next_alloc : (h.alloc c).next = h.next + 1 := rfl

/-! ### Capturing and restoring -/

def capture (h : Heap K A) (addrs : List ℕ) : List (ℕ × Cell K A) :=
  addrs.map fun p => (p, h.cells p)

def restore (saved : List (ℕ × Cell K A)) (h : Heap K A) : Heap K A :=
  saved.foldl (fun h e => h.set e.1 e.2) h

@[simp] theorem next_restore (saved : List (ℕ × Cell K A)) (h : Heap K A) :
    (restore saved h).next = h.next := by
  induction saved generalizing h with
  | nil => rfl
  | cons e saved ih => exact ih _

/-- What was captured is back, wherever it was captured from, and the rest is left. -/
theorem cells_restore (h h' : Heap K A) (addrs : List ℕ) (p : ℕ) :
    (restore (h.capture addrs) h').cells p = if p ∈ addrs then h.cells p else h'.cells p := by
  induction addrs generalizing h' with
  | nil => simp [capture, restore]
  | cons q addrs ih =>
    have hstep : restore (h.capture (q :: addrs)) h' =
        restore (h.capture addrs) (h'.set q (h.cells q)) := rfl
    rw [hstep, ih]
    by_cases hp : p ∈ addrs
    · rw [if_pos hp, if_pos (List.mem_cons_of_mem _ hp)]
    · rw [if_neg hp]
      by_cases hq : p = q
      · subst hq
        rw [cells_set_self, if_pos List.mem_cons_self]
      · rw [cells_set_of_ne hq, if_neg (by simp [hp, hq])]

/-! ### Reading -/

/-- How a tree of values is built. A container out of depth reads as `cut`. -/
structure Reading (K A V : Type*) where
  atom : A → V
  list : List V → V
  dict : List (K × V) → V
  cut : V

/-- The value of a reference, down to a depth of containers. -/
def view (R : Reading K A V) (h : Heap K A) : ℕ → Ref A → V
  | _, .atom a => R.atom a
  | 0, .ptr _ => R.cut
  | d + 1, .ptr p =>
    match h.cells p with
    | .list items => R.list (items.map (view R h d))
    | .dict entries => R.dict (entries.map fun e => (e.1, view R h d e.2))

def member [BEq K] (h : Heap K A) (p : ℕ) (k : K) : Option (Ref A) :=
  match h.cells p with
  | .list _ => none
  | .dict entries => entries.lookup k

/-- The containers on the way from a reference along these keys. -/
def path [BEq K] (h : Heap K A) : List K → Ref A → List ℕ
  | _, .atom _ => []
  | [], .ptr p => [p]
  | k :: ks, .ptr p => p :: ((h.member p k).map (path h ks)).getD []

/-- The containers in a reference, down to a depth. -/
def reach (h : Heap K A) : ℕ → Ref A → List ℕ
  | _, .atom _ => []
  | 0, .ptr _ => []
  | d + 1, .ptr p => p :: (h.cells p).children.flatMap (reach h d)

/-! ### Trees -/

/-- The reference is a tree, and all its containers have the property. -/
inductive Within (h : Heap K A) (P : ℕ → Prop) : Ref A → Prop
  | atom (a : A) : Within h P (.atom a)
  | ptr (p : ℕ) (hp : P p) (hchildren : ∀ c ∈ (h.cells p).children, Within h P c) :
      Within h P (.ptr p)

theorem Within.mono (hr : Within h P r) (hPQ : ∀ p, P p → Q p) : Within h Q r := by
  induction hr with
  | atom a => exact .atom a
  | ptr p hp _ ih => exact .ptr p (hPQ p hp) ih

theorem Within.and (hP : Within h P r) (hQ : Within h Q r) : Within h (fun p => P p ∧ Q p) r := by
  induction hP with
  | atom a => exact .atom a
  | ptr p hp _ ih =>
    cases hQ with
    | ptr _ hq hchildren => exact .ptr p ⟨hp, hq⟩ fun c hc => ih c hc (hchildren c hc)

theorem Within.child {items : List (Ref A)} (hr : Within h P (.ptr p))
    (hcell : h.cells p = .list items) :
    ∀ c ∈ items, Within h P c := by
  cases hr with
  | ptr _ _ hchildren =>
    rw [hcell] at hchildren
    exact hchildren

/-- A tree is unchanged where its containers are. -/
theorem Within.frame (hr : Within h P r) (heq : ∀ p, P p → h'.cells p = h.cells p) :
    Within h' P r := by
  induction hr with
  | atom a => exact .atom a
  | ptr p hp _ ih => exact .ptr p hp (by rwa [heq p hp])

/-- A tree has the same value where its containers are the same. -/
theorem Within.view_eq {R : Reading K A V} (hr : Within h P r)
    (heq : ∀ p, P p → h'.cells p = h.cells p) (d : ℕ) : view R h' d r = view R h d r := by
  induction hr generalizing d with
  | atom a => cases d <;> rfl
  | ptr p hp _ ih =>
    cases d with
    | zero => rfl
    | succ d =>
      rw [view, view, heq p hp]
      cases hcell : h.cells p with
      | list items =>
        have hitems : items.map (view R h' d) = items.map (view R h d) :=
          List.map_congr_left fun c hc => ih c (by rwa [hcell]) d
        simp only [hitems]
      | dict entries =>
        have hentries : (entries.map fun e => (e.1, view R h' d e.2)) =
            entries.map fun e => (e.1, view R h d e.2) :=
          List.map_congr_left fun e he => by
            rw [ih e.2 (by rw [hcell]; exact List.mem_map_of_mem he) d]
        simp only [hentries]

/-! ### Live references -/

/-- The reference names an existing container, if it names one. -/
def Live (h : Heap K A) : Ref A → Prop
  | .atom _ => True
  | .ptr p => p < h.next

def Closed (h : Heap K A) : Prop := ∀ p < h.next, ∀ c ∈ (h.cells p).children, h.Live c

theorem Within.live (hclosed : h.Closed) (hr : Within h P r) (hlive : h.Live r) :
    Within h (fun p => P p ∧ p < h.next) r := by
  induction hr with
  | atom a => exact .atom a
  | ptr p hp _ ih => exact .ptr p ⟨hp, hlive⟩ fun c hc => ih c hc (hclosed p hlive c hc)

theorem Live.mono (hr : h.Live r) (hnext : h.next ≤ h'.next) : h'.Live r := by
  cases r with
  | atom a => trivial
  | ptr p => exact lt_of_lt_of_le hr hnext

/-- What existed has its old value wherever the old containers are unchanged. -/
theorem Closed.view_eq {R : Reading K A V} (hclosed : h.Closed) (hlive : h.Live r)
    (heq : ∀ p < h.next, h'.cells p = h.cells p) (d : ℕ) : view R h' d r = view R h d r := by
  induction d generalizing r with
  | zero => cases r <;> rfl
  | succ d ih =>
    cases r with
    | atom a => rfl
    | ptr p =>
      have hchildren := hclosed p hlive
      rw [view, view, heq p hlive]
      cases hcell : h.cells p with
      | list items =>
        rw [hcell] at hchildren
        exact congrArg R.list (List.map_congr_left fun c hc => ih (hchildren c hc))
      | dict entries =>
        rw [hcell] at hchildren
        refine congrArg R.dict (List.map_congr_left fun e he => ?_)
        rw [ih (hchildren e.2 (List.mem_map_of_mem he))]

/-- A new container may hold what exists. -/
theorem Closed.alloc (hclosed : h.Closed) (hc : ∀ r ∈ c.children, h.Live r) : (h.alloc c).Closed := by
  intro p hp r hr
  have hnext : h.next ≤ (h.alloc c).next := Nat.le_succ _
  rcases Nat.lt_succ_iff_lt_or_eq.mp hp with hlt | rfl
  · rw [cells_alloc_of_lt hlt] at hr
    exact (hclosed p hlt r hr).mono hnext
  · rw [cells_alloc_self] at hr
    exact (hc r hr).mono hnext

end Heap
end ObjectHeap
end OpenChess
