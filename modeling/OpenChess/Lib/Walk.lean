import Mathlib.Logic.Function.Iterate
import Mathlib.Tactic

/-!
# Walks with an explicit stack

A walk pops a node, looks at it, and pushes what is below it. Where everything below a
node is smaller than the node, the walk ends, and it visits what is below a node before
the rest of the stack.
-/

namespace StackWalk

variable {N S : Type*} (expand : N → S → Option (List N × S)) (size : N → ℕ)

/-- The loop, with fuel. The last node pushed is the first of the list. -/
def loop : ℕ → List N → S → Option S
  | _, [], s => some s
  | 0, _ :: _, _ => none
  | fuel + 1, n :: rest, s =>
    match expand n s with
    | none => none
    | some (nodes, s') => loop fuel (nodes ++ rest) s'

def total (stack : List N) : ℕ := (stack.map size).sum

def walk (stack : List N) (s : S) : Option S := loop expand (total size stack) stack s

def Shrinks : Prop :=
  ∀ n s nodes s', expand n s = some (nodes, s') → total size nodes < size n

variable {expand size} {stack rest : List N} {n : N} {s : S} {fuel : ℕ}

theorem total_append (stack rest : List N) :
    total size (stack ++ rest) = total size stack + total size rest := by
  simp [total]

theorem total_cons (n : N) (rest : List N) : total size (n :: rest) = size n + total size rest := by
  simp [total]

theorem total_reverse (stack : List N) : total size stack.reverse = (stack.map size).sum := by
  rw [total, List.map_reverse, List.sum_reverse]

theorem loop_eq_loop (h : Shrinks expand size) {fuel' : ℕ} (hfuel : total size stack ≤ fuel)
    (hfuel' : total size stack ≤ fuel') :
    loop expand fuel stack s = loop expand fuel' stack s := by
  induction fuel generalizing fuel' stack s with
  | zero =>
    cases stack with
    | nil => cases fuel' <;> rfl
    | cons n rest =>
      rw [total_cons] at hfuel
      cases hn : expand n s with
      | none => cases fuel' <;> simp [loop, hn]
      | some p =>
        have hlt := h n s p.1 p.2 hn
        omega
  | succ fuel ih =>
    cases stack with
    | nil => cases fuel' <;> rfl
    | cons n rest =>
      rw [total_cons] at hfuel hfuel'
      cases hn : expand n s with
      | none => cases fuel' <;> simp [loop, hn]
      | some p =>
        have hlt := h n s p.1 p.2 hn
        have htotal : total size (p.1 ++ rest) = total size p.1 + total size rest :=
          total_append p.1 rest
        cases fuel' with
        | zero => omega
        | succ fuel' =>
          simp only [loop, hn]
          exact ih (by omega) (by omega)

theorem loop_eq_walk (h : Shrinks expand size) (hfuel : total size stack ≤ fuel) :
    loop expand fuel stack s = walk expand size stack s :=
  loop_eq_loop h hfuel (le_refl _)

theorem walk_nil (s : S) : walk expand size [] s = some s := rfl

theorem walk_cons (h : Shrinks expand size) (n : N) (rest : List N) (s : S) :
    walk expand size (n :: rest) s =
      (expand n s).bind fun p => walk expand size (p.1 ++ rest) p.2 := by
  have hfuel : walk expand size (n :: rest) s =
      loop expand (total size (n :: rest) + 1) (n :: rest) s :=
    (loop_eq_walk h (Nat.le_succ _)).symm
  rw [hfuel, loop]
  cases hn : expand n s with
  | none => rfl
  | some p =>
    obtain ⟨nodes, s'⟩ := p
    have hlt := h n s nodes s' hn
    have htotal : total size (nodes ++ rest) ≤ total size (n :: rest) := by
      rw [total_append, total_cons]
      omega
    exact loop_eq_walk h htotal

/-- A walk that ends early does so at a node that was met. -/
theorem exists_of_loop (h : Shrinks expand size) {P : N → Prop}
    (hstep : ∀ n s nodes s', P n → expand n s = some (nodes, s') → ∀ m ∈ nodes, P m)
    (hfuel : total size stack ≤ fuel) (hstack : ∀ n ∈ stack, P n)
    (hnone : loop expand fuel stack s = none) : ∃ n s', P n ∧ expand n s' = none := by
  induction fuel generalizing stack s with
  | zero =>
    cases stack with
    | nil => cases hnone
    | cons n rest =>
      rw [total_cons] at hfuel
      cases hn : expand n s with
      | none => exact ⟨n, s, hstack n List.mem_cons_self, hn⟩
      | some p =>
        have hlt := h n s p.1 p.2 hn
        omega
  | succ fuel ih =>
    cases stack with
    | nil => cases hnone
    | cons n rest =>
      obtain ⟨hP, hrest⟩ := List.forall_mem_cons.mp hstack
      rw [total_cons] at hfuel
      cases hn : expand n s with
      | none => exact ⟨n, s, hP, hn⟩
      | some p =>
        have hlt := h n s p.1 p.2 hn
        have hsmaller : total size (p.1 ++ rest) ≤ fuel := by
          rw [total_append]
          omega
        simp only [loop, hn] at hnone
        refine ih hsmaller (fun m hm => ?_) hnone
        rcases List.mem_append.mp hm with hm | hm
        · exact hstep n s p.1 p.2 hP hn m hm
        · exact hrest m hm

/-- The upper part of a stack is walked before the rest. -/
theorem walk_append (h : Shrinks expand size) (stack rest : List N) (s : S) :
    walk expand size (stack ++ rest) s =
      (walk expand size stack s).bind (walk expand size rest) := by
  have hinduct : ∀ m stack s, total size stack ≤ m → walk expand size (stack ++ rest) s =
      (walk expand size stack s).bind (walk expand size rest) := by
    intro m
    induction m using Nat.strong_induction_on with
    | _ m ih =>
      intro stack s hm
      cases stack with
      | nil => rfl
      | cons n stack =>
        rw [List.cons_append, walk_cons h, walk_cons h]
        cases hn : expand n s with
        | none => rfl
        | some p =>
          obtain ⟨nodes, s'⟩ := p
          have hlt := h n s nodes s' hn
          have htotal : total size (nodes ++ stack) < m := by
            rw [total_cons] at hm
            rw [total_append]
            omega
          simp only [Option.bind_some]
          rw [← List.append_assoc]
          exact ih _ htotal _ _ (le_refl _)
  exact hinduct _ stack s (le_refl _)

end StackWalk

/-!
## Bounded walks

A cursor advances until a probe leaves the region or the first obstacle is
reached; the obstacle itself is the last value visited. The fuel bounds the
number of iterations, and membership is characterized by the iterate that
reaches a value, so that a caller can discharge the bound from its geometry.
-/

namespace BoundedWalk

variable {α β : Type*}

/-- The values visited by `while probe a: visit; stop at an obstacle; advance`. -/
def walk (probe : α → Option β) (stop : β → Bool) (next : α → α) : ℕ → α → List β
  | 0, _ => []
  | fuel + 1, a =>
    match probe a with
    | none => []
    | some b => if stop b then [b] else b :: walk probe stop next fuel (next a)

/-- The probe succeeds without an obstacle at each of the first `n` cursors. -/
def Free (probe : α → Option β) (stop : β → Bool) (next : α → α) (n : ℕ) (a : α) : Prop :=
  ∀ m < n, ∃ c, probe (next^[m] a) = some c ∧ stop c = false

theorem free_succ {probe : α → Option β} {stop : β → Bool} {next : α → α} {n : ℕ} {a : α} :
    Free probe stop next (n + 1) a ↔
      (∃ c, probe a = some c ∧ stop c = false) ∧ Free probe stop next n (next a) := by
  constructor
  · intro h
    refine ⟨by simpa using h 0 (Nat.succ_pos n), fun m hm => ?_⟩
    simpa using h (m + 1) (Nat.succ_lt_succ hm)
  · rintro ⟨h0, hrest⟩ m hm
    cases m with
    | zero => simpa using h0
    | succ m => simpa using hrest m (Nat.lt_of_succ_lt_succ hm)

/-- A value is visited exactly when some iterate within the fuel reaches it
and every earlier cursor was free. -/
theorem mem_walk {probe : α → Option β} {stop : β → Bool} {next : α → α} {b : β} :
    ∀ {fuel : ℕ} {a : α}, b ∈ walk probe stop next fuel a ↔
      ∃ n < fuel, probe (next^[n] a) = some b ∧ Free probe stop next n a := by
  intro fuel
  induction fuel with
  | zero => intro a; simp [walk]
  | succ fuel ih =>
    intro a
    constructor
    · intro hb
      rw [walk] at hb
      cases hp : probe a with
      | none => simp [hp] at hb
      | some c =>
        by_cases hs : stop c = true
        · have hbc : b = c := by simpa [hp, hs] using hb
          exact ⟨0, Nat.succ_pos fuel, by simpa [hbc] using hp, fun m hm => absurd hm (by omega)⟩
        · have hs' : stop c = false := by simpa using hs
          simp only [hp, hs', Bool.false_eq_true, ↓reduceIte, List.mem_cons] at hb
          rcases hb with rfl | hb
          · exact ⟨0, Nat.succ_pos fuel, by simpa using hp, fun m hm => absurd hm (by omega)⟩
          · obtain ⟨n, hn, hprobe, hfree⟩ := ih.mp hb
            exact ⟨n + 1, Nat.succ_lt_succ hn, by simpa using hprobe,
              free_succ.mpr ⟨⟨c, hp, hs'⟩, hfree⟩⟩
    · rintro ⟨n, hn, hprobe, hfree⟩
      rw [walk]
      cases n with
      | zero =>
        have hp : probe a = some b := by simpa using hprobe
        by_cases hs : stop b = true <;> simp [hp, hs]
      | succ n =>
        obtain ⟨⟨c, hp, hs⟩, hfree⟩ := free_succ.mp hfree
        have hmem := ih.mpr ⟨n, Nat.lt_of_succ_lt_succ hn, by simpa using hprobe, hfree⟩
        simp [hp, hs, hmem]

/-- A walk that never returns to a value lists it once. -/
theorem nodup_walk {probe : α → Option β} {stop : β → Bool} {next : α → α} {fuel : ℕ} {a : α}
    (h : ∀ n m b, probe (next^[n] a) = some b → probe (next^[m] a) = some b → n = m) :
    (walk probe stop next fuel a).Nodup := by
  induction fuel generalizing a with
  | zero => exact List.nodup_nil
  | succ fuel ih =>
    rw [walk]
    cases hp : probe a with
    | none => exact List.nodup_nil
    | some b =>
      by_cases hs : stop b = true
      · simp [hs]
      · simp only [hs, Bool.false_eq_true, if_false]
        refine List.nodup_cons.mpr ⟨fun hmem => ?_, ih fun n m c hn hm => ?_⟩
        · obtain ⟨n, -, hn, -⟩ := mem_walk.mp hmem
          exact absurd (h 0 (n + 1) b hp hn) (by omega)
        · exact Nat.succ.inj (h (n + 1) (m + 1) c hn hm)

/-- Probing for an attribute visits the attributes of the visited values. -/
theorem walk_map {γ : Type*} (g : β → γ) (probe : α → Option β) (stop : γ → Bool)
    (next : α → α) : ∀ fuel a, walk (fun x => (probe x).map g) stop next fuel a =
      (walk probe (fun b => stop (g b)) next fuel a).map g := by
  intro fuel
  induction fuel with
  | zero => intro a; rfl
  | succ fuel ih =>
    intro a
    cases hp : probe a with
    | none => simp [walk, hp]
    | some b => by_cases hs : stop (g b) = true <;> simp [walk, hp, hs, ih]

/-- Walking in other coordinates, when the change of coordinates carries one
advance to the other. -/
theorem walk_comap {δ : Type*} (g : δ → α) {probe : α → Option β} {stop : β → Bool}
    {next : α → α} {next' : δ → δ} (hnext : ∀ d, next (g d) = g (next' d)) : ∀ fuel d,
      walk probe stop next fuel (g d) = walk (fun d => probe (g d)) stop next' fuel d := by
  intro fuel
  induction fuel with
  | zero => intro d; rfl
  | succ fuel ih =>
    intro d
    simp only [walk, hnext, ih]

end BoundedWalk
