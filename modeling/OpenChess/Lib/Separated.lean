import Mathlib.Tactic

/-!
# Separator-delimited texts

Splitting at a separator is inverted by joining, on the texts whose parts do
not contain the separator; reading a list part by part succeeds exactly when
every part does.
-/

namespace Separated

variable {α β : Type*}

/-- Fields framed by their lengths, after a tag. -/
def framed (tag : List Char) (fields : List (List Char)) : List Char :=
  ['|'].intercalate (tag :: fields.map fun t => Nat.toDigits 10 t.length ++ ':' :: t)

theorem toDigits_injective : Function.Injective (Nat.toDigits 10) := by
  intro m n h
  rw [← Nat.ofDigitChars_ten_toDigits (n := m), h, Nat.ofDigitChars_ten_toDigits]

theorem isDigit_of_mem_toDigits {c : Char} {n : ℕ} (h : c ∈ Nat.toDigits 10 n) :
    c.isDigit = true := Nat.isDigit_of_mem_toDigits (by decide) (by decide) h

theorem notMem_toDigits {c : Char} (h : c.isDigit = false) (n : ℕ) : c ∉ Nat.toDigits 10 n := by
  intro hc
  rw [isDigit_of_mem_toDigits hc] at h
  cases h

/-- A part without the separator ends at the first separator. -/
theorem append_cons_inj {x : α} {l l' t t' : List α} (hl : x ∉ l) (hl' : x ∉ l')
    (h : l ++ x :: t = l' ++ x :: t') : l = l' ∧ t = t' := by
  induction l generalizing l' with
  | nil =>
    cases l' with
    | nil => exact ⟨rfl, List.tail_eq_of_cons_eq h⟩
    | cons a l' =>
      obtain ⟨rfl, -⟩ := List.cons.inj h
      exact absurd List.mem_cons_self hl'
  | cons a l ih =>
    cases l' with
    | nil =>
      obtain ⟨rfl, -⟩ := List.cons.inj h
      exact absurd List.mem_cons_self hl
    | cons b l' =>
      obtain ⟨rfl, hrest⟩ := List.cons.inj h
      obtain ⟨rfl, ht⟩ := ih (fun hm => hl (List.mem_cons_of_mem _ hm))
        (fun hm => hl' (List.mem_cons_of_mem _ hm)) hrest
      exact ⟨rfl, ht⟩

theorem framed_eq (tag : List Char) (fields : List (List Char)) : framed tag fields =
    tag ++ fields.flatMap fun t => '|' :: (Nat.toDigits 10 t.length ++ ':' :: t) := by
  unfold framed
  induction fields generalizing tag with
  | nil => simp
  | cons t fields ih =>
    rw [List.map_cons, List.intercalate_cons_cons, ih]
    simp

/-- Framed fields can be read back: the length of each says where the next begins. -/
theorem framed_injective (tag : List Char) : Function.Injective (framed tag) := by
  intro fields fields' h
  rw [framed_eq, framed_eq] at h
  replace h := List.append_cancel_left h
  have hdigits : ∀ n : ℕ, ':' ∉ Nat.toDigits 10 n := notMem_toDigits (by decide)
  induction fields generalizing fields' with
  | nil =>
    cases fields' with
    | nil => rfl
    | cons u fields' => simp at h
  | cons t fields ih =>
    cases fields' with
    | nil => simp at h
    | cons u fields' =>
      simp only [List.flatMap_cons, List.cons_append, List.append_assoc, List.cons.injEq,
        true_and] at h
      obtain ⟨hlength, h⟩ := append_cons_inj (hdigits _) (hdigits _) h
      obtain ⟨rfl, hrest⟩ := List.append_inj h (toDigits_injective hlength)
      rw [ih hrest]

theorem not_mem_of_mem_splitOn [DecidableEq α] (x : α) (xs : List α) :
    ∀ l ∈ xs.splitOn x, x ∉ l := by
  induction xs with
  | nil => simp
  | cons a xs ih =>
    rw [List.splitOn_cons_eq_if_modifyHead]
    split_ifs with ha
    · simpa using ih
    · have hne : a ≠ x := by simpa using ha
      cases hsplit : xs.splitOn x with
      | nil => simp
      | cons l ls =>
        rw [hsplit] at ih
        simp only [List.modifyHead_cons, List.mem_cons, forall_eq_or_imp] at ih ⊢
        exact ⟨by simpa [hne.symm] using ih.1, ih.2⟩

/-- The parts of a text are the only separator-free parts that join to it. -/
theorem splitOn_eq_iff [DecidableEq α] {x : α} {xs : List α} {ls : List (List α)} :
    xs.splitOn x = ls ↔ ls ≠ [] ∧ (∀ l ∈ ls, x ∉ l) ∧ [x].intercalate ls = xs := by
  constructor
  · rintro rfl
    exact ⟨List.splitOn_ne_nil x xs, not_mem_of_mem_splitOn x xs, List.intercalate_splitOn x⟩
  · rintro ⟨hne, hx, rfl⟩
    exact List.splitOn_intercalate x hx hne

/-- A text of terminated lines falls back into its lines. -/
theorem splitOn_terminated [DecidableEq α] {x : α} {ls : List (List α)} (h : ∀ l ∈ ls, x ∉ l) :
    (ls.flatMap fun l => l ++ [x]).splitOn x = ls ++ [[]] := by
  have hjoin : (ls.flatMap fun l => l ++ [x]) = [x].intercalate (ls ++ [[]]) := by
    clear h
    induction ls with
    | nil => rfl
    | cons l ls ih =>
      rw [List.flatMap_cons, ih]
      cases ls with
      | nil => simp
      | cons l' ls =>
        simp only [List.cons_append]
        rw [List.intercalate_cons_cons]
  rw [hjoin]
  refine List.splitOn_intercalate x (fun l hl => ?_) (by simp)
  rcases List.mem_append.mp hl with hl | hl
  · exact h l hl
  · rw [List.mem_singleton.mp hl]
    exact List.not_mem_nil

theorem mem_intercalate {x c : α} {ls : List (List α)} (h : c ∈ [x].intercalate ls) :
    c = x ∨ ∃ l ∈ ls, c ∈ l := by
  induction ls with
  | nil => simp at h
  | cons l ls ih =>
    cases ls with
    | nil => exact .inr ⟨l, List.mem_cons_self, by simpa using h⟩
    | cons l' ls =>
      rw [List.intercalate_cons_cons, List.append_assoc, List.mem_append, List.singleton_append,
        List.mem_cons] at h
      rcases h with h | h | h
      · exact .inr ⟨l, List.mem_cons_self, h⟩
      · exact .inl h
      · rcases ih h with h | ⟨l'', hl, hc⟩
        · exact .inl h
        · exact .inr ⟨l'', List.mem_cons_of_mem _ hl, hc⟩

/-- With a reader that inverts a writer, the parts read are the parts written. -/
theorem mapM_eq_some_iff {f : α → Option β} {write : β → α} {P : β → Prop}
    (h : ∀ x y, f x = some y ↔ P y ∧ write y = x) {xs : List α} {ys : List β} :
    xs.mapM f = some ys ↔ (∀ y ∈ ys, P y) ∧ ys.map write = xs := by
  induction xs generalizing ys with
  | nil => cases ys <;> simp
  | cons x xs ih =>
    simp only [List.mapM_cons, Option.bind_eq_bind, Option.bind_eq_some_iff, Option.pure_def,
      Option.some.injEq, ih, h]
    constructor
    · rintro ⟨y, ⟨hy, rfl⟩, ys', ⟨hys, rfl⟩, rfl⟩
      simpa using ⟨hy, hys⟩
    · rintro ⟨hP, hmap⟩
      cases ys with
      | nil => simp at hmap
      | cons y ys =>
        simp only [List.map_cons, List.cons.injEq] at hmap
        rw [List.forall_mem_cons] at hP
        exact ⟨y, ⟨hP.1, hmap.1⟩, ys, ⟨hP.2, hmap.2⟩, rfl⟩

/-- A pass that succeeds gives each element its result. -/
theorem forall₂_of_mapM {f : α → Option β} {xs : List α} {ys : List β}
    (h : xs.mapM f = some ys) : List.Forall₂ (fun x y => f x = some y) xs ys := by
  induction xs generalizing ys with
  | nil =>
    obtain rfl := Option.some.inj h
    exact .nil
  | cons x xs ih =>
    simp only [List.mapM_cons, Option.bind_eq_bind, Option.bind_eq_some_iff, Option.pure_def,
      Option.some.injEq] at h
    obtain ⟨y, hy, ys', hys, rfl⟩ := h
    exact .cons hy (ih hys)

theorem getElem?_of_mapM {f : α → Option β} {xs : List α} {ys : List β} {i : ℕ} {x : α}
    (h : xs.mapM f = some ys) (hx : xs[i]? = some x) : f x = ys[i]? := by
  obtain ⟨hi, rfl⟩ := List.getElem?_eq_some_iff.mp hx
  have hall := forall₂_of_mapM h
  have hi' : i < ys.length := hall.length_eq ▸ hi
  rw [List.getElem?_eq_getElem hi']
  exact hall.get hi hi'

/-- A pass that succeeds has a result for each element. -/
theorem exists_mem_of_mapM {f : α → Option β} {xs : List α} {ys : List β} {x : α}
    (h : xs.mapM f = some ys) (hx : x ∈ xs) : ∃ y ∈ ys, f x = some y := by
  obtain ⟨i, hi, rfl⟩ := List.mem_iff_getElem.mp hx
  have hall := forall₂_of_mapM h
  have hi' : i < ys.length := hall.length_eq ▸ hi
  exact ⟨ys[i], List.getElem_mem hi', hall.get hi hi'⟩

/-- Each result of a pass that succeeds is that of an element. -/
theorem exists_of_mapM {f : α → Option β} {xs : List α} {ys : List β} {y : β}
    (h : xs.mapM f = some ys) (hy : y ∈ ys) : ∃ x ∈ xs, f x = some y := by
  obtain ⟨i, hi, rfl⟩ := List.mem_iff_getElem.mp hy
  have hall := forall₂_of_mapM h
  have hi' : i < xs.length := hall.length_eq ▸ hi
  exact ⟨xs[i], List.getElem_mem hi', hall.get hi' hi⟩

/-- What follows a step succeeds exactly where both do. -/
theorem bind_eq_ok {E A B : Type} {x : Except E A} {f : A → Except E B} {b : B} :
    (x >>= f) = .ok b ↔ ∃ a, x = .ok a ∧ f a = .ok b := by
  cases x with
  | error e => exact ⟨nofun, nofun⟩
  | ok a => exact ⟨fun h => ⟨a, rfl, h⟩, fun ⟨_, ha, h⟩ => by cases ha; exact h⟩

/-- A pass that does not fail gives each element its result. -/
theorem forall₂_of_mapM_ok {E A B : Type} {f : A → Except E B} {xs : List A} {ys : List B}
    (h : xs.mapM f = .ok ys) : List.Forall₂ (fun x y => f x = .ok y) xs ys := by
  induction xs generalizing ys with
  | nil =>
    obtain rfl := Except.ok.inj h
    exact .nil
  | cons x xs ih =>
    rw [List.mapM_cons] at h
    obtain ⟨y, hy, hrest⟩ := bind_eq_ok.mp h
    obtain ⟨ys', hys, hok⟩ := bind_eq_ok.mp hrest
    obtain rfl := Except.ok.inj hok
    exact .cons hy (ih hys)

/-- A pass that succeeds on every element and keeps an attribute of each. -/
theorem exists_mapM {γ : Type*} {f : α → Option β} {g : α → γ} {g' : β → γ} {xs : List α}
    (h : ∀ x ∈ xs, ∃ y, f x = some y ∧ g' y = g x) :
    ∃ ys, xs.mapM f = some ys ∧ ys.map g' = xs.map g := by
  induction xs with
  | nil => exact ⟨[], rfl, rfl⟩
  | cons x xs ih =>
    obtain ⟨y, hy, hg⟩ := h x List.mem_cons_self
    obtain ⟨ys, hys, hmap⟩ := ih fun x hx => h x (List.mem_cons_of_mem _ hx)
    exact ⟨y :: ys, by simp [List.mapM_cons, hy, hys], by simp [hg, hmap]⟩

/-! ### Joins of as many parts -/

section Joins

variable {x : α} {l : List α} {ls ls' : List (List α)}

theorem count_intercalate [DecidableEq α] (hne : ls ≠ []) :
    ([x].intercalate ls).count x + 1 = ls.length + (ls.map (List.count x)).sum := by
  induction ls with
  | nil => exact absurd rfl hne
  | cons l ls ih =>
    cases ls with
    | nil =>
      rw [List.intercalate_singleton]
      simp
      omega
    | cons l' ls =>
      have hrest := ih (List.cons_ne_nil _ _)
      rw [List.intercalate_cons_cons, List.append_assoc, List.count_append,
        List.singleton_append, List.count_cons_self, List.map_cons, List.sum_cons, List.length_cons]
      omega

/-- As many parts that join to the same text are the same, if the separator is in none. -/
theorem eq_of_intercalate [DecidableEq α] (hls : ∀ l ∈ ls, x ∉ l) (hlength : ls.length = ls'.length)
    (h : [x].intercalate ls = [x].intercalate ls') : ls = ls' := by
  by_cases hne : ls = []
  · rw [hne, List.length_nil] at hlength
    rw [hne, List.length_eq_zero_iff.mp hlength.symm]
  have hne' : ls' ≠ [] := fun hnil => hne (List.length_eq_zero_iff.mp (by rw [hlength, hnil]; rfl))
  have hzero : (ls.map (List.count x)).sum = 0 := by
    refine List.sum_eq_zero fun n hn => ?_
    obtain ⟨l, hl, rfl⟩ := List.mem_map.mp hn
    exact List.count_eq_zero.mpr (hls l hl)
  have hcount := count_intercalate (x := x) hne
  rw [h, count_intercalate hne'] at hcount
  have hls' : ∀ l ∈ ls', x ∉ l := by
    intro l hl
    have hle := List.single_le_sum (fun n _ => Nat.zero_le n) _
      (List.mem_map_of_mem (f := List.count x) hl)
    exact List.count_eq_zero.mp (by omega)
  rw [← List.splitOn_intercalate x hls hne, h, List.splitOn_intercalate x hls' hne']

theorem intercalate_append_congr (before : List (List α)) (hne : ls ≠ []) (hne' : ls' ≠ [])
    (h : [x].intercalate ls = [x].intercalate ls') :
    [x].intercalate (before ++ ls) = [x].intercalate (before ++ ls') := by
  induction before with
  | nil => exact h
  | cons l before ih =>
    obtain ⟨a, as, ha⟩ := List.exists_cons_of_ne_nil (List.append_ne_nil_of_right_ne_nil before hne)
    obtain ⟨b, bs, hb⟩ := List.exists_cons_of_ne_nil (List.append_ne_nil_of_right_ne_nil before hne')
    rw [List.cons_append, List.cons_append, ha, hb, List.intercalate_cons_cons,
      List.intercalate_cons_cons, ← ha, ← hb, ih]

theorem intercalate_append_head (l l' : List α) (ls : List (List α)) :
    [x].intercalate ((l ++ l') :: ls) = l ++ [x].intercalate (l' :: ls) := by
  cases ls with
  | nil => rw [List.intercalate_singleton, List.intercalate_singleton]
  | cons l'' ls =>
    rw [List.intercalate_cons_cons, List.intercalate_cons_cons, List.append_assoc,
      List.append_assoc, List.append_assoc]

/-- A part with the separator in it gives a part of its own to a neighbour. -/
theorem exists_intercalate_eq (hl : l ∈ ls) (hx : x ∈ l) (hlength : 2 ≤ ls.length) :
    ∃ ls', ls'.length = ls.length ∧ ls' ≠ ls ∧ [x].intercalate ls' = [x].intercalate ls := by
  obtain ⟨before, after, rfl⟩ := List.append_of_mem hl
  obtain ⟨a, b, rfl⟩ := List.append_of_mem hx
  have hshort : ∀ u : List α, u ≠ a ++ x :: u := by
    intro u heq
    have := congrArg List.length heq
    simp at this
    omega
  cases after with
  | cons c after =>
    refine ⟨before ++ a :: (b ++ x :: c) :: after, by simp, fun heq => ?_,
      intercalate_append_congr before (List.cons_ne_nil _ _) (List.cons_ne_nil _ _) ?_⟩
    · have hcut := (List.cons.inj (List.append_cancel_left heq)).1
      have := congrArg List.length hcut
      simp at this
    · have hbar : b ++ x :: c = (b ++ [x]) ++ c := by simp
      rw [List.intercalate_cons_cons, hbar, intercalate_append_head, List.intercalate_cons_cons]
      simp
  | nil =>
    obtain rfl | ⟨before, c, rfl⟩ := List.eq_nil_or_concat before
    · simp at hlength
    refine ⟨before ++ [c ++ x :: a, b], by simp, fun heq => ?_, ?_⟩
    · rw [List.concat_eq_append, List.append_assoc] at heq
      have hcut := List.append_cancel_left heq
      simp only [List.singleton_append, List.cons.injEq, and_true] at hcut
      exact hshort b hcut.2
    · rw [List.concat_eq_append, List.append_assoc]
      refine intercalate_append_congr before (List.cons_ne_nil _ _) (List.cons_ne_nil _ _) ?_
      simp [List.intercalate_cons_cons]

end Joins

end Separated

/-!
## Windows of a separated text

A stretch of a text that is itself separated parts lies across consecutive parts of the
text: it covers the inner ones, ends the first and begins the last. So a search over all
stretches is a search over the parts.
-/

namespace SplitWindow

variable {α : Type*} {x : α} {a b r : List α} {front back mids rest : List (List α)} {n : ℕ}

theorem intercalate_splice (x : α) (front rest : List (List α)) (a r : List α) :
    [x].intercalate (front ++ [a]) ++ [x].intercalate (r :: rest) =
      [x].intercalate (front ++ (a ++ r) :: rest) := by
  induction front with
  | nil =>
    cases rest with
    | nil => simp
    | cons r' rest => simp [List.intercalate_cons_cons, List.append_assoc]
  | cons f front ih =>
    have hleft : front ++ [a] ≠ [] := by simp
    have hright : front ++ (a ++ r) :: rest ≠ [] := by simp
    rw [List.cons_append, List.cons_append, List.intercalate_cons_of_ne_nil hleft,
      List.intercalate_cons_of_ne_nil hright, List.append_assoc, ih]

theorem intercalate_stretch (x : α) (front mids back : List (List α)) (a b first last : List α) :
    [x].intercalate (front ++ [a]) ++ [x].intercalate (first :: (mids ++ [last])) ++
        [x].intercalate (b :: back) =
      [x].intercalate (front ++ (a ++ first) :: (mids ++ (last ++ b) :: back)) := by
  have hlast : front ++ (a ++ first) :: (mids ++ [last]) =
      (front ++ (a ++ first) :: mids) ++ [last] := by simp
  rw [intercalate_splice, hlast, intercalate_splice, List.append_assoc, List.cons_append]

theorem exists_last [DecidableEq α] (x : α) (t : List α) :
    ∃ front a, t.splitOn x = front ++ [a] := by
  rcases List.eq_nil_or_concat (t.splitOn x) with hnil | ⟨front, a, h⟩
  · exact absurd hnil (List.splitOn_ne_nil x t)
  · exact ⟨front, a, by rw [h, List.concat_eq_append]⟩

theorem exists_first [DecidableEq α] (x : α) (t : List α) :
    ∃ b back, t.splitOn x = b :: back := List.exists_cons_of_ne_nil (List.splitOn_ne_nil x t)

theorem exists_ends {l : List α} (h : l.length = n + 2) :
    ∃ a mids b, l = a :: (mids ++ [b]) ∧ mids.length = n := by
  cases l with
  | nil => simp at h
  | cons a l =>
    rcases List.eq_nil_or_concat l with rfl | ⟨mids, b, rfl⟩
    · simp at h
    · rw [List.concat_eq_append] at h ⊢
      refine ⟨a, mids, b, rfl, ?_⟩
      simp only [List.length_cons, List.length_append, List.length_nil] at h
      omega

/-- A window of a list is found by the place of its first element. -/
theorem exists_window_iff {P Q R : α → Prop} {l : List α} :
    (∃ i, (∃ a, l[i]? = some a ∧ P a) ∧ (∃ b, l[i + (n + 1)]? = some b ∧ Q b) ∧
      ∀ r ∈ (l.drop (i + 1)).take n, R r) ↔
    ∃ front a mids b back, l = front ++ a :: (mids ++ b :: back) ∧ mids.length = n ∧
      (∀ r ∈ mids, R r) ∧ P a ∧ Q b := by
  constructor
  · intro h
    obtain ⟨i, ⟨a, ha, hP⟩, ⟨b, hb, hQ⟩, hinner⟩ := h
    obtain ⟨hfirst, rfl⟩ := List.getElem?_eq_some_iff.mp ha
    obtain ⟨hlast, rfl⟩ := List.getElem?_eq_some_iff.mp hb
    refine ⟨l.take i, _, (l.drop (i + 1)).take n, _, l.drop (i + (n + 1) + 1), ?_, ?_, hinner, hP, hQ⟩
    · have hrest : l.drop (i + (n + 1)) = (l.drop (i + 1)).drop n := by
        rw [List.drop_drop]
        congr 1
        omega
      rw [← List.drop_eq_getElem_cons, hrest, List.take_append_drop, ← List.drop_eq_getElem_cons,
        List.take_append_drop]
    · rw [List.length_take, List.length_drop]
      omega
  · intro h
    obtain ⟨front, a, mids, b, back, rfl, rfl, hinner, hP, hQ⟩ := h
    refine ⟨front.length, ⟨a, by simp, hP⟩, ⟨b, ?_, hQ⟩, ?_⟩
    · rw [List.getElem?_append_right (Nat.le_add_right _ _), Nat.add_sub_cancel_left,
        List.getElem?_cons_succ, List.getElem?_append_right (le_refl _), Nat.sub_self]
      rfl
    · have hskip : (front ++ a :: (mids ++ b :: back)).drop (front.length + 1) = mids ++ b :: back := by
        rw [← List.drop_drop, List.drop_left, List.drop_succ_cons, List.drop_zero]
      rw [hskip, List.take_left]
      exact hinner

/-- A text has a stretch of accepted parts exactly if it has so many consecutive parts, of which
the inner ones are accepted, the first has an accepted end and the last an accepted start. -/
theorem exists_stretch_iff [DecidableEq α] {p : List α → Prop} (hp : ∀ r, p r → x ∉ r)
    (t : List α) :
    (∃ before ranks after, t = before ++ [x].intercalate ranks ++ after ∧ ranks.length = n + 2 ∧
      ∀ r ∈ ranks, p r) ↔
    ∃ front a mids b back, t.splitOn x = front ++ a :: (mids ++ b :: back) ∧ mids.length = n ∧
      (∀ r ∈ mids, p r) ∧ (∃ r, r <:+ a ∧ p r) ∧ ∃ r, r <+: b ∧ p r := by
  constructor
  · intro h
    obtain ⟨before, ranks, after, rfl, hlength, hranks⟩ := h
    obtain ⟨first, mids, last, rfl, hmids⟩ := exists_ends hlength
    obtain ⟨front, a, hfront⟩ := exists_last x before
    obtain ⟨b, back, hback⟩ := exists_first x after
    simp only [List.mem_cons, List.mem_append, List.not_mem_nil, or_false, forall_eq_or_imp] at hranks
    obtain ⟨hfirst, hothers⟩ := hranks
    have hlast : p last := hothers last (.inr rfl)
    have hinner : ∀ r ∈ mids, p r := fun r hr => hothers r (.inl hr)
    refine ⟨front, a ++ first, mids, last ++ b, back, ?_, hmids, hinner,
      ⟨first, List.suffix_append a first, hfirst⟩, ⟨last, List.prefix_append last b, hlast⟩⟩
    obtain ⟨-, hfree, hbefore⟩ := Separated.splitOn_eq_iff.mp hfront
    obtain ⟨-, hfree', hafter⟩ := Separated.splitOn_eq_iff.mp hback
    rw [List.forall_mem_append, List.forall_mem_cons] at hfree
    rw [List.forall_mem_cons] at hfree'
    refine Separated.splitOn_eq_iff.mpr ⟨by simp, ?_, ?_⟩
    · rw [List.forall_mem_append, List.forall_mem_cons, List.forall_mem_append,
        List.forall_mem_cons, List.mem_append, List.mem_append, not_or, not_or]
      exact ⟨hfree.1, ⟨hfree.2.1, hp first hfirst⟩, fun r hr => hp r (hinner r hr),
        ⟨hp last hlast, hfree'.1⟩, hfree'.2⟩
    · rw [← hbefore, ← hafter, intercalate_stretch]
  · intro h
    obtain ⟨front, a, mids, b, back, hsplit, hmids, hinner, ⟨first, ⟨a', rfl⟩, hfirst⟩,
      ⟨last, ⟨b', rfl⟩, hlast⟩⟩ := h
    obtain ⟨-, -, ht⟩ := Separated.splitOn_eq_iff.mp hsplit
    refine ⟨[x].intercalate (front ++ [a']), first :: (mids ++ [last]), [x].intercalate (b' :: back),
      ?_, by simp [hmids], ?_⟩
    · rw [← ht, intercalate_stretch]
    · simp only [List.mem_cons, List.mem_append, List.not_mem_nil, or_false, forall_eq_or_imp]
      refine ⟨hfirst, fun r hr => ?_⟩
      rcases hr with hr | rfl
      · exact hinner r hr
      · exact hlast

end SplitWindow
