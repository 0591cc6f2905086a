import Mathlib.Data.List.Sort
import Mathlib.Data.List.Pairwise
import Mathlib.Data.List.Perm.Basic
import Mathlib.Data.List.Lex

/-!
# Bucketed tables

A table is an insertion-ordered dictionary from keys to lists of records. A
record is found through its key only, so what a table holds is read through its
record list, and the key must be recoverable from the record.
-/

namespace OpenChess
namespace Buckets

variable {K R I : Type*}

abbrev Table (K R : Type*) := List (K × List R)

def records (T : Table K R) : List R := T.flatMap Prod.snd

@[simp] theorem records_nil : records ([] : Table K R) = [] := rfl

@[simp] theorem records_cons (e : K × List R) (T : Table K R) :
    records (e :: T) = e.2 ++ records T := rfl

/-- Every key has one bucket, and it holds records of that key only. -/
structure Keyed (key : R → K) (T : Table K R) : Prop where
  nodup : (T.map Prod.fst).Nodup
  own : ∀ e ∈ T, ∀ r ∈ e.2, key r = e.1

theorem Keyed.nil (key : R → K) : Keyed key ([] : Table K R) :=
  ⟨List.nodup_nil, fun _ he => by cases he⟩

theorem Keyed.tail {key : R → K} {e : K × List R} {T : Table K R} (h : Keyed key (e :: T)) :
    Keyed key T :=
  ⟨(List.nodup_cons.mp h.nodup).2, fun e' he' => h.own e' (List.mem_cons_of_mem _ he')⟩

theorem Keyed.key_mem {key : R → K} {T : Table K R} (h : Keyed key T) {r : R}
    (hr : r ∈ records T) : key r ∈ T.map Prod.fst := by
  obtain ⟨e, he, hre⟩ := List.mem_flatMap.mp hr
  rw [h.own e he r hre]
  exact List.mem_map_of_mem he

def Distinct (ident : R → I) (T : Table K R) : Prop :=
  (records T).Pairwise fun r s => ident r ≠ ident s

theorem Distinct.eq {ident : R → I} {T : Table K R} (h : Distinct ident T) {r s : R}
    (hr : r ∈ records T) (hs : s ∈ records T) (heq : ident r = ident s) : r = s := by
  by_contra hne
  have hsymm : Std.Symm fun r s : R => ident r ≠ ident s := ⟨fun _ _ hne => hne.symm⟩
  exact List.Pairwise.forall h hr hs hne heq

theorem Distinct.nodup {ident : R → I} {T : Table K R} (h : Distinct ident T) :
    (records T).Nodup :=
  List.Pairwise.imp (fun hne heq => hne (congrArg ident heq)) h

/-! ### Sorted listings -/

section Sorted

variable {B : Type*} [LinearOrder B]

def sorted (l : List B) : List B := l.insertionSort (· ≤ ·)

theorem sorted_perm (l : List B) : (sorted l).Perm l := List.perm_insertionSort _ l

/-- A sorted listing depends on the members and their multiplicities only. -/
theorem sorted_eq_of_perm {l l' : List B} (h : l.Perm l') : sorted l = sorted l' := by
  have hperm : (sorted l).Perm (sorted l') := (sorted_perm l).trans (h.trans (sorted_perm l').symm)
  exact hperm.eq_of_pairwise (fun a b _ _ hab hba => le_antisymm hab hba)
    (List.pairwise_insertionSort _ l) (List.pairwise_insertionSort _ l')

/-- Two tables without repetitions that hold the same records list the same. -/
theorem sorted_records_eq {T T' : Table K R} (hT : (records T).Nodup) (hT' : (records T').Nodup)
    (h : ∀ r, r ∈ records T ↔ r ∈ records T') (f : R → B) :
    sorted ((records T).map f) = sorted ((records T').map f) :=
  sorted_eq_of_perm (((List.perm_ext_iff_of_nodup hT hT').mpr h).map f)

end Sorted

/-! ### Look-up and insertion -/

variable [DecidableEq K]

/-- The bucket of a key, empty when the key is absent. -/
def get : Table K R → K → List R
  | [], _ => []
  | (k', bucket) :: T, k => if k' = k then bucket else get T k

/-- Append a record to the bucket of a key, creating the bucket at the end. -/
def push : Table K R → K → R → Table K R
  | [], k, r => [(k, [r])]
  | (k', bucket) :: T, k, r =>
    if k' = k then (k', bucket ++ [r]) :: T else (k', bucket) :: push T k r

theorem records_push (T : Table K R) (k : K) (r : R) :
    (records (push T k r)).Perm (r :: records T) := by
  induction T with
  | nil => exact List.Perm.refl _
  | cons e T ih =>
    rw [push]
    split_ifs
    · simp only [records_cons, List.append_assoc, List.cons_append, List.nil_append]
      exact List.perm_middle
    · simp only [records_cons]
      exact (ih.append_left e.2).trans List.perm_middle

theorem mem_records_push {T : Table K R} {k : K} {r s : R} :
    s ∈ records (push T k r) ↔ s = r ∨ s ∈ records T := by
  rw [(records_push T k r).mem_iff, List.mem_cons]

theorem mem_keys_push {T : Table K R} {k k' : K} {r : R} :
    k' ∈ (push T k r).map Prod.fst ↔ k' = k ∨ k' ∈ T.map Prod.fst := by
  induction T with
  | nil => simp [push]
  | cons e T ih =>
    rw [push]
    split_ifs with h
    · subst h
      simp
    · simp only [List.map_cons, List.mem_cons, ih]
      tauto

/-- A bucket holds exactly the records of its key. -/
theorem Keyed.mem_get {key : R → K} {T : Table K R} (h : Keyed key T) {k : K} {r : R} :
    r ∈ get T k ↔ r ∈ records T ∧ key r = k := by
  induction T with
  | nil => simp [get]
  | cons e T ih =>
    have hown := h.own e List.mem_cons_self
    rw [get, records_cons, List.mem_append]
    split_ifs with hk
    · have hout : r ∈ records T → key r ≠ k := by
        intro hr hkey
        apply (List.nodup_cons.mp h.nodup).1
        rw [hk, ← hkey]
        exact h.tail.key_mem hr
      constructor
      · exact fun hr => ⟨.inl hr, (hown r hr).trans hk⟩
      · intro hr
        obtain ⟨hr | hr, hkey⟩ := hr
        · exact hr
        · exact absurd hkey (hout hr)
    · rw [ih h.tail]
      constructor
      · exact fun hr => ⟨.inr hr.1, hr.2⟩
      · intro hr
        obtain ⟨hr | hr, hkey⟩ := hr
        · exact absurd ((hown r hr).symm.trans hkey) hk
        · exact ⟨hr, hkey⟩

theorem Keyed.push {key : R → K} {T : Table K R} (h : Keyed key T) {r : R} :
    Keyed key (push T (key r) r) := by
  induction T with
  | nil =>
    refine ⟨List.nodup_singleton _, fun e he s hs => ?_⟩
    rw [List.mem_singleton.mp he] at hs ⊢
    rw [List.mem_singleton.mp hs]
  | cons e T ih =>
    rw [Buckets.push]
    split_ifs with hk
    · refine ⟨h.nodup, fun e' he' s hs => ?_⟩
      rcases List.mem_cons.mp he' with rfl | he'
      · rcases List.mem_append.mp hs with hs | hs
        · exact h.own e List.mem_cons_self s hs
        · rw [List.mem_singleton.mp hs]
          exact hk.symm
      · exact h.own e' (List.mem_cons_of_mem _ he') s hs
    · have htail := ih h.tail
      refine ⟨List.nodup_cons.mpr ⟨fun hmem => ?_, htail.nodup⟩, fun e' he' s hs => ?_⟩
      · rcases mem_keys_push.mp hmem with heq | hmem
        · exact hk heq
        · exact (List.nodup_cons.mp h.nodup).1 hmem
      · rcases List.mem_cons.mp he' with rfl | he'
        · exact h.own _ List.mem_cons_self s hs
        · exact htail.own e' he' s hs

theorem Distinct.push {ident : R → I} {T : Table K R} (h : Distinct ident T) {k : K} {r : R}
    (hr : ∀ s ∈ records T, ident s ≠ ident r) : Distinct ident (push T k r) := by
  refine (List.Perm.pairwise_iff (fun hne => hne.symm) (records_push T k r)).mpr ?_
  exact List.pairwise_cons.mpr ⟨fun s hs => (hr s hs).symm, h⟩

end Buckets
end OpenChess
