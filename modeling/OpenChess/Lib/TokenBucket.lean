import Mathlib.Data.List.Count
import Mathlib.Tactic

/-!
# Token buckets

A bucket of bounded capacity gains one token in every period. A refill counts whole
periods and keeps the rest of the last one, but a full bucket keeps nothing. What is
spent between two times is bounded by the tokens at the first and the periods between.
-/

namespace TokenBucket

/-- The tokens of a bucket, and the time they were counted at. -/
structure Bucket where
  tokens : ℕ
  since : ℕ

variable {capacity period now cost spent spent' : ℕ} {b c d : Bucket}

/-- The bucket with the tokens it has gained until this time. -/
def Bucket.refill (capacity period now : ℕ) (b : Bucket) : Bucket :=
  if capacity ≤ b.tokens + (now - b.since) / period then ⟨capacity, now⟩
  else ⟨b.tokens + (now - b.since) / period, b.since + (now - b.since) / period * period⟩

theorem refill_tokens_le : (b.refill capacity period now).tokens ≤ capacity := by
  unfold Bucket.refill
  split_ifs with hfull
  · exact le_refl _
  · exact le_of_lt (not_le.mp hfull)

theorem periods_le : (now - b.since) / period * period ≤ now - b.since :=
  Nat.div_mul_le_self _ _

theorem refill_since_le (h : b.since ≤ now) : (b.refill capacity period now).since ≤ now := by
  have hperiods : (now - b.since) / period * period ≤ now - b.since := periods_le
  unfold Bucket.refill
  split_ifs
  · exact le_refl _
  · simp only
    omega

/-- A bucket below its capacity has counted all whole periods. -/
theorem refill_rest_lt (hperiod : 0 < period)
    (h : (b.refill capacity period now).tokens < capacity) :
    now - (b.refill capacity period now).since < period := by
  have hdivision := Nat.div_add_mod (now - b.since) period
  have hrest := Nat.mod_lt (now - b.since) hperiod
  rw [Nat.mul_comm] at hdivision
  unfold Bucket.refill at h ⊢
  split_ifs at h ⊢ with hfull
  · exact absurd h (lt_irrefl _)
  · simp only
    omega

/-! ### Conservation -/

/-- This much can be spent between the two buckets, by the tokens of the first and the
time between. -/
structure Flow (period spent : ℕ) (b c : Bucket) : Prop where
  since : b.since ≤ c.since
  tokens : (spent + c.tokens) * period + b.since ≤ b.tokens * period + c.since

theorem Flow.refl (b : Bucket) : Flow period 0 b b := by
  refine ⟨le_refl _, ?_⟩
  rw [Nat.zero_add]

theorem Flow.trans (h : Flow period spent b c) (h' : Flow period spent' c d) :
    Flow period (spent + spent') b d := by
  refine ⟨le_trans h.since h'.since, ?_⟩
  have hsum := h.tokens
  have hsum' := h'.tokens
  rw [Nat.add_mul] at hsum hsum'
  rw [Nat.add_mul, Nat.add_mul]
  omega

theorem flow_refill (h : b.since ≤ now) : Flow period 0 b (b.refill capacity period now) := by
  have hperiods : (now - b.since) / period * period ≤ now - b.since := periods_le
  unfold Bucket.refill
  split_ifs with hfull
  · refine ⟨h, ?_⟩
    have hscaled := Nat.mul_le_mul_right period hfull
    rw [Nat.add_mul] at hscaled
    rw [Nat.zero_add]
    simp only
    omega
  · refine ⟨Nat.le_add_right _ _, ?_⟩
    rw [Nat.zero_add, Nat.add_mul]
    simp only
    omega

/-- Tokens are spent out of the bucket. -/
theorem flow_spend (h : spent ≤ b.tokens) : Flow period spent b ⟨b.tokens - spent, b.since⟩ := by
  refine ⟨le_refl _, ?_⟩
  rw [Nat.add_sub_cancel' h]

theorem Flow.spent_le (hperiod : 0 < period) (h : Flow period spent b c) :
    spent ≤ b.tokens + (c.since - b.since) / period := by
  have htokens := h.tokens
  have hsince := h.since
  rw [Nat.add_mul] at htokens
  by_cases hle : spent ≤ b.tokens
  · exact le_trans hle (Nat.le_add_right _ _)
  · have hmore : (spent - b.tokens) * period ≤ c.since - b.since := by
      rw [Nat.sub_mul]
      omega
    have hperiods := (Nat.le_div_iff_mul_le hperiod).mpr hmore
    omega

/-! ### Waiting -/

def Bucket.due (period cost : ℕ) (b : Bucket) : ℕ := b.since + (cost - b.tokens) * period

/-- A refill holds the tokens exactly from the time they are due. -/
theorem le_refill_tokens_iff (hperiod : 0 < period) (hcost : cost ≤ capacity) (h : b.since ≤ now) :
    cost ≤ (b.refill capacity period now).tokens ↔ b.due period cost ≤ now := by
  have hgained : cost ≤ b.tokens + (now - b.since) / period ↔ b.due period cost ≤ now := by
    rw [Bucket.due, ← Nat.sub_le_iff_le_add', Nat.le_div_iff_mul_le hperiod]
    omega
  rw [← hgained]
  unfold Bucket.refill
  split_ifs with hfull
  · exact iff_of_true hcost (le_trans hcost hfull)
  · exact Iff.rfl

/-- A refill that falls short of the tokens leaves the time they are due. -/
theorem due_refill (hcost : cost ≤ capacity)
    (hshort : (b.refill capacity period now).tokens < cost) :
    (b.refill capacity period now).due period cost = b.due period cost := by
  unfold Bucket.refill at hshort ⊢
  split_ifs at hshort ⊢ with hfull
  · exact absurd hcost (not_le.mpr hshort)
  · simp only [Bucket.due] at hshort ⊢
    generalize (now - b.since) / period = gained at hshort ⊢
    have hall : cost - b.tokens = gained + (cost - (b.tokens + gained)) := by omega
    rw [hall, Nat.add_mul, Nat.add_assoc]

/-- The wait for the tokens of a bucket that has counted all whole periods. -/
theorem add_wait (hshort : b.tokens < cost) (hrest : now - b.since < period) (h : b.since ≤ now) :
    now + ((cost - b.tokens) * period - (now - b.since)) = b.due period cost := by
  obtain ⟨missing, hmissing⟩ := Nat.exists_eq_add_of_lt hshort
  have hleft : cost - b.tokens = missing + 1 := by omega
  rw [Bucket.due, hleft, Nat.succ_mul]
  omega

end TokenBucket

/-!
## Counters of one slot

A counter keeps the number of admissions in its latest slot only. It admits below its
capacity and never in a slot before the one it keeps, so that no slot is opened again.
-/

namespace SlotCounter

variable {capacity slot : ℕ} {slots : List ℕ} {stored : Option (ℕ × ℕ)} {next : ℕ × ℕ}

def counted (slot : ℕ) (stored : Option (ℕ × ℕ)) : ℕ :=
  stored.elim 0 fun p => if p.1 = slot then p.2 else 0

/-- The counter after an admission in this slot. -/
structure Admits (capacity slot : ℕ) (stored : Option (ℕ × ℕ)) (next : ℕ × ℕ) : Prop where
  later : ∀ p, stored = some p → p.1 ≤ slot
  below : counted slot stored < capacity
  next : next = (slot, counted slot stored + 1)

/-- The counter counts the latest of these slots, and no slot is over capacity. -/
structure Tracks (capacity : ℕ) (slots : List ℕ) (stored : Option (ℕ × ℕ)) : Prop where
  empty : stored = none → slots = []
  latest : ∀ p, stored = some p → slots.count p.1 = p.2 ∧ ∀ s ∈ slots, s ≤ p.1
  bound : ∀ s, slots.count s ≤ capacity

theorem Tracks.start (capacity : ℕ) : Tracks capacity [] none :=
  ⟨fun _ => rfl, (fun p hp => by cases hp), fun s => Nat.zero_le _⟩

/-- A slot that is not before the stored one has the admissions the counter says. -/
theorem Tracks.count_eq (h : Tracks capacity slots stored)
    (hlater : ∀ p, stored = some p → p.1 ≤ slot) : slots.count slot = counted slot stored := by
  cases stored with
  | none =>
    rw [h.empty rfl]
    rfl
  | some p =>
    obtain ⟨hcount, hslots⟩ := h.latest p rfl
    unfold counted
    rw [Option.elim_some]
    split_ifs with hslot
    · rw [← hslot, hcount]
    · have hlt : p.1 < slot := lt_of_le_of_ne (hlater p rfl) hslot
      rw [List.count_eq_zero]
      intro hmem
      exact absurd (hslots slot hmem) (not_le.mpr hlt)

theorem Tracks.step (h : Tracks capacity slots stored) (hadmits : Admits capacity slot stored next) :
    Tracks capacity (slots ++ [slot]) (some next) := by
  have hcount := h.count_eq hadmits.later
  have hbelow := hadmits.below
  have hnext := hadmits.next
  refine ⟨(fun hp => by cases hp), fun p hp => ?_, fun s => ?_⟩
  · obtain rfl := Option.some.inj hp
    rw [hnext, List.count_append, hcount, List.count_singleton_self]
    refine ⟨rfl, fun s hs => ?_⟩
    rcases List.mem_append.mp hs with hs | hs
    · cases stored with
      | none =>
        rw [h.empty rfl] at hs
        cases hs
      | some q => exact le_trans ((h.latest q rfl).2 s hs) (hadmits.later q rfl)
    · rw [List.mem_singleton.mp hs]
  · rw [List.count_append]
    by_cases hs : s = slot
    · rw [hs, hcount, List.count_singleton_self]
      omega
    · rw [List.count_singleton, beq_false_of_ne (Ne.symm hs)]
      exact h.bound s

end SlotCounter
