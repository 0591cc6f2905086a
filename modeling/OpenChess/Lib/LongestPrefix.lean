import Mathlib.Data.List.Infix
import Mathlib.Data.List.Nodup
import Mathlib.Data.Nat.Find
import Mathlib.Tactic

/-!
# Search for the longest good prefix

Where every prefix of a good prefix is good, halving the interval between a good
and a bad length finds the greatest good length, as a scan from above does.
-/

namespace PrefixSearch

/-- The halving loop between a good and a bad length, with fuel. -/
def bisect (ok : ℕ → Bool) : ℕ → ℕ → ℕ → ℕ
  | 0, good, _ => good
  | fuel + 1, good, bad =>
    if bad - good > 1 then
      if ok ((good + bad) / 2) = false then bisect ok fuel good ((good + bad) / 2)
      else bisect ok fuel ((good + bad) / 2) bad
    else good

/-- As much fuel as the interval is long suffices: the loop ends at a good length
below a bad one. -/
theorem bisect_boundary {ok : ℕ → Bool} {fuel good bad : ℕ} (hlt : good < bad)
    (hfuel : bad - good ≤ fuel + 1) (hgood : ok good = true) (hbad : ok bad = false) :
    bisect ok fuel good bad < bad ∧ ok (bisect ok fuel good bad) = true ∧
      ok (bisect ok fuel good bad + 1) = false := by
  induction fuel generalizing good bad with
  | zero =>
    have hnext : good + 1 = bad := by omega
    exact ⟨hlt, hgood, by rwa [bisect, hnext]⟩
  | succ fuel ih =>
    rw [bisect]
    split_ifs with hwide hmid
    · have hstep := ih (show good < (good + bad) / 2 by omega) (by omega) hgood hmid
      exact ⟨by omega, hstep.2⟩
    · rw [Bool.not_eq_false] at hmid
      exact ih (show (good + bad) / 2 < bad by omega) (by omega) hmid hbad
    · have hnext : good + 1 = bad := by omega
      exact ⟨hlt, hgood, by rwa [hnext]⟩

variable {ok : ℕ → Bool} {n : ℕ}

/-- Every length below a good one is good. -/
def Monotone (ok : ℕ → Bool) : Prop := ∀ m n, m ≤ n → ok n = true → ok m = true

/-- Below a bad length, the halving loop finds what the scan from above finds. -/
theorem bisect_eq_findGreatest (hmono : Monotone ok) (hzero : ok 0 = true) (hbad : ok n = false) :
    bisect ok n 0 n = Nat.findGreatest (fun k => ok k = true) n := by
  have hpos : 0 < n := by
    rcases Nat.eq_zero_or_pos n with rfl | hn
    · rw [hzero] at hbad
      cases hbad
    · exact hn
  obtain ⟨hlt, hgood, hnext⟩ := bisect_boundary hpos (show n - 0 ≤ n + 1 by omega) hzero hbad
  symm
  rw [Nat.findGreatest_eq_iff]
  refine ⟨le_of_lt hlt, fun _ => hgood, fun m hm _ hok => ?_⟩
  rw [hmono _ m hm hok] at hnext
  cases hnext

/-- The scan from above ends at a good length. -/
theorem findGreatest_good (hzero : ok 0 = true) :
    ok (Nat.findGreatest (fun k => ok k = true) n) = true := by
  have hspec := (Nat.findGreatest_eq_iff.mp
    (Eq.refl (Nat.findGreatest (fun k => ok k = true) n))).2.1
  by_cases hk : Nat.findGreatest (fun k => ok k = true) n = 0
  · rwa [hk]
  · exact hspec hk

end PrefixSearch

/-!
## The longest matching prefix

Items carry sequences, and a path is matched by the items whose sequence starts
it. A scan that gives up its candidate for a strictly longer one only ends with a
longest match. Where sequences are distinct it is the only one, so that the order
of the items does not matter, and a longer path can only lengthen the match.
-/

namespace OpenChess
namespace LongestPrefix

variable {α β : Type*} {seq : α → List β} {l l' : List α} {p q : List β} {a b : α}
  {best best' : Option α}

/-- `a` is an item of `l` with a longest sequence among those that start `p`. -/
structure Longest (seq : α → List β) (l : List α) (p : List β) (a : α) : Prop where
  mem : a ∈ l
  starts : seq a <+: p
  longest : ∀ b ∈ l, seq b <+: p → (seq b).length ≤ (seq a).length

/-- What a scan of `l` may have found. -/
def Found (seq : α → List β) (l : List α) (p : List β) : Option α → Prop
  | none => ∀ b ∈ l, ¬seq b <+: p
  | some a => Longest seq l p a

/-! ### Scanning -/

theorem Found.nil : Found seq [] p none := fun _ hb => absurd hb List.not_mem_nil

theorem Found.skip (h : Found seq l p best) (hb : ¬seq b <+: p) : Found seq (l ++ [b]) p best := by
  cases best with
  | none =>
    intro c hc
    rcases List.mem_append.mp hc with hc | hc
    · exact h c hc
    · rwa [List.mem_singleton.mp hc]
  | some a =>
    refine ⟨List.mem_append_left _ h.mem, h.starts, fun c hc hstarts => ?_⟩
    rcases List.mem_append.mp hc with hc | hc
    · exact h.longest c hc hstarts
    · rw [List.mem_singleton.mp hc] at hstarts
      exact absurd hstarts hb

theorem Found.keep (h : Found seq l p (some a)) (hle : (seq b).length ≤ (seq a).length) :
    Found seq (l ++ [b]) p (some a) := by
  refine ⟨List.mem_append_left _ h.mem, h.starts, fun c hc hstarts => ?_⟩
  rcases List.mem_append.mp hc with hc | hc
  · exact h.longest c hc hstarts
  · rwa [List.mem_singleton.mp hc]

theorem Found.replace (h : Found seq l p best) (hb : seq b <+: p)
    (hlt : ∀ a, best = some a → (seq a).length < (seq b).length) :
    Found seq (l ++ [b]) p (some b) := by
  refine ⟨List.mem_append_right _ List.mem_cons_self, hb, fun c hc hstarts => ?_⟩
  rcases List.mem_append.mp hc with hc | hc
  · cases best with
    | none => exact absurd hstarts (h c hc)
    | some a => exact (h.longest c hc hstarts).trans (hlt a rfl).le
  · rw [List.mem_singleton.mp hc]

/-! ### The match -/

theorem Longest.seq_eq (ha : Longest seq l p a) (hb : Longest seq l p b) : seq a = seq b := by
  have hlength : (seq a).length = (seq b).length :=
    le_antisymm (hb.longest a ha.mem ha.starts) (ha.longest b hb.mem hb.starts)
  exact (List.prefix_of_prefix_length_le ha.starts hb.starts hlength.le).eq_of_length hlength

theorem Longest.eq (hseq : (l.map seq).Nodup) (ha : Longest seq l p a) (hb : Longest seq l p b) :
    a = b :=
  List.inj_on_of_nodup_map hseq ha.mem hb.mem (ha.seq_eq hb)

theorem Found.eq (hseq : (l.map seq).Nodup) (h : Found seq l p best) (h' : Found seq l p best') :
    best = best' := by
  cases best with
  | none =>
    cases best' with
    | none => rfl
    | some b => exact absurd h'.starts (h b h'.mem)
  | some a =>
    cases best' with
    | none => exact absurd h.starts (h' a h.mem)
    | some b => exact congrArg some (h.eq hseq h')

/-- What is found does not depend on the order of the items. -/
theorem Found.perm (hl : l.Perm l') (h : Found seq l p best) : Found seq l' p best := by
  cases best with
  | none => exact fun b hb => h b (hl.mem_iff.mpr hb)
  | some a =>
    exact ⟨hl.mem_iff.mp h.mem, h.starts, fun b hb => h.longest b (hl.mem_iff.mpr hb)⟩

/-- A longer path is matched by an item whose sequence extends the match. -/
theorem Longest.extends (ha : Longest seq l p a) (hb : Longest seq l (p ++ q) b) :
    seq a <+: seq b := by
  have hstarts : seq a <+: p ++ q := ha.starts.trans (List.prefix_append p q)
  exact List.prefix_of_prefix_length_le hstarts hb.starts (hb.longest a ha.mem hstarts)

theorem Longest.found_append (ha : Longest seq l p a) (h : Found seq l (p ++ q) best) :
    ∃ b, best = some b ∧ Longest seq l (p ++ q) b := by
  cases best with
  | none => exact absurd (ha.starts.trans (List.prefix_append p q)) (h a ha.mem)
  | some b => exact ⟨b, rfl, h⟩

/-- It is the same item, or one whose sequence is strictly longer. -/
theorem Longest.eq_or_lt (hseq : (l.map seq).Nodup) (ha : Longest seq l p a)
    (hb : Longest seq l (p ++ q) b) :
    b = a ∨ seq a <+: seq b ∧ (seq a).length < (seq b).length := by
  have hextends := ha.extends hb
  rcases hextends.length_le.lt_or_eq with hlt | heq
  · exact .inr ⟨hextends, hlt⟩
  · have hsame : seq b = seq a := (hextends.eq_of_length heq).symm
    exact .inl (List.inj_on_of_nodup_map hseq hb.mem ha.mem hsame)

end LongestPrefix
end OpenChess
