import OpenChess.Chess.Value
import OpenChess.Lib.Hex
import Mathlib.Data.Char
import Mathlib.Data.Finset.Basic
import Mathlib.Data.Int.Log
import Mathlib.Data.Rat.Floor
import Mathlib.Tactic

/-!
# The evaluation split

Model of `repertoire_split` of `backtest/calibration.py`. The ids are sorted by a seeded
hash and cut at a position of the list, so that an id that is repeated in the list may end
up on both sides of the cut.
-/

namespace OpenChess
namespace Calibration

/-- Rounding to the nearest integer, a tie to the even one. -/
def roundEven (q : ℚ) : ℤ :=
  if q - ⌊q⌋ < 1 / 2 then ⌊q⌋
  else if 1 / 2 < q - ⌊q⌋ then ⌊q⌋ + 1
  else if ⌊q⌋ % 2 = 0 then ⌊q⌋ else ⌊q⌋ + 1

/-- The float nearest to a positive number. Below the normal floats the grid is finer here,
where every product is rounded to zero in the end. -/
def nearestFloat (q : ℚ) : ℚ :=
  let unit := (2 : ℚ) ^ (Int.log 2 q - 52)
  roundEven (q / unit) * unit

structure Split where
  train : Finset Text
  heldOut : Finset Text
  seed : ℤ

def digest (sha : Hex.Hash 64) (seed : ℤ) (rid : Text) : Text :=
  sha.hexdigest (intText seed ++ ':' :: rid)

/-- `n_held`. -/
def nHeld (n : ℕ) (fraction : ℚ) : ℕ :=
  if n = 0 then 0 else (max 1 (roundEven (nearestFloat (nearestFloat n * fraction)))).toNat

def keyed (sha : Hex.Hash 64) (seed : ℤ) (ids : List Text) : List Text :=
  ids.insertionSort fun rid rid' => digest sha seed rid ≤ digest sha seed rid'

/-- `repertoire_split`; a fraction outside the open interval is a `ValueError`. -/
def repertoireSplit (sha : Hex.Hash 64) (ids : List Text) (seed : ℤ) (fraction : ℚ) :
    Option Split :=
  if 0 < fraction ∧ fraction < 1 then
    let n := nHeld ids.length fraction
    some ⟨((keyed sha seed ids).drop n).toFinset, ((keyed sha seed ids).take n).toFinset, seed⟩
  else none

variable {sha : Hex.Hash 64} {seed : ℤ} {ids : List Text} {n : ℕ}

/-- The split is one of the ids: each is on one side. -/
def Partitions (ids : List Text) (s : Split) : Prop :=
  Disjoint s.train s.heldOut ∧ s.train ∪ s.heldOut = ids.toFinset

/-! ### Rounding -/

theorem abs_roundEven_sub_le (q : ℚ) : |(roundEven q : ℚ) - q| ≤ 1 / 2 := by
  have hfloor := Int.floor_le q
  have hlt := Int.lt_floor_add_one q
  unfold roundEven
  rw [abs_le]
  split_ifs with hdown hup heven
  · constructor <;> linarith
  · push_cast
    constructor <;> linarith
  · constructor <;> linarith
  · push_cast
    constructor <;> linarith

theorem roundEven_eq {q : ℚ} {n : ℤ} (h : |q - n| < 1 / 2) : roundEven q = n := by
  have hround := abs_roundEven_sub_le q
  have hclose : |(roundEven q : ℚ) - n| < 1 := by
    calc |(roundEven q : ℚ) - n| = |((roundEven q : ℚ) - q) + (q - n)| := by ring_nf
      _ ≤ |(roundEven q : ℚ) - q| + |q - n| := abs_add_le _ _
      _ < 1 := by linarith
  have hint : |roundEven q - n| < 1 := by exact_mod_cast hclose
  rw [Int.abs_lt_one_iff] at hint
  omega

theorem abs_nearestFloat_sub_le {q : ℚ} (hq : 0 < q) :
    |nearestFloat q - q| ≤ q / 2 ^ 53 := by
  set unit : ℚ := 2 ^ (Int.log 2 q - 52) with hunit
  have hpos : 0 < unit := zpow_pos two_pos _
  have hle : unit ≤ q / 2 ^ 52 := by
    have hlog : (2 : ℚ) ^ Int.log 2 q ≤ q := by
      simpa using Int.zpow_log_le_self (R := ℚ) one_lt_two hq
    rw [hunit, zpow_sub₀ two_ne_zero]
    exact div_le_div_of_nonneg_right hlog (by positivity)
  have hsplit : nearestFloat q - q = ((roundEven (q / unit) : ℚ) - q / unit) * unit := by
    rw [sub_mul, div_mul_cancel₀ _ hpos.ne']
    rfl
  calc |nearestFloat q - q| = |(roundEven (q / unit) : ℚ) - q / unit| * unit := by
        rw [hsplit, abs_mul, abs_of_pos hpos]
    _ ≤ 1 / 2 * unit := mul_le_mul_of_nonneg_right (abs_roundEven_sub_le _) hpos.le
    _ ≤ 1 / 2 * (q / 2 ^ 52) := by linarith
    _ = q / 2 ^ 53 := by ring

/-- A product of floats that should be an integer `k` is near to it. -/
theorem abs_product_sub_le {a b c k n : ℚ} (hk : 0 < k) (hn : 0 < n)
    (ha : |a - n| ≤ n / 2 ^ 53) (hb : |b - k / n| ≤ k / n / 2 ^ 53)
    (hc : |c - a * b| ≤ a * b / 2 ^ 53) : |c - k| ≤ k * 8 / 2 ^ 53 := by
  rw [abs_le] at ha hb hc
  obtain ⟨x, rfl⟩ : ∃ x, a = n * (1 + x) := ⟨a / n - 1, by field_simp; ring⟩
  obtain ⟨y, rfl⟩ : ∃ y, b = k / n * (1 + y) := ⟨b / (k / n) - 1, by field_simp; ring⟩
  have hproduct : n * (1 + x) * (k / n * (1 + y)) = k * ((1 + x) * (1 + y)) := by
    field_simp
  have hx : |x| ≤ 1 / 2 ^ 53 := by
    rw [abs_le]
    constructor <;> nlinarith
  have hkn : 0 < k / n := div_pos hk hn
  have hy : |y| ≤ 1 / 2 ^ 53 := by
    rw [abs_le]
    constructor <;> nlinarith
  rw [hproduct] at hc
  rw [abs_le] at hx hy ⊢
  have hxy : -(1 / 2 ^ 53) ≤ x * y ∧ x * y ≤ (1 : ℚ) / 2 ^ 53 := by
    constructor <;> nlinarith
  constructor <;> nlinarith

theorem exists_fraction {k : ℕ} (hk : 0 < k) (hkn : k < n) (hn : n ≤ 2 ^ 48) :
    0 < nearestFloat (k / n) ∧ nearestFloat (k / n) < 1 ∧
      nHeld n (nearestFloat (k / n)) = k := by
  have hk' : (1 : ℚ) ≤ k := by exact_mod_cast hk
  have hkn' : (k : ℚ) + 1 ≤ n := by exact_mod_cast hkn
  have hn' : (n : ℚ) ≤ 2 ^ 48 := by exact_mod_cast hn
  have hnpos : (0 : ℚ) < n := by linarith
  have hquotient : (0 : ℚ) < k / n := div_pos (by linarith) hnpos
  have ha := abs_nearestFloat_sub_le hnpos
  have hb := abs_nearestFloat_sub_le hquotient
  have hbelow : (k : ℚ) / n ≤ 1 - 1 / 2 ^ 48 := by
    rw [div_le_iff₀ hnpos]
    nlinarith
  have hapos : 0 < nearestFloat n := by
    rw [abs_le] at ha
    linarith
  have hbpos : 0 < nearestFloat (k / n) := by
    rw [abs_le] at hb
    linarith
  have hb1 : nearestFloat (k / n) < 1 := by
    rw [abs_le] at hb
    linarith
  have hclose := abs_product_sub_le (by linarith) hnpos ha hb
    (abs_nearestFloat_sub_le (mul_pos hapos hbpos))
  have hround : roundEven (nearestFloat (nearestFloat n * nearestFloat (k / n))) = (k : ℤ) := by
    refine roundEven_eq (lt_of_le_of_lt ?_ (show (k : ℚ) * 8 / 2 ^ 53 < 1 / 2 by linarith))
    exact_mod_cast hclose
  refine ⟨hbpos, hb1, ?_⟩
  rw [nHeld, if_neg (by omega), hround, max_eq_right (by omega), Int.toNat_natCast]

/-! ### Repeated ids -/

theorem disjoint_sides (hnodup : ids.Nodup) :
    Disjoint ((keyed sha seed ids).drop n).toFinset ((keyed sha seed ids).take n).toFinset := by
  have hkeyed : (keyed sha seed ids).Nodup :=
    (List.perm_insertionSort _ ids).nodup_iff.mpr hnodup
  rw [Finset.disjoint_left]
  intro rid hdrop htake
  exact List.disjoint_take_drop hkeyed le_rfl (List.mem_toFinset.mp htake)
    (List.mem_toFinset.mp hdrop)

theorem exists_cut (hrepeated : ¬ ids.Nodup) : ∃ k, 0 < k ∧ k < ids.length ∧
    ∃ rid, rid ∈ (keyed sha seed ids).drop k ∧ rid ∈ (keyed sha seed ids).take k := by
  have hperm : (keyed sha seed ids).Perm ids := List.perm_insertionSort _ ids
  rw [← hperm.nodup_iff, List.nodup_iff_getElem?_ne_getElem?] at hrepeated
  push Not at hrepeated
  obtain ⟨i, j, hij, hj, hsame⟩ := hrepeated
  refine ⟨j, by omega, hperm.length_eq ▸ hj, (keyed sha seed ids)[j], ?_, ?_⟩
  · rw [List.drop_eq_getElem_cons hj]
    exact List.mem_cons_self
  · rw [List.getElem?_eq_getElem hj, List.getElem?_eq_getElem (hij.trans hj),
      Option.some.injEq] at hsame
    rw [← hsame]
    exact List.mem_take_iff_getElem.mpr ⟨i, by omega, rfl⟩

/-- The split of a list without repetitions is one of its ids, whatever the hash, the seed and the
fraction. A list with a repeated id, of any length that fits into a memory, is split at some
fraction so that an id is on both sides. -/
theorem partitions_iff_nodup (sha : Hex.Hash 64) (ids : List Text) (seed : ℤ) :
    (ids.Nodup → ∀ fraction, 0 < fraction → fraction < 1 →
      ∃ s, repertoireSplit sha ids seed fraction = some s ∧ Partitions ids s) ∧
    (¬ ids.Nodup → ids.length ≤ 2 ^ 48 → ∃ q, 0 < nearestFloat q ∧ nearestFloat q < 1 ∧
      ∃ s, repertoireSplit sha ids seed (nearestFloat q) = some s ∧ ¬ Partitions ids s) := by
  constructor
  · intro hnodup fraction hpos hlt
    refine ⟨_, if_pos ⟨hpos, hlt⟩, disjoint_sides hnodup, ?_⟩
    rw [Finset.union_comm, ← List.toFinset_append, List.take_append_drop]
    exact List.toFinset_eq_of_perm _ _ (List.perm_insertionSort _ ids)
  · intro hrepeated hlength
    obtain ⟨k, hk, hkn, rid, hdrop, htake⟩ := exists_cut hrepeated
    obtain ⟨hpos, hlt, hheld⟩ := exists_fraction hk hkn hlength
    refine ⟨k / ids.length, hpos, hlt, _, if_pos ⟨hpos, hlt⟩, fun hparts => ?_⟩
    rw [hheld] at hparts
    exact Finset.disjoint_left.mp hparts.1 (List.mem_toFinset.mpr hdrop)
      (List.mem_toFinset.mpr htake)

/-! ### Two short lists -/

theorem roundEven_intCast (n : ℤ) : roundEven n = n := by
  simp [roundEven]

theorem nearestFloat_one : nearestFloat 1 = 1 := by
  have hunits : (1 : ℚ) / 2 ^ ((0 : ℤ) - 52) = ((4503599627370496 : ℤ) : ℚ) := by norm_num
  simp only [nearestFloat, Int.log_one_right, hunits, roundEven_intCast]
  norm_num

theorem nearestFloat_two : nearestFloat 2 = 2 := by
  have hlog : Int.log 2 (2 : ℚ) = 1 := by
    have h := Int.log_zpow (R := ℚ) (b := 2) one_lt_two 1
    simpa using h
  have hunits : (2 : ℚ) / 2 ^ ((1 : ℤ) - 52) = ((4503599627370496 : ℤ) : ℚ) := by norm_num
  simp only [nearestFloat, hlog, hunits, roundEven_intCast]
  norm_num

theorem nHeld_two : nHeld 2 (1 / 2) = 1 := by
  have hproduct : nearestFloat (2 : ℕ) * (1 / 2) = 1 := by
    rw [Nat.cast_ofNat, nearestFloat_two]
    norm_num
  have hround : roundEven 1 = 1 := by
    simpa using roundEven_intCast 1
  rw [nHeld, if_neg two_ne_zero, hproduct, nearestFloat_one, hround]
  rfl

/-- A list of two ids is partitioned, and some fraction parts an id of a list that has it twice. -/
theorem partitions_iff_nodup_two :
    (∃ s, repertoireSplit (Hex.Hash.lengths 64) [['a'], ['b', 'b']] 0 (1 / 2) = some s ∧
      Partitions [['a'], ['b', 'b']] s) ∧
    ∃ fraction s, repertoireSplit (Hex.Hash.lengths 64) [['a'], ['b', 'b'], ['a']] 0 fraction =
      some s ∧ ¬ Partitions [['a'], ['b', 'b'], ['a']] s := by
  refine ⟨(partitions_iff_nodup (Hex.Hash.lengths 64) _ 0).1 (by decide) (1 / 2) (by norm_num)
    (by norm_num), ?_⟩
  obtain ⟨q, -, -, s, hs, hparts⟩ :=
    (partitions_iff_nodup (Hex.Hash.lengths 64) [['a'], ['b', 'b'], ['a']] 0).2 (by decide)
      (by norm_num)
  exact ⟨_, s, hs, hparts⟩

/-- With no hash is a list partitioned that has one id twice: it is on both sides. -/
theorem split_leaks : ¬ ∃ (sha : Hex.Hash 64) (s : Split),
    repertoireSplit sha [['a'], ['a']] 0 (1 / 2) = some s ∧ Partitions [['a'], ['a']] s := by
  rintro ⟨sha, s, hs, hparts⟩
  have hfraction : (0 : ℚ) < 1 / 2 ∧ (1 : ℚ) / 2 < 1 := by norm_num
  have hkeyed : keyed sha 0 [['a'], ['a']] = [['a'], ['a']] := by
    simp [keyed]
  obtain rfl := Option.some.inj ((if_pos hfraction).symm.trans hs)
  rw [show [['a'], ['a']].length = 2 from rfl, nHeld_two, hkeyed] at hparts
  have hdisjoint := Finset.disjoint_left.mp hparts.1
  exact hdisjoint (a := ['a']) (by simp) (by simp)

end Calibration
end OpenChess
