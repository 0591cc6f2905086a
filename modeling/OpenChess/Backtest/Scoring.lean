import OpenChess.Chess.Notation
import OpenChess.Lib.Assoc
import Mathlib.Data.Rat.Defs
import Mathlib.Tactic

/-!
# Band attenuation

Model of `g_attenuation` of `backtest/scoring.py` over exact rationals. The factor of the
band is applied to two weights, and then every weight is divided by the total.
-/

namespace OpenChess
namespace Scoring

/-- The names of the weights, in the order of the specification. -/
def theoryActivity : Text := "T_theory_activity".toList
def eliteAdoption : Text := "E_elite_adoption".toList
def engineDrift : Text := "D_engine_drift".toList
def ownResults : Text := "R_own_results".toList
def reviewAge : Text := "A_review_age".toList

abbrev Weights := List (Text × ℚ)

/-- The exceptions of the attenuation. -/
inductive Failure
  | keyError (name : Text)
  | zeroDivision
  deriving DecidableEq, Repr

def attenuation : List (Text × ℚ) :=
  [("2000-2199".toList, 3 / 5), ("1800-1999".toList, 2 / 5)]

/-- `w[name] *= factor`. -/
def scale (name : Text) (factor : ℚ) (w : Weights) : Except Failure Weights :=
  match w.lookup name with
  | none => .error (.keyError name)
  | some x => .ok (Assoc.assign w name (x * factor))

/-- `sum(w.values())`. -/
def total (w : Weights) : ℚ := (w.map Prod.snd).sum

/-- `g_attenuation`. -/
def gAttenuation (band : Text) (weights : Weights) : Except Failure Weights :=
  let factor := (attenuation.lookup band).getD 1
  match scale theoryActivity factor weights with
  | .error e => .error e
  | .ok w =>
    match scale eliteAdoption factor w with
    | .error e => .error e
    | .ok w =>
      if total w = 0 then .error .zeroDivision
      else .ok (w.map fun e => (e.1, e.2 / total w))

variable {name : Text} {factor x y : ℚ} {w w' out : Weights} {band : Text}

/-- The five weights, in any order, all positive and with the sum one. -/
structure Reference (w : Weights) : Prop where
  names : (w.map Prod.fst).Perm
    [theoryActivity, eliteAdoption, engineDrift, ownResults, reviewAge]
  positive : ∀ e ∈ w, 0 < e.2
  total : total w = 1

def value (w : Weights) (name : Text) : ℚ := (w.lookup name).getD 0

/-- The rule of the specification: two weights are multiplied by the factor, two are scaled
up by one common factor so that the sum is one, and the last is kept. -/
structure Follows (factor : ℚ) (w out : Weights) : Prop where
  theory : value out theoryActivity = factor * value w theoryActivity
  elite : value out eliteAdoption = factor * value w eliteAdoption
  age : value out reviewAge = value w reviewAge
  common : ∃ c, 1 ≤ c ∧ value out engineDrift = c * value w engineDrift ∧
    value out ownResults = c * value w ownResults
  total : total out = 1

/-! ### Totals -/

theorem total_assign (h : w.lookup name = some x) (y : ℚ) :
    total (Assoc.assign w name y) = total w - x + y := by
  induction w with
  | nil => cases h
  | cons e w ih =>
    rw [List.lookup_cons] at h
    rw [Assoc.assign]
    split_ifs with hname
    · rw [hname, beq_self_eq_true] at h
      obtain rfl := Option.some.inj h
      simp only [total, List.map_cons, List.sum_cons]
      ring
    · rw [beq_false_of_ne (Ne.symm hname)] at h
      have hrest := ih h
      simp only [total, List.map_cons, List.sum_cons] at hrest ⊢
      rw [hrest]
      ring

theorem lookup_map_div (w : Weights) (x : ℚ) (name : Text) :
    (w.map fun e => (e.1, e.2 / x)).lookup name = (w.lookup name).map (· / x) := by
  induction w with
  | nil => rfl
  | cons e w ih =>
    rw [List.map_cons, List.lookup_cons, List.lookup_cons]
    cases name == e.1 with
    | true => rfl
    | false => exact ih

theorem Reference.exists_lookup (h : Reference w) (name : Text)
    (hname : name ∈ [theoryActivity, eliteAdoption, engineDrift, ownResults, reviewAge]) :
    ∃ x, w.lookup name = some x ∧ 0 < x := by
  obtain ⟨x, hx⟩ := Dict.exists_lookup (h.names.mem_iff.mpr hname)
  exact ⟨x, hx, h.positive _ (Dict.mem_of_lookup hx)⟩

theorem total_pos (hne : w ≠ []) (h : ∀ e ∈ w, 0 < e.2) : 0 < total w := by
  refine List.sum_pos _ (fun x hx => ?_) (by simpa using hne)
  obtain ⟨e, he, rfl⟩ := List.mem_map.mp hx
  exact h e he

theorem scale_eq (h : w.lookup name = some x) (factor : ℚ) :
    scale name factor w = .ok (Assoc.assign w name (x * factor)) := by
  rw [scale, h]

theorem gAttenuation_of_lookup (hband : attenuation.lookup band = some factor)
    (hx : w.lookup theoryActivity = some x)
    (hy : (Assoc.assign w theoryActivity (x * factor)).lookup eliteAdoption = some y)
    (hne : total (Assoc.assign (Assoc.assign w theoryActivity (x * factor)) eliteAdoption
      (y * factor)) ≠ 0) :
    gAttenuation band w = .ok ((Assoc.assign (Assoc.assign w theoryActivity (x * factor))
      eliteAdoption (y * factor)).map fun e => (e.1, e.2 /
        total (Assoc.assign (Assoc.assign w theoryActivity (x * factor)) eliteAdoption
          (y * factor)))) := by
  simp only [gAttenuation, hband, Option.getD_some, scale_eq hx, scale_eq hy, if_neg hne]

theorem attenuated (h : attenuation.lookup band = some factor) : 0 < factor ∧ factor < 1 := by
  have hmem : factor ∈ attenuation.map Prod.snd := List.mem_map_of_mem (Dict.mem_of_lookup h)
  simp only [attenuation, List.map_cons, List.map_nil, List.mem_cons, List.not_mem_nil,
    or_false] at hmem
  obtain rfl | rfl := hmem <;> norm_num

theorem gAttenuation_eq (hband : attenuation.lookup band = some factor) (h : Reference w) :
    ∃ left out, 0 < left ∧ left < 1 ∧ gAttenuation band w = .ok out ∧
      value out reviewAge = value w reviewAge / left := by
  obtain ⟨hpos, hlt⟩ := attenuated hband
  obtain ⟨x, hx, hx0⟩ := h.exists_lookup theoryActivity (by simp)
  obtain ⟨y, hy, hy0⟩ := h.exists_lookup eliteAdoption (by simp)
  obtain ⟨z, hz, -⟩ := h.exists_lookup reviewAge (by simp)
  have hnames : eliteAdoption ≠ theoryActivity ∧ reviewAge ≠ theoryActivity ∧
      reviewAge ≠ eliteAdoption := by decide
  obtain ⟨het, hat, hae⟩ := hnames
  have hy' : (Assoc.assign w theoryActivity (x * factor)).lookup eliteAdoption = some y := by
    rw [Assoc.lookup_assign, if_neg het, hy]
  have htotal : total (Assoc.assign (Assoc.assign w theoryActivity (x * factor)) eliteAdoption
      (y * factor)) = 1 - (1 - factor) * (x + y) := by
    rw [total_assign hy', total_assign hx, h.total]
    ring
  have hloss : 0 < (1 - factor) * (x + y) := by
    have hrest : 0 < 1 - factor := by linarith
    positivity
  have hleft : 0 < total (Assoc.assign (Assoc.assign w theoryActivity (x * factor))
      eliteAdoption (y * factor)) := by
    refine total_pos (fun hnil => ?_) fun e he => ?_
    · have hfound : ([] : Weights).lookup eliteAdoption = some (y * factor) := by
        rw [← hnil, Assoc.lookup_assign, if_pos rfl]
      cases hfound
    · obtain rfl | he := Assoc.mem_of_mem_assign he
      · positivity
      · obtain rfl | he := Assoc.mem_of_mem_assign he
        · positivity
        · exact h.positive e he
  have hless : total (Assoc.assign (Assoc.assign w theoryActivity (x * factor))
      eliteAdoption (y * factor)) < 1 := by
    linarith
  have hout := gAttenuation_of_lookup hband hx hy' hleft.ne'
  refine ⟨_, _, hleft, hless, hout, ?_⟩
  rw [value, value, lookup_map_div, Assoc.lookup_assign, if_neg hae, Assoc.lookup_assign,
    if_neg hat, hz]
  rfl

/-- On no reference weights does an attenuated band follow the rule: the last weight is
always scaled up with the others. -/
theorem gAttenuation_breaks_rule (band : Text) (factor : ℚ) (w : Weights)
    (hband : attenuation.lookup band = some factor) (h : Reference w) :
    ∃ out, gAttenuation band w = .ok out ∧ ¬ Follows factor w out := by
  obtain ⟨left, out, hpos, hlt, hout, hage⟩ := gAttenuation_eq hband h
  obtain ⟨z, hz, hz0⟩ := h.exists_lookup reviewAge (by simp)
  refine ⟨out, hout, fun hfollows => ?_⟩
  have hvalue : value w reviewAge = z := by rw [value, hz, Option.getD_some]
  have hkept : z / left = z := by rw [← hvalue, ← hage, hfollows.age]
  rw [div_eq_iff hpos.ne'] at hkept
  have hone : left = 1 := mul_left_cancel₀ hz0.ne' (by rw [← hkept, mul_one])
  exact absurd hone hlt.ne

/-- The weights of the specification. -/
def weightsReference : Weights :=
  [(theoryActivity, 3 / 20), (eliteAdoption, 1 / 5), (engineDrift, 1 / 5), (ownResults, 1 / 4),
    (reviewAge, 1 / 5)]

theorem reference_weightsReference : Reference weightsReference := by
  refine ⟨List.Perm.refl _, ?_, ?_⟩
  · norm_num [weightsReference]
  · norm_num [total, weightsReference]

theorem gAttenuation_breaks_rule_1800 :
    ∃ out, gAttenuation "1800-1999".toList weightsReference = .ok out ∧
      ¬ Follows (2 / 5) weightsReference out :=
  gAttenuation_breaks_rule _ _ _ (by rfl) reference_weightsReference

/-- Below 2000 the weight of the review age is 20/79 and not 1/5. -/
theorem age_scaled_up : ∃ out, gAttenuation "1800-1999".toList weightsReference = .ok out ∧
    value out reviewAge = 20 / 79 ∧ ¬ Follows (2 / 5) weightsReference out := by
  have hband : attenuation.lookup "1800-1999".toList = some (2 / 5) := by rfl
  have hx : weightsReference.lookup theoryActivity = some (3 / 20) := by rfl
  have hy : (Assoc.assign weightsReference theoryActivity (3 / 20 * (2 / 5))).lookup
      eliteAdoption = some (1 / 5) := by rfl
  have hz : (Assoc.assign (Assoc.assign weightsReference theoryActivity (3 / 20 * (2 / 5)))
      eliteAdoption (1 / 5 * (2 / 5))).lookup reviewAge = some (1 / 5) := by rfl
  have htotal : total (Assoc.assign (Assoc.assign weightsReference theoryActivity
      (3 / 20 * (2 / 5))) eliteAdoption (1 / 5 * (2 / 5))) = 79 / 100 := by
    rw [total_assign hy, total_assign hx, reference_weightsReference.total]
    norm_num
  have hout := gAttenuation_of_lookup hband hx hy (by rw [htotal]; norm_num)
  have hage : value weightsReference reviewAge = 1 / 5 := by rfl
  rw [htotal] at hout
  refine ⟨_, hout, ?_, fun hfollows => ?_⟩
  · rw [value, lookup_map_div, hz, Option.map_some, Option.getD_some]
    norm_num
  · have hkept := hfollows.age
    rw [hage, value, lookup_map_div, hz, Option.map_some, Option.getD_some] at hkept
    norm_num at hkept

end Scoring
end OpenChess
