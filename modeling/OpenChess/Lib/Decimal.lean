import Mathlib.Data.Char
import Mathlib.Data.List.Basic
import Mathlib.Data.List.Forall2
import Mathlib.Data.Nat.Init
import Mathlib.Tactic.Ring

/-!
# Decimal digits of the Unicode character set

The characters of category Nd come in blocks of ten, from the zero to the nine
of a script. A pattern `\d` matches each of them and an integer conversion reads
each by its place in its block. The table is that of Unicode 15.
-/

namespace OpenChess
namespace Decimal

/-- Code points of the zeros. -/
def zeros : List ℕ :=
  [0x30, 0x660, 0x6f0, 0x7c0, 0x966, 0x9e6, 0xa66, 0xae6, 0xb66, 0xbe6, 0xc66, 0xce6, 0xd66,
    0xde6, 0xe50, 0xed0, 0xf20, 0x1040, 0x1090, 0x17e0, 0x1810, 0x1946, 0x19d0, 0x1a80, 0x1a90,
    0x1b50, 0x1bb0, 0x1c40, 0x1c50, 0xa620, 0xa8d0, 0xa900, 0xa9d0, 0xa9f0, 0xaa50, 0xabf0,
    0xff10, 0x104a0, 0x10d30, 0x11066, 0x110f0, 0x11136, 0x111d0, 0x112f0, 0x11450, 0x114d0,
    0x11650, 0x116c0, 0x11730, 0x118e0, 0x11950, 0x11c50, 0x11d50, 0x11da0, 0x11f50, 0x16a60,
    0x16ac0, 0x16b50, 0x1d7ce, 0x1d7d8, 0x1d7e2, 0x1d7ec, 0x1d7f6, 0x1e140, 0x1e2f0, 0x1e4f0,
    0x1e950, 0x1fbf0]

/-- The value of a decimal digit. -/
def digit? (c : Char) : Option ℕ :=
  (zeros.find? fun z => decide (z ≤ c.toNat ∧ c.toNat < z + 10)).map fun z => c.toNat - z

def script? (c : Char) : Option ℕ :=
  zeros.find? fun z => decide (z ≤ c.toNat ∧ c.toNat < z + 10)

/-- The number a nonempty run of decimal digits stands for. -/
def readNat : List Char → Option ℕ
  | [] => none
  | t => t.foldlM (fun n c => (digit? c).map fun d => 10 * n + d) 0

/-! ### Written numbers -/

theorem digit_of_isDigit {c : Char} (h : c.isDigit = true) : ∃ d < 10, d.digitChar = c := by
  have hrange : 48 ≤ c.toNat ∧ c.toNat ≤ 57 := Char.isDigit_iff_toNat.mp h
  have hchar : ∀ d : ℕ, d < 10 → d.digitChar = Char.ofNat (48 + d) := by decide
  refine ⟨c.toNat - 48, by omega, ?_⟩
  rw [hchar _ (by omega), show 48 + (c.toNat - 48) = c.toNat by omega, Char.ofNat_toNat]

/-- The written form of a positive number has no leading zero. -/
theorem head_toDigits {n : ℕ} (hn : 0 < n) :
    ∃ d, 0 < d ∧ d < 10 ∧ ∃ t, Nat.toDigits 10 n = d.digitChar :: t := by
  induction n using Nat.strong_induction_on with
  | _ n ih =>
    by_cases h : n < 10
    · exact ⟨n, hn, h, [], Nat.toDigits_of_lt_base h⟩
    · obtain ⟨d, hd, hd10, t, ht⟩ := ih (n / 10) (by omega) (by omega)
      refine ⟨d, hd, hd10, t ++ [(n % 10).digitChar], ?_⟩
      rw [Nat.toDigits_of_base_le (by decide) (by omega), ht]
      rfl

/-- Digits appended to a positive number write a positive number. -/
theorem exists_toDigits_append {n : ℕ} (hn : 0 < n) {t : List Char}
    (ht : t.all Char.isDigit = true) :
    ∃ m, 0 < m ∧ Nat.toDigits 10 m = Nat.toDigits 10 n ++ t := by
  induction t generalizing n with
  | nil => exact ⟨n, hn, (List.append_nil _).symm⟩
  | cons c t ih =>
    rw [List.all_cons, Bool.and_eq_true] at ht
    obtain ⟨d, hd, rfl⟩ := digit_of_isDigit ht.1
    obtain ⟨m, hm, htext⟩ := ih (n := 10 * n + d) (by omega) ht.2
    refine ⟨m, hm, htext.trans ?_⟩
    rw [← Nat.toDigits_append_toDigits (by decide) hn hd, Nat.toDigits_of_lt_base hd,
      List.append_assoc]
    rfl

/-! ### Runs of digits and separators -/

variable {a b c : Char} {t u : List Char} {d m n : ℕ}

theorem digit?_eq_some (h : digit? c = some d) :
    ∃ z, script? c = some z ∧ c.toNat = z + d ∧ d < 10 := by
  obtain ⟨z, hz, rfl⟩ := Option.map_eq_some_iff.mp h
  have hrange : z ≤ c.toNat ∧ c.toNat < z + 10 := by simpa using List.find?_some hz
  exact ⟨z, hz, by omega, by omega⟩

/-- The number written by the digits of a text, appended to `n`. -/
def stampFrom (n : ℕ) (t : List Char) : ℕ :=
  t.foldl (fun n c => match digit? c with | some d => 10 * n + d | none => n) n

theorem stampFrom_append (n : ℕ) (t u : List Char) :
    stampFrom n (t ++ u) = stampFrom (stampFrom n t) u := List.foldl_append

theorem stampFrom_cons_digit (h : digit? c = some d) :
    stampFrom n (c :: t) = stampFrom (10 * n + d) t := by
  simp only [stampFrom, List.foldl_cons, h]

theorem stampFrom_cons_separator (h : digit? c = none) : stampFrom n (c :: t) = stampFrom n t := by
  simp only [stampFrom, List.foldl_cons, h]

def Aligned : List Char → List Char → Prop :=
  List.Forall₂ fun a b => a = b ∨ ((digit? a).isSome ∧ (digit? b).isSome)

/-- The texts are equal, or first differ at characters of one script. -/
def SameScript : List Char → List Char → Prop
  | a :: t, b :: u => if a = b then SameScript t u else script? a = script? b
  | _, _ => True

instance decidableSameScript : (t u : List Char) → Decidable (SameScript t u)
  | [], _ => .isTrue trivial
  | _ :: _, [] => .isTrue trivial
  | a :: t, b :: u =>
    if h : a = b then
      have := decidableSameScript t u
      decidable_of_iff (SameScript t u) (by simp only [SameScript, if_pos h])
    else decidable_of_iff (script? a = script? b) (by simp only [SameScript, if_neg h])

theorem stampFrom_lt (h : Aligned t u) (hmn : m < n) : stampFrom m u < stampFrom n t := by
  induction h generalizing m n with
  | nil => exact hmn
  | @cons a b t u hab _ ih =>
    rcases hab with rfl | ⟨ha, hb⟩
    · cases hd : digit? a with
      | none =>
        rw [stampFrom_cons_separator hd, stampFrom_cons_separator hd]
        exact ih hmn
      | some d =>
        rw [stampFrom_cons_digit hd, stampFrom_cons_digit hd]
        exact ih (by omega)
    · obtain ⟨d, hd⟩ := Option.isSome_iff_exists.mp ha
      obtain ⟨e, he⟩ := Option.isSome_iff_exists.mp hb
      obtain ⟨-, -, -, he10⟩ := digit?_eq_some he
      rw [stampFrom_cons_digit hd, stampFrom_cons_digit he]
      exact ih (by omega)

/-- Between aligned texts of one script the order of the code points is the
order of the numbers. -/
theorem stampFrom_le (h : Aligned t u) (hscript : SameScript t u) (hle : ¬ t < u) :
    stampFrom n u ≤ stampFrom n t := by
  induction h generalizing n with
  | nil => exact le_refl _
  | @cons a b t u hab haligned ih =>
    rw [List.cons_lt_cons_iff, not_or, not_and] at hle
    by_cases heq : a = b
    · subst heq
      have hscript' : SameScript t u := by simpa only [SameScript, if_true] using hscript
      have hih := fun n => ih (n := n) hscript' (hle.2 rfl)
      cases hd : digit? a with
      | none =>
        rw [stampFrom_cons_separator hd, stampFrom_cons_separator hd]
        exact hih n
      | some d =>
        rw [stampFrom_cons_digit hd, stampFrom_cons_digit hd]
        exact hih _
    · obtain ⟨ha, hb⟩ := hab.resolve_left heq
      obtain ⟨d, hd⟩ := Option.isSome_iff_exists.mp ha
      obtain ⟨e, he⟩ := Option.isSome_iff_exists.mp hb
      obtain ⟨z, hz, had, hd10⟩ := digit?_eq_some hd
      obtain ⟨z', hz', hbe, he10⟩ := digit?_eq_some he
      simp only [SameScript, if_neg heq, hz, hz', Option.some.injEq] at hscript
      have hlt : b.toNat < a.toNat := by
        have hne : b ≠ a := fun h => heq h.symm
        exact lt_of_le_of_ne (not_lt.mp hle.1) fun h => hne (Char.toNat_inj.mp h)
      rw [stampFrom_cons_digit hd, stampFrom_cons_digit he]
      exact (stampFrom_lt haligned (by omega)).le

/-- A text of digits is read by place value. -/
theorem stampFrom_digits (h : ∀ c ∈ t, (digit? c).isSome) :
    stampFrom n t = n * 10 ^ t.length + stampFrom 0 t ∧ stampFrom 0 t < 10 ^ t.length := by
  induction t generalizing n with
  | nil => simp [stampFrom]
  | cons c t ih =>
    rw [List.forall_mem_cons] at h
    obtain ⟨d, hd⟩ := Option.isSome_iff_exists.mp h.1
    obtain ⟨-, -, -, hd10⟩ := digit?_eq_some hd
    have hn := (ih h.2 (n := 10 * n + d)).1
    obtain ⟨hzero, hlt⟩ := ih h.2 (n := 10 * 0 + d)
    have hmul : d * 10 ^ t.length ≤ 9 * 10 ^ t.length := Nat.mul_le_mul_right _ (by omega)
    rw [stampFrom_cons_digit hd, stampFrom_cons_digit hd, hn, hzero, List.length_cons, pow_succ,
      Nat.mul_zero, Nat.zero_add]
    exact ⟨by ring, by omega⟩

theorem foldlM_digits (h : t.foldlM (fun n c => (digit? c).map fun d => 10 * n + d) n = some m) :
    (∀ c ∈ t, (digit? c).isSome) ∧ stampFrom n t = m := by
  induction t generalizing n with
  | nil =>
    cases h
    exact ⟨fun c hc => (by cases hc), rfl⟩
  | cons c t ih =>
    rw [List.foldlM_cons] at h
    cases hd : digit? c with
    | none =>
      rw [hd] at h
      cases h
    | some d =>
      rw [hd] at h
      obtain ⟨hall, hstamp⟩ := ih h
      rw [stampFrom_cons_digit hd]
      exact ⟨List.forall_mem_cons.mpr ⟨by rw [hd]; rfl, hall⟩, hstamp⟩

theorem readNat_eq_some (h : readNat t = some m) :
    (∀ c ∈ t, (digit? c).isSome) ∧ stampFrom 0 t = m := by
  cases t with
  | nil => cases h
  | cons c t => exact foldlM_digits h

theorem Aligned.append {t' u' : List Char} (h : Aligned t u) (h' : Aligned t' u') :
    Aligned (t ++ t') (u ++ u') := List.rel_append h h'

/-- Digit texts of one length are aligned. -/
theorem aligned_digits (ht : ∀ c ∈ t, (digit? c).isSome) (hu : ∀ c ∈ u, (digit? c).isSome)
    (hlength : t.length = u.length) : Aligned t u := by
  induction t generalizing u with
  | nil =>
    rw [List.length_eq_zero_iff.mp hlength.symm]
    exact .nil
  | cons a t ih =>
    cases u with
    | nil => cases hlength
    | cons b u =>
      rw [List.forall_mem_cons] at ht hu
      exact .cons (.inr ⟨ht.1, hu.1⟩) (ih ht.2 hu.2 (Nat.succ.inj hlength))

theorem aligned_refl (t : List Char) : Aligned t t := List.forall₂_same.mpr fun _ _ => .inl rfl

end Decimal
end OpenChess
