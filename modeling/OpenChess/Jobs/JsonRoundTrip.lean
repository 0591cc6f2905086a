import OpenChess.Jobs.JsonInjective
import OpenChess.Jobs.JsonLoads
import OpenChess.Lib.LineText

/-!
# JSON round trips

Model of `json.dumps` with members in their order. With or without blanks after the separators,
and in ASCII or not, an exact value is read back from its text; so the canonical text of a value is
read back as its copy, and two values with one canonical text have one copy.
-/

namespace OpenChess
namespace Json

/-! ### Texts -/

/-- What follows a separator. -/
def blank (wide : Bool) : Text := if wide then [' '] else []

def comma (wide : Bool) : Text := ',' :: blank wide

section Texts

variable (ascii wide : Bool)

mutual

/-- `json.dumps` with members in their order; `wide` is a blank after each separator. -/
def encode : Value → Text
  | .null => "null".toList
  | .bool b => if b then "true".toList else "false".toList
  | .int n => intText n
  | .float _ text => text
  | .str t => quoted ascii t
  | .list items => '[' :: ((comma wide).intercalate (encodeItems items) ++ [']'])
  | .dict entries => Char.ofNat 0x7b ::
      ((comma wide).intercalate (encodeMembers entries) ++ [Char.ofNat 0x7d])
  | .foreign _ => []

def encodeItems : List Value → List Text
  | [] => []
  | v :: items => encode v :: encodeItems items

def encodeMembers : List (Scalar × Value) → List Text
  | [] => []
  | (k, v) :: entries =>
    (quoted ascii (keyText k) ++ ':' :: (blank wide ++ encode v)) :: encodeMembers entries

end

/-- `json.dumps` as it is called without options. -/
def spaced : Value → Text := encode true true

end Texts

/-- Exact JSON with finite floats, and texts as distinct keys. -/
inductive Exact : Value → Prop
  | null : Exact .null
  | bool (b : Bool) : Exact (.bool b)
  | int (n : ℤ) : Exact (.int n)
  | float (t : Text) (h : FloatText t) : Exact (.float true t)
  | str (t : Text) : Exact (.str t)
  | list (items : List Value) (hitems : ∀ v ∈ items, Exact v) : Exact (.list items)
  | dict (members : List (Text × Value)) (hkeys : (members.map Prod.fst).Nodup)
      (hmembers : ∀ e ∈ members, Exact e.2) : Exact (.ofMembers members)

theorem exact_object {names : List Text} {values : List Value} (hnodup : names.Nodup)
    (hlength : names.length = values.length) (h : ∀ v ∈ values, Exact v) :
    Exact (.object names values) := by
  refine .dict _ ?_ fun e he => h e.2 (List.of_mem_zip he).2
  rwa [List.map_fst_zip (le_of_eq hlength)]

def Stops (rest : Text) : Prop :=
  ∀ d t, rest = d :: t → d.isDigit = false ∧ d ≠ '.' ∧ d ≠ 'e' ∧ d ≠ 'E'

variable {a w : Bool} {t t' r rest : Text} {v : Value} {n : ℕ} {c : Char}
  {entries : List (Scalar × Value)} {items : List Value}

theorem encodeItems_eq (items : List Value) : encodeItems a w items = items.map (encode a w) := by
  induction items with
  | nil => rfl
  | cons v items ih => rw [encodeItems, ih, List.map_cons]

def member (a w : Bool) (e : Scalar × Value) : Text :=
  quoted a (keyText e.1) ++ ':' :: (blank w ++ encode a w e.2)

theorem encodeMembers_eq (entries : List (Scalar × Value)) :
    encodeMembers a w entries = entries.map (member a w) := by
  induction entries with
  | nil => rfl
  | cons e entries ih =>
    rw [encodeMembers, ih]
    rfl

theorem intercalate_comma (w : Bool) (x : Text) (xs : List Text) :
    (comma w).intercalate (x :: xs) = x ++ xs.flatMap (comma w ++ ·) := by
  induction xs generalizing x with
  | nil => simp
  | cons y xs ih => rw [List.intercalate_cons_cons, ih, List.flatMap_cons, List.append_assoc,
      List.append_assoc]

/-! ### Strings -/

theorem scanString_append (c : Char) (t : Text) (n : ℕ) :
    scanString (n + 1) (escape a c ++ t) = (scanString n t).map fun r => (c :: r.1, r.2) := by
  by_cases hplain : a = false ∨ c.toNat < 0x7f
  · have hsame : escape a c = escape false c := by
      unfold escape
      simp [hplain]
    rw [hsame, scanString_escape]
  obtain ⟨hascii, hwide⟩ := not_or.mp hplain
  have hvalid : c.toNat < 0xd800 ∨ 0xdfff < c.toNat ∧ c.toNat < 0x110000 := c.valid
  have hhead : ∀ m r, unicodeEscape m ++ r =
      Char.ofNat 0x5c :: 'u' :: ((unicodeEscape m).drop 2 ++ r) := fun _ _ => rfl
  have hread : scanEscape ((escape a c).drop 1 ++ t) = some (c, t) ∧
      escape a c = Char.ofNat 0x5c :: (escape a c).drop 1 := by
    unfold escape
    rw [if_neg (by omega), if_neg (by omega), if_neg (by omega), if_neg (by omega),
      if_neg (by omega), if_neg (by omega), if_neg (by omega), if_neg hplain]
    split_ifs with hwide
    · refine ⟨?_, rfl⟩
      change scanEscape ('u' :: ((unicodeEscape c.toNat).drop 2 ++ t)) = _
      rw [scanEscape, hexCode?_unicodeEscape hwide]
      simp only [if_neg (show ¬ (0xd800 ≤ c.toNat ∧ c.toNat < 0xdc00) by omega),
        if_neg (show ¬ (0xdc00 ≤ c.toNat ∧ c.toNat < 0xe000) by omega), Char.ofNat_toNat]
    · refine ⟨?_, rfl⟩
      set high := 0xd800 + (c.toNat - 0x10000) / 1024 % 1024 with hhigh
      set low := 0xdc00 + (c.toNat - 0x10000) % 1024 with hlow
      have hlowRead : lowSurrogate? (unicodeEscape low ++ t) = some (low, t) := by
        rw [hhead, lowSurrogate?, if_pos (by rfl), hexCode?_unicodeEscape (by omega)]
        simp only [if_pos (show 0xdc00 ≤ low ∧ low < 0xe000 by omega)]
      change scanEscape ('u' :: ((unicodeEscape high).drop 2 ++ unicodeEscape low ++ t)) = _
      rw [List.append_assoc, scanEscape, hexCode?_unicodeEscape (by omega)]
      simp only [if_pos (show 0xd800 ≤ high ∧ high < 0xdc00 by omega), hlowRead, Option.map_some]
      have hcode : 0x10000 + (high - 0xd800) * 1024 + (low - 0xdc00) = c.toNat := by omega
      rw [hcode, Char.ofNat_toNat]
  obtain ⟨hscan, hsplit⟩ := hread
  rw [hsplit, List.cons_append, scanString, if_neg (by decide), if_pos (by decide), hscan]

/-- A string is read back from its text, whatever follows. -/
theorem scanString_quoted_append (h : t.length < n) :
    scanString n (t.flatMap (escape a) ++ Char.ofNat 0x22 :: r) = some (t, r) := by
  induction t generalizing n with
  | nil =>
    cases n with
    | zero => cases h
    | succ n => rfl
  | cons c t ih =>
    cases n with
    | zero => cases h
    | succ n =>
      rw [List.flatMap_cons, List.append_assoc, scanString_append, ih (Nat.lt_of_succ_lt_succ h),
        Option.map_some]

theorem length_le_escape (a : Bool) (t : Text) : t.length ≤ (t.flatMap (escape a)).length := by
  induction t with
  | nil => exact le_rfl
  | cons c t ih =>
    have hpos : 1 ≤ (escape a c).length := by
      unfold escape
      split_ifs <;> simp [unicodeEscape]
    rw [List.flatMap_cons, List.length_append, List.length_cons]
    omega

/-! ### Integers -/

theorem stops_parts (h : Stops rest) :
    rest.takeWhile Char.isDigit = [] ∧ fraction rest = [] ∧ exponent rest = [] := by
  cases rest with
  | nil => exact ⟨rfl, rfl, rfl⟩
  | cons d t =>
    obtain ⟨hdigit, hdot, he, hE⟩ := h d t rfl
    refine ⟨List.takeWhile_cons_of_neg (by rw [hdigit]; exact Bool.false_ne_true), ?_, ?_⟩
    · unfold fraction
      split
      · rename_i heq
        exact absurd (List.cons.inj heq).1 hdot
      · rfl
    · rw [exponent, beq_false_of_ne he, beq_false_of_ne hE]
      rfl

theorem scanUnsigned_toDigits (sign : Text) (m : ℕ) (h : Stops rest) :
    scanUnsigned sign (Nat.toDigits 10 m ++ rest) =
      some (.int (if sign = [] then (m : ℤ) else -m), rest) := by
  obtain ⟨hnone, hfraction, hexponent⟩ := stops_parts h
  have hwhole : wholeDigits (Nat.toDigits 10 m ++ rest) = Nat.toDigits 10 m := by
    rcases Nat.eq_zero_or_pos m with rfl | hm
    · rfl
    · obtain ⟨d, hd, hd10, t, ht⟩ := Decimal.head_toDigits hm
      have hchars : ∀ d < 10, 0 < d → d.digitChar ≠ '0' := by decide
      have hall : ∀ c ∈ Nat.toDigits 10 m, c.isDigit = true :=
        fun c => Separated.isDigit_of_mem_toDigits
      unfold wholeDigits
      split
      · rename_i heq
        rw [ht, List.cons_append] at heq
        exact absurd (List.cons.inj heq).1 (hchars d hd10 hd)
      · rw [List.takeWhile_append_of_pos hall, hnone, List.append_nil]
  have hne : Nat.toDigits 10 m ≠ [] := Nat.toDigits_ne_nil
  rw [scanUnsigned, hwhole]
  simp only [List.drop_left, hfraction, List.length_nil, List.drop_zero, hexponent,
    List.append_nil, if_neg hne, if_true, Nat.ofDigitChars_ten_toDigits]

theorem scanValue_number {d : Char} (hdigit : d.isDigit = true) :
    scanValue (n + 1) (d :: t) = scanNumber (d :: t) ∧
      scanValue (n + 1) ('-' :: d :: t) = scanNumber ('-' :: d :: t) := by
  have hcode : 48 ≤ d.toNat ∧ d.toNat ≤ 57 := Char.isDigit_iff_toNat.mp hdigit
  constructor
  · have hbracket : d ≠ '[' := by
      rintro rfl
      cases hdigit
    rw [scanValue, if_neg (by unfold quoteCode; omega), if_neg (by omega), if_neg hbracket,
      scanLiteral_digit hdigit]
  · have hne : 'I' ≠ d := by
      rintro rfl
      cases hdigit
    have hliteral : scanLiteral ('-' :: d :: t) = none := by
      simp [scanLiteral, literals, hne]
    rw [scanValue, if_neg (by decide), if_neg (by decide), if_neg (by decide), hliteral]

theorem scanNumber_digit {d : Char} (hdigit : d.isDigit = true) :
    scanNumber (d :: t) = scanUnsigned [] (d :: t) := by
  have hminus : d ≠ '-' := by
    rintro rfl
    cases hdigit
  unfold scanNumber
  split
  · rename_i heq
    exact absurd (List.cons.inj heq).1 hminus
  · rfl

theorem scanValue_int (m : ℤ) (h : Stops rest) :
    scanValue (n + 1) (intText m ++ rest) = some (.int m, rest) ∧
      ∃ c t, intText m = c :: t ∧ (c = '-' ∨ c.isDigit = true) := by
  obtain ⟨c, t, ht⟩ := List.exists_cons_of_ne_nil (Nat.toDigits_ne_nil (n := m.natAbs) (b := 10))
  have hdigit : c.isDigit = true := Separated.isDigit_of_mem_toDigits (ht ▸ List.mem_cons_self)
  by_cases hneg : m < 0
  · have htext : intText m = '-' :: Nat.toDigits 10 m.natAbs := by rw [intText, if_pos hneg]
    rw [htext]
    refine ⟨?_, _, _, rfl, .inl rfl⟩
    have hscan := scanUnsigned_toDigits ['-'] m.natAbs h
    have hvalue : -(m.natAbs : ℤ) = m := by omega
    rw [if_neg (List.cons_ne_nil _ _), hvalue, ht] at hscan
    rw [ht, List.cons_append, List.cons_append, (scanValue_number hdigit).2]
    exact hscan
  · have htext : intText m = Nat.toDigits 10 m.natAbs := by
      rw [intText, if_neg hneg]
    have hscan := scanUnsigned_toDigits [] m.natAbs h
    have hvalue : (m.natAbs : ℤ) = m := by omega
    rw [if_pos rfl, hvalue, ht, List.cons_append] at hscan
    rw [htext, ht]
    refine ⟨?_, c, t, rfl, .inr hdigit⟩
    rw [List.cons_append, (scanValue_number hdigit).1, scanNumber_digit hdigit]
    exact hscan

/-! ### Floats -/

theorem takeWhile_append_stop {p : Char → Bool} (h : rest.takeWhile p = []) :
    (t ++ rest).takeWhile p = t.takeWhile p := by
  induction t with
  | nil => exact h
  | cons c t ih =>
    rw [List.cons_append, List.takeWhile_cons, List.takeWhile_cons, ih]

theorem wholeDigits_append (h : Stops rest) :
    wholeDigits (t ++ rest) = wholeDigits t ∧ wholeDigits t <+: t := by
  obtain ⟨hnone, -, -⟩ := stops_parts h
  cases t with
  | nil =>
    refine ⟨?_, List.prefix_rfl⟩
    rw [List.nil_append]
    unfold wholeDigits
    split
    · cases (h _ _ rfl).1
    · exact hnone
  | cons c t =>
    by_cases hzero : c = '0'
    · subst hzero
      exact ⟨rfl, t, rfl⟩
    · have hdigits : ∀ t, wholeDigits (c :: t) = (c :: t).takeWhile Char.isDigit := by
        intro t
        unfold wholeDigits
        split
        · rename_i heq
          exact absurd (List.cons.inj heq).1 hzero
        · rfl
      rw [List.cons_append, hdigits, hdigits, ← List.cons_append]
      exact ⟨takeWhile_append_stop hnone, List.takeWhile_prefix _⟩

theorem fraction_append (h : Stops rest) :
    fraction (t ++ rest) = fraction t ∧ fraction t <+: t := by
  obtain ⟨hnone, hfraction, -⟩ := stops_parts h
  cases t with
  | nil => exact ⟨hfraction, List.prefix_rfl⟩
  | cons c t =>
    by_cases hdot : c = '.'
    · subst hdot
      rw [List.cons_append, fraction, fraction, takeWhile_append_stop hnone]
      refine ⟨rfl, ?_⟩
      split_ifs
      · exact List.nil_prefix
      · exact List.cons_prefix_cons.mpr ⟨rfl, List.takeWhile_prefix _⟩
    · have hnil : ∀ t, fraction (c :: t) = [] := by
        intro t
        unfold fraction
        split
        · rename_i heq
          exact absurd (List.cons.inj heq).1 hdot
        · rfl
      rw [List.cons_append, hnil, hnil]
      exact ⟨rfl, List.nil_prefix⟩

theorem sign_isPrefix (t : Text) : (t.take 1).filter (fun s => s == '+' || s == '-') <+: t := by
  cases t with
  | nil => exact List.prefix_rfl
  | cons d t =>
    rw [List.take_succ_cons, List.take_zero, List.filter_cons, List.filter_nil]
    split_ifs
    · exact ⟨t, rfl⟩
    · exact List.nil_prefix

theorem drop_of_append {head tail : Text} (h : head ++ tail = t) (rest : Text) :
    t.drop head.length = tail ∧ (t ++ rest).drop head.length = tail ++ rest := by
  subst h
  rw [List.append_assoc, List.drop_left, List.drop_left]
  exact ⟨rfl, rfl⟩

theorem exponent_isPrefix (t : Text) : exponent t <+: t := by
  cases t with
  | nil => exact List.prefix_rfl
  | cons c t =>
    obtain ⟨tail, htail⟩ := sign_isPrefix t
    rw [exponent]
    split_ifs
    · rw [(drop_of_append htail []).1]
      refine List.cons_prefix_cons.mpr ⟨rfl, ?_⟩
      obtain ⟨last, hlast⟩ := List.takeWhile_prefix Char.isDigit (l := tail)
      exact ⟨last, by rw [List.append_assoc, hlast, htail]⟩
    · exact List.nil_prefix

theorem exponent_append (h : Stops rest) (hall : exponent t = t) : exponent (t ++ rest) = t := by
  obtain ⟨hnone, -, hexponent⟩ := stops_parts h
  cases t with
  | nil => exact hexponent
  | cons c t =>
    cases t with
    | nil => simp [exponent] at hall
    | cons d t =>
      have hsign : ((((d :: t) ++ rest).take 1).filter fun s => s == '+' || s == '-') =
          ((d :: t).take 1).filter fun s => s == '+' || s == '-' := rfl
      obtain ⟨tail, htail⟩ := sign_isPrefix (d :: t)
      obtain ⟨hdrop, hdrop'⟩ := drop_of_append htail rest
      rw [exponent, hdrop] at hall
      rw [List.cons_append, exponent, hsign, hdrop', takeWhile_append_stop hnone]
      exact hall

theorem scanUnsigned_append {sign : Text} (hread : scanUnsigned sign t = some (.float true t', []))
    (h : Stops rest) : scanUnsigned sign (t ++ rest) = some (.float true t', rest) := by
  obtain ⟨hwhole, tail, htail⟩ := @wholeDigits_append t rest h
  obtain ⟨hdrop, hdrop'⟩ := drop_of_append htail rest
  obtain ⟨hfraction, last, hlast⟩ := @fraction_append tail rest h
  obtain ⟨hrest, hrest'⟩ := drop_of_append hlast rest
  unfold scanUnsigned at hread ⊢
  simp only [hwhole, hdrop, hdrop', hfraction, hrest, hrest'] at hread ⊢
  by_cases hnil : wholeDigits t = []
  · rw [if_pos hnil] at hread
    cases hread
  rw [if_neg hnil] at hread ⊢
  by_cases hint : fraction tail ++ exponent last = []
  · rw [if_pos hint] at hread
    cases hread
  rw [if_neg hint] at hread
  obtain ⟨hvalue, hend⟩ := Prod.mk.inj (Option.some.inj hread)
  -- Nothing is left, so what follows the fraction is an exponent to its end.
  have hall : exponent last = last := by
    refine (exponent_isPrefix last).eq_of_length_le ?_
    have hlength := List.drop_eq_nil_iff.mp hend
    have htotal := congrArg List.length hlast
    rw [List.length_append] at hlength htotal
    omega
  rw [hall, hlast] at hvalue hint
  rw [exponent_append h hall, hlast, if_neg hint, List.drop_left, hvalue]

/-- The text of a float begins with a digit, or with a minus and a digit, and is read up to its
end. -/
theorem scanValue_float (hfloat : FloatText t) (h : Stops rest) :
    scanValue (n + 1) (t ++ rest) = some (.float true t, rest) := by
  unfold FloatText scanNumber at hfloat
  split at hfloat
  · rename_i u
    obtain ⟨whole, tail, hwhole, hne, hdigits, -, -⟩ := scanUnsigned_float hfloat
    obtain ⟨d, whole, rfl⟩ := List.exists_cons_of_ne_nil hne
    have hdigit : d.isDigit = true := List.all_eq_true.mp hdigits d List.mem_cons_self
    obtain rfl : u = d :: whole ++ tail := (List.cons.inj hwhole).2
    have hread := scanUnsigned_append hfloat h
    rw [List.cons_append, List.cons_append, List.cons_append, (scanValue_number hdigit).2]
    exact hread
  · obtain ⟨whole, tail, rfl, hne, hdigits, -, -⟩ := scanUnsigned_float hfloat
    obtain ⟨d, whole, rfl⟩ := List.exists_cons_of_ne_nil hne
    have hdigit : d.isDigit = true := List.all_eq_true.mp hdigits d List.mem_cons_self
    have hread := scanUnsigned_append hfloat h
    rw [List.nil_append, List.cons_append, List.cons_append] at hread ⊢
    rw [(scanValue_number hdigit).1, scanNumber_digit hdigit]
    exact hread

/-! ### Values -/

theorem head_encode (a w : Bool) (h : Exact v) :
    ∃ c t, encode a w v = c :: t ∧ isBlank c = false ∧ c ≠ ']' := by
  have hnumber : ∀ c : Char, (c = '-' ∨ c.isDigit = true) → isBlank c = false ∧ c ≠ ']' := by
    rintro c (rfl | hdigit)
    · decide
    · refine ⟨?_, ?_⟩
      · rw [isBlank, List.contains_eq_mem, decide_eq_false_iff_not]
        intro hmem
        have hnone : ∀ c ∈ [' ', '\t', '\n', '\r'], c.isDigit = false :=
          List.all_iff_forall_prop.mp (by decide)
        rw [hnone c hmem] at hdigit
        cases hdigit
      · rintro rfl
        cases hdigit
  cases h with
  | null => exact ⟨_, _, rfl, by decide, by decide⟩
  | bool b => cases b <;> exact ⟨_, _, rfl, by decide, by decide⟩
  | int n =>
    obtain ⟨-, c, t, ht, hc⟩ := @scanValue_int [] 0 n fun d t h => by cases h
    exact ⟨c, t, ht, hnumber c hc⟩
  | float t h =>
    obtain ⟨-, -, c, rest, hc, hnum⟩ := numeral_floatText h
    exact ⟨c, rest, hc, hnumber c hnum⟩
  | str t => exact ⟨_, _, rfl, by decide, by decide⟩
  | list items _ => exact ⟨_, _, rfl, by decide, by decide⟩
  | dict members _ _ => exact ⟨_, _, rfl, by decide, by decide⟩

theorem skip_encode (a w : Bool) (h : Exact v) (t : Text) :
    skip (encode a w v ++ t) = encode a w v ++ t := by
  obtain ⟨c, rest, hc, hblank, -⟩ := head_encode a w h
  rw [hc]
  exact skip_cons hblank

theorem skip_blank (w : Bool) (t : Text) : skip (blank w ++ t) = skip t := by cases w <;> rfl

/-- The value is read from its text, whatever follows where a number may end. -/
def Reads (a w : Bool) (v : Value) : Prop := ∀ n rest, (encode a w v).length < n → Stops rest →
  scanValue n (encode a w v ++ rest) = some (v, rest)

theorem stops_cons (h : c.isDigit = false ∧ c ≠ '.' ∧ c ≠ 'e' ∧ c ≠ 'E') : Stops (c :: t) := by
  intro d t' heq
  obtain ⟨rfl, -⟩ := List.cons.inj heq
  exact h

theorem scanItems_encode (hv : Exact v) (hread : Reads a w v) (hitems : ∀ x ∈ items, Exact x)
    (hreads : ∀ x ∈ items, Reads a w x) (acc : List Value) (rest : Text)
    (hn : (encode a w v ++ (items.map (encode a w)).flatMap (comma w ++ ·)).length + 1 < n) :
    scanItems n acc
        (encode a w v ++ ((items.map (encode a w)).flatMap (comma w ++ ·) ++ ']' :: rest)) =
      some (acc ++ v :: items, rest) := by
  induction items generalizing v acc n with
  | nil =>
    obtain ⟨n, rfl⟩ : ∃ m, n = m + 1 := ⟨n - 1, by omega⟩
    simp only [List.map_nil, List.flatMap_nil, List.append_nil] at hn
    rw [scanItems, List.map_nil, List.flatMap_nil, List.nil_append,
      hread n _ (by omega) (stops_cons (by decide))]
    simp only [skip_cons (c := ']') rfl]
  | cons x items ih =>
    obtain ⟨n, rfl⟩ : ∃ m, n = m + 1 := ⟨n - 1, by omega⟩
    obtain ⟨hx, hitems⟩ := List.forall_mem_cons.mp hitems
    obtain ⟨hreadx, hreads⟩ := List.forall_mem_cons.mp hreads
    have htail : ((x :: items).map (encode a w)).flatMap (comma w ++ ·) ++ ']' :: rest =
        ',' :: (blank w ++ (encode a w x ++
          ((items.map (encode a w)).flatMap (comma w ++ ·) ++ ']' :: rest))) := by
      simp [comma]
    have hlength : (encode a w v ++ ((x :: items).map (encode a w)).flatMap (comma w ++ ·)).length =
        (encode a w v).length + 1 + (blank w).length +
          (encode a w x ++ (items.map (encode a w)).flatMap (comma w ++ ·)).length := by
      simp only [List.map_cons, List.flatMap_cons, List.length_append, comma, List.length_cons]
      omega
    rw [hlength] at hn
    rw [scanItems, htail, hread n _ (by omega) (stops_cons (by decide))]
    simp only [skip_cons (c := ',') rfl, skip_blank, skip_encode a w hx]
    rw [ih hx hreadx hitems hreads (acc ++ [v]) (by omega), List.append_assoc]
    rfl

theorem scanMembers_encode {e : Text × Value} {l : List (Text × Value)} (he : Exact e.2)
    (hread : Reads a w e.2) (hl : ∀ e ∈ l, Exact e.2) (hreads : ∀ e ∈ l, Reads a w e.2)
    (entries : List (Scalar × Value)) (rest : Text)
    (hn : (member a w (.str e.1, e.2) ++
      (l.map fun e => member a w (.str e.1, e.2)).flatMap (comma w ++ ·)).length + 1 < n) :
    scanMembers n entries (member a w (.str e.1, e.2) ++
        ((l.map fun e => member a w (.str e.1, e.2)).flatMap (comma w ++ ·) ++
          Char.ofNat 0x7d :: rest)) =
      some (Assoc.assignAll entries ((e :: l).map fun e => (.str e.1, e.2)), rest) := by
  have hmember : ∀ (e : Text × Value) (t : Text), member a w (.str e.1, e.2) ++ t =
      Char.ofNat quoteCode :: (e.1.flatMap (escape a) ++ Char.ofNat 0x22 ::
        ':' :: (blank w ++ (encode a w e.2 ++ t))) := by
    intro e t
    simp [member, quoted, keyText, quoteCode]
  have hsize : ∀ e : Text × Value, (member a w (.str e.1, e.2)).length =
      (e.1.flatMap (escape a)).length + (blank w).length + (encode a w e.2).length + 3 := by
    intro e
    simp only [member, quoted, keyText, List.length_append, List.length_cons, List.length_nil]
    omega
  have hquote : (Char.ofNat quoteCode).toNat = quoteCode := rfl
  induction l generalizing e entries n with
  | nil =>
    obtain ⟨n, rfl⟩ : ∃ m, n = m + 1 := ⟨n - 1, by omega⟩
    have hkey := length_le_escape a e.1
    simp only [List.map_nil, List.flatMap_nil, List.append_nil, hsize] at hn
    have hbrace : Stops (Char.ofNat 0x7d :: rest) := stops_cons (by decide)
    rw [List.map_nil, List.flatMap_nil, List.nil_append, hmember, scanMembers, if_pos hquote,
      scanString_quoted_append (by omega)]
    simp only [skip_cons (c := ':') rfl, skip_blank, skip_encode a w he,
      hread n _ (by omega) hbrace,
      skip_cons (c := Char.ofNat 0x7d) rfl]
    rfl
  | cons x l ih =>
    obtain ⟨n, rfl⟩ : ∃ m, n = m + 1 := ⟨n - 1, by omega⟩
    obtain ⟨hx, hl⟩ := List.forall_mem_cons.mp hl
    obtain ⟨hreadx, hreads⟩ := List.forall_mem_cons.mp hreads
    have hkey := length_le_escape a e.1
    have htail : ((x :: l).map fun e => member a w (.str e.1, e.2)).flatMap (comma w ++ ·) ++
          Char.ofNat 0x7d :: rest =
        ',' :: (blank w ++ (member a w (.str x.1, x.2) ++
          ((l.map fun e => member a w (.str e.1, e.2)).flatMap (comma w ++ ·) ++
            Char.ofNat 0x7d :: rest))) := by
      simp [comma]
    have hlength : (member a w (.str e.1, e.2) ++
          ((x :: l).map fun e => member a w (.str e.1, e.2)).flatMap (comma w ++ ·)).length =
        (member a w (.str e.1, e.2)).length + 1 + (blank w).length + (member a w (.str x.1, x.2) ++
          (l.map fun e => member a w (.str e.1, e.2)).flatMap (comma w ++ ·)).length := by
      simp only [List.map_cons, List.flatMap_cons, List.length_append, comma, List.length_cons]
      omega
    rw [hlength, hsize] at hn
    have hskip : ∀ t, skip (member a w (.str x.1, x.2) ++ t) = member a w (.str x.1, x.2) ++ t :=
      fun t => skip_cons rfl
    rw [htail, hmember, scanMembers, if_pos hquote, scanString_quoted_append (by omega)]
    simp only [skip_cons (c := ':') rfl, skip_blank, skip_encode a w he,
      hread n _ (by omega) (stops_cons (c := ',') (by decide)), skip_cons (c := ',') rfl, hskip]
    rw [ih hx hreadx hl hreads _ (by omega)]
    rfl

theorem reads_of_exact (h : Exact v) : Reads a w v := by
  induction h with
  | null =>
    intro n rest hn _
    obtain ⟨n, rfl⟩ : ∃ m, n = m + 1 := ⟨n - 1, by omega⟩
    rfl
  | bool b =>
    intro n rest hn _
    obtain ⟨n, rfl⟩ : ∃ m, n = m + 1 := ⟨n - 1, by omega⟩
    cases b <;> rfl
  | int m =>
    intro n rest hn hstops
    obtain ⟨n, rfl⟩ : ∃ m, n = m + 1 := ⟨n - 1, by omega⟩
    exact (scanValue_int m hstops).1
  | float t h =>
    intro n rest hn hstops
    obtain ⟨n, rfl⟩ : ∃ m, n = m + 1 := ⟨n - 1, by omega⟩
    exact scanValue_float h hstops
  | str t =>
    intro n rest hn _
    obtain ⟨n, rfl⟩ : ∃ m, n = m + 1 := ⟨n - 1, by omega⟩
    have htext : encode a w (.str t) ++ rest =
        Char.ofNat quoteCode :: (t.flatMap (escape a) ++ Char.ofNat 0x22 :: rest) := by
      simp [encode, quoted, quoteCode]
    have hlength := length_le_escape a t
    simp only [encode, quoted, List.length_cons, List.length_append, List.length_nil] at hn
    rw [htext, scanValue, if_pos (by rfl), scanString_quoted_append (by omega), Option.map_some]
  | list items hitems ih =>
    intro n rest hn _
    obtain ⟨n, rfl⟩ : ∃ m, n = m + 1 := ⟨n - 1, by omega⟩
    rw [encode, encodeItems_eq] at hn ⊢
    cases items with
    | nil => rfl
    | cons x items =>
      obtain ⟨hx, hrest⟩ := List.forall_mem_cons.mp hitems
      obtain ⟨hreadx, hreads⟩ := List.forall_mem_cons.mp ih
      have htext : '[' :: ((comma w).intercalate ((x :: items).map (encode a w)) ++ [']']) ++ rest =
          '[' :: (encode a w x ++
            ((items.map (encode a w)).flatMap (comma w ++ ·) ++ ']' :: rest)) := by
        rw [List.map_cons, intercalate_comma]
        simp
      have hhead : (encode a w x ++
          ((items.map (encode a w)).flatMap (comma w ++ ·) ++ ']' :: rest)).head? ≠
          some ']' := by
        obtain ⟨c, t, hc, -, hne⟩ := head_encode a w hx
        rw [hc]
        simpa using hne
      rw [List.map_cons, intercalate_comma] at hn
      simp only [List.length_cons, List.length_append, List.length_nil] at hn
      rw [htext, scanValue, if_neg (by decide), if_neg (by decide), if_pos rfl, skip_encode a w hx,
        if_neg hhead, scanItems_encode hx hreadx hrest hreads [] rest
          (by rw [List.length_append]; omega)]
      rfl
  | dict members hkeys hmembers ih =>
    intro n rest hn _
    obtain ⟨n, rfl⟩ : ∃ m, n = m + 1 := ⟨n - 1, by omega⟩
    have hentries : encodeMembers a w (members.map fun e => (Scalar.str e.1, e.2)) =
        members.map fun e : Text × Value => member a w (.str e.1, e.2) := by
      rw [encodeMembers_eq, List.map_map]
      rfl
    rw [Value.ofMembers, encode, hentries] at hn ⊢
    cases members with
    | nil => rfl
    | cons x members =>
      obtain ⟨hx, hrest⟩ := List.forall_mem_cons.mp hmembers
      obtain ⟨hreadx, hreads⟩ := List.forall_mem_cons.mp ih
      have htext : Char.ofNat 0x7b :: ((comma w).intercalate
            ((x :: members).map fun e : Text × Value => member a w (.str e.1, e.2)) ++
              [Char.ofNat 0x7d]) ++ rest =
          Char.ofNat 0x7b :: (member a w (.str x.1, x.2) ++
            ((members.map fun e : Text × Value => member a w (.str e.1, e.2)).flatMap
                (comma w ++ ·) ++
              Char.ofNat 0x7d :: rest)) := by
        rw [List.map_cons, intercalate_comma]
        simp
      have hskip : ∀ t, skip (member a w (.str x.1, x.2) ++ t) =
          member a w (.str x.1, x.2) ++ t := fun t => skip_cons rfl
      have hhead : ∀ t, (member a w (.str x.1, x.2) ++ t).head?.map Char.toNat ≠ some 0x7d := by
        intro t
        rw [member, quoted]
        simp
      rw [List.map_cons, intercalate_comma] at hn
      simp only [List.length_cons, List.length_append, List.length_nil] at hn
      have hnodup : (([] ++ (x :: members).map fun e : Text × Value => (Scalar.str e.1, e.2)).map
          Prod.fst).Nodup := by
        rw [List.nil_append, List.map_map]
        have hstr : (Prod.fst ∘ fun e : Text × Value => (Scalar.str e.1, e.2)) =
            Scalar.str ∘ Prod.fst := rfl
        rw [hstr, ← List.map_map]
        exact hkeys.map fun _ _ h => Scalar.str.inj h
      rw [htext, scanValue, if_neg (by decide), if_pos (by decide), hskip, if_neg (hhead _),
        scanMembers_encode hx hreadx hrest hreads [] rest (by rw [List.length_append]; omega),
        Assoc.assignAll_eq_append hnodup]
      rfl

/-- An exact value is the one its text loads as. -/
theorem loads_encode (h : Exact v) : loads (encode a w v) = some v := by
  have hskip := skip_encode a w h []
  rw [List.append_nil] at hskip
  have hread := reads_of_exact h ((encode a w v).length + 1) [] (Nat.lt_succ_self _)
    fun d t h => by cases h
  rw [List.append_nil] at hread
  rw [loads, hskip, hread]
  rfl

/-! ### Printable texts -/

/-- A character that breaks no line, in ASCII where that is asked for. -/
def Print (ascii : Bool) (c : Char) : Prop := 0x20 ≤ c.toNat ∧ (ascii = true → c.toNat < 0x7f)

theorem Print.of_ascii (h : 0x20 ≤ c.toNat ∧ c.toNat < 0x7f) : Print a c := ⟨h.1, fun _ => h.2⟩

theorem isPrint_escape (c : Char) : ∀ d ∈ escape a c, Print a d := by
  have hdigit : ∀ n, Print a (Hex.digits.getD (n % 16) '0') := by
    intro n
    have hall : ∀ d < 16, 0x20 ≤ (Hex.digits.getD d '0').toNat ∧
        (Hex.digits.getD d '0').toNat < 0x7f := by decide
    exact .of_ascii (hall _ (Nat.mod_lt n (by decide)))
  have hunicode : ∀ n, ∀ d ∈ unicodeEscape n, Print a d := by
    intro n d hd
    simp only [unicodeEscape, List.map_cons, List.map_nil, List.mem_cons, List.not_mem_nil,
      or_false] at hd
    rcases hd with rfl | rfl | rfl | rfl | rfl | rfl
    · exact .of_ascii (by decide)
    · exact .of_ascii (by decide)
    · exact hdigit _
    · exact hdigit _
    · exact hdigit _
    · exact hdigit _
  have hpair : ∀ x : Char, 0x20 ≤ x.toNat ∧ x.toNat < 0x7f →
      ∀ d ∈ [Char.ofNat 0x5c, x], Print a d := by
    intro x hx d hd
    simp only [List.mem_cons, List.not_mem_nil, or_false] at hd
    rcases hd with rfl | rfl
    · exact .of_ascii (by decide)
    · exact .of_ascii hx
  unfold escape
  split_ifs with hself hb ht hn hf hr hcontrol hplain hbmp
  · exact hpair c ⟨by omega, by omega⟩
  · exact hpair _ (by decide)
  · exact hpair _ (by decide)
  · exact hpair _ (by decide)
  · exact hpair _ (by decide)
  · exact hpair _ (by decide)
  · exact hunicode _
  · intro d hd
    rw [List.mem_singleton.mp hd]
    exact ⟨by omega, fun hascii => hplain.resolve_left (by rw [hascii]; decide)⟩
  · exact hunicode _
  · intro d hd
    rcases List.mem_append.mp hd with hd | hd
    · exact hunicode _ d hd
    · exact hunicode _ d hd

theorem isPrint_quoted (t : Text) : ∀ d ∈ quoted a t, Print a d := by
  intro d hd
  rw [quoted, List.mem_cons, List.mem_append, List.mem_singleton, List.mem_flatMap] at hd
  obtain rfl | ⟨c, -, hd⟩ | rfl := hd
  · exact .of_ascii (by decide)
  · exact isPrint_escape c d hd
  · exact .of_ascii (by decide)

theorem isPrint_intText (n : ℤ) : ∀ d ∈ intText n, Print a d := by
  have hdigits : ∀ m : ℕ, ∀ d ∈ Nat.toDigits 10 m, Print a d := by
    intro m d hd
    have hrange : 48 ≤ d.toNat ∧ d.toNat ≤ 57 :=
      Char.isDigit_iff_toNat.mp (Separated.isDigit_of_mem_toDigits hd)
    exact .of_ascii ⟨by omega, by omega⟩
  intro d hd
  unfold intText at hd
  split_ifs at hd
  · obtain rfl | hd := List.mem_cons.mp hd
    · exact .of_ascii (by decide)
    · exact hdigits _ d hd
  · exact hdigits _ d hd

/-- The text of a value is one line. -/
theorem isPrint_encode (h : Exact v) : ∀ d ∈ encode a w v, Print a d := by
  have hblank : ∀ d ∈ blank w, Print a d := by
    intro d hd
    cases w with
    | false => cases hd
    | true => exact List.mem_singleton.mp hd ▸ .of_ascii (by decide)
  have hcomma : ∀ d ∈ comma w, Print a d :=
    List.forall_mem_cons.mpr ⟨.of_ascii (by decide), hblank⟩
  have hframe : ∀ {first last : Char} {xs : List Text}, Print a first → Print a last →
      (∀ x ∈ xs, ∀ d ∈ x, Print a d) →
      ∀ d ∈ first :: ((comma w).intercalate xs ++ [last]), Print a d := by
    intro first last xs hfirst hlast hxs d hd
    rw [List.mem_cons, List.mem_append, List.mem_singleton] at hd
    obtain rfl | hd | rfl := hd
    · exact hfirst
    · rcases LineText.mem_intercalate hd with hd | ⟨x, hx, hd⟩
      · exact hcomma d hd
      · exact hxs x hx d hd
    · exact hlast
  have hword : ∀ {t : Text}, (t.all fun d => decide (0x20 ≤ d.toNat ∧ d.toNat < 0x7f)) = true →
      ∀ d ∈ t, Print a d :=
    fun h d hd => .of_ascii (of_decide_eq_true (List.all_eq_true.mp h d hd))
  induction h with
  | null => exact hword (t := "null".toList) rfl
  | bool b =>
    cases b with
    | false => exact hword (t := "false".toList) rfl
    | true => exact hword (t := "true".toList) rfl
  | int n => exact isPrint_intText n
  | float t h =>
    intro d hd
    have hnumeral := List.all_eq_true.mp (numeral_floatText h).1 d hd
    rw [numeral, Bool.or_eq_true, List.contains_iff_mem] at hnumeral
    rcases hnumeral with hdigit | hmark
    · have hcode : 48 ≤ d.toNat ∧ d.toNat ≤ 57 := Char.isDigit_iff_toNat.mp hdigit
      exact .of_ascii ⟨by omega, by omega⟩
    · have hmarks : (['+', '-', '.', 'e', 'E'].all fun d =>
          decide (0x20 ≤ d.toNat ∧ d.toNat < 0x7f)) = true := rfl
      exact .of_ascii (of_decide_eq_true (List.all_eq_true.mp hmarks d hmark))
  | str t => exact isPrint_quoted t
  | list items _ ih =>
    rw [encode, encodeItems_eq]
    refine hframe (.of_ascii (by decide)) (.of_ascii (by decide)) fun x hx => ?_
    obtain ⟨v, hv, rfl⟩ := List.mem_map.mp hx
    exact ih v hv
  | dict members _ _ ih =>
    rw [Value.ofMembers, encode, encodeMembers_eq]
    refine hframe (.of_ascii (by decide)) (.of_ascii (by decide)) fun x hx d hd => ?_
    obtain ⟨e', he', rfl⟩ := List.mem_map.mp hx
    obtain ⟨e, he, rfl⟩ := List.mem_map.mp he'
    rw [member, List.mem_append, List.mem_cons, List.mem_append] at hd
    obtain hd | rfl | hd | hd := hd
    · exact isPrint_quoted _ d hd
    · exact .of_ascii (by decide)
    · exact hblank d hd
    · exact ih e he d hd

/-! ### Canonical texts -/

/-- The canonical text of a value is the text of its copy. -/
theorem dumps_eq_encode (a : Bool) (v : Value) : dumps a v = encode a false (copy v) := by
  induction v using Value.induction with
  | hatom v hlist hdict =>
    rw [copy_leaf hlist hdict]
    cases v with
    | list items => exact absurd rfl (hlist items)
    | dict entries => exact absurd rfl (hdict entries)
    | _ => rfl
  | hlist items ih =>
    rw [copy, dumps, encode, dumpsItems_eq, copyItems_eq, encodeItems_eq, List.map_map]
    have hitems : items.map (dumps a) = items.map (encode a false ∘ copy) := List.map_congr_left ih
    rw [hitems]
    rfl
  | hdict entries ih =>
    rw [copy, dumps, encode, dumpsMembers_eq, copyMembers_eq, encodeMembers_eq]
    have hmembers : entries.map (fun e => (e.1, dumps a e.2)) =
        (entries.map fun e => (e.1, copy e.2)).map fun e => (e.1, encode a false e.2) := by
      rw [List.map_map]
      exact List.map_congr_left fun e he => Prod.ext rfl (ih e he)
    rw [hmembers, sorted_map, List.map_map]
    rfl

theorem Exact.copy (h : Exact v) : Exact (copy v) := by
  induction h with
  | null => exact .null
  | bool b => exact .bool b
  | int n => exact .int n
  | float t h => exact .float t h
  | str t => exact .str t
  | list items _ ih =>
    rw [Json.copy, copyItems_eq]
    exact .list _ (List.forall_mem_map.mpr ih)
  | dict members hkeys _ ih =>
    rw [copy_ofMembers]
    refine .dict _ ?_ (List.forall_mem_map.mpr fun e he => ih e ((perm_byKey members).subset he))
    rw [List.map_map]
    exact ((perm_byKey members).map Prod.fst).nodup_iff.mpr hkeys

/-- The canonical text of an exact value is read back as its copy. -/
theorem loads_canonical (a : Bool) (h : Exact v) : loads (dumps a v) = some (copy v) := by
  rw [dumps_eq_encode, loads_encode h.copy]

/-- The canonical text determines the copy. -/
theorem copy_eq_of_dumps (a : Bool) {v' : Value} (h : Exact v) (h' : Exact v')
    (heq : dumps a v = dumps a v') : copy v = copy v' := by
  have hloads := loads_canonical a h
  rw [heq, loads_canonical a h'] at hloads
  exact (Option.some.inj hloads).symm

end Json
end OpenChess
