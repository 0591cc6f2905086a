import OpenChess.Jobs.Json
import OpenChess.Lib.Assoc
import OpenChess.Lib.Decimal
import Mathlib.Data.Bool.AllAny

/-!
# Reading JSON

Model of `json.loads`. A text of a flat dictionary, whose strings need no escapes, is read
back with its members in the order of their keys.
-/

namespace OpenChess
namespace Json

/-! ### The scanner -/

def quoteCode : ℕ := 0x22

def backslashCode : ℕ := 0x5c

def isBlank (c : Char) : Bool := [' ', '\t', '\n', '\r'].contains c

def skip (t : Text) : Text := t.dropWhile isBlank

def hexValue? (c : Char) : Option ℕ :=
  if '0' ≤ c ∧ c ≤ '9' then some (c.toNat - '0'.toNat)
  else if 'a' ≤ c ∧ c ≤ 'f' then some (c.toNat - 'a'.toNat + 10)
  else if 'A' ≤ c ∧ c ≤ 'F' then some (c.toNat - 'A'.toNat + 10)
  else none

/-- The four digits after `u` in an escape. -/
def hexCode? : Text → Option (ℕ × Text)
  | a :: b :: c :: d :: t =>
    match [a, b, c, d].mapM hexValue? with
    | none => none
    | some values => some (values.foldl (fun n d => 16 * n + d) 0, t)
  | _ => none

def letterEscapes : List (Char × Char) :=
  [(Char.ofNat quoteCode, Char.ofNat quoteCode),
    (Char.ofNat backslashCode, Char.ofNat backslashCode),
    ('/', '/'), ('b', Char.ofNat 0x08), ('f', Char.ofNat 0x0c), ('n', '\n'), ('r', '\r'),
    ('t', '\t')]

/-- The second half of a pair of surrogates. -/
def lowSurrogate? : Text → Option (ℕ × Text)
  | c :: 'u' :: t =>
    if c.toNat = backslashCode then
      match hexCode? t with
      | some (n, t) => if 0xdc00 ≤ n ∧ n < 0xe000 then some (n, t) else none
      | none => none
    else none
  | _ => none

/-- The character of an escape, after its backslash. A lone surrogate is refused: no text has
it. -/
def scanEscape : Text → Option (Char × Text)
  | 'u' :: t =>
    match hexCode? t with
    | none => none
    | some (n, t) =>
      if 0xd800 ≤ n ∧ n < 0xdc00 then
        (lowSurrogate? t).map fun r =>
          (Char.ofNat (0x10000 + (n - 0xd800) * 1024 + (r.1 - 0xdc00)), r.2)
      else if 0xdc00 ≤ n ∧ n < 0xe000 then none
      else some (Char.ofNat n, t)
  | c :: t => (letterEscapes.lookup c).map fun e => (e, t)
  | [] => none

def scanString : ℕ → Text → Option (Text × Text)
  | 0, _ => none
  | _ + 1, [] => none
  | n + 1, c :: t =>
    if c.toNat = quoteCode then some ([], t)
    else if c.toNat = backslashCode then
      match scanEscape t with
      | none => none
      | some (e, t) => (scanString n t).map fun r => (e :: r.1, r.2)
    else if c.toNat < 0x20 then none
    else (scanString n t).map fun r => (c :: r.1, r.2)

def fraction : Text → Text
  | '.' :: t => if t.takeWhile Char.isDigit = [] then [] else '.' :: t.takeWhile Char.isDigit
  | _ => []

def exponent : Text → Text
  | c :: t =>
    let sign := (t.take 1).filter fun s => s == '+' || s == '-'
    let digits := (t.drop sign.length).takeWhile Char.isDigit
    if (c == 'e' || c == 'E') && !digits.isEmpty then c :: (sign ++ digits) else []
  | [] => []

/-- The digits before a fraction; no other digit follows a zero. -/
def wholeDigits : Text → Text
  | '0' :: _ => ['0']
  | t => t.takeWhile Char.isDigit

/-- A number without its sign. A float is known by its text. -/
def scanUnsigned (sign : Text) (t : Text) : Option (Value × Text) :=
  let whole := wholeDigits t
  let rest := t.drop whole.length
  let tail := fraction rest ++ exponent (rest.drop (fraction rest).length)
  if whole = [] then none
  else if tail = [] then
    let n : ℤ := Nat.ofDigitChars 10 whole 0
    some (.int (if sign = [] then n else -n), rest)
  else some (.float true (sign ++ whole ++ tail), rest.drop tail.length)

def scanNumber : Text → Option (Value × Text)
  | '-' :: t => scanUnsigned ['-'] t
  | t => scanUnsigned [] t

def literals : List (Text × Value) :=
  [("null".toList, .null), ("true".toList, .bool true), ("false".toList, .bool false),
    ("NaN".toList, .float false "nan".toList), ("Infinity".toList, .float false "inf".toList),
    ("-Infinity".toList, .float false "-inf".toList)]

def scanLiteral (t : Text) : Option (Value × Text) :=
  literals.findSome? fun l => if l.1.isPrefixOf t then some (l.2, t.drop l.1.length) else none

mutual

def scanValue : ℕ → Text → Option (Value × Text)
  | 0, _ => none
  | _ + 1, [] => none
  | n + 1, c :: t =>
    if c.toNat = quoteCode then (scanString n t).map fun r => (.str r.1, r.2)
    else if c.toNat = 0x7b then
      if (skip t).head?.map Char.toNat = some 0x7d then some (.dict [], (skip t).drop 1)
      else (scanMembers n [] (skip t)).map fun r => (.dict r.1, r.2)
    else if c = '[' then
      if (skip t).head? = some ']' then some (.list [], (skip t).drop 1)
      else (scanItems n [] (skip t)).map fun r => (.list r.1, r.2)
    else
      match scanLiteral (c :: t) with
      | some r => some r
      | none => scanNumber (c :: t)

/-- The members of a dictionary; a later member replaces an earlier one of its key. -/
def scanMembers : ℕ → List (Scalar × Value) → Text → Option (List (Scalar × Value) × Text)
  | 0, _, _ => none
  | _ + 1, _, [] => none
  | n + 1, entries, c :: t =>
    if c.toNat = quoteCode then
      match scanString n t with
      | none => none
      | some (key, t) =>
        match skip t with
        | ':' :: t =>
          match scanValue n (skip t) with
          | none => none
          | some (v, t) =>
            match skip t with
            | ',' :: t => scanMembers n (Assoc.assign entries (.str key) v) (skip t)
            | d :: t =>
              if d.toNat = 0x7d then some (Assoc.assign entries (.str key) v, t) else none
            | [] => none
        | _ => none
    else none

def scanItems : ℕ → List Value → Text → Option (List Value × Text)
  | 0, _, _ => none
  | n + 1, items, t =>
    match scanValue n t with
    | none => none
    | some (v, t) =>
      match skip t with
      | ',' :: t => scanItems n (items ++ [v]) (skip t)
      | ']' :: t => some (items ++ [v], t)
      | _ => none

end

/-- `json.loads`. -/
def loads (t : Text) : Option Value :=
  match scanValue (t.length + 1) (skip t) with
  | some (v, rest) => if skip rest = [] then some v else none
  | none => none

/-! ### Flat dictionaries -/

def Plain (c : Char) : Prop :=
  0x20 ≤ c.toNat ∧ c.toNat < 0x7f ∧ c.toNat ≠ quoteCode ∧ c.toNat ≠ backslashCode

instance : DecidablePred Plain := fun _ => inferInstanceAs (Decidable (_ ∧ _))

def plainText (t : Text) : Bool := t.all fun c => decide (Plain c)

theorem plainText_iff {t : Text} : plainText t = true ↔ ∀ c ∈ t, Plain c :=
  List.all_iff_forall_prop

def Leaf (v : Value) : Prop := (∃ t : Text, (∀ c ∈ t, Plain c) ∧ v = .str t) ∨ ∃ m : ℕ, v = .int m

def memberText (e : Scalar × Value) : Text := quoted true (keyText e.1) ++ ':' :: dumps true e.2

def Flat (e : Scalar × Value) : Prop := ∃ k : Text, (∀ c ∈ k, Plain c) ∧ e.1 = .str k ∧ Leaf e.2

def Ends (rest : Text) : Prop := ∃ d t, rest = d :: t ∧ (d = ',' ∨ d.toNat = 0x7d)

variable {t rest : Text} {v : Value} {n : ℕ} {c : Char} {entries l : List (Scalar × Value)}
  {e : Scalar × Value}

theorem escape_plain (h : Plain c) : escape true c = [c] := by
  obtain ⟨hlow, hhigh, hquote, hback⟩ := h
  unfold quoteCode at hquote
  unfold backslashCode at hback
  rw [escape, if_neg (by omega), if_neg (by omega), if_neg (by omega), if_neg (by omega),
    if_neg (by omega), if_neg (by omega), if_neg (by omega), if_pos (.inr hhigh)]

theorem quoted_plain (h : ∀ c ∈ t, Plain c) :
    quoted true t = Char.ofNat quoteCode :: (t ++ [Char.ofNat quoteCode]) := by
  have hmap : t.flatMap (escape true) = t := by
    induction t with
    | nil => rfl
    | cons c t ih =>
      rw [List.forall_mem_cons] at h
      rw [List.flatMap_cons, escape_plain h.1, ih h.2, List.singleton_append]
  rw [quoted, hmap]
  rfl

theorem scanString_plain (h : ∀ c ∈ t, Plain c) (hn : t.length < n) :
    scanString n (t ++ Char.ofNat quoteCode :: rest) = some (t, rest) := by
  induction t generalizing n with
  | nil =>
    cases n with
    | zero => cases hn
    | succ n => rfl
  | cons c t ih =>
    cases n with
    | zero => cases hn
    | succ n =>
      obtain ⟨⟨hlow, -, hquote, hback⟩, ht⟩ := List.forall_mem_cons.mp h
      rw [List.cons_append, scanString, if_neg hquote, if_neg hback, if_neg (by omega),
        ih ht (Nat.lt_of_succ_lt_succ hn), Option.map_some]

theorem skip_cons (h : isBlank c = false) : skip (c :: t) = c :: t := by
  rw [skip, List.dropWhile_cons_of_neg (by rw [h]; exact Bool.false_ne_true)]

theorem skip_ends (h : Ends rest) : skip rest = rest := by
  obtain ⟨d, t, rfl, hd⟩ := h
  refine skip_cons ?_
  rcases hd with rfl | hd
  · rfl
  · rw [isBlank, List.contains_eq_mem, decide_eq_false_iff_not]
    intro hmem
    have hcodes : ∀ c ∈ [' ', '\t', '\n', '\r'], c.toNat ≠ 0x7d :=
      List.all_iff_forall_prop.mp (by decide)
    exact hcodes d hmem hd

theorem not_digit_of_ends (h : Ends rest) :
    rest.takeWhile Char.isDigit = [] ∧ fraction rest = [] ∧ exponent rest = [] := by
  obtain ⟨d, t, rfl, hd⟩ := h
  have hcode : d.toNat = 0x2c ∨ d.toNat = 0x7d := by
    rcases hd with rfl | hd
    · exact .inl rfl
    · exact .inr hd
  have hne : ∀ c : Char, c.toNat ≠ 0x2c → c.toNat ≠ 0x7d → d ≠ c := by
    rintro c hcomma hbrace rfl
    exact hcode.elim hcomma hbrace
  have hdigit : d.isDigit = false := by
    rw [Bool.eq_false_iff]
    intro hdigit
    have hrange : 48 ≤ d.toNat ∧ d.toNat ≤ 57 := Char.isDigit_iff_toNat.mp hdigit
    omega
  refine ⟨List.takeWhile_cons_of_neg (by rw [hdigit]; exact Bool.false_ne_true), ?_, ?_⟩
  · unfold fraction
    split
    · rename_i heq
      exact absurd (List.cons.inj heq).1 (hne '.' (by decide) (by decide))
    · rfl
  · rw [exponent, beq_false_of_ne (hne 'e' (by decide) (by decide)),
      beq_false_of_ne (hne 'E' (by decide) (by decide))]
    rfl

theorem wholeDigits_toDigits (m : ℕ) (h : Ends rest) :
    wholeDigits (Nat.toDigits 10 m ++ rest) = Nat.toDigits 10 m := by
  rcases Nat.eq_zero_or_pos m with rfl | hm
  · rfl
  · obtain ⟨d, hd, hd10, t, ht⟩ := Decimal.head_toDigits hm
    have hchars : ∀ d < 10, 0 < d → d.digitChar ≠ '0' := by decide
    have hall : ∀ c ∈ Nat.toDigits 10 m, c.isDigit = true := fun c => Separated.isDigit_of_mem_toDigits
    unfold wholeDigits
    split
    · rename_i heq
      rw [ht, List.cons_append] at heq
      exact absurd (List.cons.inj heq).1 (hchars d hd10 hd)
    · rw [List.takeWhile_append_of_pos hall, (not_digit_of_ends h).1, List.append_nil]

theorem scanNumber_toDigits (m : ℕ) (h : Ends rest) :
    scanNumber (Nat.toDigits 10 m ++ rest) = some (.int m, rest) := by
  have hne : Nat.toDigits 10 m ≠ [] := Nat.toDigits_ne_nil
  have hunsigned : scanUnsigned [] (Nat.toDigits 10 m ++ rest) = some (.int m, rest) := by
    obtain ⟨-, hfraction, hexponent⟩ := not_digit_of_ends h
    rw [scanUnsigned, wholeDigits_toDigits m h]
    simp only [List.drop_left, hfraction, List.length_nil, List.drop_zero, hexponent,
      List.append_nil, if_neg hne, if_true, Nat.ofDigitChars_ten_toDigits]
  unfold scanNumber
  split
  · rename_i heq
    obtain ⟨c, t, ht⟩ := List.exists_cons_of_ne_nil hne
    have hdigit : c.isDigit = true := Separated.isDigit_of_mem_toDigits (ht ▸ List.mem_cons_self)
    rw [ht, List.cons_append] at heq
    rw [(List.cons.inj heq).1] at hdigit
    cases hdigit
  · exact hunsigned

theorem scanLiteral_digit (h : c.isDigit = true) : scanLiteral (c :: t) = none := by
  have hne : ∀ d ∈ ['n', 't', 'f', 'N', 'I', '-'], d ≠ c := by
    intro d hd
    rintro rfl
    have hnone : ∀ d ∈ ['n', 't', 'f', 'N', 'I', '-'], d.isDigit = false :=
      List.all_iff_forall_prop.mp (by decide)
    rw [hnone d hd] at h
    cases h
  simp only [List.forall_mem_cons] at hne
  obtain ⟨hn, ht, hf, hN, hI, hminus, -⟩ := hne
  simp [scanLiteral, literals, hn, ht, hf, hN, hI, hminus]

theorem scanValue_leaf (h : Leaf v) (hends : Ends rest) (hn : (dumps true v).length ≤ n) :
    scanValue (n + 1) (dumps true v ++ rest) = some (v, rest) ∧
      skip (dumps true v ++ rest) = dumps true v ++ rest := by
  rcases h with ⟨t, ht, rfl⟩ | ⟨m, rfl⟩
  · have htext : dumps true (.str t) =
        Char.ofNat quoteCode :: (t ++ [Char.ofNat quoteCode]) := by
      rw [dumps, quoted_plain ht]
    rw [htext] at hn ⊢
    simp only [List.length_cons, List.length_append, List.length_nil] at hn
    rw [List.cons_append, List.append_assoc, List.singleton_append]
    refine ⟨?_, skip_cons rfl⟩
    rw [scanValue, if_pos (by rfl), scanString_plain ht (by omega), Option.map_some]
  · have htext : dumps true (.int m) = Nat.toDigits 10 m := by
      rw [dumps, intText, if_neg (by omega)]
      rfl
    rw [htext]
    obtain ⟨c, t, ht⟩ := List.exists_cons_of_ne_nil (Nat.toDigits_ne_nil (n := m) (b := 10))
    have hdigit : c.isDigit = true := Separated.isDigit_of_mem_toDigits (ht ▸ List.mem_cons_self)
    have hcode : 48 ≤ c.toNat ∧ c.toNat ≤ 57 := Char.isDigit_iff_toNat.mp hdigit
    have hscan := scanNumber_toDigits m hends
    rw [ht, List.cons_append] at hscan ⊢
    refine ⟨?_, skip_cons ?_⟩
    · rw [scanValue, if_neg (by unfold quoteCode; omega), if_neg (by omega), if_neg ?_,
        scanLiteral_digit hdigit]
      · exact hscan
      · rintro rfl
        cases hdigit
    · rw [isBlank, List.contains_eq_mem, decide_eq_false_iff_not]
      intro hmem
      have hnone : ∀ c ∈ [' ', '\t', '\n', '\r'], c.isDigit = false :=
        List.all_iff_forall_prop.mp (by decide)
      rw [hnone c hmem] at hdigit
      cases hdigit

def tailText (l : List (Scalar × Value)) : Text := l.flatMap fun e => ',' :: memberText e

theorem intercalate_members (e : Scalar × Value) (l : List (Scalar × Value)) :
    [','].intercalate ((e :: l).map memberText) = memberText e ++ tailText l := by
  induction l generalizing e with
  | nil => simp [tailText]
  | cons e' l ih =>
    rw [List.map_cons, List.map_cons, List.intercalate_cons_cons, ← List.map_cons, ih e']
    simp [tailText]

theorem scanMembers_member (he : Flat e) (hn : (memberText e).length ≤ n) (t : Text) :
    scanMembers (n + 1) entries (memberText e ++ ',' :: t) =
        scanMembers n (Assoc.assign entries e.1 e.2) (skip t) ∧
      scanMembers (n + 1) entries (memberText e ++ Char.ofNat 0x7d :: t) =
        some (Assoc.assign entries e.1 e.2, t) := by
  obtain ⟨k, hk, hkey, hleaf⟩ := he
  obtain ⟨key, v⟩ := e
  obtain rfl : key = .str k := hkey
  replace hleaf : Leaf v := hleaf
  have htext : memberText (.str k, v) =
      Char.ofNat quoteCode :: (k ++ Char.ofNat quoteCode :: ':' :: dumps true v) := by
    rw [memberText, keyText, quoted_plain hk, List.cons_append, List.append_assoc,
      List.singleton_append]
  rw [htext] at hn ⊢
  simp only [List.length_cons, List.length_append] at hn
  obtain ⟨n, rfl⟩ : ∃ m, n = m + 1 := ⟨n - 1, by omega⟩
  have hquote : (Char.ofNat quoteCode).toNat = quoteCode := rfl
  have hread : ∀ rest, Ends rest →
      scanString (n + 1) (k ++ Char.ofNat quoteCode :: ':' :: dumps true v ++ rest) =
        some (k, ':' :: (dumps true v ++ rest)) ∧
      scanValue (n + 1) (skip (dumps true v ++ rest)) = some (v, rest) := by
    intro rest hends
    obtain ⟨hscan, hskip⟩ := scanValue_leaf hleaf hends (n := n) (by omega)
    rw [List.append_assoc, List.cons_append, List.cons_append, hskip]
    exact ⟨scanString_plain hk (by omega), hscan⟩
  constructor
  · obtain ⟨hstring, hvalue⟩ := hread (',' :: t) ⟨',', t, rfl, .inl rfl⟩
    rw [List.cons_append, scanMembers, if_pos hquote, hstring]
    simp only [skip_cons (c := ':') rfl, hvalue, skip_cons (c := ',') rfl]
  · have hends : Ends (Char.ofNat 0x7d :: t) := ⟨_, t, rfl, .inr rfl⟩
    obtain ⟨hstring, hvalue⟩ := hread _ hends
    rw [List.cons_append, scanMembers, if_pos hquote, hstring]
    simp only [skip_cons (c := ':') rfl, hvalue, skip_ends hends]
    rfl

theorem skip_memberText (e : Scalar × Value) (t : Text) :
    skip (memberText e ++ t) = memberText e ++ t := skip_cons rfl

theorem scanMembers_flat (he : Flat e) (hl : ∀ e ∈ l, Flat e)
    (hn : (memberText e ++ tailText l).length < n) :
    scanMembers n entries (memberText e ++ (tailText l ++ Char.ofNat 0x7d :: rest)) =
      some (Assoc.assignAll entries (e :: l), rest) := by
  induction l generalizing e n entries with
  | nil =>
    obtain ⟨n, rfl⟩ : ∃ m, n = m + 1 := ⟨n - 1, by omega⟩
    simp only [tailText, List.flatMap_nil, List.append_nil] at hn
    exact (scanMembers_member he (by omega) rest).2
  | cons e' l ih =>
    obtain ⟨n, rfl⟩ : ∃ m, n = m + 1 := ⟨n - 1, by omega⟩
    obtain ⟨he', hl⟩ := List.forall_mem_cons.mp hl
    have htail : tailText (e' :: l) = ',' :: (memberText e' ++ tailText l) := rfl
    rw [htail] at hn ⊢
    simp only [List.length_append, List.length_cons] at hn
    rw [List.cons_append, (scanMembers_member he (by omega) _).1, List.append_assoc,
      skip_memberText, ih he' hl (by rw [List.length_append]; omega)]
    rfl

theorem loads_dumps (hflat : ∀ e ∈ entries, Flat e) (hne : entries ≠ [])
    (hnodup : (entries.map Prod.fst).Nodup) :
    loads (dumps true (.dict entries)) = some (.dict (sorted entries)) := by
  have hperm : (sorted entries).Perm entries := List.perm_insertionSort _ entries
  have hall : ∀ e ∈ sorted entries, Flat e := fun e he => hflat e (mem_sorted.mp he)
  have hmembers : (sorted (dumpsMembers true entries)).map
      (fun e => quoted true (keyText e.1) ++ ':' :: e.2) = (sorted entries).map memberText := by
    rw [dumpsMembers_eq, sorted_map, List.map_map]
    rfl
  cases hsorted : sorted entries with
  | nil =>
    rw [hsorted] at hperm
    exact absurd hperm.nil_eq.symm hne
  | cons e l =>
    rw [hsorted] at hmembers hall hperm
    obtain ⟨he, hl⟩ := List.forall_mem_cons.mp hall
    have hdistinct : (([] ++ (e :: l)).map Prod.fst).Nodup :=
      ((hperm.map Prod.fst).nodup_iff).mpr hnodup
    have htext : dumps true (.dict entries) = Char.ofNat 0x7b ::
        (memberText e ++ (tailText l ++ [Char.ofNat 0x7d])) := by
      rw [dumps, hmembers, intercalate_members, List.append_assoc]
    have hopen : skip (Char.ofNat 0x7b :: (memberText e ++ (tailText l ++ [Char.ofNat 0x7d]))) =
        Char.ofNat 0x7b :: (memberText e ++ (tailText l ++ [Char.ofNat 0x7d])) := skip_cons rfl
    have hhead : (memberText e ++ (tailText l ++ [Char.ofNat 0x7d])).head?.map Char.toNat ≠
        some 0x7d := by
      rw [memberText, quoted]
      simp
    have hscan : scanMembers ((memberText e ++ (tailText l ++ [Char.ofNat 0x7d])).length + 1) []
        (memberText e ++ (tailText l ++ [Char.ofNat 0x7d])) =
        some (Assoc.assignAll [] (e :: l), []) := scanMembers_flat he hl (by simp)
    rw [Assoc.assignAll_eq_append hdistinct, List.nil_append] at hscan
    rw [loads, htext, hopen, List.length_cons, scanValue, if_neg (by decide), if_pos (by decide),
      skip_memberText, if_neg hhead, hscan]
    rfl

/-- The members of a flat dictionary are read back in some order. -/
theorem exists_loads_dumps {l : List (Text × Value)}
    (hflat : ∀ e ∈ l, (∀ c ∈ e.1, Plain c) ∧ Leaf e.2) (hne : l ≠ [])
    (hnodup : (l.map Prod.fst).Nodup) :
    ∃ m, m.Perm l ∧ loads (dumps true (.ofMembers l)) = some (.ofMembers m) := by
  have hentries : ∀ e ∈ l.map (fun e => (Scalar.str e.1, e.2)), Flat e := by
    intro e he
    obtain ⟨m, hm, rfl⟩ := List.mem_map.mp he
    exact ⟨m.1, (hflat m hm).1, rfl, (hflat m hm).2⟩
  have hkeys : ((l.map fun e => (Scalar.str e.1, e.2)).map Prod.fst).Nodup := by
    rw [List.map_map]
    have hstr : (Prod.fst ∘ fun e : Text × Value => (Scalar.str e.1, e.2)) =
        Scalar.str ∘ Prod.fst := rfl
    rw [hstr, ← List.map_map]
    exact hnodup.map fun _ _ h => Scalar.str.inj h
  have hperm := List.perm_insertionSort
    (fun e e' : Scalar × Value => keyText e.1 ≤ keyText e'.1) (l.map fun e => (Scalar.str e.1, e.2))
  have hback := hperm.map fun e : Scalar × Value => (keyText e.1, e.2)
  rw [List.map_map] at hback
  have hid : (fun e : Scalar × Value => (keyText e.1, e.2)) ∘
      (fun e : Text × Value => (Scalar.str e.1, e.2)) = id := rfl
  rw [hid, List.map_id] at hback
  refine ⟨_, hback, ?_⟩
  rw [Value.ofMembers, loads_dumps hentries (by simpa using hne) hkeys, Value.ofMembers,
    List.map_map]
  congr 2
  refine (List.map_id _).symm.trans (List.map_congr_left fun e he => ?_)
  obtain ⟨m, -, rfl⟩ := List.mem_map.mp (mem_sorted.mp he)
  rfl

end Json
end OpenChess
