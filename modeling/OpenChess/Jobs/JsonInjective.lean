import OpenChess.Jobs.Json
import OpenChess.Jobs.JsonLoads
import OpenChess.Jobs.Payload
import OpenChess.Lib.Separated
import OpenChess.Lib.UniqueDecoding

/-!
# Equal values

Two values are the same when they are equal with their types, save for the order in which
their dictionaries hold the members. The sorted copies of such values are equal.
-/

namespace OpenChess

theorem intText_injective : Function.Injective intText := by
  have hminus : ∀ m : ℕ, '-' ∉ Nat.toDigits 10 m := Separated.notMem_toDigits (by decide)
  intro m n h
  unfold intText at h
  split_ifs at h with hm hn hn
  · have habs := Separated.toDigits_injective (List.cons.inj h).2
    omega
  · exact absurd (h ▸ List.mem_cons_self) (hminus _)
  · exact absurd (h ▸ List.mem_cons_self) (hminus _)
  · have habs := Separated.toDigits_injective h
    omega

namespace Json

/-- The same value, types included; the order of the members of a dictionary does not count. -/
def Same (v v' : Value) : Prop := copy v = copy v'

variable {v v' : Value} {items items' : List Value} {members members' : List (Text × Value)}

def byKey {V : Type} (members : List (Text × V)) : List (Text × V) :=
  members.insertionSort fun e e' => e.1 ≤ e'.1

theorem perm_byKey {V : Type} (members : List (Text × V)) : (byKey members).Perm members :=
  List.perm_insertionSort _ _

theorem byKey_map {V W : Type} (f : V → W) (members : List (Text × V)) :
    byKey (members.map fun e => (e.1, f e.2)) = (byKey members).map fun e => (e.1, f e.2) :=
  (List.map_insertionSort (fun e e' : Text × V => e.1 ≤ e'.1)
    (fun e e' : Text × W => e.1 ≤ e'.1) (fun e : Text × V => (e.1, f e.2)) members
    fun _ _ _ _ => Iff.rfl).symm

theorem byKey_eq_of_perm {V : Type} {members members' : List (Text × V)}
    (hnodup : (members.map Prod.fst).Nodup) (h : members.Perm members') :
    byKey members = byKey members' := by
  have hsorted : ∀ l : List (Text × V), (byKey l).Pairwise fun e e' => e.1 ≤ e'.1 := by
    intro l
    have htotal : Std.Total fun e e' : Text × V => e.1 ≤ e'.1 := ⟨fun e e' => le_total e.1 e'.1⟩
    have htrans : IsTrans (Text × V) fun e e' => e.1 ≤ e'.1 := ⟨fun _ _ _ h h' => le_trans h h'⟩
    exact List.pairwise_insertionSort _ l
  refine List.Perm.eq_of_pairwise (fun e e' he he' hle hle' => ?_) (hsorted members)
    (hsorted members') (((perm_byKey members).trans h).trans (perm_byKey members').symm)
  have hmem : e ∈ members := (perm_byKey members).subset he
  have hmem' : e' ∈ members := h.symm.subset ((perm_byKey members').subset he')
  exact List.inj_on_of_nodup_map hnodup hmem hmem' (le_antisymm hle hle')

theorem sorted_ofMembers {V : Type} (members : List (Text × V)) :
    sorted (members.map fun e => ((.str e.1, e.2) : Scalar × V)) =
      (byKey members).map fun e => (.str e.1, e.2) :=
  (List.map_insertionSort (fun e e' : Text × V => e.1 ≤ e'.1)
    (fun e e' : Scalar × V => keyText e.1 ≤ keyText e'.1)
    (fun e : Text × V => ((.str e.1, e.2) : Scalar × V)) members fun _ _ _ _ => Iff.rfl).symm

theorem copy_ofMembers (members : List (Text × Value)) :
    copy (Value.ofMembers members) =
      Value.ofMembers ((byKey members).map fun e => (e.1, copy e.2)) := by
  have hmap : (members.map fun e => ((.str e.1, e.2) : Scalar × Value)).map
      (fun e => (e.1, copy e.2)) =
      (members.map fun e => (e.1, copy e.2)).map fun e => ((.str e.1, e.2) : Scalar × Value) := by
    rw [List.map_map, List.map_map]
    rfl
  rw [Value.ofMembers, copy, copyMembers_eq, hmap, sorted_ofMembers, byKey_map]
  rfl

theorem ofMembers_inj : Value.ofMembers members = Value.ofMembers members' ↔ members = members' := by
  constructor
  · intro h
    refine List.map_injective_iff.mpr (fun e e' heq => ?_) (Value.dict.inj h)
    exact Prod.ext (Scalar.str.inj (Prod.mk.inj heq).1) (Prod.mk.inj heq).2
  · rintro rfl
    rfl

theorem Same.symm (h : Same v v') : Same v' v := Eq.symm h

theorem same_copy (v : Value) : Same (copy v) v := copy_copy v

theorem same_list_iff : Same (.list items) (.list items') ↔ List.Forall₂ Same items items' := by
  rw [Same, copy, copy, Value.list.injEq, copyItems_eq, copyItems_eq,
    ← List.forall₂_eq_eq_eq, List.forall₂_map_left_iff, List.forall₂_map_right_iff]
  rfl

theorem same_ofMembers_iff (h : (members.map Prod.fst).Nodup) (h' : (members'.map Prod.fst).Nodup) :
    Same (Value.ofMembers members) (Value.ofMembers members') ↔
      ∀ k, (members.lookup k).map copy = (members'.lookup k).map copy := by
  have hkeys : ∀ {l : List (Text × Value)}, (l.map Prod.fst).Nodup →
      ((l.map fun e => (e.1, copy e.2)).map Prod.fst).Nodup := by
    intro l hl
    rwa [List.map_map]
  have hlookup : ∀ (l : List (Text × Value)) k,
      (l.lookup k).map copy = (l.map fun e => (e.1, copy e.2)).lookup k := by
    intro l k
    induction l with
    | nil => rfl
    | cons e l ih =>
      rw [List.map_cons, List.lookup_cons, List.lookup_cons]
      cases k == e.1 with
      | true => rfl
      | false => exact ih
  rw [Same, copy_ofMembers, copy_ofMembers, ofMembers_inj, ← byKey_map, ← byKey_map]
  simp only [hlookup]
  constructor
  · intro heq k
    have hperm : (members.map fun e => (e.1, copy e.2)).Perm
        (members'.map fun e => (e.1, copy e.2)) :=
      ((perm_byKey _).symm.trans (List.Perm.of_eq heq)).trans (perm_byKey _)
    refine Option.ext fun v => ?_
    rw [Dict.lookup_eq_some_iff_mem (hkeys h), Dict.lookup_eq_some_iff_mem (hkeys h'),
      hperm.mem_iff]
  · intro heq
    refine byKey_eq_of_perm (hkeys h) ?_
    rw [List.perm_ext_iff_of_nodup (hkeys h).of_map (hkeys h').of_map]
    intro e
    rw [← Dict.lookup_eq_some_iff_mem (hkeys h), ← Dict.lookup_eq_some_iff_mem (hkeys h'), heq]

/-- Same objects of distinct names have the same values under each. -/
theorem copies_of_same_object {names : List Text} (hnodup : names.Nodup)
    (hlength : names.length = items.length) (hlength' : names.length = items'.length)
    (h : Same (.object names items) (.object names items')) : items.map copy = items'.map copy := by
  have hfst : ∀ {vs : List Value}, names.length = vs.length → (names.zip vs).map Prod.fst = names :=
    fun hvs => List.map_fst_zip (le_of_eq hvs)
  have hlookups := (same_ofMembers_iff (by rwa [hfst hlength]) (by rwa [hfst hlength'])).mp h
  have hread : ∀ {vs : List Value}, names.length = vs.length →
      names.mapM (fun name => (names.zip vs).lookup name) = some vs := by
    intro vs hvs
    have hall := Dict.mapM_lookup (l := names.zip vs) (by rwa [hfst hvs])
    rwa [hfst hvs, List.map_snd_zip (ge_of_eq hvs)] at hall
  refine List.ext_getElem? fun i => ?_
  rw [List.getElem?_map, List.getElem?_map]
  cases hname : names[i]? with
  | none =>
    have hout := List.getElem?_eq_none_iff.mp hname
    rw [List.getElem?_eq_none (by omega), List.getElem?_eq_none (by omega)]
  | some name =>
    rw [← Separated.getElem?_of_mapM (hread hlength) hname, ← Separated.getElem?_of_mapM (hread hlength') hname]
    exact hlookups name

end Json
end OpenChess

/-!
## Canonical JSON tells values apart

A canonical text begins with a mark of its kind of value and ends where no part of it can
follow. So equal canonical texts are of the same value: a string is read back from its
escapes, and a float is told from an integer by its fraction or its exponent.
-/

namespace OpenChess
namespace Json

open UniqueDecoding (ReadBack)

/-- The text of a finite float: what JSON reads as the float of that text. -/
def FloatText (t : Text) : Prop := scanNumber t = some (.float true t, [])

mutual

/-- Every finite float is known by the text of a float. -/
def FloatsPrinted : Value → Prop
  | .float true text => FloatText text
  | .list items => ItemsPrinted items
  | .dict entries => MembersPrinted entries
  | _ => True

def ItemsPrinted : List Value → Prop
  | [] => True
  | v :: items => FloatsPrinted v ∧ ItemsPrinted items

def MembersPrinted : List (Scalar × Value) → Prop
  | [] => True
  | (_, v) :: entries => FloatsPrinted v ∧ MembersPrinted entries

end

/-- Exact JSON, with finite floats only. -/
inductive Printable : Value → Prop
  | null : Printable .null
  | bool (b : Bool) : Printable (.bool b)
  | int (n : ℤ) : Printable (.int n)
  | float (t : Text) (h : FloatText t) : Printable (.float true t)
  | str (t : Text) : Printable (.str t)
  | list (items : List Value) (h : ∀ v ∈ items, Printable v) : Printable (.list items)
  | dict (entries : List (Scalar × Value)) (hkeys : ∀ e ∈ entries, e.1.text?.isSome = true)
    (h : ∀ e ∈ entries, Printable e.2) : Printable (.dict entries)

variable {v v' : Value} {t t' r s : Text} {c : Char} {n : ℕ}

theorem itemsPrinted_iff {items : List Value} :
    ItemsPrinted items ↔ ∀ v ∈ items, FloatsPrinted v := by
  induction items with
  | nil => simp [ItemsPrinted]
  | cons v items ih => rw [ItemsPrinted, ih, List.forall_mem_cons]

theorem membersPrinted_iff {entries : List (Scalar × Value)} :
    MembersPrinted entries ↔ ∀ e ∈ entries, FloatsPrinted e.2 := by
  induction entries with
  | nil => simp [MembersPrinted]
  | cons e entries ih => rw [MembersPrinted, ih, List.forall_mem_cons]

/-- A plain payload is exact JSON. -/
theorem printable_of_plain {L : Payload.Limits} {levels : ℕ} (h : Payload.Plain L levels v)
    (hfloats : FloatsPrinted v) : Printable v := by
  induction v using Value.induction generalizing levels with
  | hatom v hlist hdict =>
    cases v with
    | null => exact .null
    | bool b => exact .bool b
    | int n => exact .int n
    | float finite text =>
      cases finite with
      | true => exact .float text hfloats
      | false => exact absurd h Bool.false_ne_true
    | str t => exact .str t
    | list items => exact absurd rfl (hlist items)
    | dict entries => exact absurd rfl (hdict entries)
    | foreign tag => exact absurd h Bool.false_ne_true
  | hlist items ih =>
    rw [FloatsPrinted, itemsPrinted_iff] at hfloats
    rw [Payload.Plain, Payload.plainItems_iff] at h
    exact .list items fun v hv => ih v hv (h.2 v hv) (hfloats v hv)
  | hdict entries ih =>
    rw [FloatsPrinted, membersPrinted_iff] at hfloats
    rw [Payload.Plain, Payload.plainMembers_iff] at h
    exact .dict entries (fun e he => (h.2 e he).1) fun e he =>
      ih e he (h.2 e he).2 (hfloats e he)

/-! ### Strings -/

theorem hexValue?_digits {d : ℕ} (h : d < 16) : hexValue? (Hex.digits.getD d '0') = some d := by
  revert d
  decide

theorem hexCode?_unicodeEscape (h : n < 0x10000) :
    hexCode? ((unicodeEscape n).drop 2 ++ t) = some (n, t) := by
  have hdigit : ∀ m : ℕ, hexValue? (Hex.digits.getD (m % 16) '0') = some (m % 16) := fun m =>
    hexValue?_digits (Nat.mod_lt m (by decide))
  simp only [unicodeEscape, List.map_cons, List.map_nil, List.drop_succ_cons, List.drop_zero,
    List.cons_append, List.nil_append, hexCode?, List.mapM_cons, List.mapM_nil, hdigit,
    Option.bind_eq_bind, Option.bind_some, Option.pure_def, List.foldl_cons, List.foldl_nil]
  have hvalue : 16 * (16 * (16 * (16 * 0 + n / 4096 % 16) + n / 256 % 16) + n / 16 % 16) + n % 16 =
      n := by omega
  rw [hvalue]

/-- One character of a string is read back from its escape. -/
theorem scanString_escape (c : Char) (t : Text) (n : ℕ) :
    scanString (n + 1) (escape false c ++ t) = (scanString n t).map fun r => (c :: r.1, r.2) := by
  have hcode : ∀ {m : ℕ}, c.toNat = m → c = Char.ofNat m := by
    rintro m rfl
    exact (Char.ofNat_toNat c).symm
  unfold escape
  split_ifs with hself hback htab hline hfeed hreturn hcontrol hplain hwide
  · rcases hself with h | h <;> obtain rfl := hcode h <;> rfl
  · obtain rfl := hcode hback
    rfl
  · obtain rfl := hcode htab
    rfl
  · obtain rfl := hcode hline
    rfl
  · obtain rfl := hcode hfeed
    rfl
  · obtain rfl := hcode hreturn
    rfl
  · have hread : scanEscape ('u' :: ((unicodeEscape c.toNat).drop 2 ++ t)) = some (c, t) := by
      rw [scanEscape, hexCode?_unicodeEscape (by omega)]
      simp only [if_neg (show ¬ (0xd800 ≤ c.toNat ∧ c.toNat < 0xdc00) by omega),
        if_neg (show ¬ (0xdc00 ≤ c.toNat ∧ c.toNat < 0xe000) by omega), Char.ofNat_toNat]
    have hhead : unicodeEscape c.toNat ++ t =
        Char.ofNat 0x5c :: 'u' :: ((unicodeEscape c.toNat).drop 2 ++ t) := rfl
    rw [hhead, scanString, if_neg (by decide), if_pos (by decide), hread]
  · rw [not_or] at hself
    rw [List.singleton_append, scanString, if_neg (show c.toNat ≠ quoteCode from hself.1),
      if_neg (show c.toNat ≠ backslashCode from hself.2), if_neg hcontrol]
  · exact absurd (Or.inl rfl) hplain
  · exact absurd (Or.inl rfl) hplain

/-- A string is read back from its text, whatever follows. -/
theorem scanString_quoted (h : t.length < n) :
    scanString n (t.flatMap (escape false) ++ Char.ofNat 0x22 :: r) = some (t, r) := by
  induction t generalizing n with
  | nil =>
    cases n with
    | zero => cases h
    | succ n => rfl
  | cons c t ih =>
    cases n with
    | zero => cases h
    | succ n =>
      rw [List.flatMap_cons, List.append_assoc, scanString_escape, ih (Nat.lt_of_succ_lt_succ h),
        Option.map_some]

theorem quoted_append_inj (h : quoted false t ++ r = quoted false t' ++ s) : t = t' ∧ r = s := by
  simp only [quoted, List.cons_append, List.append_assoc, List.nil_append, List.cons.injEq,
    true_and] at h
  have hleft : scanString (t.length + t'.length + 1) _ = _ :=
    scanString_quoted (t := t) (r := r) (by omega)
  have hright : scanString (t.length + t'.length + 1) _ = _ :=
    scanString_quoted (t := t') (r := s) (by omega)
  rw [h, hright] at hleft
  obtain ⟨rfl, rfl⟩ := Prod.mk.inj (Option.some.inj hleft)
  exact ⟨rfl, rfl⟩

/-! ### Numbers -/

def numeral (c : Char) : Bool := c.isDigit || ['+', '-', '.', 'e', 'E'].contains c

def floatMark (c : Char) : Bool := ['.', 'e', 'E'].contains c

theorem numeral_intText (n : ℤ) :
    (intText n).all numeral = true ∧ (intText n).any floatMark = false := by
  have hdigits : ∀ m : ℕ, (Nat.toDigits 10 m).all numeral = true ∧
      (Nat.toDigits 10 m).any floatMark = false := by
    intro m
    have hdigit : ∀ c ∈ Nat.toDigits 10 m, c.isDigit = true := fun c =>
      Separated.isDigit_of_mem_toDigits
    constructor
    · rw [List.all_eq_true]
      intro c hc
      rw [numeral, hdigit c hc, Bool.true_or]
    · rw [List.any_eq_false]
      intro c hc hmark
      have hmarks : ∀ d ∈ ['.', 'e', 'E'], d.isDigit = false :=
        List.all_iff_forall_prop.mp (by decide)
      have hfalse := hmarks c (List.contains_iff_mem.mp hmark)
      rw [hdigit c hc] at hfalse
      cases hfalse
  unfold intText
  split_ifs
  · exact ⟨by rw [List.all_cons, (hdigits _).1]; decide, by rw [List.any_cons, (hdigits _).2]; decide⟩
  · exact hdigits _

theorem isDigit_takeWhile (t : Text) : (t.takeWhile Char.isDigit).all Char.isDigit = true :=
  List.all_takeWhile

theorem numeral_of_digits (h : t.all Char.isDigit = true) : t.all numeral = true := by
  rw [List.all_eq_true] at h ⊢
  intro c hc
  rw [numeral, h c hc, Bool.true_or]

theorem isDigit_wholeDigits (t : Text) : (wholeDigits t).all Char.isDigit = true := by
  unfold wholeDigits
  split
  · rfl
  · exact isDigit_takeWhile _

theorem numeral_fraction (t : Text) : (fraction t).all numeral = true ∧
    (fraction t = [] ∨ (fraction t).any floatMark = true) := by
  unfold fraction
  split
  · split_ifs
    · exact ⟨rfl, .inl rfl⟩
    · refine ⟨?_, .inr rfl⟩
      rw [List.all_cons, numeral_of_digits (isDigit_takeWhile _)]
      rfl
  · exact ⟨rfl, .inl rfl⟩

theorem numeral_exponent (t : Text) : (exponent t).all numeral = true ∧
    (exponent t = [] ∨ (exponent t).any floatMark = true) := by
  cases t with
  | nil => exact ⟨rfl, .inl rfl⟩
  | cons c t =>
    rw [exponent]
    split_ifs with hmark
    · rw [Bool.and_eq_true, Bool.or_eq_true, beq_iff_eq, beq_iff_eq] at hmark
      have hsign : ((t.take 1).filter fun s => s == '+' || s == '-').all numeral = true := by
        rw [List.all_filter, List.all_eq_true]
        intro d _
        cases hd : d == '+' || d == '-' with
        | false => rfl
        | true =>
          rw [Bool.or_eq_true, beq_iff_eq, beq_iff_eq] at hd
          rcases hd with rfl | rfl <;> rfl
      have hdigits := numeral_of_digits (isDigit_takeWhile
        (t.drop ((t.take 1).filter fun s => s == '+' || s == '-').length))
      refine ⟨?_, .inr ?_⟩
      · rw [List.all_cons, List.all_append, hsign, hdigits]
        rcases hmark.1 with rfl | rfl <;> rfl
      · rcases hmark.1 with rfl | rfl <;> rfl
    · exact ⟨rfl, .inl rfl⟩

theorem scanUnsigned_float {sign : Text} (h : scanUnsigned sign t = some (.float true t', [])) :
    ∃ whole tail, t' = sign ++ whole ++ tail ∧ whole ≠ [] ∧ whole.all Char.isDigit = true ∧
      tail.all numeral = true ∧ tail.any floatMark = true := by
  unfold scanUnsigned at h
  simp only at h
  split_ifs at h with hwhole htail hsign
  · cases h
  · cases h
  · obtain ⟨hvalue, -⟩ := Prod.mk.inj (Option.some.inj h)
    obtain ⟨hfraction, hmark⟩ := numeral_fraction (t.drop (wholeDigits t).length)
    obtain ⟨hexponent, hmark'⟩ := numeral_exponent ((t.drop (wholeDigits t).length).drop
      (fraction (t.drop (wholeDigits t).length)).length)
    refine ⟨_, _, (Value.float.inj hvalue).2.symm, hwhole, isDigit_wholeDigits t, ?_, ?_⟩
    · rw [List.all_append, hfraction, hexponent]
      rfl
    · rw [List.any_append, Bool.or_eq_true]
      rw [List.append_eq_nil_iff, not_and_or] at htail
      rcases htail with hne | hne
      · exact .inl (hmark.resolve_left hne)
      · exact .inr (hmark'.resolve_left hne)

theorem numeral_floatText (h : FloatText t) :
    t.all numeral = true ∧ t.any floatMark = true ∧
      ∃ c rest, t = c :: rest ∧ (c = '-' ∨ c.isDigit = true) := by
  unfold FloatText scanNumber at h
  split at h
  · rename_i u
    obtain ⟨whole, tail, heq, hne, hdigits, htail, hmark⟩ := scanUnsigned_float h
    rw [heq]
    refine ⟨?_, ?_, '-', whole ++ tail, rfl, .inl rfl⟩
    · rw [List.all_append, List.all_append, numeral_of_digits hdigits, htail]
      rfl
    · rw [List.any_append, hmark, Bool.or_true]
  · obtain ⟨whole, tail, heq, hne, hdigits, htail, hmark⟩ := scanUnsigned_float h
    obtain ⟨c, rest, rfl⟩ := List.exists_cons_of_ne_nil hne
    rw [heq]
    refine ⟨?_, ?_, c, rest ++ tail, rfl, .inr ?_⟩
    · rw [List.all_append, List.all_append, numeral_of_digits hdigits, htail]
      rfl
    · rw [List.any_append, hmark, Bool.or_true]
    · rw [List.all_cons, Bool.and_eq_true] at hdigits
      exact hdigits.1

/-! ### Any value -/

/-- The kind of value a text is of, by its first letter. -/
def markKind (c : Char) : ℕ :=
  if c = 'n' then 0
  else if c = 't' then 1
  else if c = 'f' then 2
  else if c = '-' ∨ c.isDigit = true then 3
  else if c.toNat = 0x22 then 4
  else if c = '[' then 5
  else if c.toNat = 0x7b then 6
  else 7

def kind : Value → ℕ
  | .null => 0
  | .bool b => if b then 1 else 2
  | .int _ | .float .. => 3
  | .str _ => 4
  | .list _ => 5
  | .dict _ => 6
  | .foreign _ => 7

theorem markKind_number (h : c = '-' ∨ c.isDigit = true) : markKind c = 3 := by
  have hne : ∀ d ∈ ['n', 't', 'f'], c ≠ d := by
    rintro d hd rfl
    have hnone : ∀ d ∈ ['n', 't', 'f'], d ≠ '-' ∧ d.isDigit = false :=
      List.all_iff_forall_prop.mp (by decide)
    obtain ⟨hminus, hdigit⟩ := hnone c hd
    rw [hdigit] at h
    exact h.elim hminus Bool.false_ne_true
  simp only [List.mem_cons, List.not_mem_nil, or_false, forall_eq_or_imp, forall_eq] at hne
  rw [markKind, if_neg hne.1, if_neg hne.2.1, if_neg hne.2.2, if_pos h]

/-- What a printable value is, it says with its first letter. -/
theorem Printable.head (h : Printable v) : ∃ c t, dumps false v = c :: t ∧ markKind c = kind v := by
  cases h with
  | null => exact ⟨_, _, rfl, rfl⟩
  | bool b => cases b <;> exact ⟨_, _, rfl, rfl⟩
  | int n =>
    obtain ⟨c, t, ht⟩ : ∃ c t, Nat.toDigits 10 n.natAbs = c :: t :=
      List.exists_cons_of_ne_nil Nat.toDigits_ne_nil
    rw [dumps, intText]
    split_ifs
    · exact ⟨_, _, rfl, rfl⟩
    · exact ⟨c, t, ht, markKind_number (.inr (Separated.isDigit_of_mem_toDigits (ht ▸ List.mem_cons_self)))⟩
  | float t h =>
    obtain ⟨-, -, c, rest, rfl, hc⟩ := numeral_floatText h
    exact ⟨c, rest, rfl, markKind_number hc⟩
  | str t => exact ⟨_, _, rfl, rfl⟩
  | list items h => exact ⟨_, _, rfl, rfl⟩
  | dict entries hkeys h => exact ⟨_, _, rfl, rfl⟩

def Dumps (v : Value) (t : Text) : Prop := Printable v ∧ dumps false v = t

def Follows (t : Text) : Prop := ∀ c ∈ t.head?, numeral c = false

theorem follows_cons (h : numeral c = false) : Follows (c :: t) := by
  intro d hd
  rwa [← Option.mem_some_iff.mp hd]

theorem kind_eq_of_append (hx : Dumps v t) (hy : Dumps v' t') (h : t ++ r = t' ++ s) :
    kind v = kind v' := by
  obtain ⟨hv, rfl⟩ := hx
  obtain ⟨hv', rfl⟩ := hy
  obtain ⟨c, t, ht, hc⟩ := hv.head
  obtain ⟨c', t', ht', hc'⟩ := hv'.head
  rw [ht, ht'] at h
  rw [← hc, ← hc', (List.cons.inj h).1]

def DumpsMember (e : Scalar × Value) (part : Text) : Prop :=
  e.1.text?.isSome = true ∧ ∃ t, Dumps e.2 t ∧ part = quoted false (keyText e.1) ++ ':' :: t

theorem readBack_member {e : Scalar × Value} (h : ReadBack Dumps Follows Same e.2) :
    ReadBack DumpsMember Follows (fun e e' => e.1 = e'.1 ∧ Same e.2 e'.2) e := by
  rintro e' _ _ r s ⟨hkey, t, ht, rfl⟩ ⟨hkey', t', ht', rfl⟩ hr hs heq
  rw [List.append_assoc, List.append_assoc] at heq
  obtain ⟨hname, heq⟩ := quoted_append_inj heq
  obtain ⟨hvalue, hrest⟩ := h ht ht' hr hs (List.cons.inj heq).2
  refine ⟨⟨?_, hvalue⟩, hrest⟩
  obtain ⟨k, hk⟩ := Option.isSome_iff_exists.mp hkey
  obtain ⟨k', hk'⟩ := Option.isSome_iff_exists.mp hkey'
  rw [Scalar.text?_eq_some.mp hk, Scalar.text?_eq_some.mp hk'] at hname ⊢
  exact congrArg Scalar.str hname

theorem Printable.numeral (h : Printable v) (hkind : kind v = 3) :
    (dumps false v).all numeral = true := by
  cases h with
  | int n => exact (numeral_intText n).1
  | float t h => exact (numeral_floatText h).1
  | bool b => cases b <;> simp [kind] at hkind
  | _ => simp [kind] at hkind

theorem same_of_number (h : Printable v) (h' : Printable v') (hkind : kind v = 3)
    (hkind' : kind v' = 3) (heq : dumps false v = dumps false v') : Same v v' := by
  have hmixed : ∀ {n : ℤ} {t : Text}, FloatText t → intText n ≠ t := by
    rintro n t hfloat rfl
    have hmark := (numeral_floatText hfloat).2.1
    rw [(numeral_intText n).2] at hmark
    cases hmark
  cases h with
  | int n =>
    cases h' with
    | int n' => rw [intText_injective heq]; rfl
    | float t h' => exact absurd heq (hmixed h')
    | bool b => cases b <;> simp [kind] at hkind'
    | _ => simp [kind] at hkind'
  | float t h =>
    cases h' with
    | int n' => exact absurd heq.symm (hmixed h)
    | float t' h' => exact congrArg (Value.float true) heq
    | bool b => cases b <;> simp [kind] at hkind'
    | _ => simp [kind] at hkind'
  | bool b => cases b <;> simp [kind] at hkind
  | _ => simp [kind] at hkind

/-- A list or a dictionary ends with a mark that begins none of its parts. -/
theorem Dumps.start {close : Char} (hclose : markKind close = 7) (h : Dumps v t) :
    ∃ c u, t = c :: u ∧ c ≠ close := by
  obtain ⟨hv, rfl⟩ := h
  obtain ⟨c, u, hu, hc⟩ := hv.head
  refine ⟨c, u, hu, ?_⟩
  rintro rfl
  rw [hclose] at hc
  cases hv with
  | bool b => cases b <;> simp [kind] at hc
  | _ => simp [kind] at hc

theorem forall₂_dumps {items : List Value} (h : ∀ v ∈ items, Printable v) :
    List.Forall₂ Dumps items (items.map (dumps false)) := by
  rw [List.forall₂_map_right_iff, List.forall₂_same]
  exact fun v hv => ⟨h v hv, rfl⟩

theorem forall₂_dumpsMember {entries : List (Scalar × Value)}
    (hkeys : ∀ e ∈ entries, e.1.text?.isSome = true) (h : ∀ e ∈ entries, Printable e.2) :
    List.Forall₂ DumpsMember (sorted entries) ((sorted (dumpsMembers false entries)).map fun e =>
      quoted false (keyText e.1) ++ ':' :: e.2) := by
  rw [dumpsMembers_eq, sorted_map, List.map_map, List.forall₂_map_right_iff, List.forall₂_same]
  exact fun e he => ⟨hkeys e (mem_sorted.mp he), _, ⟨h e (mem_sorted.mp he), rfl⟩, rfl⟩

theorem Printable.exists_items (h : Printable v) (hkind : kind v = 5) :
    ∃ items, v = .list items ∧ ∀ x ∈ items, Printable x := by
  cases h with
  | list items h => exact ⟨items, rfl, h⟩
  | bool b => cases b <;> simp [kind] at hkind
  | _ => simp [kind] at hkind

theorem Printable.exists_entries (h : Printable v) (hkind : kind v = 6) :
    ∃ entries, v = .dict entries ∧ (∀ e ∈ entries, e.1.text?.isSome = true) ∧
      ∀ e ∈ entries, Printable e.2 := by
  cases h with
  | dict entries hkeys h => exact ⟨entries, rfl, hkeys, h⟩
  | bool b => cases b <;> simp [kind] at hkind
  | _ => simp [kind] at hkind

theorem readBack_leaf (hlist : ∀ items, v ≠ .list items) (hdict : ∀ entries, v ≠ .dict entries) :
    ReadBack Dumps Follows Same v := by
  rintro b x y r s hx hy hr hs heq
  have hkind := kind_eq_of_append hx hy heq
  obtain ⟨hv, rfl⟩ := hx
  obtain ⟨hb, rfl⟩ := hy
  by_cases hnumber : kind v = 3
  · have hnumber' : kind b = 3 := hkind ▸ hnumber
    obtain ⟨htext, hrest⟩ := UniqueDecoding.append_inj_of_all (hv.numeral hnumber)
      (hb.numeral hnumber') hr hs heq
    exact ⟨same_of_number hv hb hnumber hnumber' htext, hrest⟩
  · cases hv with
    | null =>
      cases hb with
      | null => exact ⟨rfl, List.append_cancel_left heq⟩
      | bool b => cases b <;> simp [kind] at hkind
      | _ => simp [kind] at hkind
    | bool b =>
      cases hb with
      | bool b' =>
        obtain rfl : b = b' := by
          cases b <;> cases b' <;> simp [kind] at hkind ⊢
        exact ⟨rfl, List.append_cancel_left heq⟩
      | _ => cases b <;> simp [kind] at hkind
    | int n => exact absurd rfl hnumber
    | float t h => exact absurd rfl hnumber
    | str t =>
      cases hb with
      | str t' =>
        obtain ⟨rfl, hrest⟩ := quoted_append_inj heq
        exact ⟨rfl, hrest⟩
      | bool b => cases b <;> simp [kind] at hkind
      | _ => simp [kind] at hkind
    | list items h => exact absurd rfl (hlist items)
    | dict entries hkeys h => exact absurd rfl (hdict entries)

theorem readBack_list {items : List Value} (ih : ∀ x ∈ items, ReadBack Dumps Follows Same x) :
    ReadBack Dumps Follows Same (.list items) := by
  rintro b x y r s hx hy - - heq
  have hkind := kind_eq_of_append hx hy heq
  obtain ⟨hv, rfl⟩ := hx
  obtain ⟨hb, rfl⟩ := hy
  obtain ⟨_, hself, h⟩ := hv.exists_items rfl
  cases hself
  obtain ⟨items', rfl, h'⟩ := hb.exists_items hkind.symm
  simp only [dumps, dumpsItems_eq, List.cons_append, List.append_assoc, List.nil_append,
    List.cons.injEq, true_and] at heq
  obtain ⟨hitems, hrest⟩ := ReadBack.intercalate (by decide) (fun _ => follows_cons (by decide))
    (fun _ => follows_cons (by decide)) (fun v t ht => ht.start (by decide)) ih
    (forall₂_dumps h) (forall₂_dumps h') heq
  exact ⟨same_list_iff.mpr hitems, hrest⟩

theorem readBack_dict {entries : List (Scalar × Value)}
    (ih : ∀ e ∈ entries, ReadBack Dumps Follows Same e.2) :
    ReadBack Dumps Follows Same (.dict entries) := by
  rintro b x y r s hx hy - - heq
  have hkind := kind_eq_of_append hx hy heq
  obtain ⟨hv, rfl⟩ := hx
  obtain ⟨hb, rfl⟩ := hy
  obtain ⟨_, hself, hkeys, h⟩ := hv.exists_entries rfl
  cases hself
  obtain ⟨entries', rfl, hkeys', h'⟩ := hb.exists_entries hkind.symm
  simp only [dumps, List.cons_append, List.append_assoc, List.nil_append,
    List.cons.injEq, true_and] at heq
  have hstart : ∀ e part, DumpsMember e part → ∃ c t, part = c :: t ∧ c ≠ Char.ofNat 0x7d := by
    rintro e _ ⟨-, t, -, rfl⟩
    exact ⟨_, _, rfl, by decide⟩
  obtain ⟨hmembers, hrest⟩ := ReadBack.intercalate (by decide)
    (fun _ => follows_cons (by decide)) (fun _ => follows_cons (by decide)) hstart
    (fun e he => readBack_member (ih e (mem_sorted.mp he))) (forall₂_dumpsMember hkeys h)
    (forall₂_dumpsMember hkeys' h') heq
  refine ⟨?_, hrest⟩
  rw [Same, copy, copy, copyMembers_eq, copyMembers_eq, sorted_map, sorted_map,
    Value.dict.injEq, ← List.forall₂_eq_eq_eq, List.forall₂_map_left_iff,
    List.forall₂_map_right_iff]
  exact hmembers.imp fun e e' he => Prod.ext he.1 he.2

/-- A canonical text tells its value from every other one, before anything that is no part
of a number. -/
theorem readBack_dumps (v : Value) : ReadBack Dumps Follows Same v := by
  induction v using Value.induction with
  | hatom v hlist hdict => exact readBack_leaf hlist hdict
  | hlist items ih => exact readBack_list ih
  | hdict entries ih => exact readBack_dict ih

theorem same_of_dumps (h : Printable v) (h' : Printable v') (heq : dumps false v = dumps false v') :
    Same v v' :=
  (readBack_dumps v (r := []) (s := []) ⟨h, rfl⟩ ⟨h', heq.symm⟩ (by simp [Follows])
    (by simp [Follows]) rfl).1

end Json
end OpenChess
