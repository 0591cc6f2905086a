import Mathlib.Data.Finmap
import OpenChess.Chess.Notation
import OpenChess.Lib.Dict

/-!
# Caller-supplied objects

The runtimes accept any Python object and test exact types first. An object is
kept only as far as those tests look: an exact string is its text, an exact
dictionary is a finite map, and everything else, subclasses of `str` and `dict`
included, is foreign. Dictionary equality ignores the insertion order, as in
Python, because a `Finmap` does.
-/

namespace OpenChess

/-- An exact string, or an object of any other type. -/
inductive Scalar
  | str (text : Text)
  | foreign (tag : ℕ)
  deriving DecidableEq, Repr

abbrev PyDict (V : Type) := Finmap fun _ : Scalar => V

/-- A member of a request object: a scalar or a nested dictionary of scalars. -/
inductive Member
  | scalar (value : Scalar)
  | mapping (entries : PyDict Scalar)

/-- A request object. -/
inductive Object
  | mapping (members : PyDict Member)
  | foreign (tag : ℕ)

def Member.text? : Member → Option Text
  | .scalar (.str t) => some t
  | _ => none

def Scalar.text? : Scalar → Option Text
  | .str t => some t
  | .foreign _ => none

@[simp] theorem Scalar.text?_eq_some {v : Scalar} {t : Text} : v.text? = some t ↔ v = .str t := by
  cases v <;> simp [Scalar.text?]

/-- Members written under text keys are read back. -/
theorem Scalar.mapM_text {V : Type} (members : List (Text × V)) :
    ((members.map fun e => ((.str e.1, e.2) : Scalar × V)).mapM fun e =>
      e.1.text?.map fun k => (k, e.2)) = some members := by
  induction members with
  | nil => rfl
  | cons e members ih =>
    rw [List.map_cons, List.mapM_cons, ih]
    rfl

theorem Scalar.of_mapM_text {V : Type} {entries : List (Scalar × V)} {members : List (Text × V)}
    (h : (entries.mapM fun e => e.1.text?.map fun k => (k, e.2)) = some members) :
    entries = members.map fun e => (.str e.1, e.2) := by
  induction entries generalizing members with
  | nil =>
    cases h
    rfl
  | cons e entries ih =>
    simp only [List.mapM_cons, Option.bind_eq_bind, Option.bind_eq_some_iff, Option.pure_def,
      Option.some.injEq, Option.map_eq_some_iff, Scalar.text?_eq_some] at h
    obtain ⟨_, ⟨k, hk, rfl⟩, rest, hrest, rfl⟩ := h
    rw [List.map_cons, ← ih hrest, ← hk]

@[simp] theorem Member.text?_eq_some {m : Member} {t : Text} :
    m.text? = some t ↔ m = .scalar (.str t) := by
  rcases m with (v | v) | d <;> simp [Member.text?]

/-- A declared member name as a dictionary key. It is irreducible, so that two
keys are compared by the facts stated about them and not by their characters. -/
@[irreducible] def key (name : String) : Scalar := .str name.toList

def readOccupied (entries : PyDict Scalar) : Option Placement :=
  if ∀ k ∈ entries.keys, ((k.text?.bind squareOf?).isSome ∧
      (((entries.lookup k).bind Scalar.text?).bind tokenOf?).isSome) then
    some fun s => ((entries.lookup (.str s.name)).bind Scalar.text?).bind tokenOf?
  else none

end OpenChess

/-!
## Built-in values

States, differences, log entries and requests are trees of built-in objects of
any depth. The runtimes test exact types and exact string keys before they look
further, so a value keeps its type, and everything else is foreign.
-/

namespace OpenChess

/-- A tree of built-in objects. A float is known by its finiteness and its
`repr`. A string that has no UTF-8 form and an object of any other type, instances
of subclasses included, are foreign. -/
inductive Value
  | null
  | bool (b : Bool)
  | int (n : ℤ)
  | float (finite : Bool) (text : Text)
  | str (text : Text)
  | list (items : List Value)
  | dict (entries : List (Scalar × Value))
  | foreign (tag : ℕ)

/-- `str` of an integer. -/
def intText (n : ℤ) : Text :=
  if n < 0 then '-' :: Nat.toDigits 10 n.natAbs else Nat.toDigits 10 n.natAbs

namespace Value

def text? : Value → Option Text
  | .str t => some t
  | _ => none

/-- The exact integer a value is, if it is one; a `bool` is none. -/
def int? : Value → Option ℤ
  | .int n => some n
  | _ => none

/-- The exact integer a value is, if it is one within these bounds. -/
def nat? (lo hi : ℤ) : Value → Option ℕ
  | .int n => if lo ≤ n ∧ n ≤ hi then some n.toNat else none
  | _ => none

/-- `type(value) is dict`. -/
def isDict : Value → Bool
  | .dict _ => true
  | _ => false

/-- `value is None`. -/
def isNull : Value → Bool
  | .null => true
  | _ => false

/-- The members of an exact dictionary whose keys are exact strings. The keys of
a dictionary are distinct. -/
def members? : Value → Option (List (Text × Value))
  | .dict entries =>
    match entries.mapM fun e => e.1.text?.map fun k => (k, e.2) with
    | none => none
    | some members => if (members.map Prod.fst).Nodup then some members else none
  | _ => none

/-- The members under these names, in the order of the names, of an exact
dictionary that has no others. -/
def fields? (names : List Text) (v : Value) : Option (List Value) :=
  match v.members? with
  | none => none
  | some members =>
    if (members.map Prod.fst).Perm names then names.mapM fun name => members.lookup name else none

/-- The member under this name of an exact dictionary whose keys are exact strings. -/
def member? (name : Text) (v : Value) : Option Value := v.members?.bind (List.lookup name)

/-- The members of an exact dictionary, each read under its key. -/
def readMembers {V : Type} (read : Text → Value → Option V) (v : Value) :
    Option (List (Text × V)) :=
  match v.members? with
  | none => none
  | some members => members.mapM fun e => (read e.1 e.2).map (Prod.mk e.1)

def ofMembers (members : List (Text × Value)) : Value :=
  .dict (members.map fun e => (.str e.1, e.2))

def object (names : List Text) (values : List Value) : Value := ofMembers (names.zip values)

variable {names : List Text} {values : List Value} {members : List (Text × Value)}

/-- Induction with every part of a container at hand. -/
theorem induction {P : Value → Prop} (hatom : ∀ v, (∀ items, v ≠ .list items) →
      (∀ entries, v ≠ .dict entries) → P v)
    (hlist : ∀ items, (∀ v ∈ items, P v) → P (.list items))
    (hdict : ∀ entries, (∀ e ∈ entries, P e.2) → P (.dict entries)) (v : Value) : P v := by
  have hleaf : ∀ v : Value, (∀ items, v ≠ .list items) ∧ (∀ entries, v ≠ .dict entries) → P v :=
    fun v hv => hatom v hv.1 hv.2
  have hnoItems : ∀ v ∈ ([] : List Value), P v := fun v hv => absurd hv List.not_mem_nil
  have hnoEntries : ∀ e ∈ ([] : List (Scalar × Value)), P e.2 :=
    fun e he => absurd he List.not_mem_nil
  exact @Value.rec P (fun items => ∀ v ∈ items, P v) (fun entries => ∀ e ∈ entries, P e.2)
    (fun e => P e.2) (hleaf _ (by simp)) (fun b => hleaf _ (by simp)) (fun n => hleaf _ (by simp))
    (fun finite text => hleaf _ (by simp)) (fun t => hleaf _ (by simp)) hlist hdict
    (fun tag => hleaf _ (by simp)) hnoItems
    (fun v items hv hitems => List.forall_mem_cons.mpr ⟨hv, hitems⟩) hnoEntries
    (fun e entries he hentries => List.forall_mem_cons.mpr ⟨he, hentries⟩) (fun k v hv => hv) v

theorem text?_eq_some {v : Value} {t : Text} : v.text? = some t ↔ v = .str t := by
  cases v <;> simp [text?]

theorem nat?_eq_some {lo hi : ℤ} {v : Value} {n : ℕ} : v.nat? lo hi = some n ↔
    ∃ m : ℤ, v = .int m ∧ lo ≤ m ∧ m ≤ hi ∧ m.toNat = n := by
  cases v <;> simp [nat?, and_assoc]

/-- A natural number within the bounds is read back. -/
theorem nat?_int {lo n hi : ℕ} (hlo : lo ≤ n) (hhi : n ≤ hi) :
    (int (n : ℤ)).nat? lo hi = some n :=
  nat?_eq_some.mpr ⟨n, rfl, Int.ofNat_le.mpr hlo, Int.ofNat_le.mpr hhi, Int.toNat_natCast n⟩

theorem of_nat? {lo hi n : ℕ} {v : Value} (h : v.nat? lo hi = some n) :
    v = .int (n : ℤ) ∧ lo ≤ n ∧ n ≤ hi := by
  obtain ⟨m, rfl, hlo, hhi, rfl⟩ := nat?_eq_some.mp h
  refine ⟨?_, by omega, by omega⟩
  rw [Int.toNat_of_nonneg (by omega)]

theorem members?_nodup {v : Value} (h : v.members? = some members) :
    (members.map Prod.fst).Nodup := by
  cases v with
  | dict entries =>
    simp only [members?] at h
    split at h
    · cases h
    · split_ifs at h with hnodup
      cases h
      exact hnodup
  | _ => cases h

theorem members?_dict {entries : List (Scalar × Value)}
    (hv : (dict entries).members? = some members) :
    entries = members.map fun e => (.str e.1, e.2) := by
  simp only [members?] at hv
  split at hv
  · cases hv
  · rename_i l hl
    split_ifs at hv with hnodup
    rw [← Option.some.inj hv]
    exact Scalar.of_mapM_text hl

@[simp] theorem members?_ofMembers (h : (members.map Prod.fst).Nodup) :
    (ofMembers members).members? = some members := by
  simp only [ofMembers, members?]
  rw [Scalar.mapM_text]
  exact if_pos h

theorem fields?_object (hnodup : names.Nodup) (hlength : names.length = values.length) :
    (object names values).fields? names = some values := by
  have hnames : (names.zip values).map Prod.fst = names := List.map_fst_zip (le_of_eq hlength)
  have hvalues : (names.zip values).map Prod.snd = values := List.map_snd_zip (ge_of_eq hlength)
  have hdistinct : ((names.zip values).map Prod.fst).Nodup := by rwa [hnames]
  have hread := Dict.mapM_lookup hdistinct
  rw [hnames, hvalues] at hread
  simp only [fields?, object]
  rw [members?_ofMembers hdistinct]
  simp only [hnames, List.Perm.refl, if_true]
  exact hread

/-- The members of a dictionary that has exactly these fields. -/
theorem member?_of_fields? {v : Value} {name : Text} {i : ℕ} (h : v.fields? names = some values)
    (hname : names[i]? = some name) : v.member? name = values[i]? := by
  unfold fields? at h
  cases hmembers : v.members? with
  | none => simp [hmembers] at h
  | some members =>
    simp only [hmembers] at h
    split_ifs at h
    have hfound := Separated.getElem?_of_mapM h hname
    rw [member?, hmembers]
    exact hfound

theorem map_fst_mapM {V : Type} {read : Text → Value → Option V} {l : List (Text × V)}
    (h : members.mapM (fun e => (read e.1 e.2).map (Prod.mk e.1)) = some l) :
    l.map Prod.fst = members.map Prod.fst ∧
      ∀ e ∈ l, ∃ v, (e.1, v) ∈ members ∧ read e.1 v = some e.2 := by
  induction members generalizing l with
  | nil =>
    cases h
    exact ⟨rfl, fun _ he => by cases he⟩
  | cons e members ih =>
    simp only [List.mapM_cons, Option.bind_eq_bind, Option.bind_eq_some_iff, Option.pure_def,
      Option.some.injEq, Option.map_eq_some_iff] at h
    obtain ⟨_, ⟨x, hx, rfl⟩, l, hl, rfl⟩ := h
    obtain ⟨hkeys, hread⟩ := ih hl
    refine ⟨by rw [List.map_cons, List.map_cons, hkeys], fun e' he' => ?_⟩
    rcases List.mem_cons.mp he' with rfl | he'
    · exact ⟨e.2, List.mem_cons_self, hx⟩
    · obtain ⟨v, hv, hsome⟩ := hread e' he'
      exact ⟨v, List.mem_cons_of_mem e hv, hsome⟩

/-- The members read have distinct keys, and each was read under its key. -/
theorem readMembers_eq_some {V : Type} {read : Text → Value → Option V} {v : Value}
    {l : List (Text × V)} (h : v.readMembers read = some l) :
    (l.map Prod.fst).Nodup ∧ ∀ e ∈ l, ∃ v, read e.1 v = some e.2 := by
  unfold readMembers at h
  split at h
  · cases h
  · rename_i members hmembers
    obtain ⟨hkeys, hread⟩ := map_fst_mapM h
    rw [hkeys]
    refine ⟨members?_nodup hmembers, fun e he => ?_⟩
    obtain ⟨v, -, hv⟩ := hread e he
    exact ⟨v, hv⟩

/-- Each member read is one of the dictionary. -/
theorem mem_of_readMembers {V : Type} {read : Text → Value → Option V}
    {entries : List (Scalar × Value)} {l : List (Text × V)}
    (h : (dict entries).readMembers read = some l) :
    ∀ e ∈ l, ∃ v, (.str e.1, v) ∈ entries ∧ read e.1 v = some e.2 := by
  unfold readMembers at h
  split at h
  · cases h
  · rename_i members hmembers
    obtain ⟨-, hread⟩ := map_fst_mapM h
    intro e he
    obtain ⟨v, hv, hsome⟩ := hread e he
    rw [members?_dict hmembers]
    exact ⟨v, List.mem_map.mpr ⟨_, hv, rfl⟩, hsome⟩

theorem mem_of_fields? {entries : List (Scalar × Value)}
    (h : (dict entries).fields? names = some values) {v : Value} (hv : v ∈ values) :
    ∃ k, (k, v) ∈ entries := by
  unfold fields? at h
  split at h
  · cases h
  · rename_i members hmembers
    split_ifs at h
    obtain ⟨name, -, hfound⟩ := Separated.exists_of_mapM h hv
    rw [members?_dict hmembers]
    exact ⟨.str name, List.mem_map.mpr ⟨_, Dict.mem_of_lookup hfound, rfl⟩⟩

/-- Members written by `write` are read back. -/
theorem readMembers_ofMembers {V : Type} {read : Text → Value → Option V} {write : V → Value}
    {l : List (Text × V)} (hnodup : (l.map Prod.fst).Nodup)
    (h : ∀ e ∈ l, read e.1 (write e.2) = some e.2) :
    (ofMembers (l.map fun e => (e.1, write e.2))).readMembers read = some l := by
  have hkeys : (l.map fun e => (e.1, write e.2)).map Prod.fst = l.map Prod.fst := by
    rw [List.map_map]
    rfl
  have hread : ∀ l : List (Text × V), (∀ e ∈ l, read e.1 (write e.2) = some e.2) →
      (l.map fun e => (e.1, write e.2)).mapM (fun e => (read e.1 e.2).map (Prod.mk e.1)) =
        some l := by
    intro l
    induction l with
    | nil => exact fun _ => rfl
    | cons e l ih =>
      intro h
      obtain ⟨he, hl⟩ := List.forall_mem_cons.mp h
      rw [List.map_cons, List.mapM_cons, ih hl]
      simp [he]
  unfold readMembers
  rw [members?_ofMembers (by rwa [hkeys])]
  exact hread l h

end Value
end OpenChess
