import OpenChess.Chess.LiveObject

/-!
# Objects with their references

A check that refuses a container met twice looks at addresses as well as contents. An
object is kept as the tree of its references, each container with its address.
-/

namespace OpenChess

open Live (Atom Handle Objects)

/-- A built-in object as the tree of its references. A container met twice occurs twice
in the tree, under one address. -/
inductive PyObj
  | atom (a : Atom)
  | list (id : ℕ) (items : List PyObj)
  | dict (id : ℕ) (entries : List (Scalar × PyObj))

namespace PyObj

/-- An object of a heap, down to a depth of containers; a container below is foreign. -/
def unfold (h : Objects) : ℕ → Handle → PyObj
  | _, .atom a => .atom a
  | 0, .ptr _ => .atom (.foreign 0)
  | d + 1, .ptr p =>
    match h.cells p with
    | .list items => .list p (items.map (unfold h d))
    | .dict entries => .dict p (entries.map fun e => (e.1, unfold h d e.2))

mutual

/-- The value of an object. -/
def content : PyObj → Value
  | .atom a => a.value
  | .list _ items => .list (contents items)
  | .dict _ entries => .dict (memberContents entries)

def contents : List PyObj → List Value
  | [] => []
  | o :: items => o.content :: contents items

def memberContents : List (Scalar × PyObj) → List (Scalar × Value)
  | [] => []
  | (k, o) :: entries => (k, o.content) :: memberContents entries

end

mutual

/-- The number of references in an object. -/
def size : PyObj → ℕ
  | .atom _ => 1
  | .list _ items => 1 + sizes items
  | .dict _ entries => 1 + memberSizes entries

def sizes : List PyObj → ℕ
  | [] => 0
  | o :: items => o.size + sizes items

def memberSizes : List (Scalar × PyObj) → ℕ
  | [] => 0
  | (_, o) :: entries => o.size + memberSizes entries

end

/-- Induction with every part of a container at hand. -/
theorem induction {P : PyObj → Prop} (hatom : ∀ a, P (.atom a))
    (hlist : ∀ id items, (∀ o ∈ items, P o) → P (.list id items))
    (hdict : ∀ id entries, (∀ e ∈ entries, P e.2) → P (.dict id entries)) (o : PyObj) : P o := by
  have hnoItems : ∀ o ∈ ([] : List PyObj), P o := fun o ho => absurd ho List.not_mem_nil
  have hnoEntries : ∀ e ∈ ([] : List (Scalar × PyObj)), P e.2 :=
    fun e he => absurd he List.not_mem_nil
  exact @PyObj.rec P (fun items => ∀ o ∈ items, P o) (fun entries => ∀ e ∈ entries, P e.2)
    (fun e => P e.2) hatom hlist hdict hnoItems
    (fun o items ho hitems => List.forall_mem_cons.mpr ⟨ho, hitems⟩) hnoEntries
    (fun e entries he hentries => List.forall_mem_cons.mpr ⟨he, hentries⟩) (fun k o ho => ho) o

theorem contents_eq (items : List PyObj) : contents items = items.map content := by
  induction items with
  | nil => rfl
  | cons o items ih => rw [contents, ih, List.map_cons]

theorem memberContents_eq (entries : List (Scalar × PyObj)) :
    memberContents entries = entries.map fun e => (e.1, e.2.content) := by
  induction entries with
  | nil => rfl
  | cons e entries ih => rw [memberContents, ih, List.map_cons]

theorem sizes_eq (items : List PyObj) : sizes items = (items.map size).sum := by
  induction items with
  | nil => rfl
  | cons o items ih => rw [sizes, ih, List.map_cons, List.sum_cons]

theorem memberSizes_eq (entries : List (Scalar × PyObj)) :
    memberSizes entries = (entries.map fun e => e.2.size).sum := by
  induction entries with
  | nil => rfl
  | cons e entries ih => rw [memberSizes, ih, List.map_cons, List.sum_cons]

/-! ### Fields -/

/-- The members of an exact dictionary whose keys are exact strings. -/
def members? : PyObj → Option (List (Text × PyObj))
  | .dict _ entries =>
    match entries.mapM fun e => e.1.text?.map fun k => (k, e.2) with
    | none => none
    | some members => if (members.map Prod.fst).Nodup then some members else none
  | _ => none

/-- The members under these names, in the order of the names, of an exact dictionary
that has no others. -/
def fields? (names : List Text) (o : PyObj) : Option (List PyObj) :=
  match o.members? with
  | none => none
  | some members =>
    if (members.map Prod.fst).Perm names then names.mapM fun name => members.lookup name else none

def member? (name : Text) (o : PyObj) : Option PyObj := o.members?.bind (List.lookup name)

def object (id : ℕ) (names : List Text) (values : List PyObj) : PyObj :=
  .dict id ((names.zip values).map fun e => (.str e.1, e.2))

/-- The text a value is, if it is an exact string of this form. -/
def text? (grammar : Text → Bool) : PyObj → Option Text
  | .atom (.str t) => if grammar t then some t else none
  | _ => none

/-- The number a value is, if it is an exact integer in these bounds. -/
def nat? (lo hi : ℤ) : PyObj → Option ℕ
  | .atom (.int n) => if lo ≤ n ∧ n ≤ hi then some n.toNat else none
  | _ => none

def isNull : PyObj → Bool
  | .atom .null => true
  | _ => false

variable {names : List Text} {values : List PyObj}

theorem fields?_object (id : ℕ) (hnodup : names.Nodup) (hlength : names.length = values.length) :
    (object id names values).fields? names = some values := by
  have hnames : (names.zip values).map Prod.fst = names := List.map_fst_zip (le_of_eq hlength)
  have hvalues : (names.zip values).map Prod.snd = values := List.map_snd_zip (ge_of_eq hlength)
  have hdistinct : ((names.zip values).map Prod.fst).Nodup := by rwa [hnames]
  have hread := Dict.mapM_lookup hdistinct
  have hmembers : (object id names values).members? = some (names.zip values) := by
    simp only [object, members?]
    rw [Scalar.mapM_text]
    exact if_pos hdistinct
  rw [hnames, hvalues] at hread
  simp only [fields?, hmembers, hnames, List.Perm.refl, if_true]
  exact hread

theorem length_fields? {o : PyObj} (h : o.fields? names = some values) :
    values.length = names.length := by
  unfold fields? at h
  cases hmembers : o.members? with
  | none => simp [hmembers] at h
  | some members =>
    simp only [hmembers] at h
    split_ifs at h
    have hread : ∀ (names : List Text) (values : List PyObj),
        names.mapM (fun name => members.lookup name) = some values →
          values.length = names.length := by
      intro names
      induction names with
      | nil =>
        intro values hvalues
        cases hvalues
        rfl
      | cons name names ih =>
        intro values hvalues
        simp only [List.mapM_cons, Option.bind_eq_bind, Option.bind_eq_some_iff, Option.pure_def,
          Option.some.injEq] at hvalues
        obtain ⟨v, -, values', hvalues, rfl⟩ := hvalues
        rw [List.length_cons, List.length_cons, ih values' hvalues]
    exact hread names values h

/-- The members of an object that has exactly these fields. -/
theorem member?_of_fields? {o : PyObj} {name : Text} {i : ℕ} (h : o.fields? names = some values)
    (hname : names[i]? = some name) : o.member? name = values[i]? := by
  unfold fields? at h
  cases hmembers : o.members? with
  | none => simp [hmembers] at h
  | some members =>
    simp only [hmembers] at h
    split_ifs at h
    have hfound := Separated.getElem?_of_mapM h hname
    rw [member?, hmembers]
    exact hfound

theorem nat?_eq_some {o : PyObj} {lo hi : ℤ} {n : ℕ} : o.nat? lo hi = some n ↔
    ∃ m : ℤ, o = .atom (.int m) ∧ lo ≤ m ∧ m ≤ hi ∧ m.toNat = n := by
  cases o with
  | atom a =>
    cases a with
    | int m =>
      simp only [nat?]
      split_ifs with hm
      · simp [hm]
      · simp only [atom.injEq, Atom.int.injEq, false_iff]
        intro h
        obtain ⟨m', rfl, hlo, hhi, -⟩ := h
        exact hm ⟨hlo, hhi⟩
    | _ => simp [nat?]
  | _ => simp [nat?]

theorem text?_eq_some {o : PyObj} {grammar : Text → Bool} {t : Text} :
    o.text? grammar = some t ↔ o = .atom (.str t) ∧ grammar t = true := by
  cases o with
  | atom a =>
    cases a with
    | str u =>
      simp only [text?]
      split_ifs with hu
      · simp only [Option.some.injEq, atom.injEq, Atom.str.injEq]
        constructor
        · rintro rfl
          exact ⟨rfl, hu⟩
        · exact fun h => h.1
      · simp only [atom.injEq, Atom.str.injEq, false_iff, not_and]
        rintro rfl
        exact hu
    | _ => simp [text?]
  | _ => simp [text?]

end PyObj
end OpenChess
