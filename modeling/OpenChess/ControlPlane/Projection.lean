import OpenChess.ControlPlane.Substitution
import OpenChess.Chess.Reference
import OpenChess.Lib.Walk

/-!
# Projections of responses

Model of `_project` and `_contains` of `server/control_plane_client.py`. An accepted
response is cut down to its declared fields, after a search of the whole response for
secrets. What is left is a closed payload, and holds no string of its own.
-/

namespace OpenChess
namespace ControlPlane

open Relation (ReflTransGen)

variable {lone : ℕ → Bool} {v root : Value} {spec : Spec} {fields : Fields} {name : Text}
  {entries : List (Scalar × Value)}

/-! ### The projection -/

/-- The members of a dictionary; any other value has none. -/
def entriesOf : Value → List (Scalar × Value)
  | .dict entries => entries
  | _ => []

mutual

def projectSpec (value : Value) : Spec → Value
  | .object fields _ _ => .dict (projectFields (entriesOf value) fields)
  | .array .. => value
  | .item .. => value

/-- The loop of `_project`. -/
def projectFields (entries : List (Scalar × Value)) : Fields → List (Scalar × Value)
  | [] => []
  | (name, spec) :: fields =>
    match entries.lookup (.str name) with
    | none => projectFields entries fields
    | some value => (.str name, projectSpec value spec) :: projectFields entries fields

end

/-- `_project`. -/
def project (payload : Value) (fields : Fields) : Value :=
  .dict (projectFields (entriesOf payload) fields)

/-! ### The search -/

def keyObj : Scalar → PyObj
  | .str t => .atom (.str t)
  | .foreign tag => .atom (.foreign tag)

/-- The objects in a container, keys included. -/
def children : PyObj → List PyObj
  | .atom _ => []
  | .list _ items => items
  | .dict _ entries => entries.flatMap fun e => [keyObj e.1, e.2]

/-- `needle in text`; a text with lone surrogates is known to `foreign` only. -/
def occurs (foreign : Value → Value → Bool) : Value → Value → Bool
  | .str needle, .str text => decide (needle <:+: text)
  | needle, text => foreign needle text

def isEmptyText : Value → Bool
  | .str t => t.isEmpty
  | _ => false

def hit (foreign : Value → Value → Bool) (needles : List Value) (text : Value) : Bool :=
  needles.any fun n => !isEmptyText n && occurs foreign n text

/-- One turn of the loop of `_contains`, none where it answers true: what is pushed for an
object, the last first, and the containers seen so far. -/
def look (lone : ℕ → Bool) (foreign : Value → Value → Bool) (secretNames : List Text)
    (needles : List Value) : PyObj → List ℕ → Option (List PyObj × List ℕ)
  | .atom a, seen =>
    if isStr lone a.value && hit foreign needles a.value then none else some ([], seen)
  | .list id items, seen =>
    if id ∈ seen then some ([], seen) else some (items.reverse, id :: seen)
  | .dict id entries, seen =>
    if id ∈ seen then some ([], seen)
    else if entries.any fun e => e.1.text?.any (secretNames.contains ·) then none
    else some ((children (.dict id entries)).reverse, id :: seen)

/-- The work an object takes, with a turn for every key. -/
def weight (o : PyObj) : ℕ := 2 * o.size - 1

/-- `_contains`. -/
def contains (lone : ℕ → Bool) (foreign : Value → Value → Bool) (secretNames : List Text)
    (payload : PyObj) (needles : List Value) : Bool :=
  (StackWalk.walk (look lone foreign secretNames needles) weight [payload] []).isNone

/-! ### The search finds every hit -/

variable {foreign : Value → Value → Bool} {secretNames : List Text} {needles : List Value}
  {o o' parent : PyObj} {seen seen' : List ℕ} {stack nodes : List PyObj} {fuel : ℕ}

theorem size_pos (o : PyObj) : 0 < o.size := by
  cases o <;> rw [PyObj.size] <;> omega

theorem total_weight_items (items : List PyObj) :
    (items.map weight).sum ≤ 2 * (items.map PyObj.size).sum := by
  induction items with
  | nil => exact le_refl _
  | cons o items ih =>
    rw [List.map_cons, List.sum_cons, List.map_cons, List.sum_cons, weight]
    omega

theorem size_keyObj (k : Scalar) : (keyObj k).size = 1 := by
  cases k <;> rfl

theorem total_weight_children (entries : List (Scalar × PyObj)) :
    ((entries.flatMap fun e => [keyObj e.1, e.2]).map weight).sum ≤
      2 * (entries.map fun e => e.2.size).sum := by
  induction entries with
  | nil => exact le_refl _
  | cons e entries ih =>
    have hpositive := size_pos e.2
    rw [List.flatMap_cons, List.map_append, List.sum_append, List.map_cons, List.sum_cons]
    simp only [List.map_cons, List.map_nil, List.sum_cons, List.sum_nil, weight, size_keyObj]
    omega

theorem shrinks_look : StackWalk.Shrinks (look lone foreign secretNames needles) weight := by
  intro o seen nodes seen' h
  have hpositive := size_pos o
  have hnil : StackWalk.total weight ([] : List PyObj) = 0 := rfl
  cases o with
  | atom a =>
    rw [look] at h
    split_ifs at h
    obtain ⟨rfl, -⟩ := Prod.mk.inj (Option.some.inj h)
    rw [hnil, weight]
    omega
  | list id items =>
    have hsize : (PyObj.list id items).size = 1 + (items.map PyObj.size).sum := by
      rw [PyObj.size, PyObj.sizes_eq]
    have hitems := total_weight_items items
    rw [look] at h
    split_ifs at h
    · obtain ⟨rfl, -⟩ := Prod.mk.inj (Option.some.inj h)
      rw [hnil, weight]
      omega
    · obtain ⟨rfl, -⟩ := Prod.mk.inj (Option.some.inj h)
      rw [StackWalk.total_reverse, weight]
      omega
  | dict id entries =>
    have hsize : (PyObj.dict id entries).size = 1 + (entries.map fun e => e.2.size).sum := by
      rw [PyObj.size, PyObj.memberSizes_eq]
    have hmembers := total_weight_children entries
    rw [look] at h
    split_ifs at h
    · obtain ⟨rfl, -⟩ := Prod.mk.inj (Option.some.inj h)
      rw [hnil, weight]
      omega
    · obtain ⟨rfl, -⟩ := Prod.mk.inj (Option.some.inj h)
      rw [StackWalk.total_reverse, weight, children]
      omega

/-- The address of a container. -/
def id? : PyObj → Option ℕ
  | .atom _ => none
  | .list id _ => some id
  | .dict id _ => some id

/-- The object is a text without a needle, no text, or a container that was seen. -/
def Covered (lone : ℕ → Bool) (foreign : Value → Value → Bool) (needles : List Value)
    (seen : List ℕ) (o : PyObj) : Prop :=
  (isStr lone o.content = true → hit foreign needles o.content = false) ∧ ∀ id ∈ id? o, id ∈ seen

theorem Covered.mono (h : Covered lone foreign needles seen o) (hsub : seen ⊆ seen') :
    Covered lone foreign needles seen' o := ⟨h.1, fun id hid => hsub (h.2 id hid)⟩

theorem look_cases (h : look lone foreign secretNames needles o seen = some (nodes, seen')) :
    Covered lone foreign needles seen' o ∧
      ((seen' = seen ∧ nodes = []) ∨
        ∃ id, id? o = some id ∧ seen' = id :: seen ∧ nodes = (children o).reverse) := by
  cases o with
  | atom a =>
    rw [look] at h
    split_ifs at h with hhit
    obtain ⟨rfl, rfl⟩ := Prod.mk.inj (Option.some.inj h)
    refine ⟨⟨fun hstr => ?_, fun id hid => by cases hid⟩, .inl ⟨rfl, rfl⟩⟩
    have hcontent : (PyObj.atom a).content = a.value := by rw [PyObj.content]
    rw [hcontent] at hstr ⊢
    rw [hstr, Bool.true_and, Bool.not_eq_true] at hhit
    exact hhit
  | list id items =>
    have hplain : isStr lone (PyObj.list id items).content = true →
        hit foreign needles (PyObj.list id items).content = false := by
      intro hstr
      rw [PyObj.content] at hstr
      cases hstr
    rw [look] at h
    split_ifs at h with hseen
    · obtain ⟨rfl, rfl⟩ := Prod.mk.inj (Option.some.inj h)
      refine ⟨⟨hplain, fun id' hid => ?_⟩, .inl ⟨rfl, rfl⟩⟩
      obtain rfl := Option.some.inj hid
      exact hseen
    · obtain ⟨rfl, rfl⟩ := Prod.mk.inj (Option.some.inj h)
      refine ⟨⟨hplain, fun id' hid => ?_⟩, .inr ⟨id, rfl, rfl, rfl⟩⟩
      obtain rfl := Option.some.inj hid
      exact List.mem_cons_self
  | dict id entries =>
    have hplain : isStr lone (PyObj.dict id entries).content = true →
        hit foreign needles (PyObj.dict id entries).content = false := by
      intro hstr
      rw [PyObj.content] at hstr
      cases hstr
    rw [look] at h
    split_ifs at h with hseen
    · obtain ⟨rfl, rfl⟩ := Prod.mk.inj (Option.some.inj h)
      refine ⟨⟨hplain, fun id' hid => ?_⟩, .inl ⟨rfl, rfl⟩⟩
      obtain rfl := Option.some.inj hid
      exact hseen
    · obtain ⟨rfl, rfl⟩ := Prod.mk.inj (Option.some.inj h)
      refine ⟨⟨hplain, fun id' hid => ?_⟩, .inr ⟨id, rfl, rfl, rfl⟩⟩
      obtain rfl := Option.some.inj hid
      exact List.mem_cons_self

def Holds (root o : PyObj) : Prop := ReflTransGen (fun parent o => o ∈ children parent) root o

def Clean (lone : ℕ → Bool) (foreign : Value → Value → Bool) (needles : List Value)
    (seen : List ℕ) (o : PyObj) : Prop :=
  ∀ c ∈ children o, Covered lone foreign needles seen c

/-- What a search without a hit leaves: every object of the stack is covered, and each container
that is new is one below the stack, with its children covered. -/
structure Searched (lone : ℕ → Bool) (foreign : Value → Value → Bool) (needles : List Value)
    (stack : List PyObj) (seen seen' : List ℕ) : Prop where
  kept : seen ⊆ seen'
  covered : ∀ o ∈ stack, Covered lone foreign needles seen' o
  clean : ∀ id ∈ seen', id ∈ seen ∨ ∃ root ∈ stack, ∃ o, Holds root o ∧ id? o = some id ∧
    Clean lone foreign needles seen' o

theorem searched (h : StackWalk.loop (look lone foreign secretNames needles) fuel stack seen =
    some seen') : Searched lone foreign needles stack seen seen' := by
  induction fuel generalizing stack seen with
  | zero =>
    cases stack with
    | nil =>
      obtain rfl := Option.some.inj h
      exact ⟨List.Subset.refl _, fun o ho => absurd ho List.not_mem_nil, fun id hid => .inl hid⟩
    | cons o rest => cases h
  | succ fuel ih =>
    cases stack with
    | nil =>
      obtain rfl := Option.some.inj h
      exact ⟨List.Subset.refl _, fun o ho => absurd ho List.not_mem_nil, fun id hid => .inl hid⟩
    | cons o rest =>
      rw [StackWalk.loop] at h
      cases hlook : look lone foreign secretNames needles o seen with
      | none => simp [hlook] at h
      | some p =>
        obtain ⟨nodes, middle⟩ := p
        simp only [hlook] at h
        have hrest := ih h
        obtain ⟨hcovered, hturn⟩ := look_cases hlook
        have hstack : ∀ o' ∈ o :: rest, Covered lone foreign needles seen' o' := by
          rw [List.forall_mem_cons]
          exact ⟨hcovered.mono hrest.kept,
            fun o' ho' => hrest.covered o' (List.mem_append_right nodes ho')⟩
        rcases hturn with ⟨rfl, rfl⟩ | ⟨id, hid, rfl, rfl⟩
        · refine ⟨hrest.kept, hstack, fun id hid => ?_⟩
          rcases hrest.clean id hid with hold | ⟨root, hroot, hclean⟩
          · exact .inl hold
          · exact .inr ⟨root, List.mem_cons_of_mem o hroot, hclean⟩
        · refine ⟨fun i hi => hrest.kept (List.mem_cons_of_mem id hi), hstack, fun i hi => ?_⟩
          rcases hrest.clean i hi with hold | ⟨root, hroot, o', hholds, hclean⟩
          · rcases List.mem_cons.mp hold with rfl | hold
            · refine .inr ⟨o, List.mem_cons_self, o, .refl, hid, fun c hc => ?_⟩
              exact hrest.covered c (List.mem_append_left rest (List.mem_reverse.mpr hc))
            · exact .inl hold
          · rcases List.mem_append.mp hroot with hchild | hroot
            · exact .inr ⟨o, List.mem_cons_self, o', hholds.head (List.mem_reverse.mp hchild), hclean⟩
            · exact .inr ⟨root, List.mem_cons_of_mem o hroot, o', hholds, hclean⟩

/-- An address names one container. -/
def Coherent (root : PyObj) : Prop :=
  ∀ o o', Holds root o → Holds root o' → ∀ id, id? o = some id → id? o' = some id → o = o'

theorem not_hit_of_contains {payload : PyObj} (hcoherent : Coherent payload)
    (h : contains lone foreign secretNames payload needles = false) (hholds : Holds payload o)
    (hstr : isStr lone o.content = true) : hit foreign needles o.content = false := by
  rw [contains, Option.isNone_eq_false_iff, Option.isSome_iff_exists] at h
  obtain ⟨seen, hseen⟩ := h
  have hsearched := searched hseen
  have hall : ∀ o, Holds payload o → Covered lone foreign needles seen o := by
    intro o ho
    induction ho with
    | refl => exact hsearched.covered payload (List.mem_singleton_self _)
    | @tail parent c hparent hchild ih =>
      cases hid : id? parent with
      | none =>
        cases parent with
        | atom a => cases hchild
        | list id items => cases hid
        | dict id entries => cases hid
      | some id =>
        rcases hsearched.clean id (ih.2 id hid) with hnone | ⟨root, hroot, o', ho', hid', hclean⟩
        · cases hnone
        · obtain rfl := List.mem_singleton.mp hroot
          obtain rfl := hcoherent parent o' hparent ho' id hid hid'
          exact hclean c hchild
  exact (hall o hholds).1 hstr

theorem hit_of_contains {payload : PyObj}
    (h : contains lone foreign secretNames payload needles = true) : ∃ o, Holds payload o ∧
      ((isStr lone o.content = true ∧ hit foreign needles o.content = true) ∨
        ∃ id entries, o = .dict id entries ∧
          (entries.any fun e => e.1.text?.any (secretNames.contains ·)) = true) := by
  rw [contains, Option.isNone_iff_eq_none] at h
  have hbelow : ∀ parent seen nodes seen', Holds payload parent →
      look lone foreign secretNames needles parent seen = some (nodes, seen') →
        ∀ c ∈ nodes, Holds payload c := by
    intro parent seen nodes seen' hparent hlook c hc
    obtain ⟨-, ⟨-, rfl⟩ | ⟨id, -, -, rfl⟩⟩ := look_cases hlook
    · cases hc
    · exact hparent.tail (List.mem_reverse.mp hc)
  obtain ⟨o, seen, hholds, hnone⟩ := StackWalk.exists_of_loop shrinks_look hbelow (le_refl _)
    (fun o ho => List.mem_singleton.mp ho ▸ .refl) h
  refine ⟨o, hholds, ?_⟩
  cases o with
  | atom a =>
    rw [look] at hnone
    split_ifs at hnone with hhit
    rw [PyObj.content]
    exact .inl (Bool.and_eq_true_iff.mp hhit)
  | list id items =>
    rw [look] at hnone
    split_ifs at hnone
  | dict id entries =>
    rw [look] at hnone
    split_ifs at hnone with _ hsecret
    exact .inr ⟨id, entries, rfl, hsecret⟩

/-! ### Strings of a value -/

def keyValue : Scalar → Value
  | .str t => .str t
  | .foreign tag => .foreign tag

/-- The values in a container, keys included. -/
def parts : Value → List Value
  | .list items => items
  | .dict entries => entries.flatMap fun e => [keyValue e.1, e.2]
  | _ => []

def Within (root v : Value) : Prop := ReflTransGen (fun parent v => v ∈ parts parent) root v

theorem parts_content (o : PyObj) : parts o.content = (children o).map PyObj.content := by
  cases o with
  | atom a =>
    rw [PyObj.content]
    cases a <;> rfl
  | list id items => rw [PyObj.content, PyObj.contents_eq, parts, children]
  | dict id entries =>
    rw [PyObj.content, PyObj.memberContents_eq, parts, children, List.flatMap_map, List.map_flatMap]
    congr 1
    funext e
    obtain ⟨k, o⟩ := e
    cases k <;> rfl

theorem holds_of_within (h : Within o.content v) : ∃ o', Holds o o' ∧ o'.content = v := by
  induction h with
  | refl => exact ⟨o, .refl, rfl⟩
  | tail _ hpart ih =>
    obtain ⟨parent, hparent, rfl⟩ := ih
    rw [parts_content] at hpart
    obtain ⟨c, hc, rfl⟩ := List.mem_map.mp hpart
    exact ⟨c, hparent.tail hc, rfl⟩

theorem parts_keyValue (k : Scalar) : parts (keyValue k) = [] := by
  cases k <;> rfl

theorem eq_of_within (hparts : parts root = []) (h : Within root v) : v = root := by
  rcases h.cases_head with rfl | ⟨c, hc, -⟩
  · rfl
  · rw [hparts] at hc
    cases hc

/-! ### Declared fields -/

theorem mem_projectFields {e : Scalar × Value} : e ∈ projectFields entries fields ↔
    ∃ f ∈ fields, ∃ value, entries.lookup (.str f.1) = some value ∧
      e = (.str f.1, projectSpec value f.2) := by
  induction fields with
  | nil => simp [projectFields]
  | cons f fields ih =>
    obtain ⟨name, spec⟩ := f
    rw [projectFields, List.exists_mem_cons_iff]
    cases entries.lookup (.str name) with
    | none =>
      refine ih.trans ⟨Or.inr, fun h => h.resolve_left ?_⟩
      rintro ⟨value, hvalue, -⟩
      cases hvalue
    | some value =>
      refine List.mem_cons.trans (or_congr ⟨fun he => ⟨value, rfl, he⟩, ?_⟩ ih)
      rintro ⟨value', hvalue, he⟩
      obtain rfl := Option.some.inj hvalue
      exact he

theorem nodup_projectFields (h : (fields.map Prod.fst).Nodup) :
    ((projectFields entries fields).map Prod.fst).Nodup := by
  induction fields with
  | nil => exact List.nodup_nil
  | cons f fields ih =>
    obtain ⟨name, spec⟩ := f
    rw [List.map_cons, List.nodup_cons] at h
    rw [projectFields]
    split
    · exact ih h.2
    · rw [List.map_cons, List.nodup_cons]
      refine ⟨fun hmem => ?_, ih h.2⟩
      obtain ⟨e, he, hname⟩ := List.mem_map.mp hmem
      obtain ⟨g, hg, value, -, rfl⟩ := mem_projectFields.mp he
      exact h.1 (List.mem_map.mpr ⟨g, hg, Scalar.str.inj hname⟩)

/-- The projection looks up the declared fields of the payload. -/
theorem lookup_projectFields (h : (fields.map Prod.fst).Nodup) {f : Text × Spec} (hf : f ∈ fields) :
    (projectFields entries fields).lookup (.str f.1) =
      (entries.lookup (.str f.1)).map fun value => projectSpec value f.2 := by
  cases hfound : entries.lookup (.str f.1) with
  | none =>
    rw [Option.map_none, List.lookup_eq_none_iff]
    intro e he
    obtain ⟨g, hg, value, hvalue, rfl⟩ := mem_projectFields.mp he
    rw [bne_iff_ne]
    intro hname
    rw [show Scalar.str g.1 = .str f.1 from hname.symm, hfound] at hvalue
    cases hvalue
  | some value =>
    rw [Option.map_some, Dict.lookup_eq_some_iff_mem (nodup_projectFields h)]
    exact mem_projectFields.mpr ⟨f, hf, value, hfound, rfl⟩

theorem projectSpec_projectSpec (hdistinct : spec.Distinct) (v : Value) :
    projectSpec (projectSpec v spec) spec = projectSpec v spec := by
  induction spec using Spec.induction generalizing v with
  | hitem kind r w sample => rfl
  | harray items r w sample => rfl
  | hobject fields r w ih =>
    obtain ⟨hnodup, hfields⟩ := hdistinct
    rw [distinctFields_iff] at hfields
    have hsame : ∀ l ⊆ fields, projectFields (projectFields (entriesOf v) fields) l =
        projectFields (entriesOf v) l := by
      intro l
      induction l with
      | nil => exact fun _ => rfl
      | cons f l ihl =>
        intro hsub
        have hf : f ∈ fields := hsub List.mem_cons_self
        rw [projectFields, projectFields, lookup_projectFields hnodup hf,
          ihl fun g hg => hsub (List.mem_cons_of_mem f hg)]
        cases (entriesOf v).lookup (.str f.1) with
        | none => rfl
        | some value => simp only [Option.map_some, ih f hf (hfields f hf)]
    have hentries : ∀ entries, entriesOf (.dict entries) = entries := fun _ => rfl
    rw [projectSpec, projectSpec, hentries, hsame fields (List.Subset.refl _)]

theorem validSpec_projectSpec (hdistinct : spec.Distinct)
    (h : validSpec lone false v spec = true) : validSpec lone true (projectSpec v spec) spec = true := by
  induction spec using Spec.induction generalizing v with
  | hitem kind r w sample => exact h
  | harray items r w sample => exact h
  | hobject fields r w ih =>
    obtain ⟨hnodup, hfields⟩ := hdistinct
    rw [distinctFields_iff] at hfields
    rw [validSpec_object] at h ⊢
    obtain ⟨entries, rfl, -, -, hpasses⟩ := valid_iff.mp h
    rw [projectSpec]
    refine valid_iff.mpr ⟨_, rfl, nodup_projectFields hnodup, fun e he => ?_, fun f hf => ?_⟩
    · obtain ⟨g, hg, value, -, rfl⟩ := mem_projectFields.mp he
      simp only [keyOk, isKey, Bool.not_true, Bool.false_or, Bool.true_and, List.any_eq_true,
        beq_iff_eq]
      exact ⟨g, hg, rfl⟩
    · obtain ⟨hrequired, hvalid⟩ := hpasses f hf
      rw [Passes, lookup_projectFields hnodup hf]
      refine ⟨fun hnone => hrequired (Option.map_eq_none_iff.mp hnone), fun value hvalue => ?_⟩
      obtain ⟨value', hfound, rfl⟩ := Option.map_eq_some_iff.mp hvalue
      exact ih f hf (hfields f hf) (hvalid value' hfound)

theorem within_projectSpec {text : Value} (htext : isStr lone text = true)
    (h : Within (projectSpec v spec) text) : Within v text := by
  induction spec using Spec.induction generalizing v with
  | hitem kind r w sample => exact h
  | harray items r w sample => exact h
  | hobject fields r w ih =>
    rw [projectSpec] at h
    rcases h.cases_head with rfl | ⟨c, hc, hrest⟩
    · cases htext
    · obtain ⟨e, he, hpart⟩ := List.mem_flatMap.mp hc
      obtain ⟨f, hf, value, hfound, rfl⟩ := mem_projectFields.mp he
      have hmem := Dict.mem_of_lookup hfound
      cases v with
      | dict entries =>
        have hkey : keyValue (.str f.1) ∈ parts (.dict entries) :=
          List.mem_flatMap.mpr ⟨_, hmem, List.mem_cons_self⟩
        have hvalue : value ∈ parts (.dict entries) :=
          List.mem_flatMap.mpr ⟨_, hmem, List.mem_cons_of_mem _ (List.mem_singleton_self _)⟩
        rcases List.mem_cons.mp hpart with rfl | hpart
        · rw [eq_of_within (parts_keyValue _) hrest]
          exact .single hkey
        · obtain rfl := List.mem_singleton.mp hpart
          exact .head hvalue (ih f hf hrest)
      | _ => cases hmem

theorem project_eq (payload : Value) (fields : Fields) :
    project payload fields = projectSpec payload (.object fields true false) := by
  rw [project, projectSpec]

/-- A response that is accepted, and in which the search finds no secret, is projected on a closed
payload without a secret; the projection is its own projection. -/
theorem projection_sound (lone : ℕ → Bool) (foreign : Value → Value → Bool)
    (secretNames : List Text) (needles : List Value) {levels : ℕ} {doc : Value} {payload : PyObj}
    (hfields : readFields .response levels doc = some fields) (hcoherent : Coherent payload)
    (hvalid : valid lone false payload.content fields = true)
    (hclean : contains lone foreign secretNames payload needles = false) :
    valid lone true (project payload.content fields) fields = true ∧
      project (project payload.content fields) fields = project payload.content fields ∧
      ∀ text, Within (project payload.content fields) text → isStr lone text = true →
        ∀ needle ∈ needles, isEmptyText needle = false → occurs foreign needle text = false := by
  obtain ⟨hnodup, hdistinct⟩ := declared_of_readFields hfields
  have hspec : (Spec.object fields true false).Distinct :=
    ⟨hnodup, distinctFields_iff.mpr hdistinct⟩
  rw [← validSpec_object lone false _ fields true false] at hvalid
  rw [← validSpec_object lone true _ fields true false, project_eq, project_eq]
  refine ⟨validSpec_projectSpec hspec hvalid, projectSpec_projectSpec hspec _,
    fun text htext hstr needle hneedle hfull => ?_⟩
  obtain ⟨o, ho, rfl⟩ := holds_of_within (within_projectSpec hstr htext)
  have hmiss := not_hit_of_contains hcoherent hclean ho hstr
  rw [hit, List.any_eq_false] at hmiss
  have hnot := hmiss needle hneedle
  rw [hfull, Bool.not_false, Bool.true_and, Bool.not_eq_true] at hnot
  exact hnot

theorem coherent_of_atoms {id : ℕ} {entries : List (Scalar × PyObj)}
    (h : ∀ c ∈ children (.dict id entries), children c = [] ∧ id? c = none) :
    Coherent (.dict id entries) := by
  have honly : ∀ o, Holds (.dict id entries) o → ∀ i, id? o = some i → o = .dict id entries := by
    intro o ho i hi
    rcases ho.cases_head with rfl | ⟨c, hc, hrest⟩
    · rfl
    · obtain ⟨hleaf, haddress⟩ := h c hc
      rcases hrest.cases_head with rfl | ⟨c', hc', -⟩
      · rw [haddress] at hi
        cases hi
      · rw [hleaf] at hc'
        cases hc'
  exact fun o o' ho ho' i hi hi' => (honly o ho i hi).trans (honly o' ho' i hi').symm

def accountResponse : PyObj :=
  .dict 0 [(.str "name".toList, .atom (.str "ada".toList)), (.str "age".toList, .atom (.int 36))]

/-- The response is cut down to the name of the account. -/
theorem projection_sound_accountResponse : ∃ fields,
    valid (fun _ => false) true (project accountResponse.content fields) fields = true := by
  let doc : Value := Value.ofMembers [("name".toList, plainField .string true)]
  have hfields : readFields .response topLevels doc =
      some [("name".toList, .item .string true false none)] := by rfl
  have hcoherent : Coherent accountResponse := by
    apply coherent_of_atoms
    simp [children, keyObj, id?]
  exact ⟨_, (projection_sound (fun _ => false) (fun _ _ => false) [] [.str "pw".toList] hfields
    hcoherent (by decide) (by decide)).1⟩

end ControlPlane
end OpenChess
