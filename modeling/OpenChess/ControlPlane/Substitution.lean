import OpenChess.ControlPlane.Operations

/-!
# Substitution of versions

A compatible new source accepts what old clients send and answers what they accept: a
closed body that is valid for old is valid for new, and an open payload that is valid for
new is valid for old. The three recursions go over the same declarations.
-/

namespace OpenChess
namespace ControlPlane

variable {lone : ℕ → Bool} {ms ms' : List (Text × Value)} {name : Text} {v : Value}
  {original updated spec : Spec} {before after fields : Fields} {op op' : Op} {s s' : Source}

/-! ### Declarations as dictionaries -/

/-- The members of the dictionary of a declaration. -/
def Spec.members : Spec → List (Text × Value)
  | .item kind required writeOnly sample => baseMembers kind.text required writeOnly sample
  | .array items required writeOnly sample =>
    baseMembers "array".toList required writeOnly sample ++ [("items".toList, .str items.text)]
  | .object fields required writeOnly =>
    baseMembers "object".toList required writeOnly none ++
      [("fields".toList, Value.ofMembers (fieldMembers fields))]

def Spec.typeText : Spec → Text
  | .item kind _ _ _ => kind.text
  | .array .. => "array".toList
  | .object .. => "object".toList

theorem toValue_eq (spec : Spec) : spec.toValue = Value.ofMembers spec.members := by
  cases spec <;> rw [Spec.toValue] <;> rfl

theorem lookup_type (spec : Spec) : spec.members.lookup "type".toList = some (.str spec.typeText) := by
  cases spec <;> rfl

theorem lookup_required (spec : Spec) :
    spec.members.lookup "required".toList = some (.bool spec.required) := by
  cases spec <;> rfl

theorem lookup_items {items : ItemKind} {required writeOnly : Bool} {sample : Option Value} :
    (Spec.array items required writeOnly sample).members.lookup "items".toList =
      some (.str items.text) := by
  cases writeOnly <;> cases sample <;> rfl

theorem lookup_str (ms : List (Text × Value)) (name : Text) :
    ((ms.map fun e => ((.str e.1, e.2) : Scalar × Value)).lookup (.str name)) = ms.lookup name := by
  induction ms with
  | nil => rfl
  | cons e ms ih =>
    obtain ⟨k, v⟩ := e
    rw [List.map_cons]
    by_cases hk : name = k
    · subst hk
      rw [List.lookup_cons_self, List.lookup_cons_self]
    · have hne : Scalar.str name ≠ .str k := fun h => hk (Scalar.str.inj h)
      rw [Dict.lookup_cons_of_ne hne, Dict.lookup_cons_of_ne hk, ih]

theorem lookup_of_equal (h : equal lone (Value.ofMembers ms) (Value.ofMembers ms') = true)
    (hv : ms.lookup name = some v) : equal lone v ((ms'.lookup name).getD .null) = true := by
  obtain ⟨-, hmembers⟩ := equal_dict.mp h
  have hmem : (name, v) ∈ ms := Dict.mem_of_lookup hv
  have hequal := hmembers (.str name, v) (List.mem_map.mpr ⟨(name, v), hmem, rfl⟩)
  rwa [lookup_str] at hequal

theorem itemKind_text_injective {k k' : ItemKind} (h : k.text = k'.text) : k = k' := by
  cases k <;> cases k' <;> first | rfl | exact absurd h (by decide)

theorem itemKind_text_ne (k : ItemKind) :
    k.text ≠ "array".toList ∧ k.text ≠ "object".toList := by
  cases k <;> decide

/-- Equal declarations have the same type and are required alike. -/
theorem same_of_equal (h : equal lone original.toValue updated.toValue = true) :
    updated.typeText = original.typeText ∧ updated.required = original.required := by
  rw [toValue_eq, toValue_eq] at h
  have htype := lookup_of_equal h (lookup_type original)
  have hrequired := lookup_of_equal h (lookup_required original)
  rw [lookup_type, Option.getD_some, equal_str] at htype
  rw [lookup_required, Option.getD_some, equal_bool] at hrequired
  exact ⟨Value.str.inj htype, Value.bool.inj hrequired⟩

theorem validSpec_item {kind : ItemKind} {required writeOnly : Bool} {sample : Option Value}
    (h : updated.typeText = kind.text) (closed : Bool) (v : Value) :
    validSpec lone closed v updated = validSpec lone closed v (.item kind required writeOnly sample) := by
  obtain ⟨harray, hobject⟩ := itemKind_text_ne kind
  cases updated with
  | item kind' =>
    obtain rfl := itemKind_text_injective h
    rfl
  | array => exact absurd h.symm harray
  | object => exact absurd h.symm hobject

theorem validSpec_array {items : ItemKind} {required writeOnly : Bool} {sample : Option Value}
    (h : equal lone (Spec.array items required writeOnly sample).toValue updated.toValue = true)
    (closed : Bool) (v : Value) : validSpec lone closed v updated =
      validSpec lone closed v (.array items required writeOnly sample) := by
  obtain ⟨htype, -⟩ := same_of_equal h
  cases updated with
  | item kind' => exact absurd htype (itemKind_text_ne kind').1
  | array items' =>
    rw [toValue_eq, toValue_eq] at h
    have hitems := lookup_of_equal h lookup_items
    rw [lookup_items, Option.getD_some, equal_str] at hitems
    obtain rfl := itemKind_text_injective (Value.str.inj hitems)
    rfl
  | object =>
    have hne : "object".toList ≠ "array".toList := by decide
    exact absurd htype hne

/-- An object is kept by objects with additive fields only. -/
theorem keepsSpec_object_iff {fields : Fields} {required writeOnly : Bool} :
    keepsSpec lone updated (.object fields required writeOnly) = true ↔
      ∃ fields', updated = .object fields' required writeOnly ∧
        additiveFields lone fields fields' = true := by
  cases updated with
  | item kind' =>
    constructor
    · exact fun h => absurd (same_of_equal h).1 (itemKind_text_ne kind').2
    · rintro ⟨fields', heq, -⟩
      cases heq
  | array =>
    have hne : "array".toList ≠ "object".toList := by decide
    constructor
    · exact fun h => absurd (same_of_equal h).1 hne
    · rintro ⟨fields', heq, -⟩
      cases heq
  | object fields' required' writeOnly' =>
    rw [keepsSpec, Bool.and_eq_true, Bool.and_eq_true, beq_iff_eq, beq_iff_eq]
    constructor
    · rintro ⟨⟨rfl, rfl⟩, hfields⟩
      exact ⟨fields', rfl, hfields⟩
    · rintro ⟨_, heq, hfields⟩
      cases heq
      exact ⟨⟨rfl, rfl⟩, hfields⟩

/-! ### Declared fields -/

mutual

def Spec.Distinct : Spec → Prop
  | .object fields _ _ => (fields.map Prod.fst).Nodup ∧ DistinctFields fields
  | .item .. => True
  | .array .. => True

def DistinctFields : Fields → Prop
  | [] => True
  | (_, spec) :: fields => spec.Distinct ∧ DistinctFields fields

end

theorem distinctFields_iff : DistinctFields fields ↔ ∀ f ∈ fields, f.2.Distinct := by
  induction fields with
  | nil => simp [DistinctFields]
  | cons f fields ih => rw [DistinctFields, ih, List.forall_mem_cons]

def Declared (fields : Fields) : Prop :=
  (fields.map Prod.fst).Nodup ∧ ∀ f ∈ fields, f.2.Distinct

theorem of_readSample {check : Value → Bool} {sample sample' : Option Value}
    (h : readSample check sample = some sample') : ∀ v ∈ sample', check v = true := by
  unfold readSample at h
  split at h
  · obtain rfl := Option.some.inj h
    simp
  · split_ifs at h with hcheck
    obtain rfl := Option.some.inj h
    simpa using hcheck

/-- The declarations that are read: examples pass their check, and the fields of an object
were read below it. -/
theorem readSpec_cases {side : Side} {nested : Value → Option Fields}
    (h : readSpec side nested name v = some spec) :
    (∃ kind required writeOnly sample, spec = .item kind required writeOnly sample ∧
      ∀ v ∈ sample, sampleOk kind v = true) ∨
    (∃ items required writeOnly sample, spec = .array items required writeOnly sample ∧
      ∀ v ∈ sample, arraySampleOk items v = true) ∨
    ∃ u fields required writeOnly, spec = .object fields required writeOnly ∧
      nested u = some fields := by
  unfold readSpec at h
  split_ifs at h
  split at h
  · cases h
  · split_ifs at h
    split at h
    · unfold readKind at h
      split_ifs at h
      · split at h
        · obtain ⟨fields, hfields, rfl⟩ := Option.map_eq_some_iff.mp h
          exact Or.inr (Or.inr ⟨_, fields, _, _, rfl, hfields⟩)
        · cases h
      · split at h
        · obtain ⟨items, -, hmap⟩ := Option.bind_eq_some_iff.mp h
          obtain ⟨sample, hsample, rfl⟩ := Option.map_eq_some_iff.mp hmap
          exact Or.inr (Or.inl ⟨items, _, _, sample, rfl, of_readSample hsample⟩)
        · cases h
      · split at h
        · obtain ⟨kind, -, hmap⟩ := Option.bind_eq_some_iff.mp h
          obtain ⟨sample, hsample, rfl⟩ := Option.map_eq_some_iff.mp hmap
          exact Or.inl ⟨kind, _, _, sample, rfl, of_readSample hsample⟩
        · cases h
    · cases h

theorem distinct_of_readSpec {side : Side} {nested : Value → Option Fields}
    (hnested : ∀ v fields, nested v = some fields → Declared fields)
    (h : readSpec side nested name v = some spec) : spec.Distinct := by
  obtain ⟨_, _, _, _, rfl, -⟩ | ⟨_, _, _, _, rfl, -⟩ | ⟨u, fields, _, _, rfl, hfields⟩ :=
    readSpec_cases h
  · trivial
  · trivial
  · obtain ⟨hnodup, hdistinct⟩ := hnested u fields hfields
    exact ⟨hnodup, distinctFields_iff.mpr hdistinct⟩

/-- The fields of a level have distinct names, and each was read under its name. -/
theorem of_readLevel {side : Side} {nested : Value → Option Fields}
    (h : readLevel side nested v = some fields) : (fields.map Prod.fst).Nodup ∧
      ∀ f ∈ fields, ∃ u, readSpec side nested f.1 u = some f.2 := by
  unfold readLevel at h
  cases hread : v.readMembers (readSpec side nested) with
  | none => simp [hread] at h
  | some read =>
    simp only [hread] at h
    split_ifs at h
    obtain rfl := Option.some.inj h
    exact Value.readMembers_eq_some hread

theorem declared_of_readLevel {side : Side} {nested : Value → Option Fields}
    (hnested : ∀ v fields, nested v = some fields → Declared fields)
    (h : readLevel side nested v = some fields) : Declared fields := by
  obtain ⟨hnodup, hall⟩ := of_readLevel h
  refine ⟨hnodup, fun f hf => ?_⟩
  obtain ⟨u, hu⟩ := hall f hf
  exact distinct_of_readSpec hnested hu

/-- The fields read from a dictionary have distinct names. -/
theorem declared_of_readFields {side : Side} {levels : ℕ}
    (h : readFields side levels v = some fields) : Declared fields := by
  induction levels generalizing v fields with
  | zero => exact declared_of_readLevel (fun _ _ hnone => by cases hnone) h
  | succ levels ih => exact declared_of_readLevel (fun _ _ hsome => ih hsome) h

theorem Declared.lookup (h : Declared fields) {f : Text × Spec} (hf : f ∈ fields) :
    fields.lookup f.1 = some f.2 := (Dict.lookup_eq_some_iff_mem h.1).mpr hf

theorem Declared.distinct (h : Declared fields) (hspec : fields.lookup name = some spec) :
    spec.Distinct := h.2 _ ((Dict.lookup_eq_some_iff_mem h.1).mp hspec)

/-! ### Substitution -/

/-- The updated declaration accepts what the original one accepts in a closed body, and
is accepted by it in an open payload. -/
structure Substitutes (lone : ℕ → Bool) (original updated : Spec) : Prop where
  required : updated.required = original.required
  closed : ∀ v, validSpec lone true v original = true → validSpec lone true v updated = true
  opened : ∀ v, validSpec lone false v updated = true → validSpec lone false v original = true

/-- Every field before has a substitute after, and no other field after is required. -/
structure Extends (lone : ℕ → Bool) (before after : Fields) : Prop where
  kept : ∀ f ∈ before, ∃ updated, (f.1, updated) ∈ after ∧ Substitutes lone f.2 updated
  optional : ∀ f ∈ after, before.lookup f.1 = none → f.2.required = false

theorem keyOk_mono {key : Scalar} (hnames : ∀ f ∈ before, ∃ updated, (f.1, updated) ∈ after)
    (h : keyOk lone true before key = true) : keyOk lone true after key = true := by
  simp only [keyOk, Bool.not_true, Bool.false_or, Bool.and_eq_true, List.any_eq_true,
    beq_iff_eq] at h ⊢
  obtain ⟨hkey, f, hf, rfl⟩ := h
  obtain ⟨updated, hupdated⟩ := hnames f hf
  exact ⟨hkey, _, hupdated, rfl⟩

/-- A closed body of the fields before is a closed body of the fields after. -/
theorem Extends.closed (h : Extends lone before after) (hafter : Declared after)
    (hvalid : valid lone true v before = true) : valid lone true v after = true := by
  obtain ⟨entries, rfl, hnodup, hkeys, hfields⟩ := valid_iff.mp hvalid
  refine valid_iff.mpr ⟨entries, rfl, hnodup, fun e he => ?_, fun f hf => ?_⟩
  · refine keyOk_mono (fun f hf => ?_) (hkeys e he)
    obtain ⟨updated, hmem, -⟩ := h.kept f hf
    exact ⟨updated, hmem⟩
  · cases hfound : before.lookup f.1 with
    | none =>
      have habsent : entries.lookup (.str f.1) = none := by
        rw [List.lookup_eq_none_iff]
        intro e he
        rw [bne_iff_ne]
        intro hkey
        have hknown := hkeys e he
        rw [← hkey] at hknown
        simp only [keyOk, isKey, Bool.not_true, Bool.false_or, Bool.true_and, List.any_eq_true,
          beq_iff_eq] at hknown
        obtain ⟨g, hg, hname⟩ := hknown
        have hother := List.lookup_eq_none_iff.mp hfound g hg
        exact bne_iff_ne.mp hother (Scalar.str.inj hname)
      refine ⟨fun _ => h.optional f hf hfound, fun v hv => ?_⟩
      rw [habsent] at hv
      cases hv
    | some original =>
      have hmem : (f.1, original) ∈ before := Dict.mem_of_lookup hfound
      obtain ⟨updated, hupdated, hsub⟩ := h.kept _ hmem
      have hsame : f.2 = updated :=
        Option.some.inj ((hafter.lookup hf).symm.trans (hafter.lookup hupdated))
      obtain ⟨hrequired, hpasses⟩ := hfields _ hmem
      rw [hsame]
      exact ⟨fun hnone => hsub.required.trans (hrequired hnone),
        fun v hv => hsub.closed v (hpasses v hv)⟩

/-- An open payload of the fields after is an open payload of the fields before. -/
theorem Extends.opened (h : Extends lone before after)
    (hvalid : valid lone false v after = true) : valid lone false v before = true := by
  obtain ⟨entries, rfl, hnodup, hkeys, hfields⟩ := valid_iff.mp hvalid
  refine valid_iff.mpr ⟨entries, rfl, hnodup, fun e he => ?_, fun f hf => ?_⟩
  · have hkey := hkeys e he
    simpa only [keyOk, Bool.not_false, Bool.true_or, Bool.and_true] using hkey
  · obtain ⟨updated, hupdated, hsub⟩ := h.kept f hf
    obtain ⟨hrequired, hpasses⟩ := hfields _ hupdated
    exact ⟨fun hnone => hsub.required.symm.trans (hrequired hnone),
      fun v hv => hsub.opened v (hpasses v hv)⟩

/-- Induction with every field of an object at hand. -/
theorem Spec.induction {P : Spec → Prop} (hitem : ∀ kind r w sample, P (.item kind r w sample))
    (harray : ∀ items r w sample, P (.array items r w sample))
    (hobject : ∀ fields r w, (∀ f ∈ fields, P f.2) → P (.object fields r w)) (spec : Spec) :
    P spec :=
  @Spec.rec P (fun fields => ∀ f ∈ fields, P f.2) (fun f => P f.2) hitem harray hobject
    (fun _ hf => absurd hf List.not_mem_nil)
    (fun _ _ hf hfields => List.forall_mem_cons.mpr ⟨hf, hfields⟩) (fun _ _ hspec => hspec) spec

theorem keepsFields_iff : keepsFields lone after before = true ↔
    ∀ f ∈ before, ∃ updated, after.lookup f.1 = some updated ∧
      keepsSpec lone updated f.2 = true := by
  induction before with
  | nil => simp [keepsFields]
  | cons f before ih =>
    obtain ⟨name, original⟩ := f
    rw [keepsFields, Bool.and_eq_true, ih, List.forall_mem_cons]
    apply and_congr_left'
    cases after.lookup name <;> simp

theorem extends_of_additiveFields (hafter : Declared after)
    (hsub : ∀ f ∈ before, ∀ updated : Spec, updated.Distinct → keepsSpec lone updated f.2 = true →
      Substitutes lone f.2 updated)
    (h : additiveFields lone before after = true) : Extends lone before after := by
  rw [additiveFields, Bool.and_eq_true, keepsFields_iff] at h
  obtain ⟨hkeeps, hnew⟩ := h
  refine ⟨fun f hf => ?_, fun f hf hnone => ?_⟩
  · obtain ⟨updated, hupdated, hspec⟩ := hkeeps f hf
    exact ⟨updated, (Dict.lookup_eq_some_iff_mem hafter.1).mp hupdated,
      hsub f hf updated (hafter.distinct hupdated) hspec⟩
  · have hoptional := List.all_eq_true.mp hnew f hf
    rw [hnone] at hoptional
    simpa using hoptional

/-- A kept declaration has a substitute. -/
theorem substitutes_of_keepsSpec (hdistinct : updated.Distinct)
    (h : keepsSpec lone updated original = true) : Substitutes lone original updated := by
  induction original using Spec.induction generalizing updated with
  | hitem kind required writeOnly sample =>
    rw [keepsSpec] at h
    obtain ⟨htype, hrequired⟩ := same_of_equal h
    exact ⟨hrequired, fun v hv => by rwa [validSpec_item htype],
      fun v hv => by rwa [validSpec_item htype] at hv⟩
  | harray items required writeOnly sample =>
    rw [keepsSpec] at h
    exact ⟨(same_of_equal h).2, fun v hv => by rwa [validSpec_array h],
      fun v hv => by rwa [validSpec_array h] at hv⟩
  | hobject fields required writeOnly ih =>
    obtain ⟨fields', rfl, hfields⟩ := keepsSpec_object_iff.mp h
    have hdeclared : Declared fields' := ⟨hdistinct.1, distinctFields_iff.mp hdistinct.2⟩
    have hextends := extends_of_additiveFields hdeclared (fun f hf _ => ih f hf) hfields
    refine ⟨rfl, fun v hv => ?_, fun v hv => ?_⟩
    · rw [validSpec_object] at hv ⊢
      exact hextends.closed hdeclared hv
    · rw [validSpec_object] at hv ⊢
      exact hextends.opened hv

theorem extends_of_additive (hafter : Declared after)
    (h : additiveFields lone before after = true) : Extends lone before after :=
  extends_of_additiveFields hafter (fun _ _ _ => substitutes_of_keepsSpec) h

/-! ### Sources -/

theorem of_readBody {side : Side} (h : readBody side v = some fields) :
    ∃ u, readFields side topLevels u = some fields := by
  unfold readBody at h
  split at h
  · exact ⟨_, h⟩
  · cases h

theorem of_readOp {closed : List Text} (h : readOp closed name v = some op) :
    ∃ u u', readFields .request topLevels u = some op.request ∧
      readFields .response topLevels u' = some op.response := by
  unfold readOp at h
  split_ifs at h
  split at h
  · split at h
    · split at h
      · rename_i hrequest hresponse _
        split_ifs at h
        obtain rfl := Option.some.inj h
        obtain ⟨u, hu⟩ := of_readBody hrequest
        obtain ⟨u', hu'⟩ := of_readBody hresponse
        exact ⟨u, u', hu, hu'⟩
      · cases h
    · cases h
  · cases h

/-- The members of an area: strings, and operations that were read. -/
theorem of_readArea {closed : List Text} {area : Area}
    (h : readArea lone closed name v = some area) : ∃ entries, v = .dict entries ∧
      area.notes = entries.filter (fun e => e.1 != .str "ops".toList) ∧
      (∀ e ∈ area.notes, isStr lone e.2 = true) ∧
      ∃ u : Value, u.readMembers (readOp closed) = some area.ops := by
  unfold readArea at h
  split_ifs at h
  split at h
  · rename_i entries
    simp only at h
    split at h
    · cases h
    · rename_i ops hops
      split_ifs at h with hchecks
      obtain rfl := Option.some.inj h
      obtain ⟨u, -, hread⟩ := Option.bind_eq_some_iff.mp hops
      simp only [Bool.and_eq_true, List.all_eq_true] at hchecks
      exact ⟨entries, rfl, rfl, hchecks.1.1, u, hread⟩
  · cases h

/-- What the checks of a source establish: its document is a plain tree, and its version and
its areas were read from it. -/
theorem of_source (h : source lone v = some s) : safeTree lone v = true ∧
    majorOf? s.basePath = some s.major ∧ ∃ (areas : Value) (closed : List Text),
      v.fields? ["schema_version".toList, "contract".toList, "areas".toList] =
        some [.int 2, s.contract, areas] ∧
      areas.readMembers (readArea lone closed) = some s.areas := by
  unfold source at h
  split_ifs at h with hsafe
  split at h
  · rename_i hfields
    simp only at h
    split at h
    · split at h
      · rename_i hmajor hareas
        split_ifs at h
        obtain rfl := Option.some.inj h
        exact ⟨by simpa using hsafe, hmajor, _, _, hfields, hareas⟩
      · cases h
    · cases h
  · cases h

/-- An operation of a source was read. -/
theorem of_op (h : source lone v = some s) {area : Text} (hop : s.op? area name = some op) :
    ∃ u u', readFields .request topLevels u = some op.request ∧
      readFields .response topLevels u' = some op.response := by
  obtain ⟨-, -, areas, closed, -, hareas⟩ := of_source h
  obtain ⟨-, hall⟩ := Value.readMembers_eq_some hareas
  obtain ⟨a, ha, ho⟩ := Option.bind_eq_some_iff.mp hop
  obtain ⟨u, hu⟩ := hall (area, a) (Dict.mem_of_lookup ha)
  obtain ⟨entries, -, -, -, u', hops⟩ := of_readArea hu
  obtain ⟨-, hops⟩ := Value.readMembers_eq_some hops
  obtain ⟨u'', hop'⟩ := hops (name, op) (Dict.mem_of_lookup ho)
  exact of_readOp hop'

theorem declared_op (h : source lone v = some s) {area : Text}
    (hop : s.op? area name = some op) : Declared op.request ∧ Declared op.response := by
  obtain ⟨u, u', hrequest, hresponse⟩ := of_op h hop
  exact ⟨declared_of_readFields hrequest, declared_of_readFields hresponse⟩

theorem op_of_sameMajor (h : sameMajor lone s s' = true) {area name : Text}
    (hop : s.op? area name = some op) : ∃ op', s'.op? area name = some op' ∧
      additiveFields lone op.request op'.request = true ∧
      additiveFields lone op.response op'.response = true := by
  simp only [sameMajor, Bool.and_eq_true, List.all_eq_true] at h
  obtain ⟨⟨-, hareas⟩, -⟩ := h
  obtain ⟨a, ha, ho⟩ := Option.bind_eq_some_iff.mp hop
  have hkept := hareas (area, a) (Dict.mem_of_lookup ha)
  simp only [Option.any_eq_true] at hkept
  obtain ⟨a', ha', harea⟩ := hkept
  simp only [keepsArea, Bool.and_eq_true, List.all_eq_true] at harea
  have hkeptOp := harea.2 (name, op) (Dict.mem_of_lookup ho)
  simp only [Option.any_eq_true] at hkeptOp
  obtain ⟨op', hop', hkeeps⟩ := hkeptOp
  simp only [keepsOp, Bool.and_eq_true] at hkeeps
  exact ⟨op', Option.bind_eq_some_iff.mpr ⟨a', ha', hop'⟩, hkeeps.1.2, hkeeps.2⟩

/-- Where the verdict on two sources with one base path is compatible, every operation of
old is one of new. A closed body of its old request is one of its new request, and a
payload that the new response declares is one that the old response declares, where
unknown fields are ignored. -/
theorem substitutable (lone : ℕ → Bool) {old new oldMinor newMinor : Value} {s s' : Source}
    (hold : source lone old = some s) (hnew : source lone new = some s')
    (hpath : s.basePath = s'.basePath) (h : compare lone old new oldMinor newMinor = some true)
    {area name : Text} {op : Op} (hop : s.op? area name = some op) :
    ∃ op', s'.op? area name = some op' ∧
      (∀ body, valid lone true body op.request = true → valid lone true body op'.request = true) ∧
      ∀ payload, valid lone false payload op'.response = true →
        valid lone false payload op.response = true := by
  obtain ⟨-, hmajor, -⟩ := of_source hold
  obtain ⟨-, hmajor', -⟩ := of_source hnew
  have hsame : s'.major = s.major := by
    rw [hpath, hmajor'] at hmajor
    exact Option.some.inj hmajor
  have hverdict : sameMajor lone s s' = true := by
    unfold compare at h
    rw [hold, hnew] at h
    split at h
    · rename_i hs hs'
      obtain rfl := Option.some.inj hs
      obtain rfl := Option.some.inj hs'
      rw [hsame, if_neg (lt_irrefl _), if_pos rfl] at h
      split_ifs at h with hminor hbase
      · cases h
      · exact Option.some.inj h
    · cases h
  obtain ⟨op', hop', hrequest, hresponse⟩ := op_of_sameMajor hverdict hop
  obtain ⟨hdeclaredRequest, hdeclaredResponse⟩ := declared_op hnew hop'
  exact ⟨op', hop', fun body => (extends_of_additive hdeclaredRequest hrequest).closed
    hdeclaredRequest, fun payload => (extends_of_additive hdeclaredResponse hresponse).opened⟩

/-! ### A contract with one operation -/

/-- A declaration that is not an array and not an object, without an example. -/
def plainField (kind : ItemKind) (required : Bool) : Value :=
  (Spec.item kind required false none).toValue

/-- The contract of an area of accounts, whose operation reads a name. -/
def accountContract : Value :=
  Value.ofMembers
    [("versioning".toList, Value.ofMembers [("base_path".toList, .str "/cp/v1".toList)]),
      ("transport".toList, Value.ofMembers
        [("auth".toList, Value.ofMembers [("public_operations".toList, .list [])]),
          ("read_only_operations".toList, .list [.str "account.read".toList]),
          ("errors".toList, Value.ofMembers
            [("shape".toList, Value.ofMembers [("error".toList, Value.ofMembers
                [("fields".toList, Value.ofMembers
                  [("code".toList, plainField .string true),
                    ("message".toList, plainField .string true),
                    ("retryable".toList, plainField .boolean true)])])]),
              ("closed_enum".toList, .list [.str "internal".toList])])])]

/-- The source of that contract, whose operation has such response fields. -/
def accountDoc (response : List (Text × Value)) : Value :=
  Value.ofMembers
    [("schema_version".toList, .int 2), ("contract".toList, accountContract),
      ("areas".toList, Value.ofMembers [("account".toList, Value.ofMembers
        [("ops".toList, Value.ofMembers [("read".toList, Value.ofMembers
          [("method".toList, .str "POST".toList), ("path".toList, .str "/account".toList),
            ("auth".toList, .str "required".toList), ("mutating".toList, .bool false),
            ("request".toList, Value.ofMembers [("fields".toList, Value.ofMembers
              [("user".toList, plainField .string true)])]),
            ("response".toList, Value.ofMembers [("fields".toList, Value.ofMembers response)]),
            ("errors".toList, .list [.str "internal".toList])])])])])]

def nameDoc : Value := accountDoc [("name".toList, plainField .string true)]

def ageDoc : Value :=
  accountDoc [("name".toList, plainField .string true), ("age".toList, plainField .integer false)]

/-- The source whose response may have an address too. -/
def addressDoc : Value :=
  accountDoc [("name".toList, plainField .string true), ("age".toList, plainField .integer false),
    ("address".toList, plainField .string false)]

theorem isSome_of_compare {lone : ℕ → Bool} {old new oldMinor newMinor : Value} {verdict : Bool}
    (h : compare lone old new oldMinor newMinor = some verdict) :
    (source lone old).isSome = true ∧ (source lone new).isSome = true := by
  unfold compare at h
  split at h
  · rename_i hold hnew
    rw [hold, hnew]
    exact ⟨rfl, rfl⟩
  · cases h

theorem compare_account :
    compare (fun _ => false) nameDoc ageDoc (.int 0) (.int 1) = some true ∧
      compare (fun _ => false) ageDoc addressDoc (.int 1) (.int 2) = some true ∧
      ((source (fun _ => false) nameDoc).any fun s =>
        (s.op? "account".toList "read".toList).isSome &&
          (source (fun _ => false) ageDoc).any fun s' => s.basePath == s'.basePath) = true := by
  -- one evaluation reads the sources for all three
  decide +kernel

theorem compare_nameDoc_ageDoc :
    compare (fun _ => false) nameDoc ageDoc (.int 0) (.int 1) = some true := by
  obtain ⟨h, -⟩ := compare_account
  exact h

theorem compare_ageDoc_addressDoc :
    compare (fun _ => false) ageDoc addressDoc (.int 1) (.int 2) = some true := by
  obtain ⟨-, h, -⟩ := compare_account
  exact h

theorem isSome_nameDoc : (source (fun _ => false) nameDoc).isSome = true :=
  (isSome_of_compare compare_nameDoc_ageDoc).1

theorem isSome_ageDoc : (source (fun _ => false) ageDoc).isSome = true :=
  (isSome_of_compare compare_nameDoc_ageDoc).2

theorem substitutable_account :
    ∃ s s' op op', source (fun _ => false) nameDoc = some s ∧
      source (fun _ => false) ageDoc = some s' ∧
      s.op? "account".toList "read".toList = some op ∧
      s'.op? "account".toList "read".toList = some op' ∧
      (∀ body, valid (fun _ => false) true body op.request = true →
        valid (fun _ => false) true body op'.request = true) ∧
      ∀ payload, valid (fun _ => false) false payload op'.response = true →
        valid (fun _ => false) false payload op.response = true := by
  obtain ⟨-, -, hboth⟩ := compare_account
  obtain ⟨s, hold⟩ := Option.isSome_iff_exists.mp isSome_nameDoc
  obtain ⟨s', hnew⟩ := Option.isSome_iff_exists.mp isSome_ageDoc
  rw [hold, hnew, Option.any_some, Option.any_some, Bool.and_eq_true, beq_iff_eq] at hboth
  obtain ⟨op, hop⟩ := Option.isSome_iff_exists.mp hboth.1
  obtain ⟨op', hop', hrequest, hresponse⟩ := substitutable (fun _ => false) hold hnew
    hboth.2 compare_nameDoc_ageDoc hop
  exact ⟨s, s', op, op', hold, hnew, hop, hop', hrequest, hresponse⟩

end ControlPlane
end OpenChess
