import OpenChess.ControlPlane.Substitution

/-!
# The verdict as a preorder

Plain trees are compared as trees of typed objects, by an equivalence.
Every accepted source is compatible with itself, and compatible steps compose. What the
verdict says of two sources is stated over the operations under their names; an operation
that is added in between is kept afterwards, and a field added in between stays optional.
-/

namespace OpenChess
namespace ControlPlane

variable {lone : ℕ → Bool} {ms : List (Text × Value)} {name : Text} {v : Value}
  {entries : List (Scalar × Value)} {items : List Value}
  {original middle updated spec : Spec} {before between after fields : Fields}
  {op op' op'' : Op} {s s' s'' : Source} {a b : Value}

/-! ### Plain trees -/

theorem safeTree_ofMembers (hnodup : (ms.map Prod.fst).Nodup)
    (h : ∀ m ∈ ms, safeTree lone m.2 = true) : safeTree lone (Value.ofMembers ms) = true := by
  refine safeTree_dict.mpr ⟨?_, fun e he => ?_⟩
  · have hmap : (ms.map fun e => ((.str e.1, e.2) : Scalar × Value)).map Prod.fst =
        (ms.map Prod.fst).map Scalar.str := by
      rw [List.map_map, List.map_map]
      rfl
    rw [hmap]
    exact hnodup.map fun _ _ => Scalar.str.inj
  · obtain ⟨m, hm, rfl⟩ := List.mem_map.mp he
    exact ⟨rfl, h m hm⟩

theorem equal_self (h : safeTree lone v = true) : equal lone v v = true := by
  induction v using Value.induction with
  | hatom v hlist hdict =>
    rw [equal_leaf hlist hdict]
    cases v with
    | foreign tag => simpa [safeTree, leafEqual] using h
    | float finite t => exact leafEqual_float.mpr (floatEqual_iff.mpr (Or.inl rfl))
    | list items => exact absurd rfl (hlist items)
    | dict entries => exact absurd rfl (hdict entries)
    | _ => simp [leafEqual]
  | hlist items ih =>
    rw [safeTree, safeItems_iff] at h
    exact equal_list_iff.mpr ⟨items, rfl, List.forall₂_same.mpr fun v hv => ih v hv (h v hv)⟩
  | hdict entries ih =>
    obtain ⟨hnodup, hmembers⟩ := safeTree_dict.mp h
    refine equal_dict_iff.mpr ⟨entries, rfl, fun _ hk => hk, fun e he => ?_⟩
    exact ⟨e.2, (Dict.lookup_eq_some_iff_mem hnodup).mpr he, ih e he (hmembers e he).2⟩

/-! ### Typed structural equality -/

/-- Two plain trees are the same tree: objects of one type at every place, lists of one
length, dictionaries with the same keys. A number that is none is the same as itself. -/
inductive SameTree (lone : ℕ → Bool) : Value → Value → Prop
  | null : SameTree lone .null .null
  | bool (b : Bool) : SameTree lone (.bool b) (.bool b)
  | int (n : ℤ) : SameTree lone (.int n) (.int n)
  | nan {finite finite' : Bool} {t t' : Text} (h : isNan t = true) (h' : isNan t' = true) :
      SameTree lone (.float finite t) (.float finite' t')
  | float {finite finite' : Bool} {t t' : Text} (h : floatEqual t t' = true) :
      SameTree lone (.float finite t) (.float finite' t')
  | str (t : Text) : SameTree lone (.str t) (.str t)
  | loneStr {tag : ℕ} (h : lone tag = true) : SameTree lone (.foreign tag) (.foreign tag)
  | list {items items' : List Value} (hlength : items.length = items'.length)
      (hitems : ∀ i (h : i < items.length) (h' : i < items'.length),
        SameTree lone items[i] items'[i]) :
      SameTree lone (.list items) (.list items')
  | dict {entries entries' : List (Scalar × Value)}
      (hkeys : ∀ k, k ∈ entries.map Prod.fst ↔ k ∈ entries'.map Prod.fst)
      (hmembers : ∀ k v v', entries.lookup k = some v → entries'.lookup k = some v' →
        SameTree lone v v') :
      SameTree lone (.dict entries) (.dict entries')

theorem SameTree.symm (h : SameTree lone a b) : SameTree lone b a := by
  induction h with
  | null => exact .null
  | bool x => exact .bool x
  | int n => exact .int n
  | nan h h' => exact .nan h' h
  | float h =>
    rw [floatEqual_iff] at h
    exact .float (floatEqual_iff.mpr (h.imp Eq.symm And.symm))
  | str t => exact .str t
  | loneStr h => exact .loneStr h
  | list hlength _ ih => exact .list hlength.symm fun i h h' => ih i h' h
  | dict hkeys _ ih => exact .dict (fun k => (hkeys k).symm) fun k v v' h h' => ih k v' v h' h

theorem leafEqual_iff_sameTree (hlist : ∀ items, a ≠ .list items)
    (hdict : ∀ entries, a ≠ .dict entries) :
    leafEqual lone a b = true ↔ SameTree lone a b := by
  constructor
  · intro h
    cases a with
    | null =>
      cases b with
      | null => exact .null
      | _ => cases h
    | bool x =>
      cases b with
      | bool y =>
        obtain rfl := beq_iff_eq.mp h
        exact .bool x
      | _ => cases h
    | int n =>
      cases b with
      | int m =>
        obtain rfl := beq_iff_eq.mp h
        exact .int n
      | _ => cases h
    | float finite t =>
      cases b with
      | float finite' t' => exact .float (leafEqual_float.mp h)
      | _ => cases h
    | str t =>
      cases b with
      | str t' =>
        obtain rfl := beq_iff_eq.mp h
        exact .str t
      | _ => cases h
    | foreign tag =>
      cases b with
      | foreign tag' =>
        obtain ⟨hlone, htag⟩ := Bool.and_eq_true_iff.mp h
        obtain rfl := beq_iff_eq.mp htag
        exact .loneStr (Bool.and_eq_true_iff.mp hlone).1
      | _ => cases h
    | list items => exact absurd rfl (hlist items)
    | dict entries => exact absurd rfl (hdict entries)
  · intro h
    cases h with
    | null => rfl
    | bool x => exact beq_self_eq_true x
    | int n => exact beq_self_eq_true n
    | nan h h' => simp [leafEqual, h, h']
    | float h => exact leafEqual_float.mpr h
    | str t => exact beq_self_eq_true t
    | loneStr h => simp [leafEqual, h]
    | list => exact absurd rfl (hlist _)
    | dict => exact absurd rfl (hdict _)

/-- The walk over pairs decides whether two trees are the same. -/
theorem equal_iff_sameTree (h : safeTree lone a = true) :
    equal lone a b = true ↔ SameTree lone a b := by
  induction a using Value.induction generalizing b with
  | hatom a hlist hdict => rw [equal_leaf hlist hdict, leafEqual_iff_sameTree hlist hdict]
  | hlist items ih =>
    rw [safeTree, safeItems_iff] at h
    rw [equal_list_iff]
    constructor
    · intro hequal
      obtain ⟨items', rfl, hitems⟩ := hequal
      obtain ⟨hlength, hget⟩ := List.forall₂_iff_get.mp hitems
      exact .list hlength fun i hi hi' =>
        (ih _ (List.getElem_mem hi) (h _ (List.getElem_mem hi))).mp (hget i hi hi')
    · intro hsame
      cases hsame with
      | @list _ items' hlength hitems =>
        exact ⟨items', rfl, List.forall₂_iff_get.mpr ⟨hlength, fun i hi hi' =>
          (ih _ (List.getElem_mem hi) (h _ (List.getElem_mem hi))).mpr (hitems i hi hi')⟩⟩
  | hdict entries ih =>
    obtain ⟨hnodup, hsafe⟩ := safeTree_dict.mp h
    rw [equal_dict_iff]
    constructor
    · intro hequal
      obtain ⟨entries', rfl, hkeys, hmembers⟩ := hequal
      refine .dict (fun k => ⟨fun hk => ?_, hkeys k⟩) fun k v v' hv hv' => ?_
      · obtain ⟨e, he, rfl⟩ := List.mem_map.mp hk
        obtain ⟨v, hv, -⟩ := hmembers e he
        exact List.mem_map.mpr ⟨(e.1, v), Dict.mem_of_lookup hv, rfl⟩
      · have he := Dict.mem_of_lookup hv
        obtain ⟨u, hu, hequal⟩ := hmembers (k, v) he
        obtain rfl := Option.some.inj (hv'.symm.trans hu)
        exact (ih (k, v) he (hsafe _ he).2).mp hequal
    · intro hsame
      cases hsame with
      | @dict _ entries' hkeys hmembers =>
        refine ⟨entries', rfl, fun k hk => (hkeys k).mpr hk, fun e he => ?_⟩
        obtain ⟨v, hv⟩ := Dict.exists_lookup ((hkeys e.1).mp (List.mem_map_of_mem he))
        have hfound := (Dict.lookup_eq_some_iff_mem hnodup).mpr he
        exact ⟨v, hv, (ih e he (hsafe e he).2).mpr (hmembers e.1 e.2 v hfound hv)⟩

/-- A tree that passed the walk over its objects. -/
def PlainTree (lone : ℕ → Bool) : Type := {v : Value // safeTree lone v = true}

/-- On plain trees the walk over pairs is typed structural equality, an equivalence. -/
theorem equal_exact (lone : ℕ → Bool) :
    (∀ a b : PlainTree lone, equal lone a.1 b.1 = true ↔ SameTree lone a.1 b.1) ∧
      Equivalence fun a b : PlainTree lone => equal lone a.1 b.1 = true := by
  have hexact : ∀ a b : PlainTree lone, equal lone a.1 b.1 = true ↔ SameTree lone a.1 b.1 :=
    fun a _ => equal_iff_sameTree a.2
  refine ⟨hexact, fun a => equal_self a.2, fun {a b} h => ?_, fun h h' => equal_trans h h'⟩
  exact (hexact b a).mpr ((hexact a b).mp h).symm

/-! ### Parts of plain trees -/

theorem safeTree_filter (p : Scalar × Value → Bool) (h : safeTree lone (.dict entries) = true) :
    safeTree lone (.dict (entries.filter p)) = true := by
  obtain ⟨hnodup, hmembers⟩ := safeTree_dict.mp h
  exact safeTree_dict.mpr ⟨hnodup.sublist (List.filter_sublist.map Prod.fst),
    fun e he => hmembers e (List.mem_of_mem_filter he)⟩

theorem safeTree_lookup (h : safeTree lone (.dict entries) = true) (k : Scalar) :
    safeTree lone ((entries.lookup k).getD .null) = true := by
  obtain ⟨-, hmembers⟩ := safeTree_dict.mp h
  cases hfound : entries.lookup k with
  | none => rfl
  | some v => exact (hmembers (k, v) (Dict.mem_of_lookup hfound)).2

/-! ### Stripped contracts -/

theorem safeTree_stripAuth (h : safeTree lone v = true) : safeTree lone (stripAuth v) = true := by
  cases v with
  | dict entries => exact safeTree_filter _ h
  | _ => exact h

theorem safeTree_stripTransport (h : safeTree lone v = true) :
    safeTree lone (stripTransport v) = true := by
  cases v with
  | dict entries =>
    obtain ⟨hnodup, hmembers⟩ := safeTree_dict.mp (safeTree_filter (fun e =>
      e.1 != .str "read_only_operations".toList && e.1 != .str "auth".toList) h)
    refine safeTree_dict.mpr ⟨?_, fun e he => ?_⟩
    · rw [List.map_append, List.nodup_append]
      refine ⟨hnodup, List.nodup_singleton _, fun k hk k' hk' heq => ?_⟩
      obtain ⟨e, he, rfl⟩ := List.mem_map.mp hk
      obtain rfl := List.mem_singleton.mp hk'
      have hkept := List.of_mem_filter he
      rw [heq] at hkept
      simp at hkept
    · rcases List.mem_append.mp he with he | he
      · exact hmembers e he
      · obtain rfl := List.mem_singleton.mp he
        exact ⟨rfl, safeTree_stripAuth (safeTree_lookup h _)⟩
  | _ => exact h

theorem safeTree_stripContract (h : safeTree lone v = true) :
    safeTree lone (stripContract v) = true := by
  cases v with
  | dict entries =>
    obtain ⟨hnodup, hmembers⟩ := safeTree_dict.mp h
    refine safeTree_dict.mpr ⟨?_, fun e he => ?_⟩
    · have hkeys : (entries.map fun e => if e.1 = .str "transport".toList then
          (e.1, stripTransport e.2) else e).map Prod.fst = entries.map Prod.fst := by
        rw [List.map_map]
        refine List.map_congr_left fun e _ => ?_
        simp only [Function.comp_apply]
        split_ifs <;> rfl
      rwa [hkeys]
    · obtain ⟨e, he', rfl⟩ := List.mem_map.mp he
      obtain ⟨hkey, hsafe⟩ := hmembers e he'
      split_ifs
      · exact ⟨hkey, safeTree_stripTransport hsafe⟩
      · exact ⟨hkey, hsafe⟩
  | _ => exact h

/-! ### Declarations -/

theorem safeTree_of_sampleOk {kind : ItemKind} (h : sampleOk kind v = true) :
    safeTree lone v = true := by
  cases v with
  | list items => cases kind <;> cases h
  | dict entries => cases kind <;> cases h
  | foreign tag => cases kind <;> cases h
  | _ => rfl

theorem safeTree_of_arraySampleOk {items : ItemKind} (h : arraySampleOk items v = true) :
    safeTree lone v = true := by
  cases v with
  | list values =>
    rw [safeTree, safeItems_iff]
    exact fun u hu => safeTree_of_sampleOk (List.all_eq_true.mp h u hu)
  | _ => cases h

theorem safeTree_baseMembers {kind : Text} {required writeOnly : Bool} {sample : Option Value}
    (h : ∀ v ∈ sample, safeTree lone v = true) :
    ∀ m ∈ baseMembers kind required writeOnly sample, safeTree lone m.2 = true := by
  intro m hm
  simp only [baseMembers, List.mem_append, List.mem_cons, List.not_mem_nil, or_false,
    Option.mem_toList, Option.map_eq_some_iff, List.mem_ite_nil_right] at hm
  obtain ((rfl | rfl) | ⟨-, rfl⟩) | ⟨v, hv, rfl⟩ := hm
  · rfl
  · rfl
  · rfl
  · exact h v hv

theorem keepsSpec_self {side : Side} {nested : Value → Option Fields}
    (hnested : ∀ u fields, nested u = some fields → additiveFields lone fields fields = true)
    (h : readSpec side nested name v = some spec) : keepsSpec lone spec spec = true := by
  obtain ⟨kind, required, writeOnly, sample, rfl, hsample⟩ |
    ⟨items, required, writeOnly, sample, rfl, hsample⟩ |
    ⟨u, fields, required, writeOnly, rfl, hfields⟩ := readSpec_cases h
  · rw [keepsSpec]
    refine equal_self (safeTree_ofMembers ?_ ?_)
    · cases writeOnly <;> cases sample <;> simp [baseMembers]
    · exact safeTree_baseMembers fun v hv => safeTree_of_sampleOk (hsample v hv)
  · rw [keepsSpec]
    refine equal_self (safeTree_ofMembers ?_ fun m hm => ?_)
    · cases writeOnly <;> cases sample <;> simp [baseMembers]
    · rcases List.mem_append.mp hm with hm | hm
      · exact safeTree_baseMembers (fun v hv => safeTree_of_arraySampleOk (hsample v hv)) m hm
      · obtain rfl := List.mem_singleton.mp hm
        rfl
  · rw [keepsSpec]
    simpa [additiveFields] using hnested u fields hfields

theorem additiveFields_iff : additiveFields lone before after = true ↔
    (∀ f ∈ before, ∃ updated, after.lookup f.1 = some updated ∧ keepsSpec lone updated f.2 = true) ∧
      ∀ f ∈ after, before.lookup f.1 = none → f.2.required = false := by
  rw [additiveFields, Bool.and_eq_true, keepsFields_iff, newOptional, List.all_eq_true]
  apply and_congr_right'
  refine forall₂_congr fun f _ => ?_
  cases before.lookup f.1 <;> simp

theorem additiveFields_self_of_readLevel {side : Side} {nested : Value → Option Fields}
    (hnested : ∀ u fields, nested u = some fields → additiveFields lone fields fields = true)
    (h : readLevel side nested v = some fields) : additiveFields lone fields fields = true := by
  obtain ⟨hnodup, hall⟩ := of_readLevel h
  have hfound : ∀ f ∈ fields, fields.lookup f.1 = some f.2 :=
    fun f hf => (Dict.lookup_eq_some_iff_mem hnodup).mpr hf
  refine additiveFields_iff.mpr ⟨fun f hf => ?_, fun f hf hnone => ?_⟩
  · obtain ⟨u, hu⟩ := hall f hf
    exact ⟨f.2, hfound f hf, keepsSpec_self hnested hu⟩
  · rw [hfound f hf] at hnone
    cases hnone

theorem additiveFields_self {side : Side} {levels : ℕ}
    (h : readFields side levels v = some fields) : additiveFields lone fields fields = true := by
  induction levels generalizing v fields with
  | zero => exact additiveFields_self_of_readLevel (fun _ _ hnone => by cases hnone) h
  | succ levels ih => exact additiveFields_self_of_readLevel (fun _ _ hsome => ih hsome) h

/-- Fields that extend fields that extend the first ones: those of the fields in between
that are new are optional, and they are kept. -/
theorem additiveFields_trans (hafter : Declared after)
    (htrans : ∀ f ∈ before, ∀ middle updated : Spec, updated.Distinct →
      keepsSpec lone middle f.2 = true → keepsSpec lone updated middle = true →
      keepsSpec lone updated f.2 = true)
    (h : additiveFields lone before between = true)
    (h' : additiveFields lone between after = true) : additiveFields lone before after = true := by
  obtain ⟨hkept, hnew⟩ := additiveFields_iff.mp h
  obtain ⟨hkept', hnew'⟩ := additiveFields_iff.mp h'
  refine additiveFields_iff.mpr ⟨fun f hf => ?_, fun f hf hnone => ?_⟩
  · obtain ⟨middle, hmiddle, hspec⟩ := hkept f hf
    obtain ⟨updated, hupdated, hspec'⟩ := hkept' (f.1, middle) (Dict.mem_of_lookup hmiddle)
    exact ⟨updated, hupdated,
      htrans f hf middle updated (hafter.distinct hupdated) hspec hspec'⟩
  · cases hmiddle : between.lookup f.1 with
    | none => exact hnew' f hf hmiddle
    | some middle =>
      have hmem : (f.1, middle) ∈ between := Dict.mem_of_lookup hmiddle
      obtain ⟨updated, hupdated, hspec⟩ := hkept' _ hmem
      have hsame : f.2 = updated := Option.some.inj ((hafter.lookup hf).symm.trans hupdated)
      have hrequired := (substitutes_of_keepsSpec (hafter.distinct hupdated) hspec).required
      rw [hsame, hrequired]
      exact hnew _ hmem hnone

theorem keepsSpec_trans (hdistinct : updated.Distinct) (h : keepsSpec lone middle original = true)
    (h' : keepsSpec lone updated middle = true) : keepsSpec lone updated original = true := by
  induction original using Spec.induction generalizing middle updated with
  | hitem kind required writeOnly sample =>
    rw [keepsSpec] at h ⊢
    obtain ⟨htype, -⟩ := same_of_equal h
    obtain ⟨harray, hobject⟩ := itemKind_text_ne kind
    cases middle with
    | item kind' =>
      rw [keepsSpec] at h'
      exact equal_trans h h'
    | array => exact absurd htype.symm harray
    | object => exact absurd htype.symm hobject
  | harray items required writeOnly sample =>
    rw [keepsSpec] at h ⊢
    obtain ⟨htype, -⟩ := same_of_equal h
    cases middle with
    | item kind' => exact absurd htype (itemKind_text_ne kind').1
    | array =>
      rw [keepsSpec] at h'
      exact equal_trans h h'
    | object =>
      have hne : "object".toList ≠ "array".toList := by decide
      exact absurd htype hne
  | hobject fields required writeOnly ih =>
    obtain ⟨fields', rfl, hfields⟩ := keepsSpec_object_iff.mp h
    obtain ⟨fields'', rfl, hfields'⟩ := keepsSpec_object_iff.mp h'
    have hdeclared : Declared fields'' := ⟨hdistinct.1, distinctFields_iff.mp hdistinct.2⟩
    exact keepsSpec_object_iff.mpr ⟨fields'', rfl,
      additiveFields_trans hdeclared (fun f hf _ _ hd => ih f hf hd) hfields hfields'⟩

/-! ### Operations -/

theorem keepsOp_iff : keepsOp lone op op' = true ↔
    (op.method = op'.method ∧ op.path = op'.path ∧ op.auth = op'.auth ∧
      op.mutating = op'.mutating ∧ op.errors = op'.errors) ∧
    additiveFields lone op.request op'.request = true ∧
    additiveFields lone op.response op'.response = true := by
  rw [keepsOp, Bool.and_eq_true, Bool.and_eq_true, decide_eq_true_eq, and_assoc]

theorem keepsOp_trans (hrequest : Declared op''.request) (hresponse : Declared op''.response)
    (h : keepsOp lone op op' = true) (h' : keepsOp lone op' op'' = true) :
    keepsOp lone op op'' = true := by
  obtain ⟨⟨hmethod, hpath, hauth, hmutating, herrors⟩, hreq, hresp⟩ := keepsOp_iff.mp h
  obtain ⟨⟨hmethod', hpath', hauth', hmutating', herrors'⟩, hreq', hresp'⟩ := keepsOp_iff.mp h'
  refine keepsOp_iff.mpr ⟨⟨hmethod.trans hmethod', hpath.trans hpath', hauth.trans hauth',
    hmutating.trans hmutating', herrors.trans herrors'⟩, ?_, ?_⟩
  · exact additiveFields_trans hrequest (fun _ _ _ _ => keepsSpec_trans) hreq hreq'
  · exact additiveFields_trans hresponse (fun _ _ _ _ => keepsSpec_trans) hresp hresp'

/-- A source whose areas, and the operations of each of them, have distinct names. -/
structure Source.Named (s : Source) : Prop where
  areas : (s.areas.map Prod.fst).Nodup
  ops : ∀ a ∈ s.areas, (a.2.ops.map Prod.fst).Nodup

theorem Source.Named.lookup (h : s.Named) {a : Text × Area} (ha : a ∈ s.areas) :
    s.areas.lookup a.1 = some a.2 := (Dict.lookup_eq_some_iff_mem h.areas).mpr ha

theorem Source.Named.op? (h : s.Named) {a : Text × Area} (ha : a ∈ s.areas) {o : Text × Op}
    (ho : o ∈ a.2.ops) : s.op? a.1 o.1 = some o.2 :=
  Option.bind_eq_some_iff.mpr
    ⟨a.2, h.lookup ha, (Dict.lookup_eq_some_iff_mem (h.ops a ha)).mpr ho⟩

theorem Source.Named.mem_ops (h : s.Named) {area : Text} :
    (area, name, op) ∈ s.ops ↔ s.op? area name = some op := by
  simp only [Source.ops, List.mem_flatMap, List.mem_map, Prod.mk.injEq]
  constructor
  · intro hmem
    obtain ⟨a, ha, o, ho, rfl, rfl, rfl⟩ := hmem
    exact h.op? ha ho
  · intro hop
    obtain ⟨a, ha, ho⟩ := Option.bind_eq_some_iff.mp hop
    exact ⟨(area, a), Dict.mem_of_lookup ha, (name, op), Dict.mem_of_lookup ho, rfl, rfl, rfl⟩

/-- An operation that the later source has and the earlier one has not. -/
structure Added (s s' : Source) (area name : Text) (op : Op) : Prop where
  is : s'.op? area name = some op
  new : s.op? area name = none

theorem Source.Named.mem_additions (h : s'.Named) {area : Text} :
    (area, name, op) ∈ additions s s' ↔ Added s s' area name op := by
  rw [additions, List.mem_filter, h.mem_ops, Option.isNone_iff_eq_none]
  exact ⟨fun hadded => ⟨hadded.1, hadded.2⟩, fun hadded => ⟨hadded.is, hadded.new⟩⟩

theorem Source.Named.mem_namesOf (h : s'.Named) (p : Op → Bool) {t : Text} :
    t ∈ namesOf p (additions s s') ↔
      ∃ area name op, Added s s' area name op ∧ p op = true ∧ opName area name = t := by
  simp only [namesOf, List.mem_map, List.mem_filter, Prod.exists, h.mem_additions, and_assoc]

theorem sameSet_iff {l l' : List Text} : sameSet l l' = true ↔ ∀ t, t ∈ l ↔ t ∈ l' := by
  simp only [sameSet, Bool.and_eq_true, List.all_eq_true, List.contains_iff_mem]
  exact ⟨fun h t => ⟨h.1 t, h.2 t⟩, fun h => ⟨fun t => (h t).mp, fun t => (h t).mpr⟩⟩

/-! ### Steps within a major version -/

def GrowsBy (p : Op → Bool) (s s' : Source) (l l' : List Text) : Prop :=
  ∀ t, t ∈ l' ↔ t ∈ l ∨ ∃ area name op, Added s s' area name op ∧ p op = true ∧ opName area name = t

/-- What the verdict says of two sources, by the names of their operations. -/
structure Follows (lone : ℕ → Bool) (s s' : Source) : Prop where
  readOnly : GrowsBy Op.isReadOnly s s' s.readOnlyOperations s'.readOnlyOperations
  anonymous : GrowsBy Op.isPublic s s' s.publicOperations s'.publicOperations
  contract : equal lone (stripContract s.contract) (stripContract s'.contract) = true
  areas : ∀ area a, s.areas.lookup area = some a → ∃ a', s'.areas.lookup area = some a' ∧
    equal lone (.dict a.notes) (.dict a'.notes) = true
  ops : ∀ area name op, s.op? area name = some op → ∃ op', s'.op? area name = some op' ∧
    keepsOp lone op op' = true
  routes : ∀ area name op, Added s s' area name op → ∀ area' name' op',
    s.op? area' name' = some op' → (op.method, op.path) ≠ (op'.method, op'.path)

theorem growsBy_iff (h : s'.Named) (p : Op → Bool) {l l' : List Text} :
    sameSet l' (l ++ namesOf p (additions s s')) = true ↔ GrowsBy p s s' l l' := by
  rw [sameSet_iff]
  refine forall_congr' fun t => ?_
  rw [List.mem_append, h.mem_namesOf p]

theorem keepsAreas_iff (h : s.Named) :
    (∀ a ∈ s.areas, (s'.areas.lookup a.1).any (keepsArea lone a.2) = true) ↔
      (∀ area a, s.areas.lookup area = some a → ∃ a', s'.areas.lookup area = some a' ∧
        equal lone (.dict a.notes) (.dict a'.notes) = true) ∧
      ∀ area name op, s.op? area name = some op → ∃ op', s'.op? area name = some op' ∧
        keepsOp lone op op' = true := by
  simp only [Option.any_eq_true, keepsArea, Bool.and_eq_true, List.all_eq_true]
  constructor
  · intro hall
    refine ⟨fun area a ha => ?_, fun area name op hop => ?_⟩
    · obtain ⟨a', ha', hnotes, -⟩ := hall (area, a) (Dict.mem_of_lookup ha)
      exact ⟨a', ha', hnotes⟩
    · obtain ⟨a, ha, ho⟩ := Option.bind_eq_some_iff.mp hop
      obtain ⟨a', ha', -, hops⟩ := hall (area, a) (Dict.mem_of_lookup ha)
      obtain ⟨op', hop', hkeeps⟩ := hops (name, op) (Dict.mem_of_lookup ho)
      exact ⟨op', Option.bind_eq_some_iff.mpr ⟨a', ha', hop'⟩, hkeeps⟩
  · intro hall a ha
    obtain ⟨hareas, hops⟩ := hall
    obtain ⟨a', ha', hnotes⟩ := hareas a.1 a.2 (h.lookup ha)
    refine ⟨a', ha', hnotes, fun o ho => ?_⟩
    obtain ⟨op', hop', hkeeps⟩ := hops a.1 o.1 o.2 (h.op? ha ho)
    obtain ⟨a'', ha'', hfound⟩ := Option.bind_eq_some_iff.mp hop'
    obtain rfl := Option.some.inj (ha'.symm.trans ha'')
    exact ⟨op', hfound, hkeeps⟩

theorem routes_iff (h : s.Named) (h' : s'.Named) :
    ((additions s s').all fun o =>
      s.ops.all fun o' => decide ((o.2.2.method, o.2.2.path) ≠ (o'.2.2.method, o'.2.2.path))) =
        true ↔
      ∀ area name op, Added s s' area name op → ∀ area' name' op', s.op? area' name' = some op' →
        (op.method, op.path) ≠ (op'.method, op'.path) := by
  simp only [List.all_eq_true, decide_eq_true_eq, Prod.forall, h'.mem_additions, h.mem_ops]

theorem sameMajor_iff (h : s.Named) (h' : s'.Named) :
    sameMajor lone s s' = true ↔ Follows lone s s' := by
  simp only [sameMajor, Bool.and_eq_true, List.all_eq_true (l := s.areas), growsBy_iff h',
    keepsAreas_iff h, routes_iff h h']
  constructor
  · intro hall
    obtain ⟨⟨⟨⟨hreadOnly, hanonymous⟩, hcontract⟩, hareas, hops⟩, hroutes⟩ := hall
    exact ⟨hreadOnly, hanonymous, hcontract, hareas, hops, hroutes⟩
  · intro hall
    exact ⟨⟨⟨⟨hall.readOnly, hall.anonymous⟩, hall.contract⟩, hall.areas, hall.ops⟩, hall.routes⟩

theorem not_added_self {area : Text} : ¬ Added s s area name op := by
  intro h
  have hnone := h.new
  rw [h.is] at hnone
  cases hnone

theorem added_trans_iff (h : Follows lone s s') (h' : Follows lone s' s'') {area : Text} :
    Added s s'' area name op ↔ Added s' s'' area name op ∨
      ∃ op', Added s s' area name op' ∧ s''.op? area name = some op ∧ keepsOp lone op' op = true := by
  constructor
  · intro hadded
    cases hmiddle : s'.op? area name with
    | none => exact Or.inl ⟨hadded.is, hmiddle⟩
    | some op' =>
      obtain ⟨op'', hop'', hkeeps⟩ := h'.ops area name op' hmiddle
      obtain rfl := Option.some.inj (hop''.symm.trans hadded.is)
      exact Or.inr ⟨op', ⟨hmiddle, hadded.new⟩, hadded.is, hkeeps⟩
  · intro hadded
    obtain hadded | ⟨op', hadded, hop, -⟩ := hadded
    · refine ⟨hadded.is, Option.eq_none_iff_forall_ne_some.mpr fun o ho => ?_⟩
      obtain ⟨op', hop', -⟩ := h.ops area name o ho
      rw [hadded.new] at hop'
      cases hop'
    · exact ⟨hop, hadded.new⟩

/-- A list that grows in two steps, by a property that kept operations share. -/
theorem GrowsBy.trans {p : Op → Bool} {l l' l'' : List Text}
    (hp : ∀ op op', keepsOp lone op op' = true → p op = p op') (hs : Follows lone s s')
    (hs' : Follows lone s' s'') (h : GrowsBy p s s' l l') (h' : GrowsBy p s' s'' l' l'') :
    GrowsBy p s s'' l l'' := by
  intro t
  rw [h' t, h t, or_assoc]
  apply or_congr_right
  constructor
  · intro hadded
    obtain ⟨area, name, op', hadded, hop', ht⟩ | ⟨area, name, op, hadded, hop, ht⟩ := hadded
    · obtain ⟨op, hop, hkeeps⟩ := hs'.ops area name op' hadded.is
      exact ⟨area, name, op, (added_trans_iff hs hs').mpr (Or.inr ⟨op', hadded, hop, hkeeps⟩),
        (hp op' op hkeeps).symm.trans hop', ht⟩
    · exact ⟨area, name, op, (added_trans_iff hs hs').mpr (Or.inl hadded), hop, ht⟩
  · intro hadded
    obtain ⟨area, name, op, hadded, hop, ht⟩ := hadded
    obtain hadded | ⟨op', hadded, -, hkeeps⟩ := (added_trans_iff hs hs').mp hadded
    · exact Or.inr ⟨area, name, op, hadded, hop, ht⟩
    · exact Or.inl ⟨area, name, op', hadded, (hp op' op hkeeps).trans hop, ht⟩

theorem Follows.trans (hdeclared : ∀ area name op, s''.op? area name = some op →
      Declared op.request ∧ Declared op.response)
    (h : Follows lone s s') (h' : Follows lone s' s'') : Follows lone s s'' where
  readOnly := by
    refine GrowsBy.trans (fun op op' hkeeps => ?_) h h' h.readOnly h'.readOnly
    obtain ⟨⟨-, -, -, hmutating, -⟩, -⟩ := keepsOp_iff.mp hkeeps
    rw [Op.isReadOnly, Op.isReadOnly, hmutating]
  anonymous := by
    refine GrowsBy.trans (fun op op' hkeeps => ?_) h h' h.anonymous h'.anonymous
    obtain ⟨⟨-, -, hauth, -⟩, -⟩ := keepsOp_iff.mp hkeeps
    rw [Op.isPublic, Op.isPublic, hauth]
  contract := equal_trans h.contract h'.contract
  areas := by
    intro area a ha
    obtain ⟨a', ha', hnotes⟩ := h.areas area a ha
    obtain ⟨a'', ha'', hnotes'⟩ := h'.areas area a' ha'
    exact ⟨a'', ha'', equal_trans hnotes hnotes'⟩
  ops := by
    intro area name op hop
    obtain ⟨op', hop', hkeeps⟩ := h.ops area name op hop
    obtain ⟨op'', hop'', hkeeps'⟩ := h'.ops area name op' hop'
    obtain ⟨hrequest, hresponse⟩ := hdeclared area name op'' hop''
    exact ⟨op'', hop'', keepsOp_trans hrequest hresponse hkeeps hkeeps'⟩
  routes := by
    intro area name op hadded area' name' op' hop' hroute
    obtain hadded | ⟨middle, hadded, -, hkeeps⟩ := (added_trans_iff h h').mp hadded
    · -- the old route is one of the source in between
      obtain ⟨kept, hkept, hkeeps⟩ := h.ops area' name' op' hop'
      obtain ⟨⟨hmethod, hpath, -⟩, -⟩ := keepsOp_iff.mp hkeeps
      rw [hmethod, hpath] at hroute
      exact h'.routes area name op hadded area' name' kept hkept hroute
    · obtain ⟨⟨hmethod, hpath, -⟩, -⟩ := keepsOp_iff.mp hkeeps
      rw [← hmethod, ← hpath] at hroute
      exact h.routes area name middle hadded area' name' op' hop' hroute

/-! ### Accepted sources -/

theorem named_of_source (h : source lone v = some s) : s.Named := by
  obtain ⟨-, -, areas, closed, -, hareas⟩ := of_source h
  obtain ⟨hnodup, hall⟩ := Value.readMembers_eq_some hareas
  refine ⟨hnodup, fun a ha => ?_⟩
  obtain ⟨u, hu⟩ := hall a ha
  obtain ⟨_, -, -, -, u', hops⟩ := of_readArea hu
  exact (Value.readMembers_eq_some hops).1

theorem safeTree_contract (h : source lone v = some s) : safeTree lone s.contract = true := by
  obtain ⟨hsafe, -, areas, closed, hfields, -⟩ := of_source h
  cases v with
  | dict entries =>
    obtain ⟨k, hk⟩ := Value.mem_of_fields? hfields
      (List.mem_cons_of_mem (.int 2) (List.mem_cons_self (a := s.contract)))
    exact ((safeTree_dict.mp hsafe).2 _ hk).2
  | _ => cases hfields

theorem safeTree_notes (h : source lone v = some s) {a : Text × Area} (ha : a ∈ s.areas) :
    safeTree lone (.dict a.2.notes) = true := by
  obtain ⟨hsafe, -, areas, closed, hfields, hareas⟩ := of_source h
  have hareasSafe : safeTree lone areas = true := by
    cases v with
    | dict entries =>
      obtain ⟨k, hk⟩ := Value.mem_of_fields? hfields (List.mem_cons_of_mem (.int 2)
        (List.mem_cons_of_mem s.contract (List.mem_cons_self (a := areas))))
      exact ((safeTree_dict.mp hsafe).2 _ hk).2
    | _ => cases hfields
  cases areas with
  | dict entries =>
    obtain ⟨u, hu, hread⟩ := Value.mem_of_readMembers hareas a ha
    obtain ⟨members, rfl, hnotes, -⟩ := of_readArea hread
    rw [hnotes]
    exact safeTree_filter _ ((safeTree_dict.mp hareasSafe).2 _ hu).2
  | _ => cases hareas

theorem keepsOp_self (h : source lone v = some s) {area : Text}
    (hop : s.op? area name = some op) : keepsOp lone op op = true := by
  obtain ⟨u, u', hrequest, hresponse⟩ := of_op h hop
  exact keepsOp_iff.mpr ⟨⟨rfl, rfl, rfl, rfl, rfl⟩, additiveFields_self hrequest,
    additiveFields_self hresponse⟩

theorem follows_self (h : source lone v = some s) : Follows lone s s where
  readOnly := by
    intro t
    refine ⟨Or.inl, fun ht => ?_⟩
    obtain ht | ⟨_, _, _, hadded, -⟩ := ht
    · exact ht
    · exact absurd hadded not_added_self
  anonymous := by
    intro t
    refine ⟨Or.inl, fun ht => ?_⟩
    obtain ht | ⟨_, _, _, hadded, -⟩ := ht
    · exact ht
    · exact absurd hadded not_added_self
  contract := equal_self (safeTree_stripContract (safeTree_contract h))
  areas := by
    intro area a ha
    exact ⟨a, ha, equal_self (safeTree_notes h (Dict.mem_of_lookup ha))⟩
  ops := by
    intro area name op hop
    exact ⟨op, hop, keepsOp_self h hop⟩
  routes := by
    intro area name op hadded
    exact absurd hadded not_added_self

/-- The verdict on two sources is compatible where the major version grew, or where the
second source follows the first one under the same base path and the minor version did not
go back. -/
theorem compare_iff {old new oldMinor newMinor : Value} :
    compare lone old new oldMinor newMinor = some true ↔
      ∃ m m' s s', oldMinor.nat? 0 maxMinor = some m ∧ newMinor.nat? 0 maxMinor = some m' ∧
        source lone old = some s ∧ source lone new = some s' ∧
        (s.major < s'.major ∨
          s.major = s'.major ∧ m ≤ m' ∧ s.basePath = s'.basePath ∧ Follows lone s s') := by
  unfold compare
  constructor
  · intro h
    split at h
    · rename_i m m' s s' hm hm' hs hs'
      refine ⟨m, m', s, s', hm, hm', hs, hs', ?_⟩
      split_ifs at h with hless hmajor hminor hpath
      · cases h
      · have hfollows := (sameMajor_iff (named_of_source hs) (named_of_source hs')).mp
          (Option.some.inj h)
        exact Or.inr ⟨hmajor.symm, not_lt.mp hminor, not_not.mp hpath, hfollows⟩
      · exact Or.inl (lt_of_le_of_ne (not_lt.mp hless) (Ne.symm hmajor))
    · cases h
  · intro h
    obtain ⟨m, m', s, s', hm, hm', hs, hs', hverdict⟩ := h
    simp only [hm, hm', hs, hs']
    obtain hless | ⟨hmajor, hminor, hpath, hfollows⟩ := hverdict
    · rw [if_neg (not_lt.mpr hless.le), if_neg hless.ne']
    · rw [if_neg (not_lt.mpr hmajor.le), if_pos hmajor.symm, if_neg (not_lt.mpr hminor),
        if_neg (not_not.mpr hpath)]
      exact congrArg some
        ((sameMajor_iff (named_of_source hs) (named_of_source hs')).mpr hfollows)

/-- The verdict is a preorder on accepted sources: a source is compatible with itself under
minor versions that do not go back, and two compatible steps are one. -/
theorem compare_preorder (lone : ℕ → Bool) :
    (∀ doc oldMinor newMinor s m m', source lone doc = some s →
      oldMinor.nat? 0 maxMinor = some m → newMinor.nat? 0 maxMinor = some m' → m ≤ m' →
      compare lone doc doc oldMinor newMinor = some true) ∧
    ∀ a b c aMinor bMinor cMinor, compare lone a b aMinor bMinor = some true →
      compare lone b c bMinor cMinor = some true → compare lone a c aMinor cMinor = some true := by
  constructor
  · intro doc oldMinor newMinor s m m' hs hm hm' hle
    exact compare_iff.mpr
      ⟨m, m', s, s, hm, hm', hs, hs, Or.inr ⟨rfl, hle, rfl, follows_self hs⟩⟩
  · intro a b c aMinor bMinor cMinor hab hbc
    obtain ⟨m, m', s, s', hm, hm', hs, hs', hverdict⟩ := compare_iff.mp hab
    obtain ⟨_, m'', _, s'', hm₁, hm'', hs₁, hs'', hverdict'⟩ := compare_iff.mp hbc
    obtain rfl := Option.some.inj (hm'.symm.trans hm₁)
    obtain rfl := Option.some.inj (hs'.symm.trans hs₁)
    refine compare_iff.mpr ⟨m, m'', s, s'', hm, hm'', hs, hs'', ?_⟩
    obtain hless | ⟨hmajor, hle, hpath, hfollows⟩ := hverdict
    · obtain hless' | ⟨hmajor', -⟩ := hverdict'
      · exact Or.inl (hless.trans hless')
      · exact Or.inl (hless.trans_eq hmajor')
    · obtain hless' | ⟨hmajor', hle', hpath', hfollows'⟩ := hverdict'
      · exact Or.inl (hmajor.trans_lt hless')
      · exact Or.inr ⟨hmajor.trans hmajor', hle.trans hle', hpath.trans hpath',
          hfollows.trans (fun _ _ _ => declared_op hs'') hfollows'⟩

theorem compare_preorder_account :
    compare (fun _ => false) nameDoc nameDoc (.int 0) (.int 1) = some true ∧
      compare (fun _ => false) nameDoc addressDoc (.int 0) (.int 2) = some true := by
  obtain ⟨hself, htrans⟩ := compare_preorder fun _ => false
  constructor
  · exact hself nameDoc (.int 0) (.int 1) _ 0 1 (Option.some_get isSome_nameDoc).symm
      (by decide) (by decide) (by decide)
  · exact htrans nameDoc ageDoc addressDoc (.int 0) (.int 1) (.int 2) compare_nameDoc_ageDoc
      compare_ageDoc_addressDoc

end ControlPlane
end OpenChess
