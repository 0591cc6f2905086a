import OpenChess.Store.CorruptionEncoding
import OpenChess.Store.LiveTrees

/-!
# The detached copy

Encoding an object also copies it. The containers met on the way are remembered, so that
neither a cycle nor an alias is encoded. The copy is made of new containers and has the
value of the object, and the objects there were are left as they are.
-/

namespace OpenChess
namespace Corruption

open Json (Same copy byKey)
open Live (Objects Handle Atom value value_atom value_list value_dict)
open ObjectHeap (Cell Heap)

/-- The heap, and the containers met so far. -/
structure Scan where
  heap : Objects
  seen : List ℕ

/-- The copies of the parts of a container, and what is written of each behind its label. -/
def encodeParts (encode : Handle → Scan → Option (Handle × Text × Scan)) :
    List (Text × Handle) → Scan → Option (List Handle × List Text × Scan)
  | [], st => some ([], [], st)
  | part :: parts, st =>
    match encode part.2 st with
    | none => none
    | some (copied, out, st) =>
      match encodeParts encode parts st with
      | none => none
      | some (copies, outs, st) => some (copied :: copies, (part.1 ++ out) :: outs, st)

/-- The members of a dictionary whose keys are exact strings. The keys are distinct. -/
def strMembers (entries : List (Scalar × Handle)) : Option (List (Text × Handle)) :=
  match entries.mapM fun e => e.1.text?.map fun k => (k, e.2) with
  | none => none
  | some members => if (members.map Prod.fst).Nodup then some members else none

/-- `_encode`, with the levels left below `MAX_DEPTH`: the copy, what is written and what
is left of the heap; `none` out of the domain. -/
def encodeLive : ℕ → Handle → Scan → Option (Handle × Text × Scan)
  | 0, _, _ => none
  | levels + 1, .atom a, st => (encode (levels + 1) a.value).map fun out => (.atom a, out, st)
  | levels + 1, .ptr p, st =>
    if p ∈ st.seen then none
    else
      match st.heap.cells p with
      | .list items =>
        match encodeParts (encodeLive levels) (items.map fun r => ([], r))
            ⟨st.heap, p :: st.seen⟩ with
        | none => none
        | some (copies, outs, st) =>
          some (.ptr st.heap.next, frame 'l' items.length ++ outs.flatten,
            ⟨st.heap.alloc (.list copies), st.seen⟩)
      | .dict entries =>
        match strMembers entries with
        | none => none
        | some members =>
          match encodeParts (encodeLive levels)
              ((byKey members).map fun e => (encodeText e.1, e.2)) ⟨st.heap, p :: st.seen⟩ with
          | none => none
          | some (copies, outs, st) =>
            some (.ptr st.heap.next, frame 'd' members.length ++ outs.flatten,
              ⟨st.heap.alloc (Live.dict ((byKey members).map Prod.fst) copies), st.seen⟩)

/-- `canonical_encoding`: the detached copy, the encoding and the heap left. -/
def canonicalEncodingLive (h : Objects) (r : Handle) : Option (Handle × Text × Objects) :=
  (encodeLive maxDepth r ⟨h, []⟩).map fun out => (out.1, out.2.1, out.2.2.heap)

variable {h h' : Objects} {st st' : Scan} {r copied : Handle} {rs copies : List Handle}
  {parts : List (Text × Handle)} {t out : Text} {outs : List Text} {levels n p : ℕ}
  {entries : List (Scalar × Handle)} {members : List (Text × Handle)}

/-! ### What a pass leaves -/

/-- The old containers are unchanged, and new ones may have come. -/
structure Grown (h h' : Objects) : Prop where
  next_le : h.next ≤ h'.next
  kept : ∀ p < h.next, h'.cells p = h.cells p
  closed : h'.Closed

theorem Grown.refl (hclosed : h.Closed) : Grown h h := ⟨le_rfl, fun _ _ => rfl, hclosed⟩

theorem Grown.trans {h₁ h₂ h₃ : Objects} (h₁₂ : Grown h₁ h₂) (h₂₃ : Grown h₂ h₃) : Grown h₁ h₃ where
  next_le := h₁₂.next_le.trans h₂₃.next_le
  kept p hp := (h₂₃.kept p (hp.trans_le h₁₂.next_le)).trans (h₁₂.kept p hp)
  closed := h₂₃.closed

def New (h h' : Objects) (p : ℕ) : Prop := h.next ≤ p ∧ p < h'.next

theorem New.live {r : Handle} (hr : h'.Within (New h h') r) : h'.Live r := by
  cases hr with
  | atom a => trivial
  | ptr p hp _ => exact hp.2

/-- What is made of new containers stays so. -/
theorem Grown.within {h₁ h₂ h₃ : Objects} (h₂₃ : Grown h₂ h₃) (hr : h₂.Within (New h₁ h₂) r) :
    h₃.Within (New h₁ h₃) r :=
  (hr.frame fun p hp => h₂₃.kept p hp.2).mono fun _ hp => ⟨hp.1, hp.2.trans_le h₂₃.next_le⟩

theorem Grown.value_eq (hgrown : Grown h h') (hclosed : h.Closed) (hlive : h.Live r) (n : ℕ) :
    value h' n r = value h n r := hclosed.view_eq hlive hgrown.kept n

theorem Grown.value_of_new {h₁ h₂ h₃ : Objects} (h₂₃ : Grown h₂ h₃)
    (hr : h₂.Within (New h₁ h₂) r) (n : ℕ) : value h₃ n r = value h₂ n r :=
  hr.view_eq (fun p hp => h₂₃.kept p hp.2) n

theorem Grown.alloc {c : Cell Scalar Atom} (hgrown : Grown h h')
    (hc : ∀ r ∈ c.children, h'.Within (New h h') r) : Grown h (h'.alloc c) :=
  hgrown.trans ⟨Nat.le_succ _, fun _ hp => Heap.cells_alloc_of_lt hp,
    hgrown.closed.alloc fun r hr => New.live (hc r hr)⟩

theorem Grown.within_alloc {c : Cell Scalar Atom} (hgrown : Grown h h')
    (hc : ∀ r ∈ c.children, h'.Within (New h h') r) :
    (h'.alloc c).Within (New h (h'.alloc c)) (.ptr h'.next) := by
  have hstep : Grown h' (h'.alloc c) := ⟨Nat.le_succ _, fun _ hp => Heap.cells_alloc_of_lt hp,
    hgrown.closed.alloc fun r hr => New.live (hc r hr)⟩
  refine .ptr _ ⟨hgrown.next_le, Nat.lt_succ_self _⟩ fun r hr => ?_
  rw [Heap.cells_alloc_self] at hr
  exact hstep.within (hc r hr)

/-- A copy of new containers with the value of the object, and the encoding of that value. -/
structure Copies (levels : ℕ) (h : Objects) (r copied : Handle) (out : Text) (h' : Objects) :
    Prop where
  grown : Grown h h'
  fresh : h'.Within (New h h') copied
  encodes : ∀ n, levels ≤ n → encode levels (value h n r) = some out
  same : ∀ n, levels ≤ n → value h' n copied = copy (value h n r)

def readParts (n : ℕ) (h : Objects) (parts : List (Text × Handle)) : List (Text × Value) :=
  parts.map fun e => (e.1, value h n e.2)

/-- Copies of several objects, made one after the other. -/
structure CopiesParts (levels : ℕ) (h : Objects) (parts : List (Text × Handle))
    (copies : List Handle) (outs : List Text) (h' : Objects) : Prop where
  grown : Grown h h'
  fresh : ∀ c ∈ copies, h'.Within (New h h') c
  encodes : ∀ n, levels ≤ n →
    (readParts n h parts).mapM (fun e => (encode levels e.2).map (e.1 ++ ·)) = some outs
  same : ∀ n, levels ≤ n → copies.map (value h' n) = (readParts n h parts).map fun e => copy e.2

theorem Copies.cons {h₁ h₂ h₃ : Objects} {part : Text × Handle} (hclosed : h₁.Closed)
    (hlive : ∀ e ∈ parts, h₁.Live e.2) (hpart : Copies levels h₁ part.2 copied out h₂)
    (hparts : CopiesParts levels h₂ parts copies outs h₃) :
    CopiesParts levels h₁ (part :: parts) (copied :: copies) ((part.1 ++ out) :: outs) h₃ := by
  have hread : ∀ n, readParts n h₂ parts = readParts n h₁ parts := fun n =>
    List.map_congr_left fun e he => by rw [hpart.grown.value_eq hclosed (hlive e he)]
  refine ⟨hpart.grown.trans hparts.grown, fun c hc => ?_, fun n hn => ?_, fun n hn => ?_⟩
  · rcases List.mem_cons.mp hc with rfl | hc
    · exact hparts.grown.within hpart.fresh
    · exact (hparts.fresh c hc).mono fun p hp => ⟨hpart.grown.next_le.trans hp.1, hp.2⟩
  · have hrest := hparts.encodes n hn
    rw [hread] at hrest
    rw [readParts, List.map_cons, ← readParts, List.mapM_cons, hpart.encodes n hn, hrest]
    rfl
  · rw [List.map_cons, hparts.same n hn, hread, hparts.grown.value_of_new hpart.fresh,
      hpart.same n hn]
    rfl

theorem copiesParts_of_encodeParts (st : Scan)
    {encode : Handle → Scan → Option (Handle × Text × Scan)}
    (hstep : ∀ (st : Scan) {r copied out st'}, st.heap.Closed → st.heap.Live r →
      encode r st = some (copied, out, st') → Copies levels st.heap r copied out st'.heap)
    (hclosed : st.heap.Closed) (hlive : ∀ e ∈ parts, st.heap.Live e.2)
    (h : encodeParts encode parts st = some (copies, outs, st')) :
    CopiesParts levels st.heap parts copies outs st'.heap := by
  induction parts generalizing st copies outs with
  | nil =>
    obtain ⟨rfl, rfl, rfl⟩ : [] = copies ∧ [] = outs ∧ st = st' := by
      simpa [encodeParts] using h
    exact ⟨.refl hclosed, fun c hc => absurd hc List.not_mem_nil, fun _ _ => rfl, fun _ _ => rfl⟩
  | cons part parts ih =>
    rw [encodeParts] at h
    cases hpart : encode part.2 st with
    | none => simp [hpart] at h
    | some first =>
      obtain ⟨copied, out, st₁⟩ := first
      cases hparts : encodeParts encode parts st₁ with
      | none => simp [hpart, hparts] at h
      | some rest =>
        obtain ⟨copies', outs', st₂⟩ := rest
        obtain ⟨rfl, rfl, rfl⟩ : copied :: copies' = copies ∧ (part.1 ++ out) :: outs' = outs ∧
            st₂ = st' := by
          simpa [hpart, hparts] using h
        obtain ⟨hhead, htail⟩ := List.forall_mem_cons.mp hlive
        have hfirst := hstep st hclosed hhead hpart
        exact hfirst.cons hclosed htail (ih _ hfirst.grown.closed
          (fun e he => (htail e he).mono hfirst.grown.next_le) hparts)

/-! ### Containers -/

theorem strMembers_eq_some (h : strMembers entries = some members) :
    entries = members.map (fun e => (.str e.1, e.2)) ∧ (members.map Prod.fst).Nodup := by
  unfold strMembers at h
  split at h
  · cases h
  · rename_i l hl
    split_ifs at h with hnodup
    obtain rfl := Option.some.inj h
    exact ⟨Scalar.of_mapM_text hl, hnodup⟩

/-- New parts have the same values in the heap with the container that holds them. -/
theorem CopiesParts.alloc {c : Cell Scalar Atom}
    (hparts : CopiesParts levels h parts copies outs h') (hc : c.children = copies) :
    Grown h (h'.alloc c) ∧ (h'.alloc c).Within (New h (h'.alloc c)) (.ptr h'.next) ∧
      ∀ n, copies.map (value (h'.alloc c) n) = copies.map (value h' n) := by
  subst hc
  have hgrown := hparts.grown.alloc hparts.fresh
  refine ⟨hgrown, hparts.grown.within_alloc hparts.fresh, fun n => ?_⟩
  have hstep : Grown h' (h'.alloc c) :=
    ⟨Nat.le_succ _, fun _ hp => Heap.cells_alloc_of_lt hp, hgrown.closed⟩
  exact List.map_congr_left fun r hr => hstep.value_of_new (hparts.fresh r hr) n

theorem Copies.list {items : List Handle} (hcell : h.cells p = .list items)
    (hparts : CopiesParts levels h (items.map fun r => ([], r)) copies outs h') :
    Copies (levels + 1) h (.ptr p) (.ptr h'.next) (frame 'l' items.length ++ outs.flatten)
      (h'.alloc (.list copies)) := by
  obtain ⟨hgrown, hfresh, hvalues⟩ := hparts.alloc (c := .list copies) rfl
  refine ⟨hgrown, hfresh, fun n hn => ?_, fun n hn => ?_⟩ <;>
    obtain ⟨n, rfl⟩ := Nat.exists_eq_add_one.mpr (Nat.zero_lt_of_lt hn)
  · have hencodes := hparts.encodes n (Nat.le_of_succ_le_succ hn)
    have hunlabelled : ((fun e : Text × Value => (encode levels e.2).map (e.1 ++ ·)) ∘
        fun r : Handle => (([] : Text), value h n r)) = encode levels ∘ value h n := by
      funext r
      exact Option.map_id' ..
    rw [readParts, List.map_map, List.mapM_map] at hencodes
    rw [value_list hcell, encode, List.mapM_map, List.length_map, ← hunlabelled]
    exact congrArg (Option.map _) hencodes
  · have hsame := hparts.same n (Nat.le_of_succ_le_succ hn)
    rw [value_list (Heap.cells_alloc_self), value_list hcell, hvalues, hsame, copy,
      Json.copyItems_eq, readParts, List.map_map, List.map_map, List.map_map]
    rfl

theorem Copies.dict (hcell : h.cells p = .dict entries) (hmembers : strMembers entries = some members)
    (hparts : CopiesParts levels h ((byKey members).map fun e => (encodeText e.1, e.2)) copies outs
      h') :
    Copies (levels + 1) h (.ptr p) (.ptr h'.next) (frame 'd' members.length ++ outs.flatten)
      (h'.alloc (Live.dict ((byKey members).map Prod.fst) copies)) := by
  obtain ⟨rfl, hnodup⟩ := strMembers_eq_some hmembers
  have hlength : copies.length = (byKey members).length := by
    have := congrArg List.length (hparts.same levels le_rfl)
    simpa [readParts] using this
  have hchildren : (Live.dict ((byKey members).map Prod.fst) copies).children = copies := by
    rw [Live.dict, Cell.children, List.map_map]
    exact List.map_snd_zip (by rw [hlength, List.length_map])
  obtain ⟨hgrown, hfresh, hvalues⟩ := hparts.alloc hchildren
  -- The value of the dictionary, by its members.
  have hvalue : ∀ n, value h (n + 1) (.ptr p) =
      Value.ofMembers (members.map fun e => (e.1, value h n e.2)) := by
    intro n
    rw [value_dict hcell, Value.ofMembers, List.map_map, List.map_map]
    rfl
  refine ⟨hgrown, hfresh, fun n hn => ?_, fun n hn => ?_⟩ <;>
    obtain ⟨n, rfl⟩ := Nat.exists_eq_add_one.mpr (Nat.zero_lt_of_lt hn) <;>
    rw [hvalue]
  · have hencodes := hparts.encodes n (Nat.le_of_succ_le_succ hn)
    have hkeys : ((members.map fun e => (e.1, value h n e.2)).map Prod.fst).Nodup := by
      rwa [List.map_map]
    have hsorted : sortMembers (members.map fun e => (e.1, value h n e.2)) =
        (byKey members).map fun e => (e.1, value h n e.2) := Json.byKey_map (value h n) members
    rw [readParts, List.map_map, List.mapM_map] at hencodes
    have hread := Value.members?_ofMembers hkeys
    rw [Value.ofMembers] at hread ⊢
    rw [encode]
    simp only [hread, hsorted, List.mapM_map, List.length_map]
    exact congrArg (Option.map _) hencodes
  · have hsame := hparts.same n (Nat.le_of_succ_le_succ hn)
    have hcopies : (((byKey members).map Prod.fst).zip copies).map (Prod.map id
        (value (h'.alloc (Live.dict ((byKey members).map Prod.fst) copies)) n)) =
        (byKey members).map fun e => (e.1, copy (value h n e.2)) := by
      rw [← List.zip_map_right, hvalues, hsame, readParts, List.map_map, List.map_map,
        List.zip_map']
      rfl
    rw [Json.copy_ofMembers, Json.byKey_map, List.map_map,
      value_dict (Heap.cells_alloc_self (c := Live.dict ((byKey members).map Prod.fst) copies)),
      List.map_map, Value.ofMembers]
    refine Eq.trans ?_ (congrArg (fun l => Value.dict (l.map fun e => (.str e.1, e.2))) hcopies)
    rw [List.map_map]
    rfl

/-! ### Any object -/

theorem copies_of_encodeLive (st : Scan) (hclosed : st.heap.Closed) (hlive : st.heap.Live r)
    (h : encodeLive levels r st = some (copied, out, st')) :
    Copies levels st.heap r copied out st'.heap := by
  induction levels generalizing st r copied out st' with
  | zero => cases h
  | succ levels ih =>
    cases r with
    | atom a =>
      rw [encodeLive, Option.map_eq_some_iff] at h
      obtain ⟨t, ht, heq⟩ := h
      obtain ⟨rfl, rfl, rfl⟩ : .atom a = copied ∧ t = out ∧ st = st' := by simpa using heq
      refine ⟨.refl hclosed, .atom a, fun n _ => ?_, fun n _ => ?_⟩
      · rwa [value_atom]
      · rw [value_atom]
        cases a <;> rfl
    | ptr p =>
      rw [encodeLive] at h
      split_ifs at h
      have hchildren := hclosed p hlive
      cases hcell : st.heap.cells p with
      | list items =>
        rw [hcell] at hchildren
        simp only [hcell] at h
        split at h
        · cases h
        · rename_i hparts
          obtain ⟨rfl, rfl, rfl⟩ := by simpa using h
          refine .list hcell (copiesParts_of_encodeParts ⟨st.heap, p :: st.seen⟩ (fun st => ih st) hclosed
            (fun e he => ?_) hparts)
          obtain ⟨c, hc, rfl⟩ := List.mem_map.mp he
          exact hchildren c hc
      | dict entries =>
        rw [hcell] at hchildren
        simp only [hcell] at h
        split at h
        · cases h
        · rename_i members hmembers
          split at h
          · cases h
          · rename_i hparts
            obtain ⟨rfl, rfl, rfl⟩ := by simpa using h
            refine .dict hcell hmembers
              (copiesParts_of_encodeParts ⟨st.heap, p :: st.seen⟩ (fun st => ih st) hclosed
                (fun e he => ?_) hparts)
            obtain ⟨m, hm, rfl⟩ := List.mem_map.mp he
            refine hchildren m.2 ?_
            rw [(strMembers_eq_some hmembers).1, Cell.children, List.map_map]
            exact List.mem_map_of_mem ((Json.perm_byKey members).subset hm)

/-- The copy shares no container with the objects there were, which are left as they are,
and it is equal to the object it was made of. -/
structure Detached (h : Objects) (r copied : Handle) (h' : Objects) : Prop where
  kept : ∀ p < h.next, h'.cells p = h.cells p
  fresh : h'.Within (h.next ≤ ·) copied
  equal : ∀ n, maxDepth ≤ n → Same (value h' n copied) (value h n r)

theorem copies_of_canonicalEncodingLive (hclosed : h.Closed) (hlive : h.Live r)
    (hencode : canonicalEncodingLive h r = some (copied, out, h')) :
    Copies maxDepth h r copied out h' := by
  obtain ⟨⟨copied', out', st'⟩, hrun, heq⟩ := Option.map_eq_some_iff.mp hencode
  obtain ⟨rfl, rfl, rfl⟩ : copied' = copied ∧ out' = out ∧ st'.heap = h' := by simpa using heq
  exact copies_of_encodeLive ⟨h, []⟩ hclosed hlive hrun

/-- The canonical encoding tells every two values of the domain apart, and what it returns
beside is a detached copy. -/
theorem canonicalEncoding_injective_detached {h₁ h₂ h₁' h₂' : Objects} {r₁ r₂ c₁ c₂ : Handle}
    {t₁ t₂ : Text} (hclosed₁ : h₁.Closed) (hclosed₂ : h₂.Closed) (hlive₁ : h₁.Live r₁)
    (hlive₂ : h₂.Live r₂) (hencode₁ : canonicalEncodingLive h₁ r₁ = some (c₁, t₁, h₁'))
    (hencode₂ : canonicalEncodingLive h₂ r₂ = some (c₂, t₂, h₂')) :
    (t₁ = t₂ → ∀ n, maxDepth ≤ n → Same (value h₁ n r₁) (value h₂ n r₂)) ∧
      Detached h₁ r₁ c₁ h₁' := by
  have hcopy₁ := copies_of_canonicalEncodingLive hclosed₁ hlive₁ hencode₁
  have hcopy₂ := copies_of_canonicalEncodingLive hclosed₂ hlive₂ hencode₂
  constructor
  · rintro rfl n hn
    exact same_of_encode (hcopy₁.encodes n hn) (hcopy₂.encodes n hn)
  · refine ⟨hcopy₁.grown.kept, hcopy₁.fresh.mono fun _ hp => hp.1, fun n hn => ?_⟩
    rw [Same, hcopy₁.same n hn]
    exact Json.same_copy _

/-- A list of a truth value, a number and a dictionary. -/
def nested : Objects where
  cells
    | 0 => .list [.atom (.bool true), .atom (.int 1), .ptr 1]
    | _ => .dict [(.str ['k'], .atom .null)]
  next := 2

theorem closed_nested : nested.Closed := by
  intro p hp c hc
  have hcases : p = 0 ∨ p = 1 := by
    have hnext : nested.next = 2 := rfl
    omega
  obtain rfl | rfl := hcases
  · have hmem : c ∈ [.atom (.bool true), .atom (.int 1), .ptr 1] := hc
    simp only [List.mem_cons, List.not_mem_nil, or_false] at hmem
    obtain rfl | rfl | rfl := hmem
    · trivial
    · trivial
    · exact (by decide : 1 < 2)
  · obtain rfl := List.mem_singleton.mp (show c ∈ [.atom .null] from hc)
    trivial

theorem canonicalEncoding_nested : ∃ c t h', canonicalEncodingLive nested (.ptr 0) =
    some (c, t, h') ∧ Detached nested (.ptr 0) c h' := by
  have hlive : nested.Live (.ptr 0) := (by decide : 0 < 2)
  exact ⟨_, _, _, rfl, (canonicalEncoding_injective_detached closed_nested closed_nested hlive
    hlive rfl rfl).2⟩

end Corruption
end OpenChess
