import OpenChess.Graph.Diff

/-!
# Exact differences

The members of a valid state are linked to their keys, so a key determines its
record, and the hashed text determines the state. A difference that fits a base
is then the computed one.
-/

namespace OpenChess
namespace Diff

open PositionDigest (Sha256 digestFormat digest encoding)
open TranspositionNode (Record)
open Node (readRecord recordValue Linked)

variable {sha : Sha256} {r r' : Record} {k : Text} {s s' t : State} {v w : Value}

/-! ### Identities -/

/-- The three checks of the source accept exactly the linked records. -/
theorem recordIdentity_eq_some : recordIdentity sha r = some k ↔ Linked sha k r := by
  constructor
  · intro h
    unfold recordIdentity at h
    split_ifs at h with hformat
    split at h
    · rename_i half full hsplit
      split_ifs at h with hclocks
      simp only [not_or, not_not] at hclocks
      obtain ⟨rfl, rfl⟩ := hclocks
      split at h
      · cases h
      · rename_i position hparse
        split at h
        · cases h
        · rename_i projection hidentity
          split at h
          · cases h
          · rename_i expected hdigest
            split_ifs at h with hsame
            rw [not_not] at hsame
            obtain ⟨p, hp⟩ := Node.snapshot_of_parse hparse hdigest hsplit
            rw [hp.parse] at hparse
            obtain rfl := Except.ok.inj hparse
            rw [hp.identity] at hidentity
            obtain rfl := Except.ok.inj hidentity
            rw [hp.digestFen] at hdigest
            obtain rfl := Except.ok.inj hdigest
            exact ⟨p, hp, hsame, (Option.some.inj h).symm⟩
    · cases h
  · intro h
    obtain ⟨p, hp, hdigest, rfl⟩ := h
    have hzero : Nat.toDigits 10 0 = ['0'] := by decide
    have hone : Nat.toDigits 10 1 = ['1'] := by decide
    have hsplit : r.snapshotFen.splitOn ' ' = [Fen.emitPlacement p.board, [p.color.letter],
        Fen.emitRights p.rights, Fen.emitEp p.ep, ['0'], ['1']] := by
      rw [hp.text, PositionDigest.fenText, Fen.splitOn_fields, Fen.fieldsOf, hp.half, hp.full,
        hzero, hone]
    have hformat : digestFormat r.digest = true := by
      rw [hdigest]
      exact TranspositionNode.digestFormat_digest sha _
    unfold recordIdentity
    rw [if_neg (by simp [hformat])]
    simp only [hsplit, ne_eq, not_true_eq_false, or_self, if_false]
    rw [hp.parse]
    simp only [hp.identity, hp.digestFen]
    rw [if_neg (not_not.mpr hdigest)]

def Valid (sha : Sha256) (s : State) : Prop := ∀ k r, s.lookup k = some r → Linked sha k r

/-- Under one key two valid states hold one record. -/
theorem Valid.agree (hs : Valid sha s) (ht : Valid sha t) (h : s.lookup k = some r)
    (h' : t.lookup k = some r') : r = r' := (hs k r h).unique (ht k r' h')

theorem valid_singleton (h : Linked sha k r) :
    Valid sha (Finmap.singleton k r) := by
  intro k' r' hr
  have hk := (Finmap.mem_singleton _ _ _).mp (Finmap.mem_of_lookup_eq_some hr)
  subst hk
  rw [Finmap.lookup_singleton_eq] at hr
  obtain rfl := Option.some.inj hr
  exact h

theorem stateId_eq_ok {id : Text} :
    stateId sha s = .ok id ↔ Valid sha s ∧ id = contentId sha s := by
  have hall : s.items.all (fun e => recordIdentity sha e.2 == some e.1) = true ↔ Valid sha s := by
    simp only [List.all_eq_true, beq_iff_eq, recordIdentity_eq_some]
    constructor
    · exact fun h k r hr => h (k, r) (Dict.mem_items.mpr hr)
    · exact fun h e he => h e.1 e.2 (Dict.mem_items.mp he)
  unfold stateId
  by_cases hs : Valid sha s
  · rw [if_pos (hall.mpr hs), Except.ok.injEq, and_iff_right hs, eq_comm]
  · rw [if_neg (hall.not.mpr hs)]
    simp [hs]

theorem Valid.stateId_eq (h : Valid sha s) : stateId sha s = .ok (contentId sha s) :=
  stateId_eq_ok.mpr ⟨h, rfl⟩

/-! ### Reading states -/

theorem readEntry_eq_some :
    readEntry sha k v = some r ↔ readRecord v = some r ∧ Linked sha k r := by
  unfold readEntry
  cases readRecord v with
  | none => simp
  | some r' =>
    simp only [Option.some.injEq]
    by_cases h : recordIdentity sha r' = some k
    · rw [if_pos h, Option.some.injEq]
      rw [recordIdentity_eq_some] at h
      exact ⟨fun heq => ⟨heq, heq ▸ h⟩, fun h' => h'.1⟩
    · rw [if_neg h]
      rw [recordIdentity_eq_some] at h
      simp only [reduceCtorEq, false_iff, not_and]
      exact fun heq => heq ▸ h

/-- The members of a valid object: distinct keys, each with its linked record. -/
structure Entries (sha : Sha256) (l : List (Text × Record)) : Prop where
  nodup : (l.map Prod.fst).Nodup
  linked : ∀ e ∈ l, Linked sha e.1 e.2

theorem entries_of_read {l : List (Text × Record)} (h : readEntries sha v = some l) :
    Entries sha l := by
  obtain ⟨hnodup, hread⟩ := Value.readMembers_eq_some h
  refine ⟨hnodup, fun e he => ?_⟩
  obtain ⟨v, hv⟩ := hread e he
  exact (readEntry_eq_some.mp hv).2

theorem Entries.valid {l : List (Text × Record)} (h : Entries sha l) : Valid sha (Dict.ofList l) := by
  intro k r hr
  rw [Dict.lookup_ofList, Dict.lookup_eq_some_iff_mem h.nodup] at hr
  exact h.linked (k, r) hr

theorem Valid.entries (h : Valid sha s) : Entries sha s.items :=
  ⟨Dict.nodup_items s, fun e he => h e.1 e.2 (Dict.mem_items.mp he)⟩

theorem Valid.readEntries_stateValue (h : Valid sha s) :
    readEntries sha (stateValue s) = some s.items :=
  Value.readMembers_ofMembers (Dict.nodup_items s) fun e he =>
    readEntry_eq_some.mpr ⟨Node.readRecord_recordValue _, h.entries.linked e he⟩

theorem validateState_eq_ok : validateState sha v = .ok s ↔
    ∃ l, readEntries sha v = some l ∧ s = Dict.ofList l := by
  unfold validateState
  cases readEntries sha v with
  | none => simp
  | some l => simp [eq_comm]

theorem valid_of_validateState (h : validateState sha v = .ok s) : Valid sha s := by
  obtain ⟨l, hl, rfl⟩ := validateState_eq_ok.mp h
  exact (entries_of_read hl).valid

theorem Valid.validateState_stateValue (h : Valid sha s) :
    validateState sha (stateValue s) = .ok s :=
  validateState_eq_ok.mpr ⟨s.items, h.readEntries_stateValue, (Dict.ofList_items s).symm⟩

/-! ### The hashed text -/

/-- The separators of the hashed text occur in no part of the member. -/
structure Separable (e : Text × Record) : Prop where
  key : '\n' ∉ e.1
  digest : ∀ c ∈ e.2.digest, c ≠ '\n' ∧ c ≠ '|'
  snapshot : ∀ c ∈ e.2.snapshotFen, c ≠ '\n' ∧ c ≠ '|'
  variant : ∀ c ∈ e.2.variant, c ≠ '\n' ∧ c ≠ '|'

/-- A snapshot under its key, with any digest of the format. -/
theorem separable_of_snapshot {p : Fen.Position} (hp : Node.Snapshot r.variant r.snapshotFen p)
    (hdigest : digestFormat r.digest = true) :
    Separable (Node.key (Node.projection r.variant p), r) := by
  have hnewline : '\n' ∉ Node.alphabet := by decide
  have hbar : '|' ∉ Node.alphabet := by decide
  have hnewlineTag : '\n' ∉ PositionDigest.tag ++ Hex.digits := by decide
  have hbarTag : '|' ∉ PositionDigest.tag ++ Hex.digits := by decide
  have hpunctuation : '\n' ∉ [Node.quote, '(', ')', ',', ' '] := by decide
  have halphabet : ∀ c ∈ Node.alphabet, c ≠ '\n' ∧ c ≠ '|' := fun c hc =>
    ⟨ne_of_mem_of_not_mem hc hnewline, ne_of_mem_of_not_mem hc hbar⟩
  refine ⟨fun hc => ?_, fun c hc => ?_, fun c hc => ?_, fun c hc => ?_⟩
  · rcases Node.mem_key (Node.plain_projection hp.registered) hc with hc | hc
    · exact hnewline hc
    · exact hpunctuation hc
  · have htag := List.mem_append.mpr (Hex.mem_of_tagged hdigest hc)
    exact ⟨ne_of_mem_of_not_mem htag hnewlineTag, ne_of_mem_of_not_mem htag hbarTag⟩
  · rcases hp.mem_text hc with hc | rfl
    · exact halphabet c hc
    · decide
  · exact halphabet c (Node.mem_alphabet_variant hp.registered hc)

theorem separable_of_linked (h : Linked sha k r) : Separable (k, r) := by
  obtain ⟨p, hp, hdigest, rfl⟩ := h
  refine separable_of_snapshot hp ?_
  rw [hdigest]
  exact TranspositionNode.digestFormat_digest sha _

theorem splitOn_recordText {e : Text × Record} (h : Separable e) :
    (recordText e.2).splitOn '|' = ["digest=".toList ++ e.2.digest,
      "snapshot_fen=".toList ++ e.2.snapshotFen, "variant=".toList ++ e.2.variant] := by
  have hdigest : '|' ∉ "digest=".toList := by decide
  have hsnapshot : '|' ∉ "snapshot_fen=".toList := by decide
  have hvariant : '|' ∉ "variant=".toList := by decide
  refine List.splitOn_intercalate '|' (fun t ht => ?_) (by simp)
  simp only [List.mem_cons, List.not_mem_nil, or_false] at ht
  rcases ht with rfl | rfl | rfl
  · exact List.mem_append.not.mpr (not_or.mpr ⟨hdigest, fun hc => (h.digest _ hc).2 rfl⟩)
  · exact List.mem_append.not.mpr (not_or.mpr ⟨hsnapshot, fun hc => (h.snapshot _ hc).2 rfl⟩)
  · exact List.mem_append.not.mpr (not_or.mpr ⟨hvariant, fun hc => (h.variant _ hc).2 rfl⟩)

theorem recordText_injective {e e' : Text × Record} (h : Separable e) (h' : Separable e')
    (heq : recordText e.2 = recordText e'.2) : e.2 = e'.2 := by
  have hparts := congrArg (List.splitOn '|') heq
  rw [splitOn_recordText h, splitOn_recordText h'] at hparts
  simp only [List.cons.injEq, List.append_cancel_left_eq, and_true] at hparts
  obtain ⟨hdigest, hsnapshot, hvariant⟩ := hparts
  obtain ⟨k, v, d, t⟩ := e
  obtain ⟨k', v', d', t'⟩ := e'
  exact Record.mk.injEq .. ▸ ⟨hvariant, hdigest, hsnapshot⟩

theorem newline_not_mem_recordText {e : Text × Record} (h : Separable e) :
    '\n' ∉ recordText e.2 := by
  have hdigest : '\n' ∉ "digest=".toList := by decide
  have hsnapshot : '\n' ∉ "snapshot_fen=".toList := by decide
  have hvariant : '\n' ∉ "variant=".toList := by decide
  intro hc
  rcases Separated.mem_intercalate hc with hc | ⟨t, ht, hc⟩
  · exact absurd hc (by decide)
  simp only [List.mem_cons, List.not_mem_nil, or_false] at ht
  rcases ht with rfl | rfl | rfl
  · exact (List.mem_append.mp hc).elim hdigest fun hc => (h.digest _ hc).1 rfl
  · exact (List.mem_append.mp hc).elim hsnapshot fun hc => (h.snapshot _ hc).1 rfl
  · exact (List.mem_append.mp hc).elim hvariant fun hc => (h.variant _ hc).1 rfl

def lines (l : List (Text × Record)) : List Text := l.flatMap fun e => [e.1, recordText e.2]

theorem stateText_eq (s : State) : stateText s = (lines s.items).flatMap fun t => t ++ ['\n'] := by
  rw [stateText, lines, List.flatMap_assoc]
  refine List.flatMap_congr fun e _ => ?_
  simp

theorem lines_injective {l l' : List (Text × Record)} (hl : ∀ e ∈ l, Separable e)
    (hl' : ∀ e ∈ l', Separable e) (h : lines l = lines l') : l = l' := by
  induction l generalizing l' with
  | nil =>
    cases l' with
    | nil => rfl
    | cons e' l' => cases h
  | cons e l ih =>
    cases l' with
    | nil => cases h
    | cons e' l' =>
      obtain ⟨he, hl⟩ := List.forall_mem_cons.mp hl
      obtain ⟨he', hl'⟩ := List.forall_mem_cons.mp hl'
      simp only [lines, List.flatMap_cons, List.cons_append, List.nil_append,
        List.cons.injEq] at h
      obtain ⟨hkey, hrecord, hrest⟩ := h
      rw [Prod.ext hkey (recordText_injective he he' hrecord), ih hl hl' hrest]

theorem splitOn_stateText (hs : ∀ e ∈ s.items, Separable e) :
    (stateText s).splitOn '\n' = lines s.items ++ [[]] := by
  rw [stateText_eq]
  refine Separated.splitOn_terminated fun l hl => ?_
  obtain ⟨e, he, hl⟩ := List.mem_flatMap.mp hl
  simp only [List.mem_cons, List.not_mem_nil, or_false] at hl
  rcases hl with rfl | rfl
  · exact (hs e he).key
  · exact newline_not_mem_recordText (hs e he)

/-- The hashed text determines the state. -/
theorem stateText_injective (hs : ∀ e ∈ s.items, Separable e) (ht : ∀ e ∈ t.items, Separable e)
    (h : stateText s = stateText t) : s = t := by
  have hlines : lines s.items ++ [[]] = lines t.items ++ [[]] := by
    rw [← splitOn_stateText hs, ← splitOn_stateText ht, h]
  exact Dict.items_injective (lines_injective hs ht (List.append_cancel_right hlines))

theorem Valid.stateText_injective (hs : Valid sha s) (ht : Valid sha t)
    (h : stateText s = stateText t) : s = t :=
  Diff.stateText_injective (fun e he => separable_of_linked (hs.entries.linked e he))
    (fun e he => separable_of_linked (ht.entries.linked e he)) h

end Diff
end OpenChess
