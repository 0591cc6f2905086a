import OpenChess.Agreement.Node
import OpenChess.Chess.Value

/-!
# Snapshots and identity keys

A snapshot is a text that `make_record` gives back unchanged. Its position is
determined by the five fields of its projection, and the maps of the graph and of
the store are keyed by the `repr` of these fields.
-/

namespace OpenChess
namespace Node

open Fen PositionDigest
open Agreement (LintAccepts resetClocks)
open TranspositionNode (Record)

/-! ### Record objects -/

/-- `record.fields` of the transposition-node contract. -/
def recordFields : List Text := ["variant".toList, "digest".toList, "snapshot_fen".toList]

/-- The three declared fields and no others, each an exact string. -/
def readRecord (v : Value) : Option Record :=
  match v.fields? recordFields with
  | some [.str variant, .str digest, .str snapshot] => some ⟨variant, digest, snapshot⟩
  | _ => none

def recordValue (r : Record) : Value :=
  .object recordFields [.str r.variant, .str r.digest, .str r.snapshotFen]

@[simp] theorem readRecord_recordValue (r : Record) : readRecord (recordValue r) = some r := by
  have hnodup : recordFields.Nodup := by decide
  rw [readRecord, recordValue, Value.fields?_object hnodup rfl]

/-! ### Keys -/

/-- The quotation mark of `repr`. -/
def quote : Char := Char.ofNat 39

/-- `repr` of a text of printable ASCII without quotes and backslashes. -/
def reprText (t : Text) : Text := quote :: (t ++ [quote])

/-- `repr` of a tuple of at least two such texts. -/
def reprTuple (ts : List Text) : Text :=
  '(' :: ([',', ' '].intercalate (ts.map reprText) ++ [')'])

/-- `tuple(projection.values())`. -/
def values (q : VariantRuntime.Position) : List Text :=
  [q.variant, q.board, q.sideToMove, q.castlingRights, q.enPassant]

/-- `repr(tuple(projection.values()))`. -/
def key (q : VariantRuntime.Position) : Text := reprTuple (values q)

/-- `record_identity`; `none` where it raises. -/
def recordIdentity (sha : Sha256) (r : Record) : Option Text :=
  match makeRecord sha (.str r.variant) (.str r.snapshotFen) with
  | .error _ => none
  | .ok expected =>
    if r ≠ expected then none
    else
      match VariantRuntime.parsePosition (.str r.variant) (.str r.snapshotFen) with
      | .error _ => none
      | .ok position =>
        match VariantRuntime.identity position with
        | .error _ => none
        | .ok projection => some (key projection)

variable {p p' : Position} {q q' : VariantRuntime.Position} {v v' t t' : Text} {sha : Sha256}
  {r : Record} {c : Char}

/-! ### The characters of a position -/

/-- The characters of the variant ids and of the four fields of a position. -/
def alphabet : List Char :=
  ['-', '/', '0', '1', '2', '3', '4', '5', '6', '7', '8', '9', 'B', 'K', 'N', 'P', 'Q', 'R', 'a',
    'b', 'c', 'd', 'e', 'f', 'g', 'h', 'k', 'n', 'p', 'q', 'r', 's', 't', 'w']

theorem mem_alphabet_placement (b : Placement) (h : c ∈ emitPlacement b) : c ∈ alphabet := by
  rw [emitPlacement_eq] at h
  rcases Separated.mem_intercalate h with rfl | ⟨l, hl, hc⟩
  · decide
  obtain ⟨row, hrow, rfl⟩ := List.mem_map.mp hl
  by_contra hnot
  have hrun : runOf? c = none := by
    rw [Option.eq_none_iff_forall_ne_some]
    intro n hn
    obtain ⟨hpos, hle, htext⟩ := runOf?_eq_some.mp hn
    rw [Nat.toDigits_of_lt_base (by omega)] at htext
    obtain ⟨rfl, -⟩ := List.cons.inj htext
    interval_cases n <;> exact hnot (by decide)
  have hitem : pieceOf? c = none := by
    rw [Option.eq_none_iff_forall_ne_some]
    intro piece hpiece
    obtain ⟨color, kind⟩ := piece
    rw [← pieceOf?_eq_some.mp hpiece] at hnot
    cases color <;> cases kind <;> exact hnot (by decide)
  exact not_mem_rank (length_of_mem_rowsOf row hrow) hrun hitem hc

theorem mem_alphabet_rights (rights : List Right) (h : c ∈ emitRights rights) :
    c ∈ alphabet := by
  unfold emitRights at h
  split_ifs at h
  · rw [List.mem_singleton.mp h]
    decide
  · obtain ⟨right, -, rfl⟩ := List.mem_map.mp h
    cases right <;> decide

theorem mem_alphabet_ep (ep : Option Square) (h : c ∈ emitEp ep) : c ∈ alphabet := by
  have hfile : ∀ f : Fin 8, fileChar f ∈ alphabet := by decide
  have hrank : ∀ r : Fin 8, rankChar r ∈ alphabet := by decide
  cases ep with
  | none =>
    rw [List.mem_singleton.mp h]
    decide
  | some s =>
    simp only [emitEp, Square.name, List.mem_cons, List.not_mem_nil, or_false] at h
    rcases h with rfl | rfl
    · exact hfile s.file
    · exact hrank s.rank

def Plain (q : VariantRuntime.Position) : Prop := ∀ t ∈ values q, ∀ c ∈ t, c ∈ alphabet

def projection (v : Text) (p : Position) : VariantRuntime.Position :=
  ⟨v, emitPlacement p.board, [p.color.letter], emitRights p.rights, emitEp p.ep⟩

theorem mem_alphabet_variant (hv : v ∈ variantIds) (h : c ∈ v) : c ∈ alphabet := by
  obtain rfl := List.mem_singleton.mp hv
  have hall : ("standard".toList.all fun c => alphabet.contains c) = true := by decide
  simpa using List.all_eq_true.mp hall c h

theorem plain_projection (hv : v ∈ variantIds) : Plain (projection v p) := by
  intro t ht c hc
  simp only [values, projection, List.mem_cons, List.not_mem_nil, or_false] at ht
  rcases ht with rfl | rfl | rfl | rfl | rfl
  · exact mem_alphabet_variant hv hc
  · exact mem_alphabet_placement _ hc
  · rw [List.mem_singleton.mp hc]
    cases p.color <;> decide
  · exact mem_alphabet_rights _ hc
  · exact mem_alphabet_ep _ hc

/-- The parts of a key between its quotation marks. -/
def keyParts (q : VariantRuntime.Position) : List Text :=
  [['('], q.variant, [',', ' '], q.board, [',', ' '], q.sideToMove, [',', ' '], q.castlingRights,
    [',', ' '], q.enPassant, [')']]

theorem key_eq (q : VariantRuntime.Position) : key q = [quote].intercalate (keyParts q) := by
  simp [key, reprTuple, reprText, values, keyParts]

theorem splitOn_key (h : Plain q) : (key q).splitOn quote = keyParts q := by
  have hquote : quote ∉ alphabet := by decide
  rw [key_eq]
  refine List.splitOn_intercalate quote (fun t ht hmem => ?_) (by simp [keyParts])
  have hplain : ∀ t ∈ values q, quote ∉ t := fun t ht hc => hquote (h t ht quote hc)
  simp only [values, List.forall_mem_cons, List.not_mem_nil, false_imp_iff, imp_true_iff,
    and_true] at hplain
  simp only [keyParts, List.mem_cons, List.not_mem_nil, or_false] at ht
  rcases ht with rfl | rfl | rfl | rfl | rfl | rfl | rfl | rfl | rfl | rfl | rfl
  · exact absurd hmem (by decide)
  · exact hplain.1 hmem
  · exact absurd hmem (by decide)
  · exact hplain.2.1 hmem
  · exact absurd hmem (by decide)
  · exact hplain.2.2.1 hmem
  · exact absurd hmem (by decide)
  · exact hplain.2.2.2.1 hmem
  · exact absurd hmem (by decide)
  · exact hplain.2.2.2.2 hmem
  · exact absurd hmem (by decide)

theorem mem_key (h : Plain q) (hc : c ∈ key q) :
    c ∈ alphabet ∨ c ∈ [quote, '(', ')', ',', ' '] := by
  rw [key_eq] at hc
  rcases Separated.mem_intercalate hc with rfl | ⟨t, ht, hc⟩
  · exact .inr List.mem_cons_self
  have hplain : ∀ t ∈ values q, c ∈ t → c ∈ alphabet := fun t ht => h t ht c
  simp only [values, List.forall_mem_cons, List.not_mem_nil, false_imp_iff, imp_true_iff,
    and_true] at hplain
  simp only [keyParts, List.mem_cons, List.not_mem_nil, or_false] at ht
  rcases ht with rfl | rfl | rfl | rfl | rfl | rfl | rfl | rfl | rfl | rfl | rfl
  · exact .inr (by simp_all)
  · exact .inl (hplain.1 hc)
  · exact .inr (by simp_all)
  · exact .inl (hplain.2.1 hc)
  · exact .inr (by simp_all)
  · exact .inl (hplain.2.2.1 hc)
  · exact .inr (by simp_all)
  · exact .inl (hplain.2.2.2.1 hc)
  · exact .inr (by simp_all)
  · exact .inl (hplain.2.2.2.2 hc)
  · exact .inr (by simp_all)

/-- A key determines the projection. -/
theorem key_injective (hq : Plain q) (hq' : Plain q') (h : key q = key q') : q = q' := by
  have hparts : keyParts q = keyParts q' := by rw [← splitOn_key hq, ← splitOn_key hq', h]
  obtain ⟨v, b, s, r, e⟩ := q
  obtain ⟨v', b', s', r', e'⟩ := q'
  simp only [keyParts, List.cons.injEq, true_and, and_true] at hparts
  obtain ⟨rfl, rfl, rfl, rfl, rfl⟩ := hparts
  rfl

/-! ### Snapshots -/

structure Snapshot (v t : Text) (p : Position) : Prop where
  registered : v ∈ variantIds
  accepted : Accepted p
  lint : LintAccepts p
  half : p.half = 0
  full : p.full = 1
  text : t = fenText p

theorem Snapshot.reset (h : Snapshot v t p) : resetClocks p = p := by
  obtain ⟨board, color, rights, ep, half, full⟩ := p
  obtain rfl : half = 0 := h.half
  obtain rfl : full = 1 := h.full
  rfl

theorem Snapshot.parse (h : Snapshot v t p) :
    VariantRuntime.parsePosition (.str v) (.str t) = .ok (projection v p) := by
  unfold VariantRuntime.parsePosition
  rw [Agreement.checkedVariant_of_mem h.registered]
  simp only [VariantRuntime.checkedFen]
  rw [h.text, (Agreement.checkFen_iff h.accepted).mpr h.lint]
  simp only [Agreement.splitPosition_fenText, projection]

theorem Snapshot.projection_text (h : Snapshot v t p) : (projection v p).text = t := by
  rw [h.text, ← h.reset, fenText, Agreement.fieldsOf_resetClocks]
  rfl

theorem Snapshot.mem_text (h : Snapshot v t p) (hc : c ∈ t) : c ∈ alphabet ∨ c = ' ' := by
  rw [← h.projection_text] at hc
  have hplain : ∀ t ∈ values (projection v p), c ∈ t → c ∈ alphabet :=
    fun t ht => plain_projection h.registered t ht c
  simp only [values, List.forall_mem_cons, List.not_mem_nil, false_imp_iff, imp_true_iff,
    and_true] at hplain
  rcases Separated.mem_intercalate hc with rfl | ⟨l, hl, hc⟩
  · exact .inr rfl
  simp only [List.mem_cons, List.not_mem_nil, or_false] at hl
  rcases hl with rfl | rfl | rfl | rfl | rfl | rfl
  · exact .inl (hplain.2.1 hc)
  · exact .inl (hplain.2.2.1 hc)
  · exact .inl (hplain.2.2.2.1 hc)
  · exact .inl (hplain.2.2.2.2 hc)
  · rw [List.mem_singleton.mp hc]
    exact .inl (by decide)
  · rw [List.mem_singleton.mp hc]
    exact .inl (by decide)

theorem Snapshot.identity (h : Snapshot v t p) :
    VariantRuntime.identity (projection v p) = .ok (projection v p) := by
  have hvariant : VariantRuntime.checkedVariant (.str (projection v p).variant) =
      .ok ⟨v, .orthodox⟩ := Agreement.checkedVariant_of_mem h.registered
  unfold VariantRuntime.identity
  rw [hvariant]
  simp only [VariantRuntime.checkedFen]
  rw [h.projection_text, h.text, (Agreement.checkFen_iff h.accepted).mpr h.lint]

theorem Snapshot.digestFen (h : Snapshot v t p) :
    digestFen sha (.str v) (.str t) = .ok (digest sha (encoding v p)) := by
  rw [h.text]
  exact digestFen_fenText sha h.accepted h.registered

/-- `make_record` gives the snapshot back. -/
theorem Snapshot.makeRecord (h : Snapshot v t p) :
    makeRecord sha (.str v) (.str t) = .ok ⟨v, digest sha (encoding v p), t⟩ := by
  rw [h.text, Agreement.makeRecord_fenText h.accepted h.registered]
  exact ⟨h.lint, by rw [h.reset]⟩

theorem Snapshot.recordIdentity (h : Snapshot v t p) :
    recordIdentity sha ⟨v, digest sha (encoding v p), t⟩ = some (key (projection v p)) := by
  unfold Node.recordIdentity
  rw [h.makeRecord]
  simp only [ne_eq, not_true_eq_false, if_false]
  rw [h.parse]
  simp only [h.identity]

/-- What `make_record` returns carries a snapshot. -/
theorem snapshot_of_makeRecord {variant fen : Scalar} (h : makeRecord sha variant fen = .ok r) :
    variant = .str r.variant ∧ ∃ p, Snapshot r.variant r.snapshotFen p ∧
      r.digest = digest sha (encoding r.variant p) := by
  obtain ⟨v, p, rfl, hv, rfl, hp⟩ := Agreement.accepted_of_makeRecord h
  obtain ⟨hlint, rfl⟩ := (Agreement.makeRecord_fenText hp hv).mp h
  exact ⟨rfl, resetClocks p, ⟨hv, Agreement.accepted_resetClocks hp,
    Agreement.lintAccepts_resetClocks hlint, rfl, rfl, rfl⟩, rfl⟩

/-- A text the variant runtime and the digest runtime accept, whose clocks are
`0 1`, is a snapshot. -/
theorem snapshot_of_parse {position : VariantRuntime.Position} {d board side castling ep : Text}
    (hparse : VariantRuntime.parsePosition (.str v) (.str t) = .ok position)
    (hdigest : PositionDigest.digestFen sha (.str v) (.str t) = .ok d)
    (hsplit : t.splitOn ' ' = [board, side, castling, ep, ['0'], ['1']]) :
    ∃ p, Snapshot v t p := by
  have hzero : Nat.toDigits 10 0 = ['0'] := by decide
  have hone : Nat.toDigits 10 1 = ['1'] := by decide
  obtain ⟨p, hp, rfl⟩ := accepted_of_digestFen hdigest
  rw [fenText, splitOn_fields] at hsplit
  simp only [fieldsOf, List.cons.injEq, and_true] at hsplit
  obtain ⟨-, -, -, -, hhalf, hfull⟩ := hsplit
  unfold VariantRuntime.parsePosition at hparse
  cases hvariant : VariantRuntime.checkedVariant (.str v) with
  | error e =>
    rw [hvariant] at hparse
    cases hparse
  | ok entry =>
    obtain ⟨hid, hv, hkind⟩ := Agreement.mem_of_checkedVariant hvariant
    rw [hvariant] at hparse
    simp only [VariantRuntime.checkedFen, hkind] at hparse
    cases hcheck : VariantContractLint.checkFen (.str (fenText p)) .orthodox with
    | error cls =>
      rw [hcheck] at hparse
      cases hparse
    | ok u =>
      refine ⟨p, ?_, hp, (Agreement.checkFen_iff hp).mp hcheck,
        Separated.toDigits_injective (hhalf.trans hzero.symm),
        Separated.toDigits_injective (hfull.trans hone.symm), rfl⟩
      rwa [Scalar.str.inj hid]

theorem Snapshot.eq_of_key (h : Snapshot v t p) (h' : Snapshot v' t' p')
    (hkey : key (projection v p) = key (projection v' p')) : v = v' ∧ p = p' := by
  have hprojection := key_injective (plain_projection h.registered)
    (plain_projection h'.registered) hkey
  have htext : t = t' := by rw [← h.projection_text, hprojection, h'.projection_text]
  rw [h.text, h'.text] at htext
  exact ⟨congrArg VariantRuntime.Position.variant hprojection,
    Agreement.fenText_injective h.accepted h'.accepted htext⟩

/-- `make_record` gives back exactly the snapshots. -/
theorem makeRecord_snapshot_iff {variant fen : Text} :
    (∃ r, makeRecord sha (.str variant) (.str fen) = .ok r ∧ r.snapshotFen = fen) ↔
      ∃ p, Snapshot variant fen p := by
  constructor
  · intro h
    obtain ⟨r, hmake, rfl⟩ := h
    obtain ⟨hvariant, p, hp, -⟩ := snapshot_of_makeRecord hmake
    rw [Scalar.str.inj hvariant]
    exact ⟨p, hp⟩
  · intro h
    obtain ⟨p, hp⟩ := h
    exact ⟨_, hp.makeRecord, rfl⟩

/-- The snapshot of the bare kings, the mover given. -/
theorem snapshot_bareKings (color : Color) : Snapshot "standard".toList
    (fenText (TranspositionNode.bareKings color 1)) (TranspositionNode.bareKings color 1) := by
  have hone : (Nat.toDigits 10 1).length ≤ intMaxStrDigits := by decide
  have haccepted : Accepted (TranspositionNode.bareKings color 1) :=
    TranspositionNode.accepted_bareKings (le_refl 1) hone
  have hlint : VariantContractLint.checkFen
      (.str (fenText (TranspositionNode.bareKings color 1))) .orthodox = .ok () := by
    cases color <;> decide +kernel
  exact ⟨by decide, haccepted, (Agreement.checkFen_iff haccepted).mp hlint, rfl, rfl, rfl⟩

/-! ### Linked records -/

/-- The record is the one `make_record` makes of its own snapshot, and the key is
that of its position. -/
def Linked (sha : Sha256) (k : Text) (r : Record) : Prop :=
  ∃ p, Snapshot r.variant r.snapshotFen p ∧ r.digest = digest sha (encoding r.variant p) ∧
    k = key (projection r.variant p)

/-- The record of the bare kings, the mover given. -/
def bareRecord (sha : Sha256) (color : Color) : Record :=
  ⟨"standard".toList, digest sha (encoding "standard".toList
    (TranspositionNode.bareKings color 1)), fenText (TranspositionNode.bareKings color 1)⟩

def bareKey (color : Color) : Text :=
  key (projection "standard".toList (TranspositionNode.bareKings color 1))

theorem linked_bareRecord (sha : Sha256) (color : Color) :
    Linked sha (bareKey color) (bareRecord sha color) :=
  ⟨TranspositionNode.bareKings color 1, snapshot_bareKings color, rfl, rfl⟩

/-- No two records are linked to one key. -/
theorem Linked.unique {k : Text} {r' : Record} (h : Linked sha k r) (h' : Linked sha k r') :
    r = r' := by
  obtain ⟨p, hp, hdigest, hkey⟩ := h
  obtain ⟨p', hp', hdigest', hkey'⟩ := h'
  obtain ⟨hvariant, rfl⟩ := hp.eq_of_key hp' (hkey.symm.trans hkey')
  obtain ⟨v, d, t⟩ := r
  obtain ⟨v', d', t'⟩ := r'
  obtain rfl : v = v' := hvariant
  obtain rfl : t = t' := hp.text.trans hp'.text.symm
  rw [Record.mk.injEq]
  exact ⟨rfl, hdigest.trans hdigest'.symm, rfl⟩

theorem recordIdentity_eq_some {k : Text} : recordIdentity sha r = some k ↔ Linked sha k r := by
  constructor
  · intro h
    unfold recordIdentity at h
    split at h
    · cases h
    · rename_i expected hmake
      split_ifs at h with hsame
      rw [not_not] at hsame
      subst hsame
      obtain ⟨-, p, hp, hdigest⟩ := snapshot_of_makeRecord hmake
      rw [hp.parse] at h
      simp only [hp.identity] at h
      exact ⟨p, hp, hdigest, (Option.some.inj h).symm⟩
  · intro h
    obtain ⟨p, hp, hdigest, rfl⟩ := h
    obtain ⟨v, d, t⟩ := r
    obtain rfl : d = digest sha (encoding v p) := hdigest
    exact hp.recordIdentity

end Node
end OpenChess
