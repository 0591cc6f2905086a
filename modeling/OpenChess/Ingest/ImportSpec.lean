import OpenChess.Ingest.Import
import OpenChess.Ingest.ImportInvariant

/-!
# What one game does to the store

Until its last rename the commit of a game leaves the index as it was, and from then on
the store holds the index with the entry of the game assigned. The record of a game
with the same content makes it a duplicate.
-/

namespace OpenChess
namespace ImportPgn

open LineText
open Pgn
open PositionDigest (Sha256)

variable {sha : Sha256} {s : Session} {g g' : ParsedGame} {d d' : Disk} {index : Index} {text : Text}
  {e : Text × Text} {p q : Path} {gid rec D : Text} {v : Value} {ops : List Op}

/-! ### Names of records -/

theorem isRecordName_recordFilename (hgid : Hex.isHex 16 gid = true)
    (hD : Hex.isHex 16 (D.take 16) = true) : recordNameRe (recordFilename gid D) = true := by
  have hgl : gid.length = 16 := by
    simp only [Hex.isHex, Bool.and_eq_true, beq_iff_eq] at hgid
    exact hgid.1
  have hDl : (D.take 16).length = 16 := by
    simp only [Hex.isHex, Bool.and_eq_true, beq_iff_eq] at hD
    exact hD.1
  have hform : recordFilename gid D = gid ++ ("--".toList ++ (D.take 16 ++ ".json".toList)) := by
    simp [recordFilename]
  have h16 : (recordFilename gid D).take 16 = gid := by
    rw [hform, ← hgl, List.take_left]
  have hd16 : (recordFilename gid D).drop 16 = "--".toList ++ (D.take 16 ++ ".json".toList) := by
    rw [hform, ← hgl, List.drop_left]
  have hd18 : (recordFilename gid D).drop 18 = D.take 16 ++ ".json".toList := by
    have hsplit : (recordFilename gid D).drop 18 = ((recordFilename gid D).drop 16).drop 2 := by
      rw [List.drop_drop]
    rw [hsplit, hd16]
    rfl
  have hd34 : (recordFilename gid D).drop 34 = ".json".toList := by
    have hsplit : (recordFilename gid D).drop 34 = ((recordFilename gid D).drop 18).drop 16 := by
      rw [List.drop_drop]
    rw [hsplit, hd18, List.drop_append_of_le_length (by omega), List.drop_of_length_le (by omega),
      List.nil_append]
  have htake : (D.take 16 ++ ".json".toList).take 16 = D.take 16 := by
    rw [List.take_append_of_le_length (by omega), List.take_take, Nat.min_self]
  have hdash : ("--".toList ++ (D.take 16 ++ ".json".toList)).take 2 = "--".toList := rfl
  simp only [recordNameRe, anchored, h16, hd16, hd18, hd34, htake, hdash, hgid, hD, BEq.rfl,
    Bool.and_true, Bool.true_or]

theorem named_recordFilename (hgid : Hex.isHex 16 gid = true)
    (hD : Hex.isHex 16 (D.take 16) = true) : Named (gid, recordFilename gid D) where
  gid := by simp [gameIdRe, anchored, hgid]
  record := isRecordName_recordFilename hgid hD
  agree := by rw [splitDashes_recordFilename hgid]

theorem recordName_parts (h : recordNameRe rec = true) :
    ∃ a b tail : Text, Hex.isHex 16 a = true ∧ Hex.isHex 16 b = true ∧
      (tail = [] ∨ tail = ['\n']) ∧ rec = a ++ '-' :: '-' :: (b ++ ".json".toList ++ tail) := by
  have hparts : ∀ t : Text, (Hex.isHex 16 (t.take 16) && (t.drop 16).take 2 == "--".toList &&
      Hex.isHex 16 ((t.drop 18).take 16) && t.drop 34 == ".json".toList) = true →
      ∃ a b, Hex.isHex 16 a = true ∧ Hex.isHex 16 b = true ∧
        t = a ++ '-' :: '-' :: (b ++ ".json".toList) := by
    intro t ht
    simp only [Bool.and_eq_true, beq_iff_eq] at ht
    obtain ⟨⟨⟨ha, hdash⟩, hb⟩, hend⟩ := ht
    refine ⟨t.take 16, (t.drop 18).take 16, ha, hb, ?_⟩
    have h34 : (t.drop 18).drop 16 = ".json".toList := by rw [List.drop_drop, hend]
    have h18 : (t.drop 16).drop 2 = t.drop 18 := by rw [List.drop_drop]
    calc
      t = t.take 16 ++ t.drop 16 := (List.take_append_drop 16 t).symm
      _ = t.take 16 ++ ("--".toList ++ t.drop 18) := by
        rw [← hdash, ← h18, List.take_append_drop 2]
      _ = t.take 16 ++ ("--".toList ++ ((t.drop 18).take 16 ++ ".json".toList)) := by
        rw [← h34, List.take_append_drop 16 (t.drop 18)]
      _ = _ := rfl
  simp only [recordNameRe, anchored, Bool.or_eq_true] at h
  rcases h with h | h
  · obtain ⟨a, b, ha, hb, hrec⟩ := hparts rec (by simpa using h)
    exact ⟨a, b, [], ha, hb, .inl rfl, by simpa using hrec⟩
  · obtain ⟨hnewline, h⟩ := Bool.and_eq_true_iff.mp h
    obtain ⟨a, b, ha, hb, hrec⟩ := hparts rec.dropLast h
    have hsplit := List.dropLast_append_getLast? '\n' (by simpa using hnewline)
    refine ⟨a, b, ['\n'], ha, hb, .inr rfl, ?_⟩
    rw [← hsplit, hrec]
    simp

theorem eq_recordFilename (h : Named (gid, rec)) (hD : D.take 16 = embeddedHash rec) :
    rec = recordFilename gid D := by
  obtain ⟨a, b, tail, ha, hb, htail, rfl⟩ := recordName_parts h.record
  have hsplit := splitDashes_append (b := b ++ ".json".toList ++ tail) (dash_notMem_of_isHex ha)
  have hgid : a = gid := by
    have hagree := h.agree
    rwa [hsplit] at hagree
  have hblen : b.length = 16 := by
    simp only [Hex.isHex, Bool.and_eq_true, beq_iff_eq] at hb
    exact hb.1
  rw [embeddedHash, hsplit] at hD
  rcases htail with rfl | rfl
  · have hhash : D.take 16 = b := by simpa using hD
    simp [recordFilename, hhash, hgid]
  · -- the newline pushes a character of the suffix into the hash
    have hlen := congrArg List.length hD
    simp only [List.length_take, List.length_append, hblen] at hlen
    simp at hlen
    omega

/-! ### Commits -/

theorem eq_of_agree {e' : Text × Text} (h : Named e) (h' : Named e') (heq : e'.2 = e.2) : e' = e :=
  Prod.ext (by rw [← h'.agree, ← h.agree, heq]) heq

theorem Holds.write_record (h : Holds sha d index) (hnamed : Named e)
    (hvalid : validateRecord sha v e.1 e.2 = .ok ())
    (hread : d'.read (recordPath e.2) = some (.json v))
    (hframe : ∀ q, q ≠ recordPath e.2 → q ≠ tmp (recordPath e.2) → d'.read q = d.read q) :
    Holds sha d' index ∧ Stored sha d' e := by
  have hnew : Stored sha d' e := ⟨v, hread, hvalid⟩
  refine ⟨⟨?_, h.distinct, h.named, fun e' he' => ?_⟩, hnew⟩
  · have hne : indexPath ≠ recordPath e.2 := fun heq => by cases congrArg Path.folder heq
    rw [hframe _ hne indexPath_ne_tmp]
    exact h.manifest
  · have hnamed' := h.named e' he'
    by_cases heq : e'.2 = e.2
    · rwa [eq_of_agree hnamed hnamed' heq]
    · refine (h.stored e' he').congr (hframe _ (fun hp => heq (congrArg Path.name hp)) ?_)
      exact recordPath_ne_tmp hnamed'.record

theorem Holds.write_index (h : Holds sha d index) (hnamed : Named e) (hstored : Stored sha d e)
    (hread : d'.read indexPath = some (.json (indexValue (Assoc.assign index e.1 e.2))))
    (hframe : ∀ q, q ≠ indexPath → q ≠ tmp indexPath → d'.read q = d.read q) :
    Holds sha d' (Assoc.assign index e.1 e.2) := by
  have hrecord : ∀ rec, recordNameRe rec = true → d'.read (recordPath rec) = d.read (recordPath rec) := by
    intro rec hrec
    exact hframe _ (fun heq => by cases congrArg Path.folder heq) (recordPath_ne_tmp hrec)
  refine ⟨.inl hread, Assoc.nodup_assign h.distinct, fun e' he' => ?_, fun e' he' => ?_⟩
  · rcases (Assoc.mem_assign h.distinct).mp he' with rfl | ⟨he', -⟩
    · exact hnamed
    · exact h.named e' he'
  · rcases (Assoc.mem_assign h.distinct).mp he' with rfl | ⟨he', -⟩
    · exact hstored.congr (hrecord _ hnamed.record)
    · exact (h.stored e' he').congr (hrecord _ (h.named e' he').record)

theorem Holds.of_tmp (h : Holds sha d index) (hframe : ∀ q ≠ tmp p, d'.read q = d.read q) :
    Holds sha d' index :=
  h.congr (hframe _ indexPath_ne_tmp) fun e he => hframe _ (recordPath_ne_tmp (h.named e he).record)

/-- The commit of a record: before the rename of the manifest the store holds the old
index, and after it the new one. -/
theorem commit_spec (h : Holds sha d index) (hnamed : Named e)
    (hvalid : validateRecord sha v e.1 e.2 = .ok ()) :
    Trace.Throughout Disk.exec
      (fun d' => Holds sha d' index ∨ Holds sha d' (Assoc.assign index e.1 e.2)) d
      (commitGame e.2 v (Assoc.assign index e.1 e.2)) ∧
    Holds sha (d.execAll (commitGame e.2 v (Assoc.assign index e.1 e.2)))
      (Assoc.assign index e.1 e.2) ∧
    (d.execAll (commitGame e.2 v (Assoc.assign index e.1 e.2))).read (recordPath e.2) =
      some (.json v) ∧
    ∀ q, q ≠ indexPath → q ≠ recordPath e.2 → (∀ p, q ≠ tmp p) →
      (d.execAll (commitGame e.2 v (Assoc.assign index e.1 e.2))).read q = d.read q := by
  obtain ⟨hread, hframe⟩ := read_atomicWrite (d := d) (p := recordPath e.2) (v := v)
  obtain ⟨hmid, hstored⟩ := h.write_record hnamed hvalid hread hframe
  have hrun : d.execAll (commitGame e.2 v (Assoc.assign index e.1 e.2)) =
      (d.execAll (atomicWrite (recordPath e.2) v)).execAll
        (atomicWrite indexPath (indexValue (Assoc.assign index e.1 e.2))) := Trace.run_append _ _
  obtain ⟨hread', hframe'⟩ := read_atomicWrite (d := d.execAll (atomicWrite (recordPath e.2) v))
    (p := indexPath) (v := indexValue (Assoc.assign index e.1 e.2))
  have hne : recordPath e.2 ≠ indexPath := fun heq => by cases congrArg Path.folder heq
  refine ⟨Trace.throughout_append.mpr ⟨?_, ?_⟩, ?_, ?_, ?_⟩
  · exact throughout_atomicWrite (fun d' hd' => .inl (h.of_tmp hd')) fun d' hd' hd'' =>
      .inl (h.write_record hnamed hvalid hd' hd'').1
  · exact throughout_atomicWrite (fun d' hd' => .inl (hmid.of_tmp hd')) fun d' hd' hd'' =>
      .inr (hmid.write_index hnamed hstored hd' hd'')
  · rw [hrun]
    exact hmid.write_index hnamed hstored hread' hframe'
  · rw [hrun, hframe' _ hne (recordPath_ne_tmp hnamed.record), hread]
  · intro q hindex hrecord htmp
    rw [hrun, hframe' q hindex (htmp _), hframe q hrecord (htmp _)]

/-! ### The digest of a stored record -/

theorem bind_eq_ok {E A B : Type} {a : Except E A} {f : A → Except E B} {x : B} :
    (a >>= f) = .ok x ↔ ∃ y, a = .ok y ∧ f y = .ok x := by
  cases a <;> simp [bind, Except.bind]

theorem digest_of_validateContent {source detail movetext : Text} {tags : Tags} {dv : Value}
    (h : validateContent sha source gid rec detail dv tags movetext = .ok ()) :
    ∃ D, dv.text? = some D ∧ D.take 16 = embeddedHash rec := by
  unfold validateContent at h
  split at h
  · cases h
  · simp only [refuseIf_bind_eq_ok, refuseIf_eq_ok] at h
    obtain ⟨-, -, -, -, hdigest, haddress⟩ := h
    exact ⟨_, not_not.mp hdigest, not_not.mp haddress⟩

theorem digest_of_validateRecord (h : validateRecord sha v gid rec = .ok ()) :
    ∃ D, contentDigest v = some D ∧ D.take 16 = embeddedHash rec := by
  unfold validateRecord at h
  split at h
  · next gameId sourceId provenance dv variant tags movetext importedAt hread =>
    simp only [bind_eq_ok] at h
    obtain ⟨-, -, source, -, detail, -, -, -, tags, -, movetext, -, -, -, h⟩ := h
    obtain ⟨D, hD, haddress⟩ := digest_of_validateContent h
    obtain rfl := Value.text?_eq_some.mp hD
    rw [eq_object_of_ordered? hread]
    exact ⟨D, rfl, haddress⟩
  · cases h

theorem contentDigest_recordValue : contentDigest (recordValue sha s g) = some (digest sha s g) := rfl

/-! ### One game -/

def entryOf (sha : Sha256) (g : ParsedGame) : Text × Text :=
  (gameId sha g, recordFilename (gameId sha g)
    (contentSha256 sha (gameId sha g) "pgn-file".toList g.tags g.movetext))

theorem digest_eq (hs : s.Valid) :
    digest sha s g = contentSha256 sha (gameId sha g) "pgn-file".toList g.tags g.movetext := by
  rw [digest, hs.source]

theorem entryOf_eq (hs : s.Valid) : entryOf sha g = (gameId sha g, filename sha s g) := by
  rw [entryOf, filename, digest_eq hs]

theorem named_entryOf : Named (entryOf sha g) :=
  named_recordFilename (isHex_gameId sha g) (isHex_take (sha.form _) (by decide))

def Shows (sha : Sha256) (d : Disk) (index : Index) (g : ParsedGame) : Prop :=
  ∃ rec v, (gameId sha g, rec) ∈ index ∧ d.read (recordPath rec) = some (.json v) ∧
    contentDigest v =
      some (contentSha256 sha (gameId sha g) "pgn-file".toList g.tags g.movetext)

/-- What the loop body does to a store that holds an index: the old index holds until the
new one does, the game is shown, and no other record changes. -/
structure GameStep (sha : Sha256) (d : Disk) (index : Index) (g : ParsedGame) (step : Step) : Prop where
  index_eq : step.index = Assoc.assign index (entryOf sha g).1 (entryOf sha g).2
  throughout : Trace.Throughout Disk.exec
    (fun d' => Holds sha d' index ∨ Holds sha d' step.index) d step.ops
  holds : Holds sha (d.execAll step.ops) step.index
  shows : Shows sha (d.execAll step.ops) step.index g
  frame : ∀ q, q ≠ indexPath → q ≠ recordPath (entryOf sha g).2 → (∀ p, q ≠ tmp p) →
    (d.execAll step.ops).read q = d.read q

theorem Holds.emit {event : Text} (h : Holds sha d index) : Holds sha (d.exec (.emit event)) index :=
  h.congr rfl fun _ _ => rfl

theorem gameStep_of_commit {outcome : Outcome} (hs : s.Valid) (hg : validateGame text = .ok g)
    (hclean : Clean g) (h : Holds sha d index) :
    GameStep sha d index g
      ⟨commitGame (filename sha s g) (recordValue sha s g)
          (Assoc.assign index (gameId sha g) (filename sha s g)) ++ [.emit outcome.event],
        Assoc.assign index (gameId sha g) (filename sha s g), outcome⟩ := by
  have hentry : entryOf sha g = (gameId sha g, filename sha s g) := entryOf_eq hs
  have hnamed : Named (gameId sha g, filename sha s g) := hentry ▸ named_entryOf
  have hvalid : validateRecord sha (recordValue sha s g) (gameId sha g) (filename sha s g) = .ok () :=
    validateRecord_recordValue hg hs hclean
  obtain ⟨hthrough, hholds, hread, hframe⟩ := commit_spec h hnamed hvalid
  have hrun : ∀ ops, d.execAll (ops ++ [.emit outcome.event]) =
      (d.execAll ops).exec (.emit outcome.event) := fun ops => Trace.run_snoc ops _
  refine ⟨by rw [hentry], Trace.throughout_append.mpr ⟨hthrough, ?_⟩, ?_, ?_, ?_⟩
  · exact Trace.throughout_cons.mpr ⟨.inr hholds, Trace.throughout_nil.mpr (.inr hholds.emit)⟩
  · rw [hrun]
    exact hholds.emit
  · refine ⟨filename sha s g, recordValue sha s g, ?_, ?_, ?_⟩
    · exact (Assoc.mem_assign h.distinct).mpr (.inl rfl)
    · rw [hrun]
      exact hread
    · rw [contentDigest_recordValue, digest_eq hs]
  · intro q hindex hrecord htmp
    rw [hentry] at hrecord
    rw [hrun]
    exact hframe q hindex hrecord htmp

/-- The loop body on a store that holds an index. -/
theorem importGame_spec (hs : s.Valid) (hg : validateGame text = .ok g) (hclean : Clean g)
    (h : Holds sha d index) :
    ∃ step, importGame sha s d index g = .ok step ∧ GameStep sha d index g step := by
  unfold importGame
  cases hlookup : index.lookup (gameId sha g) with
  | none =>
    refine ⟨_, rfl, ?_⟩
    have hnew : gameId sha g ∉ index.map Prod.fst := by
      intro hmem
      obtain ⟨rec, hrec⟩ := Dict.exists_lookup hmem
      rw [hlookup] at hrec
      cases hrec
    have hfilter : index.filter (fun e => e.1 ≠ gameId sha g) = index := by
      refine List.filter_eq_self.mpr fun e he => ?_
      simpa using fun heq : e.1 = gameId sha g => hnew (heq ▸ List.mem_map_of_mem he)
    simp only [storeGame, hfilter, ← Assoc.assign_of_notMem hnew]
    exact gameStep_of_commit hs hg hclean h
  | some rec =>
    have hmem : (gameId sha g, rec) ∈ index := Dict.mem_of_lookup hlookup
    obtain ⟨v, hread, hvalid⟩ := h.stored _ hmem
    simp only [hread]
    split_ifs with hsame
    · refine ⟨_, rfl, ?_⟩
      obtain ⟨D, hD, haddress⟩ := digest_of_validateRecord hvalid
      obtain rfl : D = digest sha s g := Option.some.inj (hD.symm.trans hsame)
      have hrec := eq_recordFilename (h.named _ hmem) haddress
      have hassign : Assoc.assign index (entryOf sha g).1 (entryOf sha g).2 = index := by
        rw [entryOf_eq hs, filename, ← hrec]
        exact Assoc.assign_of_mem h.distinct hmem
      refine ⟨hassign.symm, ?_, h.emit, ⟨rec, v, hmem, hread, ?_⟩, fun q _ _ _ => rfl⟩
      · exact Trace.throughout_cons.mpr ⟨.inl h, Trace.throughout_nil.mpr (.inl h.emit)⟩
      · rw [hsame, digest_eq hs]
    · exact ⟨_, rfl, gameStep_of_commit hs hg hclean h⟩

end ImportPgn
end OpenChess
