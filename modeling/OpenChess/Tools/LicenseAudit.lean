import OpenChess.Ingest.Movetext
import OpenChess.Lib.LineText
import OpenChess.Lib.WordSplit

/-!
# Licence expressions

Model of `_token_ok` and `expression_ok` of `tools/license_audit.py`. An expression is
split at every `OR` and each piece at every `AND`; the grammar is stated apart from it.
-/

namespace OpenChess
namespace LicenseAudit

open Pgn (inRanges isSpace)
open LineText (strip)

/-- `ALLOWED`. -/
def allowed : List Text :=
  ["MIT".toList, "MIT-0".toList, "Apache-2.0".toList, "BSD-2-Clause".toList,
    "BSD-3-Clause".toList, "ISC".toList, "Python-2.0".toList, "MPL-2.0".toList]

/-- The class `[A-Za-z0-9.\-]`. -/
def isIdChar (c : Char) : Bool :=
  inRanges [(0x2d, 0x2e), (0x30, 0x39), (0x41, 0x5a), (0x61, 0x7a)] c

/-- `re.fullmatch(r"[A-Za-z0-9.\-]+", tok)`. -/
def isId (tok : Text) : Bool := tok != [] && tok.all isIdChar

/-- The class `[\x20-\x7e]`. -/
def isPrintable (c : Char) : Bool := inRanges [(0x20, 0x7e)] c

/-- `_token_ok`. -/
def tokenOk (tok : Text) : Bool := isId (strip isSpace tok) && allowed.contains (strip isSpace tok)

/-- `_OPERATORS`. -/
def operators : List Text := ["AND".toList, "OR".toList, "WITH".toList]

/-- `tok.upper() in _OPERATORS`, for ASCII text. -/
def isOperator (tok : Text) : Bool := operators.contains (tok.map Char.toUpper)

/-- A letter matches an upper-case one of a pattern with `re.IGNORECASE`. -/
def sameLetter (c o : Char) : Bool := c.toUpper == o

/-- `re.split(r"\s+OP\s+", t, flags=re.IGNORECASE)`. -/
def splitAt (op t : Text) : List Text := WordSplit.split isSpace sameLetter op t

/-- `t.split()`. -/
def words (t : Text) : List Text := (t.splitOnP isSpace).filter (· != [])

def idOk (tok : Text) : Bool := isId tok && !isOperator tok

/-- `expression_ok`, on a text. -/
def expressionOk (t : Text) : Bool :=
  let expr := strip isSpace t
  if expr = [] || expr.contains '(' || expr.contains ')' then false
  else if !expr.all isPrintable then false
  else if (words expr).head?.any isOperator || (words expr).getLast?.any isOperator then false
  else
    let orParts := (splitAt "OR".toList expr).map (strip isSpace)
    if orParts.any (· = []) then false
    else if !orParts.all fun part => (splitAt "AND".toList part).all idOk then false
    else orParts.any fun part =>
      splitAt "AND".toList part != [] && (splitAt "AND".toList part).all tokenOk

/-! ### The grammar -/

def IsSep (op sep : Text) : Prop := WordSplit.Separates isSpace sameLetter op sep

/-- A branch: ids with `AND` in between. -/
inductive SpellsBranch : List Text → Text → Prop
  | one {id : Text} (hid : idOk id = true) : SpellsBranch [id] id
  | and {id sep t : Text} {ids : List Text} (hid : idOk id = true)
      (hsep : IsSep "AND".toList sep) (h : SpellsBranch ids t) :
      SpellsBranch (id :: ids) (id ++ (sep ++ t))

/-- An expression: branches with `OR` in between. -/
inductive Spells : List (List Text) → Text → Prop
  | one {ids : List Text} {t : Text} (h : SpellsBranch ids t) : Spells [ids] t
  | or {ids : List Text} {branches : List (List Text)} {t sep t' : Text}
      (h : SpellsBranch ids t) (hsep : IsSep "OR".toList sep) (h' : Spells branches t') :
      Spells (ids :: branches) (t ++ (sep ++ t'))

variable {c : Char} {tok id sep t t' rest : Text} {ids texts : List Text}
  {branches : List (List Text)} {op : Text}

/-! ### Characters -/

theorem isSpace_of_isIdChar (h : isIdChar c = true) : isSpace c = false := by
  simp only [isIdChar, isSpace, inRanges, List.any_cons, List.any_nil, Bool.or_eq_true,
    Bool.or_eq_false_iff, decide_eq_true_eq, decide_eq_false_iff_not, Bool.false_eq_true,
    or_false, and_true] at h ⊢
  omega

theorem isIdChar_of_toUpper (h : isIdChar c.toUpper = true) : isIdChar c = true := by
  by_cases hlower : 'a'.val ≤ c.val ∧ c.val ≤ 'z'.val
  · simp only [isIdChar, inRanges, List.any_cons, List.any_nil, Bool.or_eq_true,
      decide_eq_true_eq]
    have hlo : 97 ≤ c.toNat := hlower.1
    have hhi : c.toNat ≤ 122 := hlower.2
    omega
  · have hsame : c.toUpper = c := dif_neg hlower
    rwa [hsame] at h

theorem wordlike (hne : op ≠ []) (hall : op.all isIdChar = true) :
    WordSplit.Wordlike isSpace sameLetter op := by
  refine ⟨hne, fun o ho c hsame => isSpace_of_isIdChar (isIdChar_of_toUpper ?_)⟩
  rw [beq_iff_eq.mp hsame]
  exact List.all_eq_true.mp hall o ho

theorem wordlike_or : WordSplit.Wordlike isSpace sameLetter "OR".toList :=
  wordlike (by decide) (by decide)

theorem wordlike_and : WordSplit.Wordlike isSpace sameLetter "AND".toList :=
  wordlike (by decide) (by decide)

theorem forall₂_sameLetter {w : Text} :
    List.Forall₂ (fun c o => sameLetter c o = true) w op ↔ w.map Char.toUpper = op := by
  rw [← List.forall₂_eq_eq_eq, List.forall₂_map_left_iff]
  simp only [sameLetter, beq_iff_eq]

/-! ### Ids -/

theorem idOk_iff : idOk tok = true ↔
    tok ≠ [] ∧ (∀ c ∈ tok, isIdChar c = true) ∧ tok.map Char.toUpper ∉ operators := by
  simp only [idOk, isId, isOperator, Bool.and_eq_true, Bool.not_eq_true', bne_iff_ne,
    List.all_eq_true, List.contains_eq_mem, decide_eq_false_iff_not, and_assoc]

theorem isSpace_of_idOk (h : idOk tok = true) : ∀ c ∈ tok, isSpace c = false :=
  fun c hc => isSpace_of_isIdChar ((idOk_iff.mp h).2.1 c hc)

theorem ne_nil_of_idOk (h : idOk tok = true) : tok ≠ [] := (idOk_iff.mp h).1

theorem other_of_idOk (h : idOk tok = true) (hop : op ∈ operators) :
    ¬ List.Forall₂ (fun c o => sameLetter c o = true) tok op := by
  rw [forall₂_sameLetter]
  rintro rfl
  exact (idOk_iff.mp h).2.2 hop

/-! ### The ends of an expression -/

/-- The text begins and ends with an id. -/
structure Ends (t : Text) : Prop where
  head : ∃ id rest, t = id ++ rest ∧ idOk id = true ∧ (rest = [] ∨ rest.head?.any isSpace = true)
  last : ∃ id rest, t = rest ++ id ∧ idOk id = true ∧ (rest = [] ∨ rest.getLast?.any isSpace = true)

theorem getLast?_sep (hsep : IsSep op sep) : sep.getLast?.any isSpace = true := by
  obtain ⟨lead, w, trail, rfl, -, hne, -, htrail, -⟩ := hsep
  have hlast : trail.getLast? = some (trail.getLast hne) := List.getLast?_eq_some_getLast hne
  rw [List.getLast?_append, List.getLast?_append, hlast]
  exact htrail _ (List.getLast_mem hne)

/-- Two texts with a separator in between begin with the first and end with the second. -/
theorem Ends.between (h : Ends t) (h' : Ends t') (hsep : IsSep op sep) :
    Ends (t ++ (sep ++ t')) := by
  obtain ⟨id, rest, rfl, hid, hrest⟩ := h.head
  obtain ⟨id', rest', rfl, hid', hrest'⟩ := h'.last
  constructor
  · refine ⟨id, rest ++ (sep ++ (rest' ++ id')), by rw [List.append_assoc], hid, Or.inr ?_⟩
    obtain ⟨lead, w, trail, rfl, hne, -, hlead, -⟩ := hsep
    obtain rfl | hrest := hrest
    · rw [List.nil_append, List.append_assoc]
      exact WordSplit.head_blanks hne hlead _
    · cases rest with
      | nil => cases hrest
      | cons c rest => exact hrest
  · refine ⟨id', id ++ rest ++ (sep ++ rest'), by simp only [List.append_assoc], hid', Or.inr ?_⟩
    obtain rfl | hrest' := hrest'
    · have hlast := getLast?_sep hsep
      rw [List.append_nil, List.getLast?_append]
      cases hsome : sep.getLast? with
      | none =>
        rw [hsome] at hlast
        cases hlast
      | some c => rwa [hsome] at hlast
    · rw [List.getLast?_append, List.getLast?_append]
      cases hsome : rest'.getLast? with
      | none =>
        rw [hsome] at hrest'
        cases hrest'
      | some c => rwa [hsome] at hrest'

theorem ends_id (hid : idOk id = true) : Ends id :=
  ⟨⟨id, [], (List.append_nil id).symm, hid, Or.inl rfl⟩, ⟨id, [], rfl, hid, Or.inl rfl⟩⟩

theorem SpellsBranch.ends (h : SpellsBranch ids t) : Ends t := by
  induction h with
  | one hid => exact ends_id hid
  | and hid hsep _ ih => exact (ends_id hid).between ih hsep

theorem Spells.ends (h : Spells branches t) : Ends t := by
  induction h with
  | one h => exact h.ends
  | or h hsep _ ih => exact h.ends.between ih hsep

theorem Ends.head?_visible (h : Ends t) : ∀ c ∈ t.head?, isSpace c = false := by
  obtain ⟨id, rest, rfl, hid, -⟩ := h.head
  have hne := ne_nil_of_idOk hid
  cases id with
  | nil => exact absurd rfl hne
  | cons c id =>
    intro d hd
    rw [← Option.some.inj hd]
    exact isSpace_of_idOk hid c List.mem_cons_self

theorem Ends.visible (h : Ends t) : WordSplit.Visible isSpace t := by
  rw [WordSplit.Visible, Option.any_eq_false]
  exact fun c hc => by simp [h.head?_visible c hc]

theorem Ends.getLast?_visible (h : Ends t) : ∀ c ∈ t.getLast?, isSpace c = false := by
  obtain ⟨id, rest, rfl, hid, -⟩ := h.last
  intro c hc
  rw [List.getLast?_append, List.getLast?_eq_some_getLast (ne_nil_of_idOk hid)] at hc
  rw [← Option.some.inj hc]
  exact isSpace_of_idOk hid _ (List.getLast_mem _)

theorem Ends.strip_eq (h : Ends t) {lead trail : Text} (hlead : ∀ c ∈ lead, isSpace c = true)
    (htrail : ∀ c ∈ trail, isSpace c = true) : strip isSpace (lead ++ (t ++ trail)) = t :=
  LineText.strip_blanks hlead htrail h.head?_visible h.getLast?_visible

theorem Ends.strip_self (h : Ends t) : strip isSpace t = t :=
  LineText.strip_self h.head?_visible h.getLast?_visible

/-! ### Branches -/

theorem SpellsBranch.splitAt_and (h : SpellsBranch ids t) : splitAt "AND".toList t = ids := by
  induction h with
  | @one id hid =>
    have hword : splitAt "AND".toList (id ++ []) = _ :=
      WordSplit.split_word (isSpace_of_idOk hid) []
    rwa [List.append_nil, WordSplit.split_nil, List.modifyHead_cons, List.append_nil] at hword
  | @and id sep t ids hid hsep h ih =>
    rw [splitAt, WordSplit.split_word (isSpace_of_idOk hid),
      WordSplit.split_separator wordlike_and hsep h.ends.visible, List.modifyHead_cons,
      List.append_nil]
    exact congrArg (id :: ·) ih

/-- No `OR` is found in a branch. -/
theorem SpellsBranch.splitAt_or (h : SpellsBranch ids t)
    (hrest : rest = [] ∨ rest.head?.any isSpace = true) :
    splitAt "OR".toList (t ++ rest) = (splitAt "OR".toList rest).modifyHead (t ++ ·) := by
  induction h with
  | one hid => exact WordSplit.split_word (isSpace_of_idOk hid) rest
  | @and id sep t ids hid hsep h ih =>
    obtain ⟨lead, w, trail, rfl, hne, hne', hlead, htrail, hword⟩ := hsep
    obtain ⟨hwne, hw⟩ := wordlike_and.spelling hword
    obtain ⟨id', tail, rfl, hid', htail⟩ := h.ends.head
    have hother : ¬ List.Forall₂ (fun c o => sameLetter c o = true) w "OR".toList := by
      rw [forall₂_sameLetter, forall₂_sameLetter.mp hword]
      decide
    have hafter : tail ++ rest = [] ∨ (tail ++ rest).head?.any isSpace = true := by
      obtain rfl | htail := htail
      · exact hrest
      · cases tail with
        | nil => cases htail
        | cons c tail => exact Or.inr htail
    have hbehind : (trail ++ (id' ++ (tail ++ rest))).head?.any isSpace = true :=
      WordSplit.head_blanks hne' htrail _
    simp only [List.append_assoc] at ih ⊢
    rw [splitAt, WordSplit.split_word (isSpace_of_idOk hid),
      WordSplit.split_gap wordlike_or hlead hwne hw hother (Or.inr hbehind),
      WordSplit.split_word hw,
      WordSplit.split_gap wordlike_or htrail (ne_nil_of_idOk hid') (isSpace_of_idOk hid')
        (other_of_idOk hid' (by decide)) hafter]
    rw [splitAt] at ih
    rw [ih]
    simp only [List.modifyHead_modifyHead, Function.comp_def]

/-! ### Expressions -/

theorem Spells.splitAt_or (h : Spells branches t) :
    List.Forall₂ SpellsBranch branches (splitAt "OR".toList t) := by
  induction h with
  | @one ids t h =>
    have hsplit := h.splitAt_or (Or.inl rfl)
    have hnil : splitAt "OR".toList [] = [[]] := WordSplit.split_nil
    rw [hnil, List.modifyHead_cons, List.append_nil] at hsplit
    rw [hsplit]
    exact List.Forall₂.cons h List.Forall₂.nil
  | @or ids branches t sep t' h hsep h' ih =>
    have hblank : (sep ++ t').head?.any isSpace = true := by
      obtain ⟨lead, w, trail, rfl, hne, -, hlead, -⟩ := hsep
      rw [List.append_assoc]
      exact WordSplit.head_blanks hne hlead _
    have hrest : splitAt "OR".toList (sep ++ t') = [] :: splitAt "OR".toList t' :=
      WordSplit.split_separator wordlike_or hsep h'.ends.visible
    rw [h.splitAt_or (Or.inr hblank), hrest, List.modifyHead_cons, List.append_nil]
    exact List.Forall₂.cons h ih

theorem Ends.words_head (h : Ends t) : ∃ id, idOk id = true ∧ (words t).head? = some id := by
  obtain ⟨id, rest, rfl, hid, hrest⟩ := h.head
  have hsingle : id.splitOnP isSpace = [id] := List.splitOnP_eq_singleton (isSpace_of_idOk hid)
  refine ⟨id, hid, ?_⟩
  obtain rfl | hrest := hrest
  · simp [words, hsingle, ne_nil_of_idOk hid]
  · cases rest with
    | nil => cases hrest
    | cons c rest =>
      have hc : isSpace c = true := hrest
      simp [words, List.splitOnP_append_cons id rest hc, hsingle, ne_nil_of_idOk hid]

theorem Ends.words_last (h : Ends t) : ∃ id, idOk id = true ∧ (words t).getLast? = some id := by
  obtain ⟨id, rest, rfl, hid, hrest⟩ := h.last
  have hsingle : id.splitOnP isSpace = [id] := List.splitOnP_eq_singleton (isSpace_of_idOk hid)
  refine ⟨id, hid, ?_⟩
  obtain rfl | hrest := hrest
  · simp [words, hsingle, ne_nil_of_idOk hid]
  · obtain ⟨c, hlast, hc⟩ := Option.any_eq_true _ _ |>.mp hrest
    obtain ⟨front, rfl⟩ := List.getLast?_eq_some_iff.mp hlast
    rw [List.append_assoc, List.singleton_append]
    simp [words, List.splitOnP_append_cons front id hc, hsingle, ne_nil_of_idOk hid]

/-! ### Characters of an expression -/

theorem mem_sep (hop : op.all isIdChar = true) (hsep : IsSep op sep) :
    ∀ c ∈ sep, isIdChar c = true ∨ isSpace c = true := by
  obtain ⟨lead, w, trail, rfl, -, -, hlead, htrail, hword⟩ := hsep
  intro c hc
  simp only [List.mem_append] at hc
  obtain hc | hc | hc := hc
  · exact Or.inr (hlead c hc)
  · refine Or.inl (isIdChar_of_toUpper (List.all_eq_true.mp hop _ ?_))
    rw [← forall₂_sameLetter.mp hword]
    exact List.mem_map_of_mem hc
  · exact Or.inr (htrail c hc)

theorem mem_between {P : Char → Prop} (h : ∀ c ∈ t, P c) (hsep : ∀ c ∈ sep, P c)
    (h' : ∀ c ∈ t', P c) : ∀ c ∈ t ++ (sep ++ t'), P c := by
  intro c hc
  simp only [List.mem_append] at hc
  obtain hc | hc | hc := hc
  · exact h c hc
  · exact hsep c hc
  · exact h' c hc

theorem SpellsBranch.mem (h : SpellsBranch ids t) :
    ∀ c ∈ t, isIdChar c = true ∨ isSpace c = true := by
  induction h with
  | one hid => exact fun c hc => Or.inl ((idOk_iff.mp hid).2.1 c hc)
  | and hid hsep _ ih =>
    exact mem_between (fun c hc => Or.inl ((idOk_iff.mp hid).2.1 c hc))
      (mem_sep (by decide) hsep) ih

theorem Spells.mem (h : Spells branches t) : ∀ c ∈ t, isIdChar c = true ∨ isSpace c = true := by
  induction h with
  | one h => exact h.mem
  | or h hsep _ ih => exact mem_between h.mem (mem_sep (by decide) hsep) ih

/-! ### Pieces that are ids -/

theorem spellsBranch_of_joined (h : WordSplit.Joined isSpace sameLetter "AND".toList ids t)
    (hids : ∀ id ∈ ids, idOk id = true) : SpellsBranch ids t := by
  induction h with
  | one id => exact SpellsBranch.one (hids id (List.mem_singleton_self id))
  | cons hsep _ ih =>
    obtain ⟨hid, hids⟩ := List.forall_mem_cons.mp hids
    exact SpellsBranch.and hid hsep (ih hids)

theorem IsSep.widen (h : IsSep op sep) {lead trail : Text} (hlead : ∀ c ∈ lead, isSpace c = true)
    (htrail : ∀ c ∈ trail, isSpace c = true) : IsSep op (lead ++ (sep ++ trail)) := by
  obtain ⟨lead', w, trail', rfl, hne, hne', hlead', htrail', hword⟩ := h
  refine ⟨lead ++ lead', w, trail' ++ trail, by simp only [List.append_assoc],
    List.append_ne_nil_of_right_ne_nil _ hne, List.append_ne_nil_of_left_ne_nil hne' _, ?_, ?_,
    hword⟩
  · exact fun c hc => (List.mem_append.mp hc).elim (hlead c) (hlead' c)
  · exact fun c hc => (List.mem_append.mp hc).elim (htrail' c) (htrail c)

theorem spells_of_joined (h : WordSplit.Joined isSpace sameLetter "OR".toList texts t)
    (hids : ∀ p ∈ texts, ∀ id ∈ splitAt "AND".toList (strip isSpace p), idOk id = true) :
    ∃ lead t' trail, t = lead ++ (t' ++ trail) ∧ (∀ c ∈ lead, isSpace c = true) ∧
      (∀ c ∈ trail, isSpace c = true) ∧
      Spells (texts.map fun p => splitAt "AND".toList (strip isSpace p)) t' := by
  have hbranch : ∀ p ∈ texts, SpellsBranch (splitAt "AND".toList (strip isSpace p))
      (strip isSpace p) :=
    fun p hp => spellsBranch_of_joined (WordSplit.joined_split _) (hids p hp)
  induction h with
  | one p =>
    obtain ⟨lead, trail, hp, hlead, htrail⟩ := LineText.exists_strip isSpace p
    exact ⟨lead, strip isSpace p, trail, hp, hlead, htrail,
      Spells.one (hbranch p (List.mem_singleton_self p))⟩
  | @cons p sep t ps hsep _ ih =>
    obtain ⟨lead, trail, hp, hlead, htrail⟩ := LineText.exists_strip isSpace p
    obtain ⟨hfirst, hrest⟩ := List.forall_mem_cons.mp hbranch
    obtain ⟨lead', t', trail', ht, hlead', htrail', hspells⟩ :=
      ih (List.forall_mem_cons.mp hids).2 hrest
    refine ⟨lead, strip isSpace p ++ ((trail ++ (sep ++ lead')) ++ t'), trail', ?_, hlead, htrail',
      Spells.or hfirst (IsSep.widen hsep htrail hlead') hspells⟩
    conv_lhs => rw [hp, ht]
    simp only [List.append_assoc]

/-! ### The audit -/

theorem tokenOk_iff (h : idOk tok = true) : tokenOk tok = true ↔ tok ∈ allowed := by
  have hstrip : strip isSpace tok = tok := (ends_id h).strip_self
  have hid : isId tok = true := (Bool.and_eq_true_iff.mp h).1
  rw [tokenOk, hstrip, hid, Bool.true_and, List.contains_iff_mem]

theorem Ends.ne_nil (h : Ends t) : t ≠ [] := by
  obtain ⟨id, rest, rfl, hid, -⟩ := h.head
  exact List.append_ne_nil_of_left_ne_nil (ne_nil_of_idOk hid) rest

/-- The stripped pieces of an expression are its branches. -/
theorem Spells.parts (h : Spells branches t) :
    ((splitAt "OR".toList t).map (strip isSpace)).map (splitAt "AND".toList) = branches ∧
      ∀ part ∈ (splitAt "OR".toList t).map (strip isSpace),
        part ≠ [] ∧ SpellsBranch (splitAt "AND".toList part) part := by
  have hpieces := h.splitAt_or
  clear h
  generalize splitAt "OR".toList t = pieces at hpieces
  induction hpieces with
  | nil => exact ⟨rfl, nofun⟩
  | @cons ids p branches pieces hbranch _ ih =>
    obtain ⟨hmap, hparts⟩ := ih
    have hids : splitAt "AND".toList p = ids := hbranch.splitAt_and
    simp only [List.map_cons, hbranch.ends.strip_self, hids, hmap, List.forall_mem_cons]
    exact ⟨trivial, ⟨hbranch.ends.ne_nil, hbranch⟩, hparts⟩

theorem SpellsBranch.idOk (h : SpellsBranch ids t) : ids ≠ [] ∧ ∀ id ∈ ids, idOk id = true := by
  induction h with
  | one hid => exact ⟨List.cons_ne_nil _ _, by simpa using hid⟩
  | and hid _ _ ih => exact ⟨List.cons_ne_nil _ _, List.forall_mem_cons.mpr ⟨hid, ih.2⟩⟩

theorem expressionOk_eq_true : expressionOk t = true ↔
    strip isSpace t ≠ [] ∧ '(' ∉ strip isSpace t ∧ ')' ∉ strip isSpace t ∧
      (∀ c ∈ strip isSpace t, isPrintable c = true) ∧
      (words (strip isSpace t)).head?.any isOperator = false ∧
      (words (strip isSpace t)).getLast?.any isOperator = false ∧
      (∀ part ∈ (splitAt "OR".toList (strip isSpace t)).map (strip isSpace), part ≠ []) ∧
      (∀ part ∈ (splitAt "OR".toList (strip isSpace t)).map (strip isSpace),
        ∀ id ∈ splitAt "AND".toList part, idOk id = true) ∧
      ∃ part ∈ (splitAt "OR".toList (strip isSpace t)).map (strip isSpace),
        splitAt "AND".toList part ≠ [] ∧
          ∀ id ∈ splitAt "AND".toList part, tokenOk id = true := by
  simp only [expressionOk, Bool.if_false_left, Bool.and_eq_true, Bool.or_eq_true,
    Bool.not_eq_true', decide_eq_false_iff_not, decide_eq_true_eq, not_or, List.any_eq_true,
    Bool.not_eq_false, List.all_eq_true, List.contains_iff_mem, bne_iff_ne, Bool.not_eq_true,
    not_exists, not_and, and_assoc, ne_eq]

/-- An expression is accepted exactly where it is one of the grammar, in printable ASCII,
and all ids of a branch are allowed. -/
theorem expressionOk_iff (t : Text) : expressionOk t = true ↔
    (∀ c ∈ strip isSpace t, isPrintable c = true) ∧
      ∃ branches, Spells branches (strip isSpace t) ∧
        ∃ ids ∈ branches, ∀ id ∈ ids, id ∈ allowed := by
  rw [expressionOk_eq_true]
  constructor
  · intro h
    obtain ⟨-, -, -, hprintable, -, -, -, hparts, part, hpart, -, htokens⟩ := h
    refine ⟨hprintable, ?_⟩
    have hids : ∀ p ∈ splitAt "OR".toList (strip isSpace t),
        ∀ id ∈ splitAt "AND".toList (strip isSpace p), idOk id = true :=
      fun p hp => hparts _ (List.mem_map_of_mem hp)
    obtain ⟨lead, t', trail, ht, hlead, htrail, hspells⟩ :=
      spells_of_joined (WordSplit.joined_split _) hids
    have hstrip : strip isSpace t = t' := by
      rw [← LineText.strip_strip, ht]
      exact hspells.ends.strip_eq hlead htrail
    rw [← hstrip] at hspells
    refine ⟨_, hspells, ?_⟩
    obtain ⟨p, hp, rfl⟩ := List.mem_map.mp hpart
    exact ⟨_, List.mem_map_of_mem hp, fun id hid =>
      (tokenOk_iff (hids p hp id hid)).mp (htokens id hid)⟩
  · intro h
    obtain ⟨hprintable, branches, hspells, ids, hids, hallowed⟩ := h
    obtain ⟨hmap, hparts⟩ := hspells.parts
    obtain ⟨first, hfirst, hhead⟩ := hspells.ends.words_head
    obtain ⟨last, hlast, hend⟩ := hspells.ends.words_last
    have hoperator : ∀ id, idOk id = true → isOperator id = false := fun id hid => by
      simpa using (Bool.and_eq_true_iff.mp hid).2
    have hparen : ∀ c, isIdChar c = false → isSpace c = false → c ∉ strip isSpace t :=
      fun c hid hspace hc => by simpa [hid, hspace] using hspells.mem c hc
    refine ⟨hspells.ends.ne_nil, hparen '(' (by decide) (by decide),
      hparen ')' (by decide) (by decide), hprintable, ?_, ?_,
      fun part hpart => (hparts part hpart).1, fun part hpart => (hparts part hpart).2.idOk.2, ?_⟩
    · rw [hhead]
      exact hoperator first hfirst
    · rw [hend]
      exact hoperator last hlast
    · rw [← hmap] at hids
      obtain ⟨part, hpart, rfl⟩ := List.mem_map.mp hids
      obtain ⟨hne, hok⟩ := (hparts part hpart).2.idOk
      exact ⟨part, hpart, hne, fun id hid => (tokenOk_iff (hok id hid)).mpr (hallowed id hid)⟩

end LicenseAudit
end OpenChess
