import Mathlib.Data.List.Basic
import Mathlib.Tactic

/-!
# Decoding UTF-8

A decoder that takes one byte at a time and puts a replacement character where the bytes
read so far are of no character. What it gives does not depend on how the bytes are cut into
pieces, as long as it keeps the unfinished character from one piece to the next; forgetting
it can only add replacement characters.
-/

namespace Utf8

def replacement : Char := Char.ofNat 0xfffd

/-- An unfinished character: its number so far, how many bytes follow the next one, and the
bounds of the next one. -/
structure Pending where
  code : ℕ
  left : ℕ
  low : ℕ
  high : ℕ
  deriving DecidableEq, Repr

/-- A byte between two characters. -/
def first (b : UInt8) : List Char × Option Pending :=
  if b.toNat < 0x80 then ([Char.ofNat b.toNat], none)
  else if 0xc2 ≤ b.toNat ∧ b.toNat < 0xe0 then ([], some ⟨b.toNat - 0xc0, 0, 0x80, 0xbf⟩)
  else if 0xe0 ≤ b.toNat ∧ b.toNat < 0xf0 then
    ([], some ⟨b.toNat - 0xe0, 1, if b.toNat = 0xe0 then 0xa0 else 0x80,
      if b.toNat = 0xed then 0x9f else 0xbf⟩)
  else if 0xf0 ≤ b.toNat ∧ b.toNat < 0xf5 then
    ([], some ⟨b.toNat - 0xf0, 2, if b.toNat = 0xf0 then 0x90 else 0x80,
      if b.toNat = 0xf4 then 0x8f else 0xbf⟩)
  else ([replacement], none)

def Pending.accepts (p : Pending) (b : UInt8) : Bool :=
  decide (0x80 ≤ b.toNat ∧ b.toNat < 0xc0) && decide (p.low ≤ b.toNat ∧ b.toNat ≤ p.high)

/-- One byte: the characters it ends, and the unfinished one after it. A byte that does not
go on with a character begins the next. -/
def next : Option Pending → UInt8 → List Char × Option Pending
  | none, b => first b
  | some p, b =>
    if p.accepts b then
      if p.left = 0 then ([Char.ofNat (p.code * 64 + (b.toNat - 0x80))], none)
      else ([], some ⟨p.code * 64 + (b.toNat - 0x80), p.left - 1, 0x80, 0xbf⟩)
    else (replacement :: (first b).1, (first b).2)

/-- These bytes, one after the other. -/
def feed : Option Pending → List UInt8 → List Char × Option Pending
  | s, [] => ([], s)
  | s, b :: bytes =>
    ((next s b).1 ++ (feed (next s b).2 bytes).1, (feed (next s b).2 bytes).2)

/-- What an unfinished character becomes at the end. -/
def flush : Option Pending → List Char
  | none => []
  | some _ => [replacement]

def decodeFrom (s : Option Pending) (bytes : List UInt8) : List Char :=
  (feed s bytes).1 ++ flush (feed s bytes).2

def decode (bytes : List UInt8) : List Char := decodeFrom none bytes

def encode (t : List Char) : List UInt8 := t.flatMap String.utf8EncodeChar

variable {s : Option Pending} {p : Pending} {b : UInt8} {xs ys bytes : List UInt8} {c : Char}
  {t : List Char}

/-! ### Pieces -/

theorem feed_append (s : Option Pending) (xs ys : List UInt8) : feed s (xs ++ ys) =
    ((feed s xs).1 ++ (feed (feed s xs).2 ys).1, (feed (feed s xs).2 ys).2) := by
  induction xs generalizing s with
  | nil => rfl
  | cons b xs ih => rw [List.cons_append, feed, ih, feed, List.append_assoc]

theorem decodeFrom_append (s : Option Pending) (xs ys : List UInt8) :
    decodeFrom s (xs ++ ys) = (feed s xs).1 ++ decodeFrom (feed s xs).2 ys := by
  rw [decodeFrom, feed_append, decodeFrom, List.append_assoc]

theorem decodeFrom_cons (s : Option Pending) (b : UInt8) (bytes : List UInt8) :
    decodeFrom s (b :: bytes) = (next s b).1 ++ decodeFrom (next s b).2 bytes :=
  decodeFrom_append s [b] bytes |>.trans (by rw [feed, feed, List.append_nil])

/-- The pieces a decoder gives for these pieces of a file, and the character left unfinished. -/
def feedAll : Option Pending → List (List UInt8) → List (List Char) × Option Pending
  | s, [] => ([], s)
  | s, xs :: pieces =>
    ((feed s xs).1 :: (feedAll (feed s xs).2 pieces).1, (feedAll (feed s xs).2 pieces).2)

/-- The pieces make no difference. -/
theorem flatten_feedAll (s : Option Pending) (pieces : List (List UInt8)) :
    ((feedAll s pieces).1.flatten, (feedAll s pieces).2) = feed s pieces.flatten := by
  induction pieces generalizing s with
  | nil => rfl
  | cons xs pieces ih =>
    rw [List.flatten_cons, feed_append, ← ih (feed s xs).2]
    rfl

/-! ### Encoded characters -/

theorem utf8EncodeChar_cases (c : Char) :
    (c.toNat < 0x80 ∧ String.utf8EncodeChar c = [UInt8.ofNat c.toNat]) ∨
    (0x80 ≤ c.toNat ∧ c.toNat < 0x800 ∧ String.utf8EncodeChar c =
      [UInt8.ofNat (0xc0 + c.toNat / 64), UInt8.ofNat (0x80 + c.toNat % 64)]) ∨
    (0x800 ≤ c.toNat ∧ c.toNat < 0x10000 ∧ (c.toNat < 0xd800 ∨ 0xdfff < c.toNat) ∧
      String.utf8EncodeChar c = [UInt8.ofNat (0xe0 + c.toNat / 4096),
        UInt8.ofNat (0x80 + c.toNat / 64 % 64), UInt8.ofNat (0x80 + c.toNat % 64)]) ∨
    (0x10000 ≤ c.toNat ∧ c.toNat < 0x110000 ∧ String.utf8EncodeChar c =
      [UInt8.ofNat (0xf0 + c.toNat / 262144), UInt8.ofNat (0x80 + c.toNat / 4096 % 64),
        UInt8.ofNat (0x80 + c.toNat / 64 % 64), UInt8.ofNat (0x80 + c.toNat % 64)]) := by
  have hvalid : c.toNat < 0xd800 ∨ 0xdfff < c.toNat ∧ c.toNat < 0x110000 := c.valid
  have hcode : c.val.toNat = c.toNat := rfl
  unfold String.utf8EncodeChar
  simp only [hcode]
  have hlast : c.toNat % 64 + 0x80 = 0x80 + c.toNat % 64 := Nat.add_comm _ _
  have hmiddle : c.toNat / 64 % 64 + 0x80 = 0x80 + c.toNat / 64 % 64 := Nat.add_comm _ _
  split_ifs with h1 h2 h3
  · exact .inl ⟨by omega, rfl⟩
  · have hfirst : c.toNat / 64 % 32 + 0xc0 = 0xc0 + c.toNat / 64 := by omega
    exact .inr (.inl ⟨by omega, by omega, by rw [hfirst, hlast]⟩)
  · have hfirst : c.toNat / 4096 % 16 + 0xe0 = 0xe0 + c.toNat / 4096 := by omega
    exact .inr (.inr (.inl ⟨by omega, by omega, by omega, by rw [hfirst, hmiddle, hlast]⟩))
  · have hfirst : c.toNat / 262144 % 8 + 0xf0 = 0xf0 + c.toNat / 262144 := by omega
    have hsecond : c.toNat / 4096 % 64 + 0x80 = 0x80 + c.toNat / 4096 % 64 := Nat.add_comm _ _
    exact .inr (.inr (.inr ⟨by omega, by omega, by rw [hfirst, hsecond, hmiddle, hlast]⟩))

theorem toNat_byte {n : ℕ} (h : n < 256) : (UInt8.ofNat n).toNat = n := by
  rw [UInt8.toNat_ofNat', Nat.mod_eq_of_lt h]

/-- The bytes of a character, of which some may have been read. -/
inductive Spells (c : Char) : Option Pending → List UInt8 → Prop
  | last {s : Option Pending} {b : UInt8} (hgood : ∀ p ∈ s, p.accepts b = true)
    (h : next s b = ([c], none)) : Spells c s [b]
  | more {s : Option Pending} {b : UInt8} {p : Pending} {bytes : List UInt8}
    (hgood : ∀ p ∈ s, p.accepts b = true) (h : next s b = ([], some p))
    (hrest : Spells c (some p) bytes) : Spells c s (b :: bytes)

theorem accepts_ofNat {n : ℕ} (h : 0x80 ≤ n ∧ n < 0xc0) (hbounds : p.low ≤ n ∧ n ≤ p.high) :
    p.accepts (UInt8.ofNat n) = true := by
  rw [Pending.accepts, toNat_byte (by omega), decide_eq_true h, decide_eq_true hbounds]
  rfl

theorem spells_last {n : ℕ} (hleft : p.left = 0) (h : 0x80 ≤ n ∧ n < 0xc0)
    (hbounds : p.low ≤ n ∧ n ≤ p.high) (hcode : p.code * 64 + (n - 0x80) = c.toNat) :
    Spells c (some p) [UInt8.ofNat n] := by
  have haccepts := accepts_ofNat h hbounds
  refine .last (fun q hq => Option.mem_some_iff.mp hq ▸ haccepts) ?_
  rw [next, if_pos haccepts, if_pos hleft, toNat_byte (by omega), hcode, Char.ofNat_toNat]

theorem spells_middle {n : ℕ} (hleft : p.left ≠ 0) (h : 0x80 ≤ n ∧ n < 0xc0)
    (hbounds : p.low ≤ n ∧ n ≤ p.high)
    (hrest : Spells c (some ⟨p.code * 64 + (n - 0x80), p.left - 1, 0x80, 0xbf⟩) bytes) :
    Spells c (some p) (UInt8.ofNat n :: bytes) := by
  have haccepts := accepts_ofNat h hbounds
  refine .more (fun q hq => Option.mem_some_iff.mp hq ▸ haccepts) ?_ hrest
  rw [next, if_pos haccepts, if_neg hleft, toNat_byte (by omega)]

theorem spells_first {n : ℕ} (hfirst : first (UInt8.ofNat n) = ([], some p))
    (hrest : Spells c (some p) bytes) : Spells c none (UInt8.ofNat n :: bytes) :=
  .more (fun q hq => absurd hq (Option.not_mem_none q)) hfirst hrest

theorem spells_encodeChar (c : Char) : Spells c none (String.utf8EncodeChar c) := by
  obtain ⟨h, heq⟩ | ⟨hlow, hhigh, heq⟩ | ⟨hlow, hhigh, hvalid, heq⟩ | ⟨hlow, hhigh, heq⟩ :=
    utf8EncodeChar_cases c <;> rw [heq]
  · refine .last (fun q hq => absurd hq (Option.not_mem_none q)) ?_
    rw [next, first, toNat_byte (by omega), if_pos h, Char.ofNat_toNat]
  · refine spells_first ?_ (spells_last (p := ⟨c.toNat / 64, 0, 0x80, 0xbf⟩) rfl (by omega)
      ⟨by simp only; omega, by simp only; omega⟩ (by simp only; omega))
    rw [first, toNat_byte (by omega), if_neg (by omega), if_pos (by omega), Nat.add_sub_cancel_left]
  · refine spells_first (p := ⟨c.toNat / 4096, 1, if 0xe0 + c.toNat / 4096 = 0xe0 then 0xa0 else 0x80,
      if 0xe0 + c.toNat / 4096 = 0xed then 0x9f else 0xbf⟩) ?_
      (spells_middle (by simp) (by omega) ⟨by simp only; split_ifs <;> omega,
        by simp only; split_ifs <;> omega⟩ (spells_last rfl (by omega)
          ⟨by simp only; omega, by simp only; omega⟩ (by simp only; omega)))
    rw [first, toNat_byte (by omega), if_neg (by omega), if_neg (by omega), if_pos (by omega),
      Nat.add_sub_cancel_left]
  · refine spells_first (p := ⟨c.toNat / 262144, 2,
      if 0xf0 + c.toNat / 262144 = 0xf0 then 0x90 else 0x80,
      if 0xf0 + c.toNat / 262144 = 0xf4 then 0x8f else 0xbf⟩) ?_
      (spells_middle (by simp) (by omega) ⟨by simp only; split_ifs <;> omega,
        by simp only; split_ifs <;> omega⟩ (spells_middle (by simp) (by omega)
          ⟨by simp only; omega, by simp only; omega⟩ (spells_last rfl (by omega)
          ⟨by simp only; omega, by simp only; omega⟩ (by simp only; omega))))
    rw [first, toNat_byte (by omega), if_neg (by omega), if_neg (by omega), if_neg (by omega),
      if_pos (by omega), Nat.add_sub_cancel_left]

theorem Spells.feed_eq (h : Spells c s xs) : feed s xs = ([c], none) := by
  induction h with
  | last hgood h => rw [feed, feed, h]; rfl
  | more hgood h hrest ih => rw [feed, h, ih]; rfl

theorem feed_encode (t : List Char) : feed none (encode t) = (t, none) := by
  induction t with
  | nil => rfl
  | cons c t ih =>
    rw [encode, List.flatMap_cons, ← encode, feed_append, (spells_encodeChar c).feed_eq, ih]
    rfl

/-- What is encoded is decoded again. -/
theorem decode_encode (t : List Char) : decode (encode t) = t := by
  rw [decode, decodeFrom, feed_encode, flush, List.append_nil]

theorem encode_append (t u : List Char) : encode (t ++ u) = encode t ++ encode u := List.flatMap_append

theorem length_encode_cons (c : Char) (t : List Char) :
    (encode (c :: t)).length = c.utf8Size + (encode t).length := by
  rw [encode, List.flatMap_cons, List.length_append, String.length_utf8EncodeChar, ← encode]

theorem length_le_encode (t : List Char) : t.length ≤ (encode t).length := by
  induction t with
  | nil => exact le_rfl
  | cons c t ih =>
    have hpos := c.utf8Size_pos
    rw [length_encode_cons, List.length_cons]
    omega

/-- Characters are counted as bytes exactly where each is one byte. -/
theorem length_encode_eq_iff : t.length = (encode t).length ↔ ∀ c ∈ t, c.utf8Size = 1 := by
  induction t with
  | nil => simp [encode]
  | cons c t ih =>
    have hpos := c.utf8Size_pos
    have hle := length_le_encode t
    rw [length_encode_cons, List.length_cons, List.forall_mem_cons, ← ih]
    omega

/-! ### Pieces decoded by themselves -/

def replaced (t : List Char) : ℕ := t.count replacement

theorem replaced_append (t u : List Char) : replaced (t ++ u) = replaced t + replaced u :=
  List.count_append

theorem replaced_decode (xs : List UInt8) :
    replaced (decode xs) = replaced (feed none xs).1 + replaced (flush (feed none xs).2) :=
  replaced_append _ _

/-- Forgetting an unfinished character replaces it, and once more the byte that goes on
with it. -/
theorem replaced_decodeFrom_cons (p : Pending) (b : UInt8) (bytes : List UInt8)
    (ih : ∀ s, replaced (decodeFrom s bytes) ≤ replaced (flush s) + replaced (decode bytes)) :
    replaced (decodeFrom (some p) (b :: bytes)) + (if p.accepts b then 1 else 0) ≤
      1 + replaced (decode (b :: bytes)) := by
  rw [decode, decodeFrom_cons, decodeFrom_cons, replaced_append, replaced_append, next, next]
  by_cases haccepts : p.accepts b
  · have hbyte : 0x80 ≤ b.toNat ∧ b.toNat < 0xc0 := by
      rw [Pending.accepts, Bool.and_eq_true] at haccepts
      exact of_decide_eq_true haccepts.1
    have hfirst : first b = ([replacement], none) := by
      rw [first, if_neg (by omega), if_neg (by omega), if_neg (by omega), if_neg (by omega)]
    have hone : ∀ c : Char, replaced [c] ≤ 1 := fun c => List.count_le_length
    have hself : replaced [replacement] = 1 := List.count_singleton_self
    rw [if_pos haccepts, if_pos haccepts, hfirst, hself]
    split_ifs
    · have hchar := hone (Char.ofNat (p.code * 64 + (b.toNat - 0x80)))
      have hrest := ih none
      simp only [flush, decode, replaced, List.count_nil] at hrest hchar ⊢
      omega
    · have hrest := ih (some ⟨p.code * 64 + (b.toNat - 0x80), p.left - 1, 0x80, 0xbf⟩)
      simp only [flush, decode, replaced, List.count_nil, List.count_singleton_self] at hrest ⊢
      omega
  · rw [if_neg haccepts, if_neg haccepts]
    simp only [replaced, List.count_cons_self]
    omega

theorem replaced_decodeFrom_le (s : Option Pending) (bytes : List UInt8) :
    replaced (decodeFrom s bytes) ≤ replaced (flush s) + replaced (decode bytes) := by
  induction bytes generalizing s with
  | nil => simp [decodeFrom, decode, feed, flush, replaced]
  | cons b bytes ih =>
    cases s with
    | none => simp [decode, flush, replaced]
    | some p =>
      have hcons := replaced_decodeFrom_cons p b bytes ih
      have hself : replaced (flush (some p)) = 1 := List.count_singleton_self
      omega

theorem replaced_decode_le (pieces : List (List UInt8)) :
    replaced (decode pieces.flatten) ≤ replaced (pieces.flatMap decode) := by
  induction pieces with
  | nil => exact le_rfl
  | cons xs pieces ih =>
    have hrest := replaced_decodeFrom_le (feed none xs).2 pieces.flatten
    rw [List.flatten_cons, List.flatMap_cons, decode, decodeFrom_append, replaced_append,
      replaced_append, replaced_decode xs]
    omega

/-- Within a character some byte was accepted and the next one is. -/
theorem Spells.within (h : Spells c s (xs ++ b :: ys)) (hne : xs ≠ []) :
    ∃ p, (feed s xs).2 = some p ∧ p.accepts b = true := by
  induction xs generalizing s with
  | nil => exact absurd rfl hne
  | cons x xs ih =>
    rw [List.cons_append] at h
    cases xs with
    | nil =>
      cases h with
      | more hgood h hrest =>
        rename_i p
        refine ⟨p, by rw [feed, feed, h], ?_⟩
        cases hrest with
        | last hgood' h' => exact hgood' p rfl
        | more hgood' h' hrest' => exact hgood' p rfl
    | cons x' xs =>
      cases h with
      | more hgood h hrest =>
        obtain ⟨p, hp, haccepts⟩ := ih hrest (List.cons_ne_nil _ _)
        exact ⟨p, by rw [feed, h, ← hp], haccepts⟩

theorem between_or_within (h : encode t = xs ++ ys) :
    (∃ u v, t = u ++ v ∧ xs = encode u ∧ ys = encode v) ∨
      ∃ p b rest, (feed none xs).2 = some p ∧ ys = b :: rest ∧ p.accepts b = true := by
  induction t generalizing xs with
  | nil =>
    obtain ⟨rfl, rfl⟩ := List.append_eq_nil_iff.mp h.symm
    exact .inl ⟨[], [], rfl, rfl, rfl⟩
  | cons c t ih =>
    rw [encode, List.flatMap_cons, ← encode, List.append_eq_append_iff] at h
    obtain ⟨xs', rfl, hrest⟩ | ⟨ys', hchar, rfl⟩ := h
    · obtain ⟨u, v, rfl, rfl, rfl⟩ | ⟨p, b, rest, hp, rfl, haccepts⟩ := ih hrest
      · exact .inl ⟨c :: u, v, rfl, rfl, rfl⟩
      · refine .inr ⟨p, b, rest, ?_, rfl, haccepts⟩
        rw [feed_append, (spells_encodeChar c).feed_eq]
        exact hp
    · cases ys' with
      | nil =>
        rw [List.append_nil] at hchar
        exact .inl ⟨[c], t, rfl, by rw [← hchar]; exact (List.append_nil _).symm, rfl⟩
      | cons b ys' =>
        by_cases hne : xs = []
        · subst hne
          rw [List.nil_append] at hchar
          exact .inl ⟨[], c :: t, rfl, rfl, by rw [← hchar]; rfl⟩
        · obtain ⟨p, hp, haccepts⟩ := (hchar ▸ spells_encodeChar c).within hne
          exact .inr ⟨p, b, _, hp, rfl, haccepts⟩

def Whole (pieces : List (List UInt8)) : Prop := ∀ xs ∈ pieces, ∃ u, xs = encode u

theorem Whole.flatMap_decode {pieces : List (List UInt8)} (h : Whole pieces)
    (hpieces : pieces.flatten = encode t) : pieces.flatMap decode = t := by
  have hall : encode (pieces.flatMap decode) = pieces.flatten := by
    clear hpieces
    induction pieces with
    | nil => rfl
    | cons xs pieces ih =>
      obtain ⟨⟨u, rfl⟩, hrest⟩ := List.forall_mem_cons.mp h
      rw [List.flatMap_cons, encode_append, ih hrest, decode_encode, List.flatten_cons]
  rw [← decode_encode (pieces.flatMap decode), hall, hpieces, decode_encode]

/-- Decoded by themselves, pieces that cut a character have more replacement characters
than the text. -/
theorem replaced_lt_of_not_whole {pieces : List (List UInt8)} (h : ¬ Whole pieces)
    (hpieces : pieces.flatten = encode t) : replaced t < replaced (pieces.flatMap decode) := by
  induction pieces generalizing t with
  | nil => exact absurd (fun xs hxs => absurd hxs List.not_mem_nil) h
  | cons xs pieces ih =>
    rw [List.flatten_cons] at hpieces
    obtain ⟨u, v, rfl, rfl, hv⟩ | ⟨p, b, rest, hp, hrest, haccepts⟩ := between_or_within hpieces.symm
    · have hnot : ¬ Whole pieces := fun hwhole => h (List.forall_mem_cons.mpr ⟨⟨u, rfl⟩, hwhole⟩)
      rw [List.flatMap_cons, decode_encode, replaced_append, replaced_append]
      exact Nat.add_lt_add_left (ih hnot hv) _
    · have hcut := replaced_decodeFrom_cons p b rest fun s => replaced_decodeFrom_le s rest
      rw [if_pos haccepts, ← hrest] at hcut
      have hpieces' := replaced_decode_le pieces
      have hself : replaced (flush (some p)) = 1 := List.count_singleton_self
      have htext : t = (feed none xs).1 ++ decodeFrom (some p) pieces.flatten := by
        rw [← hp, ← decodeFrom_append, hpieces, ← decode, decode_encode]
      rw [htext, List.flatMap_cons, replaced_append, replaced_append, replaced_decode xs, hp, hself]
      omega

/-! ### Characters of one byte -/

def ascii (b : UInt8) : Char := Char.ofNat b.toNat

def substitute (b : UInt8) (xs bytes : List UInt8) : List UInt8 :=
  bytes.flatMap fun a => if a = b then xs else [a]

def substituteChar (b : UInt8) (xs : List UInt8) (t : List Char) : List Char :=
  t.flatMap fun c => if c = ascii b then xs.map ascii else [c]

/-- What is unfinished becomes no character of one byte. -/
def Pending.Wide (p : Pending) : Prop := 2 ≤ p.code ∨ p.left ≠ 0 ∧ (1 ≤ p.code ∨ 0x82 ≤ p.low)

variable {a : UInt8}

theorem ascii_toNat (hb : b.toNat < 0x80) : (ascii b).toNat = b.toNat := by
  have hvalid : b.toNat.isValidChar := .inl (by omega)
  rw [ascii, Char.ofNat, dif_pos hvalid]
  rfl

theorem ofNat_ne_ascii {n : ℕ} (hn : 0x80 ≤ n) (hb : 0 < b.toNat ∧ b.toNat < 0x80) :
    Char.ofNat n ≠ ascii b := by
  intro heq
  have hcode := ascii_toNat hb.2
  rw [← heq] at hcode
  by_cases hvalid : n.isValidChar
  · rw [Char.ofNat, dif_pos hvalid] at hcode
    change n = b.toNat at hcode
    omega
  · rw [Char.ofNat, dif_neg hvalid] at hcode
    change 0 = b.toNat at hcode
    omega

theorem ascii_injective (ha : a.toNat < 0x80) (hb : b.toNat < 0x80) (h : ascii a = ascii b) :
    a = b := by
  have hcode := congrArg Char.toNat h
  rw [ascii_toNat ha, ascii_toNat hb] at hcode
  exact UInt8.toNat_inj.mp hcode

theorem next_ascii (s : Option Pending) (hb : b.toNat < 0x80) :
    next s b = (flush s ++ [ascii b], none) := by
  have hfirst : first b = ([ascii b], none) := by rw [first, if_pos hb, ascii]
  cases s with
  | none => exact hfirst
  | some p =>
    have haccepts : ¬ p.accepts b = true := by
      rw [Pending.accepts, Bool.and_eq_true, decide_eq_true_eq]
      omega
    rw [next, if_neg haccepts, hfirst]
    rfl

theorem feed_ascii (hxs : ∀ x ∈ xs, x.toNat < 0x80) : feed none xs = (xs.map ascii, none) := by
  induction xs with
  | nil => rfl
  | cons x xs ih =>
    obtain ⟨hx, hxs⟩ := List.forall_mem_cons.mp hxs
    rw [feed, next_ascii none hx, ih hxs]
    rfl

theorem first_wide (hp : (first b).2 = some p) : p.Wide := by
  unfold first at hp
  split_ifs at hp <;> simp only [Option.some.injEq] at hp <;>
    rw [← hp, Pending.Wide] <;> simp only <;> omega

theorem first_chars (h : 0x80 ≤ b.toNat) : ∀ c ∈ (first b).1, c = replacement := by
  unfold first
  rw [if_neg (by omega)]
  split_ifs <;> simp

theorem next_wide (hs : ∀ q ∈ s, q.Wide) (hp : (next s b).2 = some p) : p.Wide := by
  cases s with
  | none => exact first_wide hp
  | some q =>
    rw [next] at hp
    split_ifs at hp with haccepts hleft
    · obtain rfl := Option.some.inj hp
      rw [Pending.accepts, Bool.and_eq_true, decide_eq_true_eq, decide_eq_true_eq] at haccepts
      have hwide := hs q rfl
      unfold Pending.Wide at hwide ⊢
      simp only
      omega
    · exact first_wide hp

theorem next_chars (hs : ∀ q ∈ s, q.Wide) (ha : 0x80 ≤ a.toNat)
    (hb : 0 < b.toNat ∧ b.toNat < 0x80) : ascii b ∉ (next s a).1 := by
  have hreplacement : replacement ≠ ascii b := ofNat_ne_ascii (by decide) hb
  have hfirst : ascii b ∉ (first a).1 := fun h => hreplacement (first_chars ha _ h).symm
  cases s with
  | none => exact hfirst
  | some q =>
    rw [next]
    split_ifs with haccepts hleft
    · rw [Pending.accepts, Bool.and_eq_true, decide_eq_true_eq, decide_eq_true_eq] at haccepts
      have hwide := hs q rfl
      unfold Pending.Wide at hwide
      intro h
      exact ofNat_ne_ascii (by omega) hb (List.mem_singleton.mp h).symm
    · exact List.not_mem_nil
    · intro h
      obtain h | h := List.mem_cons.mp h
      · exact hreplacement h.symm
      · exact hfirst h

theorem substituteChar_append (b : UInt8) (xs : List UInt8) (t u : List Char) :
    substituteChar b xs (t ++ u) = substituteChar b xs t ++ substituteChar b xs u :=
  List.flatMap_append

theorem substituteChar_of_notMem (h : ascii b ∉ t) : substituteChar b xs t = t := by
  induction t with
  | nil => rfl
  | cons c t ih =>
    have hc : c ≠ ascii b := fun heq => h (heq ▸ List.mem_cons_self)
    have ht : ascii b ∉ t := fun hmem => h (List.mem_cons_of_mem _ hmem)
    rw [substituteChar, List.flatMap_cons, if_neg hc, ← substituteChar, ih ht]
    rfl

theorem ascii_notMem_flush (hb : 0 < b.toNat ∧ b.toNat < 0x80) : ascii b ∉ flush s := by
  cases s with
  | none => exact List.not_mem_nil
  | some p =>
    intro h
    exact ofNat_ne_ascii (by decide) hb (List.mem_singleton.mp h).symm

theorem feed_substitute (hb : 0 < b.toNat ∧ b.toNat < 0x80) (hxs : ∀ x ∈ xs, x.toNat < 0x80)
    (hne : xs ≠ []) (hs : ∀ q ∈ s, q.Wide) : feed s (substitute b xs bytes) =
      (substituteChar b xs (feed s bytes).1, (feed s bytes).2) := by
  induction bytes generalizing s with
  | nil => rfl
  | cons a bytes ih =>
    have hrest := ih fun q hq => next_wide hs hq (b := a)
    rw [substitute, List.flatMap_cons, ← substitute, feed_append, feed, substituteChar_append]
    split_ifs with hab
    · obtain ⟨x, xs, rfl⟩ := List.exists_cons_of_ne_nil hne
      obtain ⟨hx, hxs'⟩ := List.forall_mem_cons.mp hxs
      rw [hab, next_ascii s hb.2] at hrest ⊢
      rw [feed, next_ascii s hx, feed_ascii hxs', hrest, substituteChar_append,
        substituteChar_of_notMem (ascii_notMem_flush hb)]
      simp [substituteChar]
    · have hchars : ascii b ∉ (next s a).1 := by
        by_cases ha : a.toNat < 0x80
        · rw [next_ascii s ha, List.mem_append, List.mem_singleton]
          rintro (h | h)
          · exact ascii_notMem_flush hb h
          · exact hab (ascii_injective ha hb.2 h.symm)
        · exact next_chars hs (by omega) hb
      rw [feed, feed, hrest, substituteChar_of_notMem hchars, List.append_nil]

theorem decode_substitute (hb : 0 < b.toNat ∧ b.toNat < 0x80) (hxs : ∀ x ∈ xs, x.toNat < 0x80)
    (hne : xs ≠ []) : decode (substitute b xs bytes) = substituteChar b xs (decode bytes) := by
  have hnone : ∀ q ∈ (none : Option Pending), q.Wide := fun q hq => absurd hq (Option.not_mem_none q)
  rw [decode, decodeFrom, feed_substitute hb hxs hne hnone, decode, decodeFrom,
    substituteChar_append, substituteChar_of_notMem (t := flush _) (ascii_notMem_flush hb)]

end Utf8
