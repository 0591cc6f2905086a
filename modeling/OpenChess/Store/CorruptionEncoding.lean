import OpenChess.Jobs.JsonInjective
import OpenChess.Lib.Separated
import OpenChess.Lib.UniqueDecoding
import OpenChess.Store.Corruption

/-!
# The canonical encoding read back

Every part of an encoding says with its first letter what it is and with a count where it
ends. Two encodings that agree up to what follows them are of the same value.
-/

namespace OpenChess
namespace Corruption

open Json (Same copy byKey)
open UniqueDecoding (ReadBack)

variable {v v' : Value} {t t' r s : Text} {letter letter' : Char} {n n' d d' : ℕ}

def Encodes (v : Value) (t : Text) : Prop := ∃ levels, encode levels v = some t

/-! ### Frames -/

theorem frame_append_inj (h : frame letter n ++ r = frame letter' n' ++ s) :
    letter = letter' ∧ n = n' ∧ r = s := by
  simp only [frame, List.cons_append, List.append_assoc, List.nil_append, List.cons.injEq] at h
  obtain ⟨hletter, h⟩ := h
  have hcolon : ∀ m : ℕ, ':' ∉ Nat.toDigits 10 m := Separated.notMem_toDigits (by decide)
  obtain ⟨hdigits, hrest⟩ := Separated.append_cons_inj (hcolon n) (hcolon n') h
  exact ⟨hletter, Separated.toDigits_injective hdigits, hrest⟩

theorem append_inj_of_utf8Length (h : t ++ r = t' ++ s) (hlength : utf8Length t = utf8Length t') :
    t = t' ∧ r = s := by
  induction t generalizing t' with
  | nil =>
    cases t' with
    | nil => exact ⟨rfl, h⟩
    | cons c t' =>
      have hpos := Char.utf8Size_pos c
      simp only [utf8Length, List.map_nil, List.sum_nil, List.map_cons, List.sum_cons] at hlength
      omega
  | cons c t ih =>
    cases t' with
    | nil =>
      have hpos := Char.utf8Size_pos c
      simp only [utf8Length, List.map_nil, List.sum_nil, List.map_cons, List.sum_cons] at hlength
      omega
    | cons c' t' =>
      obtain ⟨rfl, htail⟩ := List.cons.inj h
      simp only [utf8Length, List.map_cons, List.sum_cons, Nat.add_left_cancel_iff] at hlength
      obtain ⟨rfl, hrest⟩ := ih htail hlength
      exact ⟨rfl, hrest⟩

theorem encodeText_append_inj (h : encodeText t ++ r = encodeText t' ++ s) : t = t' ∧ r = s := by
  rw [encodeText, encodeText, List.append_assoc, List.append_assoc] at h
  obtain ⟨-, hlength, h⟩ := frame_append_inj h
  exact append_inj_of_utf8Length h hlength

/-! ### The kinds of values -/

/-- An encoded integer, text, list or dictionary, with its parts. -/
inductive Shape : Value → Text → Prop
  | null : Shape .null ['n']
  | bool (b : Bool) : Shape (.bool b) [if b then 't' else 'f']
  | int (n : ℤ) : Shape (.int n) (frame 'i' (intText n).length ++ intText n)
  | str (t : Text) : Shape (.str t) (encodeText t)
  | list (items : List Value) (parts : List Text) (h : List.Forall₂ Encodes items parts) :
    Shape (.list items) (frame 'l' items.length ++ parts.flatten)
  | dict (members : List (Text × Value)) (parts : List Text)
    (hnodup : (members.map Prod.fst).Nodup)
    (h : List.Forall₂ (fun e part => ∃ t, Encodes e.2 t ∧ part = encodeText e.1 ++ t)
      (byKey members) parts) :
    Shape (Value.ofMembers members) (frame 'd' members.length ++ parts.flatten)

theorem shape_of_encode (h : encode d v = some t) : Shape v t := by
  cases d with
  | zero => cases h
  | succ levels =>
    cases v with
    | null =>
      obtain rfl := Option.some.inj h
      exact .null
    | bool b =>
      obtain rfl := Option.some.inj h
      exact .bool b
    | int n =>
      rw [encode] at h
      split_ifs at h
      obtain rfl := Option.some.inj h
      exact .int n
    | float finite text => cases h
    | str text =>
      obtain rfl := Option.some.inj h
      exact .str text
    | list items =>
      rw [encode] at h
      obtain ⟨parts, hparts, rfl⟩ := Option.map_eq_some_iff.mp h
      exact .list items parts
        ((Separated.forall₂_of_mapM hparts).imp fun _ _ hpart => ⟨levels, hpart⟩)
    | dict entries =>
      rw [encode] at h
      split at h
      · cases h
      · rename_i members hmembers
        obtain ⟨parts, hparts, rfl⟩ := Option.map_eq_some_iff.mp h
        rw [Value.members?_dict hmembers]
        refine .dict members parts (Value.members?_nodup hmembers)
          ((Separated.forall₂_of_mapM hparts).imp fun e part hpart => ?_)
        obtain ⟨t, ht, rfl⟩ := Option.map_eq_some_iff.mp hpart
        exact ⟨t, ⟨levels, ht⟩, rfl⟩
    | foreign tag => cases h

/-- The first letter of an encoding. -/
def tag : Value → Char
  | .null => 'n'
  | .bool b => if b then 't' else 'f'
  | .int _ => 'i'
  | .str _ => 's'
  | .list _ => 'l'
  | .dict _ => 'd'
  | .float .. | .foreign _ => '-'

theorem Shape.head (h : Shape v t) : ∃ rest, t = tag v :: rest := by
  cases h with
  | null => exact ⟨_, rfl⟩
  | bool b => exact ⟨_, rfl⟩
  | int n => exact ⟨_, rfl⟩
  | str t => exact ⟨_, rfl⟩
  | list items parts h => exact ⟨_, rfl⟩
  | dict members parts hnodup h => exact ⟨_, rfl⟩

/-- Members are told apart when their values are. -/
theorem readBack_member {e : Text × Value}
    (h : ReadBack Encodes (fun _ => True) Same e.2) :
    ReadBack (fun e part => ∃ t, Encodes e.2 t ∧ part = encodeText e.1 ++ t) (fun _ => True)
      (fun e e' => e.1 = e'.1 ∧ Same e.2 e'.2) e := by
  rintro e' _ _ r s ⟨t, ht, rfl⟩ ⟨t', ht', rfl⟩ - - heq
  rw [List.append_assoc, List.append_assoc] at heq
  obtain ⟨hkey, heq⟩ := encodeText_append_inj heq
  obtain ⟨hvalue, hrest⟩ := h ht ht' trivial trivial heq
  exact ⟨⟨hkey, hvalue⟩, hrest⟩

theorem same_of_byKey {members members' : List (Text × Value)}
    (h : List.Forall₂ (fun e e' => e.1 = e'.1 ∧ Same e.2 e'.2) (byKey members) (byKey members')) :
    Same (Value.ofMembers members) (Value.ofMembers members') := by
  rw [Same, Json.copy_ofMembers, Json.copy_ofMembers, Json.ofMembers_inj,
    ← List.forall₂_eq_eq_eq, List.forall₂_map_left_iff, List.forall₂_map_right_iff]
  exact h.imp fun e e' he => Prod.ext he.1 he.2

theorem tag_eq_of_append (hx : encode d v = some t) (hy : encode d' v' = some t')
    (h : t ++ r = t' ++ s) : tag v = tag v' := by
  obtain ⟨rest, rfl⟩ := (shape_of_encode hx).head
  obtain ⟨rest', rfl⟩ := (shape_of_encode hy).head
  exact (List.cons.inj h).1

theorem Shape.exists_items (h : Shape v t) (htag : tag v = 'l') :
    ∃ items parts, v = .list items ∧ t = frame 'l' items.length ++ parts.flatten ∧
      List.Forall₂ Encodes items parts := by
  cases h with
  | list items parts h => exact ⟨items, parts, rfl, rfl, h⟩
  | bool b => cases b <;> simp [tag] at htag
  | _ => simp [tag, Value.ofMembers] at htag

theorem Shape.exists_members (h : Shape v t) (htag : tag v = 'd') :
    ∃ members parts, v = Value.ofMembers members ∧
      t = frame 'd' members.length ++ parts.flatten ∧
      List.Forall₂ (fun e part => ∃ t, Encodes e.2 t ∧ part = encodeText e.1 ++ t)
        (byKey members) parts := by
  cases h with
  | dict members parts hnodup h => exact ⟨members, parts, rfl, rfl, h⟩
  | bool b => cases b <;> simp [tag] at htag
  | _ => simp [tag] at htag

theorem readBack_leaf (hlist : ∀ items, v ≠ .list items) (hdict : ∀ entries, v ≠ .dict entries) :
    ReadBack Encodes (fun _ => True) Same v := by
  rintro b x y r s ⟨d, hx⟩ ⟨d', hy⟩ - - heq
  have htag := tag_eq_of_append hx hy heq
  have hshape' := shape_of_encode hy
  cases shape_of_encode hx with
  | null =>
    cases hshape' with
    | null => exact ⟨rfl, (List.cons.inj heq).2⟩
    | bool b => cases b <;> simp [tag] at htag
    | _ => simp [tag, Value.ofMembers] at htag
  | bool b =>
    cases hshape' with
    | bool b' =>
      obtain rfl : b = b' := by
        cases b <;> cases b' <;> simp [tag] at htag ⊢
      exact ⟨rfl, (List.cons.inj heq).2⟩
    | _ => cases b <;> simp [tag, Value.ofMembers] at htag
  | int n =>
    cases hshape' with
    | int n' =>
      rw [List.append_assoc, List.append_assoc] at heq
      obtain ⟨-, hlength, heq⟩ := frame_append_inj heq
      obtain ⟨htext, hrest⟩ := List.append_inj heq hlength
      rw [intText_injective htext]
      exact ⟨rfl, hrest⟩
    | bool b => cases b <;> simp [tag] at htag
    | _ => simp [tag, Value.ofMembers] at htag
  | str t =>
    cases hshape' with
    | str t' =>
      obtain ⟨rfl, hrest⟩ := encodeText_append_inj heq
      exact ⟨rfl, hrest⟩
    | bool b => cases b <;> simp [tag] at htag
    | _ => simp [tag, Value.ofMembers] at htag
  | list items parts h => exact absurd rfl (hlist items)
  | dict members parts hnodup h => exact absurd rfl (hdict _)

theorem readBack_list {items : List Value} (ih : ∀ x ∈ items, ReadBack Encodes (fun _ => True) Same x) :
    ReadBack Encodes (fun _ => True) Same (.list items) := by
  rintro b x y r s ⟨d, hx⟩ ⟨d', hy⟩ - - heq
  have htag := tag_eq_of_append hx hy heq
  obtain ⟨_, parts, hself, rfl, hparts⟩ := (shape_of_encode hx).exists_items rfl
  cases hself
  obtain ⟨items', parts', rfl, rfl, hparts'⟩ := (shape_of_encode hy).exists_items htag.symm
  rw [List.append_assoc, List.append_assoc] at heq
  obtain ⟨-, hlength, heq⟩ := frame_append_inj heq
  obtain ⟨hitems, hrest⟩ := ReadBack.flatten ih hparts hparts' hlength heq
  exact ⟨Json.same_list_iff.mpr hitems, hrest⟩

theorem readBack_dict {entries : List (Scalar × Value)}
    (ih : ∀ e ∈ entries, ReadBack Encodes (fun _ => True) Same e.2) :
    ReadBack Encodes (fun _ => True) Same (.dict entries) := by
  rintro b x y r s ⟨d, hx⟩ ⟨d', hy⟩ - - heq
  have htag := tag_eq_of_append hx hy heq
  obtain ⟨members, parts, hself, rfl, hparts⟩ := (shape_of_encode hx).exists_members rfl
  cases hself
  obtain ⟨members', parts', rfl, rfl, hparts'⟩ := (shape_of_encode hy).exists_members htag.symm
  have hread : ∀ e ∈ byKey members, ReadBack _ _ _ e := fun e he => readBack_member
    (ih (.str e.1, e.2) (List.mem_map_of_mem ((Json.perm_byKey members).subset he)))
  rw [List.append_assoc, List.append_assoc] at heq
  obtain ⟨-, hlength, heq⟩ := frame_append_inj heq
  have hcount : (byKey members).length = (byKey members').length := by
    rw [(Json.perm_byKey members).length_eq, (Json.perm_byKey members').length_eq, hlength]
  obtain ⟨hmembers, hrest⟩ := ReadBack.flatten hread hparts hparts' hcount heq
  exact ⟨same_of_byKey hmembers, hrest⟩

/-- An encoding tells its value from every other one, whatever follows it. -/
theorem readBack_encode (v : Value) : ReadBack Encodes (fun _ => True) Same v := by
  induction v using Value.induction with
  | hatom v hlist hdict => exact readBack_leaf hlist hdict
  | hlist items ih => exact readBack_list ih
  | hdict entries ih => exact readBack_dict ih

theorem same_of_encode (h : encode d v = some t) (h' : encode d' v' = some t) : Same v v' :=
  (readBack_encode v (r := []) (s := []) ⟨d, h⟩ ⟨d', h'⟩ trivial trivial rfl).1

end Corruption
end OpenChess
