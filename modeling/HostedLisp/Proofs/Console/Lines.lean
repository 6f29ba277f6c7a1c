import HostedLisp.Console
import Mathlib

/-!
# The lines of a text

An input is cut into lines byte by byte, and each line is decoded by itself. For an input that is
an encoded text this comes to the same as cutting the text character by character: a line feed is
one byte, and no other character has that byte in its encoding.

* `textLines` -- the lines of a text;
* `pieces_cases` -- the pieces of a list, one at a time;
* `linesOf_toUTF8` -- **the lines of an encoded text are the lines of the text**.
-/

namespace HostedLisp.Console

/-! ## 1. Pieces -/

section Pieces

variable {α : Type} [DecidableEq α] {mark : α}

/-- What stands before the first mark belongs to the first piece. -/
theorem pieces_append {as : List α} (h : mark ∉ as) (hne : as ≠ []) (rest : List α) :
    pieces mark (as ++ rest)
      = match pieces mark rest with
        | [] => [as]
        | p :: ps => (as ++ p) :: ps := by
  induction as with
  | nil => exact absurd rfl hne
  | cons a as ih =>
    have ha : a ≠ mark := fun e => h (e ▸ List.mem_cons_self)
    rw [List.cons_append, pieces, if_neg ha]
    by_cases has : as = []
    · subst has
      rw [List.nil_append]
      cases pieces mark rest <;> rfl
    · rw [ih (fun hm => h (List.mem_cons_of_mem a hm)) has]
      cases pieces mark rest <;> rfl

theorem pieces_append_mark {as : List α} (h : mark ∉ as) (rest : List α) :
    pieces mark (as ++ mark :: rest) = as :: pieces mark rest := by
  have hmark : pieces mark (mark :: rest) = [] :: pieces mark rest := by
    rw [pieces, if_pos rfl]
  by_cases has : as = []
  · subst has
    exact hmark
  · rw [pieces_append h has, hmark]
    simp

/-- **The pieces of a list, one at a time**: there is nothing left, or the first piece ends at a
    mark, or it is the last. -/
theorem pieces_cases (mark : α) (as : List α) :
    pieces mark as = [] ∧ as = [] ∨
    (∃ p rest, mark ∉ p ∧ as = p ++ mark :: rest ∧ pieces mark as = p :: pieces mark rest) ∨
    (mark ∉ as ∧ pieces mark as = [as]) := by
  by_cases hm : mark ∈ as
  · obtain ⟨p, rest, rfl, hp⟩ := List.eq_append_cons_of_mem hm
    exact .inr (.inl ⟨p, rest, hp, rfl, pieces_append_mark hp rest⟩)
  · by_cases hne : as = []
    · subst hne
      exact .inl ⟨rfl, rfl⟩
    · have hlast := pieces_append hm hne []
      rw [List.append_nil] at hlast
      exact .inr (.inr ⟨hm, hlast⟩)

end Pieces

/-! ## 2. Encoded texts -/

/-- No character but the line feed has its byte. -/
theorem newline_not_mem_utf8EncodeChar {c : Char} (h : c ≠ '\n') :
    (10 : UInt8) ∉ String.utf8EncodeChar c := by
  have hc : c.val.toNat ≠ 10 := fun e => h (Char.ext (UInt32.toNat_inj.1 e))
  have hbyte : ∀ n : Nat, n % 256 ≠ 10 → (10 : UInt8) ≠ UInt8.ofNat n := by
    intro n hn e
    have he := congrArg UInt8.toNat e
    rw [UInt8.toNat_ofNat'] at he
    exact hn he.symm
  -- the bytes of longer encodings are all above 127
  simp only [String.utf8EncodeChar]
  split
  · simp only [List.mem_singleton]
    exact hbyte _ (by omega)
  · split
    · simp only [List.mem_cons, List.not_mem_nil, or_false, not_or]
      exact ⟨hbyte _ (by omega), hbyte _ (by omega)⟩
    · split
      · simp only [List.mem_cons, List.not_mem_nil, or_false, not_or]
        exact ⟨hbyte _ (by omega), hbyte _ (by omega), hbyte _ (by omega)⟩
      · simp only [List.mem_cons, List.not_mem_nil, or_false, not_or]
        exact ⟨hbyte _ (by omega), hbyte _ (by omega), hbyte _ (by omega), hbyte _ (by omega)⟩

theorem utf8EncodeChar_ne_nil (c : Char) : String.utf8EncodeChar c ≠ [] := by
  simp only [String.utf8EncodeChar]
  repeat' split
  all_goals exact nofun

/-- Cutting the encoded text gives the encoded pieces. -/
theorem pieces_flatMap_utf8EncodeChar (cs : List Char) :
    pieces 10 (cs.flatMap String.utf8EncodeChar)
      = (pieces '\n' cs).map (List.flatMap String.utf8EncodeChar) := by
  induction cs with
  | nil => rfl
  | cons c cs ih =>
    rw [List.flatMap_cons]
    by_cases hc : c = '\n'
    · subst hc
      have hbyte : String.utf8EncodeChar '\n' = [10] := rfl
      rw [hbyte, List.singleton_append, pieces, pieces, if_pos rfl, if_pos rfl, ih]
      rfl
    · rw [pieces_append (newline_not_mem_utf8EncodeChar hc) (utf8EncodeChar_ne_nil c), ih, pieces,
        if_neg hc]
      cases pieces '\n' cs <;> simp

/-- The bytes that are read from the `i`-th on, behind those that were read before. -/
theorem toList_loop_eq (bytes : ByteArray) (i : Nat) (before : List UInt8) :
    ByteArray.toList.loop bytes i before = before.reverse ++ bytes.data.toList.drop i := by
  fun_induction ByteArray.toList.loop bytes i before with
  | case1 i before hi ih =>
    have hlt : i < bytes.data.toList.length := by simpa using hi
    rw [ih, List.drop_eq_getElem_cons hlt]
    simp [ByteArray.get!, hi]
  | case2 i before hi =>
    have hle : bytes.data.toList.length ≤ i := by simpa using Nat.le_of_not_lt hi
    rw [List.drop_eq_nil_of_le hle, List.append_nil]

theorem toList_toUTF8 (text : String) :
    text.toUTF8.toList = text.toList.flatMap String.utf8EncodeChar := by
  have hbytes : text.toUTF8.data.toList = text.toList.flatMap String.utf8EncodeChar := by
    conv => lhs; rw [← String.ofList_toList (s := text)]
    exact List.toList_data_toByteArray
  rw [ByteArray.toList, toList_loop_eq, hbytes]
  rfl

/-- Decoding undoes encoding. -/
theorem fromUTF8?_flatMap (cs : List Char) :
    String.fromUTF8? ⟨(cs.flatMap String.utf8EncodeChar).toArray⟩ = some (String.ofList cs) := by
  have hbytes : (⟨(cs.flatMap String.utf8EncodeChar).toArray⟩ : ByteArray)
      = (String.ofList cs).toByteArray :=
    ByteArray.ext List.data_toByteArray.symm
  rw [hbytes, String.fromUTF8?, dif_pos (String.ofList cs).isValidUTF8]
  rfl

/-! ## 3. Lines -/

/-- The lines of a text. -/
def textLines (text : String) : List String :=
  (pieces '\n' text.toList).map fun cs => dropReturn (String.ofList cs)

/-- **The lines of an encoded text are the lines of the text.** -/
theorem linesOf_toUTF8 (text : String) : linesOf text.toUTF8 = (textLines text).map some := by
  rw [linesOf, toList_toUTF8, pieces_flatMap_utf8EncodeChar, textLines, List.map_map, List.map_map]
  refine List.map_congr_left fun cs _ => ?_
  show (String.fromUTF8? ⟨(cs.flatMap String.utf8EncodeChar).toArray⟩).map dropReturn = _
  rw [fromUTF8?_flatMap]
  rfl

end HostedLisp.Console
