import MarkupScene.Text.Dictionary
import Mathlib.Tactic.SplitIfs

/-!
# The order of texts by their bytes

Texts are ordered by the code points of their characters. Their UTF-8 bytes are in the same order:
of two characters the one with the smaller code point has the smaller byte where their encodings
differ first, and no encoding is the beginning of another.
-/
namespace MarkupScene.Text

/-- The bytes that a text is stored as. -/
def bytes (s : String) : List UInt8 := s.toUTF8.data.toList

theorem bytes_eq (s : String) : bytes s = s.toList.flatMap String.utf8EncodeChar := by
  have hencode : s.toUTF8 = s.toList.utf8Encode := String.utf8Encode_toList.symm
  rw [bytes, hencode, List.utf8Encode, List.data_toByteArray]

theorem quotient_lt_or {v w : Nat} (base : Nat) (h : v < w) :
    v / base < w / base ∨ v / base = w / base ∧ v % base < w % base := by
  have hv := Nat.div_add_mod v base
  have hw := Nat.div_add_mod w base
  rcases Nat.lt_or_eq_of_le (Nat.div_le_div_right (c := base) (Nat.le_of_lt h)) with hlt | heq
  · exact .inl hlt
  · rw [heq] at hv
    exact .inr ⟨heq, by omega⟩

/-- A smaller character is told from a greater one by its bytes, whatever follows. -/
theorem utf8EncodeChar_append_lt {c d : Char} (h : c < d) (s t : List UInt8) :
    String.utf8EncodeChar c ++ s < String.utf8EncodeChar d ++ t := by
  have hvalue : c.val.toNat < d.val.toNat := h
  have hbound : d.val.toNat < 1114112 := by
    have := d.valid
    simp only [UInt32.isValidChar, Nat.isValidChar] at this
    omega
  unfold String.utf8EncodeChar
  generalize c.val.toNat = v at hvalue ⊢
  generalize d.val.toNat = w at hvalue hbound ⊢
  -- The bytes are digits to the base 64, so the greatest digit that differs decides.
  have hlow := quotient_lt_or 64 hvalue
  have hmiddle := fun h : v / 64 < w / 64 => quotient_lt_or 64 h
  have hhigh := fun h : v / 4096 < w / 4096 => quotient_lt_or 64 h
  simp only [Nat.div_div_eq_div_mul, Nat.reduceMul] at hmiddle hhigh
  dsimp only
  split_ifs <;>
    simp (disch := omega) only [List.cons_append, List.nil_append, List.cons_lt_cons_iff,
      UInt8.lt_iff_toNat_lt, ← UInt8.toNat_inj, UInt8.toNat_ofNat', Nat.reducePow,
      Nat.mod_eq_of_lt] <;>
    omega

theorem flatMap_utf8EncodeChar_lt {s t : List Char} (h : s < t) :
    s.flatMap String.utf8EncodeChar < t.flatMap String.utf8EncodeChar := by
  induction h with
  | @nil d t =>
    rw [List.flatMap_nil, List.flatMap_cons]
    obtain ⟨b, more, hb⟩ := List.exists_cons_of_ne_nil (String.utf8EncodeChar_ne_nil (c := d))
    rw [hb]
    exact List.nil_lt_cons _ _
  | @rel c s d t hcd =>
    rw [List.flatMap_cons, List.flatMap_cons]
    exact utf8EncodeChar_append_lt hcd _ _
  | @cons c s t _ ih =>
    rw [List.flatMap_cons, List.flatMap_cons]
    exact List.append_left_lt ih

theorem lt_iff_bytes_lt {s t : String} : s < t ↔ bytes s < bytes t := by
  have himp : ∀ {s t : String}, s < t → bytes s < bytes t := fun h => by
    rw [bytes_eq, bytes_eq]
    exact flatMap_utf8EncodeChar_lt h
  refine ⟨himp, fun h => ?_⟩
  rcases Decidable.em (s < t) with hlt | hnot
  · exact hlt
  · rcases Decidable.em (t < s) with hgt | hnot'
    · exact absurd (himp hgt) (List.lt_asymm h)
    · obtain rfl : s = t := Std.le_antisymm (String.not_lt.1 hnot') (String.not_lt.1 hnot)
      exact absurd h (List.lt_irrefl _)

end MarkupScene.Text
