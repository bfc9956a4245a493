import Mathlib.Data.List.Basic

/-! The bytes of a text: they are decoded to it, and the byte of a line break stands in no other
character. -/
namespace BundleMerge.Text

theorem toList_loop (bytes : ByteArray) (i : Nat) (read : List UInt8) :
    ByteArray.toList.loop bytes i read = read.reverse ++ bytes.data.toList.drop i := by
  fun_induction ByteArray.toList.loop bytes i read with
  | case1 i read inside ih =>
    have inside' : i < bytes.data.toList.length := inside
    rw [ih, List.drop_eq_getElem_cons inside', List.reverse_cons, List.append_assoc]
    simp [ByteArray.get!, inside]
  | case2 i read outside =>
    rw [List.drop_eq_nil_of_le (Nat.le_of_not_lt outside), List.append_nil]

theorem toList_bytes (bytes : ByteArray) : bytes.toList = bytes.data.toList := by
  simp [ByteArray.toList, toList_loop]

theorem toList_toUTF8 (text : String) :
    text.toUTF8.toList = text.toList.flatMap String.utf8EncodeChar := by
  conv => lhs; rw [← String.ofList_toList (s := text), String.toUTF8_eq_toByteArray]
  rw [toList_bytes]
  exact List.toList_data_toByteArray

theorem fromUTF8?_toUTF8 (text : String) : String.fromUTF8? text.toUTF8 = some text := by
  unfold String.fromUTF8?
  rw [String.toUTF8_eq_toByteArray, dif_pos text.isValidUTF8]
  rfl

/-- What characters are encoded to is decoded to them. -/
theorem fromUTF8?_flatMap (cs : List Char) :
    String.fromUTF8? ⟨(cs.flatMap String.utf8EncodeChar).toArray⟩ = some (String.ofList cs) := by
  have bytes : ⟨(cs.flatMap String.utf8EncodeChar).toArray⟩ = (String.ofList cs).toUTF8 := by
    refine ByteArray.ext (Array.ext' ?_)
    rw [← toList_bytes (String.ofList cs).toUTF8, toList_toUTF8, String.toList_ofList]
  rw [bytes, fromUTF8?_toUTF8]

theorem lineBreak_not_mem {c : Char} (other : c ≠ '\n') : 10 ∉ String.utf8EncodeChar c := by
  have code : c.val.toNat ≠ 10 := fun same => other (Char.ext (UInt32.toNat.inj same))
  have small : c.val.toNat < 1114112 := by
    obtain low | ⟨-, high⟩ := c.valid
    · exact Nat.lt_trans low (by decide)
    · exact high
  intro mem
  unfold String.utf8EncodeChar at mem
  dsimp only at mem
  generalize c.val.toNat = n at *
  split_ifs at mem <;>
    simp only [List.mem_cons, List.not_mem_nil, or_false, ← UInt8.toNat_inj, UInt8.toNat_ofNat',
      UInt8.reduceToNat] at mem <;>
    omega

end BundleMerge.Text
