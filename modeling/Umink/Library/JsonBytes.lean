import Umink.Library.CString
import Umink.Library.JsonC
import Umink.Library.JsonText

/-!
# The C strings of JSON values

json-c keeps a string in UTF-8, with its length and a NUL behind it, and hands out a
pointer to its first byte. A program that reads a C string there sees the bytes
before the first NUL.
-/

namespace Umink.Library

open Json (utf8Encode)

section Encoding

theorem zero_ne_ofNat {n : Nat} (hpos : 0 < n) (hlt : n < 256) : 0 ≠ UInt8.ofNat n := by
  intro h
  have hval := congrArg UInt8.toNat h
  rw [UInt8.toNat_ofNat_of_lt' hlt] at hval
  exact Nat.ne_of_lt hpos hval

/-- Only NUL is encoded with a zero byte. -/
theorem zero_notMem_utf8EncodeChar {c : Char} (h : c ≠ '\x00') :
    0 ∉ String.utf8EncodeChar c := by
  have hpos : 0 < c.val.toNat := by
    apply Nat.pos_of_ne_zero
    intro hzero
    exact h (Char.ext (UInt32.toNat_inj.mp hzero))
  fun_cases String.utf8EncodeChar c <;>
    simp only [List.mem_cons, List.not_mem_nil, or_false, not_or]
  · exact zero_ne_ofNat hpos (by omega)
  · refine ⟨zero_ne_ofNat ?_ ?_, zero_ne_ofNat ?_ ?_⟩ <;> omega
  · refine ⟨zero_ne_ofNat ?_ ?_, zero_ne_ofNat ?_ ?_, zero_ne_ofNat ?_ ?_⟩ <;> omega
  · refine ⟨zero_ne_ofNat ?_ ?_, zero_ne_ofNat ?_ ?_, zero_ne_ofNat ?_ ?_,
      zero_ne_ofNat ?_ ?_⟩ <;> omega

theorem zero_mem_utf8Encode_iff {cs : List Char} : 0 ∈ utf8Encode cs ↔ '\x00' ∈ cs := by
  rw [utf8Encode, List.mem_flatMap]
  constructor
  · rintro ⟨c, hc, hzero⟩
    by_contra hnul
    exact zero_notMem_utf8EncodeChar (fun heq => hnul (heq ▸ hc)) hzero
  · exact fun h => ⟨'\x00', h, List.mem_cons_self⟩

/-- The bytes before the first zero byte are those of the characters before NUL. -/
theorem utf8Encode_takeWhile (cs : List Char) :
    utf8Encode (cs.takeWhile (· ≠ '\x00')) = (utf8Encode cs).takeWhile (· ≠ 0) := by
  induction cs with
  | nil => rfl
  | cons c cs ih =>
      have hcons : utf8Encode (c :: cs) = String.utf8EncodeChar c ++ utf8Encode cs :=
        List.flatMap_cons
      by_cases hc : c = '\x00'
      · rw [hc, List.takeWhile_cons_of_neg (by simp)]
        rfl
      · have hbytes : ∀ b ∈ String.utf8EncodeChar c, decide (b ≠ 0) = true := fun b hb =>
          decide_eq_true fun hzero : b = 0 => zero_notMem_utf8EncodeChar hc (hzero ▸ hb)
        rw [List.takeWhile_cons_of_pos (by simpa using hc), hcons,
          List.takeWhile_append_of_pos hbytes, ← ih]
        exact List.flatMap_cons

theorem utf8Encode_length (s : String) : (utf8Encode s.toList).length = s.utf8ByteSize := by
  rw [← String.size_toByteArray]
  conv_rhs => rw [← String.ofList_toList (s := s)]
  rw [String.toByteArray_ofList, List.utf8Encode, utf8Encode, List.size_toByteArray]

end Encoding

/-- What a program sees at the first byte of a string. -/
def CStr.ofText (s : String) : CStr := ofBytes (utf8Encode s.toList)

theorem CStr.bytes_ofText (s : String) : (ofText s).bytes = utf8Encode (cText s).toList := by
  rw [cText, String.toList_ofList, utf8Encode_takeWhile]
  rfl

theorem CStr.ofText_cText (s : String) : ofText (cText s) = ofText s := by
  apply CStr.ext
  rw [bytes_ofText, bytes_ofText, cText, cText, String.toList_ofList, String.toList_ofList,
    List.takeWhile_idem]

/-- The C string is the whole text exactly when the text has no NUL. -/
theorem CStr.bytes_ofText_eq_iff {s : String} :
    (ofText s).bytes = utf8Encode s.toList ↔ '\x00' ∉ s.toList := by
  constructor
  · intro h hnul
    have hzero := zero_mem_utf8Encode_iff.mpr hnul
    rw [← h] at hzero
    exact (ofText s).noNul hzero
  · intro h
    rw [bytes_ofText, cText, String.toList_ofList, List.takeWhile_eq_self_iff.mpr]
    exact fun c hc => decide_eq_true fun heq : c = '\x00' => h (heq ▸ hc)

/-- `json_object_get_string`, in bytes. -/
def JsonC.cString (c : JsonC) (j : Json) : CStr := CStr.ofText (c.getString j)

theorem JsonC.cString_str (c : JsonC) (s : String) : c.cString (.str s) = CStr.ofText s :=
  CStr.ofText_cText s

end Umink.Library
