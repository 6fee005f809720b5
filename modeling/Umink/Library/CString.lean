import Mathlib.Data.List.Basic
import Mathlib.Data.List.TakeWhile
import Mathlib.Tactic.Common

/-!
# C strings and fixed buffers

The bytes of a string before its NUL, and what `snprintf` with the format `"%s"`
leaves of a string in a buffer of fixed size.
-/

namespace Umink.Library

/-- A C string. -/
@[ext]
structure CStr where
  bytes : List UInt8
  noNul : 0 ∉ bytes
  deriving DecidableEq

namespace CStr

/-- `strlen`. -/
def length (s : CStr) : Nat := s.bytes.length

/-- The empty string. -/
def empty : CStr := ⟨[], List.not_mem_nil⟩

/-- The string with a character for each byte. -/
def text (s : CStr) : String := String.ofList (s.bytes.map fun b => Char.ofNat b.toNat)

/-- The string of a literal whose characters are bytes. -/
def ascii (s : String) (h : 0 ∉ s.toList.map fun c => UInt8.ofNat c.toNat) : CStr := ⟨_, h⟩

instance : Append CStr :=
  ⟨fun s t => ⟨s.bytes ++ t.bytes, fun h => (List.mem_append.mp h).elim s.noNul t.noNul⟩⟩

theorem bytes_append (s t : CStr) : (s ++ t).bytes = s.bytes ++ t.bytes := rfl

theorem length_append (s t : CStr) : (s ++ t).length = s.length + t.length := List.length_append

theorem toList_text (s : CStr) : s.text.toList = s.bytes.map fun b => Char.ofNat b.toNat :=
  String.toList_ofList

theorem text_append (s t : CStr) : (s ++ t).text = s.text ++ t.text := by
  rw [text, bytes_append, List.map_append, String.ofList_append]
  rfl

/-- A byte is the code of its character. -/
theorem toNat_byteChar (b : UInt8) : (Char.ofNat b.toNat).toNat = b.toNat := by
  have hvalid : b.toNat.isValidChar := Or.inl (Nat.lt_trans b.toNat_lt (by decide))
  rw [Char.ofNat, dif_pos hvalid]
  rfl

theorem text_inj {s t : CStr} (h : s.text = t.text) : s = t := by
  have hchar : Function.Injective fun b : UInt8 => Char.ofNat b.toNat := fun b b' heq => by
    rw [← UInt8.toNat_inj, ← toNat_byteChar b, ← toNat_byteChar b']
    exact congrArg Char.toNat heq
  apply CStr.ext
  apply List.map_injective_iff.mpr hchar
  rw [← toList_text, ← toList_text, h]

theorem empty_length : empty.length = 0 := rfl

theorem empty_append (s : CStr) : empty ++ s = s := rfl

theorem append_empty (s : CStr) : s ++ empty = s := CStr.ext (List.append_nil s.bytes)

/-- The string that starts at the first of some bytes. -/
def ofBytes (bs : List UInt8) : CStr :=
  ⟨bs.takeWhile (· ≠ 0), fun h => by simpa using List.mem_takeWhile_imp h⟩

theorem ofBytes_append_nul (s : CStr) (rest : List UInt8) : ofBytes (s.bytes ++ 0 :: rest) = s := by
  have hbytes : ∀ b ∈ s.bytes, decide (b ≠ 0) = true := fun b hb =>
    decide_eq_true fun hzero : b = 0 => s.noNul (hzero ▸ hb)
  apply CStr.ext
  change (s.bytes ++ 0 :: rest).takeWhile (· ≠ 0) = s.bytes
  rw [List.takeWhile_append_of_pos hbytes, List.takeWhile_cons_of_neg (by simp), List.append_nil]

/-- The string that consists of one byte only. -/
def replicate (n : Nat) (b : UInt8) (hb : 0 ≠ b) : CStr :=
  ⟨List.replicate n b, fun h => hb (List.eq_of_mem_replicate h)⟩

end CStr

/-- The contents of a `char` array of size `n` that holds a string. -/
def CharBuf (n : Nat) : Type := { s : CStr // s.length < n }

instance (n : Nat) : DecidableEq (CharBuf n) :=
  inferInstanceAs (DecidableEq { s : CStr // s.length < n })

/-- `snprintf(buf, n, "%s", s)`. -/
def snprintfStr {n : Nat} (hn : 0 < n) (s : CStr) : CharBuf n :=
  ⟨⟨s.bytes.take (n - 1), fun h => s.noNul (List.mem_of_mem_take h)⟩, by
    rw [CStr.length, List.length_take]
    omega⟩

/-- The buffer holds the whole string exactly when it and its NUL fit. -/
theorem snprintfStr_eq_iff {n : Nat} (hn : 0 < n) (s : CStr) :
    (snprintfStr hn s).1 = s ↔ s.length < n := by
  constructor
  · intro h
    rw [← h]
    exact (snprintfStr hn s).2
  · intro h
    obtain ⟨bytes, noNul⟩ := s
    rw [CStr.length] at h
    rw [snprintfStr, CStr.mk.injEq, List.take_of_length_le (by omega)]

section Fields

variable {α : Type*} {d : α} {a n n' s s' : List α} {m : Nat}

/-- After the field that a separator ends there is no further separator. -/
theorem getElem?_field_ne (hs : d ∉ s) {i : Nat} (hi : (a ++ n).length < i) :
    (a ++ n ++ d :: s)[i]? ≠ some d := by
  intro h
  rw [List.getElem?_append_right (Nat.le_of_lt hi)] at h
  obtain ⟨j, hj⟩ := Nat.exists_eq_add_of_lt hi
  rw [hj, Nat.add_assoc, Nat.add_sub_cancel_left, List.getElem?_cons_succ] at h
  exact hs (List.mem_of_getElem? h)

theorem length_le_of_take_field_eq (hs : d ∉ s) (hm' : (a ++ n').length < m)
    (h : (a ++ n ++ d :: s).take m = (a ++ n' ++ d :: s').take m) : n'.length ≤ n.length := by
  by_contra hlt
  have hpos : (a ++ n).length < (a ++ n').length := by
    simp only [List.length_append]
    omega
  have hat := congrArg (fun l => l[(a ++ n').length]?) h
  simp only [List.getElem?_take, hm', if_true] at hat
  apply getElem?_field_ne hs hpos
  rw [hat, List.getElem?_append_right (Nat.le_refl _), Nat.sub_self]
  rfl

/-- Two texts of a field, a separator and a word without separators agree in a buffer
that holds their separators only if the fields and the first letters of the words in the
buffer do. -/
theorem take_field_inj (hs : d ∉ s) (hs' : d ∉ s') (hm : (a ++ n).length < m)
    (hm' : (a ++ n').length < m)
    (h : (a ++ n ++ d :: s).take m = (a ++ n' ++ d :: s').take m) :
    n = n' ∧ ((a ++ n).length + 1 < m → s[0]? = s'[0]?) := by
  have hlen : n.length = n'.length := Nat.le_antisymm
    (length_le_of_take_field_eq hs' hm h.symm) (length_le_of_take_field_eq hs hm' h)
  have hall : (a ++ n).length = (a ++ n').length := by simp only [List.length_append, hlen]
  have hfield : a ++ n = a ++ n' := by
    have htake := congrArg (List.take (a ++ n).length) h
    rw [List.take_take, List.take_take, Nat.min_eq_left (Nat.le_of_lt hm)] at htake
    rwa [List.take_left, hall, List.take_left] at htake
  refine ⟨List.append_cancel_left hfield, fun hroom => ?_⟩
  have hat := congrArg (fun l => l[(a ++ n).length + 1]?) h
  simp only [List.getElem?_take, hroom, if_true] at hat
  rw [hfield, List.getElem?_append_right (Nat.le_add_right _ 1),
    List.getElem?_append_right (Nat.le_add_right _ 1), Nat.add_sub_cancel_left] at hat
  exact hat

end Fields

end Umink.Library
