import Mathlib.Data.List.Lex
import Mathlib.Data.List.Sort
import Umink.Library.CString

/-!
# The order of C strings

`strcmp` compares the bytes of two strings as unsigned numbers from the first one on, and
a string comes after each of its proper prefixes. In the locale of a program that sets
none, `strcoll` is the same.
-/

namespace Umink.Library.CStr

/-- The numbers that `strcmp` compares. -/
def codes (s : CStr) : List Nat := s.bytes.map UInt8.toNat

theorem codes_injective : Function.Injective codes := fun _ _ h =>
  CStr.ext (List.map_injective_iff.mpr (fun _ _ => UInt8.toNat_inj.mp) h)

instance : LinearOrder CStr := LinearOrder.lift' codes codes_injective

/-- The strings in the order of `strcmp`. -/
def sorted (l : List CStr) : List CStr := l.insertionSort (· ≤ ·)

theorem mem_sorted {l : List CStr} {s : CStr} : s ∈ sorted l ↔ s ∈ l :=
  List.mem_insertionSort _

/-- Different strings are sorted in one way only. -/
theorem sorted_congr {l l' : List CStr} (h : l.Perm l') : sorted l = sorted l' :=
  List.Perm.eq_of_pairwise (fun _ _ _ _ => le_antisymm) (List.pairwise_insertionSort _ l)
    (List.pairwise_insertionSort _ l')
    ((List.perm_insertionSort _ l).trans (h.trans (List.perm_insertionSort _ l').symm))

theorem sorted_pairwise {l : List CStr} (h : l.Nodup) : (sorted l).Pairwise (· < ·) := by
  have hnodup : (sorted l).Nodup := (List.perm_insertionSort _ l).nodup_iff.mpr h
  exact (hnodup.and (List.pairwise_insertionSort (· ≤ ·) l)).imp fun hab =>
    lt_of_le_of_ne hab.2 hab.1

end Umink.Library.CStr
