import Mathlib.Algebra.Ring.Int.Defs
import Mathlib.Algebra.Ring.Nat
import Mathlib.Tactic.Common

/-!
# C types

Results of C arithmetic and conversions on the fixed-width integer types, as
functions of unbounded integers, and the text of a C string.
-/

namespace Umink.Library

/-- The value of an `int` after wrapping. -/
def int32 (n : Int) : Int := (n + 2 ^ 31) % 2 ^ 32 - 2 ^ 31

theorem int32_bounds (n : Int) : -2 ^ 31 ≤ int32 n ∧ int32 n < 2 ^ 31 := by
  unfold int32
  omega

/-- The nearest value of an `int`. -/
def clampInt32 (n : Int) : Int := max (-2 ^ 31) (min n (2 ^ 31 - 1))

/-- The conversion to `uint16_t` takes the remainder. -/
theorem uint16_toNat (n : Int) : ((UInt16.ofInt n).toNat : Int) = n % 2 ^ 16 := by
  simp only [UInt16.ofInt, UInt16.toNat_ofNat']
  omega

/-- The conversion of an `int` to `size_t`. -/
def sizeT (n : Int) : Nat := (n % 2 ^ 64).toNat

/-- `isspace`. -/
def isSpace (c : Char) : Bool := c = ' ' ∨ ('\t' ≤ c ∧ c ≤ '\r')

/-- The number that `strtol` reads in a string of decimal digits, up to the first other
character. -/
def readDigits (cs : List Char) : Nat :=
  (cs.takeWhile Char.isDigit).foldl (fun n c => 10 * n + (c.toNat - '0'.toNat)) 0

/-- `atoi`: `strtol` with the nearest `long`, converted to `int`. -/
def atoi (s : String) : Int :=
  let n : Int :=
    match s.toList.dropWhile isSpace with
    | '-' :: cs => -readDigits cs
    | '+' :: cs => readDigits cs
    | cs => readDigits cs
  int32 (max (-2 ^ 63) (min n (2 ^ 63 - 1)))

theorem atoi_bounds (s : String) : -2 ^ 31 ≤ atoi s ∧ atoi s < 2 ^ 31 := int32_bounds _

theorem sizeT_of_nonneg {n : Int} (h : 0 ≤ n) (hlt : n < 2 ^ 31) : (sizeT n : Int) = n := by
  unfold sizeT
  omega

theorem sizeT_of_neg {n : Int} (h : n < 0) (hle : -2 ^ 31 ≤ n) : sizeT n ≠ 0 := by
  unfold sizeT
  omega

/-- The part of a string before its first NUL. -/
def cText (s : String) : String := String.ofList (s.toList.takeWhile (· ≠ '\x00'))

end Umink.Library
