import Mathlib.Algebra.Ring.Int.Defs
import Umink.Library.CString

/-!
# Columns of NUMERIC affinity

A text that looks like a number is converted when it is stored in such a column
and when it is compared with it: to an integer if it is an integer literal of 64
bits or a real literal of such a value, and to a real number otherwise. Spaces
around the number, a sign and leading zeros do not matter.

## Implementation notes

Floating point is a parameter: how a literal is read, which values are integers
and how the others are printed.
-/

namespace Umink.Library.SqlNumeric

/-- A well-formed integer or real literal. -/
structure NumLit where
  neg : Bool
  int : List UInt8
  frac : Option (List UInt8)
  exp : Option (Bool × List UInt8)
  deriving DecidableEq

/-- Reading and printing of floating point numbers. -/
structure RealConv (ρ : Type*) where
  ofLit : NumLit → ρ
  toInt : ρ → Option Int
  toText : ρ → CStr

inductive SqlValue (ρ : Type*) where
  | integer (n : Int)
  | real (r : ρ)
  | text (s : CStr)
  deriving DecidableEq

section Parser

def isSpace (b : UInt8) : Bool := b = 32 || (9 ≤ b && b ≤ 13)

def isDigit (b : UInt8) : Bool := 48 ≤ b && b ≤ 57

/-- Whether the number is negative, and the text after its sign. -/
def takeSign : List UInt8 → Bool × List UInt8
  | 45 :: s => (true, s)
  | 43 :: s => (false, s)
  | s => (false, s)

/-- The digits after the decimal point. -/
def takeFrac : List UInt8 → Option (List UInt8) × List UInt8
  | 46 :: s => (some (s.takeWhile isDigit), s.dropWhile isDigit)
  | s => (none, s)

/-- The exponent; none when it has no digits. -/
def takeExp (s : List UInt8) : Option (Option (Bool × List UInt8) × List UInt8) :=
  match s with
  | [] => some (none, s)
  | e :: r =>
      if e = 101 ∨ e = 69 then
        let (neg, r) := takeSign r
        if r.takeWhile isDigit = [] then none
        else some (some (neg, r.takeWhile isDigit), r.dropWhile isDigit)
      else
        some (none, s)

/-- The number that a text looks like. -/
def parseNum (s : List UInt8) : Option NumLit := do
  let s := s.dropWhile isSpace
  let (neg, s) := takeSign s
  let int := s.takeWhile isDigit
  let (frac, s) := takeFrac (s.dropWhile isDigit)
  if int = [] ∧ frac.getD [] = [] then
    none
  let (exp, s) ← takeExp s
  if s.dropWhile isSpace = [] then some ⟨neg, int, frac, exp⟩ else none

/-- A space before a number does not matter. -/
theorem parseNum_space (s : List UInt8) : parseNum (32 :: s) = parseNum s := rfl

end Parser

section Values

/-- The value of a sequence of digits. -/
def digitsValue (ds : List UInt8) : Nat := ds.foldl (fun n b => 10 * n + (b.toNat - 48)) 0

namespace NumLit

/-- The value of an integer literal. -/
def intValue (l : NumLit) : Int := if l.neg then -(digitsValue l.int) else digitsValue l.int

/-- An integer literal whose value fits 64 bits. -/
def IsInt64 (l : NumLit) : Prop :=
  l.frac = none ∧ l.exp = none ∧ -2 ^ 63 ≤ l.intValue ∧ l.intValue < 2 ^ 63

instance (l : NumLit) : Decidable l.IsInt64 := inferInstanceAs (Decidable (_ ∧ _ ∧ _ ∧ _))

end NumLit

/-- The bytes of a number in the decimal system. -/
def decimalBytes (n : Int) : List UInt8 :=
  let ds := (Nat.toDigits 10 n.natAbs).map Char.toUInt8
  if n < 0 then 45 :: ds else ds

theorem zero_notMem_decimalBytes (n : Int) : 0 ∉ decimalBytes n := by
  have hdigit : ∀ c : Char, c.isDigit = true → c.toUInt8 ≠ 0 := by
    intro c hc h
    simp only [Char.isDigit, Bool.and_eq_true, decide_eq_true_eq, UInt32.le_iff_toNat_le] at hc
    have hzero := congrArg UInt8.toNat h
    simp only [Char.toUInt8, UInt32.toNat_toUInt8, UInt8.toNat_zero] at hzero
    have hlow : 48 ≤ c.val.toNat := hc.1
    have hhigh : c.val.toNat ≤ 57 := hc.2
    omega
  have hdigits : 0 ∉ (Nat.toDigits 10 n.natAbs).map Char.toUInt8 := by
    intro h
    obtain ⟨c, hc, hzero⟩ := List.mem_map.mp h
    exact hdigit c (Nat.isDigit_of_mem_toDigits (by decide) (by decide) hc) hzero
  unfold decimalBytes
  dsimp only
  split_ifs
  · simpa using hdigits
  · exact hdigits

/-- The text of an integer. -/
def decimalText (n : Int) : CStr := ⟨decimalBytes n, zero_notMem_decimalBytes n⟩

variable {ρ : Type*} (R : RealConv ρ)

/-- The value of a literal. -/
def NumLit.value (l : NumLit) : SqlValue ρ :=
  if l.IsInt64 then
    .integer l.intValue
  else
    match R.toInt (R.ofLit l) with
    | some n => .integer n
    | none => .real (R.ofLit l)

/-- The conversion of a text that is stored in a column or compared with it. -/
def applyNumeric (s : CStr) : SqlValue ρ :=
  match parseNum s.bytes with
  | some l => l.value R
  | none => .text s

/-- `sqlite3_column_text`. -/
def columnText : SqlValue ρ → CStr
  | .integer n => decimalText n
  | .real r => R.toText r
  | .text s => s

/-- The conversion to a number and back leaves the text as it is. -/
def KeepsText (s : CStr) : Prop :=
  ∀ l, parseNum s.bytes = some l → columnText R (l.value R) = s

variable {R}

theorem columnText_applyNumeric_iff (s : CStr) :
    columnText R (applyNumeric R s) = s ↔ KeepsText R s := by
  unfold applyNumeric KeepsText
  cases parseNum s.bytes with
  | none => simp [columnText]
  | some l => simp

/-- A literal has a number as its value. -/
theorem value_ne_text (l : NumLit) (s : CStr) : l.value R ≠ .text s := by
  unfold NumLit.value
  split_ifs
  · simp
  · cases R.toInt (R.ofLit l) <;> simp

/-- A text that does not look like a number is stored in its own way. -/
theorem applyNumeric_eq_iff {s : CStr} (h : parseNum s.bytes = none) (s' : CStr) :
    applyNumeric R s' = applyNumeric R s ↔ s' = s := by
  constructor
  · intro heq
    have hs : applyNumeric R s = .text s := by rw [applyNumeric, h]
    rw [hs] at heq
    unfold applyNumeric at heq
    cases hparse : parseNum s'.bytes with
    | none =>
        rw [hparse] at heq
        exact SqlValue.text.inj heq
    | some l =>
        rw [hparse] at heq
        exact absurd heq (value_ne_text l s)
  · rintro rfl
    rfl

/-- A text with a space before it. -/
def padded (s : CStr) : CStr := ⟨32 :: s.bytes, by simpa using s.noNul⟩

theorem padded_ne (s : CStr) : padded s ≠ s := by
  intro h
  have hlen := congrArg CStr.length h
  simp [padded, CStr.length] at hlen

/-- A text that looks like a number is stored as the same text with a space
before it. -/
theorem applyNumeric_padded {s : CStr} (h : parseNum s.bytes ≠ none) :
    applyNumeric R (padded s) = applyNumeric R s := by
  obtain ⟨l, hl⟩ := Option.ne_none_iff_exists'.mp h
  have hpad : parseNum (padded s).bytes = some l := (parseNum_space s.bytes).trans hl
  rw [applyNumeric, applyNumeric, hpad, hl]

end Values

end Umink.Library.SqlNumeric
