import Mathlib.Data.List.Basic
import Mathlib.Data.List.Infix
import Mathlib.Tactic.Common

/-!
# Matching of names

`fnmatch` without flags: a star in a pattern stands for any text, and a question mark for any
character.

## Implementation notes

Bracket expressions and escapes are left out.
-/

namespace Umink.Library.Fnmatch

inductive Tok where
  | lit (c : Char)
  | any
  | star
  deriving DecidableEq

def Tok.ofChar (c : Char) : Tok := if c = '*' then .star else if c = '?' then .any else .lit c

/-- The text matches the rest of a pattern. -/
def matchToks : List Tok → List Char → Bool
  | [], s => s.isEmpty
  | .lit _ :: _, [] => false
  | .lit c :: ps, c' :: s => c = c' && matchToks ps s
  | .any :: _, [] => false
  | .any :: ps, _ :: s => matchToks ps s
  | .star :: ps, s => s.tails.any fun t => matchToks ps t

/-- `fnmatch` returns 0. -/
def fnmatch (ptrn s : String) : Bool := matchToks (ptrn.toList.map Tok.ofChar) s.toList

/-- A star at the end matches everything. -/
theorem matchToks_star (s : List Char) : matchToks [.star] s = true :=
  List.any_eq_true.mpr ⟨[], (List.mem_tails _ _).mpr List.nil_suffix, rfl⟩

/-- Literal characters with a star after them match what begins with them. -/
theorem matchToks_lits_star (cs s : List Char) :
    matchToks (cs.map Tok.lit ++ [.star]) s = true ↔ cs <+: s := by
  induction cs generalizing s with
  | nil => exact iff_of_true (matchToks_star s) List.nil_prefix
  | cons c cs ih =>
      cases s with
      | nil => simp [matchToks]
      | cons c' s =>
          rw [List.map_cons, List.cons_append, matchToks, Bool.and_eq_true, decide_eq_true_eq, ih,
            List.cons_prefix_cons]

end Umink.Library.Fnmatch
