import Mathlib.Tactic.Common

/-!
# Critical sections

Code that changes an object in several steps while its thread holds the mutex of the
object. What the object will be when the section ends is a function of the object and
the place in the section, and no step of the section changes it. The effect of a section
can therefore be counted from the moment its thread enters, although other threads run
between its steps.
-/

namespace Umink.Library

/-- The steps of a section, with a bound on how many are left. -/
structure CriticalSection (π σ : Type*) where
  next : π → σ → Option (π × σ)
  left : π → Nat
  left_lt : ∀ {p s p' s'}, next p s = some (p', s') → left p' < left p

namespace CriticalSection

variable {π σ : Type*} (b : CriticalSection π σ)

/-- The object at the end of the section. -/
def finish (p : π) (s : σ) : σ :=
  match _h : b.next p s with
  | none => s
  | some (p', s') => finish p' s'
termination_by b.left p
decreasing_by exact b.left_lt _h

variable {b} {p p' : π} {s s' : σ}

theorem finish_of_none (h : b.next p s = none) : b.finish p s = s := by
  rw [finish]
  split
  case h_1 => rfl
  case h_2 q t hnext => rw [h] at hnext; cases hnext

theorem finish_of_next (h : b.next p s = some (p', s')) : b.finish p s = b.finish p' s' := by
  rw [finish]
  split
  case h_1 hnext => rw [h] at hnext; cases hnext
  case h_2 q t hnext =>
      rw [h] at hnext
      obtain ⟨rfl, rfl⟩ := Prod.mk.inj (Option.some.inj hnext)
      rfl

/-- What every step leaves alone is as before at the end. -/
theorem finish_frame {α : Type*} (f : σ → α)
    (hstep : ∀ p s p' s', b.next p s = some (p', s') → f s' = f s) (p : π) (s : σ) :
    f (b.finish p s) = f s := by
  fun_induction b.finish p s with
  | case1 p s h => rfl
  | case2 p s p' s' h ih => exact ih.trans (hstep p s p' s' h)

end CriticalSection

end Umink.Library
