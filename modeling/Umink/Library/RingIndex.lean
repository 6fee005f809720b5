import Mathlib.Data.Nat.Bitwise
import Mathlib.Data.Nat.ModEq

/-!
# Positions in a ring of slots

An item that is the `i`-th one to enter a ring of `N` slots sits in slot
`i % N`. Two items of one window shorter than the ring never share a slot, and
a ring size that is a power of two lets a mask replace the remainder.
-/

namespace Umink.Library.RingIndex

variable {N : Nat}

/-- Inside a window shorter than the ring, equal slots mean equal positions. -/
theorem slot_eq_iff {a b : Nat} (hab : a ≤ b) (hb : b < a + N) :
    a % N = b % N ↔ a = b := by
  constructor
  · intro h
    have hdvd : N ∣ b - a := (Nat.modEq_iff_dvd' hab).mp h
    have hlt : b - a < N := by omega
    have := Nat.eq_zero_of_dvd_of_lt hdvd hlt
    omega
  · rintro rfl
    rfl

/-- The slot before the slot of position `c`. -/
def before (N c : Nat) : Nat := (c + N - 1) % N

theorem before_succ_mod (hN : 0 < N) (c : Nat) : (before N c + 1) % N = c % N := by
  have h : c + N - 1 + 1 = c + N := by omega
  rw [before, Nat.mod_add_mod, h, Nat.add_mod_right]

theorem before_succ (hN : 0 < N) (c : Nat) : before N (c + 1) = c % N := by
  have h : c + 1 + N - 1 = c + N := by omega
  rw [before, h, Nat.add_mod_right]

/-- The slot before position `t` is the slot after position `p` exactly when
all but two slots of the ring lie between them. -/
theorem before_eq_succ_iff {p t : Nat} (htp : t ≤ p) (hroom : p + 2 ≤ t + N) :
    before N t = (p + 1) % N ↔ p + 2 = t + N := by
  have hiff := slot_eq_iff (N := N) (a := p + 1) (b := t + N - 1) (by omega) (by omega)
  rw [before, eq_comm, hiff]
  omega

/-- A mask with the low `j` bits reads a ring index modulo `2 ^ j`. -/
theorem mask_of_slot {j k : Nat} (hjk : j ≤ k) (c : Nat) :
    (c % 2 ^ k) &&& (2 ^ j - 1) = c % 2 ^ j := by
  rw [Nat.and_two_pow_sub_one_eq_mod]
  exact Nat.mod_mod_of_dvd c (Nat.pow_dvd_pow 2 hjk)

end Umink.Library.RingIndex
