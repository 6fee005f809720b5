import Mathlib.Tactic.Common

/-!
# Growing arrays

An array in one block of memory that is doubled when it is full. Growing may
move the elements to a new block; addresses into the old block are invalid from
then on. Blocks are numbered in the order in which they were taken, so that the
address of an old block is never the address of a new one.
-/

namespace Umink.Library

/-- The elements in a block with room for a number of slots. -/
structure GrowArray (α : Type*) where
  elems : List α
  slots : Nat
  block : Nat

/-- The address of an element. -/
structure ElemPtr where
  block : Nat
  idx : Nat
  deriving DecidableEq, Repr

namespace GrowArray

variable {α : Type*}

def empty : GrowArray α := ⟨[], 0, 0⟩

/-- The next element needs more slots. -/
def Full (a : GrowArray α) : Prop := a.slots < a.elems.length + 1

instance (a : GrowArray α) : Decidable a.Full := inferInstanceAs (Decidable (_ < _))

/-- Twice the slots, in a new block if the memory is moved. -/
def reserve (a : GrowArray α) (moves : Bool) : GrowArray α :=
  if a.Full then
    { a with
      slots := if a.slots = 0 then 8 else 2 * a.slots
      block := if moves then a.block + 1 else a.block }
  else a

def pushBack (a : GrowArray α) (x : α) (moves : Bool) : GrowArray α :=
  { a.reserve moves with elems := a.elems ++ [x] }

/-- The address of the last element. -/
def back (a : GrowArray α) : ElemPtr := ⟨a.block, a.elems.length - 1⟩

/-- The element at an address, which has to lie in the block of the array. -/
def deref (a : GrowArray α) (p : ElemPtr) : Option α :=
  if p.block = a.block then a.elems[p.idx]? else none

variable {a : GrowArray α} {x : α} {moves : Bool} {p : ElemPtr}

theorem block_pushBack :
    (a.pushBack x moves).block = if a.Full ∧ moves then a.block + 1 else a.block := by
  by_cases hfull : a.Full
  · cases moves <;> simp [pushBack, reserve, hfull]
  · simp [pushBack, reserve, hfull]

theorem block_le_pushBack : a.block ≤ (a.pushBack x moves).block := by
  rw [block_pushBack]
  split
  · exact Nat.le_succ _
  · exact Nat.le_refl _

theorem deref_eq_some_iff {y : α} :
    a.deref p = some y ↔ p.block = a.block ∧ a.elems[p.idx]? = some y := by
  simp [deref]

theorem back_pushBack :
    (a.pushBack x moves).back = ⟨(a.pushBack x moves).block, a.elems.length⟩ := by
  simp [back, pushBack]

/-- The slots hold the elements, and there are none of them or at least eight. -/
structure Wf (a : GrowArray α) : Prop where
  fits : a.elems.length ≤ a.slots
  slots : a.slots = 0 ∨ 8 ≤ a.slots

theorem wf_empty : (empty : GrowArray α).Wf := ⟨Nat.le_refl _, .inl rfl⟩

theorem Wf.pushBack (h : a.Wf) : (a.pushBack x moves).Wf := by
  have hfits := h.fits
  have hslots := h.slots
  have hlen : (a.pushBack x moves).elems.length = a.elems.length + 1 := by
    simp [GrowArray.pushBack]
  by_cases hfull : a.slots < a.elems.length + 1
  · have hnew : (a.pushBack x moves).slots = if a.slots = 0 then 8 else 2 * a.slots := by
      simp [GrowArray.pushBack, reserve, Full, hfull]
    constructor <;> rw [hnew]
    · rw [hlen]
      split <;> omega
    · split <;> omega
  · have hnew : (a.pushBack x moves).slots = a.slots := by
      simp [GrowArray.pushBack, reserve, Full, hfull]
    constructor <;> rw [hnew]
    · rw [hlen]
      omega
    · exact hslots

/-- Before its ninth element the array grows only for the first one. -/
theorem Wf.eq_nil_of_full (h : a.Wf) (hfull : a.Full) (hlen : a.elems.length < 8) :
    a.elems = [] := by
  have hfits := h.fits
  have hslots := h.slots
  unfold Full at hfull
  exact List.length_eq_zero_iff.mp (by omega)

end GrowArray

end Umink.Library
