import Mathlib.Data.List.Basic
import Umink.Library.Trace

/-!
# Stack machines with tables

The machine behind an embedding interface: a host function pushes and pops values on a stack that
has room for so many, and reads and writes tables through them. What a program does does not
depend on what lies below the values that it uses.

## Implementation notes

A program is a run of the operations. An operation is not possible when it reaches below the
stack, when there is no room for its result, or when it indexes a value that is no table.
-/

namespace Umink.Library.StackMachine

/-- A value: none, one that is its own content, or a table by its number. -/
inductive Value (α : Type*) where
  | nil
  | atom (a : α)
  | table (r : Nat)

/-- Where an operation finds a table: at a position counted from the top of the stack, which is
position 1, or under a fixed number. -/
inductive Index where
  | top (i : Nat)
  | fixed (r : Nat)

/-- The tables, and the number of the next one. -/
structure Heap (α : Type*) where
  tables : Nat → α → Value α
  next : Nat

/-- The stack from its top, how many values it has room for, and the tables. -/
structure State (α : Type*) where
  stack : List (Value α)
  limit : Nat
  heap : Heap α

/-- An operation. -/
inductive Op (α : Type*) where
  | push (v : Value α)
  | newTable
  | pop (n : Nat)
  | remove (i : Nat)
  | getTable (t : Index)
  | setTable (t : Index)
  | getField (t : Index) (k : α)
  | setField (t : Index) (k : α)

variable {α : Type*}

namespace Heap

/-- No table has an entry. -/
def empty (next : Nat) : Heap α := ⟨fun _ _ => .nil, next⟩

/-- The tables with a new one, which has no entry. -/
def alloc (h : Heap α) : Heap α :=
  ⟨fun r k => if r = h.next then .nil else h.tables r k, h.next + 1⟩

theorem alloc_self (h : Heap α) : h.alloc.tables h.next = fun _ => .nil := by
  ext k
  exact if_pos rfl

theorem alloc_ne (h : Heap α) {r : Nat} (hne : r ≠ h.next) : h.alloc.tables r = h.tables r := by
  ext k
  exact if_neg hne

variable [DecidableEq α]

/-- The tables after an entry is written. -/
def set (h : Heap α) (r : Nat) (k : α) (v : Value α) : Heap α :=
  { h with tables := fun r' k' => if r' = r ∧ k' = k then v else h.tables r' k' }

@[simp] theorem set_self (h : Heap α) (r : Nat) (k : α) (v : Value α) :
    (h.set r k v).tables r k = v := if_pos ⟨rfl, rfl⟩

theorem set_table_ne (h : Heap α) {r r' : Nat} (k k' : α) (v : Value α) (hne : r' ≠ r) :
    (h.set r k v).tables r' k' = h.tables r' k' := if_neg fun heq => hne heq.1

theorem set_key_ne (h : Heap α) (r r' : Nat) {k k' : α} (v : Value α) (hne : k' ≠ k) :
    (h.set r k v).tables r' k' = h.tables r' k' := if_neg fun heq => hne heq.2

/-- The entries of a table after some are written. -/
def writeAll (t : α → Value α) (entries : List (α × Value α)) : α → Value α :=
  entries.foldl (fun t e => Function.update t e.1 e.2) t

/-- The tables after entries of one are written. -/
def setAll (h : Heap α) (r : Nat) (entries : List (α × Value α)) : Heap α :=
  entries.foldl (fun h e => h.set r e.1 e.2) h

theorem tables_set (h : Heap α) (r : Nat) (k : α) (v : Value α) :
    (h.set r k v).tables r = Function.update (h.tables r) k v := by
  ext k'
  by_cases hk : k' = k
  · subst hk
    rw [set_self, Function.update_self]
  · rw [set_key_ne h r r v hk, Function.update_of_ne hk]

theorem tables_setAll (h : Heap α) (r : Nat) (entries : List (α × Value α)) :
    (h.setAll r entries).tables r = writeAll (h.tables r) entries := by
  induction entries generalizing h with
  | nil => rfl
  | cons e entries ih =>
      calc ((h.set r e.1 e.2).setAll r entries).tables r
        _ = writeAll ((h.set r e.1 e.2).tables r) entries := ih _
        _ = writeAll (h.tables r) (e :: entries) := by
            rw [tables_set]
            rfl

theorem setAll_ne (h : Heap α) {r r' : Nat} (entries : List (α × Value α)) (hne : r' ≠ r) :
    (h.setAll r entries).tables r' = h.tables r' := by
  induction entries generalizing h with
  | nil => rfl
  | cons e entries ih =>
      refine (ih _).trans ?_
      ext k
      exact set_table_ne h e.1 k e.2 hne

theorem next_setAll (h : Heap α) (r : Nat) (entries : List (α × Value α)) :
    (h.setAll r entries).next = h.next := by
  induction entries generalizing h with
  | nil => rfl
  | cons e entries ih => exact ih _

end Heap

/-- The value at a position counted from the top. -/
def peek (stack : List (Value α)) : Nat → Option (Value α)
  | 0 => none
  | i + 1 => stack[i]?

/-- The number of the table that a value is. -/
def Value.number : Value α → Option Nat
  | .table r => some r
  | .nil | .atom _ => none

/-- The number of the table that an index is about. -/
def tableAt (stack : List (Value α)) : Index → Option Nat
  | .fixed r => some r
  | .top i => (peek stack i).bind Value.number

/-- The stack with a value on it, if there is room. -/
def State.push (s : State α) (v : Value α) : Option (State α) :=
  if s.stack.length < s.limit then some { s with stack := v :: s.stack } else none

variable [DecidableEq α]

/-- An operation of the interface. -/
def State.step (s : State α) : Op α → Option (State α)
  | .push v => s.push v
  | .newTable => { s with heap := s.heap.alloc }.push (.table s.heap.next)
  | .pop n => if n ≤ s.stack.length then some { s with stack := s.stack.drop n } else none
  | .remove i =>
      if 0 < i ∧ i ≤ s.stack.length then some { s with stack := s.stack.eraseIdx (i - 1) }
      else none
  | .getTable t =>
      match s.stack with
      | .atom k :: rest =>
          (tableAt s.stack t).map fun r => { s with stack := s.heap.tables r k :: rest }
      | _ => none
  | .setTable t =>
      match s.stack with
      | v :: .atom k :: rest =>
          (tableAt s.stack t).map fun r => { s with stack := rest, heap := s.heap.set r k v }
      | _ => none
  | .getField t k =>
      (tableAt s.stack t).bind fun r => s.push (s.heap.tables r k)
  | .setField t k =>
      match s.stack with
      | v :: rest =>
          (tableAt s.stack t).map fun r => { s with stack := rest, heap := s.heap.set r k v }
      | [] => none

/-- The machine with more values below its stack. -/
def State.above (s : State α) (base : List (Value α)) : State α :=
  ⟨s.stack ++ base, s.limit + base.length, s.heap⟩

section Frame

variable {s s' : State α} {stack : List (Value α)} (base : List (Value α))

omit [DecidableEq α] in
theorem peek_append {i : Nat} {v : Value α} (h : peek stack i = some v) :
    peek (stack ++ base) i = some v := by
  cases i with
  | zero => cases h
  | succ i =>
      obtain ⟨hlt, -⟩ := List.getElem?_eq_some_iff.mp h
      exact (List.getElem?_append_left hlt).trans h

omit [DecidableEq α] in
theorem tableAt_append {t : Index} {r : Nat} (h : tableAt stack t = some r) :
    tableAt (stack ++ base) t = some r := by
  cases t with
  | fixed r' => exact h
  | top i =>
      obtain ⟨v, hpeek, hnumber⟩ := Option.bind_eq_some_iff.mp h
      exact Option.bind_eq_some_iff.mpr ⟨v, peek_append base hpeek, hnumber⟩

omit [DecidableEq α] in
theorem push_above {v : Value α} (h : s.push v = some s') :
    (s.above base).push v = some (s'.above base) := by
  unfold State.push at h ⊢
  obtain ⟨hroom, hs⟩ := Option.ite_none_right_eq_some.mp h
  obtain rfl := Option.some.inj hs
  have hroom' : (s.above base).stack.length < (s.above base).limit := by
    simp only [State.above, List.length_append]
    omega
  exact if_pos hroom'

/-- An operation does the same above other values. -/
theorem step_above {op : Op α} (h : s.step op = some s') :
    (s.above base).step op = some (s'.above base) := by
  obtain ⟨stack, limit, heap⟩ := s
  cases op with
  | push v => exact push_above base h
  | newTable => exact push_above base h
  | pop n =>
      obtain ⟨hle, hs⟩ := Option.ite_none_right_eq_some.mp h
      obtain rfl := Option.some.inj hs
      have hle' : n ≤ (stack ++ base).length := by
        rw [List.length_append]
        exact Nat.le_add_right_of_le hle
      refine (if_pos hle').trans (congrArg some ?_)
      rw [State.above, State.above, List.drop_append_of_le_length hle]
  | remove i =>
      obtain ⟨⟨hpos, hle⟩, hs⟩ := Option.ite_none_right_eq_some.mp h
      obtain rfl := Option.some.inj hs
      have hle' : 0 < i ∧ i ≤ (stack ++ base).length := by
        rw [List.length_append]
        exact ⟨hpos, Nat.le_add_right_of_le hle⟩
      have hlt : i - 1 < stack.length := Nat.sub_one_lt_of_le hpos hle
      refine (if_pos hle').trans (congrArg some ?_)
      rw [State.above, State.above, List.eraseIdx_append_of_lt_length hlt]
  | getTable t =>
      match stack with
      | .atom k :: rest =>
          obtain ⟨r, hr, rfl⟩ := Option.map_eq_some_iff.mp h
          exact Option.map_eq_some_iff.mpr ⟨r, tableAt_append base hr, rfl⟩
  | setTable t =>
      match stack with
      | v :: .atom k :: rest =>
          obtain ⟨r, hr, rfl⟩ := Option.map_eq_some_iff.mp h
          exact Option.map_eq_some_iff.mpr ⟨r, tableAt_append base hr, rfl⟩
  | getField t k =>
      obtain ⟨r, hr, hpush⟩ := Option.bind_eq_some_iff.mp h
      exact Option.bind_eq_some_iff.mpr ⟨r, tableAt_append base hr, push_above base hpush⟩
  | setField t k =>
      match stack with
      | v :: rest =>
          obtain ⟨r, hr, rfl⟩ := Option.map_eq_some_iff.mp h
          exact Option.map_eq_some_iff.mpr ⟨r, tableAt_append base hr, rfl⟩

/-- A program does the same above other values. -/
theorem exec_above {ops : List (Op α)} (h : Trace.exec State.step s ops = some s') :
    Trace.exec State.step (s.above base) ops = some (s'.above base) := by
  induction ops generalizing s with
  | nil =>
      obtain rfl := Option.some.inj h
      rfl
  | cons op ops ih =>
      obtain ⟨t, hst, hrest⟩ := (Trace.exec_cons_iff ..).mp h
      exact (Trace.exec_cons_iff ..).mpr ⟨t.above base, step_above base hst, ih hrest⟩

end Frame

/-- The entries are written to the table on the top. -/
def Op.sets (entries : List (α × Value α)) : List (Op α) :=
  entries.flatMap fun e => [.push (.atom e.1), .push e.2, .setTable (.top 3)]

theorem exec_sets {limit r : Nat} (hlimit : 3 ≤ limit) (heap : Heap α)
    (entries : List (α × Value α)) :
    Trace.exec State.step ⟨[.table r], limit, heap⟩ (Op.sets entries) =
      some ⟨[.table r], limit, heap.setAll r entries⟩ := by
  induction entries generalizing heap with
  | nil => rfl
  | cons e entries ih =>
      have hentry : Trace.exec State.step ⟨[.table r], limit, heap⟩
          [.push (.atom e.1), .push e.2, .setTable (.top 3)] =
          some ⟨[.table r], limit, heap.set r e.1 e.2⟩ := by
        have hone : 1 < limit := by omega
        have htwo : 2 < limit := by omega
        simp [Trace.exec, State.step, State.push, tableAt, peek, Value.number, hone, htwo]
      exact (Trace.exec_append_iff ..).mpr ⟨_, hentry, ih _⟩

end Umink.Library.StackMachine
