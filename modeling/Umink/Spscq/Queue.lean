import Mathlib.Logic.Function.Basic
import Umink.Library.RingIndex

/-!
# The single-producer single-consumer queue

`spscq_push` and `spscq_pop` on the four indices of `spsc_queue_t`. The
producer works on `shadowHead` and publishes it through `head`; the consumer
works on `shadowTail` and gives slots back through `tail`. Each side publishes
when its shadow index passes the watermark, the producer also when an item
asks for a flush.

## Implementation notes

Indices stay below `QSIZE`, which the source keeps in an `int`, so the
`uint32_t` of `next_head` and `next_tail` holds them without loss. How
`spscq_new` rounds a requested size up to `QSIZE` with floating-point
logarithms is left out: a queue starts with its size.
-/

namespace Umink.Spscq

open Umink.Library.RingIndex

/-- The sizes of a queue: powers of two from 512. -/
structure QSize where
  log : Nat
  nine_le : 9 ≤ log

namespace QSize

variable (n : QSize)

/-- `QSIZE`. -/
def size : Nat := 2 ^ n.log

/-- `QUEUE_ITEMS_MASK`. -/
def itemsMask : Nat := n.size - 1

theorem size_pos : 0 < n.size := Nat.two_pow_pos n.log

theorem size_ge : 512 ≤ n.size :=
  show 2 ^ 9 ≤ 2 ^ n.log from Nat.pow_le_pow_right (by decide) n.nine_le

theorem mask_items (c : Nat) : c &&& n.itemsMask = c % n.size :=
  Nat.and_two_pow_sub_one_eq_mod c n.log

end QSize

/-- `QUEUE_WATERMARK`. -/
def queueWatermark : Nat := 256

/-- `QUEUE_WATERMARK_MASK`. -/
def queueWatermarkMask : Nat := queueWatermark - 1

/-- A slot index is at the watermark when its position is a multiple of 256. -/
theorem QSize.mask_watermark (n : QSize) (c : Nat) :
    (c % n.size) &&& queueWatermarkMask = c % 256 :=
  mask_of_slot (j := 8) (k := n.log) (le_trans (by decide) n.nine_le) c

/-- `spsc_queue_t` without its padding. -/
structure SpscQueue (ι : Type*) where
  shadowHead : Nat
  head : Nat
  tail : Nat
  shadowTail : Nat
  items : Nat → ι

variable {ι : Type*}

/-- `spscq_new` for the size that it has computed: the slots hold whatever `malloc` returned. -/
def spscqNew (n : QSize) (items : Nat → ι) : SpscQueue ι where
  shadowHead := 0
  head := 0
  tail := n.size - 1
  shadowTail := n.size - 1
  items := items

/-- `spscq_pop`: the return code, the popped item and the queue. -/
def spscqPop (n : QSize) (q : SpscQueue ι) : Nat × Option ι × SpscQueue ι :=
  let nextTail := (q.shadowTail + 1) &&& n.itemsMask
  if nextTail ≠ q.head then
    let item := q.items nextTail
    let q := { q with shadowTail := nextTail }
    if q.shadowTail &&& queueWatermarkMask = 0 then
      (0, some item, { q with tail := q.shadowTail })
    else
      (0, some item, q)
  else
    (1, none, q)

/-- `spscq_push`: the return code and the queue. -/
def spscqPush (n : QSize) (q : SpscQueue ι) (flushItem : UInt8) (item : ι) :
    Nat × SpscQueue ι :=
  let nextHead := (q.shadowHead + 1) &&& n.itemsMask
  if q.tail ≠ nextHead then
    let q := { q with items := Function.update q.items q.shadowHead item }
    let q := { q with shadowHead := nextHead }
    if flushItem ≠ 0 ∨ q.shadowHead &&& queueWatermarkMask = 0 then
      (0, { q with head := q.shadowHead })
    else
      (0, q)
  else
    (1, q)

/-- The indices of a queue that has taken `produced` items in and `consumed`
out, when `head` was last written after `published` of them and `tail` after
`freed`. -/
structure Ring (n : QSize) (q : SpscQueue ι) (produced published consumed freed : Nat) :
    Prop where
  shadowHead_eq : q.shadowHead = produced % n.size
  head_eq : q.head = published % n.size
  shadowTail_eq : q.shadowTail = before n.size consumed
  tail_eq : q.tail = before n.size freed
  freed_le : freed ≤ consumed
  consumed_le : consumed ≤ published
  published_le : published ≤ produced
  room : produced + 2 ≤ freed + n.size

namespace Ring

variable {n : QSize} {q : SpscQueue ι} {produced published consumed freed : Nat}

theorem new (items : Nat → ι) : Ring n (spscqNew n items) 0 0 0 0 where
  shadowHead_eq := by simp [spscqNew]
  head_eq := by simp [spscqNew]
  shadowTail_eq := by
    have := n.size_pos
    rw [before, Nat.mod_eq_of_lt (by omega)]
    simp [spscqNew]
  tail_eq := by
    have := n.size_pos
    rw [before, Nat.mod_eq_of_lt (by omega)]
    simp [spscqNew]
  freed_le := le_rfl
  consumed_le := le_rfl
  published_le := le_rfl
  room := by have := n.size_ge; omega

/-- The producer finds the queue full exactly when all slots but two lie
between the last freed item and the next one. -/
theorem full_iff (h : Ring n q produced published consumed freed) :
    q.tail = (q.shadowHead + 1) &&& n.itemsMask ↔ produced + 2 = freed + n.size := by
  have hle : freed ≤ produced := h.freed_le.trans (h.consumed_le.trans h.published_le)
  rw [n.mask_items, h.shadowHead_eq, Nat.mod_add_mod, h.tail_eq]
  exact before_eq_succ_iff hle h.room

theorem next_head (h : Ring n q produced published consumed freed) :
    (q.shadowHead + 1) &&& n.itemsMask = (produced + 1) % n.size := by
  rw [n.mask_items, h.shadowHead_eq, Nat.mod_add_mod]

theorem next_tail (h : Ring n q produced published consumed freed) :
    (q.shadowTail + 1) &&& n.itemsMask = consumed % n.size := by
  rw [n.mask_items, h.shadowTail_eq, before_succ_mod n.size_pos]

/-- The consumer finds nothing exactly when it has taken every published item. -/
theorem empty_iff (h : Ring n q produced published consumed freed) :
    (q.shadowTail + 1) &&& n.itemsMask = q.head ↔ consumed = published := by
  rw [h.next_tail, h.head_eq]
  have := h.freed_le
  have := h.consumed_le
  have := h.published_le
  have := h.room
  exact slot_eq_iff h.consumed_le (by omega)

end Ring

end Umink.Spscq
