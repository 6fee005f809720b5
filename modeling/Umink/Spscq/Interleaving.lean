import Umink.Spscq.Sequential

/-!
# Interleaved half-steps of one producer and one consumer

Each call is cut at its accesses to shared memory. The producer reads `tail`,
stores the item, moves `shadowHead` and publishes `head`; the consumer reads
`head`, loads the item, moves `shadowTail` and publishes `tail`. Any order of
the half-steps of the two sides is a run.

## Implementation notes

`accepted` and `popped` record the stored and the loaded items, `published` and
`freed` count them when `head` and `tail` were last written. No half-step reads
these four fields.
-/

namespace Umink.Spscq

open Umink.Library Umink.Library.RingIndex

variable {ι : Type*} {n : QSize}

/-- Where the producer stands in `spscq_push`; `ready` keeps the flush flag and
the return code of the last call. -/
inductive PushPc (ι : Type*) where
  | ready (last : Option (UInt8 × Nat))
  | store (flushItem : UInt8) (item : ι) (nextHead : Nat)
  | bump (flushItem : UInt8) (nextHead : Nat)
  | publish (flushItem : UInt8)

/-- Where the consumer stands in `spscq_pop`; `ready` keeps the return code of
the last call. -/
inductive PopPc where
  | ready (last : Option Nat)
  | load (nextTail : Nat)
  | bump (nextTail : Nat)
  | publish

structure Pair (ι : Type*) where
  queue : SpscQueue ι
  push : PushPc ι
  pop : PopPc
  accepted : List ι
  popped : List ι
  published : Nat
  freed : Nat

inductive HalfStep (ι : Type*) where
  | pushReadTail (flushItem : UInt8) (item : ι)
  | pushStore
  | pushBump
  | pushPublish
  | popReadHead
  | popLoad
  | popBump
  | popPublish

namespace Pair

def start (n : QSize) (items : Nat → ι) : Pair ι where
  queue := spscqNew n items
  push := .ready none
  pop := .ready none
  accepted := []
  popped := []
  published := 0
  freed := 0

/-- One half-step, enabled where the side that makes it stands before it. -/
def step (n : QSize) (s : Pair ι) (a : HalfStep ι) : Option (Pair ι) :=
  match a, s.push, s.pop with
  | .pushReadTail flushItem item, .ready _, _ =>
      let nextHead := (s.queue.shadowHead + 1) &&& n.itemsMask
      if s.queue.tail ≠ nextHead then
        some { s with push := .store flushItem item nextHead }
      else
        some { s with push := .ready (some (flushItem, 1)) }
  | .pushStore, .store flushItem item nextHead, _ =>
      some { s with
        queue := { s.queue with items := Function.update s.queue.items s.queue.shadowHead item }
        push := .bump flushItem nextHead
        accepted := s.accepted ++ [item] }
  | .pushBump, .bump flushItem nextHead, _ =>
      let queue := { s.queue with shadowHead := nextHead }
      if flushItem ≠ 0 ∨ nextHead &&& queueWatermarkMask = 0 then
        some { s with queue := queue, push := .publish flushItem }
      else
        some { s with queue := queue, push := .ready (some (flushItem, 0)) }
  | .pushPublish, .publish flushItem, _ =>
      some { s with
        queue := { s.queue with head := s.queue.shadowHead }
        push := .ready (some (flushItem, 0))
        published := s.accepted.length }
  | .popReadHead, _, .ready _ =>
      let nextTail := (s.queue.shadowTail + 1) &&& n.itemsMask
      if nextTail ≠ s.queue.head then
        some { s with pop := .load nextTail }
      else
        some { s with pop := .ready (some 1) }
  | .popLoad, _, .load nextTail =>
      some { s with
        pop := .bump nextTail
        popped := s.popped ++ [s.queue.items nextTail] }
  | .popBump, _, .bump nextTail =>
      let queue := { s.queue with shadowTail := nextTail }
      if nextTail &&& queueWatermarkMask = 0 then
        some { s with queue := queue, pop := .publish }
      else
        some { s with queue := queue, pop := .ready (some 0) }
  | .popPublish, _, .publish =>
      some { s with
        queue := { s.queue with tail := s.queue.shadowTail }
        pop := .ready (some 0)
        freed := s.popped.length }
  | _, _, _ => none

/-- What a half-step finds and does where it is enabled. -/
inductive Effect (n : QSize) (s : Pair ι) : HalfStep ι → Pair ι → Prop
  | readTail {last : Option (UInt8 × Nat)} {flushItem : UInt8} {item : ι}
      (hp : s.push = .ready last)
      (hroom : s.queue.tail ≠ (s.queue.shadowHead + 1) &&& n.itemsMask) :
      Effect n s (.pushReadTail flushItem item)
        { s with push := .store flushItem item ((s.queue.shadowHead + 1) &&& n.itemsMask) }
  | full {last : Option (UInt8 × Nat)} {flushItem : UInt8} {item : ι}
      (hp : s.push = .ready last)
      (hfull : s.queue.tail = (s.queue.shadowHead + 1) &&& n.itemsMask) :
      Effect n s (.pushReadTail flushItem item) { s with push := .ready (some (flushItem, 1)) }
  | store {flushItem : UInt8} {item : ι} {nextHead : Nat}
      (hp : s.push = .store flushItem item nextHead) :
      Effect n s .pushStore { s with
        queue := { s.queue with items := Function.update s.queue.items s.queue.shadowHead item }
        push := .bump flushItem nextHead
        accepted := s.accepted ++ [item] }
  | bumpHead {flushItem : UInt8} {nextHead : Nat} (hp : s.push = .bump flushItem nextHead)
      (hpub : flushItem ≠ 0 ∨ nextHead &&& queueWatermarkMask = 0) :
      Effect n s .pushBump { s with
        queue := { s.queue with shadowHead := nextHead }
        push := .publish flushItem }
  | bumpHeadOnly {flushItem : UInt8} {nextHead : Nat} (hp : s.push = .bump flushItem nextHead)
      (hpub : ¬ (flushItem ≠ 0 ∨ nextHead &&& queueWatermarkMask = 0)) :
      Effect n s .pushBump { s with
        queue := { s.queue with shadowHead := nextHead }
        push := .ready (some (flushItem, 0)) }
  | publishHead {flushItem : UInt8} (hp : s.push = .publish flushItem) :
      Effect n s .pushPublish { s with
        queue := { s.queue with head := s.queue.shadowHead }
        push := .ready (some (flushItem, 0))
        published := s.accepted.length }
  | readHead {last : Option Nat} (hp : s.pop = .ready last)
      (hsome : (s.queue.shadowTail + 1) &&& n.itemsMask ≠ s.queue.head) :
      Effect n s .popReadHead { s with pop := .load ((s.queue.shadowTail + 1) &&& n.itemsMask) }
  | empty {last : Option Nat} (hp : s.pop = .ready last)
      (hempty : (s.queue.shadowTail + 1) &&& n.itemsMask = s.queue.head) :
      Effect n s .popReadHead { s with pop := .ready (some 1) }
  | load {nextTail : Nat} (hp : s.pop = .load nextTail) :
      Effect n s .popLoad { s with
        pop := .bump nextTail
        popped := s.popped ++ [s.queue.items nextTail] }
  | bumpTail {nextTail : Nat} (hp : s.pop = .bump nextTail)
      (hpub : nextTail &&& queueWatermarkMask = 0) :
      Effect n s .popBump { s with
        queue := { s.queue with shadowTail := nextTail }
        pop := .publish }
  | bumpTailOnly {nextTail : Nat} (hp : s.pop = .bump nextTail)
      (hpub : nextTail &&& queueWatermarkMask ≠ 0) :
      Effect n s .popBump { s with
        queue := { s.queue with shadowTail := nextTail }
        pop := .ready (some 0) }
  | publishTail (hp : s.pop = .publish) :
      Effect n s .popPublish { s with
        queue := { s.queue with tail := s.queue.shadowTail }
        pop := .ready (some 0)
        freed := s.popped.length }

theorem step_effect {s t : Pair ι} {a : HalfStep ι} (hst : s.step n a = some t) :
    Effect n s a t := by
  cases a with
  | pushReadTail flushItem item =>
      rcases hp : s.push with _ | _ | _ | _ <;> simp only [step, hp, reduceCtorEq] at hst
      split at hst <;> obtain rfl := Option.some.inj hst
      · next hroom => exact .readTail hp hroom
      · next hfull => exact .full hp (not_not.mp hfull)
  | pushStore =>
      rcases hp : s.push with _ | _ | _ | _ <;> simp only [step, hp, reduceCtorEq] at hst
      obtain rfl := Option.some.inj hst
      exact .store hp
  | pushBump =>
      rcases hp : s.push with _ | _ | _ | _ <;> simp only [step, hp, reduceCtorEq] at hst
      split at hst <;> obtain rfl := Option.some.inj hst
      · next hpub => exact .bumpHead hp hpub
      · next hpub => exact .bumpHeadOnly hp hpub
  | pushPublish =>
      rcases hp : s.push with _ | _ | _ | _ <;> simp only [step, hp, reduceCtorEq] at hst
      obtain rfl := Option.some.inj hst
      exact .publishHead hp
  | popReadHead =>
      rcases hp : s.pop with _ | _ | _ | _ <;> simp only [step, hp, reduceCtorEq] at hst
      split at hst <;> obtain rfl := Option.some.inj hst
      · next hsome => exact .readHead hp hsome
      · next hempty => exact .empty hp (not_not.mp hempty)
  | popLoad =>
      rcases hp : s.pop with _ | _ | _ | _ <;> simp only [step, hp, reduceCtorEq] at hst
      obtain rfl := Option.some.inj hst
      exact .load hp
  | popBump =>
      rcases hp : s.pop with _ | _ | _ | _ <;> simp only [step, hp, reduceCtorEq] at hst
      split at hst <;> obtain rfl := Option.some.inj hst
      · next hpub => exact .bumpTail hp hpub
      · next hpub => exact .bumpTailOnly hp hpub
  | popPublish =>
      rcases hp : s.pop with _ | _ | _ | _ <;> simp only [step, hp, reduceCtorEq] at hst
      obtain rfl := Option.some.inj hst
      exact .publishTail hp

/-- The position of `shadowHead`: one behind the accepted items between the
store of an item and the move of the index. -/
def produced (s : Pair ι) : Nat :=
  match s.push with
  | .bump _ _ => s.accepted.length - 1
  | _ => s.accepted.length

/-- The position of `shadowTail`. -/
def consumed (s : Pair ι) : Nat :=
  match s.pop with
  | .bump _ => s.popped.length - 1
  | _ => s.popped.length

/-- What the producer knows where it stands: the slot it is about to fill lies
outside the outstanding ones, and after an accepted flushing push everything
is published. -/
def PushOk (n : QSize) (s : Pair ι) : Prop :=
  match s.push with
  | .ready last => ∀ flushItem, last = some (flushItem, 0) → flushItem ≠ 0 →
      s.published = s.accepted.length
  | .store _ _ nextHead => nextHead = (s.accepted.length + 1) % n.size ∧
      s.accepted.length + 3 ≤ s.freed + n.size
  | .bump _ nextHead => nextHead = s.accepted.length % n.size ∧ 0 < s.accepted.length ∧
      s.accepted.length + 2 ≤ s.freed + n.size
  | .publish _ => True

/-- What the consumer knows where it stands: the slot it is about to load or
has just loaded holds a published item. -/
def PopOk (n : QSize) (s : Pair ι) : Prop :=
  match s.pop with
  | .ready _ => True
  | .load nextTail => nextTail = s.popped.length % n.size ∧ s.popped.length < s.published
  | .bump nextTail => nextTail = (s.popped.length - 1) % n.size ∧ 0 < s.popped.length ∧
      s.popped.length ≤ s.published
  | .publish => True

/-- The invariant of the half-steps: the four indices stand at their positions,
outstanding items are intact and the popped items are the oldest accepted ones. -/
structure Inv (n : QSize) (s : Pair ι) : Prop where
  ring : Ring n s.queue s.produced s.published s.consumed s.freed
  pushOk : s.PushOk n
  popOk : s.PopOk n
  intact : ∀ i, s.popped.length ≤ i → i < s.accepted.length →
    s.accepted[i]? = some (s.queue.items (i % n.size))
  popped_eq : s.popped = s.accepted.take s.popped.length

theorem inv_start (n : QSize) (items : Nat → ι) : Inv n (start n items) where
  ring := Ring.new items
  pushOk := by simp [PushOk, start]
  popOk := by simp [PopOk, start]
  intact := by simp [start]
  popped_eq := rfl

namespace Inv

variable {s t : Pair ι}

theorem popped_le_published (h : Inv n s) : s.popped.length ≤ s.published := by
  have hring := h.ring.consumed_le
  have hpop := h.popOk
  rcases hp : s.pop with last | nextTail | nextTail | _ <;>
    simp only [PopOk, consumed, hp] at hring hpop
  · exact hring
  · exact hring
  · exact hpop.2.2
  · exact hring

theorem published_le_accepted (h : Inv n s) : s.published ≤ s.accepted.length := by
  have hring := h.ring.published_le
  apply hring.trans
  unfold produced
  split <;> omega

theorem freed_le_popped (h : Inv n s) : s.freed ≤ s.popped.length := by
  have hring := h.ring.freed_le
  apply hring.trans
  unfold consumed
  split <;> omega

theorem accepted_room (h : Inv n s) : s.accepted.length + 2 ≤ s.freed + n.size := by
  have hring := h.ring.room
  have hpush := h.pushOk
  rcases hp : s.push with last | ⟨flushItem, item, nextHead⟩ | ⟨flushItem, nextHead⟩ | flushItem <;>
    simp only [PushOk, produced, hp] at hring hpush
  · exact hring
  · exact hring
  · exact hpush.2.2
  · exact hring

theorem pushReadTail (h : Inv n s) {flushItem : UInt8} {item : ι}
    (hst : s.step n (.pushReadTail flushItem item) = some t) : Inv n t := by
  have hring := h.ring
  cases step_effect hst with
  | readTail hp hroom =>
      have hprod : s.produced = s.accepted.length := by simp [produced, hp]
      rw [hprod] at hring
      have hlt : s.accepted.length + 2 ≠ s.freed + n.size :=
        fun he => hroom (hring.full_iff.mpr he)
      have := hring.room
      exact ⟨hring, ⟨hring.next_head, by dsimp only; omega⟩, h.popOk, h.intact, h.popped_eq⟩
  | full hp hfull =>
      have hprod : s.produced = s.accepted.length := by simp [produced, hp]
      rw [hprod] at hring
      exact ⟨hring, by simp [PushOk], h.popOk, h.intact, h.popped_eq⟩

/-- The stored item goes to a slot that no outstanding item occupies. -/
theorem pushStore (h : Inv n s) (hst : s.step n .pushStore = some t) : Inv n t := by
  cases step_effect hst with
  | @store flushItem item nextHead hp =>
      have hprod : s.produced = s.accepted.length := by simp [produced, hp]
      have hring := h.ring
      have hpush := h.pushOk
      have hfreed := h.freed_le_popped
      rw [hprod] at hring
      simp only [PushOk, hp] at hpush
      refine ⟨?_, ?_, h.popOk, ?_, ?_⟩
      · simpa [produced, consumed] using
          ({ hring with } : Ring n { s.queue with
            items := Function.update s.queue.items s.queue.shadowHead item }
            s.accepted.length s.published s.consumed s.freed)
      · simp only [PushOk, List.length_append, List.length_singleton]
        exact ⟨hpush.1, by omega, by omega⟩
      · intro i hi hlt
        simp only [List.length_append, List.length_singleton] at hlt
        dsimp only at hi ⊢
        rw [hring.shadowHead_eq]
        rcases Nat.lt_or_ge i s.accepted.length with hold | hnew
        · have hne : i % n.size ≠ s.accepted.length % n.size := by
            intro he
            have := (slot_eq_iff (by omega) (by omega)).mp he
            omega
          rw [Function.update_of_ne hne, List.getElem?_append_left hold]
          exact h.intact i hi hold
        · obtain rfl : i = s.accepted.length := by omega
          simp
      · have hle := h.popped_le_published.trans h.published_le_accepted
        dsimp only
        rw [List.take_append_of_le_length hle]
        exact h.popped_eq

/-- The moved index stands behind the stored item. -/
theorem ring_bumpHead (h : Inv n s) {flushItem : UInt8} {nextHead : Nat}
    (hp : s.push = .bump flushItem nextHead) :
    Ring n { s.queue with shadowHead := nextHead } s.accepted.length s.published s.consumed
      s.freed := by
  have hpush := h.pushOk
  simp only [PushOk, hp] at hpush
  exact
    { h.ring with
      shadowHead_eq := hpush.1
      published_le := h.published_le_accepted
      room := hpush.2.2 }

theorem pushBump (h : Inv n s) (hst : s.step n .pushBump = some t) : Inv n t := by
  cases step_effect hst with
  | bumpHead hp hpub =>
      exact ⟨h.ring_bumpHead hp, trivial, h.popOk, h.intact, h.popped_eq⟩
  | bumpHeadOnly hp hpub =>
      refine ⟨h.ring_bumpHead hp, ?_, h.popOk, h.intact, h.popped_eq⟩
      simp only [PushOk, Option.some.injEq, Prod.mk.injEq, and_true, forall_eq']
      exact fun hf => absurd (Or.inl hf) hpub

theorem pushPublish (h : Inv n s) (hst : s.step n .pushPublish = some t) : Inv n t := by
  cases step_effect hst with
  | @publishHead flushItem hp =>
      have hprod : s.produced = s.accepted.length := by simp [produced, hp]
      have hring := h.ring
      have hpub := h.published_le_accepted
      rw [hprod] at hring
      refine ⟨?_, by simp [PushOk], ?_, h.intact, h.popped_eq⟩
      · exact
          { hring with
            head_eq := hring.shadowHead_eq
            consumed_le := hring.consumed_le.trans hpub
            published_le := le_rfl }
      · have hpop := h.popOk
        rcases hq : s.pop with last | nextTail | nextTail | _ <;> simp only [PopOk, hq] at hpop ⊢
        · exact ⟨hpop.1, by omega⟩
        · exact ⟨hpop.1, hpop.2.1, by omega⟩

theorem popReadHead (h : Inv n s) (hst : s.step n .popReadHead = some t) : Inv n t := by
  have hring := h.ring
  cases step_effect hst with
  | readHead hp hsome =>
      have hcons : s.consumed = s.popped.length := by simp [consumed, hp]
      rw [hcons] at hring
      have hlt : s.popped.length < s.published :=
        lt_of_le_of_ne hring.consumed_le fun he => hsome (hring.empty_iff.mpr he)
      exact ⟨hring, h.pushOk, ⟨hring.next_tail, hlt⟩, h.intact, h.popped_eq⟩
  | empty hp hempty =>
      have hcons : s.consumed = s.popped.length := by simp [consumed, hp]
      rw [hcons] at hring
      exact ⟨hring, h.pushOk, trivial, h.intact, h.popped_eq⟩

/-- The loaded item is the oldest accepted one that was not popped yet. -/
theorem popLoad (h : Inv n s) (hst : s.step n .popLoad = some t) : Inv n t := by
  cases step_effect hst with
  | @load nextTail hp =>
      have hcons : s.consumed = s.popped.length := by simp [consumed, hp]
      have hring := h.ring
      have hpop := h.popOk
      have hpub := h.published_le_accepted
      rw [hcons] at hring
      simp only [PopOk, hp] at hpop
      refine ⟨?_, h.pushOk, ?_, ?_, ?_⟩
      · simpa [produced, consumed] using hring
      · simp only [PopOk, List.length_append, List.length_singleton]
        exact ⟨hpop.1, by omega, by omega⟩
      · intro i hi hlt
        simp only [List.length_append, List.length_singleton] at hi
        exact h.intact i (by omega) hlt
      · have hitem := h.intact s.popped.length le_rfl (by omega)
        simp only [List.length_append, List.length_singleton, List.take_add_one, hitem, hpop.1,
          Option.toList_some, ← h.popped_eq]

/-- The moved index stands behind the loaded item. -/
theorem ring_bumpTail (h : Inv n s) {nextTail : Nat} (hp : s.pop = .bump nextTail) :
    Ring n { s.queue with shadowTail := nextTail } s.produced s.published s.popped.length
      s.freed := by
  have hpop := h.popOk
  simp only [PopOk, hp] at hpop
  exact
    { h.ring with
      shadowTail_eq := by
        have hback : s.popped.length - 1 + 1 = s.popped.length := by omega
        rw [hpop.1, ← before_succ n.size_pos, hback]
      freed_le := h.freed_le_popped
      consumed_le := hpop.2.2 }

theorem popBump (h : Inv n s) (hst : s.step n .popBump = some t) : Inv n t := by
  cases step_effect hst with
  | bumpTail hp hpub =>
      exact ⟨h.ring_bumpTail hp, h.pushOk, trivial, h.intact, h.popped_eq⟩
  | bumpTailOnly hp hpub =>
      exact ⟨h.ring_bumpTail hp, h.pushOk, trivial, h.intact, h.popped_eq⟩

theorem popPublish (h : Inv n s) (hst : s.step n .popPublish = some t) : Inv n t := by
  cases step_effect hst with
  | publishTail hp =>
      have hcons : s.consumed = s.popped.length := by simp [consumed, hp]
      have hring := h.ring
      have hfreed := h.freed_le_popped
      have hroom := h.accepted_room
      rw [hcons] at hring
      refine ⟨?_, ?_, trivial, h.intact, h.popped_eq⟩
      · exact
          { hring with
            tail_eq := hring.shadowTail_eq
            freed_le := le_rfl
            room := hring.room.trans (Nat.add_le_add_right hfreed n.size) }
      · have hpush := h.pushOk
        rcases hq : s.push with _ | _ | _ | _ <;> simp only [PushOk, hq] at hpush ⊢
        · exact hpush
        · exact ⟨hpush.1, by omega⟩
        · exact ⟨hpush.1, hpush.2.1, by omega⟩

theorem step (h : Inv n s) {a : HalfStep ι} (hst : s.step n a = some t) : Inv n t := by
  cases a with
  | pushReadTail flushItem item => exact h.pushReadTail hst
  | pushStore => exact h.pushStore hst
  | pushBump => exact h.pushBump hst
  | pushPublish => exact h.pushPublish hst
  | popReadHead => exact h.popReadHead hst
  | popLoad => exact h.popLoad hst
  | popBump => exact h.popBump hst
  | popPublish => exact h.popPublish hst

end Inv

theorem reachable_inv {items : Nat → ι} {s : Pair ι}
    (h : Trace.Reachable (step n) (start n items) s) : Inv n s :=
  h.invariant (inv_start n items) fun _ _ _ hs hst => hs.step hst

section WholeCalls

/-- The half-steps of one push that nothing interrupts. -/
def pushCall (n : QSize) (q : SpscQueue ι) (flushItem : UInt8) (item : ι) :
    List (HalfStep ι) :=
  let nextHead := (q.shadowHead + 1) &&& n.itemsMask
  if q.tail ≠ nextHead then
    if flushItem ≠ 0 ∨ nextHead &&& queueWatermarkMask = 0 then
      [.pushReadTail flushItem item, .pushStore, .pushBump, .pushPublish]
    else
      [.pushReadTail flushItem item, .pushStore, .pushBump]
  else
    [.pushReadTail flushItem item]

/-- The half-steps of one pop that nothing interrupts. -/
def popCall (n : QSize) (q : SpscQueue ι) : List (HalfStep ι) :=
  let nextTail := (q.shadowTail + 1) &&& n.itemsMask
  if nextTail ≠ q.head then
    if nextTail &&& queueWatermarkMask = 0 then
      [.popReadHead, .popLoad, .popBump, .popPublish]
    else
      [.popReadHead, .popLoad, .popBump]
  else
    [.popReadHead]

/-- Uninterrupted half-steps of a push are `spscq_push`. -/
theorem exec_pushCall (s : Pair ι) {last : Option (UInt8 × Nat)} (hs : s.push = .ready last)
    (flushItem : UInt8) (item : ι) :
    ∃ t, Trace.exec (step n) s (pushCall n s.queue flushItem item) = some t ∧
      t.queue = (spscqPush n s.queue flushItem item).2 ∧
      t.push = .ready (some (flushItem, (spscqPush n s.queue flushItem item).1)) ∧
      t.accepted = (if (spscqPush n s.queue flushItem item).1 = 0 then s.accepted ++ [item]
        else s.accepted) ∧
      t.pop = s.pop ∧ t.popped = s.popped := by
  by_cases hroom : s.queue.tail = (s.queue.shadowHead + 1) &&& n.itemsMask
  · simp [pushCall, spscqPush, hroom, Trace.exec, step, hs]
  · by_cases hpub : flushItem ≠ 0 ∨
        ((s.queue.shadowHead + 1) &&& n.itemsMask) &&& queueWatermarkMask = 0
    · simp [pushCall, spscqPush, hroom, if_pos hpub, Trace.exec, step, hs]
    · simp [pushCall, spscqPush, hroom, if_neg hpub, Trace.exec, step, hs]

/-- Uninterrupted half-steps of a pop are `spscq_pop`. -/
theorem exec_popCall (s : Pair ι) {last : Option Nat} (hs : s.pop = .ready last) :
    ∃ t, Trace.exec (step n) s (popCall n s.queue) = some t ∧
      t.queue = (spscqPop n s.queue).2.2 ∧
      t.pop = .ready (some (spscqPop n s.queue).1) ∧
      t.popped = s.popped ++ (spscqPop n s.queue).2.1.toList ∧
      t.push = s.push ∧ t.accepted = s.accepted := by
  by_cases hempty : (s.queue.shadowTail + 1) &&& n.itemsMask = s.queue.head
  · simp [popCall, spscqPop, hempty, Trace.exec, step, hs]
  · by_cases hmark : ((s.queue.shadowTail + 1) &&& n.itemsMask) &&& queueWatermarkMask = 0
    · simp [popCall, spscqPop, hempty, hmark, Trace.exec, step, hs]
    · simp [popCall, spscqPop, hempty, hmark, Trace.exec, step, hs]

/-- Both sides stand between calls, with the queue and the items of a session. -/
structure Between (s : Session ι) (t : Pair ι) : Prop where
  queue : t.queue = s.queue
  push : ∃ last, t.push = .ready last
  pop : ∃ last, t.pop = .ready last
  accepted : t.accepted = s.accepted
  popped : t.popped = s.popped

/-- A whole call is a run of half-steps. -/
theorem Between.call {s : Session ι} {t : Pair ι} (h : Between s t) (op : Op ι) :
    ∃ as u, Trace.exec (step n) t as = some u ∧ Between (s.call n op).2 u := by
  obtain ⟨last, hpush⟩ := h.push
  obtain ⟨last', hpop⟩ := h.pop
  cases op with
  | push flushItem item =>
      obtain ⟨u, hexec, hq, hready, hacc, hpop', hpopped⟩ :=
        exec_pushCall (n := n) t hpush flushItem item
      rw [h.queue] at hq hready hacc
      refine ⟨_, u, hexec, hq, ⟨_, hready⟩, ⟨last', hpop'.trans hpop⟩, ?_,
        hpopped.trans h.popped⟩
      rw [hacc, h.accepted]
      rfl
  | pop =>
      obtain ⟨u, hexec, hq, hready, hpopped, hpush', hacc⟩ := exec_popCall (n := n) t hpop
      rw [h.queue] at hq hready hpopped
      refine ⟨_, u, hexec, hq, ⟨last, hpush'.trans hpush⟩, ⟨_, hready⟩,
        hacc.trans h.accepted, ?_⟩
      rw [hpopped, h.popped]
      rfl

/-- Every session of whole calls is a run of half-steps. -/
theorem reachable_of_session {items : Nat → ι} {s : Session ι}
    (h : Trace.Reachable (Session.step n) (Session.start n items) s) :
    ∃ t, Trace.Reachable (step n) (start n items) t ∧ Between s t := by
  refine h.invariant
    (I := fun s => ∃ t, Trace.Reachable (step n) (start n items) t ∧ Between s t)
    ⟨start n items, .refl _, rfl, ⟨none, rfl⟩, ⟨none, rfl⟩, rfl, rfl⟩ ?_
  rintro s op s' ⟨t, ht, hbetween⟩ hst
  obtain rfl := Option.some.inj hst
  obtain ⟨as, u, hexec, hcall⟩ := hbetween.call (n := n) op
  exact ⟨u, ht.of_exec hexec, hcall⟩

end WholeCalls

section Refinement

/-- What a first-in first-out queue may do in one step. -/
inductive FifoStep : List ι → List ι → Prop
  | stay (xs : List ι) : FifoStep xs xs
  | enqueue (xs : List ι) (x : ι) : FifoStep xs (xs ++ [x])
  | dequeue (x : ι) (xs : List ι) : FifoStep (x :: xs) xs

/-- The contents of the queue: the accepted items that were not popped. -/
def contents (s : Pair ι) : List ι := s.accepted.drop s.popped.length

/-- A half-step that moves no item leaves the contents alone. -/
theorem FifoStep.of_same {s t : Pair ι} (ha : t.accepted = s.accepted)
    (hp : t.popped = s.popped) : FifoStep s.contents t.contents := by
  have : t.contents = s.contents := by simp only [contents, ha, hp]
  exact this ▸ FifoStep.stay _

/-- Every half-step of the pair is a step of the first-in first-out queue: the
store enqueues, the load dequeues and the other half-steps change nothing. -/
theorem step_fifo {s t : Pair ι} (h : Inv n s) {a : HalfStep ι} (hst : s.step n a = some t) :
    FifoStep s.contents t.contents := by
  have hle := h.popped_le_published.trans h.published_le_accepted
  cases step_effect hst with
  | @store flushItem item nextHead hp =>
      simp only [contents, List.drop_append_of_le_length hle]
      exact FifoStep.enqueue _ item
  | load hp =>
      have hpop := h.popOk
      simp only [PopOk, hp] at hpop
      have hlt : s.popped.length < s.accepted.length :=
        hpop.2.trans_le h.published_le_accepted
      simp only [contents, List.length_append, List.length_singleton,
        List.drop_eq_getElem_cons hlt]
      exact FifoStep.dequeue _ _
  | _ => exact FifoStep.of_same rfl rfl

/-- A pop that returns 1 has found every published item popped. -/
theorem Inv.empty_popped {s t : Pair ι} (h : Inv n s) (hst : Pair.step n s .popReadHead = some t)
    (hret : t.pop = .ready (some 1)) : s.popped.length = s.published := by
  cases step_effect hst with
  | readHead hp hsome => cases hret
  | empty hp hempty =>
      have hcons : s.consumed = s.popped.length := by simp [consumed, hp]
      have hring := h.ring
      rw [hcons] at hring
      exact hring.empty_iff.mp hempty

/-- The queue refines a first-in first-out queue in every interleaving: every
half-step enqueues, dequeues or leaves the contents alone, the popped items are
the oldest accepted ones in order, an item stays in its slot until it is loaded,
an empty-handed pop has seen every item published when it read `head`, and a
flushing push that was accepted publishes everything. -/
theorem refines_fifo (n : QSize) (items : Nat → ι) (s : Pair ι)
    (h : Trace.Reachable (step n) (start n items) s) :
    (∀ a t, s.step n a = some t → FifoStep s.contents t.contents) ∧
    s.popped <+: s.accepted ∧
    (∀ i, s.popped.length ≤ i → i < s.accepted.length →
      s.accepted[i]? = some (s.queue.items (i % n.size))) ∧
    s.queue.head = s.published % n.size ∧
    (∀ t, s.step n .popReadHead = some t → t.pop = .ready (some 1) →
      s.popped.length = s.published) ∧
    (∀ flushItem, s.push = .ready (some (flushItem, 0)) → flushItem ≠ 0 →
      s.published = s.accepted.length) := by
  have hs := reachable_inv h
  refine ⟨fun a t => step_fifo hs, ?_, hs.intact, hs.ring.head_eq, fun t => hs.empty_popped, ?_⟩
  · rw [hs.popped_eq]
    exact List.take_prefix _ _
  · intro flushItem hready hflush
    have hpush := hs.pushOk
    simp only [PushOk, hready] at hpush
    exact hpush flushItem rfl hflush

/-- Two pushes with a pop between them and a flushing push: all items are published, and the one
that was popped is the first. -/
theorem refines_fifo_calls :
    ∃ s : Pair Nat, s.accepted = [7, 8, 9] ∧ s.popped = [7] ∧ s.popped <+: s.accepted ∧
      s.published = s.accepted.length := by
  let n : QSize := ⟨9, le_rfl⟩
  have hrun : Trace.exec (Session.step n) (Session.start n fun _ => 0)
      [.push 1 7, .pop, .push 0 8] = some _ := rfl
  obtain ⟨t, ht, hbetween⟩ := reachable_of_session ⟨_, hrun⟩
  obtain ⟨last, hpush⟩ := hbetween.push
  obtain ⟨s, hexec, -, hready, haccepted, -, hpopped⟩ := exec_pushCall (n := n) t hpush 1 9
  rw [hbetween.queue] at hready haccepted
  rw [hbetween.accepted] at haccepted
  have haccept : s.push = .ready (some (1, 0)) := by
    rw [hready]
    exact congrArg (fun r => PushPc.ready (some (1, r))) (by decide)
  obtain ⟨-, hprefixed, -, -, -, hflush⟩ := refines_fifo n (fun _ => 0) s (ht.of_exec hexec)
  exact ⟨s, haccepted.trans (by decide), (hpopped.trans hbetween.popped).trans (by decide),
    hprefixed, hflush 1 haccept (by decide)⟩

end Refinement

end Pair

end Umink.Spscq
