import Umink.Library.Trace
import Umink.Spscq.Queue

/-!
# Whole operations on the queue

A session runs complete pushes and pops one after another and remembers the
accepted and the popped items. Slots come back to the producer in batches of
256, so a refused push leaves at least `QSIZE - 257` items in the queue.
-/

namespace Umink.Spscq

open Umink.Library Umink.Library.RingIndex

variable {ι : Type*} {n : QSize}

namespace Ring

variable {q : SpscQueue ι} {produced published consumed freed : Nat}

/-- A push is refused by a full ring; otherwise it fills the slot of the next
position and publishes it at least when it asks for a flush. -/
theorem push_cases (h : Ring n q produced published consumed freed) (flushItem : UInt8)
    (item : ι) :
    (produced + 2 = freed + n.size ∧ spscqPush n q flushItem item = (1, q)) ∨
    (produced + 2 < freed + n.size ∧ ∃ q' published',
      spscqPush n q flushItem item = (0, q') ∧
      q'.items = Function.update q.items (produced % n.size) item ∧
      (flushItem ≠ 0 → published' = produced + 1) ∧
      Ring n q' (produced + 1) published' consumed freed) := by
  by_cases hfull : q.tail = (q.shadowHead + 1) &&& n.itemsMask
  · exact Or.inl ⟨h.full_iff.mp hfull, by simp [spscqPush, hfull]⟩
  · have hroom : produced + 2 < freed + n.size :=
      lt_of_le_of_ne h.room fun he => hfull (h.full_iff.mpr he)
    refine Or.inr ⟨hroom, ?_⟩
    have hnext := h.next_head
    rw [hnext] at hfull
    have hpublished := h.published_le
    have hconsumed := h.consumed_le
    let filled : SpscQueue ι :=
      { q with
        items := Function.update q.items q.shadowHead item
        shadowHead := (produced + 1) % n.size }
    have hitems : filled.items = Function.update q.items (produced % n.size) item := by
      simp only [filled, h.shadowHead_eq]
    by_cases hpub : flushItem ≠ 0 ∨ (produced + 1) % n.size &&& queueWatermarkMask = 0
    · refine ⟨{ filled with head := (produced + 1) % n.size }, produced + 1, ?_, hitems,
        fun _ => rfl, ?_⟩
      · simp only [spscqPush, hnext, ne_eq, hfull, not_false_eq_true, if_true, if_pos hpub, filled]
      · exact ⟨rfl, rfl, h.shadowTail_eq, h.tail_eq, h.freed_le, by omega, le_rfl, hroom⟩
    · refine ⟨filled, published, ?_, hitems, fun hf => absurd (Or.inl hf) hpub, ?_⟩
      · simp only [spscqPush, hnext, ne_eq, hfull, not_false_eq_true, if_true, if_neg hpub, filled]
      · exact ⟨rfl, h.head_eq, h.shadowTail_eq, h.tail_eq, h.freed_le, hconsumed, by omega, hroom⟩

/-- A pop finds nothing after every published item; otherwise it reads the
slot of the next position and gives the slots back at the watermark. -/
theorem pop_cases (h : Ring n q produced published consumed freed) :
    (consumed = published ∧ spscqPop n q = (1, none, q)) ∨
    (consumed < published ∧ ∃ q',
      spscqPop n q = (0, some (q.items (consumed % n.size)), q') ∧ q'.items = q.items ∧
      Ring n q' produced published (consumed + 1)
        (if consumed % 256 = 0 then consumed + 1 else freed)) := by
  by_cases hempty : (q.shadowTail + 1) &&& n.itemsMask = q.head
  · exact Or.inl ⟨h.empty_iff.mp hempty, by simp [spscqPop, hempty]⟩
  · have hlt : consumed < published :=
      lt_of_le_of_ne h.consumed_le fun he => hempty (h.empty_iff.mpr he)
    refine Or.inr ⟨hlt, ?_⟩
    have hnext := h.next_tail
    rw [hnext] at hempty
    have hshadow : consumed % n.size = before n.size (consumed + 1) :=
      (before_succ n.size_pos consumed).symm
    have hfreed := h.freed_le
    have hpub := h.published_le
    have hroom := h.room
    let taken : SpscQueue ι := { q with shadowTail := consumed % n.size }
    by_cases hmark : consumed % 256 = 0
    · refine ⟨{ taken with tail := consumed % n.size }, ?_, rfl, ?_⟩
      · simp only [spscqPop, hnext, ne_eq, hempty, not_false_eq_true, if_true,
          n.mask_watermark, if_pos hmark, taken]
      · rw [if_pos hmark]
        exact ⟨h.shadowHead_eq, h.head_eq, hshadow, hshadow, le_rfl, hlt, hpub, by omega⟩
    · refine ⟨taken, ?_, rfl, ?_⟩
      · simp only [spscqPop, hnext, ne_eq, hempty, not_false_eq_true, if_true,
          n.mask_watermark, if_neg hmark, taken]
      · rw [if_neg hmark]
        exact ⟨h.shadowHead_eq, h.head_eq, hshadow, h.tail_eq, by omega, hlt, hpub, hroom⟩

end Ring

/-- One complete call on the queue. -/
inductive Op (ι : Type*) where
  | push (flushItem : UInt8) (item : ι)
  | pop

/-- A queue with the items its pushes accepted and its pops delivered. -/
structure Session (ι : Type*) where
  queue : SpscQueue ι
  accepted : List ι
  popped : List ι

namespace Session

/-- The items accepted and not yet popped. -/
def outstanding (s : Session ι) : Nat := s.accepted.length - s.popped.length

def start (n : QSize) (items : Nat → ι) : Session ι := ⟨spscqNew n items, [], []⟩

/-- The return code of a call and the session after it. -/
def call (n : QSize) (s : Session ι) : Op ι → Nat × Session ι
  | .push flushItem item =>
      let (r, q) := spscqPush n s.queue flushItem item
      (r, { s with queue := q, accepted := if r = 0 then s.accepted ++ [item] else s.accepted })
  | .pop =>
      let (r, item, q) := spscqPop n s.queue
      (r, { s with queue := q, popped := s.popped ++ item.toList })

/-- Every call is enabled in every state. -/
def step (n : QSize) (s : Session ι) (op : Op ι) : Option (Session ι) := some (s.call n op).2

/-- The number of pushes in a list of calls. -/
def pushes (ops : List (Op ι)) : Nat :=
  ops.countP fun
    | .push _ _ => true
    | .pop => false

/-- The return codes of the pushes in a list of calls. -/
def pushReturns (n : QSize) (s : Session ι) : List (Op ι) → List Nat
  | [] => []
  | .push flushItem item :: ops =>
      let (r, s) := s.call n (.push flushItem item)
      r :: pushReturns n s ops
  | .pop :: ops => pushReturns n (s.call n .pop).2 ops

/-- Freed slots lag behind the pops by less than one watermark: `tail` is
written after pops number 1, 257, 513 and so on. -/
structure Inv (n : QSize) (s : Session ι) (published freed : Nat) : Prop where
  ring : Ring n s.queue s.accepted.length published s.popped.length freed
  freed_zero : freed = 0 → s.popped.length = 0
  freed_mod : 0 < freed → freed % 256 = 1
  lag : s.popped.length < freed + 256

namespace Inv

variable {s : Session ι} {published freed : Nat}

theorem start (items : Nat → ι) : Inv n (start n items) 0 0 :=
  ⟨Ring.new items, fun _ => rfl, fun h => absurd h (lt_irrefl 0), by simp [Session.start]⟩

theorem outstanding_le (h : Inv n s published freed) : s.outstanding ≤ n.size - 2 := by
  have := h.ring.room
  have := h.ring.freed_le
  simp only [outstanding]
  omega

theorem full_outstanding (h : Inv n s published freed)
    (hfull : s.accepted.length + 2 = freed + n.size) : n.size - 257 ≤ s.outstanding := by
  have := h.lag
  simp only [outstanding]
  omega

/-- A push is refused with `QSIZE - 257` items outstanding; otherwise it adds
one item. -/
theorem push_cases (h : Inv n s published freed) (flushItem : UInt8) (item : ι) :
    ((s.call n (.push flushItem item)).1 = 1 ∧ n.size - 257 ≤ s.outstanding ∧
      (s.call n (.push flushItem item)).2 = s) ∨
    ((s.call n (.push flushItem item)).1 = 0 ∧
      (s.call n (.push flushItem item)).2.outstanding = s.outstanding + 1 ∧
      ∃ published', Inv n (s.call n (.push flushItem item)).2 published' freed) := by
  have hle : s.popped.length ≤ s.accepted.length :=
    h.ring.consumed_le.trans h.ring.published_le
  rcases h.ring.push_cases flushItem item with ⟨hfull, heq⟩ | ⟨-, q', published', heq, -, -, hring⟩
  · refine Or.inl ⟨by simp [call, heq], h.full_outstanding hfull, ?_⟩
    simp [call, heq]
  · refine Or.inr ⟨by simp [call, heq], ?_, published', ?_⟩
    · simp only [call, heq, outstanding, if_true, List.length_append, List.length_singleton]
      omega
    · exact ⟨by simpa [call, heq] using hring, by simpa [call, heq] using h.freed_zero,
        h.freed_mod, by simpa [call, heq] using h.lag⟩

theorem pop_step (h : Inv n s published freed) :
    (s.call n .pop).2.outstanding ≤ s.outstanding ∧
      ∃ freed', Inv n (s.call n .pop).2 published freed' := by
  rcases h.ring.pop_cases with ⟨-, heq⟩ | ⟨-, q', heq, -, hring⟩
  · have hs : (s.call n .pop).2 = s := by simp [call, heq]
    exact ⟨by rw [hs], freed, by rw [hs]; exact h⟩
  · have hlength : (s.call n .pop).2.popped.length = s.popped.length + 1 := by
      simp [call, heq]
    have haccepted : (s.call n .pop).2.accepted = s.accepted := by simp [call]
    have hzero := h.freed_zero
    have hmod := h.freed_mod
    have hlag := h.lag
    refine ⟨by simp only [outstanding, hlength, haccepted]; omega,
      if s.popped.length % 256 = 0 then s.popped.length + 1 else freed, ?_⟩
    constructor
    · rw [hlength, haccepted]
      simpa [call, heq] using hring
    · rw [hlength]
      split <;> omega
    · split <;> omega
    · rw [hlength]
      split <;> omega

theorem call_step (h : Inv n s published freed) (op : Op ι) :
    ∃ published' freed', Inv n (s.call n op).2 published' freed' := by
  cases op with
  | push flushItem item =>
      rcases h.push_cases flushItem item with ⟨-, -, hs⟩ | ⟨-, -, published', hs⟩
      · exact ⟨published, freed, by rw [hs]; exact h⟩
      · exact ⟨published', freed, hs⟩
  | pop =>
      obtain ⟨-, freed', hs⟩ := h.pop_step
      exact ⟨published, freed', hs⟩

end Inv

theorem reachable_inv {items : Nat → ι} {s : Session ι}
    (h : Trace.Reachable (step n) (start n items) s) :
    ∃ published freed, Inv n s published freed := by
  refine h.invariant (I := fun s => ∃ published freed, Inv n s published freed)
    ⟨0, 0, Inv.start items⟩ ?_
  rintro s op t ⟨published, freed, hs⟩ hst
  obtain rfl := Option.some.inj hst
  exact hs.call_step op

/-- While fewer than `QSIZE - 257` items can be outstanding, no push is
refused. The induction is on the calls; each push spends one item of room. -/
theorem pushReturns_eq_zero {s : Session ι} {published freed : Nat}
    (h : Inv n s published freed) (ops : List (Op ι))
    (hroom : s.outstanding + pushes ops ≤ n.size - 257) :
    ∀ r ∈ s.pushReturns n ops, r = 0 := by
  induction ops generalizing s published freed with
  | nil => simp [pushReturns]
  | cons op ops ih =>
      cases op with
      | push flushItem item =>
          have hcount : pushes (.push flushItem item :: ops) = pushes ops + 1 := by
            simp [pushes]
          rcases h.push_cases flushItem item with ⟨-, hfull, -⟩ | ⟨hr, hout, published', hs⟩
          · omega
          · simp only [pushReturns, List.mem_cons, forall_eq_or_imp]
            exact ⟨hr, ih hs (by omega)⟩
      | pop =>
          have hcount : pushes (Op.pop :: ops) = pushes ops := by simp [pushes]
          obtain ⟨hout, freed', hs⟩ := h.pop_step
          simpa only [pushReturns] using ih hs (by omega)

/-- In every reachable state at most `QSIZE - 2` items are outstanding, a
refused push leaves at least `QSIZE - 257` of them, and a drained queue takes
the next `QSIZE - 257` pushes, whatever pops come between them. -/
theorem never_spuriously_full (n : QSize) (items : Nat → ι) (s : Session ι)
    (h : Trace.Reachable (step n) (start n items) s) :
    s.popped.length ≤ s.accepted.length ∧ s.outstanding ≤ n.size - 2 ∧
    (∀ flushItem item, (spscqPush n s.queue flushItem item).1 = 1 →
      n.size - 257 ≤ s.outstanding) ∧
    (s.outstanding = 0 → ∀ ops : List (Op ι), pushes ops ≤ n.size - 257 →
      ∀ r ∈ s.pushReturns n ops, r = 0) := by
  obtain ⟨published, freed, hs⟩ := reachable_inv h
  refine ⟨hs.ring.consumed_le.trans hs.ring.published_le, hs.outstanding_le, ?_, ?_⟩
  · intro flushItem item hr
    rcases hs.push_cases flushItem item with ⟨-, hfull, -⟩ | ⟨hr', -, -⟩
    · exact hfull
    · exact absurd (hr.symm.trans hr') one_ne_zero
  · intro hempty ops hops
    exact pushReturns_eq_zero hs ops (by omega)

/-- A queue of 512 slots that took three items and gave them out takes the next 255. -/
theorem never_spuriously_full_drained :
    ∃ s, Trace.exec (step ⟨9, le_rfl⟩) (start ⟨9, le_rfl⟩ fun _ => 0)
        [.push 1 7, .push 0 8, .pop, .pop, .push 1 9, .pop, .pop] = some s ∧
      s.popped = [7, 8, 9] ∧ s.outstanding ≤ 510 ∧
      ∀ r ∈ s.pushReturns ⟨9, le_rfl⟩ (.pop :: List.replicate 255 (.push 0 1)), r = 0 := by
  have hrun : Trace.exec (step ⟨9, le_rfl⟩) (start ⟨9, le_rfl⟩ fun _ => 0)
      [.push 1 7, .push 0 8, .pop, .pop, .push 1 9, .pop, .pop] = some _ := rfl
  have h := never_spuriously_full ⟨9, le_rfl⟩ (fun _ => 0) _ ⟨_, hrun⟩
  have hpushes : ∀ k, pushes (.pop :: List.replicate k (.push 0 1) : List (Op Nat)) = k :=
    fun k => by
      rw [pushes, List.countP_cons_of_neg Bool.false_ne_true, List.countP_replicate]
      rfl
  exact ⟨_, hrun, by decide, h.2.1, h.2.2.2 (by decide) _ (hpushes 255).le⟩

end Session

end Umink.Spscq
