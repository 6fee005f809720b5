import Umink.Spscq.Interleaving

/-!
# A producer that flushes every item

What the half-steps of one side leave to the other, and how far a producer that
passes a flush flag with every item is behind with publishing.
-/

namespace Umink.Spscq

variable {ι : Type*} {n : QSize}

/-- The half-steps of the producer. -/
def HalfStep.isPush : HalfStep ι → Bool
  | .pushReadTail _ _ | .pushStore | .pushBump | .pushPublish => true
  | .popReadHead | .popLoad | .popBump | .popPublish => false

namespace Pair

variable {s t : Pair ι} {a : HalfStep ι}

/-- The producer leaves the position and the items of the consumer alone. -/
theorem push_frame (ha : a.isPush) (hst : s.step n a = some t) :
    t.pop = s.pop ∧ t.popped = s.popped := by
  cases step_effect hst with
  | readHead | empty | load | bumpTail | bumpTailOnly | publishTail => cases ha
  | _ => exact ⟨rfl, rfl⟩

/-- The consumer leaves the position and the items of the producer alone. -/
theorem pop_frame (ha : ¬ a.isPush) (hst : s.step n a = some t) :
    t.push = s.push ∧ t.accepted = s.accepted ∧ t.published = s.published := by
  cases step_effect hst with
  | readTail | full | store | bumpHead | bumpHeadOnly | publishHead => exact absurd rfl ha
  | _ => exact ⟨rfl, rfl, rfl⟩

/-- Where a producer that flushes every item stands: only the item that it is
pushing is stored and not published. -/
def Flushes (s : Pair ι) : Prop :=
  match s.push with
  | .ready _ => s.published = s.accepted.length
  | .store flushItem _ _ => flushItem ≠ 0 ∧ s.published = s.accepted.length
  | .bump flushItem _ => flushItem ≠ 0 ∧ s.published + 1 = s.accepted.length
  | .publish _ => s.published + 1 = s.accepted.length

theorem flushes_start (n : QSize) (items : Nat → ι) : (start n items).Flushes := rfl

theorem Flushes.of_pop (h : s.Flushes) (ha : ¬ a.isPush) (hst : s.step n a = some t) :
    t.Flushes := by
  obtain ⟨hpush, hacc, hpub⟩ := pop_frame ha hst
  simpa only [Flushes, hpush, hacc, hpub] using h

/-- A call of `spscq_push` with the flush flag returns at once or goes on. -/
theorem Flushes.pushReadTail (h : s.Flushes) {flushItem : UInt8} {item : ι} (hf : flushItem ≠ 0)
    (hst : s.step n (.pushReadTail flushItem item) = some t) :
    t.Flushes ∧ t.accepted = s.accepted ∧ t.published = s.published := by
  unfold Flushes at h
  cases step_effect hst with
  | readTail hp hroom =>
      simp only [hp] at h
      exact ⟨⟨hf, h⟩, rfl, rfl⟩
  | full hp hfull =>
      simp only [hp] at h
      exact ⟨h, rfl, rfl⟩

theorem Flushes.pushStore (h : s.Flushes) (hst : s.step n .pushStore = some t) :
    t.Flushes ∧ t.published = s.published := by
  cases step_effect hst with
  | @store flushItem item nextHead hp =>
      simp only [Flushes, hp] at h
      refine ⟨⟨h.1, ?_⟩, rfl⟩
      simp only [List.length_append, List.length_singleton, h.2]

theorem Flushes.pushBump (h : s.Flushes) (hst : s.step n .pushBump = some t) :
    t.Flushes ∧ t.published = s.published := by
  unfold Flushes at h
  cases step_effect hst with
  | bumpHead hp hpub =>
      simp only [hp] at h
      exact ⟨h.2, rfl⟩
  | bumpHeadOnly hp hpub =>
      simp only [hp] at h
      exact absurd (Or.inl h.1) hpub

/-- The end of a push publishes all that is stored. -/
theorem flushes_of_pushPublish (hst : s.step n .pushPublish = some t) : t.Flushes := by
  cases step_effect hst with
  | @publishHead flushItem hp =>
      rfl

/-- A call of `spscq_pop` returns at once with every published item popped, or goes
on. -/
theorem popReadHead_cases (h : Inv n s) (hst : s.step n .popReadHead = some t) :
    t.popped = s.popped ∧
      ((∃ last, t.pop = .ready last ∧ s.popped.length = s.published) ∨
        ∃ nextTail, t.pop = .load nextTail) := by
  have hdrained := h.empty_popped hst
  cases step_effect hst with
  | readHead hp hsome => exact ⟨rfl, Or.inr ⟨_, rfl⟩⟩
  | empty hp hempty => exact ⟨rfl, Or.inl ⟨_, rfl, hdrained rfl⟩⟩

end Pair

end Umink.Spscq
