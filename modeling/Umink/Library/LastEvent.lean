import Mathlib.Logic.Function.Basic
import Mathlib.Tactic.Common

/-!
# The last event about a key

A state is the fold of a step over a list of events. What it shows of a key is decided by
the last event about the key, and by the first state when there is none.
-/

namespace Umink.Library.LastEvent

variable {σ ε ν : Type*}

/-- The last event of the list with the property is followed by `after`. -/
structure Last (about : ε → Prop) (events before : List ε) (e : ε) (after : List ε) : Prop where
  split : events = before ++ e :: after
  meets : about e
  rest : ∀ f ∈ after, ¬ about f

variable {about : ε → Prop}

/-- Either no event has the property or one of them is the last. -/
theorem none_or_last (about : ε → Prop) (events : List ε) :
    (∀ e ∈ events, ¬ about e) ∨ ∃ before e after, Last about events before e after := by
  induction events with
  | nil => exact .inl fun e h => absurd h List.not_mem_nil
  | cons e events ih =>
      obtain hnone | ⟨before, f, after, hlast⟩ := ih
      · by_cases he : about e
        · exact .inr ⟨[], e, events, rfl, he, hnone⟩
        · exact .inl (List.forall_mem_cons.mpr ⟨he, hnone⟩)
      · refine .inr ⟨e :: before, f, after, ?_, hlast.meets, hlast.rest⟩
        rw [hlast.split, List.cons_append]

variable {step : σ → ε → σ} {view : σ → ν}

/-- Events about other keys leave the view as it is. -/
theorem view_foldl (hother : ∀ s e, ¬ about e → view (step s e) = view s) {events : List ε}
    (h : ∀ e ∈ events, ¬ about e) (s : σ) : view (events.foldl step s) = view s := by
  induction events generalizing s with
  | nil => rfl
  | cons e events ih =>
      obtain ⟨he, hrest⟩ := List.forall_mem_cons.mp h
      calc
        view ((e :: events).foldl step s) = view (step s e) := ih hrest _
        _ = view s := hother s e he

/-- The last event about the key decides the view. -/
theorem Last.view_foldl (hother : ∀ s e, ¬ about e → view (step s e) = view s)
    {events before after : List ε} {e : ε} (h : Last about events before e after) (s : σ) :
    view (events.foldl step s) = view (step (before.foldl step s) e) := by
  rw [h.split, List.foldl_append, List.foldl_cons]
  exact LastEvent.view_foldl hother h.rest _

/-- The view is `v` exactly when the last event about the key makes it `v`, or there is none
and the first state shows it. -/
theorem view_foldl_eq_iff (hother : ∀ s e, ¬ about e → view (step s e) = view s)
    (events : List ε) (s : σ) (v : ν) :
    view (events.foldl step s) = v ↔
      ((∀ e ∈ events, ¬ about e) ∧ view s = v) ∨
      ∃ before e after, Last about events before e after ∧
        view (step (before.foldl step s) e) = v := by
  constructor
  · intro hview
    obtain hnone | ⟨before, e, after, hlast⟩ := none_or_last about events
    · exact .inl ⟨hnone, by rw [← view_foldl hother hnone s, hview]⟩
    · exact .inr ⟨before, e, after, hlast, by rw [← hlast.view_foldl hother s, hview]⟩
  · rintro (⟨hnone, hview⟩ | ⟨before, e, after, hlast, hview⟩)
    · rw [view_foldl hother hnone s, hview]
    · rw [hlast.view_foldl hother s, hview]

end Umink.Library.LastEvent
