import Mathlib.Data.List.Basic
import Mathlib.Tactic.Common

/-!
# The first element with a property

What a search in the results of a list finds comes from the first element that has a
matching result.
-/

namespace Umink.Library

variable {α β : Type*}

/-- The element at the position `i` is the first one with a property. -/
structure FirstAt (p : α → Prop) (as : List α) (i : Nat) (a : α) : Prop where
  entry : as[i]? = some a
  holds : p a
  least : ∀ j < i, ∀ b, as[j]? = some b → ¬ p b

namespace FirstAt

variable {p : α → Prop} {as : List α} {i : Nat} {a b : α}

theorem head (ha : p a) : FirstAt p (a :: as) 0 a := ⟨rfl, ha, nofun⟩

theorem cons (h : FirstAt p as i a) (hb : ¬ p b) : FirstAt p (b :: as) (i + 1) a where
  entry := h.entry
  holds := h.holds
  least j hj c hc := by
    cases j with
    | zero => exact Option.some.inj hc ▸ hb
    | succ j => exact h.least j (Nat.lt_of_succ_lt_succ hj) c hc

theorem append (h : FirstAt p as i a) (bs : List α) : FirstAt p (as ++ bs) i a := by
  obtain ⟨hi, -⟩ := List.getElem?_eq_some_iff.mp h.entry
  refine ⟨(List.getElem?_append_left hi).trans h.entry, h.holds, fun j hj c hc => ?_⟩
  rw [List.getElem?_append_left (Nat.lt_trans hj hi)] at hc
  exact h.least j hj c hc

theorem index_eq {j : Nat} (h : FirstAt p as i a) (h' : FirstAt p as j b) : i = j := by
  apply Nat.le_antisymm
  · exact Nat.not_lt.mp fun hlt => h.least j hlt b h'.entry h'.holds
  · exact Nat.not_lt.mp fun hlt => h'.least i hlt a h.entry h.holds

end FirstAt

/-- A search in the numbered results of a list finds a result of the first element that
has a matching one. -/
theorem find?_flatMap_zipIdx {p : α → Prop} {q : β → Bool} {f : α × Nat → List β}
    (hf : ∀ a i, (f (a, i)).find? q = none ↔ ¬ p a) {as : List α} {i : Nat} {b : β}
    (h : ((as.zipIdx i).flatMap f).find? q = some b) :
    ∃ j a, FirstAt p as j a ∧ (f (a, i + j)).find? q = some b := by
  induction as generalizing i with
  | nil => cases h
  | cons a as ih =>
      rw [List.zipIdx_cons, List.flatMap_cons, List.find?_append] at h
      cases hfirst : (f (a, i)).find? q with
      | some b' =>
          rw [hfirst, Option.some_or] at h
          have ha : p a := by
            by_contra hno
            rw [(hf a i).mpr hno] at hfirst
            cases hfirst
          exact ⟨0, a, FirstAt.head ha, hfirst.trans h⟩
      | none =>
          rw [hfirst, Option.none_or] at h
          obtain ⟨j, a', hat, hfind⟩ := ih h
          refine ⟨j + 1, a', hat.cons ((hf a i).mp hfirst), ?_⟩
          rwa [Nat.add_comm j 1, ← Nat.add_assoc]

end Umink.Library
