import Mathlib.Data.List.Nodup
import Mathlib.Data.List.Pairwise
import Mathlib.Order.Basic
import Mathlib.Tactic.Common

/-!
# Greedy selection

The elements of a list are taken one after another, except for those that are not valid
and those that conflict with an element taken before.
-/

namespace Umink.Library.Greedy

variable {α : Type*} (valid : α → Prop) (conflict : α → α → Prop)

/-- The elements that are taken from the list `xs`, after the elements `kept`. -/
inductive Select : List α → List α → List α → Prop
  | nil (kept : List α) : Select kept [] []
  | take {kept xs new : List α} {x : α} (hvalid : valid x) (hfree : ∀ y ∈ kept, ¬ conflict y x)
      (h : Select (kept ++ [x]) xs new) : Select kept (x :: xs) (x :: new)
  | skip {kept xs new : List α} {x : α} (hrefused : valid x → ∃ y ∈ kept, conflict y x)
      (h : Select kept xs new) : Select kept (x :: xs) new

theorem exists_select (kept xs : List α) : ∃ new, Select valid conflict kept xs new := by
  induction xs generalizing kept with
  | nil => exact ⟨[], .nil kept⟩
  | cons x xs ih =>
      by_cases hx : valid x ∧ ∀ y ∈ kept, ¬ conflict y x
      · obtain ⟨new, h⟩ := ih (kept ++ [x])
        exact ⟨x :: new, .take hx.1 hx.2 h⟩
      · obtain ⟨new, h⟩ := ih kept
        refine ⟨new, .skip (fun hvalid => ?_) h⟩
        by_contra hfree
        exact hx ⟨hvalid, fun y hy hconflict => hfree ⟨y, hy, hconflict⟩⟩

variable {valid conflict} {kept xs new : List α}

theorem Select.sublist (h : Select valid conflict kept xs new) : new.Sublist xs := by
  induction h with
  | nil kept => exact .slnil
  | take hvalid hfree h ih => exact ih.cons_cons _
  | skip hrefused h ih => exact ih.cons _

/-- In a list without repetition an element is taken exactly when it is valid and in no
conflict with the elements taken before it. -/
theorem Select.mem_iff (h : Select valid conflict kept xs new) (hnodup : xs.Nodup)
    {pre post : List α} {x : α} (hx : xs = pre ++ x :: post) :
    x ∈ new ↔ valid x ∧ (∀ y ∈ kept, ¬ conflict y x) ∧
      ∀ y ∈ pre, y ∈ new → ¬ conflict y x := by
  induction h generalizing pre with
  | nil kept => exact absurd hx (by simp)
  | @take kept xs new z hvalid hfree h ih =>
      obtain ⟨hz, hnodup⟩ := List.nodup_cons.mp hnodup
      cases pre with
      | nil =>
          obtain ⟨rfl, -⟩ := List.cons.inj hx
          exact iff_of_true List.mem_cons_self ⟨hvalid, hfree, by simp⟩
      | cons w pre =>
          obtain ⟨rfl, rfl⟩ := List.cons.inj hx
          have hne : x ≠ z := fun heq => hz (heq ▸ List.mem_append_cons_self)
          have hpre : ∀ y ∈ pre, y ≠ z := fun y hy heq =>
            hz (heq ▸ List.mem_append_left _ hy)
          rw [List.mem_cons, or_iff_right hne, ih hnodup rfl, List.forall_mem_append,
            List.forall_mem_singleton, List.forall_mem_cons]
          constructor
          · rintro ⟨hx, ⟨hkept, hzx⟩, hrest⟩
            refine ⟨hx, hkept, fun _ => hzx, fun y hy hnew => hrest y hy ?_⟩
            exact (List.mem_cons.mp hnew).resolve_left (hpre y hy)
          · rintro ⟨hx, hkept, hzx, hrest⟩
            exact ⟨hx, ⟨hkept, hzx List.mem_cons_self⟩, fun y hy hnew =>
              hrest y hy (List.mem_cons_of_mem z hnew)⟩
  | @skip kept xs new z hrefused h ih =>
      obtain ⟨hz, hnodup⟩ := List.nodup_cons.mp hnodup
      have hnew : z ∉ new := fun hmem => hz (h.sublist.subset hmem)
      cases pre with
      | nil =>
          obtain ⟨rfl, -⟩ := List.cons.inj hx
          refine iff_of_false hnew fun ⟨hvalid, hfree, _⟩ => ?_
          obtain ⟨y, hy, hconflict⟩ := hrefused hvalid
          exact hfree y hy hconflict
      | cons w pre =>
          obtain ⟨rfl, rfl⟩ := List.cons.inj hx
          rw [ih hnodup rfl, List.forall_mem_cons]
          constructor
          · exact fun ⟨hx, hkept, hrest⟩ => ⟨hx, hkept, fun hmem => absurd hmem hnew, hrest⟩
          · exact fun ⟨hx, hkept, _, hrest⟩ => ⟨hx, hkept, hrest⟩

/-- In a list in ascending order the elements before another one are the smaller ones. -/
theorem Select.mem_iff_of_lt {α : Type*} [Preorder α] {valid : α → Prop}
    {conflict : α → α → Prop} {xs new : List α} (h : Select valid conflict [] xs new)
    (hsorted : xs.Pairwise (· < ·)) {x : α} :
    x ∈ new ↔ x ∈ xs ∧ valid x ∧ ∀ y ∈ new, y < x → ¬ conflict y x := by
  by_cases hx : x ∈ xs
  · obtain ⟨pre, post, hsplit⟩ := List.append_of_mem hx
    have hsorted' := hsorted
    rw [hsplit, List.pairwise_append, List.pairwise_cons] at hsorted'
    obtain ⟨-, ⟨hpost, -⟩, hpre⟩ := hsorted'
    have hbefore : ∀ y ∈ xs, y < x → y ∈ pre := by
      intro y hy hlt
      rw [hsplit] at hy
      obtain hy | hy := List.mem_append.mp hy
      · exact hy
      · obtain rfl | hy := List.mem_cons.mp hy
        · exact absurd hlt (lt_irrefl y)
        · exact absurd (hlt.trans (hpost y hy)) (lt_irrefl y)
    rw [h.mem_iff (hsorted.imp fun hlt => hlt.ne) hsplit, and_iff_right hx]
    constructor
    · rintro ⟨hvalid, -, hfree⟩
      exact ⟨hvalid, fun y hy hlt => hfree y (hbefore y (h.sublist.subset hy) hlt) hy⟩
    · rintro ⟨hvalid, hfree⟩
      exact ⟨hvalid, by simp, fun y hy hnew => hfree y hnew (hpre y hy x List.mem_cons_self)⟩
  · exact iff_of_false (fun hnew => hx (h.sublist.subset hnew)) fun hall => hx hall.1

end Umink.Library.Greedy
