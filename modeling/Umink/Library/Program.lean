import Mathlib.Data.Prod.Lex
import Mathlib.Tactic.Common

/-!
# Straight-line programs

The operations of a program have ranks that grow from each operation to the next. What was
executed at some point contains with an operation all those of smaller rank.
-/

namespace Umink.Library.Program

variable {ω ρ : Type*} [Preorder ρ] {rank : ω → ρ} {executed rest : List ω} {a b : ω}

/-- The ranks of a program grow. -/
def Ranked (rank : ω → ρ) (program : List ω) : Prop :=
  program.Pairwise fun a b => rank a < rank b

/-- An executed operation has a smaller rank than one that is still to come. -/
theorem Ranked.lt (h : Ranked rank (executed ++ rest)) (ha : a ∈ executed) (hb : b ∈ rest) :
    rank a < rank b :=
  (List.pairwise_append.mp h).2.2 a ha b hb

/-- The operations before an executed one are executed. -/
theorem Ranked.mem_executed (h : Ranked rank (executed ++ rest)) (ha : a ∈ executed ++ rest)
    (hb : b ∈ executed) (hlt : rank a < rank b) : a ∈ executed := by
  obtain ha | ha := List.mem_append.mp ha
  · exact ha
  · exact absurd (h.lt hb ha) hlt.asymm

/-- The operations of one phase, one for each entry of a list, are ranked. -/
theorem ranked_map_zipIdx {α : Type*} {op : Nat → α → ω} {rank : ω → ℕ ×ₗ ℕ} {k : Nat}
    (hrank : ∀ i a, rank (op i a) = toLex (k, i)) (as : List α) (n : Nat) :
    Ranked rank ((as.zipIdx n).map fun p => op p.2 p.1) := by
  induction as generalizing n with
  | nil => exact List.Pairwise.nil
  | cons a as ih =>
      refine List.pairwise_cons.mpr ⟨fun b hb => ?_, ih (n + 1)⟩
      obtain ⟨⟨a', i⟩, hmem, rfl⟩ := List.mem_map.mp hb
      rw [hrank, hrank]
      exact Prod.Lex.toLex_lt_toLex.mpr (.inr ⟨rfl, (List.mem_zipIdx hmem).1⟩)

/-- Blocks whose operations have the number of the block as their phase make a ranked
program. -/
theorem ranked_flatten {rank : ω → ℕ ×ₗ ℕ} {blocks : List (List ω)} {n : Nat}
    (hranked : ∀ block ∈ blocks, Ranked rank block)
    (hphase : ∀ p ∈ blocks.zipIdx n, ∀ op ∈ p.1, (ofLex (rank op)).1 = p.2) :
    Ranked rank blocks.flatten := by
  induction blocks generalizing n with
  | nil => exact List.Pairwise.nil
  | cons block blocks ih =>
      obtain ⟨hblock, hblocks⟩ := List.forall_mem_cons.mp hranked
      obtain ⟨hfirst, hrest⟩ := List.forall_mem_cons.mp hphase
      refine List.pairwise_append.mpr ⟨hblock, ih hblocks hrest, fun a ha b hb => ?_⟩
      obtain ⟨later, hlater, hb⟩ := List.mem_flatten.mp hb
      obtain ⟨k, hk⟩ := List.getElem?_of_mem hlater
      have hmem : (later, n + 1 + k) ∈ blocks.zipIdx (n + 1) :=
        List.mk_add_mem_zipIdx_iff_getElem?.mpr hk
      have hphase_a : (ofLex (rank a)).1 = n := hfirst a ha
      have hphase_b : (ofLex (rank b)).1 = n + 1 + k := hrest _ hmem b hb
      have hlt : (ofLex (rank a)).1 < (ofLex (rank b)).1 := by omega
      exact Prod.Lex.toLex_lt_toLex.mpr (.inl hlt)

end Umink.Library.Program
