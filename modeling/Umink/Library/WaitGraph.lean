import Mathlib.Data.Fintype.EquivFin
import Mathlib.Data.Finite.Prod
import Mathlib.Order.Preorder.Finite
import Mathlib.Logic.Relation

/-!
# Circular waits

Threads wait for resources that other threads hold. If every thread waits only
for resources that come, in some relation, after all those it holds, then a set
of threads that block each other shows two resources that come after each other.
-/

namespace Umink.Library.WaitGraph

variable {τ ρ : Type*}

/-- A nonempty set of threads, each waiting for a resource that another thread
of the set holds. -/
def Deadlocked (waits : τ → ρ → Prop) (holds : τ → ρ → Prop) (S : Set τ) : Prop :=
  S.Nonempty ∧ ∀ t ∈ S, ∃ r, waits t r ∧ ∃ u ∈ S, u ≠ t ∧ holds u r

/-- A finite chain of waits closes: with every wait after all held resources, a
deadlock over finitely many awaited resources needs two different ones that come
after each other. The proof looks at a last one of the awaited resources. -/
theorem Deadlocked.cycle {waits holds : τ → ρ → Prop} {before : ρ → ρ → Prop} {S : Set τ}
    (hS : Deadlocked waits holds S) (hfin : {r | ∃ t ∈ S, waits t r}.Finite)
    (hone : ∀ t r r', waits t r → waits t r' → r = r')
    (hexcl : ∀ t u r, holds t r → holds u r → t = u)
    (hafter : ∀ t r q, holds t q → waits t r → Relation.TransGen before q r) :
    ∃ q r, q ≠ r ∧ Relation.TransGen before q r ∧ Relation.TransGen before r q := by
  by_contra hno
  push Not at hno
  -- without such a pair, "comes after and differs" orders the resources strictly
  let awaited := {r | ∃ t ∈ S, waits t r}
  let order : awaited → awaited → Prop := fun q r => q ≠ r ∧ Relation.TransGen before q.1 r.1
  have : IsTrans awaited order := ⟨by
    rintro q r s ⟨hne, hqr⟩ ⟨-, hrs⟩
    refine ⟨?_, hqr.trans hrs⟩
    rintro rfl
    exact hno q.1 r.1 (fun heq => hne (Subtype.ext heq)) hqr hrs⟩
  have : Std.Irrefl order := ⟨fun q h => h.1 rfl⟩
  have : Finite awaited := hfin.to_subtype
  have hwf : WellFounded (Function.swap order) := Finite.wellFounded_of_trans_of_irrefl _
  obtain ⟨t₀, ht₀⟩ := hS.1
  obtain ⟨r₀, hr₀, -⟩ := hS.2 t₀ ht₀
  obtain ⟨⟨r, t, htS, hr⟩, -, hlast⟩ := hwf.has_min Set.univ ⟨⟨r₀, t₀, ht₀, hr₀⟩, trivial⟩
  obtain ⟨r₁, hr₁, u, huS, hne, hu⟩ := hS.2 t htS
  obtain rfl := hone t r r₁ hr hr₁
  obtain ⟨r', hr', v, hvS, hne', hv⟩ := hS.2 u huS
  refine hlast ⟨r', u, huS, hr'⟩ trivial ⟨?_, hafter u r' r hu hr'⟩
  intro heq
  obtain rfl : r = r' := congrArg Subtype.val heq
  exact hne' (hexcl v u r hv hu)

end Umink.Library.WaitGraph
