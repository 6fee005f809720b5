import Mathlib.Tactic.Common

/-!
# Runs of a partial step function

A system is a step function that either refuses an action or gives the next
state. A run is the list of its actions, so that two runs can be compared,
split and counted. Conditions and properties of a run are stated at every
step of it, with the state before and the state after the step.
-/

namespace Umink.Library.Trace

variable {σ α : Type*} (step : σ → α → Option σ)

/-- The state after a list of actions, or none when one of them is refused. -/
def exec (s : σ) : List α → Option σ
  | [] => some s
  | a :: as => (step s a).bind fun t => exec t as

@[simp] theorem exec_nil (s : σ) : exec step s [] = some s := rfl

theorem exec_cons_iff (s u : σ) (a : α) (as : List α) :
    exec step s (a :: as) = some u ↔ ∃ t, step s a = some t ∧ exec step t as = some u := by
  simp only [exec, Option.bind_eq_some_iff]

theorem exec_append_iff (s u : σ) (as bs : List α) :
    exec step s (as ++ bs) = some u ↔ ∃ t, exec step s as = some t ∧ exec step t bs = some u := by
  induction as generalizing s with
  | nil => simp
  | cons a as ih =>
      simp only [List.cons_append, exec_cons_iff, ih]
      constructor
      · rintro ⟨t, hst, v, htv, hvu⟩
        exact ⟨v, ⟨t, hst, htv⟩, hvu⟩
      · rintro ⟨v, ⟨t, hst, htv⟩, hvu⟩
        exact ⟨t, hst, v, htv, hvu⟩

/-- A run is refused at one of its actions. -/
theorem exec_eq_none_iff (s : σ) (as : List α) :
    exec step s as = none ↔
      ∃ before a after t, as = before ++ a :: after ∧ exec step s before = some t ∧
        step t a = none := by
  induction as generalizing s with
  | nil => simp
  | cons a as ih =>
      constructor
      · intro h
        cases hst : step s a with
        | none => exact ⟨[], a, as, s, rfl, rfl, hst⟩
        | some t =>
            rw [exec, hst, Option.bind_some] at h
            obtain ⟨before, b, after, u, rfl, hexec, hnone⟩ := (ih t).mp h
            exact ⟨a :: before, b, after, u, rfl, (exec_cons_iff ..).mpr ⟨t, hst, hexec⟩, hnone⟩
      · rintro ⟨before, b, after, u, heq, hexec, hnone⟩
        cases before with
        | nil =>
            obtain ⟨rfl, rfl⟩ := List.cons.inj heq
            obtain rfl := Option.some.inj hexec
            rw [exec, hnone, Option.bind_none]
        | cons a' before =>
            obtain ⟨rfl, rfl⟩ := List.cons.inj heq
            obtain ⟨t, hst, hrest⟩ := (exec_cons_iff ..).mp hexec
            rw [exec, hst, Option.bind_some]
            exact (ih t).mpr ⟨before, b, after, u, rfl, hrest, hnone⟩

/-- The states that some run reaches. -/
def Reachable (s₀ s : σ) : Prop := ∃ as, exec step s₀ as = some s

variable {step}

theorem Reachable.refl (s : σ) : Reachable step s s := ⟨[], rfl⟩

theorem Reachable.of_exec {s₀ s t : σ} {as : List α} (hs : Reachable step s₀ s)
    (h : exec step s as = some t) : Reachable step s₀ t := by
  obtain ⟨bs, hbs⟩ := hs
  exact ⟨bs ++ as, (exec_append_iff step s₀ t bs as).mpr ⟨s, hbs, h⟩⟩

/-- An invariant of the steps is an invariant of the runs. -/
theorem exec_invariant {I : σ → Prop} (hstep : ∀ s a t, I s → step s a = some t → I t)
    {s u : σ} {as : List α} (hs : I s) (h : exec step s as = some u) : I u := by
  induction as generalizing s with
  | nil => exact Option.some.inj h ▸ hs
  | cons a as ih =>
      obtain ⟨t, hst, htu⟩ := (exec_cons_iff step s u a as).mp h
      exact ih (hstep s a t hs hst) htu

/-- A system whose steps are those of another under an invariant has its runs. -/
theorem exec_map {σ' α' : Type*} {step' : σ' → α' → Option σ'} {f : σ' → σ} {g : α' → α}
    {I : σ' → Prop} (hmap : ∀ s a, I s → (step' s a).map f = step (f s) (g a))
    (hkeep : ∀ s a t, I s → step' s a = some t → I t) {s : σ'} (hs : I s) (as : List α') :
    (exec step' s as).map f = exec step (f s) (as.map g) := by
  induction as generalizing s with
  | nil => rfl
  | cons a as ih =>
      rw [List.map_cons, exec, exec, ← hmap s a hs]
      cases hst : step' s a with
      | none => rfl
      | some t => exact ih (hkeep s a t hs hst)

theorem Reachable.invariant {I : σ → Prop} {s₀ s : σ} (h : Reachable step s₀ s)
    (h₀ : I s₀) (hstep : ∀ s a t, I s → step s a = some t → I t) : I s := by
  obtain ⟨as, has⟩ := h
  exact exec_invariant hstep h₀ has

variable (step)

/-- `P` holds at every step of the run that starts at `s`: of the state before
the step, the action and the state after it. -/
def Along (P : σ → α → σ → Prop) (s : σ) : List α → Prop
  | [] => True
  | a :: as => ∀ t, step s a = some t → P s a t ∧ Along P t as

variable {step}

instance Along.decidable {P : σ → α → σ → Prop} [∀ s a t, Decidable (P s a t)] (s : σ) :
    (as : List α) → Decidable (Along step P s as)
  | [] => inferInstanceAs (Decidable True)
  | a :: as =>
      match h : step s a with
      | none => .isTrue fun t ht => by simp [h] at ht
      | some t =>
          have := Along.decidable (P := P) t as
          decidable_of_iff (P s a t ∧ Along step P t as) (by simp [Along, h])

theorem Along.mono {P Q : σ → α → σ → Prop} (hPQ : ∀ s a t, P s a t → Q s a t)
    {s : σ} {as : List α} (h : Along step P s as) : Along step Q s as := by
  induction as generalizing s with
  | nil => trivial
  | cons a as ih => exact fun t hst => ⟨hPQ s a t (h t hst).1, ih (h t hst).2⟩

/-- What every step does under an invariant holds along every run. -/
theorem along_of_invariant {I : σ → Prop} {P : σ → α → σ → Prop}
    (hstep : ∀ s a t, I s → step s a = some t → I t ∧ P s a t) {s : σ} (hs : I s) (as : List α) :
    Along step P s as := by
  induction as generalizing s with
  | nil => trivial
  | cons a as ih =>
      intro t hst
      obtain ⟨ht, hp⟩ := hstep s a t hs hst
      exact ⟨hp, ih ht⟩

/-- A property of the actions holds along a run that refuses none of them exactly
when all of them have it. -/
theorem along_action_iff {C : α → Prop} (htotal : ∀ s a, ∃ t, step s a = some t) (s : σ)
    (as : List α) : Along step (fun _ a _ => C a) s as ↔ ∀ a ∈ as, C a := by
  induction as generalizing s with
  | nil => simp [Along]
  | cons a as ih =>
      obtain ⟨t, hst⟩ := htotal s a
      simp only [Along, hst, Option.some.injEq, forall_eq', ih t, List.forall_mem_cons]

/-- An invariant that only the steps meeting `C` keep holds at the end of every
run whose steps all meet `C`. -/
theorem exec_invariant_along {I : σ → Prop} {C : σ → α → σ → Prop}
    (hstep : ∀ s a t, I s → C s a t → step s a = some t → I t)
    {s u : σ} {as : List α} (hs : I s) (hC : Along step C s as)
    (h : exec step s as = some u) : I u := by
  induction as generalizing s with
  | nil => exact Option.some.inj h ▸ hs
  | cons a as ih =>
      obtain ⟨t, hst, htu⟩ := (exec_cons_iff step s u a as).mp h
      obtain ⟨hc, hC'⟩ := hC t hst
      exact ih (hstep s a t hs hc hst) hC' htu

/-- Two step properties that agree under an invariant, which the steps with the
first of them keep, hold along the same runs. The induction follows the run up
to its first step without them. -/
theorem along_iff_of_invariant {I : σ → Prop} {C P : σ → α → σ → Prop}
    (hiff : ∀ s a t, I s → step s a = some t → (C s a t ↔ P s a t))
    (hkeep : ∀ s a t, I s → C s a t → step s a = some t → I t)
    {s : σ} (hs : I s) (as : List α) : Along step C s as ↔ Along step P s as := by
  induction as generalizing s with
  | nil => exact Iff.rfl
  | cons a as ih =>
      constructor
      · intro h t hst
        obtain ⟨hc, hrest⟩ := h t hst
        exact ⟨(hiff s a t hs hst).mp hc, (ih (hkeep s a t hs hc hst)).mp hrest⟩
      · intro h t hst
        obtain ⟨hp, hrest⟩ := h t hst
        have hc := (hiff s a t hs hst).mpr hp
        exact ⟨hc, (ih (hkeep s a t hs hc hst)).mpr hrest⟩

/-- What the last state of a run shows holds along the run, when it is handed back
from each state to the one before. -/
theorem along_of_exec {I V : σ → Prop} {C : σ → α → σ → Prop}
    (hkeep : ∀ s a t, I s → step s a = some t → I t)
    (hback : ∀ s a t, I s → step s a = some t → V t → V s ∧ C s a t)
    {s u : σ} {as : List α} (hs : I s) (h : exec step s as = some u) (hu : V u) :
    V s ∧ Along step C s as := by
  induction as generalizing s with
  | nil => exact ⟨Option.some.inj h ▸ hu, trivial⟩
  | cons a as ih =>
      obtain ⟨t, hst, htu⟩ := (exec_cons_iff step s u a as).mp h
      obtain ⟨ht, hrest⟩ := ih (hkeep s a t hs hst) htu
      obtain ⟨hv, hc⟩ := hback s a t hs hst ht
      refine ⟨hv, ?_⟩
      intro t' hst'
      obtain rfl := Option.some.inj (hst.symm.trans hst')
      exact ⟨hc, hrest⟩

section Ghost

variable {γ : Type*} (step) (note : σ → γ → α → γ)

/-- The system with a record beside its state, which `note` keeps and no step
reads. -/
def ghost (s : σ × γ) (a : α) : Option (σ × γ) :=
  (step s.1 a).map fun t => (t, note s.1 s.2 a)

variable {step note}

theorem ghost_eq_some_iff {s t : σ × γ} {a : α} :
    ghost step note s a = some t ↔ step s.1 a = some t.1 ∧ note s.1 s.2 a = t.2 := by
  obtain ⟨t, g⟩ := t
  simp [ghost]

/-- A property of the system holds along the same runs with the record as
without it. -/
theorem along_ghost_iff (note : σ → γ → α → γ) {P : σ → α → σ → Prop} {s : σ} (g : γ)
    {as : List α} :
    Along (ghost step note) (fun s a t => P s.1 a t.1) (s, g) as ↔ Along step P s as := by
  induction as generalizing s g with
  | nil => exact Iff.rfl
  | cons a as ih =>
      constructor
      · intro h t hst
        obtain ⟨hp, hrest⟩ := h (t, note s g a) (ghost_eq_some_iff.mpr ⟨hst, rfl⟩)
        exact ⟨hp, (ih _).mp hrest⟩
      · rintro h ⟨t, g'⟩ hst
        obtain ⟨hp, hrest⟩ := h t (ghost_eq_some_iff.mp hst).1
        exact ⟨hp, (ih _).mpr hrest⟩

end Ghost

end Umink.Library.Trace
