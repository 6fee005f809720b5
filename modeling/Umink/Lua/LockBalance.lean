import Umink.Lua.SignalSteps

/-!
# Balance of the signal mutexes

A thread holds the mutex of a signal once for every activation of its script
and once more for every load that failed after the mutex was taken. A call is
balanced exactly when no such load happened during it.
-/

namespace Umink.Lua.Engine

open Umink.Library Umink.Plugin

variable {τ δ : Type*} [DecidableEq τ] {signals : Signals LuaSigArgs} {e e' : Engine τ δ}
  {t : τ} {id : String}

/-- The action takes a mutex and fails to load the script of its signal. -/
def LoadFailsLocked (e : Engine τ δ) (a : τ × Act δ) : Prop :=
  match a.2, (e.threads a.1).wait with
  | .lock load, some (sh, _) => LoadFails e sh load
  | _, _ => False

instance (e : Engine τ δ) (a : τ × Act δ) : Decidable (LoadFailsLocked e a) := by
  unfold LoadFailsLocked
  split <;> infer_instance

/-- Thread `t` takes the mutex of signal `id` and fails to load its script. -/
def LeaksLock (e : Engine τ δ) (a : τ × Act δ) (t : τ) (id : String) : Prop :=
  match a.2, (e.threads a.1).wait with
  | .lock load, some (sh, _) => a.1 = t ∧ sh.id = id ∧ LoadFails e sh load
  | _, _ => False

instance (e : Engine τ δ) (a : τ × Act δ) (t : τ) (id : String) :
    Decidable (LeaksLock e a t id) := by
  unfold LeaksLock
  split <;> infer_instance

omit [DecidableEq τ] in
theorem LeaksLock.loadFailsLocked {a : τ × Act δ} (h : LeaksLock e a t id) :
    LoadFailsLocked e a := by
  unfold LeaksLock at h
  unfold LoadFailsLocked
  split at h
  · exact h.2.2
  · exact h.elim

/-- Activations hold their mutex. -/
def Covered (e : Engine τ δ) : Prop := ∀ t id, e.activations t id ≤ e.depth t id

theorem covered_start : Covered (start : Engine τ δ) := by
  intro t id
  simp [activations, ids, start]

/-- The mutex depth and the activations change by the same amount. -/
def SameBalance (e e' : Engine τ δ) (t : τ) (id : String) : Prop :=
  e'.depth t id + e.activations t id = e.depth t id + e'.activations t id

/-- One step keeps the balance of a thread and a signal, except for a failed
load under the lock, which adds one to it. -/
theorem step_balance (hcov : Covered e) {a : τ × Act δ} (h : e.step signals a = some e') (u : τ)
    (id : String) :
    (LeaksLock e a u id ∧
      e'.depth u id + e.activations u id = e.depth u id + e'.activations u id + 1) ∨
    (¬ LeaksLock e a u id ∧ SameBalance e e' u id) := by
  obtain ⟨t, act⟩ := a
  cases step_effect h with
  | entered hwait heff =>
      refine Or.inr ⟨not_false, ?_⟩
      simp only [SameBalance, depth, activations, heff.mtx, heff.ids]
  | rejected hwait hfree hrun heff =>
      refine Or.inr ⟨?_, ?_⟩
      · simp only [LeaksLock, hwait, LoadFails, hrun]
        simp
      · simp only [SameBalance, activations, heff.depth, heff.toFrames.ids_of_eq heff.frames]
  | @loadFailed sh dIn load hwait hfree hfail heff =>
      have hdepth := heff.depth u id
      have hactive : e'.activations u id = e.activations u id := by
        simp only [activations, heff.toFrames.ids_of_eq heff.frames]
      by_cases hself : u = t ∧ id = sh.id
      · rw [if_pos hself] at hdepth
        refine Or.inl ⟨?_, by omega⟩
        simp only [LeaksLock, hwait]
        exact ⟨hself.1.symm, hself.2.symm, hfail⟩
      · rw [if_neg hself] at hdepth
        refine Or.inr ⟨?_, by unfold SameBalance; omega⟩
        simp only [LeaksLock, hwait]
        exact fun hleak => hself ⟨hleak.1.symm, hleak.2.1.symm⟩
  | started hwait hfree hrun hload heff =>
      refine Or.inr ⟨?_, ?_⟩
      · simp only [LeaksLock, hwait]
        exact fun hleak => hload hleak.2.2
      · have hdepth := heff.depth u id
        have hactive := heff.activations u id
        unfold SameBalance
        omega
  | @left f failed res hwait heff =>
      refine Or.inr ⟨not_false, ?_⟩
      have hdepth := heff.depth u id
      have hactive := heff.activations u id
      have hheld := hcov u id
      unfold SameBalance
      by_cases hself : u = t ∧ id = f.sh.id
      · rw [if_pos hself] at hdepth hactive
        omega
      · rw [if_neg hself] at hdepth hactive
        omega

theorem covered_step (hcov : Covered e) {a : τ × Act δ} (h : e.step signals a = some e') :
    Covered e' := by
  intro t id
  have hheld := hcov t id
  rcases step_balance hcov h t id with ⟨-, hbal⟩ | ⟨-, hbal⟩
  · omega
  · unfold SameBalance at hbal
    omega

theorem covered_reachable (h : Trace.Reachable (step signals) start e) : Covered e :=
  h.invariant covered_start fun _ _ _ hs hst => covered_step hs hst

/-- Over a run the balance never falls, and it stays as it was exactly when no
load of the signal failed under the lock. -/
theorem run_balance (hcov : Covered e) {acts : List (τ × Act δ)}
    (h : Trace.exec (step signals) e acts = some e') :
    e.depth t id + e'.activations t id ≤ e'.depth t id + e.activations t id ∧
      (SameBalance e e' t id ↔
        Trace.Along (step signals) (fun s a _ => ¬ LeaksLock s a t id) e acts) := by
  induction acts generalizing e with
  | nil =>
      obtain rfl := Option.some.inj h
      exact ⟨Nat.le_refl _, iff_of_true rfl trivial⟩
  | cons a acts ih =>
      obtain ⟨e₁, hstep, hrest⟩ := (Trace.exec_cons_iff _ e e' a acts).mp h
      obtain ⟨hle, hiff⟩ := ih (covered_step hcov hstep) hrest
      have hcons : Trace.Along (step signals) (fun s a _ => ¬ LeaksLock s a t id) e (a :: acts) ↔
          ¬ LeaksLock e a t id ∧ SameBalance e₁ e' t id := by
        simp only [Trace.Along, hstep, Option.some.injEq, forall_eq', hiff]
      rw [hcons]
      unfold SameBalance at hiff ⊢
      rcases step_balance hcov hstep t id with ⟨hleak, hbal⟩ | ⟨hleak, hbal⟩
      · exact ⟨by omega, iff_of_false (by omega) fun hno => hno.1 hleak⟩
      · unfold SameBalance at hbal
        exact ⟨by omega, ⟨fun heq => ⟨hleak, by omega⟩, fun heq => by omega⟩⟩

/-- As long as no load failed under a lock, a thread holds the mutex of a signal
once for every activation. -/
theorem depth_eq_activations {acts : List (τ × Act δ)}
    (h : Trace.exec (step signals) start acts = some e)
    (hno : Trace.Along (step signals) (fun s a _ => ¬ LeaksLock s a t id) start acts) :
    e.depth t id = e.activations t id := by
  have hbal := (run_balance covered_start h).2.mpr hno
  simpa [SameBalance, depth, activations, ids, start] using hbal

section Calls

/-- The thread is inside a call that it made with `n` activations on its stack:
it waits for a mutex or the stack is higher. -/
def InCall (e : Engine τ δ) (t : τ) (n : Nat) : Prop :=
  (e.threads t).wait.isSome ∨ n < (e.threads t).frames.length

/-- One call of signal `id` by thread `t`, from `e` where it enters to `e'` where
it returns. `inner` are the later actions, of this and of all other threads. -/
structure IsCall (signals : Signals LuaSigArgs) (e : Engine τ δ) (t : τ) (id : String) (dIn : δ)
    (usrFlags : Int) (created : Bool) (load : LoadRes) (inner : List (τ × Act δ))
    (e' : Engine τ δ) : Prop where
  run : Trace.exec (step signals) e ((t, .call id dIn usrFlags created load) :: inner) = some e'
  inside : ∀ e₁, e.step signals (t, .call id dIn usrFlags created load) = some e₁ →
    Trace.Along (step signals) (fun s _ _ => s.InCall t (e.threads t).frames.length) e₁ inner
  returned : ¬ e'.InCall t (e.threads t).frames.length

instance (e : Engine τ δ) (t : τ) (n : Nat) : Decidable (e.InCall t n) :=
  inferInstanceAs (Decidable (_ ∨ _))

/-- What `g` says of the activations of a thread, the innermost first. -/
def proj {α : Type*} (g : LuaSh → δ → α) (e : Engine τ δ) (t : τ) : List α :=
  (e.threads t).frames.map fun f => g f.sh f.dIn

section Projections

variable {α : Type*} {g : LuaSh → δ → α}

omit [DecidableEq τ] in
theorem proj_eq_of_frames {u : τ} (h : (e'.threads u).frames = (e.threads u).frames) :
    proj g e' u = proj g e u := by
  simp only [proj, h]

theorem Entered.proj {dIn : δ} {usrFlags : Int} (h : Entered signals e t e' id dIn usrFlags)
    (u : τ) : proj g e' u = proj g e u := by
  by_cases hu : u = t
  · subst hu
    simp only [Engine.proj, h.frames]
    cases (e.threads u).frames <;> rfl
  · exact proj_eq_of_frames (by rw [h.other u hu])

/-- Inside a call the activations that were there before it stay. -/
theorem suffix_step {base : List α} {a : τ × Act δ} (hin : e.InCall t base.length)
    (hbase : base <:+ proj g e t) (h : e.step signals a = some e') : base <:+ proj g e' t := by
  obtain ⟨u, act⟩ := a
  have hother : Frames e u e' → t ≠ u → base <:+ proj g e' t := fun hf htu => by
    have hsame : (e'.threads t).frames = (e.threads t).frames := by rw [hf.other t htu]
    rw [proj_eq_of_frames hsame]
    exact hbase
  by_cases htu : t = u
  · subst htu
    cases step_effect h with
    | entered hwait heff => exact heff.proj t ▸ hbase
    | rejected hwait hfree hrun heff =>
        rw [proj_eq_of_frames heff.frames]
        exact hbase
    | loadFailed hwait hfree hfail heff =>
        rw [proj_eq_of_frames heff.frames]
        exact hbase
    | started hwait hfree hrun hload heff =>
        rw [proj, heff.frames]
        exact hbase.trans (List.suffix_cons _ _)
    | left hwait heff =>
        have hcons := hbase
        rw [proj, heff.frames] at hcons
        rcases List.suffix_cons_iff.mp hcons with heq | hsuffix
        · -- the activations cannot be those before the call: a script ends
          have hlen : (e.threads t).frames.length = base.length := by
            rw [heq, heff.frames, List.length_cons, List.length_cons, List.length_map]
          rcases hin with hw | hlt
          · simp [hwait] at hw
          · omega
        · exact hsuffix
  · cases step_effect h with
    | entered hwait heff => exact hother heff.toFrames htu
    | rejected hwait hfree hrun heff => exact hother heff.toFrames htu
    | loadFailed hwait hfree hfail heff => exact hother heff.toFrames htu
    | started hwait hfree hrun hload heff => exact hother heff.toFrames htu
    | left hwait heff => exact hother heff.toFrames htu

/-- A call leaves the activations of its thread as they were. -/
theorem IsCall.proj_eq {dIn : δ} {usrFlags : Int} {created : Bool} {load : LoadRes}
    {inner : List (τ × Act δ)} (g : LuaSh → δ → α)
    (hcall : IsCall signals e t id dIn usrFlags created load inner e') :
    proj g e' t = proj g e t := by
  obtain ⟨e₁, hstep, hrest⟩ := (Trace.exec_cons_iff _ e e' _ inner).mp hcall.run
  have hlen : (proj g e t).length = (e.threads t).frames.length := List.length_map _
  have hfirst : proj g e₁ t = proj g e t := by
    cases step_effect hstep with
    | entered hwait heff => exact heff.proj t
  have hsuffix : proj g e t <:+ proj g e' t := by
    refine Trace.exec_invariant_along (I := fun s => proj g e t <:+ proj g s t)
      (fun s a s' hI hin hst => suffix_step (hlen ▸ hin) hI hst) ?_ (hcall.inside e₁ hstep) hrest
    exact hfirst ▸ List.suffix_rfl
  refine (hsuffix.eq_of_length_le ?_).symm
  have hreturned := hcall.returned
  simp only [InCall, not_or, Nat.not_lt] at hreturned
  simpa only [proj, List.length_map] using hreturned.2

end Projections

theorem IsCall.ids_eq {dIn : δ} {usrFlags : Int} {created : Bool} {load : LoadRes}
    {inner : List (τ × Act δ)} (hcall : IsCall signals e t id dIn usrFlags created load inner e') :
    e'.ids t = e.ids t := hcall.proj_eq fun sh _ => sh.id

/-- A call returns with the mutex of its signal held as often as at its entry
exactly when no load of the script failed under the lock meanwhile. When that
never happened before either, the outermost call leaves the mutex to others:
whoever cannot lock it waits for a third thread. -/
theorem call_balanced_iff {before : List (τ × Act δ)} {dIn : δ} {usrFlags : Int} {created : Bool}
    {load : LoadRes} {inner : List (τ × Act δ)}
    (hbefore : Trace.exec (step signals) start before = some e)
    (hcall : IsCall signals e t id dIn usrFlags created load inner e') :
    (e'.depth t id = e.depth t id ↔
      Trace.Along (step signals) (fun s a _ => ¬ LeaksLock s a t id) e
        ((t, .call id dIn usrFlags created load) :: inner)) ∧
    (e.ids t = [] →
      Trace.Along (step signals) (fun s a _ => ¬ LeaksLock s a t id) start
        (before ++ (t, .call id dIn usrFlags created load) :: inner) →
      e'.depth t id = 0 ∧
        ∀ u, (e'.mtx id).lock u = none → ∃ v, v ≠ u ∧ v ≠ t ∧ 0 < e'.depth v id) := by
  have hactive : e'.activations t id = e.activations t id := by
    rw [activations, hcall.ids_eq, activations]
  refine ⟨?_, fun hout hno => ?_⟩
  · have hcov := covered_reachable ⟨before, hbefore⟩
    rw [← (run_balance hcov hcall.run).2, SameBalance, hactive, Nat.add_right_cancel_iff]
  · have hzero : e'.depth t id = 0 := by
      rw [depth_eq_activations ((Trace.exec_append_iff _ _ _ _ _).mpr ⟨e, hbefore, hcall.run⟩) hno,
        hactive, activations, hout, List.count_nil]
    refine ⟨hzero, fun u hblocked => ?_⟩
    obtain ⟨v, hvu, hv⟩ := RecMutex.lock_eq_none_iff.mp hblocked
    refine ⟨v, hvu, ?_, hv⟩
    rintro rfl
    rw [depth] at hzero
    omega

/-- A signal that conserves memory and a script file that can be read. -/
theorem call_balanced_iff_loaded :
    ∃ e' : Engine Nat Unit,
      IsCall [LuaSh.basic "A" true] start 0 "A" () 0 true .ok
        [(0, .lock .ok), (0, .finish false .other)] e' ∧
      e'.depth 0 "A" = (start : Engine Nat Unit).depth 0 "A" := by
  have hcall : IsCall [LuaSh.basic "A" true] (start : Engine Nat Unit) 0 "A" () 0 true .ok
      [(0, .lock .ok), (0, .finish false .other)] _ := ⟨rfl, by decide, by decide⟩
  have hnone : Trace.exec (step [LuaSh.basic "A" true]) (start : Engine Nat Unit) [] =
      some start := rfl
  exact ⟨_, hcall, (call_balanced_iff hnone hcall).1.mpr (by decide)⟩

/-- A call whose script cannot be read in the mode that conserves memory returns
with the mutex locked: it is held once more than at the entry and no other
thread can run the signal, although this was the outermost call. -/
theorem call_unbalanced_loadFailed :
    ∃ e' : Engine Nat Unit,
      IsCall [LuaSh.basic "A" true] start 0 "A" () 0 true .ok [(0, .lock .errFile)] e' ∧
      (start : Engine Nat Unit).depth 0 "A" = 0 ∧ e'.depth 0 "A" = 1 ∧ e'.ids 0 = [] ∧
      (e'.mtx "A").lock 1 = none :=
  ⟨_, ⟨rfl, by decide, by decide⟩, by decide, by decide, by decide, by decide⟩

end Calls

end Umink.Lua.Engine
