import Umink.Library.WaitGraph
import Umink.Lua.LockBalance

/-!
# Circular waits between signals

A script runs under the mutex of its signal and may call any other signal, so
the scripts choose the order in which the mutexes are taken. Two threads that
run scripts which call each other's signal can block each other for good. This
needs signals that call each other: when the calls of the scripts have no cycle
through two signals, no set of threads is ever deadlocked.
-/

namespace Umink.Lua.Engine

open Umink.Library Umink.Plugin

variable {τ δ : Type*} [DecidableEq τ] {signals : Signals LuaSigArgs} {e e' : Engine τ δ}
  (scripts : String → List String)

/-- The script of `q` calls `r`. -/
def Calls (q r : String) : Prop := r ∈ scripts q

/-- A call out of a script is the one that is next in it. -/
def FollowsScript (e : Engine τ δ) (a : τ × Act δ) : Prop :=
  match a.2, (e.threads a.1).frames with
  | .call id _ _ _ _, f :: _ => (scripts f.sh.id)[f.issued]? = some id
  | _, _ => True

instance (e : Engine τ δ) (a : τ × Act δ) : Decidable (FollowsScript scripts e a) :=
  match h : a.2, hf : (e.threads a.1).frames with
  | .call id _ _ _ _, f :: _ =>
      decidable_of_iff ((scripts f.sh.id)[f.issued]? = some id) (by simp [FollowsScript, h, hf])
  | .call _ _ _ _ _, [] => isTrue (by simp [FollowsScript, h, hf])
  | .lock _, _ => isTrue (by simp [FollowsScript, h])
  | .finish _ _, _ => isTrue (by simp [FollowsScript, h])

/-- The thread has got to the mutex of the signal and not passed it. -/
def Waits (e : Engine τ δ) (t : τ) (id : String) : Prop :=
  (e.threads t).wait.map (fun w => w.1.id) = some id

def Holds (e : Engine τ δ) (t : τ) (id : String) : Prop := 0 < e.depth t id

instance (e : Engine τ δ) (t : τ) (id : String) : Decidable (e.Waits t id) :=
  inferInstanceAs (Decidable (_ = _))

instance (e : Engine τ δ) (t : τ) (id : String) : Decidable (e.Holds t id) :=
  inferInstanceAs (Decidable (_ < _))

/-- The signal a thread waits for and those it runs, the innermost first. -/
def callStack (e : Engine τ δ) (t : τ) : List String :=
  ((e.threads t).wait.map fun w => w.1.id).toList ++ e.ids t

omit [DecidableEq τ] in
theorem callStack_of_wait_none {t : τ} (h : (e.threads t).wait = none) :
    e.callStack t = e.ids t := by
  rw [callStack, h, Option.map_none, Option.toList_none, List.nil_append]

omit [DecidableEq τ] in
theorem callStack_of_waits {t : τ} {id : String} (h : e.Waits t id) :
    e.callStack t = id :: e.ids t := by
  rw [callStack, h, Option.toList_some, List.singleton_append]

variable {scripts}

/-- Along a run that follows the scripts, each signal on a stack was called by
the script of the next one. -/
theorem callStack_step {a : τ × Act δ} (hfollows : FollowsScript scripts e a)
    (hstep : e.step signals a = some e')
    (hchain : ∀ t, (e.callStack t).IsChain fun r q => Calls scripts q r) (u : τ) :
    (e'.callStack u).IsChain fun r q => Calls scripts q r := by
  obtain ⟨t, act⟩ := a
  have hother : Frames e t e' → u ≠ t → (e'.callStack u).IsChain fun r q => Calls scripts q r :=
    fun hf hu => by
      have hsame : e'.callStack u = e.callStack u := by simp only [callStack, hf.other u hu, ids]
      exact hsame ▸ hchain u
  by_cases hu : u = t
  · subst hu
    have hstack := hchain u
    have htail : (e.ids u).IsChain fun r q => Calls scripts q r :=
      hstack.suffix (List.suffix_append _ _)
    cases step_effect hstep with
    | @entered id dIn usrFlags created load hwait heff =>
        rcases heff.wait with hnone | ⟨sh, hok, hsome, -⟩
        · rw [callStack_of_wait_none hnone, heff.ids]
          exact htail
        · have hid : sh.id = id := Signals.id_of_find (umplgProcSignal_ok_iff.mp hok).1
          have hwaits : e'.Waits u id := by rw [Waits, hsome, Option.map_some, hid]
          rw [callStack_of_waits hwaits, heff.ids]
          apply htail.cons
          intro q hq
          cases hframes : (e.threads u).frames with
          | nil => simp [ids, hframes] at hq
          | cons f fs =>
              simp only [FollowsScript, hframes] at hfollows
              obtain rfl : f.sh.id = q := by simpa [ids, hframes] using hq
              exact List.mem_of_getElem? hfollows
    | rejected hwait hfree hrun heff =>
        rw [callStack_of_wait_none heff.wait, heff.toFrames.ids_of_eq heff.frames]
        exact htail
    | loadFailed hwait hfree hfail heff =>
        rw [callStack_of_wait_none heff.wait, heff.toFrames.ids_of_eq heff.frames]
        exact htail
    | @started sh dIn load hwait hfree hrun hload heff =>
        have hwaits : e.Waits u sh.id := by rw [Waits, hwait, Option.map_some]
        rw [callStack_of_wait_none heff.wait, heff.ids, ← callStack_of_waits hwaits]
        exact hstack
    | left hwait heff =>
        rw [callStack_of_wait_none heff.wait]
        exact htail.suffix (heff.ids ▸ List.suffix_cons _ _)
  · cases step_effect hstep with
    | entered hwait heff => exact hother heff.toFrames hu
    | rejected hwait hfree hrun heff => exact hother heff.toFrames hu
    | loadFailed hwait hfree hfail heff => exact hother heff.toFrames hu
    | started hwait hfree hrun hload heff => exact hother heff.toFrames hu
    | left hwait heff => exact hother heff.toFrames hu

/-- A signal that a thread waits for is called, over any number of scripts, by
every signal that the thread runs. -/
theorem transGen_of_isChain {r : String} {qs : List String}
    (h : (r :: qs).IsChain fun r q => Calls scripts q r) {q : String} (hq : q ∈ qs) :
    Relation.TransGen (Calls scripts) q r := by
  induction qs generalizing r with
  | nil => cases hq
  | cons p qs ih =>
      obtain ⟨hpr, hrest⟩ := List.isChain_cons_cons.mp h
      rcases List.mem_cons.mp hq with rfl | hmem
      · exact Relation.TransGen.single hpr
      · exact (ih hrest hmem).tail hpr

theorem callStack_run {acts : List (τ × Act δ)}
    (h : Trace.exec (step signals) start acts = some e)
    (hfollows : Trace.Along (step signals) (fun s a _ => FollowsScript scripts s a) start acts) :
    ∀ t, (e.callStack t).IsChain fun r q => Calls scripts q r := by
  have hstep : ∀ (s : Engine τ δ) a s',
      (∀ t, (s.callStack t).IsChain fun r q => Calls scripts q r) →
      FollowsScript scripts s a → s.step signals a = some s' →
      ∀ t, (s'.callStack t).IsChain fun r q => Calls scripts q r :=
    fun s a s' hI hf hst => callStack_step hf hst hI
  exact Trace.exec_invariant_along hstep (fun _ => List.isChain_nil) hfollows h

/-- In a run that follows the scripts and in which no load failed under a mutex,
a set of threads that wait for each other shows two different signals whose
scripts call each other. -/
theorem deadlock_cycle {acts : List (τ × Act δ)}
    (h : Trace.exec (step signals) start acts = some e)
    (hfollows : Trace.Along (step signals) (fun s a _ => FollowsScript scripts s a) start acts)
    (hloads : Trace.Along (step signals) (fun s a _ => ¬ LoadFailsLocked s a) start acts)
    {S : Set τ} (hS : WaitGraph.Deadlocked e.Waits e.Holds S) :
    ∃ q r, q ≠ r ∧ Relation.TransGen (Calls scripts) q r ∧
      Relation.TransGen (Calls scripts) r q := by
  have hdepth : ∀ t id, e.depth t id = e.activations t id := fun t id =>
    depth_eq_activations h (hloads.mono fun _ _ _ hno hleak => hno hleak.loadFailsLocked)
  have hchain := callStack_run h hfollows
  have hprep := Trace.exec_invariant
    (I := fun s : Engine τ δ => ∀ t, Prepared signals (s.threads t))
    (fun s a s' hI hst => prepared_step hI hst) (by simp [Prepared, start]) h
  apply hS.cycle
  · -- a thread waits for registered signals only
    apply (List.finite_toSet (signals.map UmplgSh.id)).subset
    rintro r ⟨t, -, hw⟩
    obtain ⟨⟨sh, dIn⟩, hsome, rfl⟩ := Option.map_eq_some_iff.mp hw
    exact List.mem_map.mpr ⟨sh, HashTable.mem_of_find ((hprep t).2 sh dIn hsome).1, rfl⟩
  · exact fun t r r' hr hr' => Option.some.inj (hr.symm.trans hr')
  · exact fun t u r ht hu => RecMutex.holder_unique ht hu
  · intro t r q hq hr
    have hmem : q ∈ e.ids t := by
      rw [Holds, hdepth] at hq
      exact List.count_pos_iff.mp hq
    exact transGen_of_isChain (callStack_of_waits hr ▸ hchain t) hmem

section CrossedCalls

/-- The scripts of two signals that call each other. -/
def crossedScripts (id : String) : List String :=
  if id = "A" then ["B"] else if id = "B" then ["A"] else []

def crossedSignals : Signals LuaSigArgs := [LuaSh.basic "A" false, LuaSh.basic "B" false]

/-- Each of two threads starts one signal, then each script makes its call. -/
def crossedRun : List (Nat × Act Unit) :=
  [(0, .call "A" () 0 true .ok), (0, .lock .ok), (1, .call "B" () 0 true .ok), (1, .lock .ok),
    (0, .call "B" () 0 true .ok), (1, .call "A" () 0 true .ok)]

def crossedEnd : Engine Nat Unit :=
  (Trace.exec (step crossedSignals) start crossedRun).getD start

theorem exec_crossedRun :
    Trace.exec (step crossedSignals) (start : Engine Nat Unit) crossedRun = some crossedEnd :=
  rfl

theorem deadlocked_crossedEnd : WaitGraph.Deadlocked crossedEnd.Waits crossedEnd.Holds {0, 1} := by
  refine ⟨⟨0, by simp⟩, ?_⟩
  rintro t (rfl | rfl)
  · exact ⟨"B", by decide, 1, by simp, by decide, by decide⟩
  · exact ⟨"A", by decide, 0, by simp, by decide, by decide⟩

/-- Both scripts do what they are written to do, no load fails, and the two
threads wait for each other. -/
theorem crossed_calls_deadlock :
    Trace.exec (step crossedSignals) (start : Engine Nat Unit) crossedRun = some crossedEnd ∧
      Trace.Along (step crossedSignals) (fun s a _ => FollowsScript crossedScripts s a)
        (start : Engine Nat Unit) crossedRun ∧
      Trace.Along (step crossedSignals) (fun s a _ => ¬ LoadFailsLocked s a)
        (start : Engine Nat Unit) crossedRun ∧
      WaitGraph.Deadlocked crossedEnd.Waits crossedEnd.Holds {0, 1} :=
  ⟨exec_crossedRun, by decide, by decide, deadlocked_crossedEnd⟩

/-- The two signals behind that deadlock. -/
theorem deadlock_cycle_crossed :
    ∃ q r, q ≠ r ∧ Relation.TransGen (Calls crossedScripts) q r ∧
      Relation.TransGen (Calls crossedScripts) r q :=
  deadlock_cycle exec_crossedRun (by decide) (by decide) deadlocked_crossedEnd

end CrossedCalls

end Umink.Lua.Engine
