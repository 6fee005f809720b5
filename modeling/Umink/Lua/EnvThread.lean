import Mathlib.Logic.Function.Iterate
import Umink.Lua.Loaded
import Umink.Lua.SignalEngine

/-!
# The threads of Lua environments

`umlua_start` goes through the environments of the manager, `process_lua_envs` starts the
thread of one, and `th_lua_env` loads and runs its script until the program ends. The thread
is cut at the calls whose results it does not control: the condition of its loop, the load of
the script and the run of it. These results are streams, one entry for each call, so a thread
is a deterministic machine over them.

## Implementation notes

The counters of the environment are set from the results of the runs and are
read by nobody here, so the record of a run takes their place.
-/

namespace Umink.Lua

open Umink.Library Umink.Plugin

/-- `lua_env_load_script`, the same switch as for signals. -/
def luaEnvLoadScript (r : LoadRes) : Nat := luaSigLoadScript r

/-- `lua_env_setup`, which has no failing path. -/
def luaEnvSetup : Nat := 0

/-- `process_lua_envs`: whether the thread is created. -/
def processLuaEnvs (env : LuaEnvD) : Bool := decide (0 ≤ env.interval) && env.active

/-- `umlua_start`: the environments of the manager whose threads are created. -/
def umluaStart (envs : List LuaEnvD) : List LuaEnvD := envs.filter processLuaEnvs

/-- `struct timespec`. -/
structure Timespec where
  sec : UInt64
  nsec : UInt64

def Timespec.ns (st : Timespec) : Nat := st.sec.toNat * 10 ^ 9 + st.nsec.toNat

/-- The sleep interval of the thread. -/
def LuaEnvD.st (env : LuaEnvD) : Timespec :=
  ⟨env.interval / 1000, env.interval % 1000 * 1000000⟩

/-- The results of the calls of one thread: the loop condition and the run in
each iteration, and each load of the script. -/
structure Outcomes where
  live : Nat → Bool
  load : Nat → LoadRes
  run : Nat → Int

/-- What a thread does to others: it loads the script, runs it or asks for a
sleep of so many nanoseconds. -/
inductive EnvEv where
  | load (r : LoadRes)
  | run (r : Int)
  | sleep (ns : Nat)
  deriving DecidableEq, Repr

/-- The places of `th_lua_env`. -/
inductive EnvPlace where
  | setup
  | cache
  | check
  | load
  | retry
  | pcall
  | next
  | close
  | done
  deriving DecidableEq, Repr

/-- A thread at a place in an iteration of its loop, and what it has done. -/
structure EnvThread where
  place : EnvPlace
  iter : Nat
  trace : List EnvEv

section Source

variable (env : LuaEnvD) (o : Outcomes)

/-- The next step of `th_lua_env`. -/
def thLuaEnv (t : EnvThread) : EnvThread :=
  match t.place with
  | .setup =>
      { t with place :=
          if luaEnvSetup ≠ 0 then .done
          -- if not conserving memory, cache scripts
          else if !env.conserveMem then .cache
          else .check }
  | .cache =>
      { t with
        trace := t.trace ++ [.load (o.load 0)]
        place := if luaEnvLoadScript (o.load 0) ≠ 0 then .close else .check }
  | .check =>
      { t with place :=
          if !o.live t.iter then .close
          else if env.conserveMem then .load
          else .pcall }
  | .load =>
      { t with
        trace := t.trace ++ [.load (o.load t.iter)]
        place := if luaEnvLoadScript (o.load t.iter) ≠ 0 then .retry else .pcall }
  -- the sleep before the `continue`
  | .retry => ⟨.check, t.iter + 1, t.trace ++ [.sleep env.st.ns]⟩
  | .pcall => { t with trace := t.trace ++ [.run (o.run t.iter)], place := .next }
  | .next =>
      -- one-time only
      if env.interval = 0 then { t with place := .close }
      else ⟨.check, t.iter + 1, t.trace ++ [.sleep env.st.ns]⟩
  | .close => { t with place := .done }
  | .done => t

/-- The thread after so many steps. -/
def threadAfter (k : Nat) : EnvThread := (thLuaEnv env o)^[k] ⟨.setup, 0, []⟩

end Source

section Spec

variable (conserveMem : Bool) (o : Outcomes)

def loads (trace : List EnvEv) : Nat := trace.countP fun e => e matches .load _

def runs (trace : List EnvEv) : Nat := trace.countP fun e => e matches .run _

/-- The load before the loop fails. -/
def InitialFails : Prop := conserveMem = false ∧ luaEnvLoadScript (o.load 0) ≠ 0

/-- What a thread does before its loop. -/
def initialLoad : List EnvEv := if conserveMem then [] else [.load (o.load 0)]

/-- The attempt of the iteration `n`. -/
def attempt (n : Nat) : List EnvEv :=
  if conserveMem then
    if luaEnvLoadScript (o.load n) ≠ 0 then [.load (o.load n)]
    else [.load (o.load n), .run (o.run n)]
  else [.run (o.run n)]

/-- The first `n` attempts, each followed by a sleep of `ns` nanoseconds. -/
def schedule (ns : Nat) : Nat → List EnvEv
  | 0 => initialLoad conserveMem o
  | n + 1 => schedule ns n ++ attempt conserveMem o n ++ [.sleep ns]

/-- The life of an environment with an interval of `interval` milliseconds, whose
thread is created or not and is `thread k` after `k` steps. -/
structure LifeCycle (interval : Int) (autoStart : Bool) (created : Bool)
    (thread : Nat → EnvThread) : Prop where
  created_iff : created = true ↔ autoStart = true ∧ 0 ≤ interval
  /-- With the interval 0 there is at most one attempt, and then the thread returns. -/
  once : created = true → interval = 0 →
    (∀ k, loads (thread k).trace ≤ 1 ∧ runs (thread k).trace ≤ 1) ∧
      ∃ k, (thread k).place = .done
  /-- Nothing follows an initial load that fails. -/
  failed : created = true → 0 < interval → InitialFails conserveMem o →
    ∃ k, (thread k).place = .done ∧ (thread k).trace = [.load (o.load 0)]
  /-- While its loop condition holds, the thread makes one attempt in each interval. -/
  repeated : created = true → 0 < interval → ¬ InitialFails conserveMem o →
    ∀ n, (∀ j < n, o.live j = true) → ∃ k, (thread k).place = .check ∧
      (thread k).trace = schedule conserveMem o (interval * 10 ^ 6).toNat n
  /-- When the condition is false, the thread returns. -/
  ended : created = true → 0 < interval → ¬ InitialFails conserveMem o →
    ∀ n, (∀ j < n, o.live j = true) → o.live n = false → ∃ k, (thread k).place = .done ∧
      (thread k).trace = schedule conserveMem o (interval * 10 ^ 6).toNat n
  /-- As long as it is true, the thread does not return. -/
  lives : created = true → 0 < interval → ¬ InitialFails conserveMem o →
    (∀ n, o.live n = true) → ∀ k, (thread k).place ≠ .done

/-- The thread comes to a sleep. -/
def Outcomes.Sleeps : Prop := o.live 0 = true ∧ ¬ InitialFails conserveMem o

/-- The first load in the loop fails and the loop goes on. -/
def Outcomes.Retries : Prop :=
  o.live 0 = true ∧ luaEnvLoadScript (o.load 0) ≠ 0 ∧ o.live 1 = true

end Spec

section Run

variable {env : LuaEnvD} {o : Outcomes}

theorem threadAfter_succ (k : Nat) :
    threadAfter env o (k + 1) = thLuaEnv env o (threadAfter env o k) :=
  Function.iterate_succ_apply' _ _ _

theorem threadAfter_invariant {I : EnvThread → Prop} (h₀ : I ⟨.setup, 0, []⟩)
    (hstep : ∀ t, I t → I (thLuaEnv env o t)) (k : Nat) : I (threadAfter env o k) := by
  induction k with
  | zero => exact h₀
  | succ k ih =>
      rw [threadAfter_succ]
      exact hstep _ ih

/-- The thread comes through a state. -/
def Visits (env : LuaEnvD) (o : Outcomes) (t : EnvThread) : Prop := ∃ k, threadAfter env o k = t

theorem visits_start : Visits env o ⟨.setup, 0, []⟩ := ⟨0, rfl⟩

theorem Visits.next {t t' : EnvThread} (h : Visits env o t) (ht : thLuaEnv env o t = t') :
    Visits env o t' := by
  obtain ⟨k, rfl⟩ := h
  exact ⟨k + 1, by rw [threadAfter_succ, ht]⟩

/-- The loop starts after an initial load that does not fail. -/
theorem visits_check (h : ¬ InitialFails env.conserveMem o) :
    Visits env o ⟨.check, 0, initialLoad env.conserveMem o⟩ := by
  cases hm : env.conserveMem with
  | true => exact visits_start.next (by simp [thLuaEnv, luaEnvSetup, initialLoad, hm])
  | false =>
      have hload : luaEnvLoadScript (o.load 0) = 0 := by simpa [InitialFails, hm] using h
      have hcache : Visits env o ⟨.cache, 0, []⟩ :=
        visits_start.next (by simp [thLuaEnv, luaEnvSetup, hm])
      exact hcache.next (by simp [thLuaEnv, initialLoad, hload])

theorem Visits.close {n : Nat} {trace : List EnvEv} (h : Visits env o ⟨.close, n, trace⟩) :
    Visits env o ⟨.done, n, trace⟩ := h.next rfl

theorem visits_done_of_initialFails (h : InitialFails env.conserveMem o) :
    Visits env o ⟨.done, 0, [.load (o.load 0)]⟩ := by
  obtain ⟨hm, hload⟩ := h
  have hcache : Visits env o ⟨.cache, 0, []⟩ :=
    visits_start.next (by simp [thLuaEnv, luaEnvSetup, hm])
  have hclose : Visits env o ⟨.close, 0, [.load (o.load 0)]⟩ :=
    hcache.next (by simp [thLuaEnv, hload])
  exact hclose.close

section Iteration

variable {n : Nat} {trace : List EnvEv} (h : Visits env o ⟨.check, n, trace⟩)
include h

/-- The loop ends when its condition is false. -/
theorem Visits.stop (hlive : o.live n = false) : Visits env o ⟨.done, n, trace⟩ := by
  have hclose : Visits env o ⟨.close, n, trace⟩ := h.next (by simp [thLuaEnv, hlive])
  exact hclose.close

/-- An attempt with a failed load goes on at the early `continue`, any other at the
end of the loop. -/
theorem Visits.attempt (hlive : o.live n = true) :
    if env.conserveMem = true ∧ luaEnvLoadScript (o.load n) ≠ 0 then
      Visits env o ⟨.retry, n, trace ++ [.load (o.load n)]⟩
    else Visits env o ⟨.next, n, trace ++ attempt env.conserveMem o n⟩ := by
  cases hm : env.conserveMem with
  | false =>
      have hrun : Visits env o ⟨.pcall, n, trace⟩ := h.next (by simp [thLuaEnv, hlive, hm])
      exact hrun.next (by simp [thLuaEnv, Lua.attempt])
  | true =>
      have hload : Visits env o ⟨.load, n, trace⟩ := h.next (by simp [thLuaEnv, hlive, hm])
      split_ifs with hfail
      · exact hload.next (by simp [thLuaEnv, hfail.2])
      · have hok : luaEnvLoadScript (o.load n) = 0 := by simpa using hfail
        have hrun : Visits env o ⟨.pcall, n, trace ++ [.load (o.load n)]⟩ :=
          hload.next (by simp [thLuaEnv, hok])
        exact hrun.next (by simp [thLuaEnv, Lua.attempt, hok])

/-- With an interval other than 0 an iteration is one attempt and one sleep. -/
theorem Visits.iteration (hlive : o.live n = true) (hne : env.interval ≠ 0) :
    Visits env o ⟨.check, n + 1,
      trace ++ Lua.attempt env.conserveMem o n ++ [.sleep env.st.ns]⟩ := by
  have hatt := h.attempt hlive
  split_ifs at hatt with hfail
  · exact hatt.next (by simp [thLuaEnv, Lua.attempt, hfail.1, hfail.2])
  · exact hatt.next (by simp [thLuaEnv, hne])

end Iteration

/-- The thread follows its schedule as long as the loop goes on. -/
theorem visits_schedule (hne : env.interval ≠ 0) (h : ¬ InitialFails env.conserveMem o) (n : Nat)
    (hlive : ∀ j < n, o.live j = true) :
    Visits env o ⟨.check, n, schedule env.conserveMem o env.st.ns n⟩ := by
  induction n with
  | zero => exact visits_check h
  | succ n ih =>
      have hn := ih fun j hj => hlive j (Nat.lt_succ_of_lt hj)
      exact hn.iteration (hlive n (Nat.lt_succ_self n)) hne

/-- The thread is not about to return. -/
def GoesOn (env : LuaEnvD) (t : EnvThread) : Prop :=
  (t.place = .cache → env.conserveMem = false) ∧ t.place ≠ .close ∧ t.place ≠ .done

theorem GoesOn.next {t : EnvThread} (ht : GoesOn env t) (hne : env.interval ≠ 0)
    (h : ¬ InitialFails env.conserveMem o) (hlive : ∀ n, o.live n = true) :
    GoesOn env (thLuaEnv env o t) := by
  obtain ⟨place, iter, trace⟩ := t
  obtain ⟨hcache, hclose, hdone⟩ := ht
  cases place with
  | close => exact absurd rfl hclose
  | done => exact absurd rfl hdone
  | cache =>
      have hload : luaEnvLoadScript (o.load 0) = 0 := by
        simpa [InitialFails, hcache rfl] using h
      simp [GoesOn, thLuaEnv, hload]
  | load =>
      by_cases hload : luaEnvLoadScript (o.load iter) = 0 <;> simp [GoesOn, thLuaEnv, hload]
  | _ =>
      cases hm : env.conserveMem <;> simp [GoesOn, thLuaEnv, luaEnvSetup, hm, hlive, hne]

/-- A thread with an interval whose loop condition stays true does not return. -/
theorem threadAfter_place_ne_done (hne : env.interval ≠ 0) (h : ¬ InitialFails env.conserveMem o)
    (hlive : ∀ n, o.live n = true) (k : Nat) : (threadAfter env o k).place ≠ .done := by
  have hinv : GoesOn env (threadAfter env o k) :=
    threadAfter_invariant (by simp [GoesOn]) (fun _ ht => ht.next hne h hlive) k
  exact hinv.2.2

/-- A step adds at most one entry to the record. -/
theorem thLuaEnv_trace (t : EnvThread) :
    ∃ es, (thLuaEnv env o t).trace = t.trace ++ es ∧ ∀ ns, .sleep ns ∈ es → ns = env.st.ns := by
  obtain ⟨place, iter, trace⟩ := t
  cases place with
  | cache => exact ⟨[.load (o.load 0)], rfl, by simp⟩
  | load => exact ⟨[.load (o.load iter)], rfl, by simp⟩
  | pcall => exact ⟨[.run (o.run iter)], rfl, by simp⟩
  | retry => exact ⟨[.sleep env.st.ns], rfl, by simp⟩
  | next =>
      by_cases h : env.interval = 0
      · exact ⟨[], by simp [thLuaEnv, h], by simp⟩
      · exact ⟨[.sleep env.st.ns], by simp [thLuaEnv, h], by simp⟩
  | _ => exact ⟨[], (List.append_nil trace).symm, by simp⟩

theorem thLuaEnv_trace_le (t : EnvThread) : t.trace <+: (thLuaEnv env o t).trace := by
  obtain ⟨es, hes, -⟩ := thLuaEnv_trace t
  exact ⟨es, hes.symm⟩

theorem threadAfter_trace_le {j k : Nat} (h : j ≤ k) :
    (threadAfter env o j).trace <+: (threadAfter env o k).trace := by
  induction k, h using Nat.le_induction with
  | base => exact List.prefix_rfl
  | succ k _ ih =>
      rw [threadAfter_succ]
      exact ih.trans (thLuaEnv_trace_le _)

/-- A thread that returned has done all it will do. -/
theorem Visits.trace_le {n : Nat} {trace : List EnvEv} (h : Visits env o ⟨.done, n, trace⟩)
    (k : Nat) : (threadAfter env o k).trace <+: trace := by
  obtain ⟨j, hj⟩ := h
  have hstay : ∀ i, threadAfter env o (j + i) = ⟨.done, n, trace⟩ := by
    intro i
    induction i with
    | zero => exact hj
    | succ i ih => rw [Nat.add_succ, threadAfter_succ, ih]; rfl
  calc
    (threadAfter env o k).trace <+: (threadAfter env o (j + k)).trace :=
      threadAfter_trace_le (Nat.le_add_left k j)
    _ = trace := by rw [hstay k]

/-- All sleeps take the interval. -/
theorem eq_of_sleep_mem (k : Nat) :
    ∀ ns, EnvEv.sleep ns ∈ (threadAfter env o k).trace → ns = env.st.ns := by
  refine threadAfter_invariant (I := fun t => ∀ ns, .sleep ns ∈ t.trace → ns = env.st.ns)
    (by simp) ?_ k
  intro t ih ns hmem
  obtain ⟨es, hes, hsleep⟩ := thLuaEnv_trace t
  rw [hes, List.mem_append] at hmem
  exact hmem.elim (ih ns) (hsleep ns)

/-- An environment without an interval returns after one attempt when its loop does not
go on after a failed load. -/
theorem visits_done_once (hzero : env.interval = 0) (h : ¬ (env.conserveMem = true ∧ o.Retries)) :
    ∃ n trace, Visits env o ⟨.done, n, trace⟩ ∧ loads trace ≤ 1 ∧ runs trace ≤ 1 := by
  by_cases hinit : InitialFails env.conserveMem o
  · exact ⟨0, _, visits_done_of_initialFails hinit, Nat.le_refl 1, Nat.zero_le 1⟩
  · have hcheck := visits_check hinit
    cases hlive : o.live 0 with
    | false =>
        refine ⟨0, _, hcheck.stop hlive, ?_⟩
        cases hm : env.conserveMem <;> simp [initialLoad, loads, runs]
    | true =>
        have hatt := hcheck.attempt hlive
        split_ifs at hatt with hfail
        · -- the retry ends at the second test of the loop condition
          have hlive' : o.live 1 = false := by
            rw [← Bool.not_eq_true]
            exact fun hl => h ⟨hfail.1, hlive, hfail.2, hl⟩
          have hretry : Visits env o ⟨.check, 1, _⟩ := hatt.next rfl
          refine ⟨1, _, hretry.stop hlive', ?_⟩
          simp [initialLoad, loads, runs, hfail.1]
        · have hclose : Visits env o
              ⟨.close, 0, initialLoad env.conserveMem o ++ attempt env.conserveMem o 0⟩ :=
            hatt.next (by simp [thLuaEnv, hzero])
          refine ⟨0, _, hclose.close, ?_⟩
          cases hm : env.conserveMem with
          | false => simp [initialLoad, attempt, loads, runs]
          | true =>
              have hok : luaEnvLoadScript (o.load 0) = 0 := by simpa [hm] using hfail
              simp [initialLoad, attempt, loads, runs, hok]

theorem loads_of_retries (env : LuaEnvD) (hm : env.conserveMem = true) (h : o.Retries) :
    ∃ k, loads (threadAfter env o k).trace = 2 := by
  obtain ⟨hlive, hfail, hlive'⟩ := h
  have hinit : ¬ InitialFails env.conserveMem o := by simp [InitialFails, hm]
  have hatt := (visits_check hinit).attempt hlive
  rw [if_pos ⟨hm, hfail⟩] at hatt
  have hretry : Visits env o ⟨.check, 1, _⟩ := hatt.next rfl
  have hload : Visits env o
      ⟨.load, 1, initialLoad env.conserveMem o ++ [.load (o.load 0)] ++ [.sleep env.st.ns]⟩ :=
    hretry.next (by simp [thLuaEnv, hlive', hm])
  obtain ⟨k, hk⟩ := hload.next rfl
  exact ⟨k, by simp [hk, thLuaEnv, initialLoad, hm, loads]⟩

/-- The life of a created thread whose sleeps, if there are any, take the interval. -/
theorem lifeCycle_of_created {i : Int} (hnn : 0 ≤ i) (hzero : env.interval = 0 ↔ i = 0)
    (hns : o.Sleeps env.conserveMem → env.st.ns = (i * 10 ^ 6).toNat)
    (hretry : i = 0 → ¬ (env.conserveMem = true ∧ o.Retries)) :
    LifeCycle env.conserveMem o i true true (threadAfter env o) := by
  have hne : 0 < i → env.interval ≠ 0 := fun hpos h0 => Int.ne_of_gt hpos (hzero.mp h0)
  have hsched : 0 < i → ¬ InitialFails env.conserveMem o → ∀ n, (∀ j < n, o.live j = true) →
      Visits env o ⟨.check, n, schedule env.conserveMem o (i * 10 ^ 6).toNat n⟩ := by
    intro hpos hinit n hlive
    have hvisit := visits_schedule (hne hpos) hinit n hlive
    cases n with
    | zero =>
        rw [schedule] at hvisit ⊢
        exact hvisit
    | succ n =>
        rw [hns ⟨hlive 0 n.succ_pos, hinit⟩] at hvisit
        exact hvisit
  constructor
  case created_iff => simp [hnn]
  case once =>
    intro _ hi
    obtain ⟨n, trace, hdone, hloads, hruns⟩ := visits_done_once (hzero.mpr hi) (hretry hi)
    refine ⟨fun k => ?_, hdone.imp fun k hk => by rw [hk]⟩
    have hsub := (hdone.trace_le k).sublist
    exact ⟨Nat.le_trans hsub.countP_le hloads, Nat.le_trans hsub.countP_le hruns⟩
  case failed =>
    intro _ _ hinit
    exact (visits_done_of_initialFails hinit).imp fun k hk => by simp [hk]
  case repeated =>
    intro _ hpos hinit n hlive
    exact (hsched hpos hinit n hlive).imp fun k hk => by simp [hk]
  case ended =>
    intro _ hpos hinit n hlive hstop
    exact ((hsched hpos hinit n hlive).stop hstop).imp fun k hk => by simp [hk]
  case lives =>
    intro _ hpos hinit hlive
    exact threadAfter_place_ne_done (hne hpos) hinit hlive

end Run

/-- The interval that a checked environment asks for. -/
def interval (v : Json) : Int :=
  match v.field "interval" with
  | .int n => n
  | _ => 0

/-- The start flag that a checked environment asks for. -/
def autoStart (v : Json) : Bool := (v.field "auto_start").isTrue

/-- The thread asks for the interval in milliseconds. -/
theorem st_ns (env : LuaEnvD) : env.st.ns = env.interval.toNat * 10 ^ 6 := by
  have hlt := env.interval.toNat_lt
  simp only [LuaEnvD.st, Timespec.ns, UInt64.toNat_div, UInt64.toNat_mod, UInt64.toNat_mul,
    UInt64.reduceToNat]
  omega

/-- The test of the interval lets every value pass. -/
theorem processLuaEnvs_eq (env : LuaEnvD) : processLuaEnvs env = env.active := by
  simp [processLuaEnvs]

section Config

variable {c : JsonC} {files : String → ScriptFile} {v : Json}

/-- A checked environment has an integer for its interval. -/
theorem field_interval_of_verifyEnv (h : verifyEnv c files v = 0) :
    v.field "interval" = .int (interval v) := by
  have hint := (types_of_verifyEnv h).2
  unfold interval
  cases hv : v.field "interval" with
  | int n => rfl
  | _ => simp [hv, Json.isInt] at hint

/-- The field holds the interval up to the largest `int`. -/
theorem createEnv_interval (h : verifyEnv c files v = 0) (hnn : 0 ≤ interval v)
    (agressiveGc conserveMem : Bool) :
    ((createEnv c agressiveGc conserveMem v).interval.toNat : Int) =
      min (interval v) (2 ^ 31 - 1) := by
  simp only [createEnv, field_interval_of_verifyEnv h, JsonC.getInt, UInt64.ofInt,
    UInt64.toNat_ofNat', clampInt32]
  omega

theorem createEnv_interval_eq_zero_iff (h : verifyEnv c files v = 0) (hnn : 0 ≤ interval v)
    (agressiveGc conserveMem : Bool) :
    (createEnv c agressiveGc conserveMem v).interval = 0 ↔ interval v = 0 := by
  have hval := createEnv_interval h hnn agressiveGc conserveMem
  rw [← UInt64.toNat_inj, UInt64.toNat_zero]
  omega

/-- The sleep takes the interval when it fits an `int`. -/
theorem createEnv_st_ns (h : verifyEnv c files v = 0) (hnn : 0 ≤ interval v)
    (hlt : interval v < 2 ^ 31) (agressiveGc conserveMem : Bool) :
    (createEnv c agressiveGc conserveMem v).st.ns = (interval v * 10 ^ 6).toNat := by
  have hval := createEnv_interval h hnn agressiveGc conserveMem
  rw [st_ns]
  omega

/-- The descriptor of a checked entry has the life that the entry asks for exactly when it is
not to be started or has an interval from 0 that fits an `int`, unless its thread sleeps
never, and does not retry a load that failed once. -/
theorem lifeCycle_createEnv_iff (h : verifyEnv c files v = 0) (agressiveGc conserveMem : Bool)
    (o : Outcomes) :
    LifeCycle conserveMem o (interval v) (autoStart v)
        (processLuaEnvs (createEnv c agressiveGc conserveMem v))
        (threadAfter (createEnv c agressiveGc conserveMem v) o) ↔
      (autoStart v = true → 0 ≤ interval v ∧
        (interval v < 2 ^ 31 ∨ ¬ o.Sleeps conserveMem) ∧
        ¬ (interval v = 0 ∧ conserveMem = true ∧ o.Retries)) := by
  have hcreated : processLuaEnvs (createEnv c agressiveGc conserveMem v) = autoStart v :=
    processLuaEnvs_eq _
  rw [hcreated]
  constructor
  · intro hl hauto
    have hnn : 0 ≤ interval v := (hl.created_iff.mp hauto).2
    refine ⟨hnn, ?_, ?_⟩
    · -- the first sleep is shorter than the interval
      by_contra hno
      obtain ⟨hge, hsleep⟩ := not_or.mp hno
      obtain ⟨hlive, hinit⟩ := not_not.mp hsleep
      have hone : ∀ j < 1, o.live j = true := fun j hj => Nat.lt_one_iff.mp hj ▸ hlive
      obtain ⟨k, -, htrace⟩ := hl.repeated hauto (by omega) hinit 1 hone
      have hmem : .sleep (interval v * 10 ^ 6).toNat ∈
          (threadAfter (createEnv c agressiveGc conserveMem v) o k).trace := by
        rw [htrace]
        exact List.mem_append_right _ (List.mem_singleton.mpr rfl)
      have hns := eq_of_sleep_mem k _ hmem
      have hval := createEnv_interval h hnn agressiveGc conserveMem
      rw [st_ns] at hns
      omega
    · rintro ⟨hzero, hm, hretry⟩
      obtain ⟨hone, -⟩ := hl.once hauto hzero
      obtain ⟨k, hk⟩ := loads_of_retries (createEnv c agressiveGc conserveMem v) hm hretry
      have hle := (hone k).1
      omega
  · intro hcond
    cases hauto : autoStart v with
    | false => constructor <;> simp
    | true =>
        obtain ⟨hnn, hlt, hretry⟩ := hcond hauto
        have hzero := createEnv_interval_eq_zero_iff h hnn agressiveGc conserveMem
        refine lifeCycle_of_created hnn hzero (fun hsleep => ?_) (fun hi hr => hretry ⟨hi, hr⟩)
        exact createEnv_st_ns h hnn (hlt.resolve_right (not_not.mpr hsleep)) _ _

end Config

section Manager

variable (c : JsonC) (files : String → ScriptFile) (cfg : Json) (signals : Signals LuaSigArgs)

/-- The environment manager after `umlua_init`. -/
def lenvMngr : List LuaEnvD := (processCfg c files cfg ⟨signals, []⟩).2.envs

/-- The manager without the numbers of the entries. -/
theorem lenvMngr_eq : lenvMngr c files cfg signals =
    (Loader.processCfg c files cfg (Loader.objects ⟨signals, []⟩)).2.envs.map
      EnvObj.toLuaEnvD := by
  rw [lenvMngr, ← Loader.forget_processCfg]
  rfl

/-- The names of the manager, each once, are those of the accepted entries. -/
theorem lenvMngr_names :
    ((lenvMngr c files cfg signals).map LuaEnvD.name).Nodup ∧
      ∀ n, n ∈ (lenvMngr c files cfg signals).map LuaEnvD.name ↔
        ∃ v ∈ Loader.acceptedEnvs c files cfg, Loader.envName c v = n := by
  have hnew := @Loader.processCfg_newEnvs c files cfg signals
  rw [lenvMngr_eq, List.map_map]
  refine ⟨hnew.nodup, fun n => (hnew.names n).trans ?_⟩
  simp

/-- An environment of the manager is the one of the first accepted entry with its name. -/
theorem entry_of_mem_lenvMngr {env : LuaEnvD} (h : env ∈ lenvMngr c files cfg signals) :
    ∃ i v, FirstAt (fun w => Loader.envName c w = env.name)
        (Loader.acceptedEnvs c files cfg) i v ∧
      verifyEnv c files v = 0 ∧
      env = createEnv c ((plgCfg cfg).field "aggressive_gc").isTrue
        ((plgCfg cfg).field "conserve_memory").isTrue v := by
  rw [lenvMngr_eq] at h
  obtain ⟨obj, hobj, rfl⟩ := List.mem_map.mp h
  obtain ⟨i, v, hfirst, heq⟩ := (Loader.processCfg_newEnvs cfg signals).first obj hobj
  have hmem : v ∈ Loader.acceptedEnvs c files cfg := List.mem_of_getElem? hfirst.entry
  exact ⟨i, v, hfirst, Loader.verifyEnv_of_mem_acceptedEnvs hmem, by rw [heq]; rfl⟩

/-- A thread is created for an environment of the manager as its start flag and its interval
say. -/
theorem mem_umluaStart_iff {envs : List LuaEnvD} {env : LuaEnvD} (h : env ∈ envs) :
    env ∈ umluaStart envs ↔ processLuaEnvs env = true := by
  rw [umluaStart, List.mem_filter]
  exact and_iff_right h

/-- The manager holds one environment for each name of the accepted entries, that of the
first of them, so that a second environment of a name is none. An environment of it has the
life that its entry asks for exactly when it is not to be started or has an interval from 0
that fits an `int`, unless its thread sleeps never, and does not retry a load that failed
once. -/
theorem lifeCycle_iff :
    ((lenvMngr c files cfg signals).map LuaEnvD.name).Nodup ∧
    (∀ n, n ∈ (lenvMngr c files cfg signals).map LuaEnvD.name ↔
      ∃ v ∈ Loader.acceptedEnvs c files cfg, Loader.envName c v = n) ∧
    ∀ env ∈ lenvMngr c files cfg signals, ∃ i v,
      FirstAt (fun w => Loader.envName c w = env.name) (Loader.acceptedEnvs c files cfg) i v ∧
      ∀ o : Outcomes,
        LifeCycle ((plgCfg cfg).field "conserve_memory").isTrue o (interval v) (autoStart v)
            (decide (env ∈ umluaStart (lenvMngr c files cfg signals))) (threadAfter env o) ↔
          (autoStart v = true → 0 ≤ interval v ∧
            (interval v < 2 ^ 31 ∨ ¬ o.Sleeps ((plgCfg cfg).field "conserve_memory").isTrue) ∧
            ¬ (interval v = 0 ∧ ((plgCfg cfg).field "conserve_memory").isTrue = true ∧
              o.Retries)) := by
  obtain ⟨hnodup, hnames⟩ := lenvMngr_names c files cfg signals
  refine ⟨hnodup, hnames, fun env henv => ?_⟩
  have hstart : decide (env ∈ umluaStart (lenvMngr c files cfg signals)) = processLuaEnvs env := by
    simp [mem_umluaStart_iff henv]
  obtain ⟨i, v, hfirst, hok, rfl⟩ := entry_of_mem_lenvMngr c files cfg signals henv
  refine ⟨i, v, hfirst, fun o => ?_⟩
  rw [hstart]
  exact lifeCycle_createEnv_iff hok _ _ o

end Manager

/-- An entry that starts with an interval. -/
def intervalEnv (n : Int) : Json :=
  .obj [("name", .str "env"), ("auto_start", .bool true), ("interval", .int n),
    ("path", .str "env.lua"), ("events", .arr [])]

/-- A configuration that saves memory and has two entries of one name. -/
def intervalCfg (n : Int) : Json :=
  .obj [("umlua", .obj [("conserve_memory", .bool true),
    ("envs", .arr [intervalEnv n, intervalEnv 60000])])]

def noJsonC : JsonC := ⟨fun _ => .null, fun _ => 0, fun _ => ""⟩

/-- The manager of the configuration. -/
def intervalMngr (n : Int) : List LuaEnvD :=
  lenvMngr noJsonC (fun _ => .size 1) (intervalCfg n) []

/-- The descriptor of the first entry. -/
def intervalEnvD (n : Int) : LuaEnvD := createEnv noJsonC false true (intervalEnv n)

/-- A script that never compiles, in a program that never ends. -/
def brokenScript : Outcomes := ⟨fun _ => true, fun _ => .errSyntax, fun _ => 0⟩

/-- The second entry gets no environment. -/
theorem intervalMngr_eq (n : Int) : intervalMngr n = [intervalEnvD n] := rfl

/-- An environment that runs each second keeps its life. -/
theorem lifeCycle_iff_1000 :
    LifeCycle true brokenScript (interval (intervalEnv 1000)) (autoStart (intervalEnv 1000))
      (decide (intervalEnvD 1000 ∈ umluaStart (intervalMngr 1000)))
      (threadAfter (intervalEnvD 1000) brokenScript) := by
  obtain ⟨-, -, hlife⟩ := lifeCycle_iff noJsonC (fun _ => .size 1) (intervalCfg 1000) []
  have hmem : intervalEnvD 1000 ∈ intervalMngr 1000 := by
    rw [intervalMngr_eq]
    exact List.mem_singleton.mpr rfl
  obtain ⟨i, v, hfirst, h⟩ := hlife (intervalEnvD 1000) hmem
  have hhead : FirstAt (fun w => Loader.envName noJsonC w = "env")
      (Loader.acceptedEnvs noJsonC (fun _ => .size 1) (intervalCfg 1000)) 0 (intervalEnv 1000) :=
    FirstAt.head rfl
  obtain rfl := hfirst.index_eq hhead
  obtain rfl := Option.some.inj (hfirst.entry.symm.trans hhead.entry)
  exact (h brokenScript).mpr fun _ =>
    ⟨by decide, Or.inl (by decide), fun hz => absurd hz.1 (by decide)⟩

/-- The interval -1 starts an environment, and a script that does not compile is loaded
again with the interval 0. -/
theorem lifeCycle_fails :
    ¬ LifeCycle true brokenScript (interval (intervalEnv (-1))) (autoStart (intervalEnv (-1)))
      (decide (intervalEnvD (-1) ∈ umluaStart (intervalMngr (-1))))
      (threadAfter (intervalEnvD (-1)) brokenScript) ∧
    ¬ LifeCycle true brokenScript (interval (intervalEnv 0)) (autoStart (intervalEnv 0))
      (decide (intervalEnvD 0 ∈ umluaStart (intervalMngr 0)))
      (threadAfter (intervalEnvD 0) brokenScript) := by
  constructor
  · intro h
    exact absurd (h.created_iff.mp (by decide)).2 (by decide)
  · intro h
    exact absurd ((h.once (by decide) rfl).1 6).1 (by decide)

end Umink.Lua
