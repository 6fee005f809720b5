import Umink.Library.JsonC
import Umink.Lua.Env

/-!
# Configuration of the Lua environments

`process_cfg` reads the environments of the `umlua` section one after another,
checks each, and registers a signal for each of its events. It stops at the
first environment that fails a check; what was registered before stays.
-/

namespace Umink.Lua

open Umink.Library Umink.Plugin

/-- What `fopen`, `fseek` and `ftell` tell about a script file. -/
inductive ScriptFile where
  | noOpen
  | noSeek
  | size (n : Int)

/-- The signals of the plugin manager and the environments of the environment
manager. -/
structure CfgState where
  signals : Signals LuaSigArgs
  envs : List LuaEnvD

variable (c : JsonC) (files : String → ScriptFile)

/-- The checks of one environment: its error code or zero. -/
def verifyEnv (v : Json) : Nat :=
  if !v.isObj then 4
  else
    let jN := v.field "name"
    let jAs := v.field "auto_start"
    let jInt := v.field "interval"
    let jP := v.field "path"
    let jEv := v.field "events"
    let jMauth := v.field "min_auth"
    -- all values are mandatory
    if jN.isNull ∨ jAs.isNull ∨ jInt.isNull ∨ jP.isNull ∨ jEv.isNull then 5
    -- minimum auth is optional
    else if !jMauth.isNull ∧ !jMauth.isInt then 6
    else if !(jN.isStr ∧ jAs.isBool ∧ jInt.isInt ∧ jP.isStr ∧ jEv.elems?.isSome) then 6
    else
      match files (c.getString jP) with
      | .noOpen => 6
      | .noSeek => 7
      | .size n => if int32 n ≤ 0 then 8 else 0

/-- The environment descriptor. -/
def createEnv (agressiveGc conserveMem : Bool) (v : Json) : LuaEnvD where
  name := c.getString (v.field "name")
  interval := UInt64.ofInt (c.getInt (v.field "interval"))
  active := (v.field "auto_start").isTrue
  path := c.getString (v.field "path")
  agressiveGc := agressiveGc
  conserveMem := conserveMem

/-- The `min_auth_lvl` of the signals of an environment. -/
def minAuthLvl (v : Json) : UInt16 :=
  if !(v.field "min_auth").isNull then UInt16.ofInt (c.getInt (v.field "min_auth")) else 0

/-- Register the events of an environment; `sgnlNr` counts the signals that were
created for it. -/
def registerEvents (v : Json) (env : LuaEnvD) :
    List Json → Nat → Signals LuaSigArgs → Signals LuaSigArgs
  | [], _, signals => signals
  | v2 :: events, sgnlNr, signals =>
      if !v2.isStr then registerEvents v env events sgnlNr signals
      else
        let sh : LuaSh := ⟨c.getString v2, minAuthLvl c v, ⟨env, sgnlNr⟩⟩
        registerEvents v env events (sgnlNr + 1) (umplgRegSignal signals sh 0).2

/-- `lenvm_new_envd`. -/
def lenvmNewEnvd (envs : List LuaEnvD) (env : LuaEnvD) : List LuaEnvD :=
  match HashTable.find LuaEnvD.name envs env.name with
  | none => HashTable.add envs env
  | some _ => envs

/-- The loop over the environments. -/
def processEnvs (agressiveGc conserveMem : Bool) : List Json → CfgState → Nat × CfgState
  | [], st => (0, st)
  | v :: vs, st =>
      let r := verifyEnv c files v
      if r ≠ 0 then (r, st)
      else
        let env := createEnv c agressiveGc conserveMem v
        let events := (v.field "events").elems?.getD []
        processEnvs agressiveGc conserveMem vs
          ⟨registerEvents c v env events 0 st.signals, lenvmNewEnvd st.envs env⟩

/-- The `umlua` section of a configuration. -/
def plgCfg (cfg : Json) : Json := cfg.field "umlua"

/-- The environments of a configuration. -/
def cfgEnvs (cfg : Json) : List Json := ((plgCfg cfg).field "envs").elems?.getD []

/-- `process_cfg`: the code and what was configured. -/
def processCfg (cfg : Json) (st : CfgState) : Nat × CfgState :=
  if cfg.isNull then (1, st)
  else if !cfg.isObj then (2, st)
  else if (plgCfg cfg).isNull then (3, st)
  else
    let jAgrGc := (plgCfg cfg).field "aggressive_gc"
    if !jAgrGc.isNull ∧ !jAgrGc.isBool then (6, st)
    else
      let jCsMem := (plgCfg cfg).field "conserve_memory"
      if !jCsMem.isNull ∧ !jCsMem.isBool then (6, st)
      else processEnvs c files jAgrGc.isTrue jCsMem.isTrue (cfgEnvs cfg) st

/-- The events of an environment, by the ids of their signals. -/
def eventIds (v : Json) : List String :=
  (((v.field "events").elems?.getD []).filter Json.isStr).map c.getString

/-- The level that an environment asks for. -/
def minAuth (v : Json) : Int :=
  match v.field "min_auth" with
  | .int m => m
  | _ => 0

variable {c files}

theorem umplgRegSignal_find_of_some {η : Type*} {signals : Signals η} {sh sh' : UmplgSh η}
    {id : String} (h : signals.find id = some sh) :
    (umplgRegSignal signals sh' 0).2.find id = some sh := by
  unfold umplgRegSignal
  split
  · exact h
  · next hnone =>
    have hid : sh'.id ≠ id := by
      rintro rfl
      rw [hnone] at h
      cases h
    simp only [ne_eq, not_true_eq_false, if_false, Signals.find, HashTable.find_add, hid]
    exact h

theorem umplgRegSignal_find_of_none {η : Type*} {signals : Signals η} (sh' : UmplgSh η)
    {id : String} (h : signals.find id = none) :
    (umplgRegSignal signals sh' 0).2.find id = if sh'.id = id then some sh' else none := by
  unfold umplgRegSignal
  split
  · next sh hsome =>
    have hid : sh'.id ≠ id := by
      rintro rfl
      rw [h] at hsome
      cases hsome
    rw [if_neg hid]
    exact h
  · simp only [ne_eq, not_true_eq_false, if_false, Signals.find, HashTable.find_add]
    rw [← Signals.find, h]

/-- A registered signal stays as it is. -/
theorem registerEvents_find_of_some {v : Json} {env : LuaEnvD} {events : List Json} {n : Nat}
    {signals : Signals LuaSigArgs} {id : String} {sh : LuaSh} (h : signals.find id = some sh) :
    (registerEvents c v env events n signals).find id = some sh := by
  induction events generalizing n signals with
  | nil => exact h
  | cons v2 events ih =>
      unfold registerEvents
      split
      · exact ih h
      · exact ih (umplgRegSignal_find_of_some h)

/-- A signal that is new after the events is one of them and has the level of
their environment. -/
theorem registerEvents_find_of_none (v : Json) (env : LuaEnvD) (events : List Json) {n : Nat}
    {signals : Signals LuaSigArgs} {id : String} (h : signals.find id = none) :
    match (registerEvents c v env events n signals).find id with
    | some sh => id ∈ (events.filter Json.isStr).map c.getString ∧ sh.minAuthLvl = minAuthLvl c v
    | none => id ∉ (events.filter Json.isStr).map c.getString := by
  induction events generalizing n signals with
  | nil => simp [registerEvents, h]
  | cons v2 events ih =>
      unfold registerEvents
      cases hstr : v2.isStr with
      | false => simpa [hstr] using ih h
      | true =>
          simp only [Bool.not_true, Bool.false_eq_true, if_false, List.filter_cons, hstr, if_true,
            List.map_cons, List.mem_cons]
          have hreg := umplgRegSignal_find_of_none
            (⟨c.getString v2, minAuthLvl c v, ⟨env, n⟩⟩ : LuaSh) h
          by_cases hid : c.getString v2 = id
          · rw [if_pos hid] at hreg
            rw [registerEvents_find_of_some hreg]
            exact ⟨Or.inl hid.symm, rfl⟩
          · rw [if_neg hid] at hreg
            have hrest := ih (n := n + 1) hreg
            split at hrest
            · exact ⟨Or.inr hrest.1, hrest.2⟩
            · exact fun hmem => hmem.elim (fun heq => hid heq.symm) hrest

/-- A registered signal stays as it is while further environments are read. -/
theorem processEnvs_find_of_some {agressiveGc conserveMem : Bool} {vs : List Json} {st : CfgState}
    {id : String} {sh : LuaSh} (h : st.signals.find id = some sh) :
    (processEnvs c files agressiveGc conserveMem vs st).2.signals.find id = some sh := by
  induction vs generalizing st with
  | nil => exact h
  | cons v vs ih =>
      rw [processEnvs]
      dsimp only
      split
      · exact h
      · exact ih (registerEvents_find_of_some h)

/-- A signal that is new after the environments has the level of the first
environment with its event, which passed the checks. -/
theorem processEnvs_find {agressiveGc conserveMem : Bool} {vs : List Json} {st : CfgState}
    {id : String} {sh : LuaSh} (h : st.signals.find id = none)
    (hfind : (processEnvs c files agressiveGc conserveMem vs st).2.signals.find id = some sh) :
    ∃ v, vs.find? (fun v => id ∈ eventIds c v) = some v ∧ verifyEnv c files v = 0 ∧
      sh.minAuthLvl = minAuthLvl c v := by
  induction vs generalizing st with
  | nil =>
      rw [processEnvs, h] at hfind
      cases hfind
  | cons v vs ih =>
      rw [processEnvs] at hfind
      dsimp only at hfind
      split at hfind
      · rw [h] at hfind
        cases hfind
      · next hok =>
        have hok : verifyEnv c files v = 0 := not_not.mp hok
        have hev := registerEvents_find_of_none (c := c) (n := 0) v
          (createEnv c agressiveGc conserveMem v) ((v.field "events").elems?.getD []) h
        split at hev
        · next sh' hsome =>
          rw [processEnvs_find_of_some hsome, Option.some.injEq] at hfind
          subst hfind
          exact ⟨v, List.find?_cons_of_pos (decide_eq_true hev.1), hok, hev.2⟩
        · next hnone =>
          obtain ⟨v', hv', hres⟩ := ih hnone hfind
          refine ⟨v', ?_, hres⟩
          rw [List.find?_cons_of_neg, hv']
          exact mt of_decide_eq_true hev

/-- A checked environment asks for no level or for an integer, and for an integer as its
interval. -/
theorem types_of_verifyEnv {v : Json} (h : verifyEnv c files v = 0) :
    ((v.field "min_auth").isNull ∨ (v.field "min_auth").isInt) ∧ (v.field "interval").isInt := by
  unfold verifyEnv at h
  dsimp only at h
  repeat' split at h
  case h_3.isFalse _ _ hauth htypes _ _ _ _ =>
    simp only [Bool.not_eq_true', decide_eq_false_iff_not, not_not] at htypes
    refine ⟨?_, htypes.2.2.1⟩
    by_contra hno
    obtain ⟨hnull, hint⟩ := not_or.mp hno
    exact hauth ⟨by simpa using hnull, by simpa using hint⟩
  all_goals cases h

/-- The level of the signals of a checked environment is its integer in 16
bits. -/
theorem minAuthLvl_toNat {v : Json} (h : verifyEnv c files v = 0) :
    ((minAuthLvl c v).toNat : Int) = clampInt32 (minAuth v) % 2 ^ 16 := by
  have htype := (types_of_verifyEnv h).1
  unfold minAuthLvl minAuth
  cases hauth : v.field "min_auth" with
  | null => rfl
  | int m =>
      simp only [Json.isNull, Bool.not_false, if_true, JsonC.getInt]
      exact uint16_toNat _
  | _ => simp [hauth, Json.isNull, Json.isInt] at htype

/-- A signal that a configuration adds belongs to the first environment with its
event, and its level is what that environment asks for in 16 bits. -/
theorem processCfg_find {cfg : Json} {st : CfgState} {id : String} {sh : LuaSh}
    (h : st.signals.find id = none)
    (hfind : (processCfg c files cfg st).2.signals.find id = some sh) :
    ∃ v, (cfgEnvs cfg).find? (fun v => id ∈ eventIds c v) = some v ∧
      (sh.minAuthLvl.toNat : Int) = clampInt32 (minAuth v) % 2 ^ 16 := by
  unfold processCfg at hfind
  dsimp only at hfind
  repeat' split at hfind
  case isFalse.isFalse.isFalse.isFalse.isFalse =>
    obtain ⟨v, hv, hok, hlvl⟩ := processEnvs_find h hfind
    exact ⟨v, hv, by rw [hlvl, minAuthLvl_toNat hok]⟩
  all_goals
    rw [h] at hfind
    cases hfind

end Umink.Lua
