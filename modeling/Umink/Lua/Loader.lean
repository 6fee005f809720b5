import Umink.Lua.Config

/-!
# The environments and signals of a configuration

What `process_cfg` leaves in the signal table and in the environment manager: of every new
name the first event and the first environment before the one that ends the loop.

## Implementation notes

Two environments can have equal descriptors, so that the functions are repeated with an
identity of the environment objects, the number of their entry in `envs`. Without the
numbers they are the functions of the configuration module.
-/

namespace Umink.Lua

open Umink.Library Umink.Plugin

/-- An environment object and the number of its entry in `envs`; none if it was there
before. -/
structure EnvObj extends LuaEnvD where
  entry : Option Nat

/-- The key of the environment manager. -/
def EnvObj.key (env : EnvObj) : String := env.name

/-- `shd->args` with the environment object. -/
structure ObjArgs where
  env : EnvObj
  perf : Nat

/-- The signal table and the environment manager. -/
structure ObjState where
  signals : Signals ObjArgs
  envs : List EnvObj

namespace Loader

variable (c : JsonC) (files : String → ScriptFile)

/-- Register the events of an environment. -/
def registerEvents (v : Json) (env : EnvObj) :
    List Json → Nat → Signals ObjArgs → Signals ObjArgs
  | [], _, signals => signals
  | v2 :: events, sgnlNr, signals =>
      if !v2.isStr then registerEvents v env events sgnlNr signals
      else
        let sh : UmplgSh ObjArgs := ⟨c.getString v2, minAuthLvl c v, ⟨env, sgnlNr⟩⟩
        registerEvents v env events (sgnlNr + 1) (umplgRegSignal signals sh 0).2

/-- `lenvm_new_envd`. -/
def lenvmNewEnvd (envs : List EnvObj) (env : EnvObj) : List EnvObj :=
  match HashTable.find EnvObj.key envs env.key with
  | none => HashTable.add envs env
  | some _ => envs

/-- The environment object of an entry. -/
def createEnv (agressiveGc conserveMem : Bool) (i : Nat) (v : Json) : EnvObj :=
  ⟨Lua.createEnv c agressiveGc conserveMem v, some i⟩

/-- The array of events of an environment. -/
def events (v : Json) : List Json := (v.field "events").elems?.getD []

/-- The loop over the environments from the entry `i` on. -/
def processEnvs (agressiveGc conserveMem : Bool) : Nat → List Json → ObjState → Nat × ObjState
  | _, [], st => (0, st)
  | i, v :: vs, st =>
      let r := verifyEnv c files v
      if r ≠ 0 then (r, st)
      else
        let env := createEnv c agressiveGc conserveMem i v
        processEnvs agressiveGc conserveMem (i + 1) vs
          ⟨registerEvents c v env (events v) 0 st.signals, lenvmNewEnvd st.envs env⟩

/-- `process_cfg`: the code and what was configured. -/
def processCfg (cfg : Json) (st : ObjState) : Nat × ObjState :=
  if cfg.isNull then (1, st)
  else if !cfg.isObj then (2, st)
  else if (plgCfg cfg).isNull then (3, st)
  else
    let jAgrGc := (plgCfg cfg).field "aggressive_gc"
    if !jAgrGc.isNull ∧ !jAgrGc.isBool then (6, st)
    else
      let jCsMem := (plgCfg cfg).field "conserve_memory"
      if !jCsMem.isNull ∧ !jCsMem.isBool then (6, st)
      else processEnvs c files jAgrGc.isTrue jCsMem.isTrue 0 (cfgEnvs cfg) st

section Refinement

/-- A signal without the identity of its environment. -/
def forgetSh (sh : UmplgSh ObjArgs) : LuaSh :=
  ⟨sh.id, sh.minAuthLvl, ⟨sh.args.env.toLuaEnvD, sh.args.perf⟩⟩

/-- The state without the identities. -/
def forget (st : ObjState) : CfgState := ⟨st.signals.map forgetSh, st.envs.map EnvObj.toLuaEnvD⟩

/-- A state whose objects have no entry. -/
def objects (st : CfgState) : ObjState :=
  ⟨st.signals.map fun sh => ⟨sh.id, sh.minAuthLvl, ⟨⟨sh.args.env, none⟩, sh.args.perf⟩⟩,
    st.envs.map fun env => ⟨env, none⟩⟩

variable {c files}

theorem forget_objects (st : CfgState) : forget (objects st) = st := by
  simp [forget, objects, forgetSh, Function.comp_def]

theorem umplgRegSignal_eq_addNew {η : Type*} (signals : Signals η) (sh : UmplgSh η) :
    (umplgRegSignal signals sh 0).2 = HashTable.addNew UmplgSh.id signals sh := by
  unfold umplgRegSignal HashTable.addNew Signals.find
  cases HashTable.find UmplgSh.id signals sh.id <;> rfl

theorem forget_registerEvents (v : Json) (env : EnvObj) (evs : List Json) (n : Nat)
    (signals : Signals ObjArgs) :
    (registerEvents c v env evs n signals).map forgetSh =
      Lua.registerEvents c v env.toLuaEnvD evs n (signals.map forgetSh) := by
  induction evs generalizing n signals with
  | nil => rfl
  | cons v2 evs ih =>
      rw [registerEvents, Lua.registerEvents]
      dsimp only
      split_ifs
      · exact ih n signals
      · rw [ih, umplgRegSignal_eq_addNew, umplgRegSignal_eq_addNew]
        congr 1
        exact (@HashTable.addNew_map _ _ _ UmplgSh.id _ UmplgSh.id forgetSh (fun _ => rfl)
          signals _).symm

theorem lenvmNewEnvd_eq_addNew (envs : List EnvObj) (env : EnvObj) :
    lenvmNewEnvd envs env = HashTable.addNew EnvObj.key envs env := by
  unfold lenvmNewEnvd HashTable.addNew
  cases HashTable.find EnvObj.key envs env.key <;> rfl

theorem forget_lenvmNewEnvd (envs : List EnvObj) (env : EnvObj) :
    (lenvmNewEnvd envs env).map EnvObj.toLuaEnvD =
      Lua.lenvmNewEnvd (envs.map EnvObj.toLuaEnvD) env.toLuaEnvD := by
  have hmap := @HashTable.addNew_map _ _ _ EnvObj.key _ LuaEnvD.name EnvObj.toLuaEnvD
    (fun _ => rfl) envs env
  rw [lenvmNewEnvd_eq_addNew, ← hmap]
  unfold HashTable.addNew Lua.lenvmNewEnvd
  cases HashTable.find LuaEnvD.name (envs.map EnvObj.toLuaEnvD) env.name <;> rfl

theorem forget_processEnvs (agressiveGc conserveMem : Bool) (i : Nat) (vs : List Json)
    (st : ObjState) :
    (processEnvs c files agressiveGc conserveMem i vs st).map id forget =
      Lua.processEnvs c files agressiveGc conserveMem vs (forget st) := by
  induction vs generalizing i st with
  | nil => rfl
  | cons v vs ih =>
      rw [processEnvs, Lua.processEnvs]
      dsimp only
      split_ifs
      · rfl
      · rw [ih, forget, forget_registerEvents, forget_lenvmNewEnvd]
        rfl

/-- Without the identities the function is the one of the configuration module. -/
theorem forget_processCfg (cfg : Json) (st : CfgState) :
    (processCfg c files cfg (objects st)).map id forget = Lua.processCfg c files cfg st := by
  have hst := forget_objects st
  generalize objects st = t at hst ⊢
  obtain rfl := hst
  unfold processCfg Lua.processCfg
  dsimp only
  split_ifs
  all_goals first
    | rfl
    | exact forget_processEnvs _ _ _ _ _

end Refinement

section Tables

variable {c files}

/-- The events of an environment that become signals. -/
def strEvents (v : Json) : List Json := (events v).filter Json.isStr

variable (c) in
/-- The signal of an event of an environment in its slot. -/
def slot (env : EnvObj) (v : Json) (ev : Json × Nat) : UmplgSh ObjArgs :=
  ⟨c.getString ev.1, minAuthLvl c v, ⟨env, ev.2⟩⟩

variable (c) in
/-- The signals that are created for the environments from the entry `i` on. -/
def slots (agressiveGc conserveMem : Bool) (i : Nat) (vs : List Json) : List (UmplgSh ObjArgs) :=
  (vs.zipIdx i).flatMap fun v =>
    (strEvents v.1).zipIdx.map (slot c (createEnv c agressiveGc conserveMem v.2 v.1) v.1)

variable (c) in
/-- The environments that are created from the entry `i` on. -/
def objs (agressiveGc conserveMem : Bool) (i : Nat) (vs : List Json) : List EnvObj :=
  (vs.zipIdx i).map fun v => createEnv c agressiveGc conserveMem v.2 v.1

theorem slots_cons (agressiveGc conserveMem : Bool) (i : Nat) (v : Json) (vs : List Json) :
    slots c agressiveGc conserveMem i (v :: vs) =
      (strEvents v).zipIdx.map (slot c (createEnv c agressiveGc conserveMem i v) v) ++
        slots c agressiveGc conserveMem (i + 1) vs := rfl

theorem objs_cons (agressiveGc conserveMem : Bool) (i : Nat) (v : Json) (vs : List Json) :
    objs c agressiveGc conserveMem i (v :: vs) =
      createEnv c agressiveGc conserveMem i v :: objs c agressiveGc conserveMem (i + 1) vs := rfl

theorem registerEvents_eq_addAll (v : Json) (env : EnvObj) (evs : List Json) (n : Nat)
    (signals : Signals ObjArgs) :
    registerEvents c v env evs n signals =
      HashTable.addAll UmplgSh.id signals
        (((evs.filter Json.isStr).zipIdx n).map (slot c env v)) := by
  induction evs generalizing n signals with
  | nil => rfl
  | cons v2 evs ih =>
      rw [registerEvents]
      cases hstr : v2.isStr with
      | false =>
          rw [List.filter_cons_of_neg (by simp [hstr])]
          exact ih n signals
      | true =>
          rw [List.filter_cons_of_pos hstr, List.zipIdx_cons, List.map_cons,
            HashTable.addAll_cons, ← umplgRegSignal_eq_addNew]
          exact ih (n + 1) _

/-- The loop adds what the accepted environments create, one after another. -/
theorem processEnvs_eq_addAll (agressiveGc conserveMem : Bool) (i : Nat) (vs : List Json)
    (st : ObjState) :
    (processEnvs c files agressiveGc conserveMem i vs st).2 =
      ⟨HashTable.addAll UmplgSh.id st.signals
        (slots c agressiveGc conserveMem i (vs.takeWhile fun v => verifyEnv c files v = 0)),
      HashTable.addAll EnvObj.key st.envs
        (objs c agressiveGc conserveMem i (vs.takeWhile fun v => verifyEnv c files v = 0))⟩ := by
  induction vs generalizing i st with
  | nil => rfl
  | cons v vs ih =>
      rw [processEnvs]
      dsimp only
      by_cases hok : verifyEnv c files v = 0
      · rw [if_neg (not_not.mpr hok), ih, List.takeWhile_cons_of_pos (by simpa using hok),
          slots_cons, objs_cons, HashTable.addAll_append, HashTable.addAll_cons,
          registerEvents_eq_addAll, lenvmNewEnvd_eq_addNew, strEvents]
      · rw [if_pos hok, List.takeWhile_cons_of_neg (by simpa using hok)]
        rfl

/-- The loop returns 0 exactly if it accepts every environment. -/
theorem processEnvs_code_eq_zero_iff (agressiveGc conserveMem : Bool) (i : Nat) (vs : List Json)
    (st : ObjState) :
    (processEnvs c files agressiveGc conserveMem i vs st).1 = 0 ↔
      ∀ v ∈ vs, verifyEnv c files v = 0 := by
  induction vs generalizing i st with
  | nil => simp [processEnvs]
  | cons v vs ih =>
      rw [processEnvs, List.forall_mem_cons]
      dsimp only
      by_cases hok : verifyEnv c files v = 0
      · rw [if_neg (not_not.mpr hok), ih]
        simp [hok]
      · rw [if_pos hok]
        simp [hok]

end Tables

end Loader

end Umink.Lua
