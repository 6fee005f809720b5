import Umink.Library.Fnmatch
import Umink.Library.Trace
import Umink.Lua.Config

/-!
# The sub-modules of M

A new Lua state gets the table `M`, and the signal `@init_lua_sub_modules` runs the handlers of
all signals whose names match `@init_lua_sub_module:*`, which add their sub-modules to it. They
are run without their descriptor, and the signal can be called without a Lua state.

## Implementation notes

The signals of the configuration may have any names; of the others `umlua_init` registers
`@init_lua_sub_modules` first. A thread keeps the Lua state of its first signal from the
configuration. What a script does to the table `M` of the state it runs in is an action of its own,
and may be anything. The `pm` in the arguments of a handler is the one manager.
-/

namespace Umink.Lua

open Umink.Library Umink.Plugin Fnmatch

/-- The handlers of the signals. -/
inductive SigHandler where
  | createMSubModules
  | mqttModuleSigRun
  | luaSigHndlrRun (args : LuaSigArgs)

/-- The table `M`: its functions and those of `M.mqtt`. -/
structure MTable where
  fns : List String
  mqtt : Option (List String)
  deriving DecidableEq

def minkLualib : List String :=
  ["get_args", "signal", "cmd_call", "perf_inc", "perf_set", "perf_match", "db_set", "db_get"]

def mqttLualib : List String := ["publish"]

/-- `init_mink_lua_module`. -/
def initMinkLuaModule : MTable := ⟨minkLualib, none⟩

/-- `mqtt_module_sig_run` with the Lua state `args`; none when that is `NULL`. -/
def mqttModuleSigRun (args : Option MTable) : Option (Option MTable) :=
  args.map fun m => some { m with mqtt := some mqttLualib }

/-- `signal_match_cb`: a handler that reads its descriptor reads through `NULL`. -/
def signalMatchCb (sh : UmplgSh SigHandler) (args : Option MTable) : Option (Option MTable) :=
  match sh.args with
  | .createMSubModules => none
  | .mqttModuleSigRun => mqttModuleSigRun args
  | .luaSigHndlrRun _ => none

/-- `umplg_match_signal`. -/
def umplgMatchSignal {η α : Type*} (signals : Signals η) (ptrn : String)
    (cb : UmplgSh η → α → Option α) (args : α) : Option α :=
  signals.foldlM (fun args sh => if fnmatch ptrn sh.id then cb sh args else some args) args

/-- `create_m_sub_modules`. -/
def createMSubModules (signals : Signals SigHandler) (args : Option MTable) :
    Option (Option MTable) :=
  umplgMatchSignal signals "@init_lua_sub_module:*" signalMatchCb args

/-- The Lua state of `lua_env_setup` and of `lua_sig_setup`; none if a pointer that is `NULL`
is read through. -/
def luaSetup (signals : Signals SigHandler) : Option MTable :=
  match umplgProcSignal signals (some "@init_lua_sub_modules") 0 with
  | .error _ => some initMinkLuaModule
  | .ok sh =>
      match sh.args with
      | .createMSubModules => (createMSubModules signals (some initMinkLuaModule)).join
      -- `umlua_init` registers this name before anything else
      | .mqttModuleSigRun | .luaSigHndlrRun _ => none

/-- The signals, the Lua states of the threads that have run one of the configuration, and
those of the environments and CLI clients. -/
structure MState (τ : Type*) where
  signals : Signals SigHandler
  threads : τ → Option MTable
  envs : List MTable

/-- The registration of a signal of the configuration, that of `@init_lua_sub_module:mqtt`, the
setup of an environment, a signal that a script, a client of ubus or a message calls, and what a
script of a thread, or of an environment or CLI client, makes of its `M`. -/
inductive MAct (τ : Type*) where
  | regLua (sh : LuaSh)
  | regMqtt
  | env
  | signal (t : τ) (id : String) (usrFlags : Int)
  | script (t : τ) (f : MTable → MTable)
  | envScript (i : Nat) (f : MTable → MTable)

/-- The handler that `umlua_init` registers. -/
def coreSh : UmplgSh SigHandler := ⟨"@init_lua_sub_modules", 0, .createMSubModules⟩

/-- The handler that `init` of the MQTT plugin registers. -/
def mqttSh : UmplgSh SigHandler := ⟨"@init_lua_sub_module:mqtt", 0, .mqttModuleSigRun⟩

/-- A handler of the configuration. -/
def luaSh (sh : LuaSh) : UmplgSh SigHandler := ⟨sh.id, sh.minAuthLvl, .luaSigHndlrRun sh.args⟩

namespace MState

variable {τ : Type*} [DecidableEq τ]

/-- After `umlua_init`. -/
def start : MState τ := ⟨[coreSh], fun _ => none, []⟩

/-- One action; none if a pointer that is `NULL` is read through. -/
def step (s : MState τ) : MAct τ → Option (MState τ)
  | .regLua sh => some { s with signals := (umplgRegSignal s.signals (luaSh sh) 0).2 }
  | .regMqtt => some { s with signals := (umplgRegSignal s.signals mqttSh 0).2 }
  | .env => (luaSetup s.signals).map fun m => { s with envs := s.envs ++ [m] }
  | .signal t id usrFlags =>
      match umplgProcSignal s.signals (some id) usrFlags with
      | .error _ => some s
      | .ok sh =>
          match sh.args with
          | .createMSubModules => (createMSubModules s.signals none).map fun _ => s
          | .mqttModuleSigRun => (mqttModuleSigRun none).map fun _ => s
          | .luaSigHndlrRun _ =>
              match s.threads t with
              | some _ => some s
              | none =>
                  -- create per-thread lua state
                  (luaSetup s.signals).map fun m =>
                    { s with threads := Function.update s.threads t (some m) }
  | .script t f => some { s with threads := Function.update s.threads t ((s.threads t).map f) }
  | .envScript i f => some { s with envs := s.envs.modify i f }

end MState

/-- The names that stand for sub-modules. -/
def subModulePrefix : String := "@init_lua_sub_module:"

/-- A signal of the configuration has the name of a sub-module. -/
def Shadowed (signals : Signals SigHandler) : Prop :=
  ∃ sh : LuaSh, luaSh sh ∈ signals ∧ subModulePrefix.toList <+: sh.id.toList

section Matching

variable {signals : Signals SigHandler} {args out : Option MTable}

theorem fnmatch_subModule (id : String) :
    fnmatch "@init_lua_sub_module:*" id = true ↔ subModulePrefix.toList <+: id.toList :=
  matchToks_lits_star subModulePrefix.toList id.toList

/-- What stands in the table of the signals. -/
inductive Known : UmplgSh SigHandler → Prop
  | core : Known coreSh
  | mqtt : Known mqttSh
  | lua (sh : LuaSh) : Known (luaSh sh)

theorem coreSh_not_matched : ¬ fnmatch "@init_lua_sub_module:*" coreSh.id = true := by
  rw [fnmatch_subModule]
  decide

theorem mqttSh_matched : fnmatch "@init_lua_sub_module:*" mqttSh.id = true := by
  rw [fnmatch_subModule]
  decide

/-- A handler that is no sub-module's is passed over. -/
theorem createMSubModules_cons_of_not_matched {sh : UmplgSh SigHandler}
    (h : ¬ fnmatch "@init_lua_sub_module:*" sh.id = true) :
    createMSubModules (sh :: signals) args = createMSubModules signals args := by
  rw [createMSubModules, umplgMatchSignal, List.foldlM_cons, if_neg h]
  rfl

theorem createMSubModules_cons_of_matched {sh : UmplgSh SigHandler}
    (h : fnmatch "@init_lua_sub_module:*" sh.id = true) :
    createMSubModules (sh :: signals) args =
      (signalMatchCb sh args).bind fun args => createMSubModules signals args := by
  rw [createMSubModules, umplgMatchSignal, List.foldlM_cons, if_pos h]
  rfl

theorem luaSh_ne_coreSh (sh : LuaSh) : luaSh sh ≠ coreSh := fun h =>
  SigHandler.noConfusion (congrArg UmplgSh.args h)

theorem luaSh_ne_mqttSh (sh : LuaSh) : luaSh sh ≠ mqttSh := fun h =>
  SigHandler.noConfusion (congrArg UmplgSh.args h)

theorem mqttSh_ne_coreSh : mqttSh ≠ coreSh := fun h =>
  SigHandler.noConfusion (congrArg UmplgSh.args h)

theorem shadowed_cons_iff {sh : UmplgSh SigHandler} (h : ∀ l, luaSh l ≠ sh) :
    Shadowed (sh :: signals) ↔ Shadowed signals :=
  exists_congr fun l => and_congr_left fun _ => by
    rw [List.mem_cons, or_iff_right (h l)]

theorem shadowed_cons_luaSh_iff (sh : LuaSh) :
    Shadowed (luaSh sh :: signals) ↔
      subModulePrefix.toList <+: sh.id.toList ∨ Shadowed signals := by
  constructor
  · rintro ⟨l, hl, hstart⟩
    obtain heq | hl := List.mem_cons.mp hl
    · have hid : l.id = sh.id := @congrArg _ _ (luaSh l) (luaSh sh) UmplgSh.id heq
      exact .inl (hid ▸ hstart)
    · exact .inr ⟨l, hl, hstart⟩
  · rintro (hstart | ⟨l, hl, hstart⟩)
    · exact ⟨sh, List.mem_cons_self, hstart⟩
    · exact ⟨l, List.mem_cons_of_mem _ hl, hstart⟩

/-- The handlers run through unless a signal of the configuration is among them, or the one of
the MQTT plugin has no Lua state. -/
theorem createMSubModules_eq_some_iff (h : ∀ sh ∈ signals, Known sh) :
    createMSubModules signals args = some out ↔
      ¬ Shadowed signals ∧
        ((mqttSh ∉ signals ∧ out = args) ∨
          (mqttSh ∈ signals ∧
            ∃ m, args = some m ∧ out = some { m with mqtt := some mqttLualib })) := by
  induction signals generalizing args with
  | nil =>
      have hnone : ¬ Shadowed [] := fun ⟨_, hmem, _⟩ => List.not_mem_nil hmem
      have hrun : createMSubModules [] args = some args := rfl
      simp only [hrun, hnone, not_false_eq_true, true_and, List.not_mem_nil, false_and, or_false,
        Option.some.injEq]
      exact eq_comm
  | cons sh signals ih =>
      obtain ⟨hsh, hrest⟩ := List.forall_mem_cons.mp h
      cases hsh with
      | core =>
          rw [createMSubModules_cons_of_not_matched coreSh_not_matched, ih hrest,
            shadowed_cons_iff luaSh_ne_coreSh, List.mem_cons, or_iff_right mqttSh_ne_coreSh]
      | mqtt =>
          rw [createMSubModules_cons_of_matched mqttSh_matched, shadowed_cons_iff luaSh_ne_mqttSh]
          cases args with
          | none => simp [signalMatchCb, mqttSh, mqttModuleSigRun]
          | some m =>
              have hrun : signalMatchCb mqttSh (some m) =
                  some (some { m with mqtt := some mqttLualib }) := rfl
              rw [hrun, Option.bind_some, ih hrest]
              simp only [List.mem_cons_self, not_true_eq_false, false_and, false_or, true_and,
                Option.some.injEq, exists_eq_left']
              refine and_congr_right fun _ => ⟨?_, fun hout => ?_⟩
              · rintro (⟨-, rfl⟩ | ⟨-, rfl⟩) <;> rfl
              · exact (Classical.em (mqttSh ∈ signals)).symm.imp (⟨·, hout⟩) (⟨·, hout⟩)
      | lua sh =>
          rw [shadowed_cons_luaSh_iff, List.mem_cons, or_iff_right (luaSh_ne_mqttSh sh).symm]
          by_cases hmatch : subModulePrefix.toList <+: sh.id.toList
          · have hrun : signalMatchCb (luaSh sh) args = none := rfl
            rw [createMSubModules_cons_of_matched ((fnmatch_subModule _).mpr hmatch), hrun,
              Option.bind_none]
            exact iff_of_false nofun fun hno => hno.1 (.inl hmatch)
          · rw [createMSubModules_cons_of_not_matched
              ((fnmatch_subModule _).not.mpr hmatch), ih hrest, or_iff_right hmatch]

end Matching

/-- A table that a setup makes when these signals are registered. -/
structure MadeBy (signals : Signals SigHandler) (m : MTable) : Prop where
  fns : m.fns = minkLualib
  mqtt : mqttSh ∈ signals → m.mqtt = some mqttLualib
  noMqtt : mqttSh ∉ signals → m.mqtt = none

/-- An action that reads through a pointer that is `NULL`: a setup that runs a signal of the
configuration, or a call of the handlers of the sub-modules. -/
inductive Faults {τ : Type*} (s : MState τ) : MAct τ → Prop
  | env : Shadowed s.signals → Faults s .env
  | lua {t : τ} {id : String} {usrFlags : Int} {sh : LuaSh} :
      umplgProcSignal s.signals (some id) usrFlags = .ok (luaSh sh) → s.threads t = none →
      Shadowed s.signals → Faults s (.signal t id usrFlags)
  | core {t : τ} {id : String} {usrFlags : Int} :
      umplgProcSignal s.signals (some id) usrFlags = .ok coreSh →
      (Shadowed s.signals ∨ mqttSh ∈ s.signals) → Faults s (.signal t id usrFlags)
  | mqtt {t : τ} {id : String} {usrFlags : Int} :
      umplgProcSignal s.signals (some id) usrFlags = .ok mqttSh → Faults s (.signal t id usrFlags)

/-- What a step keeps and makes: a Lua state is set up with its `M`, and only a script that runs in
it changes that. -/
structure Kept {τ : Type*} (s : MState τ) (a : MAct τ) (s' : MState τ) : Prop where
  registered : mqttSh ∈ s.signals → mqttSh ∈ s'.signals
  threads : ∀ t m, s.threads t = some m →
    s'.threads t = some m ∨ ∃ f, a = .script t f ∧ s'.threads t = some (f m)
  newThreads : ∀ t m, s.threads t = none → s'.threads t = some m → MadeBy s.signals m
  envs : ∀ (i : Nat) m, s.envs[i]? = some m →
    s'.envs[i]? = some m ∨ ∃ f, a = .envScript i f ∧ s'.envs[i]? = some (f m)
  newEnvs : ∀ (i : Nat) m, s.envs[i]? = none → s'.envs[i]? = some m → MadeBy s.signals m

/-- Only known handlers are registered, `@init_lua_sub_modules` with its own. -/
structure MInv {τ : Type*} (s : MState τ) : Prop where
  known : ∀ sh ∈ s.signals, Known sh
  core : s.signals.find "@init_lua_sub_modules" = some coreSh

section Steps

variable {τ : Type*} {s s' : MState τ} {signals : Signals SigHandler} {m : MTable}

theorem luaSetup_eq (hcore : signals.find "@init_lua_sub_modules" = some coreSh) :
    luaSetup signals = (createMSubModules signals (some initMinkLuaModule)).join := by
  have hproc : umplgProcSignal signals (some "@init_lua_sub_modules") 0 = .ok coreSh :=
    umplgProcSignal_ok_iff.mpr ⟨hcore, by decide⟩
  rw [luaSetup, hproc]
  rfl

/-- What a setup makes. -/
theorem madeBy_of_luaSetup (h : MInv s) (hm : luaSetup s.signals = some m) :
    MadeBy s.signals m := by
  rw [luaSetup_eq h.core, Option.join_eq_some_iff] at hm
  obtain ⟨-, ⟨hmqtt, heq⟩ | ⟨hmqtt, m', hm', heq⟩⟩ := (createMSubModules_eq_some_iff h.known).mp hm
  · obtain rfl := Option.some.inj heq
    exact ⟨rfl, fun h => absurd h hmqtt, fun _ => rfl⟩
  · obtain rfl := Option.some.inj hm'
    obtain rfl := Option.some.inj heq
    exact ⟨rfl, fun _ => rfl, fun h => absurd hmqtt h⟩

theorem luaSetup_eq_none_iff (h : MInv s) : luaSetup s.signals = none ↔ Shadowed s.signals := by
  rw [luaSetup_eq h.core]
  constructor
  · intro hnone
    by_contra hshadowed
    obtain ⟨m, hm⟩ : ∃ m, createMSubModules s.signals (some initMinkLuaModule) = some (some m) := by
      by_cases hmqtt : mqttSh ∈ s.signals
      · exact ⟨_, (createMSubModules_eq_some_iff h.known).mpr
          ⟨hshadowed, .inr ⟨hmqtt, initMinkLuaModule, rfl, rfl⟩⟩⟩
      · exact ⟨_, (createMSubModules_eq_some_iff h.known).mpr ⟨hshadowed, .inl ⟨hmqtt, rfl⟩⟩⟩
    rw [hm] at hnone
    cases hnone
  · intro hshadowed
    cases hrun : createMSubModules s.signals (some initMinkLuaModule) with
    | none => rfl
    | some out => exact absurd hshadowed ((createMSubModules_eq_some_iff h.known).mp hrun).1

theorem createMSubModules_none_eq_none_iff (h : MInv s) :
    createMSubModules s.signals none = none ↔ Shadowed s.signals ∨ mqttSh ∈ s.signals := by
  constructor
  · intro hnone
    by_contra hno
    obtain ⟨hshadowed, hmqtt⟩ := not_or.mp hno
    have hrun := (@createMSubModules_eq_some_iff s.signals none none h.known).mpr
      ⟨hshadowed, .inl ⟨hmqtt, rfl⟩⟩
    rw [hnone] at hrun
    cases hrun
  · intro hno
    cases hrun : createMSubModules s.signals none with
    | none => rfl
    | some out =>
        obtain ⟨hshadowed, ⟨hmqtt, -⟩ | ⟨-, m, hm, -⟩⟩ :=
          (createMSubModules_eq_some_iff h.known).mp hrun
        · exact absurd hno (not_or.mpr ⟨hshadowed, hmqtt⟩)
        · cases hm

/-- The handler that a call finds. -/
theorem MInv.known_of_proc (h : MInv s) {id : String} {usrFlags : Int} {sh : UmplgSh SigHandler}
    (hproc : umplgProcSignal s.signals (some id) usrFlags = .ok sh) : Known sh :=
  h.known sh (HashTable.mem_of_find (umplgProcSignal_ok_iff.mp hproc).1)

theorem mem_of_umplgRegSignal {sh sh' : UmplgSh SigHandler}
    (h : sh ∈ (umplgRegSignal signals sh' 0).2) : sh ∈ signals ∨ sh = sh' := by
  unfold umplgRegSignal at h
  cases hfind : signals.find sh'.id with
  | some _ =>
      rw [hfind] at h
      exact .inl h
  | none =>
      rw [hfind] at h
      exact (List.mem_append.mp h).imp_right List.mem_singleton.mp

theorem mem_umplgRegSignal {sh : UmplgSh SigHandler} (h : sh ∈ signals)
    (sh' : UmplgSh SigHandler) : sh ∈ (umplgRegSignal signals sh' 0).2 := by
  unfold umplgRegSignal
  cases signals.find sh'.id with
  | some _ => exact h
  | none => exact List.mem_append_left _ h

/-- A registration keeps the handlers. -/
theorem MInv.register (h : MInv s) {sh : UmplgSh SigHandler} (hsh : Known sh) :
    MInv { s with signals := (umplgRegSignal s.signals sh 0).2 } where
  known sh' hmem := (mem_of_umplgRegSignal hmem).elim (h.known sh') fun heq => heq ▸ hsh
  core := umplgRegSignal_find_of_some h.core

variable [DecidableEq τ] {a : MAct τ}

theorem step_signal_of_error {t : τ} {id : String} {usrFlags : Int} {e : UmplgRet}
    (hproc : umplgProcSignal s.signals (some id) usrFlags = .error e) :
    s.step (.signal t id usrFlags) = some s := by
  simp only [MState.step, hproc]

theorem step_signal_of_core {t : τ} {id : String} {usrFlags : Int}
    (hproc : umplgProcSignal s.signals (some id) usrFlags = .ok coreSh) :
    s.step (.signal t id usrFlags) = (createMSubModules s.signals none).map fun _ => s := by
  simp only [MState.step, hproc, coreSh]

theorem step_signal_of_mqtt {t : τ} {id : String} {usrFlags : Int}
    (hproc : umplgProcSignal s.signals (some id) usrFlags = .ok mqttSh) :
    s.step (.signal t id usrFlags) = none := by
  simp only [MState.step, hproc, mqttSh, mqttModuleSigRun, Option.map_none]

theorem step_signal_of_lua {t : τ} {id : String} {usrFlags : Int} {sh : LuaSh}
    (hproc : umplgProcSignal s.signals (some id) usrFlags = .ok (luaSh sh)) :
    s.step (.signal t id usrFlags) =
      if (s.threads t).isSome then some s
      else (luaSetup s.signals).map fun m =>
        { s with threads := Function.update s.threads t (some m) } := by
  simp only [MState.step, hproc, luaSh]
  cases s.threads t <;> rfl

/-- A step fails exactly if it reads through a pointer that is `NULL`. -/
theorem step_eq_none_iff (h : MInv s) : s.step a = none ↔ Faults s a := by
  cases a with
  | regLua sh => exact iff_of_false nofun nofun
  | regMqtt => exact iff_of_false nofun nofun
  | script t f => exact iff_of_false nofun nofun
  | envScript i f => exact iff_of_false nofun nofun
  | env =>
      have hstep : s.step .env = none ↔ Shadowed s.signals := by
        rw [MState.step, Option.map_eq_none_iff, luaSetup_eq_none_iff h]
      exact hstep.trans ⟨.env, fun | .env hshadowed => hshadowed⟩
  | signal t id usrFlags =>
      have hother : ∀ {sh : UmplgSh SigHandler},
          umplgProcSignal s.signals (some id) usrFlags = .ok sh →
          ∀ {sh'}, umplgProcSignal s.signals (some id) usrFlags = .ok sh' → sh = sh' :=
        fun hsh _ hsh' => Except.ok.inj (hsh.symm.trans hsh')
      cases hproc : umplgProcSignal s.signals (some id) usrFlags with
      | error e =>
          rw [step_signal_of_error hproc]
          refine iff_of_false nofun fun hfault => ?_
          cases hfault with
          | lua hok | core hok | mqtt hok =>
              rw [hproc] at hok
              cases hok
      | ok sh =>
          cases h.known_of_proc hproc with
          | core =>
              rw [step_signal_of_core hproc, Option.map_eq_none_iff,
                createMSubModules_none_eq_none_iff h]
              refine ⟨.core hproc, fun hfault => ?_⟩
              cases hfault with
              | core _ hno => exact hno
              | lua hok => exact absurd (hother hok hproc) (luaSh_ne_coreSh _)
              | mqtt hok => exact absurd (hother hok hproc) mqttSh_ne_coreSh
          | mqtt => exact iff_of_true (step_signal_of_mqtt hproc) (.mqtt hproc)
          | lua sh =>
              have hlua : Faults s (.signal t id usrFlags) ↔
                  s.threads t = none ∧ Shadowed s.signals := by
                refine ⟨fun hfault => ?_, fun ⟨hthread, hshadowed⟩ => .lua hproc hthread hshadowed⟩
                cases hfault with
                | lua _ hthread hshadowed => exact ⟨hthread, hshadowed⟩
                | core hok => exact absurd (hother hproc hok) (luaSh_ne_coreSh sh)
                | mqtt hok => exact absurd (hother hproc hok) (luaSh_ne_mqttSh sh)
              rw [step_signal_of_lua hproc, hlua]
              cases s.threads t with
              | some m => exact iff_of_false nofun nofun
              | none =>
                  rw [Option.isSome_none, if_neg Bool.false_ne_true, Option.map_eq_none_iff,
                    luaSetup_eq_none_iff h]
                  exact (and_iff_right rfl).symm

/-- What a signal changes: at most the Lua state of its thread. -/
theorem step_signal_cases (h : MInv s) {t : τ} {id : String} {usrFlags : Int}
    (hst : s.step (.signal t id usrFlags) = some s') :
    s' = s ∨ s.threads t = none ∧ ∃ m, MadeBy s.signals m ∧
      s' = { s with threads := Function.update s.threads t (some m) } := by
  cases hproc : umplgProcSignal s.signals (some id) usrFlags with
  | error e =>
      rw [step_signal_of_error hproc] at hst
      exact .inl (Option.some.inj hst).symm
  | ok sh =>
      cases h.known_of_proc hproc with
      | core =>
          rw [step_signal_of_core hproc] at hst
          obtain ⟨-, -, rfl⟩ := Option.map_eq_some_iff.mp hst
          exact .inl rfl
      | mqtt =>
          rw [step_signal_of_mqtt hproc] at hst
          cases hst
      | lua sh =>
          rw [step_signal_of_lua hproc] at hst
          cases hthread : s.threads t with
          | some m =>
              rw [hthread] at hst
              exact .inl (Option.some.inj hst).symm
          | none =>
              rw [hthread, Option.isSome_none, if_neg Bool.false_ne_true] at hst
              obtain ⟨m, hm, rfl⟩ := Option.map_eq_some_iff.mp hst
              exact .inr ⟨rfl, m, madeBy_of_luaSetup h hm, rfl⟩

omit [DecidableEq τ] in
/-- A step that leaves all Lua states as they are. -/
theorem Kept.of_states_eq (hreg : mqttSh ∈ s.signals → mqttSh ∈ s'.signals)
    (hthreads : s'.threads = s.threads) (henvs : s'.envs = s.envs) : Kept s a s' where
  registered := hreg
  threads t m hm := .inl (hthreads ▸ hm)
  newThreads t m hnone hm := by
    rw [hthreads, hnone] at hm
    cases hm
  envs i m hm := .inl (henvs ▸ hm)
  newEnvs i m hnone hm := by
    rw [henvs, hnone] at hm
    cases hm

/-- A step that sets up the Lua state of a thread. -/
theorem Kept.newThread {t : τ} (hnone : s.threads t = none) (hm : MadeBy s.signals m) :
    Kept s a { s with threads := Function.update s.threads t (some m) } where
  registered := id
  threads t' m' hm' := by
    refine .inl ?_
    dsimp only
    rw [Function.update_of_ne]
    · exact hm'
    · rintro rfl
      exact absurd (hnone.symm.trans hm') nofun
  newThreads t' m' hnone' hm' := by
    dsimp only at hm'
    by_cases ht : t' = t
    · rw [ht, Function.update_self] at hm'
      exact Option.some.inj hm' ▸ hm
    · rw [Function.update_of_ne ht, hnone'] at hm'
      cases hm'
  envs _ _ hm' := .inl hm'
  newEnvs _ _ hnone' hm' := absurd (hnone'.symm.trans hm') nofun

omit [DecidableEq τ] in
/-- A step that sets up an environment. -/
theorem Kept.newEnv (hm : MadeBy s.signals m) : Kept s a { s with envs := s.envs ++ [m] } where
  registered := id
  threads _ _ hm' := .inl hm'
  newThreads _ _ hnone' hm' := absurd (hnone'.symm.trans hm') nofun
  envs i m' hm' := by
    refine .inl ?_
    dsimp only
    rw [List.getElem?_append_left (List.getElem?_eq_some_iff.mp hm').1]
    exact hm'
  newEnvs i m' hnone' hm' := by
    dsimp only at hm'
    rw [List.getElem?_append_right (List.getElem?_eq_none_iff.mp hnone')] at hm'
    obtain rfl := List.mem_singleton.mp (List.mem_of_getElem? hm')
    exact hm

/-- A script of a thread changes the `M` of its state. -/
theorem Kept.script (t : τ) (f : MTable → MTable) :
    Kept s (.script t f)
      { s with threads := Function.update s.threads t ((s.threads t).map f) } where
  registered := id
  threads t' m' hm' := by
    dsimp only
    by_cases ht : t' = t
    · subst ht
      rw [Function.update_self, hm']
      exact .inr ⟨f, rfl, rfl⟩
    · rw [Function.update_of_ne ht]
      exact .inl hm'
  newThreads t' m' hnone' hm' := by
    dsimp only at hm'
    by_cases ht : t' = t
    · subst ht
      rw [Function.update_self, hnone'] at hm'
      cases hm'
    · rw [Function.update_of_ne ht, hnone'] at hm'
      cases hm'
  envs _ _ hm' := .inl hm'
  newEnvs _ _ hnone' hm' := absurd (hnone'.symm.trans hm') nofun

omit [DecidableEq τ] in
/-- A script of an environment changes the `M` of its state. -/
theorem Kept.envScript (i : Nat) (f : MTable → MTable) :
    Kept s (.envScript i f) { s with envs := s.envs.modify i f } where
  registered := id
  threads _ _ hm' := .inl hm'
  newThreads _ _ hnone' hm' := absurd (hnone'.symm.trans hm') nofun
  envs j m' hm' := by
    dsimp only
    rw [List.getElem?_modify, hm']
    by_cases hi : i = j
    · subst hi
      exact .inr ⟨f, rfl, congrArg some (if_pos rfl)⟩
    · exact .inl (congrArg some (if_neg hi))
  newEnvs j m' hnone' hm' := by
    dsimp only at hm'
    rw [List.getElem?_modify, hnone'] at hm'
    cases hm'

theorem step_kept (h : MInv s) (hst : s.step a = some s') : MInv s' ∧ Kept s a s' := by
  cases a with
  | regLua sh =>
      obtain rfl := Option.some.inj hst
      exact ⟨h.register (.lua sh), .of_states_eq (fun hmem => mem_umplgRegSignal hmem _) rfl rfl⟩
  | regMqtt =>
      obtain rfl := Option.some.inj hst
      exact ⟨h.register .mqtt, .of_states_eq (fun hmem => mem_umplgRegSignal hmem _) rfl rfl⟩
  | env =>
      obtain ⟨m, hm, rfl⟩ := Option.map_eq_some_iff.mp hst
      exact ⟨⟨h.known, h.core⟩, .newEnv (madeBy_of_luaSetup h hm)⟩
  | signal t id usrFlags =>
      obtain rfl | ⟨hnone, m, hm, rfl⟩ := step_signal_cases h hst
      · exact ⟨h, .of_states_eq (fun hmem => hmem) rfl rfl⟩
      · exact ⟨⟨h.known, h.core⟩, .newThread hnone hm⟩
  | script t f =>
      obtain rfl := Option.some.inj hst
      exact ⟨⟨h.known, h.core⟩, .script t f⟩
  | envScript i f =>
      obtain rfl := Option.some.inj hst
      exact ⟨⟨h.known, h.core⟩, .envScript i f⟩

end Steps

theorem minv_start {τ : Type*} [DecidableEq τ] : MInv (.start : MState τ) where
  known _ hmem := List.mem_singleton.mp hmem ▸ .core
  core := rfl

/-- However registrations, setups and signals are interleaved, a run reads through a pointer that
is `NULL` exactly if it sets up a Lua state while a signal of the configuration has the name of
a sub-module, or calls the handlers of the sub-modules by their names. The states that are set
up have the functions of `M`, and have `M.mqtt` exactly if the MQTT plugin had registered its
handler; after that only a script that runs in a state changes its `M`. -/
theorem sub_modules_iff {τ : Type*} [DecidableEq τ] (acts : List (MAct τ)) :
    (Trace.exec MState.step .start acts = none ↔
      ∃ before a after s, acts = before ++ a :: after ∧
        Trace.exec MState.step .start before = some s ∧ Faults s a) ∧
    Trace.Along MState.step Kept .start acts := by
  have hinv : ∀ {before : List (MAct τ)} {s : MState τ},
      Trace.exec MState.step .start before = some s → MInv s := fun hexec =>
    Trace.exec_invariant (fun _ _ _ hs hst => (step_kept hs hst).1) minv_start hexec
  constructor
  · rw [Trace.exec_eq_none_iff]
    refine exists_congr fun before => exists_congr fun a => exists_congr fun after =>
      exists_congr fun s => and_congr_right fun _ => and_congr_right fun hexec => ?_
    exact step_eq_none_iff (hinv hexec)
  · exact Trace.along_of_invariant (fun _ _ _ hs hst => step_kept hs hst) minv_start acts

end Umink.Lua
