import Umink.Library.JsonText
import Umink.Lua.Config

/-!
# Authorisation of signal calls

A signal is called by a Lua script through `M.signal` or by a ubus client
through `run_signal`. Both read the flags of the user from the auth argument and
leave the decision to `umplg_proc_signal`. It is the decision that the
configuration asks for exactly when the flags do not fall between the configured
integer and its remainder in the 16 bits of `min_auth_lvl`.
-/

namespace Umink.Lua

open Umink.Library Umink.Plugin

/-- `umplg_data_std_item_t`. -/
structure UmplgDataStdItem where
  name : String
  value : String
  deriving DecidableEq, Repr

/-- `umplg_data_std_t`: rows of items. -/
abbrev UmplgDataStd := List (List UmplgDataStdItem)

/-- A run of `umplg_proc_signal`: the handler that was invoked with its input, the
code and the output buffer. -/
structure SignalRun where
  invoked : Option (LuaSh × UmplgDataStd)
  res : UmplgRet
  out : Option String

/-- The data of a `run_signal` request after `blobmsg_parse`. -/
structure RunSignalMsg where
  id : Option String
  args : Option String
  auth : Option String

/-- The reply to a `run_signal` request. -/
inductive RunSignalReply where
  | empty
  | json (buff : String)
  | result (text : String)

variable (c : JsonC) (run : LuaSh → UmplgDataStd → UmplgRet × Option String)
  (addJson : String → Bool)

/-- `umplg_proc_signal` with the handler's run. -/
def procSignal (signals : Signals LuaSigArgs) (s : Option String) (dIn : UmplgDataStd)
    (usrFlags : Int) : SignalRun :=
  match umplgProcSignal signals s usrFlags with
  | .error e => ⟨none, e, none⟩
  | .ok sh => ⟨some (sh, dIn), (run sh dIn).1, (run sh dIn).2⟩

/-- `mink_lua_signal`. -/
def minkLuaSignal (signals : Signals LuaSigArgs) (s d auth : Option String) : SignalRun :=
  match s with
  | none => ⟨none, .unknownSignal, some ""⟩
  | some s =>
      let usrFlags :=
        match auth with
        | none => 0
        | some auth => c.getInt ((c.tokenerParse auth).field "flags")
      let eD := [[⟨"", d.getD ""⟩, ⟨"", auth.getD ""⟩]]
      let r := procSignal run signals (some s) eD usrFlags
      { r with out := if r.res = .success then r.out else some "" }

/-- The reply to a finished signal. -/
def runSignalReply (r : SignalRun) : RunSignalReply :=
  match r.res with
  | .success =>
      match r.out with
      | none => .empty
      | some buff => if addJson buff then .json buff else .result buff
  | .authError => .result "authentication error"
  | .unknownSignal => .result "unknown signal"
  | _ => .result "unknown error"

/-- `run_signal`: the run of the signal, if the request has an id, and the reply. -/
def runSignal (signals : Signals LuaSigArgs) (msg : RunSignalMsg) :
    Option SignalRun × RunSignalReply :=
  match msg.id with
  | none => (none, .result "missing arguments")
  | some id =>
      let args := msg.args.getD ""
      let auth := msg.auth.getD ""
      let uflags :=
        match msg.auth with
        | none => 0
        | some auth =>
            let j := c.tokenerParse auth
            if !j.isNull then c.getInt (j.field "flags") else 0
      let r := procSignal run signals (some id) [[⟨"", args⟩, ⟨"", auth⟩]] uflags
      (some r, runSignalReply addJson r)

/-- The `flags` member that an auth argument carries. -/
def authFlags (auth : Option String) : Json :=
  match auth with
  | none => .null
  | some auth => (c.tokenerParse auth).field "flags"

/-- The flags of the user: an integer member, or zero. -/
def usrFlags (auth : Option String) : Int :=
  match authFlags c auth with
  | .int f => f
  | _ => 0

/-- A call with flags `f` of a signal that asks for the level `m` is decided by
comparing the two. -/
def Authorizes (sh : LuaSh) (m f : Int) (r : SignalRun) : Prop :=
  (m ≤ f → ∃ dIn, r.invoked = some (sh, dIn)) ∧
    (f < m → r.invoked = none ∧ r.res = .authError)

/-- What is left of a level in a `uint16_t`. -/
def level16 (m : Int) : Int := clampInt32 m % 2 ^ 16

/-- The flags that an auth argument carries are on the same side of a level and
of what is left of it. A member that is no integer counts as zero and is read by
the conversions of json-c. -/
def LevelDecides (m : Int) : Json → Prop
  | .int f => f < min m (level16 m) ∨ max m (level16 m) ≤ f
  | .null | .arr _ | .obj _ => 0 < min m (level16 m) ∨ max m (level16 m) ≤ 0
  | j => m ≤ 0 ↔ level16 m ≤ c.getInt j

variable {c}

/-- The test whether a text was parsed makes no difference to the flags that are read. -/
theorem tokenerParse_flags (auth : String) :
    (if !(c.tokenerParse auth).isNull then c.getInt ((c.tokenerParse auth).field "flags") else 0) =
      c.getInt (authFlags c (some auth)) := by
  change _ = c.getInt ((c.tokenerParse auth).field "flags")
  cases c.tokenerParse auth <;> rfl

/-- Both ways to call a signal invoke the same handler with the same input and end
with the same code. -/
theorem runSignal_eq_minkLuaSignal (signals : Signals LuaSigArgs) (id : String)
    (d auth : Option String) :
    (runSignal c run addJson signals ⟨some id, d, auth⟩).1.map (fun r => (r.invoked, r.res)) =
      some ((minkLuaSignal c run signals (some id) d auth).invoked,
        (minkLuaSignal c run signals (some id) d auth).res) := by
  cases auth with
  | none => rfl
  | some auth =>
      simp only [runSignal, minkLuaSignal, tokenerParse_flags, Option.map_some, Option.getD_some]
      rfl

theorem level16_mem (m : Int) : 0 ≤ level16 m ∧ level16 m < 2 ^ 16 := by
  unfold level16
  omega

theorem level16_eq_iff {m : Int} : level16 m = m ↔ 0 ≤ m ∧ m < 2 ^ 16 := by
  constructor
  · intro h
    exact h ▸ level16_mem m
  · rintro ⟨hpos, hlt⟩
    unfold level16 clampInt32
    omega

/-- A level of 16 bits decides for every integer member. -/
theorem levelDecides_int_iff {m : Int} :
    (∀ f, LevelDecides c m (.int f)) ↔ 0 ≤ m ∧ m < 2 ^ 16 := by
  rw [← level16_eq_iff]
  simp only [LevelDecides]
  constructor
  · intro h
    have hgap := h (min m (level16 m))
    omega
  · intro h f
    omega

/-- The level decides if the flags as they are read reach what is left of the
level exactly when the flags of the user reach the level. -/
theorem levelDecides_iff {m : Int} {auth : Option String} :
    LevelDecides c m (authFlags c auth) ↔
      (m ≤ usrFlags c auth ↔ level16 m ≤ c.getInt (authFlags c auth)) := by
  have hmem := level16_mem m
  unfold usrFlags
  cases authFlags c auth with
  | int f =>
      simp only [LevelDecides, JsonC.getInt, clampInt32]
      omega
  | bool b => rfl
  | str s => rfl
  | dec m e => rfl
  | _ =>
      simp only [LevelDecides, JsonC.getInt]
      omega

theorem authorizes_procSignal_iff {signals : Signals LuaSigArgs} {id : String} {sh : LuaSh}
    (hfind : signals.find id = some sh) {m f u : Int} {dIn : UmplgDataStd} :
    Authorizes sh m f (procSignal run signals (some id) dIn u) ↔
      (m ≤ f ↔ (sh.minAuthLvl.toNat : Int) ≤ u) := by
  simp only [Authorizes, procSignal, umplgProcSignal, hfind]
  by_cases hlow : u < sh.minAuthLvl.toNat
  · simp only [hlow, if_true, reduceCtorEq, exists_const, imp_false, and_self, implies_true,
      and_true, Int.not_le.mpr hlow, iff_false]
  · simp only [hlow, if_false, Option.some.injEq, Prod.mk.injEq, true_and, exists_eq',
      implies_true, reduceCtorEq, false_and, imp_false, Int.not_lt, Int.not_lt.mp hlow, iff_true]

/-- A call through `M.signal` is decided as configured exactly if the level
decides. -/
theorem authorizes_minkLuaSignal_iff {signals : Signals LuaSigArgs} {id : String} {sh : LuaSh}
    (hfind : signals.find id = some sh) {m : Int}
    (hlvl : (sh.minAuthLvl.toNat : Int) = level16 m) (d auth : Option String) :
    Authorizes sh m (usrFlags c auth) (minkLuaSignal c run signals (some id) d auth) ↔
      LevelDecides c m (authFlags c auth) := by
  have hread : (match auth with
      | none => 0
      | some auth => c.getInt ((c.tokenerParse auth).field "flags")) =
      c.getInt (authFlags c auth) := by
    cases auth <;> rfl
  rw [levelDecides_iff, ← hlvl, ← hread]
  exact authorizes_procSignal_iff run hfind

/-- The decision about a call is a matter of the handler and the code alone. -/
theorem Authorizes.congr {sh : LuaSh} {m f : Int} {r r' : SignalRun}
    (h : (r.invoked, r.res) = (r'.invoked, r'.res)) :
    Authorizes sh m f r ↔ Authorizes sh m f r' := by
  obtain ⟨hinv, hres⟩ := Prod.mk.inj h
  simp only [Authorizes, hinv, hres]

/-- For a signal that a configuration adds, both ways to call it decide as its
environment asks exactly if the level decides, and they always decide alike. A
level of 16 bits decides for all integer flags. -/
theorem signal_authorization_iff {files : String → ScriptFile} {cfg : Json} {st : CfgState}
    {id : String} {sh : LuaSh} (hnew : st.signals.find id = none)
    (hreg : (processCfg c files cfg st).2.signals.find id = some sh) :
    ∃ v, (cfgEnvs cfg).find? (fun v => id ∈ eventIds c v) = some v ∧
      (∀ d auth, ∃ r reply,
        runSignal c run addJson (processCfg c files cfg st).2.signals ⟨some id, d, auth⟩ =
          (some r, reply) ∧
        (Authorizes sh (minAuth v) (usrFlags c auth) r ↔
          LevelDecides c (minAuth v) (authFlags c auth)) ∧
        (Authorizes sh (minAuth v) (usrFlags c auth)
            (minkLuaSignal c run (processCfg c files cfg st).2.signals (some id) d auth) ↔
          LevelDecides c (minAuth v) (authFlags c auth)) ∧
        (minkLuaSignal c run (processCfg c files cfg st).2.signals (some id) d auth).invoked =
          r.invoked ∧
        (minkLuaSignal c run (processCfg c files cfg st).2.signals (some id) d auth).res = r.res) ∧
      ((∀ f, LevelDecides c (minAuth v) (.int f)) ↔ 0 ≤ minAuth v ∧ minAuth v < 2 ^ 16) := by
  obtain ⟨v, hv, hlvl⟩ := processCfg_find hnew hreg
  refine ⟨v, hv, fun d auth => ?_, levelDecides_int_iff⟩
  have hlua := authorizes_minkLuaSignal_iff (c := c) run hreg hlvl d auth
  have hsame := runSignal_eq_minkLuaSignal (c := c) run addJson
    (processCfg c files cfg st).2.signals id d auth
  obtain ⟨r, hr, heq⟩ := Option.map_eq_some_iff.mp hsame
  refine ⟨r, _, Prod.ext hr rfl, (Authorizes.congr heq).trans hlua, hlua, ?_, ?_⟩
  · exact (Prod.mk.inj heq).1.symm
  · exact (Prod.mk.inj heq).2.symm

section Truncation

/-- A json-c that reads texts of 32 levels. -/
def plainJsonC : JsonC := ⟨fun s => (Json.read 32 s.toList).getD .null, fun _ => 0, fun _ => ""⟩

/-- An environment with the event `A` and a level. -/
def levelEnv (m : Int) : Json :=
  .obj [("name", .str "env"), ("auto_start", .bool false), ("interval", .int 0),
    ("path", .str "signal.lua"), ("events", .arr [.str "A"]), ("min_auth", .int m)]

def levelCfg (m : Int) : Json := .obj [("umlua", .obj [("envs", .arr [levelEnv m])])]

/-- The signals that the configuration leaves behind. -/
def levelSignals (m : Int) : Signals LuaSigArgs :=
  (processCfg plainJsonC (fun _ => .size 1) (levelCfg m) ⟨[], []⟩).2.signals

/-- The signal `A` of the configuration. -/
def levelSh (m : Int) : LuaSh :=
  ⟨"A", UInt16.ofInt (clampInt32 m), ⟨⟨"env", 0, false, "signal.lua", false, false⟩, 0⟩⟩

/-- A handler that returns its first item. -/
def echo (_ : LuaSh) (dIn : UmplgDataStd) : UmplgRet × Option String :=
  (.success, (dIn.head?.bind List.head?).map UmplgDataStdItem.value)

theorem levelSignals_find (m : Int) : (levelSignals m).find "A" = some (levelSh m) := rfl

theorem levelCfg_find (m : Int) :
    (cfgEnvs (levelCfg m)).find? (fun v => "A" ∈ eventIds plainJsonC v) = some (levelEnv m) := rfl

/-- The level 1 decides about a caller with the flags 1. -/
theorem signal_authorization_iff_one :
    Authorizes (levelSh 1) 1 1 (minkLuaSignal plainJsonC echo (levelSignals 1) (some "A") none
      (some "\x7b\"flags\": 1\x7d")) := by
  obtain ⟨v, hv, hcalls, hall⟩ := @signal_authorization_iff plainJsonC echo (fun _ => false)
    (fun _ => .size 1) (levelCfg 1) ⟨[], []⟩ "A" (levelSh 1) rfl (levelSignals_find 1)
  obtain rfl := Option.some.inj ((levelCfg_find 1).symm.trans hv)
  obtain ⟨-, -, -, -, hlua, -⟩ := hcalls none (some "\x7b\"flags\": 1\x7d")
  have hflags : authFlags plainJsonC (some "\x7b\"flags\": 1\x7d") = .int 1 := by rfl
  rw [usrFlags, hflags] at hlua
  exact hlua.mpr (hall.mpr (by decide) 1)

/-- The level 65536 is kept as 0: a caller without flags is let in. -/
theorem level_65536_lets_in :
    (levelSignals 65536).find "A" = some (levelSh 65536) ∧
    (cfgEnvs (levelCfg 65536)).find? (fun v => "A" ∈ eventIds plainJsonC v) =
      some (levelEnv 65536) ∧
    minAuth (levelEnv 65536) = 65536 ∧ usrFlags plainJsonC none = 0 ∧
    ¬ Authorizes (levelSh 65536) 65536 0
      (minkLuaSignal plainJsonC echo (levelSignals 65536) (some "A") none none) ∧
    ∃ r reply, runSignal plainJsonC echo (fun _ => false) (levelSignals 65536)
        ⟨some "A", none, none⟩ = (some r, reply) ∧
      ¬ Authorizes (levelSh 65536) 65536 0 r := by
  refine ⟨rfl, rfl, rfl, rfl, fun h => ?_, _, _, rfl, fun h => ?_⟩
  · have hinv : none = some _ := (h.2 (by decide)).1.symm
    cases hinv
  · have hinv : none = some _ := (h.2 (by decide)).1.symm
    cases hinv

end Truncation

end Umink.Lua
