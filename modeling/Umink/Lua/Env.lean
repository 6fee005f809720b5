import Umink.Plugin.Signals

/-!
# Lua environments

The descriptor of a configured Lua environment and the arguments that a signal
handler receives with it.
-/

namespace Umink.Lua

/-- `lua_env_d` without its thread, counters and manager pointers. -/
structure LuaEnvD where
  name : String
  interval : UInt64
  active : Bool
  path : String
  agressiveGc : Bool
  conserveMem : Bool
  deriving DecidableEq, Repr

/-- `shd->args` of a Lua signal: the environment and its counter slot. -/
structure LuaSigArgs where
  env : LuaEnvD
  perf : Nat
  deriving DecidableEq, Repr

/-- A registered Lua signal. -/
abbrev LuaSh := Plugin.UmplgSh LuaSigArgs

/-- A signal without a required level. -/
def LuaSh.basic (id : String) (conserveMem : Bool) : LuaSh :=
  ⟨id, 0, ⟨⟨"env", 0, true, "signal.lua", false, conserveMem⟩, 0⟩⟩

end Umink.Lua
