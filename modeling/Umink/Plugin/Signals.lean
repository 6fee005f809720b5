import Umink.Library.HashTable

/-!
# Registered signals

The signal table of the plugin manager, the registration of a handler and the
authorisation check in front of it.
-/

namespace Umink.Plugin

open Umink.Library

/-- `umplg_ret_t`. -/
inductive UmplgRet where
  | success
  | unknownSignal
  | authError
  | sigInitFailed
  | sigSetupFailed
  | sigExecFailed
  | bufferOverflow
  | invalidType
  deriving DecidableEq, Repr

/-- `umplg_sh_t`: `args` stands for the handler functions with their extra
arguments. The fields that change while a handler runs are kept by the model of
the handler. -/
structure UmplgSh (η : Type*) where
  id : String
  minAuthLvl : UInt16
  args : η

variable {η : Type*}

/-- `pm->signals`. -/
abbrev Signals (η : Type*) := List (UmplgSh η)

def Signals.find (signals : Signals η) (id : String) : Option (UmplgSh η) :=
  HashTable.find UmplgSh.id signals id

/-- `umplg_reg_signal` with an `init` handler that returns `initRes`. -/
def umplgRegSignal (signals : Signals η) (sh : UmplgSh η) (initRes : Int) : Int × Signals η :=
  match signals.find sh.id with
  | some _ => (1, signals)
  | none => if initRes ≠ 0 then (initRes, signals) else (0, HashTable.add signals sh)

/-- `umplg_proc_signal` up to the call of the handler: the handler that is run
or the code that is returned instead. -/
def umplgProcSignal (signals : Signals η) (s : Option String) (usrFlags : Int) :
    Except UmplgRet (UmplgSh η) :=
  match s with
  | none => .error .unknownSignal
  | some s =>
      match signals.find s with
      | none => .error .unknownSignal
      | some sh => if usrFlags < sh.minAuthLvl.toNat then .error .authError else .ok sh

theorem Signals.id_of_find {signals : Signals η} {id : String} {sh : UmplgSh η}
    (h : signals.find id = some sh) : sh.id = id :=
  HashTable.key_of_find h

/-- A handler runs exactly for a registered signal whose level the caller has. -/
theorem umplgProcSignal_ok_iff {signals : Signals η} {s : String} {usrFlags : Int}
    {sh : UmplgSh η} :
    umplgProcSignal signals (some s) usrFlags = .ok sh ↔
      signals.find s = some sh ∧ (sh.minAuthLvl.toNat : Int) ≤ usrFlags := by
  simp only [umplgProcSignal]
  cases hfind : signals.find s with
  | none => simp
  | some sh' =>
      by_cases hlow : usrFlags < sh'.minAuthLvl.toNat
      · simp only [hlow, if_true, reduceCtorEq, Option.some.injEq, false_iff, not_and, Int.not_le]
        rintro rfl
        exact hlow
      · simp only [hlow, if_false, Except.ok.injEq, Option.some.injEq]
        constructor
        · rintro rfl
          exact ⟨rfl, Int.not_lt.mp hlow⟩
        · exact fun h => h.1

end Umink.Plugin
