import Umink.Lua.SignalData
import Umink.Plugin.HookTable

/-!
# Calls of plugin commands

`M.cmd_call` passes the elements of a Lua array to the local handler of a command
as rows of one data object, to which the handler appends its result. The script is
given the rows of the arguments followed by those of the handler, as long as the
hook of the command has a valid address.

## Implementation notes

A Lua string has no NUL bytes, and a number comes with the text that `lua_tostring`
gives it. What a handler does with the data is a parameter.
-/

namespace Umink.Lua

open Umink.Library Umink.Plugin

/-- A value on the Lua stack; `other` is nil, a table, a function or user data. -/
inductive LuaValue where
  | str (s : CStr)
  | num (text : CStr)
  | bool (b : Bool)
  | other

/-- What a call of `M.cmd_call` leaves the script with. -/
inductive CmdCallRes where
  | noValue
  | table (t : LuaTable (LuaTable CStr))
  | invalid

/-- The element of `cmd_arg` for a value. A number is a string for `lua_isstring`. -/
def cmdArg : LuaValue → CStr
  | .str s => s
  | .num text => text
  | .bool b => .replicate 1 (if b then 49 else 48) (by cases b <;> decide)
  | .other => .empty

/-- The row that `mink_lua_cmd_call` adds for an argument. -/
def addArg (d : Stdd) (arg : CStr) : Stdd :=
  umplgStddItemsAdd (some d) (umplgStddItemAdd [] ⟨.empty, some arg⟩)

variable {η : Type*} (pm : UmplgMngr η) (handle : η → ElemPtr → Int → Stdd → Int × Stdd)

/-- `mink_lua_cmd_call`: the code and the data, unless the handler is read through an
invalid address. -/
def minkLuaCmdCall (args : List CStr) (d : Stdd) : Option (Int × Stdd) :=
  match args with
  | [] => some (-1, d)
  | name :: rest =>
      let d := rest.foldl addArg d
      match pm.cmdRun name.text with
      | .ret res => some (res, d)
      | .calls cmdhL plgp => some (handle cmdhL plgp (umplgGetCmdId name.text) d)
      | .invalid => none

/-- `mink_lua_do_cmd_call` for an array with the given elements. -/
def minkLuaDoCmdCall (elems : List LuaValue) : CmdCallRes :=
  match minkLuaCmdCall pm handle (elems.map cmdArg) (umplgStddInit none) with
  | none => .invalid
  | some (res, d) => if res = 0 then .table (cmdCallTable d) else .noValue

/-- The row of an argument: its text under the key 1. -/
def argRow (arg : CStr) : LuaTable CStr
  | .num 1 => some arg
  | _ => none

/-- The row of a handler: its values by their names. -/
def nameMap (row : List (CStr × CStr)) : LuaTable CStr
  | .str s => (row.find? (·.1 = s)).map (·.2)
  | .num _ => none

/-- The rows of the arguments and of the handler in order. -/
def layoutTable (args : List CStr) (rows : List (List (CStr × CStr))) :
    LuaTable (LuaTable CStr)
  | .num (i + 1) => (args.map argRow ++ rows.map nameMap)[i]?
  | _ => none

/-- The columns have distinct names, none of them empty. -/
structure ProperRow (row : List (CStr × CStr)) : Prop where
  nodup : (row.map Prod.fst).Nodup
  named : ∀ x ∈ row, 0 < x.1.length

/-- The handler appends rows to the data with the arguments and returns a code. -/
def Appends (cmdhL : η) (cmdId : Int) (args : List CStr) (rows : List (List (CStr × CStr)))
    (res : Int) : Prop :=
  ∀ plgp, handle cmdhL plgp cmdId (args.foldl addArg (umplgStddInit none)) =
    (res, args.foldl addArg (umplgStddInit none) ++ rows.map (List.map columnItem))

section Rows

theorem addArg_foldl (args : List CStr) (d : Stdd) :
    args.foldl addArg d = d ++ args.map fun arg => [⟨.empty, some arg⟩] := by
  induction args generalizing d with
  | nil => exact (List.append_nil d).symm
  | cons arg args ih =>
      have hadd : addArg d arg = d ++ [[⟨.empty, some arg⟩]] := rfl
      rw [List.foldl_cons, ih, hadd, List.append_assoc, List.map_cons, List.singleton_append]

theorem cmdCallItems_arg (arg : CStr) :
    cmdCallItems newTable [⟨.empty, some arg⟩] = argRow arg := by
  ext k : 1
  have hset : cmdCallItems newTable [⟨.empty, some arg⟩] = newTable.set (.num 1) arg := rfl
  rw [hset, LuaTable.set, Function.update_apply]
  cases k with
  | num n =>
      by_cases hn : n = 1
      · rw [if_pos (congrArg LuaKey.num hn), hn, argRow]
      · rw [if_neg (fun h => hn (LuaKey.num.inj h))]
        unfold argRow
        split
        · next h => exact absurd (LuaKey.num.inj h) hn
        · rfl
  | str s => rfl

theorem nameMap_append {row : List (CStr × CStr)} {x : CStr × CStr}
    (hnew : x.1 ∉ row.map Prod.fst) :
    nameMap (row ++ [x]) = (nameMap row).set (.str x.1) x.2 := by
  ext k : 1
  rw [LuaTable.set, Function.update_apply]
  cases k with
  | num n => rfl
  | str s =>
      simp only [nameMap, LuaKey.str.injEq, List.find?_append]
      by_cases hs : s = x.1
      · have hnone : row.find? (·.1 = s) = none := by
          rw [List.find?_eq_none]
          intro y hy hname
          apply hnew
          rw [← hs, ← of_decide_eq_true hname]
          exact List.mem_map_of_mem hy
        subst hs
        simp [hnone]
      · simp [hs, Ne.symm hs]

theorem cmdCallItems_proper {row : List (CStr × CStr)} (h : ProperRow row) :
    cmdCallItems newTable (row.map columnItem) = nameMap row := by
  induction row using List.reverseRecOn with
  | nil =>
      ext k : 1
      cases k <;> rfl
  | append_singleton row x ih =>
      obtain ⟨hnodup, hnamed⟩ := h
      rw [List.map_append, List.nodup_append] at hnodup
      have hnew : x.1 ∉ row.map Prod.fst := fun hmem =>
        hnodup.2.2 x.1 hmem x.1 (List.mem_singleton.mpr rfl) rfl
      have hkey : columnKey (some x.1) 1 = .str x.1 :=
        if_pos (hnamed x (List.mem_append_right row (List.mem_singleton.mpr rfl)))
      have hrow := ih ⟨hnodup.1, fun y hy => hnamed y (List.mem_append_left _ hy)⟩
      rw [cmdCallItems] at hrow ⊢
      rw [List.map_append, List.foldl_append, hrow, nameMap_append hnew, ← hkey]
      rfl

/-- The table of data that holds the rows of the arguments and of the handler. -/
theorem cmdCallTable_layout (args : List CStr) {rows : List (List (CStr × CStr))}
    (hrows : ∀ row ∈ rows, ProperRow row) :
    cmdCallTable (args.foldl addArg (umplgStddInit none) ++ rows.map (List.map columnItem)) =
      layoutTable args rows := by
  have hargs : args.map (fun arg => cmdCallItems newTable [⟨.empty, some arg⟩]) =
      args.map argRow := List.map_congr_left fun arg _ => cmdCallItems_arg arg
  have hhandler : rows.map (fun row => cmdCallItems newTable (row.map columnItem)) =
      rows.map nameMap := List.map_congr_left fun row hrow => cmdCallItems_proper (hrows row hrow)
  ext k : 1
  cases k with
  | num i =>
      cases i with
      | zero =>
          rw [cmdCallTable, rows_apply]
          rfl
      | succ i =>
          rw [cmdCallTable_apply, addArg_foldl, umplgStddInit, List.nil_append, layoutTable,
            ← List.getElem?_map, List.map_append, List.map_map, List.map_map, ← hargs, ← hhandler]
          rfl
  | str s =>
      rw [cmdCallTable, rows_apply]
      rfl

end Rows

/-- The address in the hook of a command lies in the current block of the plugin array. -/
def HookCurrent (id : Int) : Prop :=
  ∀ hook ∈ pm.findHook id, hook.plgp.block = pm.plgs.block

instance (id : Int) : Decidable (HookCurrent pm id) :=
  inferInstanceAs (Decidable (∀ hook ∈ pm.findHook id, hook.plgp.block = pm.plgs.block))

variable {pm handle}

/-- A name without a command gives the script no value. -/
theorem minkLuaDoCmdCall_unmapped (h : -1 ∉ pm.hookIds) {v : LuaValue}
    (hname : (cmdArg v).text ∉ cmdMap.map Prod.snd) (vs : List LuaValue) :
    minkLuaDoCmdCall pm handle (v :: vs) = .noValue := by
  simp only [minkLuaDoCmdCall, minkLuaCmdCall, List.map_cons, UmplgMngr.cmdRun_unmapped h hname]
  rfl

/-- The local handler of a loaded plugin is called exactly if the hook of its command
has a valid address. -/
theorem umplgRun_local {loads : List (LoadCall η)} (hI : pm.Inv loads) {k : Nat} {c : LoadCall η}
    (hload : loads[k]? = some c) {cmds : List Int} {pd : Umplgd η}
    (hres : c.resolve = some (cmds, pd)) {id : Int} (hid : id ∈ cmds) {cmdhL : η}
    (hlocal : pd.cmdhL = some cmdhL) :
    if HookCurrent pm id then ∃ plgp, pm.umplgRun id true = .calls cmdhL plgp
    else pm.umplgRun id true = .invalid := by
  obtain ⟨block, hfind⟩ := hI.hook k c id hload ⟨_, hres, hid⟩
  obtain ⟨cmds', pd', hres', helem⟩ := hI.elem k c hload
  obtain ⟨rfl, rfl⟩ := Prod.mk.inj (Option.some.inj (hres.symm.trans hres'))
  split
  case isTrue hcur =>
      have hderef : pm.plgs.deref ⟨block, k⟩ = some pd :=
        GrowArray.deref_eq_some_iff.mpr ⟨hcur _ hfind, helem⟩
      refine ⟨⟨block, k⟩, ?_⟩
      simp only [UmplgMngr.umplgRun, hfind, hderef, hlocal, if_true]
  case isFalse hstale =>
      have hblock : ¬ block = pm.plgs.block := by
        intro h
        apply hstale
        intro hook hmem
        rw [Option.mem_def, hfind] at hmem
        exact Option.some.inj hmem ▸ h
      have hderef : pm.plgs.deref ⟨block, k⟩ = none := if_neg hblock
      simp only [UmplgMngr.umplgRun, hfind, hderef]

/-- After any loads a call of a command of a loaded plugin, whose local handler
appends rows, gives the script the rows of the arguments and of the handler, or no
value if the handler fails, exactly if the hook of the command has a valid address. -/
theorem cmd_call_layout_iff {loads : List (LoadCall η)}
    (hrun : Trace.exec UmplgMngr.step .new loads = some pm) {k : Nat} {c : LoadCall η}
    (hload : loads[k]? = some c) {cmds : List Int} {pd : Umplgd η}
    (hres : c.resolve = some (cmds, pd)) {cmdhL : η} (hlocal : pd.cmdhL = some cmdhL)
    {v : LuaValue} {vs : List LuaValue} (hcmd : umplgGetCmdId (cmdArg v).text ∈ cmds)
    {rows : List (List (CStr × CStr))} (hrows : ∀ row ∈ rows, ProperRow row) {res : Int}
    (hhandler : Appends handle cmdhL (umplgGetCmdId (cmdArg v).text) (vs.map cmdArg) rows res) :
    minkLuaDoCmdCall pm handle (v :: vs) =
        (if res = 0 then .table (layoutTable (vs.map cmdArg) rows) else .noValue) ↔
      HookCurrent pm (umplgGetCmdId (cmdArg v).text) := by
  have hlocalRun := umplgRun_local (UmplgMngr.inv_new.exec hrun) hload hres hcmd hlocal
  split at hlocalRun
  case isTrue hcur =>
      obtain ⟨plgp, hcalls⟩ := hlocalRun
      rw [iff_true_right hcur]
      simp only [minkLuaDoCmdCall, minkLuaCmdCall, UmplgMngr.cmdRun, List.map_cons, hcalls,
        hhandler plgp, cmdCallTable_layout _ hrows]
  case isFalse hstale =>
      rw [iff_false_right hstale]
      simp only [minkLuaDoCmdCall, minkLuaCmdCall, UmplgMngr.cmdRun, List.map_cons, hlocalRun]
      split <;> exact CmdCallRes.noConfusion

section NinePlugins

/-- The name of the command 36. -/
def luaCall : LuaValue :=
  .str ⟨[67, 77, 68, 95, 76, 85, 65, 95, 67, 65, 76, 76], by decide⟩

/-- A plugin with the command 36 and eight others, of which the last one moves the array. -/
def luaCallLoads : List (LoadCall Nat) :=
  (List.range 8).map (fun k => UmplgMngr.oneCommand (35 + k) false) ++
    [UmplgMngr.oneCommand 43 true]

/-- The descriptor of the plugin with the command 36. -/
def luaCallPlg : Umplgd Nat := ⟨"plg", 35, some 35, 35, false⟩

/-- Handlers that leave the data alone. -/
def idle (_ : Nat) (_ : ElemPtr) (_ : Int) (d : Stdd) : Int × Stdd := (0, d)

theorem appends_idle (args : List CStr) : Appends idle 35 36 args [] 0 :=
  fun _ => Prod.ext rfl (List.append_nil _).symm

theorem luaCall_id : umplgGetCmdId (cmdArg luaCall).text = 36 := by decide

/-- After the ninth load the call of the command reads an invalid address. -/
theorem ninth_plugin_breaks_call :
    ∃ pm : UmplgMngr Nat, Trace.exec UmplgMngr.step .new luaCallLoads = some pm ∧
      luaCallLoads[0]? = some (UmplgMngr.oneCommand 35 false) ∧
      (UmplgMngr.oneCommand 35 false).resolve = some ([36], luaCallPlg) ∧
      luaCallPlg.cmdhL = some 35 ∧ umplgGetCmdId (cmdArg luaCall).text ∈ [(36 : Int)] ∧
      Appends idle 35 (umplgGetCmdId (cmdArg luaCall).text) [] [] 0 ∧
      minkLuaDoCmdCall pm idle [luaCall] ≠ .table (layoutTable [] []) := by
  refine ⟨_, rfl, rfl, rfl, rfl, by decide, luaCall_id ▸ appends_idle [], ?_⟩
  exact CmdCallRes.noConfusion

/-- Two rows of a handler, the second of which has two columns. -/
def answerRows : List (List (CStr × CStr)) :=
  [[(⟨[97], by decide⟩, ⟨[49], by decide⟩)],
    [(⟨[97], by decide⟩, ⟨[50], by decide⟩), (⟨[98], by decide⟩, ⟨[51], by decide⟩)]]

/-- Handlers that append the rows. -/
def answer (_ : Nat) (_ : ElemPtr) (_ : Int) (d : Stdd) : Int × Stdd :=
  (0, d ++ answerRows.map (List.map columnItem))

theorem properRow_answerRows : ∀ row ∈ answerRows, ProperRow row := by
  intro row hrow
  obtain rfl | hrow := List.mem_cons.mp hrow
  · exact ⟨by decide, by decide⟩
  · obtain rfl := List.mem_singleton.mp hrow
    exact ⟨by decide, by decide⟩

/-- A call with one argument gives its row and the two rows of the handler. -/
theorem cmd_call_layout_iff_rows :
    ∃ pm : UmplgMngr Nat,
      Trace.exec UmplgMngr.step .new [UmplgMngr.oneCommand 35 false] = some pm ∧
      minkLuaDoCmdCall pm answer [luaCall, .bool true] =
        .table (layoutTable [cmdArg (.bool true)] answerRows) := by
  have hrun : Trace.exec UmplgMngr.step .new [UmplgMngr.oneCommand 35 false] = some _ := rfl
  have happends : Appends answer 35 36 [cmdArg (.bool true)] answerRows 0 := fun _ => rfl
  refine ⟨_, hrun, ?_⟩
  exact (@cmd_call_layout_iff _ _ answer _ hrun 0 _ rfl [36] luaCallPlg rfl 35 rfl luaCall
    [.bool true] (by decide) answerRows properRow_answerRows 0
    (luaCall_id ▸ happends)).mpr (by decide)

end NinePlugins

end Umink.Lua
