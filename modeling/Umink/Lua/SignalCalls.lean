import Umink.Library.StackMachine
import Umink.Lua.SignalArgs
import Umink.Lua.SubModules

/-!
# The interface calls of a signal

`lua_sig_hndlr_run` as the calls of the Lua interface that it makes, on the stacks of the C
functions that run on the state of a thread. Each of its parts leaves the stack as it was, or the
chunk of the script on it, and the tables as the engine has them.

## Implementation notes

The registry and the globals are tables 0 and 1. A C function finds its arguments on its stack and
room for 20 values above them; a script that calls `M.signal` starts one, and the first signal of a
thread runs on the empty stack of the state. `lua_pcall` takes the function from the stack and puts
its result there. Scripts leave the registry alone.
-/

namespace Umink.Lua

open Umink.Library Umink.Plugin StackMachine

/-- What a Lua value of the handler holds; a function of a library is known by its name, and a
chunk by its file. -/
inductive LuaAtom (δ : Type*) where
  | str (s : String)
  | num (n : Nat)
  | data (d : δ)
  | manager (name : String)
  | fn (name : String)
  | chunk (path : String)
  deriving DecidableEq

variable {δ : Type*}

/-- `lua_pushstring`. -/
def pushString (s : String) : Op (LuaAtom δ) := .push (.atom (.str s))

/-- `LUA_REGISTRYINDEX`. -/
def registry : Index := .fixed 0

/-- `LUA_GLOBALSINDEX`. -/
def globals : Index := .fixed 1

/-- `LUA_MINSTACK`. -/
def minStack : Nat := 20

/-- `luaL_newlib`. -/
def newLib (lib : List String) : List (Op (LuaAtom δ)) :=
  .newTable :: Op.sets (lib.map fun name => (.str name, .atom (.fn name)))

/-- `init_mink_lua_module`. -/
def initMinkLuaModuleOps : List (Op (LuaAtom δ)) :=
  newLib minkLualib ++ [.setField globals (.str "M")]

/-- `mqtt_module_sig_run`. -/
def mqttModuleSigRunOps : List (Op (LuaAtom δ)) :=
  [.getField globals (.str "M"), pushString "mqtt"] ++ newLib mqttLualib ++
    [.setTable (.top 3), .pop 1]

/-- `registry[name] = v`. -/
def setRegistry (name : String) (v : Op (LuaAtom δ)) : List (Op (LuaAtom δ)) :=
  [pushString name, v, .setTable registry]

/-- `lua_sig_setup`, while the MQTT plugin has registered its sub-module or not. -/
def luaSigSetupOps (mqtt : Bool) : List (Op (LuaAtom δ)) :=
  initMinkLuaModuleOps ++ (if mqtt then mqttModuleSigRunOps else []) ++
    setRegistry "mink_pm" (.push (.atom (.manager "pm"))) ++
    setRegistry "mink_dbm_mem" (.push (.atom (.manager "mem"))) ++
    setRegistry "mink_dbm_perm" (.push (.atom (.manager "perm")))

/-- The tables of a new state for the arguments of signals and their cache. -/
def sigTablesOps : List (Op (LuaAtom δ)) :=
  setRegistry "mink_stdd" .newTable ++ setRegistry "mink_sig_cache" .newTable

/-- What `luaL_loadfile` pushes: the chunk or an error message. -/
def loadfileValue (sh : LuaSh) (load : LoadRes) : Value (LuaAtom δ) :=
  if luaSigLoadScript load = 0 then .atom (.chunk sh.args.env.path)
  else .atom (.str "error message")

/-- `registry["mink_stdd"][i] = v`. -/
def setArgsOps (i : Nat) (v : Value (LuaAtom δ)) : List (Op (LuaAtom δ)) :=
  [pushString "mink_stdd", .getTable registry, .push (.atom (.num i)), .push v,
    .setTable (.top 3), .remove 1]

/-- `lua_isnil(L, -1)`. -/
def isNil (L : State (LuaAtom δ)) : Bool :=
  match L.stack with
  | .nil :: _ => true
  | _ => false

/-- A C function on the stack of a Lua state: what it was called with, and its stack. -/
structure CFunc (δ : Type*) where
  args : List (Value (LuaAtom δ))
  stack : List (Value (LuaAtom δ))

/-- The Lua state of a thread as its C functions see it. -/
structure ApiThread (δ : Type*) where
  heap : Option (Heap (LuaAtom δ))
  lref : Nat
  /-- The stack below every C function. -/
  base : List (Value (LuaAtom δ))
  /-- The functions that run in `lua_pcall`, with the C function that called each. -/
  frames : List (Value (LuaAtom δ) × CFunc δ)
  wait : Option ((LuaSh × δ) × CFunc δ)
  /-- The return of the last call. -/
  last : Option (CFunc δ × UmplgRet × Option String)

section Handler

variable [DecidableEq δ]

/-- The interface calls in a row. -/
abbrev calls (L : State (LuaAtom δ)) (ops : List (Op (LuaAtom δ))) : Option (State (LuaAtom δ)) :=
  Trace.exec State.step L ops

/-- The lookup in the cache before the lock, and the load into it: whether the handler goes on. -/
def preloadCalls (sh : LuaSh) (load : LoadRes) (L : State (LuaAtom δ)) :
    Option (State (LuaAtom δ) × Bool) :=
  if sh.args.env.conserveMem then some (L, true)
  else do
    -- get sig cache table and its entry for the current signal
    let L ← calls L
      [pushString "mink_sig_cache", .getTable registry, pushString sh.id, .getTable (.top 2)]
    -- not found, preload
    if isNil L then
      let L ← calls L [.pop 1, pushString sh.id, .push (loadfileValue sh load)]
      if luaSigLoadScript load ≠ 0 then
        -- pop error message, sig cache table and signal id
        let L ← calls L [.pop 3]
        return (L, false)
      else
        let L ← calls L [.setTable (.top 3), .pop 1]
        return (L, true)
    else
      let L ← calls L [.pop 1, .pop 1]
      return (L, true)

namespace ApiThread

/-- A thread before its first signal. -/
def start : ApiThread δ := ⟨none, 0, [], [], none, none⟩

/-- The handler returns with the stack to the C function. -/
def ret (th : ApiThread δ) (f : CFunc δ) (out : UmplgRet × Option String) : ApiThread δ :=
  { th with
    base := if th.frames.isEmpty then f.stack else th.base
    wait := none
    last := some (f, out) }

/-- From the state of the thread to the wait for `shd->mtx`. -/
def enterState (th : ApiThread δ) (sh : LuaSh) (dIn : δ) (load : LoadRes)
    (args : List (Value (LuaAtom δ))) (L : State (LuaAtom δ)) : Option (ApiThread δ) := do
  let (L, loaded) ← preloadCalls sh load L
  let th := { th with heap := some L.heap }
  if loaded then return { th with wait := some ((sh, dIn), ⟨args, L.stack⟩) }
  else return th.ret ⟨args, L.stack⟩ (.sigSetupFailed, none)

/-- From `umplg_proc_signal` to the wait for `shd->mtx`, called by a C function with `args` or
outside every script. -/
def enter (signals : Signals LuaSigArgs) (mqtt : Bool) (th : ApiThread δ) (id : String) (dIn : δ)
    (usrFlags : Int) (created : Bool) (load : LoadRes) (args : List (Value (LuaAtom δ))) :
    Option (ApiThread δ) :=
  let args := if th.frames.isEmpty then th.base else args
  match umplgProcSignal signals (some id) usrFlags with
  | .error code => some (th.ret ⟨args, args⟩ (code, none))
  | .ok sh =>
      match th.heap with
      | some heap => th.enterState sh dIn load args ⟨args, minStack + args.length, heap⟩
      | none =>
          if created then do
            let L ← calls ⟨args, minStack + args.length, .empty 2⟩
              (luaSigSetupOps mqtt ++ sigTablesOps)
            th.enterState sh dIn load args L
          else some (th.ret ⟨args, args⟩ (.sigInitFailed, none))

/-- The script is started with its input data under the next `Lref`. -/
def startScript (th : ApiThread δ) (dIn : δ) (args : List (Value (LuaAtom δ)))
    (L : State (LuaAtom δ)) : Option (ApiThread δ) := do
  let lref := th.lref + 1
  let L ← calls L (setArgsOps lref (.atom (.data dIn)))
  match L.stack with
  | [] => none
  | func :: stack =>
      return { th with
        heap := some L.heap
        lref := lref
        frames := (func, ⟨args, stack⟩) :: th.frames
        wait := none }

/-- From the lock to the start of the script or the early return. -/
def locked (th : ApiThread δ) (sh : LuaSh) (dIn : δ) (f : CFunc δ) (running : Bool)
    (load : LoadRes) : Option (ApiThread δ) := do
  let heap ← th.heap
  let L : State (LuaAtom δ) := ⟨f.stack, minStack + f.args.length, heap⟩
  if running then
    return th.ret f (.success, some (recursionText sh.id))
  else if sh.args.env.conserveMem then
    -- load script each time if conserving memory
    let L ← calls L [.push (loadfileValue sh load)]
    if luaSigLoadScript load ≠ 0 then
      let L ← calls L [.pop 1]
      return { th with heap := some L.heap }.ret ⟨f.args, L.stack⟩ (.sigSetupFailed, none)
    else
      th.startScript dIn f.args L
  else
    -- the precompiled chunk, without the sig cache table
    let L ← calls L
      [pushString "mink_sig_cache", .getTable registry, pushString sh.id, .getTable (.top 2),
        .remove 2]
    th.startScript dIn f.args L

/-- The value that a script leaves. -/
def resultValue : LuaResult → Value (LuaAtom δ)
  | .text s => .atom (.str s)
  | .other => .nil

/-- The output for the value on the top. -/
def outputOf : List (Value (LuaAtom δ)) → UmplgRet × Option String
  | .atom (.str s) :: _ => luaSigOutput (.text s)
  | _ => luaSigOutput .other

/-- From the end of the script to the return of the handler. -/
def leave (th : ApiThread δ) (f : CFunc δ) (fs : List (Value (LuaAtom δ) × CFunc δ))
    (res : LuaResult) : Option (ApiThread δ) := do
  let heap ← th.heap
  let L ← State.push ⟨f.stack, minStack + f.args.length, heap⟩ (resultValue res)
  let L ← calls L (setArgsOps th.lref .nil)
  let out := outputOf L.stack
  let L ← calls L [.pop 1]
  let th := { th with
    heap := some L.heap
    lref := th.lref - 1
    frames := fs }
  return th.ret ⟨f.args, L.stack⟩ out

/-- One action of the thread, with the values that its C function was called with. -/
def step (signals : Signals LuaSigArgs) (mqtt : Bool) (running : String → Bool)
    (th : ApiThread δ) (act : Act δ) (args : List (Value (LuaAtom δ))) : Option (ApiThread δ) :=
  match act, th.wait, th.frames with
  | .call id dIn usrFlags created load, none, _ =>
      th.enter signals mqtt id dIn usrFlags created load args
  | .lock load, some ((sh, dIn), f), _ => th.locked sh dIn f (running sh.id) load
  | .finish _ res, none, (_, f) :: fs => th.leave f fs res
  | _, _, _ => none

end ApiThread

end Handler

/-- The value under which the input data of an activation are registered. -/
def argsValue : Option δ → Value (LuaAtom δ)
  | none => .nil
  | some d => .atom (.data d)

/-- The tables of the state are what the engine knows of it: the input data of the activations, and
the chunks of the signals in the cache. -/
structure SigTables (signals : Signals LuaSigArgs) (L : LuaState δ) (heap : Heap (LuaAtom δ))
    (s c : Nat) : Prop where
  stddRef : heap.tables 0 (.str "mink_stdd") = .table s
  cacheRef : heap.tables 0 (.str "mink_sig_cache") = .table c
  stdd_ne : s ≠ c ∧ s ≠ 0
  cache_ne : c ≠ 0
  lt_next : 0 < heap.next ∧ s < heap.next ∧ c < heap.next
  stdd : ∀ i, heap.tables s (.num i) = argsValue (L.stdd i)
  cache : ∀ id sh, signals.find id = some sh → heap.tables c (.str id) =
    if id ∈ L.sigCache then .atom (.chunk sh.args.env.path) else .nil

section Calls

variable [DecidableEq δ] {signals : Signals LuaSigArgs} {L : LuaState δ}
  {heap : Heap (LuaAtom δ)} {s c : Nat}

/-- The stack of a C function that was called with `args`, with more values on it. -/
def onStack (heap : Heap (LuaAtom δ)) (vs args : List (Value (LuaAtom δ))) : State (LuaAtom δ) :=
  ⟨vs ++ args, minStack + args.length, heap⟩

theorem calls_onStack {ops : List (Op (LuaAtom δ))} {vs vs' : List (Value (LuaAtom δ))}
    {heap' : Heap (LuaAtom δ)} (args : List (Value (LuaAtom δ)))
    (h : calls ⟨vs, minStack, heap⟩ ops = some ⟨vs', minStack, heap'⟩) :
    calls (onStack heap vs args) ops = some (onStack heap' vs' args) :=
  exec_above args h

theorem calls_setup (signals : Signals LuaSigArgs) (mqtt : Bool) :
    ∃ heap, calls (⟨[], minStack, .empty 2⟩ : State (LuaAtom δ))
        (luaSigSetupOps mqtt ++ sigTablesOps) = some ⟨[], minStack, heap⟩ ∧
      ∃ s c, SigTables signals (LuaState.setup : LuaState δ) heap s c := by
  cases mqtt with
  | false =>
      refine ⟨_, rfl, 3, 4, rfl, rfl, ⟨by decide, by decide⟩, by decide, ?_, fun i => rfl, ?_⟩
      · exact ⟨Nat.zero_lt_succ 4, Nat.lt_succ_of_lt (Nat.lt_succ_self 3), Nat.lt_succ_self 4⟩
      · exact fun id sh _ => rfl
  | true =>
      refine ⟨_, rfl, 4, 5, rfl, rfl, ⟨by decide, by decide⟩, by decide, ?_, fun i => rfl, ?_⟩
      · exact ⟨Nat.zero_lt_succ 5, Nat.lt_succ_of_lt (Nat.lt_succ_self 4), Nat.lt_succ_self 5⟩
      · exact fun id sh _ => rfl

theorem calls_cached (h : SigTables signals L heap s c) (id : String) :
    calls ⟨[], minStack, heap⟩
        [pushString "mink_sig_cache", .getTable registry, pushString id, .getTable (.top 2)] =
      some ⟨[heap.tables c (.str id), .table c], minStack, heap⟩ := by
  simp [calls, Trace.exec, State.step, State.push, pushString, registry, tableAt, peek,
    Value.number, h.cacheRef, minStack]

/-- The entry of the cache alone. -/
theorem calls_chunk (h : SigTables signals L heap s c) (id : String) :
    calls ⟨[], minStack, heap⟩
        [pushString "mink_sig_cache", .getTable registry, pushString id, .getTable (.top 2),
          .remove 2] =
      some ⟨[heap.tables c (.str id)], minStack, heap⟩ :=
  (Trace.exec_append_iff _ _ _ [_, _, _, _] [_]).mpr ⟨_, calls_cached h id, rfl⟩

theorem calls_setArgs (h : SigTables signals L heap s c) (func v : Value (LuaAtom δ)) (i : Nat) :
    calls ⟨[func], minStack, heap⟩ (setArgsOps i v) =
      some ⟨[func], minStack, heap.set s (.num i) v⟩ := by
  simp [calls, Trace.exec, State.step, State.push, setArgsOps, pushString, registry, tableAt, peek,
    Value.number, h.stddRef, minStack]

omit [DecidableEq δ] in
theorem setArgs_stdd (L : LuaState δ) (i : Nat) (dIn : Option δ) :
    (L.setArgs i dIn).stdd = Function.update L.stdd i dIn := rfl

/-- An entry of the table of arguments is written. -/
theorem SigTables.setArgs (h : SigTables signals L heap s c) (i : Nat) (dIn : Option δ) :
    SigTables signals (L.setArgs i dIn) (heap.set s (.num i) (argsValue dIn)) s c where
  stddRef := (Heap.set_table_ne heap _ _ _ h.stdd_ne.2.symm).trans h.stddRef
  cacheRef := (Heap.set_table_ne heap _ _ _ h.stdd_ne.2.symm).trans h.cacheRef
  stdd_ne := h.stdd_ne
  cache_ne := h.cache_ne
  lt_next := h.lt_next
  stdd j := by
    by_cases hj : j = i
    · subst hj
      rw [Heap.set_self, setArgs_stdd, Function.update_self]
    · have hkey : (LuaAtom.num j : LuaAtom δ) ≠ .num i := fun heq => hj (LuaAtom.num.inj heq)
      rw [Heap.set_key_ne heap _ _ _ hkey, h.stdd, setArgs_stdd, Function.update_of_ne hj]
  cache id sh hfind := by
    rw [Heap.set_table_ne heap _ _ _ h.stdd_ne.1.symm]
    exact h.cache id sh hfind

/-- The chunk of a signal is put into the cache. -/
theorem SigTables.addCache (h : SigTables signals L heap s c) {sh : LuaSh}
    (hfind : signals.find sh.id = some sh) :
    SigTables signals { L with sigCache := sh.id :: L.sigCache }
      (heap.set c (.str sh.id) (.atom (.chunk sh.args.env.path))) s c where
  stddRef := (Heap.set_table_ne heap _ _ _ h.cache_ne.symm).trans h.stddRef
  cacheRef := (Heap.set_table_ne heap _ _ _ h.cache_ne.symm).trans h.cacheRef
  stdd_ne := h.stdd_ne
  cache_ne := h.cache_ne
  lt_next := h.lt_next
  stdd i := (Heap.set_table_ne heap _ _ _ h.stdd_ne.1).trans (h.stdd i)
  cache id sh' hfind' := by
    by_cases hid : id = sh.id
    · subst hid
      obtain rfl := Option.some.inj (hfind.symm.trans hfind')
      rw [Heap.set_self, if_pos List.mem_cons_self]
    · have hkey : (LuaAtom.str id : LuaAtom δ) ≠ .str sh.id := fun heq => hid (LuaAtom.str.inj heq)
      rw [Heap.set_key_ne heap _ _ _ hkey, h.cache id sh' hfind']
      exact if_congr (List.mem_cons.trans (or_iff_right hid)).symm rfl rfl

omit [DecidableEq δ] in
/-- The height of the stack is not a matter of the tables. -/
theorem SigTables.congr (h : SigTables signals L heap s c) {L' : LuaState δ}
    (hstdd : L'.stdd = L.stdd) (hcache : L'.sigCache = L.sigCache) :
    SigTables signals L' heap s c :=
  ⟨h.stddRef, h.cacheRef, h.stdd_ne, h.cache_ne, h.lt_next, hstdd ▸ h.stdd, hcache ▸ h.cache⟩

/-- The lookup in the cache and the load into it leave the stack as it was. -/
theorem preloadCalls_eq (h : SigTables signals L heap s c) {sh : LuaSh}
    (hfind : signals.find sh.id = some sh) (load : LoadRes) (args : List (Value (LuaAtom δ))) :
    ∃ heap', preloadCalls sh load (onStack heap [] args) =
        some (onStack heap' [] args, (L.preload sh load).2) ∧
      SigTables signals (L.preload sh load).1 heap' s c := by
  unfold preloadCalls LuaState.preload
  cases hmode : sh.args.env.conserveMem with
  | true => exact ⟨heap, rfl, h⟩
  | false =>
      have hlookup := calls_onStack args (calls_cached h sh.id)
      rw [h.cache _ _ hfind] at hlookup
      rw [if_neg Bool.false_ne_true, if_neg Bool.false_ne_true, hlookup]
      dsimp only [LuaState.push, LuaState.pop]
      by_cases hcached : sh.id ∈ L.sigCache
      · rw [if_pos hcached, if_pos hcached]
        exact ⟨heap, rfl, h.congr rfl rfl⟩
      · rw [if_neg hcached, if_neg hcached]
        have hload : calls (onStack heap [.nil, .table c] args)
            [.pop 1, pushString sh.id, .push (loadfileValue sh load)] =
            some (onStack heap [loadfileValue sh load, .atom (.str sh.id), .table c] args) :=
          calls_onStack args rfl
        have hnil : isNil (onStack heap [.nil, .table c] args) = true := rfl
        rw [Option.bind_eq_bind, Option.bind_some, if_pos hnil, hload]
        cases load with
        | ok =>
            refine ⟨heap.set c (.str sh.id) (.atom (.chunk sh.args.env.path)), rfl, ?_⟩
            exact (h.addCache hfind).congr rfl rfl
        | _ => exact ⟨heap, rfl, h.congr rfl rfl⟩

end Calls

end Umink.Lua
