import Mathlib.Logic.Function.Basic
import Umink.Library.CTypes
import Umink.Library.RecMutex
import Umink.Library.Trace
import Umink.Lua.Env

/-!
# Execution of Lua signals

`lua_sig_hndlr_run` cut at the two places where other code runs in between:
the wait for `shd->mtx` and the script itself. A thread enters the handler,
passes the lock, runs the script, which may enter handlers in turn, and leaves.
Any number of threads do so in any order, and a script may issue any calls and
end in any way, so a run covers every script.

## Implementation notes

The results of `luaL_newstate` and `luaL_loadfile` and the value a script leaves
are part of the actions. `Frame.issued` counts the calls of `M.signal` that an activation has
made; it is the position of its script, which the handler never reads.
-/

namespace Umink.Lua

open Umink.Library Umink.Plugin

/-- The outcome of `luaL_loadfile`. -/
inductive LoadRes where
  | ok
  | errSyntax
  | errMem
  | errFile
  deriving DecidableEq, Repr

/-- `lua_sig_load_script`. -/
def luaSigLoadScript : LoadRes → Nat
  | .errSyntax => 1
  | .errMem => 2
  | .errFile => 3
  | .ok => 0

/-- What `lua_pcall` leaves on the stack: a value that `lua_isstring` accepts,
with its text, or another one. An error message is of the first kind. -/
inductive LuaResult where
  | text (s : String)
  | other

/-- The per-thread `lua_State`: its stack height, the `mink_stdd` table and the
ids in the `mink_sig_cache` table. -/
structure LuaState (δ : Type*) where
  top : Nat
  stdd : Nat → Option δ
  sigCache : List String

/-- An activation of a signal's script. -/
structure Frame (δ : Type*) where
  sh : LuaSh
  dIn : δ
  issued : Nat

/-- A thread: its `tls_key` state and `Lref`, the activations from the innermost
one, the call that waits for a lock and the result of the last call. -/
structure LuaThread (δ : Type*) where
  lua : Option (LuaState δ)
  lref : Nat
  frames : List (Frame δ)
  wait : Option (LuaSh × δ)
  last : Option (UmplgRet × Option String)

structure Engine (τ δ : Type*) where
  mtx : String → RecMutex τ
  running : String → Bool
  threads : τ → LuaThread δ

inductive Act (δ : Type*) where
  /-- `M.signal`, or a call of `umplg_proc_signal` outside every script. -/
  | call (id : String) (dIn : δ) (usrFlags : Int) (created : Bool) (load : LoadRes)
  /-- The wait for `shd->mtx` is over. -/
  | lock (load : LoadRes)
  /-- The innermost script ends. -/
  | finish (failed : Bool) (res : LuaResult)

variable {τ δ : Type*}

namespace LuaState

def push (L : LuaState δ) (k : Nat) : LuaState δ := { L with top := L.top + k }

def pop (L : LuaState δ) (k : Nat) : LuaState δ := { L with top := L.top - k }

/-- `lua_sig_setup` and the two registry tables of a new state. -/
def setup : LuaState δ := ⟨0, fun _ => none, []⟩

/-- The cache lookup before the lock; the script is compiled into the cache
when it is not there. -/
def preload (L : LuaState δ) (sh : LuaSh) (load : LoadRes) : LuaState δ × Bool :=
  if sh.args.env.conserveMem then
    (L, true)
  else
    -- sig cache table and its entry for the signal
    let L := (L.push 1).push 1
    if sh.id ∈ L.sigCache then
      ((L.pop 1).pop 1, true)
    else
      -- signal id, then the chunk or the error message
      let L := ((L.pop 1).push 1).push 1
      if luaSigLoadScript load ≠ 0 then
        (L.pop 3, false)
      else
        ((({ L with sigCache := sh.id :: L.sigCache } : LuaState δ).pop 2).pop 1, true)

/-- Register the input data of the activation `i`. -/
def setArgs (L : LuaState δ) (i : Nat) (dIn : Option δ) : LuaState δ :=
  let L := ((L.push 1).push 1).push 1
  ({ L with stdd := Function.update L.stdd i dIn }.pop 2).pop 1

end LuaState

/-- The state of the thread, which its first signal creates. -/
def LuaThread.getState (th : LuaThread δ) (created : Bool) : Option (LuaState δ) :=
  match th.lua with
  | some L => some L
  | none => if created then some LuaState.setup else none

/-- The output of a finished script: the code and `*d_out`. `snprintf` reports an
error for lengths that do not fit an `int`. -/
def luaSigOutput (res : LuaResult) : UmplgRet × Option String :=
  match res with
  | .text s =>
      let str := cText s
      let sl := str.utf8ByteSize
      if sl = 0 then
        (.success, none)
      else
        let r : Int := if sl < 2 ^ 31 then sl else -1
        if r ≤ 0 ∨ r ≥ sl + 1 then (.bufferOverflow, none) else (.success, some str)
  | .other => (.success, none)

/-- The text of a rejected recursive call. -/
def recursionText (id : String) : String := "ERR [" ++ id ++ "]: signal recursion prevented"

namespace Engine

variable [DecidableEq τ]

def start : Engine τ δ where
  mtx _ := .free
  running _ := false
  threads _ := ⟨none, 0, [], none, none⟩

def setThread (e : Engine τ δ) (t : τ) (th : LuaThread δ) : Engine τ δ :=
  { e with threads := Function.update e.threads t th }

/-- The innermost activation has issued one more call. -/
def countCall : List (Frame δ) → List (Frame δ)
  | [] => []
  | f :: fs => { f with issued := f.issued + 1 } :: fs

/-- From `umplg_proc_signal` to the wait for `shd->mtx`. -/
def enter (signals : Signals LuaSigArgs) (e : Engine τ δ) (t : τ) (id : String) (dIn : δ)
    (usrFlags : Int) (created : Bool) (load : LoadRes) : Engine τ δ :=
  let th := { e.threads t with frames := countCall (e.threads t).frames }
  match umplgProcSignal signals (some id) usrFlags with
  | .error code => e.setThread t { th with last := some (code, none) }
  | .ok sh =>
      match (e.threads t).getState created with
      | none => e.setThread t { th with last := some (.sigInitFailed, none) }
      | some L =>
          let (L, loaded) := L.preload sh load
          if loaded then
            e.setThread t { th with lua := some L, wait := some (sh, dIn) }
          else
            e.setThread t { th with lua := some L, last := some (.sigSetupFailed, none) }

/-- Recursion prevention: the flag is cleared, the text is the output and the
mutex, locked as `mtx`, is released. -/
def rejectCall (e : Engine τ δ) (t : τ) (sh : LuaSh) (mtx : RecMutex τ) : Engine τ δ :=
  let e := { e with
    running := Function.update e.running sh.id false
    mtx := Function.update e.mtx sh.id (mtx.unlock t) }
  e.setThread t { e.threads t with
    wait := none
    last := some (.success, some (recursionText sh.id)) }

/-- The script cannot be loaded: the handler returns without a release of the
mutex, which stays locked as `mtx`. -/
def failLoad (e : Engine τ δ) (t : τ) (sh : LuaSh) (mtx : RecMutex τ) : Engine τ δ :=
  let th := e.threads t
  let L := ((th.lua.getD LuaState.setup).push 1).pop 1
  let e := { e with mtx := Function.update e.mtx sh.id mtx }
  e.setThread t { th with
    lua := some L
    wait := none
    last := some (.sigSetupFailed, none) }

/-- The chunk, freshly loaded or from the cache table, starts with its input
data registered under the next `Lref`. -/
def startScript (e : Engine τ δ) (t : τ) (sh : LuaSh) (dIn : δ) (mtx : RecMutex τ) :
    Engine τ δ :=
  let th := e.threads t
  let L := (th.lua.getD LuaState.setup).push 1
  let lref := th.lref + 1
  let L := L.setArgs lref (some dIn)
  let e := { e with
    running := Function.update e.running sh.id true
    mtx := Function.update e.mtx sh.id mtx }
  e.setThread t { th with
    lua := some L
    lref := lref
    frames := ⟨sh, dIn, 0⟩ :: th.frames
    wait := none }

/-- From the lock to the start of the script or the early return. -/
def locked (e : Engine τ δ) (t : τ) (sh : LuaSh) (dIn : δ) (mtx : RecMutex τ) (load : LoadRes) :
    Engine τ δ :=
  if e.running sh.id then
    e.rejectCall t sh mtx
  else if sh.args.env.conserveMem ∧ luaSigLoadScript load ≠ 0 then
    e.failLoad t sh mtx
  else
    e.startScript t sh dIn mtx

/-- From the end of the script to the return of the handler. -/
def leave (e : Engine τ δ) (t : τ) (f : Frame δ) (fs : List (Frame δ)) (res : LuaResult) :
    Engine τ δ :=
  let th := e.threads t
  let L := (th.lua.getD LuaState.setup).setArgs th.lref none
  let L := L.pop 1
  let e := { e with running := Function.update e.running f.sh.id false }
  let e := { e with mtx := Function.update e.mtx f.sh.id ((e.mtx f.sh.id).unlock t) }
  e.setThread t { th with
    lua := some L
    lref := th.lref - 1
    frames := fs
    last := some (luaSigOutput res) }

/-- One action of one thread. -/
def step (signals : Signals LuaSigArgs) (e : Engine τ δ) (a : τ × Act δ) : Option (Engine τ δ) :=
  let (t, act) := a
  match act, (e.threads t).wait, (e.threads t).frames with
  | .call id dIn usrFlags created load, none, _ =>
      some (e.enter signals t id dIn usrFlags created load)
  | .lock load, some (sh, dIn), _ =>
      ((e.mtx sh.id).lock t).map fun mtx => e.locked t sh dIn mtx load
  | .finish _ res, none, f :: fs => some (e.leave t f fs res)
  | _, _, _ => none

end Engine

end Umink.Lua
