import Umink.Library.CString
import Umink.Library.HashTable

/-!
# Performance counters

The counters of a context stand in a hash table under the string in their id
buffer. A counter is looked up by the string of the caller and created with a copy
of it that fits the buffer.

## Implementation notes

A counter is identified by the number of counters that were there when it was
created, as none is ever removed from a living context. The context and the ids
are not `NULL`. `now` is the reading of the clock.
-/

namespace Umink.Umcounters

open Umink.Library

/-- `UMC_NAME_MAX`. -/
abbrev umcNameMax : Nat := 256

theorem umcNameMax_pos : 0 < umcNameMax := by decide

inductive UmcType where
  | incremental
  | gauge
  deriving DecidableEq, Repr

structure UmcVal where
  value : UInt64
  tsNsec : UInt64
  deriving DecidableEq

structure UmcValues where
  last : UmcVal
  max : UInt64
  tsDiff : UInt64
  delta : Int64
  deriving DecidableEq

/-- `struct umc`, with the place of the object. -/
structure Umc where
  addr : Nat
  id : CharBuf umcNameMax
  type : UmcType
  values : UmcValues

/-- The key of a counter in the table. -/
def Umc.key (c : Umc) : CStr := c.id.1

/-- The string in the buffer fits it. -/
theorem Umc.key_length (c : Umc) : c.key.length < umcNameMax := c.id.2

structure UmcCtx where
  counters : List Umc

/-- `umc_new_ctx`. -/
def umcNewCtx : UmcCtx := ⟨[]⟩

/-- The object that `umc_new_counter` allocates at a place. -/
def Umc.fresh (addr : Nat) (id : CStr) (type : UmcType) : Umc :=
  ⟨addr, snprintfStr (by decide) id, type, ⟨⟨0, 0⟩, 0, 0, 0⟩⟩

/-- `update_value`. -/
def updateValue (c : Umc) (val now : UInt64) : Umc :=
  let pv := c.values.last.value
  -- lower value only available for GAUGE counters
  if val ≤ pv ∧ c.type ≠ .gauge then
    c
  else
    let vs := { c.values with
      last := { c.values.last with value := val }
      max := if val > pv then val else pv }
    -- rate is only used for incremental counters
    if c.type ≠ .incremental then
      { c with values := vs }
    else
      { c with
        values := { vs with
          last := { vs.last with tsNsec := now }
          tsDiff := now - vs.last.tsNsec
          delta := (val - pv).toInt64 } }

/-- The update of `umc_inc`. -/
def incValue (val now : UInt64) (c : Umc) : Umc := updateValue c (c.values.last.value + val) now

/-- The update of `umc_set`. -/
def setValue (val now : UInt64) (c : Umc) : Umc := updateValue c val now

namespace UmcCtx

/-- `umc_get`. -/
def umcGet (ctx : UmcCtx) (id : CStr) : Option Umc := HashTable.find Umc.key ctx.counters id

/-- `umc_new_counter`, with the place of the counter. -/
def umcNewCounter (ctx : UmcCtx) (id : CStr) (type : UmcType) : UmcCtx × Nat :=
  -- check for duplicates
  match HashTable.find Umc.key ctx.counters id with
  | some c => (ctx, c.addr)
  | none =>
      let c := Umc.fresh ctx.counters.length id type
      ({ ctx with counters := HashTable.add ctx.counters c }, c.addr)

/-- Change the object at a place. -/
def write (ctx : UmcCtx) (addr : Nat) (f : Umc → Umc) : UmcCtx :=
  { ctx with counters := HashTable.modify Umc.addr ctx.counters addr f }

/-- `umc_inc`. -/
def umcInc (ctx : UmcCtx) (c : Nat) (val now : UInt64) : UmcCtx := ctx.write c (incValue val now)

/-- `umc_set`. -/
def umcSet (ctx : UmcCtx) (c : Nat) (val now : UInt64) : UmcCtx := ctx.write c (setValue val now)

/-- The shape of `umc_get_inc` and `umc_get_set`. -/
def getWrite (ctx : UmcCtx) (id : CStr) (f : Umc → Umc) : UmcCtx × Option Nat :=
  match ctx.umcGet id with
  | some c => (ctx.write c.addr f, some c.addr)
  | none => (ctx, none)

/-- `umc_get_inc`. -/
def umcGetInc (ctx : UmcCtx) (id : CStr) (val now : UInt64) : UmcCtx × Option Nat :=
  ctx.getWrite id (incValue val now)

/-- `umc_get_set`. -/
def umcGetSet (ctx : UmcCtx) (id : CStr) (val now : UInt64) : UmcCtx × Option Nat :=
  ctx.getWrite id (setValue val now)

/-- `mink_lua_do_perf_inc` with a counter name and an `int`. -/
def minkLuaDoPerfInc (ctx : UmcCtx) (id : CStr) (inc : Int) (now : UInt64) : UmcCtx :=
  -- create counter if needed
  let (ctx, c) := ctx.umcNewCounter id .incremental
  ctx.umcInc c (UInt64.ofInt inc) now

/-- A counter under the id is the one that is returned. -/
theorem umcNewCounter_of_some {ctx : UmcCtx} {id : CStr} {c : Umc}
    (h : HashTable.find Umc.key ctx.counters id = some c) (type : UmcType) :
    ctx.umcNewCounter id type = (ctx, c.addr) := by
  rw [umcNewCounter, h]

/-- Without a counter under the id a new one is added. -/
theorem umcNewCounter_of_none {ctx : UmcCtx} {id : CStr}
    (h : HashTable.find Umc.key ctx.counters id = none) (type : UmcType) :
    ctx.umcNewCounter id type =
      (⟨ctx.counters ++ [Umc.fresh ctx.counters.length id type]⟩, ctx.counters.length) := by
  rw [umcNewCounter, h]
  rfl

end UmcCtx

/-- A call on a context. -/
inductive Call where
  | newCounter (id : CStr) (type : UmcType)
  | get (id : CStr)
  | getInc (id : CStr) (val now : UInt64)
  | getSet (id : CStr) (val now : UInt64)
  | perfInc (id : CStr) (inc : Int) (now : UInt64)

/-- The context after a call and the place of the counter that it returns. -/
def UmcCtx.call (ctx : UmcCtx) : Call → UmcCtx × Option Nat
  | .newCounter id type => ((ctx.umcNewCounter id type).1, some (ctx.umcNewCounter id type).2)
  | .get id => (ctx, (ctx.umcGet id).map Umc.addr)
  | .getInc id val now => ctx.umcGetInc id val now
  | .getSet id val now => ctx.umcGetSet id val now
  | .perfInc id inc now => (ctx.minkLuaDoPerfInc id inc now, none)

def UmcCtx.step (ctx : UmcCtx) (a : Call) : Option UmcCtx := some (ctx.call a).1

end Umink.Umcounters
