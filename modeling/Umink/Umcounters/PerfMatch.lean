import Mathlib.Data.List.Induction
import Umink.Umcounters.Registry

/-!
# The counters that a script sees

`M.perf_inc` and `M.perf_set` create counters under names that are cut off at the buffer of a
counter, and `M.perf_match` shows the counters whose names match a pattern. What it shows of a
name is decided by the calls for this name alone, as long as no longer name is cut off to it.

## Implementation notes

A name that does not fit is not found again, so that each call for it adds a counter under the same
key. Which of them a lookup of the key finds depends on the chains of the hash table, and nothing is
said about their values.

Floating point numbers and `fnmatch` with its flags are parameters. The counters of the
environments, which are changed through their addresses, are in the context from the start.
-/

namespace Umink.Umcounters

open Umink.Library

/-- An argument of a Lua function: its text if `lua_isstring`, and its number converted to
`int` if `lua_isnumber`. -/
structure PerfArg where
  text : Option CStr
  int : Option Int

/-- A call of `M.perf_inc` or of `M.perf_set` with the reading of the clock. -/
inductive LuaPerfCall where
  | inc (args : List PerfArg) (now : UInt64)
  | set (args : List PerfArg) (now : UInt64)

/-- The name and the amount of `M.perf_inc`. -/
def perfIncArgs : List PerfArg → Option (CStr × Int)
  | a :: args => a.text.map fun id => (id, (args.head?.bind PerfArg.int).getD 1)
  | [] => none

/-- The name and the value of `M.perf_set`. -/
def perfSetArgs : List PerfArg → Option (CStr × Int)
  | a :: b :: _ =>
      match a.text, b.int with
      | some id, some val => some (id, val)
      | _, _ => none
  | _ => none

/-- The pattern of `M.perf_match`. -/
def perfMatchArgs (args : List PerfArg) : Option CStr := args.head?.bind PerfArg.text

/-- The numbers of Lua: the value of an integer, zero, and the rate of a difference in a time. -/
structure LuaNumbers (ν : Type*) where
  ofU64 : UInt64 → ν
  zero : ν
  rate : UInt64 → UInt64 → ν

/-- A row in the result of `M.perf_match`. -/
structure PerfRow (ν : Type*) where
  last : ν
  max : Option ν
  rate : Option ν

namespace UmcCtx

/-- `mink_lua_do_perf_set` with a counter name and an `int`. -/
def minkLuaDoPerfSet (ctx : UmcCtx) (id : CStr) (val : Int) (now : UInt64) : UmcCtx :=
  -- create counter if needed
  let (ctx, c) := ctx.umcNewCounter id .gauge
  ctx.umcSet c (UInt64.ofInt val) now

/-- A call of a script. -/
def perfCall (ctx : UmcCtx) : LuaPerfCall → UmcCtx
  | .inc args now =>
      match perfIncArgs args with
      | some (id, inc) => ctx.minkLuaDoPerfInc id inc now
      | none => ctx
  | .set args now =>
      match perfSetArgs args with
      | some (id, val) => ctx.minkLuaDoPerfSet id val now
      | none => ctx

/-- The counters that `umc_match` hands to its callback. -/
def umcMatch (fnmatch : CStr → CStr → Bool) (ctx : UmcCtx) (ptrn : CStr) : List Umc :=
  ctx.counters.filter fun c => fnmatch ptrn c.key

end UmcCtx

section Rows

variable {ν : Type*} (N : LuaNumbers ν) (fnmatch : CStr → CStr → Bool)

/-- `umc_get_rate`. -/
def umcGetRate (c : Umc) : ν :=
  let tdiff := c.values.tsDiff
  let delta := c.values.delta.toUInt64
  if tdiff > 0 ∧ delta > 0 ∧ c.type = .incremental then N.rate delta tdiff else N.zero

/-- The table of a counter. -/
def perfRow (c : Umc) : PerfRow ν where
  last := N.ofU64 c.values.last.value
  max := if c.type = .gauge then some (N.ofU64 c.values.max) else none
  rate := if c.type = .incremental then some (umcGetRate N c) else none

/-- `mink_lua_do_perf_match`: the table that is returned. -/
def UmcCtx.minkLuaDoPerfMatch (ctx : UmcCtx) (args : List PerfArg) :
    Option (CStr → Option (PerfRow ν)) :=
  (perfMatchArgs args).map fun ptrn =>
    (ctx.umcMatch fnmatch ptrn).foldl
      (fun t c => Function.update t c.key (some (perfRow N c))) fun _ => none

end Rows

/-- What a call does: the counter that it creates if needed, and its value. -/
structure PerfUse where
  id : CStr
  type : UmcType
  val : UInt64
  now : UInt64

/-- What a call with valid arguments does. -/
def LuaPerfCall.use : LuaPerfCall → Option PerfUse
  | .inc args now => (perfIncArgs args).map fun p => ⟨p.1, .incremental, UInt64.ofInt p.2, now⟩
  | .set args now => (perfSetArgs args).map fun p => ⟨p.1, .gauge, UInt64.ofInt p.2, now⟩

namespace PerfUse

variable (u : PerfUse)

/-- The name of the counter, cut off at its buffer. -/
def key : CStr := (Umc.fresh 0 u.id u.type).key

/-- The update of the counter. -/
def apply : Umc → Umc :=
  match u.type with
  | .incremental => incValue u.val u.now
  | .gauge => setValue u.val u.now

/-- The counter of the name after the call. -/
def next (old : Option Umc) : Umc := u.apply (old.getD (Umc.fresh 0 u.id u.type))

end PerfUse

/-- A counter without its place. -/
def Umc.forget (c : Umc) : Umc := { c with addr := 0 }

/-- The counter of a key after the calls for it. -/
def shown (ctx : UmcCtx) (calls : List LuaPerfCall) (k : CStr) : Option Umc :=
  ((calls.filterMap LuaPerfCall.use).filter fun u => u.key = k).foldl
    (fun old u => some (u.next old)) ((ctx.umcGet k).map Umc.forget)

/-- At most one counter is under the key, and no call's name is cut off to it. -/
def UmcCtx.Single (ctx : UmcCtx) (calls : List LuaPerfCall) (k : CStr) : Prop :=
  (ctx.counters.map Umc.key).count k ≤ 1 ∧
    ∀ u ∈ calls.filterMap LuaPerfCall.use, u.key = k → u.id.length < umcNameMax

/-- Every counter stands at its place. -/
def UmcCtx.Placed (ctx : UmcCtx) : Prop :=
  ctx.counters.map Umc.addr = List.range ctx.counters.length

section Steps

variable {ctx : UmcCtx} {u : PerfUse} {k : CStr}

/-- A call with valid arguments creates the counter if needed and updates it. -/
def UmcCtx.use (ctx : UmcCtx) (u : PerfUse) : UmcCtx :=
  (ctx.umcNewCounter u.id u.type).1.write (ctx.umcNewCounter u.id u.type).2 u.apply

theorem perfCall_eq (ctx : UmcCtx) (call : LuaPerfCall) :
    ctx.perfCall call = (call.use.map ctx.use).getD ctx := by
  cases call with
  | inc args now =>
      rw [UmcCtx.perfCall, LuaPerfCall.use]
      cases perfIncArgs args <;> rfl
  | set args now =>
      rw [UmcCtx.perfCall, LuaPerfCall.use]
      cases perfSetArgs args <;> rfl

@[simp] theorem PerfUse.apply_key (c : Umc) : (u.apply c).key = c.key := by
  unfold PerfUse.apply
  cases u.type with
  | incremental => exact incValue_key u.val u.now c
  | gauge => exact setValue_key u.val u.now c

@[simp] theorem PerfUse.apply_addr (c : Umc) : (u.apply c).addr = c.addr := by
  unfold PerfUse.apply
  cases u.type with
  | incremental => exact incValue_addr u.val u.now c
  | gauge => exact setValue_addr u.val u.now c

/-- The place of a counter has no part in its updates. -/
theorem forget_updateValue (c : Umc) (val now : UInt64) :
    (updateValue c val now).forget = updateValue c.forget val now := by
  unfold updateValue Umc.forget
  dsimp only
  split_ifs <;> rfl

theorem PerfUse.forget_apply (c : Umc) : (u.apply c).forget = u.apply c.forget := by
  unfold PerfUse.apply
  cases u.type with
  | incremental => exact forget_updateValue c _ u.now
  | gauge => exact forget_updateValue c _ u.now

/-- A counter is found after a write under its key, changed if it stands at the place. -/
theorem umcGet_write (ctx : UmcCtx) (p : Nat) (k : CStr) :
    (ctx.write p u.apply).umcGet k =
      (ctx.umcGet k).map fun c => if c.addr = p then u.apply c else c := by
  have hkey : ∀ c : Umc, (if c.addr = p then u.apply c else c).key = c.key := fun c => by
    split_ifs
    · exact PerfUse.apply_key c
    · rfl
  exact HashTable.find_map ctx.counters hkey k

theorem PerfUse.key_of_fits (h : u.id.length < umcNameMax) : u.key = u.id :=
  (snprintfStr_eq_iff umcNameMax_pos u.id).mpr h

/-- A counter that is found stands before the place of the next one. -/
theorem UmcCtx.Placed.addr_lt (h : ctx.Placed) {c : Umc} (hc : ctx.umcGet k = some c) :
    c.addr < ctx.counters.length := by
  have hmem : c.addr ∈ ctx.counters.map Umc.addr := List.mem_map_of_mem (HashTable.mem_of_find hc)
  rw [h] at hmem
  exact List.mem_range.mp hmem

/-- Counters that are found under different keys stand at different places. -/
theorem UmcCtx.Placed.addr_ne (h : ctx.Placed) {k' : CStr} {c c' : Umc}
    (hc : ctx.umcGet k = some c) (hc' : ctx.umcGet k' = some c') (hk : k ≠ k') :
    c.addr ≠ c'.addr := by
  intro haddr
  have hnodup : (ctx.counters.map Umc.addr).Nodup := h ▸ List.nodup_range
  have heq : c = c' :=
    List.inj_on_of_nodup_map hnodup (HashTable.mem_of_find hc) (HashTable.mem_of_find hc') haddr
  exact hk (by rw [← key_of_umcGet hc, ← key_of_umcGet hc', heq])

/-- A call changes the counter of its own name. -/
theorem umcGet_use (h : ctx.Placed) (u : PerfUse) {k : CStr}
    (hfits : u.key = k → u.id.length < umcNameMax) :
    ((ctx.use u).umcGet k).map Umc.forget =
      if u.key = k then some (u.next ((ctx.umcGet k).map Umc.forget))
      else (ctx.umcGet k).map Umc.forget := by
  rw [UmcCtx.use, umcGet_write]
  cases hfind : ctx.umcGet u.id with
  | some c =>
      have hid : u.key = u.id := PerfUse.key_of_fits (key_of_umcGet hfind ▸ c.key_length)
      rw [UmcCtx.umcNewCounter_of_some hfind, hid]
      split_ifs with hk
      · rw [← hk, hfind]
        simp only [Option.map_some, if_true, PerfUse.forget_apply, PerfUse.next, Option.getD_some]
      · cases hget : ctx.umcGet k with
        | none => rfl
        | some c' =>
            simp only [Option.map_some, if_neg (h.addr_ne hget hfind (Ne.symm hk))]
  | none =>
      rw [UmcCtx.umcNewCounter_of_none hfind]
      have hnew : UmcCtx.umcGet ⟨ctx.counters ++ [Umc.fresh ctx.counters.length u.id u.type]⟩ k =
          if u.key = k then some (Umc.fresh ctx.counters.length u.id u.type) else ctx.umcGet k :=
        HashTable.find_add ctx.counters (Umc.fresh ctx.counters.length u.id u.type) k
      rw [hnew]
      split_ifs with hk
      · have hold : ctx.umcGet k = none := by rwa [← hk, PerfUse.key_of_fits (hfits hk)]
        have haddr : (Umc.fresh ctx.counters.length u.id u.type).addr = ctx.counters.length := rfl
        simp only [hold, Option.map_some, Option.map_none, haddr, if_true, PerfUse.forget_apply,
          PerfUse.next, Option.getD_none]
        rfl
      · cases hget : ctx.umcGet k with
        | none => rfl
        | some c' =>
            simp only [Option.map_some, if_neg (h.addr_lt hget).ne]

theorem write_keys (ctx : UmcCtx) (p : Nat) :
    (ctx.write p u.apply).counters.map Umc.key = ctx.counters.map Umc.key := by
  unfold UmcCtx.write HashTable.modify
  rw [List.map_map]
  refine List.map_congr_left fun c _ => ?_
  rw [Function.comp_apply]
  split_ifs
  · exact PerfUse.apply_key c
  · rfl

/-- The keys after a call: a new one at the end unless the name is found. -/
theorem use_keys (ctx : UmcCtx) (u : PerfUse) :
    (ctx.use u).counters.map Umc.key =
      ctx.counters.map Umc.key ++ if ctx.umcGet u.id = none then [u.key] else [] := by
  rw [UmcCtx.use, write_keys]
  cases hfind : ctx.umcGet u.id with
  | some c =>
      rw [UmcCtx.umcNewCounter_of_some hfind, if_neg (Option.some_ne_none c), List.append_nil]
  | none =>
      rw [UmcCtx.umcNewCounter_of_none hfind, if_pos rfl, List.map_append]
      rfl

/-- The keys after a call are those before and the name of the call, cut off at the buffer. -/
theorem mem_use_keys (ctx : UmcCtx) (u : PerfUse) (k : CStr) :
    k ∈ (ctx.use u).counters.map Umc.key ↔ k ∈ ctx.counters.map Umc.key ∨ u.key = k := by
  rw [use_keys, List.mem_append]
  cases hfind : ctx.umcGet u.id with
  | none => rw [if_pos rfl, List.mem_singleton, eq_comm (a := k)]
  | some c =>
      have hid : u.key = u.id := PerfUse.key_of_fits (key_of_umcGet hfind ▸ c.key_length)
      have hmem : u.key ∈ ctx.counters.map Umc.key := by
        rw [hid, ← key_of_umcGet hfind]
        exact List.mem_map_of_mem (HashTable.mem_of_find hfind)
      rw [if_neg (Option.some_ne_none c)]
      constructor
      · exact fun h => h.imp_right fun hnil => absurd hnil List.not_mem_nil
      · rintro (hk | rfl)
        · exact .inl hk
        · exact .inl hmem

theorem count_use_keys {ctx : UmcCtx} {u : PerfUse} {k : CStr}
    (h : (ctx.counters.map Umc.key).count k ≤ 1) (hfits : u.key = k → u.id.length < umcNameMax) :
    ((ctx.use u).counters.map Umc.key).count k ≤ 1 := by
  rw [use_keys, List.count_append]
  split_ifs with hfind
  · by_cases hk : u.key = k
    · have hid : k = u.id := hk ▸ PerfUse.key_of_fits (hfits hk)
      have hnew : k ∉ ctx.counters.map Umc.key := HashTable.find_eq_none_iff.mp (hid ▸ hfind)
      rw [List.count_eq_zero_of_not_mem hnew, Nat.zero_add]
      exact List.count_le_length
    · rwa [List.count_singleton, if_neg (by simpa using hk), Nat.add_zero]
  · rwa [List.count_nil, Nat.add_zero]

theorem UmcCtx.Placed.use (h : ctx.Placed) (u : PerfUse) : (ctx.use u).Placed := by
  have hwrite : ∀ {ctx : UmcCtx}, ctx.Placed → ∀ p, (ctx.write p u.apply).Placed := fun h p => by
    have haddr : ∀ c : Umc, (if c.addr = p then u.apply c else c).addr = c.addr := fun c => by
      split_ifs
      · exact PerfUse.apply_addr c
      · rfl
    unfold UmcCtx.Placed at h ⊢
    simpa only [UmcCtx.write, HashTable.modify, List.map_map, Function.comp_def, haddr,
      List.length_map] using h
  apply hwrite
  cases hfind : ctx.umcGet u.id with
  | some c =>
      rw [UmcCtx.umcNewCounter_of_some hfind]
      exact h
  | none =>
      rw [UmcCtx.umcNewCounter_of_none hfind]
      unfold UmcCtx.Placed at h ⊢
      rw [List.map_append, h, List.length_append]
      exact List.range_succ.symm

/-- After a call the key has at most one counter, and the later calls' names fit. -/
theorem UmcCtx.Single.use {u : PerfUse} {call : LuaPerfCall} {calls : List LuaPerfCall}
    (h : ctx.Single (call :: calls) k) (huse : call.use = some u) : (ctx.use u).Single calls k := by
  rw [UmcCtx.Single, List.filterMap_cons_some huse] at h
  exact ⟨count_use_keys h.1 (h.2 u List.mem_cons_self),
    fun v hv => h.2 v (List.mem_cons_of_mem u hv)⟩

theorem UmcCtx.Single.skip {call : LuaPerfCall} {calls : List LuaPerfCall}
    (h : ctx.Single (call :: calls) k) (huse : call.use = none) : ctx.Single calls k := by
  rwa [UmcCtx.Single, List.filterMap_cons_none huse] at h

/-- The counter of a key after a sequence of calls. -/
theorem umcGet_foldl (h : ctx.Placed) {calls : List LuaPerfCall} {k : CStr}
    (hsingle : ctx.Single calls k) :
    ((calls.foldl UmcCtx.perfCall ctx).umcGet k).map Umc.forget = shown ctx calls k := by
  induction calls generalizing ctx with
  | nil => rfl
  | cons call calls ih =>
      rw [List.foldl_cons, perfCall_eq]
      cases huse : call.use with
      | none =>
          rw [Option.map_none, Option.getD_none, ih h (hsingle.skip huse), shown, shown,
            List.filterMap_cons_none huse]
      | some u =>
          have hfits : u.key = k → u.id.length < umcNameMax :=
            hsingle.2 u (List.mem_filterMap.mpr ⟨call, List.mem_cons_self, huse⟩)
          rw [Option.map_some, Option.getD_some, ih (h.use u) (hsingle.use huse), shown, shown,
            List.filterMap_cons_some huse, umcGet_use h u hfits]
          by_cases hk : u.key = k
          · rw [if_pos hk, List.filter_cons_of_pos (by simpa using hk), List.foldl_cons]
          · rw [if_neg hk, List.filter_cons_of_neg (by simpa using hk)]

/-- The key still has at most one counter after a sequence of calls. -/
theorem UmcCtx.Single.foldl {calls : List LuaPerfCall} (h : ctx.Single calls k) :
    ((calls.foldl UmcCtx.perfCall ctx).counters.map Umc.key).count k ≤ 1 := by
  induction calls generalizing ctx with
  | nil => exact h.1
  | cons call calls ih =>
      rw [List.foldl_cons, perfCall_eq]
      cases huse : call.use with
      | none => exact ih (h.skip huse)
      | some u => exact ih (h.use huse)

/-- The keys after a sequence of calls. -/
theorem mem_foldl_keys (ctx : UmcCtx) (calls : List LuaPerfCall) (k : CStr) :
    k ∈ (calls.foldl UmcCtx.perfCall ctx).counters.map Umc.key ↔
      k ∈ ctx.counters.map Umc.key ∨ k ∈ (calls.filterMap LuaPerfCall.use).map PerfUse.key := by
  induction calls generalizing ctx with
  | nil => simp
  | cons call calls ih =>
      rw [List.foldl_cons, perfCall_eq]
      cases huse : call.use with
      | none => rw [Option.map_none, Option.getD_none, ih, List.filterMap_cons_none huse]
      | some u =>
          rw [Option.map_some, Option.getD_some, ih, mem_use_keys, List.filterMap_cons_some huse,
            List.map_cons, List.mem_cons, eq_comm (a := k), or_assoc]

end Steps

section Result

variable {ν : Type*} {N : LuaNumbers ν} {fnmatch : CStr → CStr → Bool}

/-- A table that is filled row by row has the last row of each key. -/
theorem foldl_update_row (cs : List Umc) (k : CStr) :
    cs.foldl (fun (t : CStr → Option (PerfRow ν)) c =>
        Function.update t c.key (some (perfRow N c))) (fun _ => none) k =
      (HashTable.find Umc.key cs k).map (perfRow N) := by
  induction cs using List.reverseRecOn with
  | nil => rfl
  | append_singleton cs c ih =>
      have hadd := @HashTable.find_add _ _ _ Umc.key cs c k
      rw [HashTable.add] at hadd
      rw [List.foldl_append, List.foldl_cons, List.foldl_nil, hadd, Function.update_apply, ih]
      by_cases hk : k = c.key
      · rw [if_pos hk, if_pos hk.symm, Option.map_some]
      · rw [if_neg hk, if_neg (Ne.symm hk)]

/-- The counter of a key among those that match. -/
theorem find_umcMatch (ctx : UmcCtx) (ptrn k : CStr) :
    HashTable.find Umc.key (ctx.umcMatch fnmatch ptrn) k =
      if fnmatch ptrn k then ctx.umcGet k else none := by
  rw [UmcCtx.umcMatch, HashTable.find, ← List.filter_reverse, List.find?_filter]
  split_ifs with hmatch
  · refine congrArg (List.find? · ctx.counters.reverse) (funext fun c => ?_)
    apply decide_eq_decide.mpr
    refine ⟨fun hc => of_decide_eq_true hc.2, fun hk => ⟨?_, decide_eq_true hk⟩⟩
    rw [hk, hmatch]
  · refine List.find?_eq_none.mpr fun c _ hc => ?_
    obtain ⟨hmatched, hk⟩ := of_decide_eq_true hc
    exact hmatch (of_decide_eq_true hk ▸ hmatched)

end Result

/-- After every sequence of calls of `M.perf_inc` and `M.perf_set`, `M.perf_match` shows a counter
under the keys that match the pattern and are the name of a counter that was there or of a call, cut
off at the buffer of a counter. Where no longer name is cut off to the key it is the counter that
the calls for this name have made of the one that was there, and the only one under the key. -/
theorem perf_match_shows {ν : Type*} (N : LuaNumbers ν) (fnmatch : CStr → CStr → Bool)
    {ctx : UmcCtx} (h : ctx.Placed) (calls : List LuaPerfCall) (args : List PerfArg) :
    let ctx' := calls.foldl UmcCtx.perfCall ctx
    ∃ counter : CStr → Option Umc,
      (ctx'.minkLuaDoPerfMatch N fnmatch args =
        (perfMatchArgs args).map fun ptrn k =>
          if fnmatch ptrn k then (counter k).map (perfRow N) else none) ∧
      (∀ k, (counter k).isSome ↔ k ∈ ctx.counters.map Umc.key ∨
        k ∈ (calls.filterMap LuaPerfCall.use).map PerfUse.key) ∧
      ∀ k, ctx.Single calls k → counter k = shown ctx calls k ∧
        ∀ chain : List Umc, chain.Perm ctx'.counters →
          (chain.find? fun c => c.key = k).map Umc.forget = counter k := by
  intro ctx'
  refine ⟨fun k => (ctx'.umcGet k).map Umc.forget, ?_, fun k => ?_, fun k hsingle => ⟨?_, ?_⟩⟩
  · unfold UmcCtx.minkLuaDoPerfMatch
    refine congrArg (Option.map · (perfMatchArgs args)) ?_
    funext ptrn k
    rw [foldl_update_row, find_umcMatch]
    split_ifs with hmatch
    · rw [Option.map_map]
      rfl
    · rfl
  · rw [Option.isSome_map, ← mem_foldl_keys, Option.isSome_iff_ne_none]
    exact HashTable.find_eq_none_iff.not_left
  · exact umcGet_foldl h hsingle
  · exact fun chain hperm => congrArg (Option.map Umc.forget)
      (HashTable.find?_of_perm hperm hsingle.foldl)

/-- Numbers that are not rounded; a gauge has no rate. -/
def plainNumbers : LuaNumbers Nat := ⟨UInt64.toNat, 0, fun delta _ => delta.toNat⟩

def load : CStr := .ascii "load" (by decide)

/-- `M.perf_set("load", 7)`. -/
def setSeven : LuaPerfCall :=
  .set [⟨some load, none⟩, ⟨some (.ascii "7" (by decide)), some 7⟩] 0

theorem perf_match_shows_gauge :
    ∃ rows, ([setSeven].foldl UmcCtx.perfCall umcNewCtx).minkLuaDoPerfMatch plainNumbers
        (fun _ _ => true) [⟨some (.ascii "*" (by decide)), none⟩] = some rows ∧
      rows load = some ⟨7, some 7, none⟩ := by
  obtain ⟨counter, hshown, -, hsingle⟩ := @perf_match_shows Nat plainNumbers (fun _ _ => true)
    umcNewCtx rfl [setSeven] [⟨some (.ascii "*" (by decide)), none⟩]
  have hload : counter load = shown umcNewCtx [setSeven] load :=
    (hsingle load ⟨Nat.zero_le 1, by decide⟩).1
  have hrow : (shown umcNewCtx [setSeven] load).map (perfRow plainNumbers) =
      some ⟨7, some 7, none⟩ := rfl
  exact ⟨_, hshown, (congrArg (Option.map (perfRow plainNumbers)) hload).trans hrow⟩

end Umink.Umcounters
