import Mathlib.Algebra.Ring.Nat
import Mathlib.Data.List.Induction
import Mathlib.Order.Bounds.Basic
import Umink.Umcounters.Registry

/-!
# The history of a counter

Callers reach a counter through its name or through the pointer they keep. In
every run of a context a counter is what its own updates made of it, in their
order: the other counters and their callers do not matter.

## Implementation notes

The record beside the context holds the updates of every place. The calls with a
pointer are those with the pointer of a counter that is there.
-/

namespace Umink.Umcounters

open Umink.Library

/-- An update of a counter, with the reading of the clock. -/
inductive Update where
  | inc (val now : UInt64)
  | set (val now : UInt64)
  deriving DecidableEq, Repr

def Update.now : Update → UInt64
  | .inc _ now => now
  | .set _ now => now

/-- The counter after an update. -/
def Umc.apply (c : Umc) : Update → Umc
  | .inc val now => incValue val now c
  | .set val now => setValue val now c

/-- The counter as it was when it was created. -/
def Umc.created (c : Umc) : Umc := { c with values := ⟨⟨0, 0⟩, 0, 0, 0⟩ }

/-- The counter after its updates. -/
def Umc.run (c : Umc) (us : List Update) : Umc := us.foldl Umc.apply c

/-- A call on a context or on a counter of it. -/
inductive Operation where
  | call (a : Call)
  | inc (c : Nat) (val now : UInt64)
  | set (c : Nat) (val now : UInt64)

namespace UmcCtx

/-- The context after an operation. -/
def operate (ctx : UmcCtx) : Operation → Option UmcCtx
  | .call a => some (ctx.call a).1
  | .inc c val now => if c < ctx.counters.length then some (ctx.umcInc c val now) else none
  | .set c val now => if c < ctx.counters.length then some (ctx.umcSet c val now) else none

/-- The counter that an operation updates, and how. -/
def target (ctx : UmcCtx) : Operation → Option (Nat × Update)
  | .call (.newCounter _ _) => none
  | .call (.get _) => none
  | .call (.getInc id val now) => (ctx.umcGet id).map fun c => (c.addr, .inc val now)
  | .call (.getSet id val now) => (ctx.umcGet id).map fun c => (c.addr, .set val now)
  | .call (.perfInc id inc now) =>
      some ((ctx.umcNewCounter id .incremental).2, .inc (UInt64.ofInt inc) now)
  | .inc c val now => some (c, .inc val now)
  | .set c val now => some (c, .set val now)

end UmcCtx

/-- The updates of the counter at each place. -/
abbrev Log := Nat → List Update

/-- Note the update of an operation. -/
def record (ctx : UmcCtx) (log : Log) (o : Operation) : Log :=
  match ctx.target o with
  | some (p, u) => Function.update log p (log p ++ [u])
  | none => log

/-- A context with the updates of its counters. -/
abbrev operateLogged : UmcCtx × Log → Operation → Option (UmcCtx × Log) :=
  Trace.ghost UmcCtx.operate record

section Apply

variable (c : Umc) (u : Update)

@[simp] theorem updateValue_type (val now : UInt64) : (updateValue c val now).type = c.type := by
  unfold updateValue
  dsimp only
  split_ifs <;> rfl

@[simp] theorem updateValue_created (val now : UInt64) :
    (updateValue c val now).created = c.created := by
  unfold updateValue
  dsimp only
  split_ifs <;> rfl

@[simp] theorem apply_created : (c.apply u).created = c.created := by
  cases u with
  | inc val now => exact updateValue_created c _ now
  | set val now => exact updateValue_created c val now

@[simp] theorem apply_addr : (c.apply u).addr = c.addr := by
  cases u with
  | inc val now => exact incValue_addr val now c
  | set val now => exact setValue_addr val now c

@[simp] theorem apply_key : (c.apply u).key = c.key := by
  cases u with
  | inc val now => exact incValue_key val now c
  | set val now => exact setValue_key val now c

@[simp] theorem apply_type : (c.apply u).type = c.type := by
  cases u with
  | inc val now => exact updateValue_type c _ now
  | set val now => exact updateValue_type c val now

@[simp] theorem run_nil : c.run [] = c := rfl

@[simp] theorem run_concat (us : List Update) : c.run (us ++ [u]) = (c.run us).apply u := by
  rw [Umc.run, List.foldl_append]
  rfl

@[simp] theorem run_type (us : List Update) : (c.run us).type = c.type := by
  induction us using List.reverseRecOn with
  | nil => rfl
  | append_singleton us u ih => rw [run_concat, apply_type, ih]

end Apply

/-- Every counter of the context is a new one after the updates of its place. -/
structure Logged (s : UmcCtx × Log) : Prop where
  places : s.1.counters.map Umc.addr = List.range s.1.counters.length
  counter : ∀ c ∈ s.1.counters, c = c.created.run (s.2 c.addr)
  unborn : ∀ p, s.1.counters.length ≤ p → s.2 p = []

theorem logged_new : Logged (umcNewCtx, fun _ => []) where
  places := rfl
  counter := by simp [umcNewCtx]
  unborn := fun _ _ => rfl

section Steps

variable {ctx : UmcCtx} {log : Log}

theorem Logged.addr_lt (h : Logged (ctx, log)) {c : Umc} (hc : c ∈ ctx.counters) :
    c.addr < ctx.counters.length := by
  rw [← List.mem_range, ← h.places]
  exact List.mem_map_of_mem hc

/-- A new counter has no updates yet. -/
theorem Logged.newCounter (h : Logged (ctx, log)) (id : CStr) (type : UmcType) :
    Logged ((ctx.umcNewCounter id type).1, log) ∧
      (ctx.umcNewCounter id type).2 < (ctx.umcNewCounter id type).1.counters.length := by
  cases hfind : HashTable.find Umc.key ctx.counters id with
  | some c =>
      rw [UmcCtx.umcNewCounter_of_some hfind]
      exact ⟨h, h.addr_lt (HashTable.mem_of_find hfind)⟩
  | none =>
      have hlog : log ctx.counters.length = [] := h.unborn _ (Nat.le_refl _)
      rw [UmcCtx.umcNewCounter_of_none hfind]
      refine ⟨⟨?_, ?_, ?_⟩, ?_⟩
      · rw [List.length_append, List.map_append, h.places]
        exact List.range_succ.symm
      · intro c hc
        obtain hc | hc := List.mem_append.mp hc
        · exact h.counter c hc
        · obtain rfl := List.mem_singleton.mp hc
          change _ = (Umc.fresh ctx.counters.length id type).run (log ctx.counters.length)
          rw [hlog, run_nil]
      · intro p hp
        rw [List.length_append, List.length_singleton] at hp
        exact h.unborn p (Nat.le_of_succ_le hp)
      · rw [List.length_append]
        exact Nat.lt_succ_self _

/-- An update of the counter at a place. -/
theorem Logged.write (h : Logged (ctx, log)) {p : Nat} (hp : p < ctx.counters.length)
    (u : Update) :
    Logged (ctx.write p fun c => c.apply u, Function.update log p (log p ++ [u])) := by
  have haddr : ∀ c : Umc, (if c.addr = p then c.apply u else c).addr = c.addr := fun c => by
    split_ifs
    · exact apply_addr c u
    · rfl
  refine ⟨?_, ?_, ?_⟩
  · simpa only [UmcCtx.write, HashTable.modify, List.map_map, Function.comp_def, haddr,
      List.length_map] using h.places
  · intro d hd
    obtain ⟨c, hc, rfl⟩ := List.mem_map.mp hd
    have hrun : c = c.created.run (log c.addr) := h.counter c hc
    dsimp only
    rw [haddr]
    by_cases heq : c.addr = p
    · rw [if_pos heq, heq, Function.update_self, run_concat, apply_created, ← heq, ← hrun]
    · rw [if_neg heq, Function.update_of_ne heq]
      exact hrun
  · intro q hq
    have hlength : (ctx.write p fun c => c.apply u).counters.length = ctx.counters.length :=
      List.length_map _
    rw [hlength] at hq
    dsimp only
    rw [Function.update_of_ne (Nat.ne_of_gt (Nat.lt_of_lt_of_le hp hq))]
    exact h.unborn q hq

/-- An update through the name of a counter, if there is one. -/
theorem Logged.getWrite (h : Logged (ctx, log)) (id : CStr) (u : Update) :
    Logged ((ctx.getWrite id fun c => c.apply u).1,
      match (ctx.umcGet id).map fun c => (c.addr, u) with
      | some (p, u) => Function.update log p (log p ++ [u])
      | none => log) := by
  unfold UmcCtx.getWrite
  cases hget : ctx.umcGet id with
  | some c => exact h.write (h.addr_lt (HashTable.mem_of_find hget)) u
  | none => exact h

theorem Logged.operate (h : Logged (ctx, log)) {o : Operation} {t : UmcCtx × Log}
    (hst : operateLogged (ctx, log) o = some t) : Logged t := by
  obtain ⟨ctx', log'⟩ := t
  obtain ⟨hctx, hlog⟩ := Trace.ghost_eq_some_iff.mp hst
  subst hlog
  cases o with
  | call a =>
      obtain rfl := Option.some.inj hctx
      cases a with
      | newCounter id type => exact (h.newCounter id type).1
      | get id => exact h
      | getInc id val now => exact h.getWrite id (.inc val now)
      | getSet id val now => exact h.getWrite id (.set val now)
      | perfInc id inc now =>
          obtain ⟨hnew, hplace⟩ := h.newCounter id .incremental
          exact hnew.write hplace (.inc (UInt64.ofInt inc) now)
  | inc c val now =>
      obtain ⟨hp, hctx⟩ := Option.ite_none_right_eq_some.mp hctx
      obtain rfl := Option.some.inj hctx
      exact h.write hp (.inc val now)
  | set c val now =>
      obtain ⟨hp, hctx⟩ := Option.ite_none_right_eq_some.mp hctx
      obtain rfl := Option.some.inj hctx
      exact h.write hp (.set val now)

/-- In every run a counter is a new one after its own updates. -/
theorem logged_of_exec {ops : List Operation} {s : UmcCtx × Log}
    (h : Trace.exec operateLogged (umcNewCtx, fun _ => []) ops = some s) : Logged s :=
  Trace.exec_invariant (fun _ _ _ hs hst => hs.operate hst) logged_new h

end Steps

end Umink.Umcounters
