import Umink.Lua.LockBalance

/-!
# Arguments of nested signals

The input data of the active scripts of a thread stand in its `mink_stdd` table
under the numbers 1 to `Lref`, the innermost script last. `M.get_args` finds the
data of the running script through the length of the table.

## Implementation notes

Scripts leave the registry alone. The length of a table is any border of it: an
entry that the next number has none after.
-/

namespace Umink.Lua

open Umink.Library Umink.Plugin

variable {τ δ : Type*}

/-- The `mink_stdd` table of a thread. -/
def LuaThread.stdd (th : LuaThread δ) : Nat → Option δ :=
  match th.lua with
  | some L => L.stdd
  | none => fun _ => none

/-- The stack height of a thread. -/
def LuaThread.top (th : LuaThread δ) : Nat :=
  match th.lua with
  | some L => L.top
  | none => 0

/-- What `lua_rawlen` may return for a table. -/
def IsBorder (stdd : Nat → Option δ) (tl : Nat) : Prop :=
  (tl = 0 ∨ (stdd tl).isSome) ∧ stdd (tl + 1) = none

/-- `mink_lua_get_args` with the length of the table: the input data whose rows it
returns. -/
def minkLuaGetArgs (stdd : Nat → Option δ) (tl : Nat) : Option δ :=
  if tl = 0 then none else stdd tl

/-- The input data of the `i`-th activation, counted from the outermost one. -/
def argsEntry (frames : List (Frame δ)) (i : Nat) : Option δ :=
  if i = 0 then none else (frames.reverse.map Frame.dIn)[i - 1]?

theorem argsEntry_cons (f : Frame δ) (fs : List (Frame δ)) (i : Nat) :
    argsEntry (f :: fs) i = if i = fs.length + 1 then some f.dIn else argsEntry fs i := by
  unfold argsEntry
  rcases i with _ | i
  · simp
  · rw [List.reverse_cons, List.map_append, List.getElem?_append]
    simp only [Nat.add_one_ne_zero, if_false, Nat.add_sub_cancel, List.length_map,
      List.length_reverse, Nat.add_right_cancel_iff]
    by_cases hi : i < fs.length
    · rw [if_pos hi, if_neg (Nat.ne_of_lt hi)]
    · rw [if_neg hi]
      by_cases heq : i = fs.length
      · rw [if_pos heq, heq, Nat.sub_self]
        rfl
      · have hnone : (fs.reverse.map Frame.dIn)[i]? = none :=
          List.getElem?_eq_none (by simp; omega)
        rw [if_neg heq, hnone]
        exact List.getElem?_eq_none (by simp; omega)

theorem argsEntry_isSome_iff (frames : List (Frame δ)) (i : Nat) :
    (argsEntry frames i).isSome ↔ 1 ≤ i ∧ i ≤ frames.length := by
  unfold argsEntry
  split
  case isTrue h => simp [h]
  case isFalse h =>
      rw [Option.isSome_iff_ne_none, ne_eq, List.getElem?_eq_none_iff, List.length_map,
        List.length_reverse]
      omega

/-- The table of a sequence of activations has one border, the number of them. -/
theorem isBorder_argsEntry_iff (frames : List (Frame δ)) (tl : Nat) :
    IsBorder (argsEntry frames) tl ↔ tl = frames.length := by
  have hnext : argsEntry frames (tl + 1) = none ↔ frames.length ≤ tl := by
    rw [← Option.not_isSome_iff_eq_none, argsEntry_isSome_iff]
    omega
  rw [IsBorder, hnext, argsEntry_isSome_iff]
  omega

theorem argsEntry_congr {frames frames' : List (Frame δ)}
    (h : frames'.map Frame.dIn = frames.map Frame.dIn) : argsEntry frames' = argsEntry frames := by
  ext i : 1
  simp only [argsEntry, List.map_reverse, h]

/-- `Lref`, the table and the stack of a thread are those of its activations. -/
structure ArgsInv (th : LuaThread δ) : Prop where
  lref : th.lref = th.frames.length
  stdd : th.stdd = argsEntry th.frames
  top : th.top = th.frames.length

theorem argsInv_start : ArgsInv (⟨none, 0, [], none, none⟩ : LuaThread δ) where
  lref := rfl
  stdd := by
    ext i : 1
    have hnone := (argsEntry_isSome_iff ([] : List (Frame δ)) i).not
    rw [Option.not_isSome_iff_eq_none] at hnone
    exact (hnone.mpr (by simp; omega)).symm
  top := rfl

/-- The invariant only reads the input data of the activations. -/
theorem ArgsInv.congr {th th' : LuaThread δ} (h : ArgsInv th) (hlref : th'.lref = th.lref)
    (hstdd : th'.stdd = th.stdd) (htop : th'.top = th.top)
    (hframes : th'.frames.map Frame.dIn = th.frames.map Frame.dIn) : ArgsInv th' := by
  have hlen : th'.frames.length = th.frames.length := by
    simpa only [List.length_map] using congrArg List.length hframes
  refine ⟨?_, ?_, ?_⟩
  · rw [hlref, hlen, h.lref]
  · rw [hstdd, argsEntry_congr hframes, h.stdd]
  · rw [htop, hlen, h.top]

/-- The running script reads its own input data. -/
theorem ArgsInv.getArgs {th : LuaThread δ} (h : ArgsInv th) {f : Frame δ} {fs : List (Frame δ)}
    (hframes : th.frames = f :: fs) {tl : Nat} (htl : IsBorder th.stdd tl) :
    minkLuaGetArgs th.stdd tl = some f.dIn := by
  rw [h.stdd, isBorder_argsEntry_iff, hframes, List.length_cons] at htl
  rw [minkLuaGetArgs, if_neg (by omega), h.stdd, hframes, htl, argsEntry_cons, if_pos rfl]

section LuaState

theorem preload_stdd (L : LuaState δ) (sh : LuaSh) (load : LoadRes) :
    (L.preload sh load).1.stdd = L.stdd ∧ (L.preload sh load).1.top = L.top := by
  unfold LuaState.preload
  dsimp only
  split_ifs <;> simp [LuaState.push, LuaState.pop]

@[simp] theorem setArgs_top (L : LuaState δ) (i : Nat) (dIn : Option δ) :
    (L.setArgs i dIn).top = L.top := by
  simp [LuaState.setArgs, LuaState.push, LuaState.pop]

theorem getD_stdd (th : LuaThread δ) : (th.lua.getD LuaState.setup).stdd = th.stdd := by
  unfold LuaThread.stdd
  cases th.lua <;> rfl

theorem getD_top (th : LuaThread δ) : (th.lua.getD LuaState.setup).top = th.top := by
  unfold LuaThread.top
  cases th.lua <;> rfl

/-- A new state has the table and the stack that a thread without one counts as having. -/
theorem getState_stdd {th : LuaThread δ} {created : Bool} {L : LuaState δ}
    (h : th.getState created = some L) : L.stdd = th.stdd ∧ L.top = th.top := by
  have hL : L = th.lua.getD LuaState.setup := by
    unfold LuaThread.getState at h
    cases hlua : th.lua with
    | some L₀ =>
        rw [hlua] at h
        exact (Option.some.inj h).symm
    | none =>
        rw [hlua] at h
        cases created with
        | true => exact (Option.some.inj h).symm
        | false => simp at h
  rw [hL]
  exact ⟨getD_stdd th, getD_top th⟩

end LuaState

namespace Engine

variable [DecidableEq τ] {signals : Signals LuaSigArgs} {e e' : Engine τ δ} {t : τ}

theorem countCall_dIn (fs : List (Frame δ)) :
    (countCall fs).map Frame.dIn = fs.map Frame.dIn := by
  cases fs <;> rfl

theorem argsInv_enter (h : ArgsInv (e.threads t)) (id : String) (dIn : δ) (usrFlags : Int)
    (created : Bool) (load : LoadRes) :
    ArgsInv ((e.enter signals t id dIn usrFlags created load).threads t) := by
  have hcount := countCall_dIn (e.threads t).frames
  unfold enter
  dsimp only
  cases umplgProcSignal signals (some id) usrFlags with
  | error code =>
      rw [setThread_self]
      exact h.congr rfl rfl rfl hcount
  | ok sh =>
      cases hstate : (e.threads t).getState created with
      | none =>
          dsimp only
          rw [setThread_self]
          exact h.congr rfl rfl rfl hcount
      | some L =>
          obtain ⟨hstdd, htop⟩ := getState_stdd hstate
          obtain ⟨hstdd', htop'⟩ := preload_stdd L sh load
          dsimp only
          split <;> rw [setThread_self] <;>
            exact h.congr rfl (hstdd'.trans hstdd) (htop'.trans htop) hcount

theorem argsInv_rejectCall (h : ArgsInv (e.threads t)) (sh : LuaSh) (mtx : RecMutex τ) :
    ArgsInv ((e.rejectCall t sh mtx).threads t) := by
  rw [rejectCall, setThread_self]
  exact h.congr rfl rfl rfl rfl

theorem argsInv_failLoad (h : ArgsInv (e.threads t)) (sh : LuaSh) (mtx : RecMutex τ) :
    ArgsInv ((e.failLoad t sh mtx).threads t) := by
  rw [failLoad, setThread_self]
  refine h.congr rfl (getD_stdd _) ?_ rfl
  -- the error message is pushed and popped
  exact (Nat.add_sub_cancel _ 1).trans (getD_top _)

theorem argsInv_startScript (h : ArgsInv (e.threads t)) (sh : LuaSh) (dIn : δ)
    (mtx : RecMutex τ) : ArgsInv ((e.startScript t sh dIn mtx).threads t) := by
  rw [startScript, setThread_self]
  refine ⟨congrArg (· + 1) h.lref, ?_, ?_⟩
  · ext i : 1
    calc Function.update ((e.threads t).lua.getD LuaState.setup).stdd
          ((e.threads t).lref + 1) (some dIn) i
        = if i = (e.threads t).frames.length + 1 then some dIn
          else argsEntry (e.threads t).frames i := by
            rw [getD_stdd, h.stdd, h.lref, Function.update_apply]
      _ = argsEntry (⟨sh, dIn, 0⟩ :: (e.threads t).frames) i :=
            (argsEntry_cons ⟨sh, dIn, 0⟩ (e.threads t).frames i).symm
  · calc ((((e.threads t).lua.getD LuaState.setup).push 1).setArgs _ (some dIn)).top
        = (e.threads t).top + 1 := by rw [setArgs_top, ← getD_top]; rfl
      _ = (e.threads t).frames.length + 1 := by rw [h.top]

theorem argsInv_leave {f : Frame δ} {fs : List (Frame δ)} (h : ArgsInv (e.threads t))
    (hframes : (e.threads t).frames = f :: fs) (res : LuaResult) :
    ArgsInv ((e.leave t f fs res).threads t) := by
  have hlref : (e.threads t).lref = fs.length + 1 := by rw [h.lref, hframes, List.length_cons]
  rw [leave, setThread_self]
  refine ⟨by simp only [hlref, Nat.add_sub_cancel], ?_, ?_⟩
  · ext i : 1
    have hpast : argsEntry fs (fs.length + 1) = none := by
      rw [← Option.not_isSome_iff_eq_none, argsEntry_isSome_iff]
      omega
    calc Function.update ((e.threads t).lua.getD LuaState.setup).stdd (e.threads t).lref none i
        = if i = fs.length + 1 then none else argsEntry (f :: fs) i := by
            rw [getD_stdd, h.stdd, hframes, hlref, Function.update_apply]
      _ = argsEntry fs i := by
            rw [argsEntry_cons]
            split
            · next hi => rw [hi, hpast]
            · rfl
  · calc ((((e.threads t).lua.getD LuaState.setup).setArgs _ none).pop 1).top
        = (e.threads t).top - 1 := by rw [← getD_top]; exact congrArg (· - 1) (setArgs_top _ _ _)
      _ = fs.length := by rw [h.top, hframes, List.length_cons, Nat.add_sub_cancel]

theorem argsInv_locked (h : ArgsInv (e.threads t)) (sh : LuaSh) (dIn : δ) (mtx : RecMutex τ)
    (load : LoadRes) : ArgsInv ((e.locked t sh dIn mtx load).threads t) := by
  unfold locked
  split
  · exact argsInv_rejectCall h sh mtx
  · split
    · exact argsInv_failLoad h sh mtx
    · exact argsInv_startScript h sh dIn mtx

/-- The actions of a thread leave the other threads alone. -/
theorem step_other {act : Act δ} (h : e.step signals (t, act) = some e') {u : τ} (hu : u ≠ t) :
    e'.threads u = e.threads u := by
  cases step_effect h with
  | entered hwait heff => exact heff.other u hu
  | rejected hwait hfree hrun heff => exact heff.other u hu
  | loadFailed hwait hfree hfail heff => exact heff.other u hu
  | started hwait hfree hrun hload heff => exact heff.other u hu
  | left hwait heff => exact heff.other u hu

theorem argsInv_step (hinv : ∀ t, ArgsInv (e.threads t)) {a : τ × Act δ}
    (h : e.step signals a = some e') (u : τ) : ArgsInv (e'.threads u) := by
  obtain ⟨t, act⟩ := a
  by_cases hu : u = t
  · subst hu
    have hself := hinv u
    cases act with
    | call id dIn usrFlags created load =>
        cases hw : (e.threads u).wait with
        | some w => simp [step, hw] at h
        | none =>
            simp only [step, hw, Option.some.injEq] at h
            exact h ▸ argsInv_enter hself id dIn usrFlags created load
    | lock load =>
        cases hw : (e.threads u).wait with
        | none => simp [step, hw] at h
        | some w =>
            simp only [step, hw, Option.map_eq_some_iff] at h
            obtain ⟨mtx, -, he⟩ := h
            exact he ▸ argsInv_locked hself w.1 w.2 mtx load
    | finish failed res =>
        cases hw : (e.threads u).wait with
        | some w => simp [step, hw] at h
        | none =>
            cases hf : (e.threads u).frames with
            | nil => simp [step, hw, hf] at h
            | cons f fs =>
                simp only [step, hw, hf, Option.some.injEq] at h
                exact h ▸ argsInv_leave hself hf res
  · rw [step_other h hu]
    exact hinv u

theorem argsInv_reachable (h : Trace.Reachable (step signals) start e) (t : τ) :
    ArgsInv (e.threads t) :=
  h.invariant (I := fun s => ∀ t, ArgsInv (s.threads t)) (fun _ => argsInv_start)
    (fun _ _ _ hs hst => argsInv_step hs hst) t

/-- At every moment of a run of any number of threads the table of a thread holds
the entries 1 to `Lref`, the input data of its activations from the outermost
one, the running script reads its own input data, and every call leaves `Lref`,
the table and the stack as it found them. -/
theorem get_args_own {before : List (τ × Act δ)}
    (h : Trace.exec (step signals) start before = some e) (t : τ) :
    (e.threads t).lref = (e.threads t).frames.length ∧
    (∀ i, (e.threads t).stdd i =
      if 1 ≤ i ∧ i ≤ (e.threads t).lref then
        ((e.threads t).frames.reverse.map Frame.dIn)[i - 1]?
      else none) ∧
    (∀ f fs, (e.threads t).frames = f :: fs →
      ∀ tl, IsBorder (e.threads t).stdd tl →
        minkLuaGetArgs (e.threads t).stdd tl = some f.dIn) ∧
    ∀ id dIn usrFlags created load inner e',
      IsCall signals e t id dIn usrFlags created load inner e' →
      (e'.threads t).lref = (e.threads t).lref ∧ (e'.threads t).stdd = (e.threads t).stdd ∧
        (e'.threads t).top = (e.threads t).top := by
  have hinv := argsInv_reachable ⟨before, h⟩ t
  refine ⟨hinv.lref, ?_, ?_, ?_⟩
  · intro i
    rw [hinv.stdd, hinv.lref]
    split
    case isTrue hi => rw [argsEntry, if_neg (by omega)]
    case isFalse hi =>
        rw [← Option.not_isSome_iff_eq_none, argsEntry_isSome_iff]
        exact hi
  · exact fun f fs hframes tl htl => hinv.getArgs hframes htl
  · intro id dIn usrFlags created load inner e' hcall
    have hinv' := argsInv_reachable ((Trace.Reachable.of_exec ⟨before, h⟩ hcall.run)) t
    have hdata : (e'.threads t).frames.map Frame.dIn = (e.threads t).frames.map Frame.dIn :=
      hcall.proj_eq fun _ dIn => dIn
    have hlen : (e'.threads t).frames.length = (e.threads t).frames.length := by
      simpa only [List.length_map] using congrArg List.length hdata
    refine ⟨?_, ?_, ?_⟩
    · rw [hinv'.lref, hinv.lref, hlen]
    · rw [hinv'.stdd, hinv.stdd, argsEntry_congr hdata]
    · rw [hinv'.top, hinv.top, hlen]

/-- A script that calls its own signal reads its input data, and the rejected
call leaves `Lref` at one. -/
theorem get_args_own_rejected :
    ∃ e e' : Engine Nat Nat,
      minkLuaGetArgs (e.threads 0).stdd 1 = some 10 ∧
      IsCall [LuaSh.basic "A" false] e 0 "A" 20 0 true .ok [(0, .lock .ok)] e' ∧
      (e'.threads 0).lref = 1 := by
  have hrun : Trace.exec (step [LuaSh.basic "A" false]) (start : Engine Nat Nat)
      [(0, .call "A" 10 0 true .ok), (0, .lock .ok)] = some _ := rfl
  obtain ⟨-, -, hown, hcalls⟩ := get_args_own hrun 0
  have hargs := hown ⟨LuaSh.basic "A" false, 10, 0⟩ [] rfl 1 ⟨Or.inr rfl, rfl⟩
  refine ⟨_, _, hargs, ⟨rfl, by decide, by decide⟩, ?_⟩
  exact (hcalls "A" 20 0 true .ok [(0, .lock .ok)] _ ⟨rfl, by decide, by decide⟩).1

end Engine

end Umink.Lua
