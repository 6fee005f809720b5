import Umink.Lua.SignalCalls

/-!
# The Lua stack of a signal

The engine, which only counts what is on the stack of a thread and knows which scripts are in its
cache, is what the handler does through the Lua interface: the relation of the two is kept by every
action of every thread.
-/

namespace Umink.Lua

open Umink.Library Umink.Plugin StackMachine

variable {δ : Type*}

/-- Each activation runs the chunk of its signal's script, called by a C function whose stack is as
the function was called; the outermost one is called on the empty stack. -/
inductive FramesRel : List (Frame δ) → List (Value (LuaAtom δ) × CFunc δ) → Prop
  | nil : FramesRel [] []
  | cons {f fs gs args} (h : FramesRel fs gs) (hargs : gs = [] → args = []) :
      FramesRel (f :: fs) ((.atom (.chunk f.sh.args.env.path), ⟨args, args⟩) :: gs)

/-- The Lua state of the thread of the engine and that of the interface, between two calls. -/
structure StateRel (signals : Signals LuaSigArgs) (th : LuaThread δ) (api : ApiThread δ) :
    Prop where
  state : Option.Rel (fun L heap => ∃ s c, SigTables signals L heap s c) th.lua api.heap
  lref : api.lref = th.lref
  base : api.base = []
  frames : FramesRel th.frames api.frames
  live : th.lua = none → th.frames = []

/-- The thread of the interface is the thread of the engine: the stack of every C function is as the
function was called, when it waits for the mutex, while its script runs and when the handler has
returned. -/
structure Implements (signals : Signals LuaSigArgs) (th : LuaThread δ) (api : ApiThread δ) : Prop
    extends StateRel signals th api where
  wait : Option.Rel (fun w w' => w'.1 = w ∧ Engine.Ready signals th w.1 ∧ w'.2.stack = w'.2.args ∧
    (api.frames = [] → w'.2.args = [])) th.wait api.wait
  last : Option.Rel (fun out r => r.2 = out ∧ r.1.stack = r.1.args) th.last api.last

section Related

variable {α β : Type*} {r : α → β → Prop} {a : α} {b : Option β}

theorem eq_none_of_rel (h : Option.Rel r none b) : b = none := by
  cases h
  rfl

theorem eq_some_of_rel (h : Option.Rel r (some a) b) : ∃ b', b = some b' ∧ r a b' := by
  cases h with
  | some h => exact ⟨_, rfl, h⟩

end Related

section Simulation

variable [DecidableEq δ] {signals : Signals LuaSigArgs} {mqtt : Bool} {th th' : LuaThread δ}
  {api : ApiThread δ} {args : List (Value (LuaAtom δ))}

omit [DecidableEq δ] in
theorem implements_start : Implements signals (⟨none, 0, [], none, none⟩ : LuaThread δ) .start where
  state := .none
  lref := rfl
  base := rfl
  frames := .nil
  live _ := rfl
  wait := .none
  last := .none

omit [DecidableEq δ] in
theorem FramesRel.countCall {fs : List (Frame δ)} {gs : List (Value (LuaAtom δ) × CFunc δ)}
    (h : FramesRel fs gs) : FramesRel (Engine.countCall fs) gs := by
  cases h with
  | nil => exact .nil
  | cons h hargs => exact .cons h hargs

omit [DecidableEq δ] in
theorem StateRel.heap_eq_some (h : StateRel signals th api) {L : LuaState δ}
    (hlua : th.lua = some L) :
    ∃ heap s c, api.heap = some heap ∧ SigTables signals L heap s c := by
  obtain ⟨heap, hheap, s, c, htables⟩ := eq_some_of_rel (hlua ▸ h.state)
  exact ⟨heap, s, c, hheap, htables⟩

omit [DecidableEq δ] in
theorem StateRel.heap_eq_none (h : StateRel signals th api) (hlua : th.lua = none) :
    api.heap = none :=
  eq_none_of_rel (hlua ▸ h.state)

omit [DecidableEq δ] in
/-- The relation of the states does not read what the last call returned. -/
theorem StateRel.countCall (h : StateRel signals th api)
    (hlua : th'.lua = th.lua) (hlref : th'.lref = th.lref)
    (hframes : th'.frames = Engine.countCall th.frames) : StateRel signals th' api where
  state := hlua ▸ h.state
  lref := h.lref.trans hlref.symm
  base := h.base
  frames := hframes ▸ h.frames.countCall
  live hnone := by
    rw [hframes, h.live (hlua ▸ hnone)]
    rfl

omit [DecidableEq δ] in
/-- The handler returns to a C function with the stack as it was. -/
theorem StateRel.ret (h : StateRel signals th api) (hwait : th.wait = none)
    (hargs : api.frames = [] → args = []) {out : UmplgRet × Option String}
    (hlast : th.last = some out) : Implements signals th (api.ret ⟨args, args⟩ out) where
  state := h.state
  lref := h.lref
  base := by
    cases hframes : api.frames with
    | nil =>
        rw [ApiThread.ret, hframes]
        exact hargs hframes
    | cons g gs =>
        rw [ApiThread.ret, hframes]
        exact h.base
  frames := h.frames
  live := h.live
  wait := hwait ▸ .none
  last := hlast ▸ .some ⟨rfl, rfl⟩

omit [DecidableEq δ] in
/-- The tables of the state are written. -/
theorem StateRel.write (h : StateRel signals th api) {L : LuaState δ} {heap : Heap (LuaAtom δ)}
    {s c : Nat} (htables : SigTables signals L heap s c) (hlua : th'.lua = some L)
    (hlref : th'.lref = th.lref) (hframes : th'.frames = th.frames) :
    StateRel signals th' { api with heap := some heap } where
  state := hlua ▸ .some ⟨s, c, htables⟩
  lref := h.lref.trans hlref.symm
  base := h.base
  frames := hframes ▸ h.frames
  live hnone := nomatch hlua.symm.trans hnone

/-- The thread after the lookup in the cache: it waits for the mutex, or the call has returned. -/
def afterPreload (th : LuaThread δ) (sh : LuaSh) (dIn : δ) (pre : LuaState δ × Bool) :
    LuaThread δ :=
  if pre.2 then { th with lua := some pre.1, wait := some (sh, dIn) }
  else { th with lua := some pre.1, last := some (.sigSetupFailed, none) }

theorem implements_enterState (h : StateRel signals th api) (hwait : th.wait = none)
    (hlast : Option.Rel (fun out r => r.2 = out ∧ r.1.stack = r.1.args) th.last api.last)
    (hargs : api.frames = [] → args = []) {L : LuaState δ} {heap : Heap (LuaAtom δ)} {s c : Nat}
    (htables : SigTables signals L heap s c) {sh : LuaSh} (hfind : signals.find sh.id = some sh)
    (dIn : δ) (load : LoadRes) :
    ∃ api', api.enterState sh dIn load args (onStack heap [] args) = some api' ∧
      Implements signals (afterPreload th sh dIn (L.preload sh load)) api' := by
  obtain ⟨heap', hpre, htables'⟩ := preloadCalls_eq htables hfind load args
  have hmem := Engine.preload_mem L sh load
  unfold ApiThread.enterState afterPreload
  rw [hpre]
  cases hloaded : (L.preload sh load).2 with
  | true =>
      rw [if_pos rfl]
      refine ⟨_, rfl, ?_⟩
      have hstate : StateRel signals
          { th with lua := some (L.preload sh load).1, wait := some (sh, dIn) }
          { api with heap := some heap' } := h.write htables' rfl rfl rfl
      exact {
        state := hstate.state
        lref := hstate.lref
        base := hstate.base
        frames := hstate.frames
        live := hstate.live
        wait := .some ⟨rfl, ⟨hfind, _, rfl, hmem hloaded⟩, rfl, hargs⟩
        last := hlast }
  | false =>
      rw [if_neg Bool.false_ne_true]
      refine ⟨_, rfl, ?_⟩
      have hstate : StateRel signals
          { th with lua := some (L.preload sh load).1, last := some (.sigSetupFailed, none) }
          { api with heap := some heap' } := h.write htables' rfl rfl rfl
      exact hstate.ret hwait hargs rfl

omit [DecidableEq δ] in
theorem Implements.wait_eq_none (h : Implements signals th api) (hwait : th.wait = none) :
    api.wait = none :=
  eq_none_of_rel (hwait ▸ h.wait)

omit [DecidableEq δ] in
theorem Implements.wait_eq_some (h : Implements signals th api) {sh : LuaSh} {dIn : δ}
    (hwait : th.wait = some (sh, dIn)) :
    ∃ args, api.wait = some ((sh, dIn), ⟨args, args⟩) ∧ Engine.Ready signals th sh ∧
      (api.frames = [] → args = []) := by
  obtain ⟨⟨w, args, stack⟩, hwait', rfl, hready, hstack, hargs⟩ :=
    eq_some_of_rel (hwait ▸ h.wait)
  obtain rfl : stack = args := hstack
  exact ⟨_, hwait', hready, hargs⟩

omit [DecidableEq δ] in
theorem Implements.frames_eq_cons (h : Implements signals th api) {f : Frame δ}
    {fs : List (Frame δ)} (hframes : th.frames = f :: fs) :
    ∃ gs args, api.frames = (.atom (.chunk f.sh.args.env.path), ⟨args, args⟩) :: gs ∧
      FramesRel fs gs ∧ (gs = [] → args = []) := by
  have hrel := h.frames
  rw [hframes] at hrel
  cases hframes' : api.frames with
  | nil =>
      rw [hframes'] at hrel
      cases hrel
  | cons g gs =>
      rw [hframes'] at hrel
      cases hrel with
      | cons hrel hargs => exact ⟨gs, _, rfl, hrel, hargs⟩

section Steps

variable {τ : Type*} [DecidableEq τ] {e : Engine τ δ} {t : τ}

omit [DecidableEq δ] in
theorem threads_afterPreload (e : Engine τ δ) (t : τ) (th : LuaThread δ) (sh : LuaSh) (dIn : δ)
    (pre : LuaState δ × Bool) :
    (if pre.2 then e.setThread t { th with lua := some pre.1, wait := some (sh, dIn) }
      else e.setThread t { th with
        lua := some pre.1
        last := some (.sigSetupFailed, none) }).threads t = afterPreload th sh dIn pre := by
  unfold afterPreload
  split_ifs
  · exact Engine.setThread_self ..
  · exact Engine.setThread_self ..

/-- From `umplg_proc_signal` to the wait for the mutex. -/
theorem implements_enter (h : Implements signals (e.threads t) api)
    (hwait : (e.threads t).wait = none) (id : String) (dIn : δ) (usrFlags : Int) (created : Bool)
    (load : LoadRes) (args : List (Value (LuaAtom δ))) :
    ∃ api', api.enter signals mqtt id dIn usrFlags created load args = some api' ∧
      Implements signals ((e.enter signals t id dIn usrFlags created load).threads t) api' := by
  have hargs : api.frames = [] →
      (if api.frames.isEmpty then api.base else args) = [] := fun hnil => by
    rw [hnil, h.base]
    rfl
  have hcount : ∀ last, StateRel signals { e.threads t with
      frames := Engine.countCall (e.threads t).frames
      last := last } api := fun _ => h.toStateRel.countCall rfl rfl rfl
  unfold ApiThread.enter Engine.enter
  generalize (if api.frames.isEmpty then api.base else args) = args at hargs ⊢
  cases hproc : umplgProcSignal signals (some id) usrFlags with
  | error code =>
      rw [Engine.setThread_self]
      exact ⟨_, rfl, (hcount _).ret hwait hargs rfl⟩
  | ok sh =>
      have hfind : signals.find sh.id = some sh := by
        have hfound := (umplgProcSignal_ok_iff.mp hproc).1
        rwa [← Signals.id_of_find hfound] at hfound
      dsimp only
      unfold LuaThread.getState
      cases hlua : (e.threads t).lua with
      | some L =>
          obtain ⟨heap, s, c, hheap, htables⟩ := h.heap_eq_some hlua
          obtain ⟨api', hrun, himpl⟩ :=
            implements_enterState (hcount _) hwait h.last hargs htables hfind dIn load
          rw [hheap]
          rw [← threads_afterPreload e t] at himpl
          exact ⟨api', hrun, himpl⟩
      | none =>
          rw [h.heap_eq_none hlua]
          cases created with
          | true =>
              obtain ⟨heap, hsetup, s, c, htables⟩ := @calls_setup δ _ signals mqtt
              obtain ⟨api', hrun, himpl⟩ :=
                implements_enterState (hcount _) hwait h.last hargs htables hfind dIn load
              rw [← threads_afterPreload e t] at himpl
              have hcalls : calls ⟨args, minStack + args.length, .empty 2⟩
                  (luaSigSetupOps mqtt ++ sigTablesOps) = some (onStack heap [] args) :=
                calls_onStack args hsetup
              rw [if_pos rfl, if_pos rfl, hcalls]
              exact ⟨api', hrun, himpl⟩
          | false =>
              rw [if_neg Bool.false_ne_true, if_neg Bool.false_ne_true]
              refine ⟨_, rfl, ?_⟩
              have himpl := (hcount (some (.sigInitFailed, none))).ret hwait hargs rfl
              rw [Engine.setThread_self, ← hlua]
              exact himpl

variable {L : LuaState δ} {heap : Heap (LuaAtom δ)} {s c : Nat} {sh : LuaSh} {dIn : δ}
  {mtx : RecMutex τ} {load : LoadRes}

/-- The chunk on the stack is started with its input data. -/
theorem implements_startScript (h : Implements signals (e.threads t) api)
    (hlua : (e.threads t).lua = some L) (htables : SigTables signals L heap s c)
    (hargs : api.frames = [] → args = []) :
    ∃ api', api.startScript dIn args
        (onStack heap [.atom (.chunk sh.args.env.path)] args) = some api' ∧
      Implements signals ((e.startScript t sh dIn mtx).threads t) api' := by
  have hcalls := calls_onStack args
    (calls_setArgs htables (.atom (.chunk sh.args.env.path)) (.atom (.data dIn)) (api.lref + 1))
  unfold ApiThread.startScript Engine.startScript
  dsimp only
  rw [hcalls, Engine.setThread_self, hlua]
  refine ⟨_, rfl, ?_⟩
  exact {
    state := .some ⟨s, c, h.lref ▸ (htables.setArgs (api.lref + 1) (some dIn)).congr rfl rfl⟩
    lref := congrArg (· + 1) h.lref
    base := h.base
    frames := .cons h.frames hargs
    live := nofun
    wait := .none
    last := h.last }

/-- From the lock to the start of the script or the early return. -/
theorem implements_locked (h : Implements signals (e.threads t) api)
    (hready : Engine.Ready signals (e.threads t) sh) (hargs : api.frames = [] → args = []) :
    ∃ api', api.locked sh dIn ⟨args, args⟩ (e.running sh.id) load = some api' ∧
      Implements signals ((e.locked t sh dIn mtx load).threads t) api' := by
  obtain ⟨hfind, L, hlua, hcached⟩ := hready
  obtain ⟨heap, s, c, hheap, htables⟩ := h.heap_eq_some hlua
  unfold ApiThread.locked Engine.locked
  rw [hheap]
  cases hrunning : e.running sh.id with
  | true =>
      refine ⟨_, rfl, ?_⟩
      rw [if_pos rfl, Engine.rejectCall, Engine.setThread_self]
      have hstate : StateRel signals { e.threads t with
          wait := none
          last := some (.success, some (recursionText sh.id)) } api :=
        ⟨h.state, h.lref, h.base, h.frames, h.live⟩
      exact hstate.ret rfl hargs rfl
  | false =>
      have hstart : ∃ api', api.startScript dIn args
            (onStack heap [.atom (.chunk sh.args.env.path)] args) = some api' ∧
          Implements signals ((e.startScript t sh dIn mtx).threads t) api' :=
        implements_startScript h hlua htables hargs
      rw [if_neg Bool.false_ne_true, Option.bind_eq_bind, Option.bind_some]
      dsimp only
      rw [if_neg Bool.false_ne_true]
      cases hmode : sh.args.env.conserveMem with
      | true =>
          have hload : calls ⟨args, minStack + args.length, heap⟩
              [.push (loadfileValue sh load)] =
              some (onStack heap [loadfileValue sh load] args) :=
            @calls_onStack _ _ heap _ [] _ _ args rfl
          rw [if_pos rfl, hload]
          cases load with
          | ok =>
              rw [if_neg fun hno => hno.2 rfl]
              exact hstart
          | _ =>
              rw [if_pos ⟨rfl, Nat.succ_ne_zero _⟩, Engine.failLoad, Engine.setThread_self]
              refine ⟨_, rfl, ?_⟩
              have hstate : StateRel signals { e.threads t with
                  lua := some ((((e.threads t).lua.getD LuaState.setup).push 1).pop 1)
                  wait := none
                  last := some (.sigSetupFailed, none) } { api with heap := some heap } :=
                h.write (htables.congr (by rw [hlua]; rfl) (by rw [hlua]; rfl)) rfl rfl rfl
              exact hstate.ret rfl hargs rfl
      | false =>
          have hchunk := calls_onStack args (calls_chunk htables sh.id)
          rw [htables.cache _ _ hfind, if_pos (hcached hmode)] at hchunk
          have hcalls : calls ⟨args, minStack + args.length, heap⟩ _ = _ := hchunk
          rw [if_neg Bool.false_ne_true, if_neg fun hno => Bool.false_ne_true hno.1, hcalls]
          exact hstart

/-- From the end of the script to the return of the handler. -/
theorem implements_leave (h : Implements signals (e.threads t) api)
    (hwait : (e.threads t).wait = none) {f : Frame δ} {fs : List (Frame δ)}
    (hframes : (e.threads t).frames = f :: fs) {gs : List (Value (LuaAtom δ) × CFunc δ)}
    (hrel : FramesRel fs gs) (hargs : gs = [] → args = []) (res : LuaResult) :
    ∃ api', api.leave ⟨args, args⟩ gs res = some api' ∧
      Implements signals ((e.leave t f fs res).threads t) api' := by
  cases hlua : (e.threads t).lua with
  | none => exact nomatch hframes.symm.trans (h.live hlua)
  | some L =>
      obtain ⟨heap, s, c, hheap, htables⟩ := h.heap_eq_some hlua
      have hpush : State.push ⟨args, minStack + args.length, heap⟩ (ApiThread.resultValue res) =
          some (onStack heap [ApiThread.resultValue res] args) :=
        @push_above _ ⟨[], minStack, heap⟩ ⟨[ApiThread.resultValue res], minStack, heap⟩ args _ rfl
      have hcalls := calls_onStack args
        (calls_setArgs htables (ApiThread.resultValue res) .nil api.lref)
      unfold ApiThread.leave Engine.leave
      rw [hheap, Option.bind_eq_bind, Option.bind_some]
      dsimp only
      rw [hpush, Option.bind_eq_bind, Option.bind_some, hcalls, Engine.setThread_self]
      refine ⟨_, rfl, ?_⟩
      have hstate : StateRel signals { e.threads t with
          lua := some ((((e.threads t).lua.getD LuaState.setup).setArgs
            (e.threads t).lref none).pop 1)
          lref := (e.threads t).lref - 1
          frames := fs
          last := some (luaSigOutput res) } { api with
          heap := some (heap.set s (.num api.lref) (argsValue none))
          lref := api.lref - 1
          frames := gs } := {
        state := by
          rw [hlua, ← h.lref]
          exact .some ⟨s, c, (htables.setArgs api.lref none).congr rfl rfl⟩
        lref := congrArg (· - 1) h.lref
        base := h.base
        frames := hrel
        live := nofun }
      refine hstate.ret hwait hargs ?_
      cases res with
      | text s => rfl
      | other => rfl

/-- An action of the thread of the engine is one of the thread of the interface. -/
theorem implements_step (h : Implements signals (e.threads t) api) {act : Act δ} {e' : Engine τ δ}
    (hst : e.step signals (t, act) = some e') (args : List (Value (LuaAtom δ))) :
    ∃ api', api.step signals mqtt e.running act args = some api' ∧
      Implements signals (e'.threads t) api' := by
  unfold ApiThread.step
  cases hwait : (e.threads t).wait with
  | none =>
      rw [h.wait_eq_none hwait]
      cases act with
      | call id dIn usrFlags created load =>
          simp only [Engine.step, hwait, Option.some.injEq] at hst
          exact hst ▸ implements_enter h hwait id dIn usrFlags created load args
      | lock load => simp [Engine.step, hwait] at hst
      | finish failed res =>
          cases hframes : (e.threads t).frames with
          | nil => simp [Engine.step, hwait, hframes] at hst
          | cons f fs =>
              simp only [Engine.step, hwait, hframes, Option.some.injEq] at hst
              obtain ⟨gs, args, hframes', hrel, hargs⟩ := h.frames_eq_cons hframes
              rw [hframes']
              exact hst ▸ implements_leave h hwait hframes hrel hargs res
  | some w =>
      obtain ⟨sh, dIn⟩ := w
      obtain ⟨args, hwait', hready, hargs⟩ := h.wait_eq_some hwait
      rw [hwait']
      cases act with
      | lock load =>
          simp only [Engine.step, hwait, Option.map_eq_some_iff] at hst
          obtain ⟨mtx, -, he⟩ := hst
          exact he ▸ implements_locked h hready hargs
      | call id dIn usrFlags created load => simp [Engine.step, hwait] at hst
      | finish failed res => simp [Engine.step, hwait] at hst

end Steps

end Simulation

/-- An action of a thread, with the values that its C function is called with, and whether a Lua
state that is set up in it gets `M.mqtt`. -/
structure ApiAct (τ δ : Type*) where
  act : τ × Act δ
  args : List (Value (LuaAtom δ))
  mqtt : Bool

/-- The engine with what each thread does through the interface. -/
def apiStep {τ : Type*} [DecidableEq τ] [DecidableEq δ] (signals : Signals LuaSigArgs)
    (s : Engine τ δ × (τ → ApiThread δ)) (a : ApiAct τ δ) :
    Option (Engine τ δ × (τ → ApiThread δ)) :=
  ((s.2 a.act.1).step signals a.mqtt s.1.running a.act.2 a.args).bind fun th =>
    (s.1.step signals a.act).map fun e => (e, Function.update s.2 a.act.1 th)

section Runs

variable {τ : Type*} [DecidableEq τ] [DecidableEq δ] {signals : Signals LuaSigArgs}
  {s s' : Engine τ δ × (τ → ApiThread δ)} {a : ApiAct τ δ}

/-- Every thread of the interface is the thread of the engine. -/
def ImplementsAll (signals : Signals LuaSigArgs) (s : Engine τ δ × (τ → ApiThread δ)) : Prop :=
  ∀ t, Implements signals (s.1.threads t) (s.2 t)

theorem apiStep_of_step (h : ImplementsAll signals s) {e : Engine τ δ}
    (hst : s.1.step signals a.act = some e) :
    ∃ th, apiStep signals s a = some (e, Function.update s.2 a.act.1 th) ∧
      Implements signals (e.threads a.act.1) th := by
  obtain ⟨th, hth, himpl⟩ := @implements_step _ _ _ a.mqtt _ _ _ _ _ (h a.act.1) _ _ hst a.args
  refine ⟨th, ?_, himpl⟩
  rw [apiStep, hth, hst]
  rfl

theorem apiStep_map (h : ImplementsAll signals s) (a : ApiAct τ δ) :
    (apiStep signals s a).map Prod.fst = s.1.step signals a.act := by
  cases hst : s.1.step signals a.act with
  | none =>
      rw [apiStep, hst]
      cases (s.2 a.act.1).step signals a.mqtt s.1.running a.act.2 a.args <;> rfl
  | some e =>
      obtain ⟨th, happly, -⟩ := apiStep_of_step h hst
      rw [happly]
      rfl

theorem apiStep_implements (h : ImplementsAll signals s)
    (happly : apiStep signals s a = some s') : ImplementsAll signals s' := by
  obtain ⟨e', threads⟩ := s'
  have hst : s.1.step signals a.act = some e' := by
    rw [← apiStep_map h, happly]
    rfl
  obtain ⟨th, happly', himpl⟩ := apiStep_of_step h hst
  obtain ⟨-, rfl⟩ := Prod.mk.inj (Option.some.inj (happly.symm.trans happly'))
  intro u
  by_cases hu : u = a.act.1
  · subst hu
    dsimp only
    rw [Function.update_self]
    exact himpl
  · dsimp only
    rw [Function.update_of_ne hu, Engine.step_other hst hu]
    exact h u

omit [DecidableEq τ] [DecidableEq δ] in
theorem implementsAll_start :
    ImplementsAll signals ((.start, fun _ => .start) : Engine τ δ × (τ → ApiThread δ)) :=
  fun _ => implements_start

theorem apiExec_map (acts : List (ApiAct τ δ)) :
    (Trace.exec (apiStep signals) (.start, fun _ => .start) acts).map Prod.fst =
      Trace.exec (Engine.step signals) .start (acts.map ApiAct.act) :=
  Trace.exec_map (fun _ a h => apiStep_map h a) (fun _ _ _ h happly => apiStep_implements h happly)
    implementsAll_start acts

theorem apiExec_implements {acts : List (ApiAct τ δ)}
    (h : Trace.exec (apiStep signals) (.start, fun _ => .start) acts = some s) :
    ImplementsAll signals s :=
  Trace.exec_invariant (fun _ _ _ hs happly => apiStep_implements hs happly) implementsAll_start h

end Runs

/-- However any number of threads run signals in either memory mode, with any nesting, failures
of scripts and values on the stacks, before or after the MQTT plugin is there, the interface
calls of the handler are what the engine does: none of them reaches below the stack of its C
function, needs more room than that has or indexes what is no table; the handler returns with
the stack as it found it and the output of the engine; and what `lua_pcall` starts is the chunk
of the signal's script. -/
theorem api_refines {τ : Type*} [DecidableEq τ] [DecidableEq δ] (signals : Signals LuaSigArgs)
    (acts : List (ApiAct τ δ)) :
    (Trace.exec (apiStep signals) (.start, fun _ => .start) acts).map Prod.fst =
        Trace.exec (Engine.step signals) .start (acts.map ApiAct.act) ∧
      ∀ s, Trace.exec (apiStep signals) (.start, fun _ => .start) acts = some s →
        ∀ t, Implements signals (s.1.threads t) (s.2 t) :=
  ⟨apiExec_map acts, fun _ hexec => apiExec_implements hexec⟩

end Umink.Lua
