import Umink.Lua.SignalEngine

/-!
# What one step of the signal engine does

Each action changes the mutexes, the `running` flags and the activations of one
thread. The lemmas of this file say how; later modules use them in place of the
definitions of the steps.
-/

namespace Umink.Lua

open Umink.Library Umink.Plugin

namespace Engine

variable {τ δ : Type*} [DecidableEq τ] {signals : Signals LuaSigArgs}

/-- The ids of the active scripts of a thread, the innermost first. -/
def ids (e : Engine τ δ) (t : τ) : List String := (e.threads t).frames.map fun f => f.sh.id

/-- How many activations of a signal a thread runs. -/
def activations (e : Engine τ δ) (t : τ) (id : String) : Nat := (e.ids t).count id

/-- How many times a thread holds the mutex of a signal. -/
def depth (e : Engine τ δ) (t : τ) (id : String) : Nat := (e.mtx id).depth t

@[simp] theorem setThread_self (e : Engine τ δ) (t : τ) (th : LuaThread δ) :
    (e.setThread t th).threads t = th := by simp [setThread]

@[simp] theorem setThread_ne (e : Engine τ δ) {t u : τ} (th : LuaThread δ) (hu : u ≠ t) :
    (e.setThread t th).threads u = e.threads u := by simp [setThread, hu]

@[simp] theorem countCall_ids (fs : List (Frame δ)) :
    (countCall fs).map (fun f => f.sh.id) = fs.map fun f => f.sh.id := by
  cases fs <;> rfl

/-- The mutex is taken, the script of the signal is not running and has to be
loaded again, and loading it fails. -/
def LoadFails (e : Engine τ δ) (sh : LuaSh) (load : LoadRes) : Prop :=
  e.running sh.id = false ∧ sh.args.env.conserveMem = true ∧ luaSigLoadScript load ≠ 0

instance (e : Engine τ δ) (sh : LuaSh) (load : LoadRes) : Decidable (LoadFails e sh load) :=
  inferInstanceAs (Decidable (_ ∧ _ ∧ _))

/-- The script of the signal can be started by the thread: the signal is
registered and, unless memory is conserved, its script is in the cache. -/
def Ready (signals : Signals LuaSigArgs) (th : LuaThread δ) (sh : LuaSh) : Prop :=
  signals.find sh.id = some sh ∧
    ∃ L, th.lua = some L ∧ (sh.args.env.conserveMem = false → sh.id ∈ L.sigCache)

/-- The thread keeps its `lua_State` and the scripts in its cache. -/
def KeepsCache (th th' : LuaThread δ) : Prop :=
  ∀ L, th.lua = some L → ∃ L', th'.lua = some L' ∧ L.sigCache ⊆ L'.sigCache

theorem Ready.mono {th th' : LuaThread δ} {sh : LuaSh} (h : Ready signals th sh)
    (hkeep : KeepsCache th th') : Ready signals th' sh := by
  obtain ⟨hfind, L, hL, hmem⟩ := h
  obtain ⟨L', hL', hsub⟩ := hkeep L hL
  exact ⟨hfind, L', hL', fun hc => hsub (hmem hc)⟩

section Preload

variable (L : LuaState δ) (sh : LuaSh) (load : LoadRes)

theorem preload_subset : L.sigCache ⊆ (L.preload sh load).1.sigCache := by
  unfold LuaState.preload
  dsimp only
  split_ifs <;> simp [LuaState.push, LuaState.pop]

theorem preload_mem (hload : (L.preload sh load).2 = true)
    (hmode : sh.args.env.conserveMem = false) : sh.id ∈ (L.preload sh load).1.sigCache := by
  revert hload
  simp only [LuaState.preload, hmode, Bool.false_eq_true, if_false]
  split_ifs with hcached hfail
  · exact fun _ => hcached
  · simp
  · exact fun _ => List.mem_cons_self

theorem preload_of_cached (h : sh.args.env.conserveMem = false → sh.id ∈ L.sigCache) :
    (L.preload sh load).2 = true := by
  cases hmode : sh.args.env.conserveMem with
  | true => simp [LuaState.preload, hmode]
  | false => simp [LuaState.preload, hmode, LuaState.push, h hmode]

end Preload

section Effects

variable (signals : Signals LuaSigArgs) (e : Engine τ δ) (t : τ) (sh : LuaSh) (e' : Engine τ δ)

/-- What an action of thread `t` leaves. -/
structure Frames : Prop where
  other : ∀ u, u ≠ t → e'.threads u = e.threads u
  cache : KeepsCache (e.threads t) (e'.threads t)

/-- A call went up to the lock or returned before it. -/
structure Entered (id : String) (dIn : δ) (usrFlags : Int) : Prop extends Frames e t e' where
  mtx : e'.mtx = e.mtx
  running : e'.running = e.running
  frames : (e'.threads t).frames = countCall (e.threads t).frames
  wait : (e'.threads t).wait = none ∨
    ∃ sh, umplgProcSignal signals (some id) usrFlags = .ok sh ∧
      (e'.threads t).wait = some (sh, dIn) ∧ Ready signals (e'.threads t) sh
  ready : ∀ sh, umplgProcSignal signals (some id) usrFlags = .ok sh →
    Ready signals (e.threads t) sh → (e'.threads t).wait = some (sh, dIn)

/-- A call was rejected as recursion. -/
structure Rejected : Prop extends Frames e t e' where
  depth : ∀ u id, e'.depth u id = e.depth u id
  running : e'.running = Function.update e.running sh.id false
  frames : (e'.threads t).frames = (e.threads t).frames
  wait : (e'.threads t).wait = none
  last : (e'.threads t).last = some (.success, some (recursionText sh.id))

/-- A call returned with the mutex locked, as its script could not be loaded. -/
structure LoadFailed : Prop extends Frames e t e' where
  depth : ∀ u id, e'.depth u id = e.depth u id + if u = t ∧ id = sh.id then 1 else 0
  running : e'.running = e.running
  frames : (e'.threads t).frames = (e.threads t).frames
  wait : (e'.threads t).wait = none
  last : (e'.threads t).last = some (.sigSetupFailed, none)

/-- A script was started. -/
structure Started (dIn : δ) : Prop extends Frames e t e' where
  depth : ∀ u id, e'.depth u id = e.depth u id + if u = t ∧ id = sh.id then 1 else 0
  running : e'.running = Function.update e.running sh.id true
  frames : (e'.threads t).frames = ⟨sh, dIn, 0⟩ :: (e.threads t).frames
  wait : (e'.threads t).wait = none

/-- The innermost script ended and its handler returned. -/
structure Left (f : Frame δ) : Prop extends Frames e t e' where
  depth : ∀ u id, e'.depth u id = e.depth u id - if u = t ∧ id = f.sh.id then 1 else 0
  running : e'.running = Function.update e.running f.sh.id false
  frames : (e.threads t).frames = f :: (e'.threads t).frames
  wait : (e'.threads t).wait = none

end Effects

/-- The effect of one action of thread `t`. -/
inductive Effect (signals : Signals LuaSigArgs) (e : Engine τ δ) (t : τ) (e' : Engine τ δ) :
    Act δ → Prop
  | entered {id dIn usrFlags created load} (hwait : (e.threads t).wait = none)
      (heff : Entered signals e t e' id dIn usrFlags) :
      Effect signals e t e' (.call id dIn usrFlags created load)
  | rejected {sh dIn load} (hwait : (e.threads t).wait = some (sh, dIn))
      (hfree : (e.mtx sh.id).lock t ≠ none) (hrun : e.running sh.id = true)
      (heff : Rejected e t sh e') : Effect signals e t e' (.lock load)
  | loadFailed {sh dIn load} (hwait : (e.threads t).wait = some (sh, dIn))
      (hfree : (e.mtx sh.id).lock t ≠ none) (hfail : LoadFails e sh load)
      (heff : LoadFailed e t sh e') : Effect signals e t e' (.lock load)
  | started {sh dIn load} (hwait : (e.threads t).wait = some (sh, dIn))
      (hfree : (e.mtx sh.id).lock t ≠ none) (hrun : e.running sh.id = false)
      (hload : ¬ LoadFails e sh load) (heff : Started e t sh e' dIn) :
      Effect signals e t e' (.lock load)
  | left {f failed res} (hwait : (e.threads t).wait = none) (heff : Left e t e' f) :
      Effect signals e t e' (.finish failed res)

/-- Locking the mutex of one signal changes the depth of that thread and signal
only, by one. -/
theorem depth_update_lock {e : Engine τ δ} {t : τ} {sid : String} {mtx : RecMutex τ}
    (hmtx : (e.mtx sid).lock t = some mtx) (u : τ) (id : String) :
    (Function.update e.mtx sid mtx id).depth u =
      e.depth u id + if u = t ∧ id = sid then 1 else 0 := by
  by_cases hid : id = sid
  · subst hid
    by_cases hu : u = t
    · subst hu
      simp [RecMutex.depth_lock_self hmtx, depth]
    · simp [hu, RecMutex.depth_lock_ne hmtx hu, depth]
  · simp [hid, depth]

/-- Unlocking undoes one lock. -/
theorem depth_update_unlock (e : Engine τ δ) (t : τ) (sid : String) (u : τ) (id : String) :
    (Function.update e.mtx sid ((e.mtx sid).unlock t) id).depth u =
      e.depth u id - if u = t ∧ id = sid then 1 else 0 := by
  by_cases hid : id = sid
  · subst hid
    by_cases hu : u = t
    · subst hu
      simp [RecMutex.depth_unlock_self, depth]
    · simp [hu, RecMutex.depth_unlock_ne _ hu, depth]
  · simp [hid, depth]

/-- Locking and unlocking leaves every depth as it was. -/
theorem depth_update_lock_unlock {e : Engine τ δ} {t : τ} {sid : String} {mtx : RecMutex τ}
    (hmtx : (e.mtx sid).lock t = some mtx) (u : τ) (id : String) :
    (Function.update e.mtx sid (mtx.unlock t) id).depth u = e.depth u id := by
  by_cases hid : id = sid
  · subst hid
    by_cases hu : u = t
    · subst hu
      simp [RecMutex.depth_unlock_self, RecMutex.depth_lock_self hmtx, depth]
    · simp [RecMutex.depth_unlock_ne _ hu, RecMutex.depth_lock_ne hmtx hu, depth]
  · simp [hid, depth]

theorem getState_eq {th : LuaThread δ} {L : LuaState δ} (h : th.lua = some L) (created : Bool) :
    th.getState created = some L := by
  rw [LuaThread.getState, h]

/-- A call that only writes its thread. -/
theorem entered_of_setThread {e : Engine τ δ} {t : τ} {th : LuaThread δ} {id : String} {dIn : δ}
    {usrFlags : Int} (hkeep : KeepsCache (e.threads t) th)
    (hframes : th.frames = countCall (e.threads t).frames)
    (hwait : th.wait = none ∨ ∃ sh, umplgProcSignal signals (some id) usrFlags = .ok sh ∧
      th.wait = some (sh, dIn) ∧ Ready signals th sh)
    (hready : ∀ sh, umplgProcSignal signals (some id) usrFlags = .ok sh →
      Ready signals (e.threads t) sh → th.wait = some (sh, dIn)) :
    Entered signals e t (e.setThread t th) id dIn usrFlags where
  other u hu := setThread_ne e th hu
  cache := by rwa [setThread_self]
  mtx := rfl
  running := rfl
  frames := by rw [setThread_self, hframes]
  wait := by rwa [setThread_self]
  ready := by rwa [setThread_self]

/-- Entering a handler writes one thread only, counts the call and either
returns or makes the thread wait for the mutex of the signal that was found. -/
theorem enter_entered {e : Engine τ δ} {t : τ} (hwait : (e.threads t).wait = none) (id : String)
    (dIn : δ) (usrFlags : Int) (created : Bool) (load : LoadRes) :
    Entered signals e t (e.enter signals t id dIn usrFlags created load) id dIn usrFlags := by
  unfold enter
  cases hproc : umplgProcSignal signals (some id) usrFlags with
  | error code =>
      apply entered_of_setThread
      · exact fun L hL => ⟨L, hL, List.Subset.refl _⟩
      · rfl
      · exact Or.inl hwait
      · intro sh hok
        rw [hproc] at hok
        cases hok
  | ok sh =>
      have hfind : signals.find sh.id = some sh := by
        have hfound := (umplgProcSignal_ok_iff.mp hproc).1
        rwa [← Signals.id_of_find hfound] at hfound
      dsimp only
      cases hstate : (e.threads t).getState created with
      | none =>
          have hlua : (e.threads t).lua = none := by
            cases hL : (e.threads t).lua with
            | none => rfl
            | some L => rw [getState_eq hL] at hstate; cases hstate
          apply entered_of_setThread
          · exact fun L hL => ⟨L, hL, List.Subset.refl _⟩
          · rfl
          · exact Or.inl hwait
          · rintro sh' - ⟨-, L, hL, -⟩
            rw [hlua] at hL
            cases hL
      | some L =>
          have hlua : ∀ L₀, (e.threads t).lua = some L₀ → L₀ = L := fun L₀ hL₀ =>
            Option.some.inj ((getState_eq hL₀ created).symm.trans hstate)
          have hsub := preload_subset L sh load
          dsimp only
          split
          · next hload =>
            apply entered_of_setThread
            · exact fun L₀ hL₀ => ⟨_, rfl, hlua L₀ hL₀ ▸ hsub⟩
            · rfl
            · exact Or.inr ⟨sh, hproc, rfl, hfind, _, rfl, preload_mem L sh load hload⟩
            · intro sh' hok _
              obtain rfl : sh = sh' := by simpa [hproc] using hok
              rfl
          · next hload =>
            apply entered_of_setThread
            · exact fun L₀ hL₀ => ⟨_, rfl, hlua L₀ hL₀ ▸ hsub⟩
            · rfl
            · exact Or.inl hwait
            · rintro sh' hok ⟨-, L₀, hL₀, hcached⟩
              obtain rfl : sh = sh' := by simpa [hproc] using hok
              exact absurd (preload_of_cached L sh load (hlua L₀ hL₀ ▸ hcached)) hload

section Locked

variable {e : Engine τ δ} {t : τ} {sh : LuaSh} {mtx : RecMutex τ}
  (hmtx : (e.mtx sh.id).lock t = some mtx)

include hmtx

theorem rejectCall_rejected : Rejected e t sh (e.rejectCall t sh mtx) where
  other u hu := by simp [rejectCall, hu]
  cache L hL := ⟨L, by simp [rejectCall, hL], List.Subset.refl _⟩
  depth u id := depth_update_lock_unlock hmtx u id
  running := rfl
  frames := by simp [rejectCall]
  wait := by simp [rejectCall]
  last := by simp [rejectCall]

theorem failLoad_loadFailed : LoadFailed e t sh (e.failLoad t sh mtx) where
  other u hu := by simp [failLoad, hu]
  cache L hL := ⟨(L.push 1).pop 1, by simp [failLoad, hL], List.Subset.refl _⟩
  depth u id := depth_update_lock hmtx u id
  running := rfl
  frames := by simp [failLoad]
  wait := by simp [failLoad]
  last := by simp [failLoad]

theorem startScript_started (dIn : δ) : Started e t sh (e.startScript t sh dIn mtx) dIn where
  other u hu := by simp [startScript, hu]
  cache L hL :=
    ⟨(L.push 1).setArgs ((e.threads t).lref + 1) (some dIn), by simp [startScript, hL],
      List.Subset.refl _⟩
  depth u id := depth_update_lock hmtx u id
  running := rfl
  frames := by simp [startScript]
  wait := by simp [startScript]

end Locked

theorem leave_left {e : Engine τ δ} {t : τ} {f : Frame δ} {fs : List (Frame δ)}
    (hwait : (e.threads t).wait = none) (hframes : (e.threads t).frames = f :: fs)
    (res : LuaResult) : Left e t (e.leave t f fs res) f where
  other u hu := by simp [leave, hu]
  cache L hL :=
    ⟨(L.setArgs (e.threads t).lref none).pop 1, by simp [leave, hL], List.Subset.refl _⟩
  depth u id := depth_update_unlock e t f.sh.id u id
  running := rfl
  frames := by simp [leave, hframes]
  wait := by simp [leave, hwait]

/-- Every step has one of the effects, by its action and where its thread is. -/
theorem step_effect {e e' : Engine τ δ} {t : τ} {act : Act δ}
    (h : e.step signals (t, act) = some e') : Effect signals e t e' act := by
  cases act with
  | call id dIn usrFlags created load =>
      cases hw : (e.threads t).wait with
      | some w => simp [step, hw] at h
      | none =>
          simp only [step, hw, Option.some.injEq] at h
          exact h ▸ .entered hw (enter_entered hw id dIn usrFlags created load)
  | lock load =>
      cases hw : (e.threads t).wait with
      | none => simp [step, hw] at h
      | some w =>
          obtain ⟨sh, dIn⟩ := w
          simp only [step, hw, Option.map_eq_some_iff] at h
          obtain ⟨mtx, hmtx, he⟩ := h
          have hfree : (e.mtx sh.id).lock t ≠ none := by simp [hmtx]
          cases hrun : e.running sh.id with
          | true =>
              rw [locked, if_pos hrun] at he
              exact he ▸ .rejected hw hfree hrun (rejectCall_rejected hmtx)
          | false =>
              rw [locked, if_neg (by simp [hrun])] at he
              split at he
              · next hload =>
                exact he ▸ .loadFailed hw hfree ⟨hrun, hload⟩ (failLoad_loadFailed hmtx)
              · next hload =>
                exact he ▸ .started hw hfree hrun (fun hf => hload hf.2)
                  (startScript_started hmtx dIn)
  | finish failed res =>
      cases hw : (e.threads t).wait with
      | some w => simp [step, hw] at h
      | none =>
          cases hf : (e.threads t).frames with
          | nil => simp [step, hw, hf] at h
          | cons f fs =>
              simp only [step, hw, hf, Option.some.injEq] at h
              exact h ▸ .left hw (leave_left hw hf res)

/-- The scripts that a thread runs or waits to run can be started by it. -/
def Prepared (signals : Signals LuaSigArgs) (th : LuaThread δ) : Prop :=
  (∀ f ∈ th.frames, Ready signals th f.sh) ∧
    ∀ sh dIn, th.wait = some (sh, dIn) → Ready signals th sh

theorem mem_countCall {f : Frame δ} {fs : List (Frame δ)} (h : f ∈ countCall fs) :
    ∃ g ∈ fs, g.sh = f.sh := by
  cases fs with
  | nil => cases h
  | cons g fs =>
      rcases List.mem_cons.mp h with rfl | hmem
      · exact ⟨g, List.mem_cons_self, rfl⟩
      · exact ⟨f, List.mem_cons_of_mem g hmem, rfl⟩

theorem prepared_step {e e' : Engine τ δ} {a : τ × Act δ}
    (hprep : ∀ t, Prepared signals (e.threads t)) (h : e.step signals a = some e') (u : τ) :
    Prepared signals (e'.threads u) := by
  obtain ⟨t, act⟩ := a
  have hframes : ∀ (hf : Frames e t e'), u ≠ t → Prepared signals (e'.threads u) :=
    fun hf hu => hf.other u hu ▸ hprep u
  by_cases hu : u = t
  · subst hu
    obtain ⟨hfs, hws⟩ := hprep u
    cases step_effect h with
    | @entered id dIn usrFlags created load hwait heff =>
        refine ⟨fun f hf => ?_, fun sh dIn' hw => ?_⟩
        · obtain ⟨g, hg, hsh⟩ := mem_countCall (heff.frames ▸ hf)
          exact hsh ▸ (hfs g hg).mono heff.cache
        · rcases heff.wait with hnone | ⟨sh', -, hsome, hready⟩
          · simp [hnone] at hw
          · obtain ⟨rfl, -⟩ : sh' = sh ∧ dIn = dIn' := by simpa [hsome] using hw
            exact hready
    | rejected hwait hfree hrun heff =>
        exact ⟨fun f hf => (hfs f (heff.frames ▸ hf)).mono heff.cache,
          fun sh dIn hw => by simp [heff.wait] at hw⟩
    | loadFailed hwait hfree hfail heff =>
        exact ⟨fun f hf => (hfs f (heff.frames ▸ hf)).mono heff.cache,
          fun sh dIn hw => by simp [heff.wait] at hw⟩
    | @started sh dIn load hwait hfree hrun hload heff =>
        refine ⟨fun f hf => ?_, fun sh dIn hw => by simp [heff.wait] at hw⟩
        rcases List.mem_cons.mp (heff.frames ▸ hf) with rfl | hmem
        · exact (hws sh dIn hwait).mono heff.cache
        · exact (hfs f hmem).mono heff.cache
    | @left f failed res hwait heff =>
        exact ⟨fun g hg => (hfs g (heff.frames ▸ List.mem_cons_of_mem f hg)).mono heff.cache,
          fun sh dIn hw => by simp [heff.wait] at hw⟩
  · cases step_effect h with
    | entered hwait heff => exact hframes heff.toFrames hu
    | rejected hwait hfree hrun heff => exact hframes heff.toFrames hu
    | loadFailed hwait hfree hfail heff => exact hframes heff.toFrames hu
    | started hwait hfree hrun hload heff => exact hframes heff.toFrames hu
    | left hwait heff => exact hframes heff.toFrames hu

section Counting

variable {e e' : Engine τ δ} {t : τ}

omit [DecidableEq τ] in
theorem Frames.ids (h : Frames e t e') {u : τ} (hu : u ≠ t) : e'.ids u = e.ids u := by
  simp only [Engine.ids, h.other u hu]

theorem Frames.ids_of_eq (h : Frames e t e')
    (hframes : (e'.threads t).frames = (e.threads t).frames) (u : τ) : e'.ids u = e.ids u := by
  by_cases hu : u = t
  · subst hu
    simp only [Engine.ids, hframes]
  · exact h.ids hu

theorem Entered.ids {id : String} {dIn : δ} {usrFlags : Int}
    (h : Entered signals e t e' id dIn usrFlags) (u : τ) : e'.ids u = e.ids u := by
  by_cases hu : u = t
  · subst hu
    simp only [Engine.ids, h.frames, countCall_ids]
  · exact h.toFrames.ids hu

theorem Started.ids {sh : LuaSh} {dIn : δ} (h : Started e t sh e' dIn) :
    e'.ids t = sh.id :: e.ids t := by
  simp only [Engine.ids, h.frames, List.map_cons]

theorem Left.ids {f : Frame δ} (h : Left e t e' f) : e.ids t = f.sh.id :: e'.ids t := by
  simp only [Engine.ids, h.frames, List.map_cons]

theorem Started.mem_ids {sh : LuaSh} {dIn : δ} (h : Started e t sh e' dIn) (u : τ)
    (id : String) : id ∈ e'.ids u ↔ (u = t ∧ id = sh.id) ∨ id ∈ e.ids u := by
  by_cases hu : u = t
  · subst hu
    simp [h.ids]
  · simp [h.toFrames.ids hu, hu]

theorem Left.mem_ids {f : Frame δ} (h : Left e t e' f) (u : τ) (id : String) :
    id ∈ e.ids u ↔ (u = t ∧ id = f.sh.id) ∨ id ∈ e'.ids u := by
  by_cases hu : u = t
  · subst hu
    simp [h.ids]
  · simp [h.toFrames.ids hu, hu]

theorem Started.activations {sh : LuaSh} {dIn : δ} (h : Started e t sh e' dIn) (u : τ)
    (id : String) :
    e'.activations u id = e.activations u id + if u = t ∧ id = sh.id then 1 else 0 := by
  by_cases hu : u = t
  · subst hu
    simp only [Engine.activations, h.ids, List.count_cons, true_and, beq_iff_eq, @eq_comm _ id]
  · simp only [Engine.activations, h.toFrames.ids hu, hu, false_and, if_false, Nat.add_zero]

theorem Left.activations {f : Frame δ} (h : Left e t e' f) (u : τ) (id : String) :
    e.activations u id = e'.activations u id + if u = t ∧ id = f.sh.id then 1 else 0 := by
  by_cases hu : u = t
  · subst hu
    simp only [Engine.activations, h.ids, List.count_cons, true_and, beq_iff_eq, @eq_comm _ id]
  · simp only [Engine.activations, h.toFrames.ids hu, hu, false_and, if_false, Nat.add_zero]

end Counting

end Engine

end Umink.Lua
