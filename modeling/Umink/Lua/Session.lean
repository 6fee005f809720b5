import Umink.Lua.SignalArgs

/-!
# Sessions of one thread

One thread calls signals one after another and runs their scripts, which call
signals in turn. The scripts are programs here, so that the engine of the signals
is driven by what they do and not by arbitrary actions: a script that has read its
arguments or called a signal goes on with the answer.

## Implementation notes

The texts of the scripts stand in files that do not change, and what a script does
next depends on its text, the answers it got and the globals of the thread. The text
that a chunk of the `mink_sig_cache` table was compiled from is kept beside the
engine. `lua_sig_setup` has no failing path: its test of the new state looks at the
address of the variable. As nothing runs between the two halves of a call, they are
taken together.
-/

namespace Umink.Lua

open Umink.Library Umink.Plugin

/-- What a script does next, where it goes on and the globals it leaves. -/
inductive Move (γ κ δ ω : Type*) where
  /-- A side effect. -/
  | effect (w : ω) (k : κ) (g : γ)
  /-- `M.get_args`. -/
  | getArgs (k : κ)
  /-- `M.signal`. -/
  | signal (id : String) (dIn : δ) (usrFlags : Int) (k : κ) (g : γ)
  /-- The end of the script. -/
  | finish (failed : Bool) (res : LuaResult) (g : γ)

/-- The Lua interpreter with globals `γ`, suspended scripts `κ` and side effects `ω`. -/
structure LuaVm (γ κ δ ω : Type*) where
  compile : String → LoadRes
  /-- The start of the chunk that a text compiles to. -/
  start : String → κ
  next : κ → γ → Move γ κ δ ω
  /-- How a script goes on with its arguments. -/
  getArgs : κ → Option δ → κ
  /-- How a script goes on with the code and the output of a signal. -/
  signal : κ → UmplgRet × Option String → κ
  /-- The length of a table. -/
  rawlen : (Nat → Option δ) → Nat
  rawlen_isBorder : ∀ stdd, (∃ tl, IsBorder stdd tl) → IsBorder stdd (rawlen stdd)

open Classical in
/-- There are such interpreters: one border of each table is chosen for its length. -/
instance {γ κ δ ω : Type*} [Nonempty κ] : Nonempty (LuaVm γ κ δ ω) :=
  let k : κ := Classical.arbitrary κ
  ⟨{ compile := fun _ => .ok
     start := fun _ => k
     next := fun _ g => .finish false .other g
     getArgs := fun k _ => k
     signal := fun k _ => k
     rawlen := fun stdd => if h : ∃ tl, IsBorder stdd tl then h.choose else 0
     rawlen_isBorder := fun stdd h => by rw [dif_pos h]; exact h.choose_spec }⟩

/-- A call of `umplg_proc_signal` outside every script. -/
structure SigCall (δ : Type*) where
  id : String
  dIn : δ
  usrFlags : Int

/-- What can be seen of a session: the start of each call, the side effects of the
scripts, the code and the output of each call. -/
inductive Obs (δ ω : Type*) where
  | called (id : String) (dIn : δ)
  | effect (w : ω)
  | returned (id : String) (code : UmplgRet) (dOut : Option String)

/-- A thread with the scripts of its activations, the innermost first, and the calls
it has yet to make. -/
structure Session (γ κ δ ω : Type*) where
  engine : Engine Unit δ
  chunks : String → Option String
  scripts : List κ
  globals : γ
  calls : List (SigCall δ)
  log : List (Obs δ ω)

variable {γ κ δ ω : Type*}

/-- The ids in the `mink_sig_cache` table of a thread. -/
def LuaThread.sigCache (th : LuaThread δ) : List String :=
  match th.lua with
  | some L => L.sigCache
  | none => []

/-- A signal with `conserve_memory` on or off. -/
def LuaSh.inMode (conserveMem : Bool) (sh : LuaSh) : LuaSh :=
  { sh with args.env.conserveMem := conserveMem }

/-- The signals with `conserve_memory` on or off. -/
def inMode (conserveMem : Bool) (signals : Signals LuaSigArgs) : Signals LuaSigArgs :=
  signals.map (LuaSh.inMode conserveMem)

/-- A whole call of a signal by the only thread: up to the start of its script or, when
no script is started, to its return. -/
def Engine.signalCall (signals : Signals LuaSigArgs) (e : Engine Unit δ) (id : String) (dIn : δ)
    (usrFlags : Int) (load : LoadRes) : Option (Engine Unit δ) :=
  (e.step signals ((), .call id dIn usrFlags true load)).bind fun e' =>
    match (e'.threads ()).wait with
    | none => some e'
    | some _ => e'.step signals ((), .lock load)

namespace Engine

variable {signals : Signals LuaSigArgs} {e e' : Engine Unit δ}

/-- The activations of the thread, the innermost first: the id and the input data of each. -/
def active (e : Engine Unit δ) : List (String × δ) :=
  (e.threads ()).frames.map fun f => (f.sh.id, f.dIn)

/-- A call returned with the result `r` and no script of its own. -/
structure Returned (e e' : Engine Unit δ) (running : String → Bool)
    (r : UmplgRet × Option String) : Prop where
  wait : (e'.threads ()).wait = none
  last : (e'.threads ()).last = some r
  active : e'.active = e.active
  running : e'.running = running

/-- A call started the script of `sh`. -/
structure Begun (e e' : Engine Unit δ) (sh : LuaSh) (dIn : δ) : Prop where
  wait : (e'.threads ()).wait = none
  head : (e'.threads ()).frames.head?.map Frame.sh = some sh
  active : e'.active = (sh.id, dIn) :: e.active
  running : e'.running = Function.update e.running sh.id true

theorem length_active (e : Engine Unit δ) : e.active.length = (e.threads ()).frames.length :=
  List.length_map _

theorem Returned.length_frames {running : String → Bool} {r : UmplgRet × Option String}
    (h : Returned e e' running r) :
    (e'.threads ()).frames.length = (e.threads ()).frames.length := by
  rw [← length_active, h.active, length_active]

theorem Begun.length_frames {sh : LuaSh} {dIn : δ} (h : Begun e e' sh dIn) :
    (e'.threads ()).frames.length = (e.threads ()).frames.length + 1 := by
  rw [← length_active, h.active, List.length_cons, length_active]

/-- The activation of the started script is the innermost one. -/
theorem Begun.frames_eq {sh : LuaSh} {dIn : δ} (h : Begun e e' sh dIn) :
    ∃ f fs, (e'.threads ()).frames = f :: fs ∧ f.sh = sh := by
  have hhead := h.head
  cases hfs : (e'.threads ()).frames with
  | nil => simp [hfs] at hhead
  | cons f fs => exact ⟨f, fs, rfl, by simpa [hfs] using hhead⟩

theorem active_countCall {fs : List (Frame δ)} :
    (countCall fs).map (fun f => (f.sh.id, f.dIn)) = fs.map fun f => (f.sh.id, f.dIn) := by
  cases fs <;> rfl

/-- The only thread waits for no mutex. -/
theorem exists_lock (m : RecMutex Unit) : ∃ m', m.lock () = some m' := by
  cases m with
  | free => exact ⟨_, rfl⟩
  | held u k => exact ⟨.held () (k + 1), by simp [RecMutex.lock]⟩

theorem preload_of_conserve (L : LuaState δ) {sh : LuaSh} (load : LoadRes)
    (h : sh.args.env.conserveMem = true) : L.preload sh load = (L, true) := by
  simp [LuaState.preload, h]

theorem getState_true (th : LuaThread δ) :
    th.getState true = some (th.lua.getD LuaState.setup) := by
  unfold LuaThread.getState
  cases th.lua <;> rfl

theorem sigCache_getD (th : LuaThread δ) :
    (th.lua.getD LuaState.setup).sigCache = th.sigCache := by
  unfold LuaThread.sigCache
  cases th.lua <;> rfl

/-- What the lookup before the lock finds and leaves in the cache. -/
theorem preload_spec (L : LuaState δ) {sh : LuaSh} (load : LoadRes)
    (h : sh.args.env.conserveMem = false) :
    ((L.preload sh load).2 = true ↔ sh.id ∈ L.sigCache ∨ luaSigLoadScript load = 0) ∧
    (L.preload sh load).1.sigCache =
      if sh.id ∉ L.sigCache ∧ luaSigLoadScript load = 0 then sh.id :: L.sigCache
      else L.sigCache := by
  by_cases hcached : sh.id ∈ L.sigCache
  · simp [LuaState.preload, h, LuaState.push, LuaState.pop, hcached]
  · by_cases hload : luaSigLoadScript load = 0 <;>
      simp [LuaState.preload, h, LuaState.push, LuaState.pop, hcached, hload]

/-- A lookup that finds the script or loads it leaves the script in the cache. -/
theorem preload_loaded (L : LuaState δ) (sh : LuaSh) {load : LoadRes}
    (hload : luaSigLoadScript load = 0) :
    ∃ L', L.preload sh load = (L', true) ∧
      (∀ id ∈ L'.sigCache, id ∈ L.sigCache ∨ id = sh.id) ∧
      (sh.args.env.conserveMem = false → sh.id ∈ L'.sigCache) := by
  cases hmode : sh.args.env.conserveMem with
  | true => exact ⟨L, preload_of_conserve L load hmode, fun _ h => Or.inl h, by simp⟩
  | false =>
      obtain ⟨htrue, hcache⟩ := preload_spec L load hmode
      refine ⟨(L.preload sh load).1, Prod.ext rfl (htrue.mpr (Or.inr hload)), ?_, fun _ => ?_⟩
      · rw [hcache]
        split_ifs with hnew
        · intro id hid
          exact (List.mem_cons.mp hid).symm
        · exact fun _ h => Or.inl h
      · rw [hcache]
        split_ifs with hnew
        · exact List.mem_cons_self
        · exact not_not.mp fun hmem => hnew ⟨hmem, hload⟩

/-- The part of a call behind the lock leaves the cache alone. -/
theorem locked_sigCache (e : Engine Unit δ) (sh : LuaSh) (dIn : δ) (mtx : RecMutex Unit)
    (load : LoadRes) :
    ((e.locked () sh dIn mtx load).threads ()).sigCache = (e.threads ()).sigCache := by
  unfold locked
  split_ifs
  · simp only [rejectCall, setThread_self]
    rfl
  · simp only [failLoad, setThread_self]
    exact sigCache_getD _
  · simp only [startScript, setThread_self]
    exact sigCache_getD _

section SignalCall

variable {id : String} (dIn : δ) {usrFlags : Int} {load : LoadRes} {sh : LuaSh}
  (hwait : (e.threads ()).wait = none)
include hwait

theorem signalCall_of_returned
    (h : ((e.enter signals () id dIn usrFlags true load).threads ()).wait = none) :
    e.signalCall signals id dIn usrFlags load =
      some (e.enter signals () id dIn usrFlags true load) := by
  simp [signalCall, step, hwait, h]

/-- A call that the plugin manager refuses. -/
theorem signalCall_refused {code : UmplgRet} (load : LoadRes)
    (h : umplgProcSignal signals (some id) usrFlags = .error code) :
    ∃ e', e.signalCall signals id dIn usrFlags load = some e' ∧
      Returned e e' e.running (code, none) ∧
      (e'.threads ()).sigCache = (e.threads ()).sigCache := by
  have henter : e.enter signals () id dIn usrFlags true load =
      e.setThread () { e.threads () with
        frames := countCall (e.threads ()).frames
        last := some (code, none) } := by
    simp [enter, h]
  refine ⟨_, signalCall_of_returned dIn hwait (by simp [henter, hwait]), ?_, ?_⟩
  · rw [henter]
    exact ⟨by simp [hwait], by simp, by simp [active, active_countCall], rfl⟩
  · rw [henter, setThread_self]
    rfl

/-- The engine in front of the mutex of the signal. -/
theorem signalCall_of_waiting {L : LuaState δ}
    (h : umplgProcSignal signals (some id) usrFlags = .ok sh)
    (hpre : ((e.threads ()).lua.getD LuaState.setup).preload sh load = (L, true)) :
    ∃ e₁ mtx, e₁ = e.setThread () { e.threads () with
        frames := countCall (e.threads ()).frames
        lua := some L
        wait := some (sh, dIn) } ∧ (e₁.mtx sh.id).lock () = some mtx ∧
      e.signalCall signals id dIn usrFlags load = some (e₁.locked () sh dIn mtx load) := by
  obtain ⟨mtx, hmtx⟩ := exists_lock (e.mtx sh.id)
  refine ⟨_, mtx, rfl, hmtx, ?_⟩
  have hmtx' : ∀ th, ((e.setThread () th).mtx sh.id).lock () = some mtx := fun _ => hmtx
  simp [signalCall, step, enter, hwait, h, getState_true, hpre, hmtx']

/-- A call whose script cannot be loaded, whether before or behind the lock. -/
theorem signalCall_notLoaded (h : umplgProcSignal signals (some id) usrFlags = .ok sh)
    (hload : luaSigLoadScript load ≠ 0) (hrun : e.running id = false)
    (hcache : sh.args.env.conserveMem = false → id ∉ (e.threads ()).sigCache) :
    ∃ e', e.signalCall signals id dIn usrFlags load = some e' ∧
      Returned e e' e.running (.sigSetupFailed, none) ∧
      (e'.threads ()).sigCache = (e.threads ()).sigCache := by
  obtain rfl : sh.id = id := Signals.id_of_find (umplgProcSignal_ok_iff.mp h).1
  cases hmode : sh.args.env.conserveMem with
  | true =>
      have hpre := preload_of_conserve ((e.threads ()).lua.getD LuaState.setup) load hmode
      obtain ⟨e₁, mtx, he₁, hmtx, hcall⟩ := signalCall_of_waiting dIn hwait h hpre
      have hactive : e₁.active = e.active := by simp [active, he₁, active_countCall]
      refine ⟨_, hcall, ?_, ?_⟩
      · have hrun₁ : e₁.running = e.running := by rw [he₁]; rfl
        rw [locked, hrun₁, if_neg (by simp [hrun]), if_pos ⟨hmode, hload⟩]
        have hfail := failLoad_loadFailed hmtx
        exact ⟨hfail.wait, hfail.last, by rw [← hactive, active, active, hfail.frames],
          by rw [hfail.running, hrun₁]⟩
      · rw [locked_sigCache, he₁, setThread_self]
        exact sigCache_getD _
  | false =>
      obtain ⟨htrue, hsame⟩ := preload_spec ((e.threads ()).lua.getD LuaState.setup) load hmode
      rw [sigCache_getD] at htrue hsame
      have hpre : (((e.threads ()).lua.getD LuaState.setup).preload sh load).2 = false := by
        rw [← Bool.not_eq_true, htrue]
        exact not_or.mpr ⟨hcache hmode, hload⟩
      have henter : e.enter signals () sh.id dIn usrFlags true load =
          e.setThread () { e.threads () with
            frames := countCall (e.threads ()).frames
            lua := some (((e.threads ()).lua.getD LuaState.setup).preload sh load).1
            last := some (.sigSetupFailed, none) } := by
        simp [enter, h, getState_true, hpre]
      refine ⟨_, signalCall_of_returned dIn hwait (by simp [henter, hwait]), ?_, ?_⟩
      · rw [henter]
        exact ⟨by simp [hwait], by simp, by simp [active, active_countCall], rfl⟩
      · rw [henter, setThread_self]
        exact hsame.trans (if_neg fun hnew => hload hnew.2)

/-- A call whose script can be loaded: it is rejected as recursion or the script starts. -/
theorem signalCall_loaded (h : umplgProcSignal signals (some id) usrFlags = .ok sh)
    (hload : luaSigLoadScript load = 0) :
    ∃ e', e.signalCall signals id dIn usrFlags load = some e' ∧
      (if e.running id then
        Returned e e' (Function.update e.running id false) (.success, some (recursionText id))
      else Begun e e' sh dIn) ∧
      (∀ id' ∈ (e'.threads ()).sigCache, id' ∈ (e.threads ()).sigCache ∨ id' = id) ∧
      (sh.args.env.conserveMem = false → id ∈ (e'.threads ()).sigCache) := by
  obtain rfl : sh.id = id := Signals.id_of_find (umplgProcSignal_ok_iff.mp h).1
  obtain ⟨L, hpre, hsub, hmem⟩ :=
    preload_loaded ((e.threads ()).lua.getD LuaState.setup) sh hload
  rw [sigCache_getD] at hsub
  obtain ⟨e₁, mtx, he₁, hmtx, hcall⟩ := signalCall_of_waiting dIn hwait h hpre
  have hcache : (e₁.threads ()).sigCache = L.sigCache := by
    rw [he₁, setThread_self]
    rfl
  have hactive : e₁.active = e.active := by simp [active, he₁, active_countCall]
  refine ⟨_, hcall, ?_, ?_, ?_⟩
  · have hrun : e₁.running = e.running := by rw [he₁]; rfl
    rw [locked, hrun]
    split_ifs with hr hfail
    · have hrej := rejectCall_rejected hmtx
      exact ⟨hrej.wait, hrej.last, by rw [← hactive, active, active, hrej.frames],
        by rw [hrej.running, hrun]⟩
    · exact absurd hload hfail.2
    · have hst := startScript_started hmtx dIn
      exact ⟨hst.wait, by simp [hst.frames], by rw [← hactive, active, active, hst.frames]; rfl,
        by rw [hst.running, hrun]⟩
  · rw [locked_sigCache, hcache]
    exact hsub
  · rw [locked_sigCache, hcache]
    exact hmem

end SignalCall

theorem argsInv_signalCall {id : String} {dIn : δ} {usrFlags : Int} {load : LoadRes}
    (hinv : ∀ t, ArgsInv (e.threads t))
    (h : e.signalCall signals id dIn usrFlags load = some e') (t : Unit) :
    ArgsInv (e'.threads t) := by
  simp only [signalCall, Option.bind_eq_some_iff] at h
  obtain ⟨e₁, hcall, hrest⟩ := h
  have hinv₁ := argsInv_step hinv hcall
  split at hrest
  · exact Option.some.inj hrest ▸ hinv₁ t
  · exact argsInv_step hinv₁ hrest t

/-- The innermost script ends. -/
theorem step_finish (signals : Signals LuaSigArgs) {f : Frame δ} {fs : List (Frame δ)}
    (hwait : (e.threads ()).wait = none) (hframes : (e.threads ()).frames = f :: fs)
    (failed : Bool) (res : LuaResult) :
    ∃ e', e.step signals ((), .finish failed res) = some e' ∧ (e'.threads ()).wait = none ∧
      (e'.threads ()).last = some (luaSigOutput res) ∧ (e'.threads ()).frames = fs ∧
      e'.running = Function.update e.running f.sh.id false ∧
      (e'.threads ()).sigCache = (e.threads ()).sigCache := by
  refine ⟨e.leave () f fs res, by simp [step, hwait, hframes], ?_⟩
  refine ⟨by simp [leave, hwait], by simp [leave], by simp [leave], rfl, ?_⟩
  rw [leave, setThread_self]
  exact sigCache_getD _

end Engine

section Files

variable (vm : LuaVm γ κ δ ω) (files : String → Option String) (signals : Signals LuaSigArgs)

/-- The text of the script of a signal. -/
def scriptText (id : String) : Option String :=
  (signals.find id).bind fun sh => files sh.args.env.path

/-- `luaL_loadfile` on the script of a signal. -/
def loadfile (id : String) : LoadRes :=
  match scriptText files signals id with
  | none => .errFile
  | some text => vm.compile text

/-- The script that waits for the result of a call goes on with it. -/
def resume (r : UmplgRet × Option String) : List κ → List κ
  | [] => []
  | k :: ks => vm.signal k r :: ks

end Files

namespace Session

variable (vm : LuaVm γ κ δ ω) (files : String → Option String) (signals : Signals LuaSigArgs)
  (s : Session γ κ δ ω)

def start (globals : γ) (calls : List (SigCall δ)) : Session γ κ δ ω :=
  ⟨Engine.start, fun _ => none, [], globals, calls, []⟩

/-- The texts of the cached chunks when a call of the signal `id` has led to the engine `e`. -/
def chunksAfter (e : Engine Unit δ) (id : String) : String → Option String :=
  if id ∈ (s.engine.threads ()).sigCache ∨ id ∉ (e.threads ()).sigCache then s.chunks
  else Function.update s.chunks id (scriptText files signals id)

/-- The text of the chunk that is run for a signal: the one just loaded or the one of the
cache. -/
def chunk (sh : LuaSh) : Option String :=
  if sh.args.env.conserveMem then scriptText files signals sh.id else s.chunks sh.id

/-- The last call, of the signal `id`, returns to its caller. -/
def deliver (id : String) : Option (Session γ κ δ ω) :=
  (s.engine.threads ()).last.map fun r =>
    { s with scripts := resume vm r s.scripts, log := s.log ++ [.returned id r.1 r.2] }

/-- `umplg_proc_signal` up to the start of a script or the return. -/
def procSignal (id : String) (dIn : δ) (usrFlags : Int) : Option (Session γ κ δ ω) :=
  (s.engine.signalCall signals id dIn usrFlags (loadfile vm files signals id)).bind fun e =>
    let t : Session γ κ δ ω := { s with
      engine := e
      chunks := s.chunksAfter files signals e id
      log := s.log ++ [.called id dIn] }
    if (e.threads ()).frames.length ≤ s.scripts.length then t.deliver vm id
    else
      match (e.threads ()).frames with
      | [] => none
      | f :: _ => (t.chunk files signals f.sh).map fun text =>
          { t with scripts := vm.start text :: s.scripts }

/-- The next step of the thread. -/
def step : Option (Session γ κ δ ω) :=
  match s.scripts with
  | [] =>
      match s.calls with
      | [] => some s
      | c :: cs => { s with calls := cs }.procSignal vm files signals c.id c.dIn c.usrFlags
  | k :: ks =>
      match vm.next k s.globals with
      | .effect w k g =>
          some { s with scripts := k :: ks, globals := g, log := s.log ++ [.effect w] }
      | .getArgs k =>
          let stdd := (s.engine.threads ()).stdd
          some { s with scripts := vm.getArgs k (minkLuaGetArgs stdd (vm.rawlen stdd)) :: ks }
      | .signal id dIn usrFlags k g =>
          { s with scripts := k :: ks, globals := g }.procSignal vm files signals id dIn usrFlags
      | .finish failed res g =>
          match (s.engine.threads ()).frames with
          | [] => none
          | f :: _ =>
              (s.engine.step signals ((), .finish failed res)).bind fun e =>
                { s with engine := e, scripts := ks, globals := g }.deliver vm f.sh.id

/-- So many steps of the thread. -/
def run : Nat → Session γ κ δ ω → Option (Session γ κ δ ω)
  | 0, s => some s
  | n + 1, s => (s.step vm files signals).bind (run n)

end Session

end Umink.Lua
