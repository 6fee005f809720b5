import Mathlib.Logic.Function.Iterate
import Umink.Lua.Session

/-!
# The two memory modes

With `conserve_memory` a script is loaded behind the lock at every call, without it
the script is loaded in front of the lock and its chunk is kept. What a thread does in
either mode is what a plain thread does that knows no cache, no lock and no tables:
a call looks the signal up, compiles its script and, unless the signal is marked as
running, starts it.
-/

namespace Umink.Lua

open Umink.Library Umink.Plugin

/-- A thread without memory modes. -/
structure Plain (γ κ δ ω : Type*) where
  running : String → Bool
  active : List (String × δ)
  scripts : List κ
  globals : γ
  calls : List (SigCall δ)
  log : List (Obs δ ω)

variable {γ κ δ ω : Type*} (vm : LuaVm γ κ δ ω) (files : String → Option String)
  (signals : Signals LuaSigArgs)

/-- The text of the script of a signal when it compiles. -/
def compiled (id : String) : Option String :=
  (scriptText files signals id).filter fun text => luaSigLoadScript (vm.compile text) = 0

@[simp] theorem length_resume (r : UmplgRet × Option String) (ks : List κ) :
    (resume vm r ks).length = ks.length := by
  cases ks <;> rfl

namespace Plain

variable (p : Plain γ κ δ ω)

/-- A call of the signal `id` returns to its caller. -/
def deliver (id : String) (r : UmplgRet × Option String) : Plain γ κ δ ω :=
  { p with scripts := resume vm r p.scripts, log := p.log ++ [.returned id r.1 r.2] }

/-- A call of the signal `id` up to the start of its script or its return. -/
def procSignal (id : String) (dIn : δ) (usrFlags : Int) : Plain γ κ δ ω :=
  let p : Plain γ κ δ ω := { p with log := p.log ++ [.called id dIn] }
  match umplgProcSignal signals (some id) usrFlags with
  | .error code => p.deliver vm id (code, none)
  | .ok _ =>
      match compiled vm files signals id with
      | none => p.deliver vm id (.sigSetupFailed, none)
      | some text =>
          if p.running id then
            { p with running := Function.update p.running id false }.deliver vm id
              (.success, some (recursionText id))
          else
            { p with
              running := Function.update p.running id true
              active := (id, dIn) :: p.active
              scripts := vm.start text :: p.scripts }

/-- The next step of the thread. -/
def step : Plain γ κ δ ω :=
  match p.scripts with
  | [] =>
      match p.calls with
      | [] => p
      | c :: cs => { p with calls := cs }.procSignal vm files signals c.id c.dIn c.usrFlags
  | k :: ks =>
      match vm.next k p.globals with
      | .effect w k g => { p with scripts := k :: ks, globals := g, log := p.log ++ [.effect w] }
      | .getArgs k =>
          { p with scripts := vm.getArgs k (p.active.head?.map Prod.snd) :: ks }
      | .signal id dIn usrFlags k g =>
          { p with scripts := k :: ks, globals := g }.procSignal vm files signals id dIn usrFlags
      | .finish _ res g =>
          match p.active with
          | [] => p
          | (id, _) :: active =>
              { p with
                running := Function.update p.running id false
                active := active
                scripts := ks
                globals := g }.deliver vm id (luaSigOutput res)

end Plain

/-- What a session looks like without its memory mode. -/
def Session.plain (s : Session γ κ δ ω) : Plain γ κ δ ω :=
  ⟨s.engine.running, s.engine.active, s.scripts, s.globals, s.calls, s.log⟩

/-- A session with `conserve_memory` on or off between two steps. -/
structure Session.Inv (conserveMem : Bool) (s : Session γ κ δ ω) : Prop where
  wait : (s.engine.threads ()).wait = none
  args : ∀ t, ArgsInv (s.engine.threads t)
  scripts : s.scripts.length = (s.engine.threads ()).frames.length
  /-- A signal that is marked as running has a script that compiles. -/
  running : ∀ id, s.engine.running id = true → (compiled vm files signals id).isSome
  /-- The cache holds the scripts as they are in the files. -/
  cached : conserveMem = false → ∀ id ∈ (s.engine.threads ()).sigCache,
    (compiled vm files signals id).isSome ∧ s.chunks id = compiled vm files signals id

section Files

variable {vm : LuaVm γ κ δ ω} {files : String → Option String} {signals : Signals LuaSigArgs}
  {m : Bool}

@[simp] theorem find_inMode (id : String) :
    (inMode m signals).find id = (signals.find id).map (LuaSh.inMode m) :=
  HashTable.find_map (f := LuaSh.inMode m) signals (fun _ => rfl) id

theorem umplgProcSignal_inMode (id : String) (usrFlags : Int) :
    umplgProcSignal (inMode m signals) (some id) usrFlags =
      (umplgProcSignal signals (some id) usrFlags).map (LuaSh.inMode m) := by
  simp only [umplgProcSignal, find_inMode]
  cases signals.find id with
  | none => rfl
  | some sh =>
      simp only [Option.map_some, LuaSh.inMode]
      split_ifs <;> rfl

@[simp] theorem scriptText_inMode (id : String) :
    scriptText files (inMode m signals) id = scriptText files signals id := by
  simp only [scriptText, find_inMode]
  cases signals.find id <;> rfl

@[simp] theorem loadfile_inMode (id : String) :
    loadfile vm files (inMode m signals) id = loadfile vm files signals id := by
  simp only [loadfile, scriptText_inMode]

/-- A script compiles exactly when loading it succeeds. -/
theorem compiled_isSome_iff {id : String} :
    (compiled vm files signals id).isSome ↔
      luaSigLoadScript (loadfile vm files signals id) = 0 := by
  unfold compiled loadfile
  cases scriptText files signals id with
  | none => simp [luaSigLoadScript]
  | some text => by_cases h : luaSigLoadScript (vm.compile text) = 0 <;> simp [Option.filter, h]

/-- A script that compiles is the one in the file. -/
theorem scriptText_eq {id : String} (h : (compiled vm files signals id).isSome) :
    scriptText files signals id = compiled vm files signals id := by
  obtain ⟨text, htext⟩ := Option.isSome_iff_exists.mp h
  rw [htext]
  exact (Option.filter_eq_some_iff.mp htext).1

end Files

namespace Session

variable {vm : LuaVm γ κ δ ω} {files : String → Option String} {signals : Signals LuaSigArgs}
  {m : Bool} {s : Session γ κ δ ω} {e : Engine Unit δ}

theorem running_of_cleared {running : String → Bool} {id id' : String}
    (h : Function.update running id false id' = true) : running id' = true := by
  by_cases heq : id' = id
  · simp [heq] at h
  · rwa [Function.update_of_ne heq] at h

variable (vm files signals s e) in
/-- A call of the signal `id` that led to the engine `e` put nothing into the cache but its
own script, which compiles. -/
def CachesOwn (id : String) : Prop :=
  ∀ id' ∈ (e.threads ()).sigCache, id' ∈ (s.engine.threads ()).sigCache ∨
    id' = id ∧ (compiled vm files signals id).isSome

section Call

variable {id : String} {dIn : δ} {usrFlags : Int} (h : s.Inv vm files signals m)
include h

/-- The cache after a call that put at most a script that compiles into it. -/
theorem Inv.cached_after (hsub : CachesOwn vm files signals s e id) (hm : m = false) :
    ∀ id' ∈ (e.threads ()).sigCache, (compiled vm files signals id').isSome ∧
      s.chunksAfter files (inMode m signals) e id id' = compiled vm files signals id' := by
  intro id' hid'
  unfold chunksAfter
  by_cases hold : id' ∈ (s.engine.threads ()).sigCache
  · refine ⟨(h.cached hm id' hold).1, ?_⟩
    split_ifs with hkeep
    · exact (h.cached hm id' hold).2
    · have hne : id' ≠ id := by
        rintro rfl
        exact hkeep (Or.inl hold)
      rw [Function.update_of_ne hne]
      exact (h.cached hm id' hold).2
  · obtain ⟨rfl, hsome⟩ := (hsub id' hid').resolve_left hold
    refine ⟨hsome, ?_⟩
    rw [if_neg (not_or.mpr ⟨hold, not_not.mpr hid'⟩), Function.update_self, scriptText_inMode]
    exact scriptText_eq hsome

/-- A call that returns without a script. -/
theorem Inv.procSignal_returned {running : String → Bool} {r : UmplgRet × Option String}
    (hcall : s.engine.signalCall (inMode m signals) id dIn usrFlags
      (loadfile vm files signals id) = some e)
    (hret : Engine.Returned s.engine e running r)
    (hrun : ∀ id', running id' = true → s.engine.running id' = true)
    (hsub : ∀ id' ∈ (e.threads ()).sigCache,
      id' ∈ (s.engine.threads ()).sigCache ∨ id' = id ∧ (compiled vm files signals id).isSome) :
    ∃ s', s.procSignal vm files (inMode m signals) id dIn usrFlags = some s' ∧
      s'.Inv vm files signals m ∧
      s'.plain = (⟨running, s.engine.active, s.scripts, s.globals, s.calls,
        s.log ++ [.called id dIn]⟩ : Plain γ κ δ ω).deliver vm id r := by
  have hlen : (e.threads ()).frames.length = s.scripts.length := by
    rw [hret.length_frames, h.scripts]
  refine ⟨⟨e, s.chunksAfter files (inMode m signals) e id, resume vm r s.scripts, s.globals,
    s.calls, s.log ++ [.called id dIn] ++ [.returned id r.1 r.2]⟩, ?_, ?_, ?_⟩
  · simp [procSignal, loadfile_inMode, hcall, hlen, deliver, hret.last]
  · exact {
      wait := hret.wait
      args := Engine.argsInv_signalCall h.args hcall
      scripts := by rw [length_resume, hlen]
      running := fun id' hid' => h.running id' (hrun id' (hret.running ▸ hid'))
      cached := h.cached_after hsub }
  · simp only [plain, Plain.deliver, hret.active, hret.running]

/-- The chunk that is run is the script as it is in the file. -/
theorem Inv.chunk_after {sh : LuaSh} {text : String} (hmode : sh.args.env.conserveMem = m)
    (htext : compiled vm files signals id = some text)
    (hsub : CachesOwn vm files signals s e id) (hmem : m = false → id ∈ (e.threads ()).sigCache) :
    (if sh.args.env.conserveMem then scriptText files signals id
      else s.chunksAfter files (inMode m signals) e id id) = some text := by
  rw [hmode]
  cases hm : m with
  | true => exact (scriptText_eq (htext ▸ rfl)).trans htext
  | false =>
      have hid := (h.cached_after hsub hm id (hmem hm)).2
      rw [hm] at hid
      exact hid.trans htext

/-- A call that starts a script. -/
theorem Inv.procSignal_begun (sh : LuaSh) {text : String} (hid : sh.id = id)
    (hmode : sh.args.env.conserveMem = m)
    (hcall : s.engine.signalCall (inMode m signals) id dIn usrFlags
      (loadfile vm files signals id) = some e)
    (hbegun : Engine.Begun s.engine e sh dIn)
    (htext : compiled vm files signals id = some text)
    (hsub : CachesOwn vm files signals s e id)
    (hmem : m = false → id ∈ (e.threads ()).sigCache) :
    ∃ s', s.procSignal vm files (inMode m signals) id dIn usrFlags = some s' ∧
      s'.Inv vm files signals m ∧
      s'.plain = ⟨Function.update s.engine.running id true, (id, dIn) :: s.engine.active,
        vm.start text :: s.scripts, s.globals, s.calls, s.log ++ [.called id dIn]⟩ := by
  have hlen : (e.threads ()).frames.length = s.scripts.length + 1 := by
    rw [hbegun.length_frames, h.scripts]
  obtain ⟨f, fs, hframes, hsh⟩ := hbegun.frames_eq
  have hchunk := h.chunk_after hmode htext hsub hmem
  refine ⟨⟨e, s.chunksAfter files (inMode m signals) e id, vm.start text :: s.scripts, s.globals,
    s.calls, s.log ++ [.called id dIn]⟩, ?_, ?_, ?_⟩
  · have hgt : ¬ fs.length + 1 ≤ s.scripts.length := by
      rw [hframes, List.length_cons] at hlen
      omega
    simp only [procSignal, loadfile_inMode, hcall, Option.bind_some, hframes, List.length_cons,
      hgt, if_false, chunk, hsh, hid, scriptText_inMode, hchunk, Option.map_some]
  · exact {
      wait := hbegun.wait
      args := Engine.argsInv_signalCall h.args hcall
      scripts := by rw [List.length_cons, hlen]
      running := fun id' hid' => by
        rw [hbegun.running, hid] at hid'
        by_cases heq : id' = id
        · rw [heq, htext]
          rfl
        · rw [Function.update_of_ne heq] at hid'
          exact h.running id' hid'
      cached := h.cached_after hsub }
  · simp only [plain, hbegun.active, hbegun.running, hid]

/-- A call that the plugin manager refuses. -/
theorem Inv.procSignal_refused {code : UmplgRet} (dIn : δ)
    (hproc : umplgProcSignal signals (some id) usrFlags = .error code) :
    ∃ s', s.procSignal vm files (inMode m signals) id dIn usrFlags = some s' ∧
      s'.Inv vm files signals m ∧
      s'.plain = s.plain.procSignal vm files signals id dIn usrFlags := by
  have hproc' : umplgProcSignal (inMode m signals) (some id) usrFlags = .error code := by
    rw [umplgProcSignal_inMode, hproc]
    rfl
  obtain ⟨e, hcall, hret, hcache⟩ :=
    Engine.signalCall_refused dIn h.wait (loadfile vm files signals id) hproc'
  obtain ⟨s', hs', hinv, hplain⟩ := h.procSignal_returned hcall hret (fun _ hr => hr)
    fun id' hid' => Or.inl (hcache ▸ hid')
  refine ⟨s', hs', hinv, ?_⟩
  rw [hplain]
  simp only [Plain.procSignal, hproc, plain]

section Registered

variable {sh : LuaSh} (dIn : δ)
  (hproc : umplgProcSignal signals (some id) usrFlags = .ok sh)
include hproc

omit h in
theorem umplgProcSignal_inMode_ok :
    umplgProcSignal (inMode m signals) (some id) usrFlags = .ok (LuaSh.inMode m sh) := by
  rw [umplgProcSignal_inMode, hproc]
  rfl

/-- A call of a signal whose script does not compile: such a signal is neither running nor
in the cache. -/
theorem Inv.procSignal_notLoaded (htext : compiled vm files signals id = none) :
    ∃ s', s.procSignal vm files (inMode m signals) id dIn usrFlags = some s' ∧
      s'.Inv vm files signals m ∧
      s'.plain = s.plain.procSignal vm files signals id dIn usrFlags := by
  have hload : luaSigLoadScript (loadfile vm files signals id) ≠ 0 := by
    rw [ne_eq, ← compiled_isSome_iff, htext]
    exact Bool.false_ne_true
  have hrun : s.engine.running id = false := by
    rw [← Bool.not_eq_true]
    intro hr
    simpa [htext] using h.running id hr
  have hnew : m = false → id ∉ (s.engine.threads ()).sigCache := by
    intro hm hmem
    simpa [htext] using (h.cached hm id hmem).1
  obtain ⟨e, hcall, hret, hcache⟩ := Engine.signalCall_notLoaded dIn h.wait
    (umplgProcSignal_inMode_ok hproc) hload hrun hnew
  obtain ⟨s', hs', hinv, hplain⟩ := h.procSignal_returned hcall hret (fun _ hr => hr)
    fun id' hid' => Or.inl (hcache ▸ hid')
  refine ⟨s', hs', hinv, ?_⟩
  rw [hplain]
  simp only [Plain.procSignal, hproc, htext, plain]

/-- A call of a signal whose script compiles. -/
theorem Inv.procSignal_loaded {text : String} (htext : compiled vm files signals id = some text) :
    ∃ s', s.procSignal vm files (inMode m signals) id dIn usrFlags = some s' ∧
      s'.Inv vm files signals m ∧
      s'.plain = s.plain.procSignal vm files signals id dIn usrFlags := by
  have hsome : (compiled vm files signals id).isSome := htext ▸ rfl
  obtain ⟨e, hcall, hres, hsub, hmem⟩ := Engine.signalCall_loaded dIn h.wait
    (umplgProcSignal_inMode_ok hproc) (compiled_isSome_iff.mp hsome)
  have hsub' : CachesOwn vm files signals s e id := fun id' hid' =>
    (hsub id' hid').imp_right fun heq => ⟨heq, hsome⟩
  cases hrun : s.engine.running id with
  | true =>
      rw [hrun, if_pos rfl] at hres
      obtain ⟨s', hs', hinv, hplain⟩ :=
        h.procSignal_returned hcall hres (fun _ => running_of_cleared) hsub'
      refine ⟨s', hs', hinv, ?_⟩
      rw [hplain]
      simp only [Plain.procSignal, hproc, htext, plain, hrun, if_true]
  | false =>
      rw [hrun, if_neg Bool.false_ne_true] at hres
      have hid : sh.id = id := Signals.id_of_find (umplgProcSignal_ok_iff.mp hproc).1
      obtain ⟨s', hs', hinv, hplain⟩ :=
        h.procSignal_begun (LuaSh.inMode m sh) hid rfl hcall hres htext hsub' hmem
      refine ⟨s', hs', hinv, ?_⟩
      rw [hplain]
      simp only [Plain.procSignal, hproc, htext, plain, hrun, Bool.false_eq_true, if_false]

end Registered

/-- A call does what a plain call does. -/
theorem Inv.procSignal_plain (id : String) (dIn : δ) (usrFlags : Int) :
    ∃ s', s.procSignal vm files (inMode m signals) id dIn usrFlags = some s' ∧
      s'.Inv vm files signals m ∧
      s'.plain = s.plain.procSignal vm files signals id dIn usrFlags := by
  cases hproc : umplgProcSignal signals (some id) usrFlags with
  | error code => exact h.procSignal_refused dIn hproc
  | ok sh =>
      cases htext : compiled vm files signals id with
      | none => exact h.procSignal_notLoaded dIn hproc htext
      | some text => exact h.procSignal_loaded dIn hproc htext

end Call

/-- The invariant reads neither the globals nor what is yet to be called. -/
theorem Inv.congr {t : Session γ κ δ ω} (h : s.Inv vm files signals m)
    (hengine : t.engine = s.engine) (hchunks : t.chunks = s.chunks)
    (hlen : t.scripts.length = s.scripts.length) : t.Inv vm files signals m where
  wait := hengine ▸ h.wait
  args := hengine ▸ h.args
  scripts := by rw [hlen, hengine, h.scripts]
  running := hengine ▸ h.running
  cached := by
    rw [hengine, hchunks]
    exact h.cached

/-- `M.get_args` reads the input data of the innermost activation. -/
theorem Inv.minkLuaGetArgs_eq (h : s.Inv vm files signals m) :
    minkLuaGetArgs (s.engine.threads ()).stdd (vm.rawlen (s.engine.threads ()).stdd) =
      s.engine.active.head?.map Prod.snd := by
  have hinv := h.args ()
  have hlen : vm.rawlen (s.engine.threads ()).stdd = (s.engine.threads ()).frames.length := by
    rw [← isBorder_argsEntry_iff, ← hinv.stdd]
    refine vm.rawlen_isBorder _ ⟨(s.engine.threads ()).frames.length, ?_⟩
    rw [hinv.stdd, isBorder_argsEntry_iff]
  rw [hlen, hinv.stdd, Engine.active]
  cases (s.engine.threads ()).frames with
  | nil => rfl
  | cons f fs =>
      rw [minkLuaGetArgs, List.length_cons, if_neg (Nat.succ_ne_zero _), argsEntry_cons,
        if_pos rfl]
      rfl

/-- The end of a script does what it does to a plain thread. -/
theorem Inv.finish_plain {k : κ} {ks : List κ} {failed : Bool} {res : LuaResult} {g : γ}
    (h : s.Inv vm files signals m) (hscripts : s.scripts = k :: ks)
    (hnext : vm.next k s.globals = .finish failed res g) :
    ∃ s', s.step vm files (inMode m signals) = some s' ∧ s'.Inv vm files signals m ∧
      s'.plain = s.plain.step vm files signals := by
  obtain ⟨f, fs, hframes⟩ : ∃ f fs, (s.engine.threads ()).frames = f :: fs := by
    have hlen := h.scripts
    cases hfs : (s.engine.threads ()).frames with
    | nil => simp [hscripts, hfs] at hlen
    | cons f fs => exact ⟨f, fs, rfl⟩
  obtain ⟨e, hstep, hwait, hlast, hrest, hrun, hcache⟩ :=
    Engine.step_finish (inMode m signals) h.wait hframes failed res
  refine ⟨⟨e, s.chunks, resume vm (luaSigOutput res) ks, g, s.calls,
    s.log ++ [.returned f.sh.id (luaSigOutput res).1 (luaSigOutput res).2]⟩, ?_, ?_, ?_⟩
  · simp [step, hscripts, hnext, hframes, hstep, deliver, hlast]
  · have hlen := h.scripts
    rw [hscripts, hframes, List.length_cons, List.length_cons] at hlen
    exact {
      wait := hwait
      args := Engine.argsInv_step h.args hstep
      scripts := by
        rw [length_resume, hrest]
        omega
      running := fun id hid => h.running id (running_of_cleared (hrun ▸ hid))
      cached := hcache ▸ h.cached }
  · simp [plain, Plain.step, Plain.deliver, hscripts, hnext, Engine.active, hframes, hrest, hrun]

/-- A step does what a plain step does. -/
theorem Inv.step_plain (h : s.Inv vm files signals m) :
    ∃ s', s.step vm files (inMode m signals) = some s' ∧ s'.Inv vm files signals m ∧
      s'.plain = s.plain.step vm files signals := by
  cases hscripts : s.scripts with
  | nil =>
      cases hcalls : s.calls with
      | nil =>
          exact ⟨s, by simp [step, hscripts, hcalls], h,
            by simp [Plain.step, plain, hscripts, hcalls]⟩
      | cons c cs =>
          have h' : ({ s with calls := cs } : Session γ κ δ ω).Inv vm files signals m :=
            h.congr rfl rfl rfl
          obtain ⟨s', hs', hinv, hplain⟩ := h'.procSignal_plain c.id c.dIn c.usrFlags
          refine ⟨s', by simpa [step, hscripts, hcalls] using hs', hinv, ?_⟩
          rw [hplain]
          simp [Plain.step, plain, hscripts, hcalls]
  | cons k ks =>
      cases hnext : vm.next k s.globals with
      | effect w k' g =>
          refine ⟨_, by simp only [step, hscripts, hnext]; rfl, ?_, ?_⟩
          · exact h.congr rfl rfl (by simp [hscripts])
          · simp [Plain.step, plain, hscripts, hnext]
      | getArgs k' =>
          refine ⟨_, by simp only [step, hscripts, hnext]; rfl, ?_, ?_⟩
          · exact h.congr rfl rfl (by simp [hscripts])
          · simp [Plain.step, plain, hscripts, hnext, h.minkLuaGetArgs_eq]
      | signal id dIn usrFlags k' g =>
          have h' : ({ s with scripts := k' :: ks, globals := g } : Session γ κ δ ω).Inv vm files
              signals m := h.congr rfl rfl (by simp [hscripts])
          obtain ⟨s', hs', hinv, hplain⟩ := h'.procSignal_plain id dIn usrFlags
          refine ⟨s', by simpa [step, hscripts, hnext] using hs', hinv, ?_⟩
          rw [hplain]
          simp [Plain.step, plain, hscripts, hnext]
      | finish failed res g => exact h.finish_plain hscripts hnext

/-- A run does what the plain run of the same length does. -/
theorem Inv.run_plain (h : s.Inv vm files signals m) (n : Nat) :
    ∃ s', s.run vm files (inMode m signals) n = some s' ∧
      s'.plain = (Plain.step vm files signals)^[n] s.plain := by
  induction n generalizing s with
  | zero => exact ⟨s, rfl, rfl⟩
  | succ n ih =>
      obtain ⟨t, ht, hinv, hplain⟩ := h.step_plain
      obtain ⟨s', hs', hplain'⟩ := ih hinv
      refine ⟨s', by rw [run, ht]; exact hs', ?_⟩
      rw [hplain', hplain, Function.iterate_succ_apply]

variable (vm files signals m)

theorem inv_start (globals : γ) (calls : List (SigCall δ)) :
    (start globals calls : Session γ κ δ ω).Inv vm files signals m where
  wait := rfl
  args _ := argsInv_start
  scripts := rfl
  running _ h := absurd h Bool.false_ne_true
  cached _ _ h := nomatch h

end Session

/-- For every set of signals with fixed script files and every sequence of calls, a thread
with `conserve_memory` and one without it have done the same after any number of steps: the
same calls have started, the scripts have had the same side effects and the calls have
returned with the same codes and outputs, in the same order. -/
theorem memory_modes_agree (vm : LuaVm γ κ δ ω) (files : String → Option String)
    (signals : Signals LuaSigArgs) (globals : γ) (calls : List (SigCall δ)) (n : Nat) :
    ∃ on off : Session γ κ δ ω,
      Session.run vm files (inMode true signals) n (.start globals calls) = some on ∧
      Session.run vm files (inMode false signals) n (.start globals calls) = some off ∧
      on.log = off.log ∧ on.globals = off.globals ∧ on.scripts = off.scripts ∧
      on.calls = off.calls := by
  obtain ⟨on, hon, hplain⟩ :=
    (Session.inv_start vm files signals true globals calls).run_plain n
  obtain ⟨off, hoff, hplain'⟩ :=
    (Session.inv_start vm files signals false globals calls).run_plain n
  have heq : on.plain = off.plain := hplain.trans hplain'.symm
  exact ⟨on, off, hon, hoff, congrArg Plain.log heq, congrArg Plain.globals heq,
    congrArg Plain.scripts heq, congrArg Plain.calls heq⟩

end Umink.Lua
