import Umink.Lua.LockBalance

/-!
# Recursion prevention

`shd->running` is one flag for all nesting levels of a signal. The call that is
rejected clears it, although the script it would have recursed into is still
running, so that the flag protects against one nested call and not against the
next. Recursion is prevented along exactly the runs in which no script of a
signal is met by two nested calls of that signal.
-/

namespace Umink.Lua.Engine

open Umink.Library Umink.Plugin

variable {τ δ : Type*} [DecidableEq τ] {signals : Signals LuaSigArgs}

/-- What recursion prevention promises of one action: no stack shows a signal
twice, and a call of an active signal gets to the mutex, which its thread holds
already, and returns with the text and no new activation. -/
structure RecursionPrevented (signals : Signals LuaSigArgs) (e : Engine τ δ) (a : τ × Act δ)
    (e' : Engine τ δ) : Prop where
  nodup : ∀ t, (e'.ids t).Nodup
  call : ∀ id dIn usrFlags created load sh, a.2 = .call id dIn usrFlags created load →
    umplgProcSignal signals (some id) usrFlags = .ok sh → sh.id ∈ e.ids a.1 →
    (e'.threads a.1).wait = some (sh, dIn) ∧ (e'.mtx sh.id).lock a.1 ≠ none ∧
      e'.ids a.1 = e.ids a.1
  lock : ∀ load sh dIn, a.2 = .lock load → (e.threads a.1).wait = some (sh, dIn) →
    sh.id ∈ e.ids a.1 →
    (e'.threads a.1).last = some (.success, some (recursionText sh.id)) ∧
      (e'.threads a.1).wait = none ∧ e'.ids a.1 = e.ids a.1

/-- Records for every thread and signal whether its latest call to pass the
mutex was a nested one. -/
def noteNested (e : Engine τ δ) (nested : τ → String → Bool) (a : τ × Act δ) :
    τ → String → Bool :=
  match a.2, (e.threads a.1).wait with
  | .lock _, some (sh, _) =>
      Function.update nested a.1
        (Function.update (nested a.1) sh.id (decide (sh.id ∈ e.ids a.1)))
  | _, _ => nested

/-- The action is not the second nested call of an active signal: the latest call
of the signal to pass the mutex is the one that started the active script. -/
def FirstNested (s : Engine τ δ × (τ → String → Bool)) (a : τ × Act δ) : Prop :=
  ∀ load sh dIn, a.2 = .lock load → (s.1.threads a.1).wait = some (sh, dIn) →
    sh.id ∈ s.1.ids a.1 → s.2 a.1 sh.id = false

/-- While recursion is prevented, the flag of an active signal is set until its
first nested call, and the flag of every other signal is clear. -/
structure Guarded (signals : Signals LuaSigArgs) (s : Engine τ δ × (τ → String → Bool)) :
    Prop where
  covered : Covered s.1
  nodup : ∀ t, (s.1.ids t).Nodup
  active : ∀ t id, id ∈ s.1.ids t → s.1.running id = !s.2 t id
  idle : ∀ id, (∀ t, id ∉ s.1.ids t) → s.1.running id = false
  prepared : ∀ t, Prepared signals (s.1.threads t)

theorem guarded_start : Guarded signals ((start : Engine τ δ), fun _ _ => false) where
  covered := covered_start
  nodup := by simp [ids, start]
  active := by simp [ids, start]
  idle _ _ := rfl
  prepared := by simp [start, Prepared]

section Step

variable {e e' : Engine τ δ} {nested : τ → String → Bool} {t : τ}

/-- Two threads never run one signal at once. -/
theorem active_unique (hcov : Covered e) {u : τ} {id : String} (ht : id ∈ e.ids t)
    (hu : id ∈ e.ids u) : t = u :=
  RecMutex.holder_unique (Nat.lt_of_lt_of_le (List.count_pos_iff.mpr ht) (hcov t id))
    (Nat.lt_of_lt_of_le (List.count_pos_iff.mpr hu) (hcov u id))

/-- Whoever gets the mutex of an active signal runs it itself. -/
theorem active_of_lock (hcov : Covered e) {u : τ} {id : String} (hu : id ∈ e.ids u)
    (hfree : (e.mtx id).lock t ≠ none) : t = u := by
  obtain ⟨mtx, hmtx⟩ := Option.ne_none_iff_exists'.mp hfree
  by_contra hne
  have hzero : e.depth u id = 0 := RecMutex.depth_eq_zero_of_lock_ne hmtx (Ne.symm hne)
  have hpos : 0 < e.activations u id := List.count_pos_iff.mpr hu
  have := hcov u id
  omega

theorem lock_of_active (hcov : Covered e) {id : String} (h : id ∈ e.ids t) :
    (e.mtx id).lock t ≠ none := by
  have hpos : 0 < (e.mtx id).depth t := Nat.lt_of_lt_of_le (List.count_pos_iff.mpr h) (hcov t id)
  obtain ⟨mtx, hmtx⟩ := RecMutex.lock_of_depth_pos hpos
  simp [hmtx]

/-- The descriptor of an active signal is the registered one. -/
theorem Guarded.ready_of_active (h : Guarded signals (e, nested)) {sh : LuaSh}
    (hfind : signals.find sh.id = some sh) (hmem : sh.id ∈ e.ids t) :
    Ready signals (e.threads t) sh := by
  obtain ⟨f, hf, hid⟩ := List.mem_map.mp hmem
  have hready := (h.prepared t).1 f hf
  have heq : f.sh = sh := Option.some.inj (hready.1.symm.trans (hid ▸ hfind))
  exact heq ▸ hready

/-- The mutex of a waiting thread's signal lets it pass with the flag set exactly
when the thread runs the signal and has not called it since. -/
theorem Guarded.running_iff (h : Guarded signals (e, nested)) {id : String}
    (hfree : (e.mtx id).lock t ≠ none) :
    e.running id = true ↔ id ∈ e.ids t ∧ nested t id = false := by
  constructor
  · intro hrun
    have hmem : id ∈ e.ids t := by
      by_contra hno
      have hidle : e.running id = false := h.idle id fun u hu =>
        hno (active_of_lock h.covered hu hfree ▸ hu)
      simp [hidle] at hrun
    exact ⟨hmem, by simpa [hrun] using h.active t id hmem⟩
  · rintro ⟨hmem, hfirst⟩
    simpa [hfirst] using h.active t id hmem

omit [DecidableEq τ] in
theorem firstNested_lock_iff {sh : LuaSh} {dIn : δ} {load : LoadRes}
    (hwait : (e.threads t).wait = some (sh, dIn)) :
    FirstNested (e, nested) (t, .lock load) ↔ (sh.id ∈ e.ids t → nested t sh.id = false) := by
  constructor
  · exact fun h => h load sh dIn rfl hwait
  · intro h load' sh' dIn' _ hwait'
    obtain ⟨rfl, rfl⟩ : sh = sh' ∧ dIn = dIn' := by simpa [hwait] using hwait'
    exact h

/-- A thread that passes the mutex with the flag clear does so either outside
every script of the signal or for the second time within one. -/
theorem Guarded.firstNested_iff (h : Guarded signals (e, nested)) {sh : LuaSh} {dIn : δ}
    {load : LoadRes} (hwait : (e.threads t).wait = some (sh, dIn))
    (hfree : (e.mtx sh.id).lock t ≠ none) (hrun : e.running sh.id = false) :
    FirstNested (e, nested) (t, .lock load) ↔ sh.id ∉ e.ids t := by
  rw [firstNested_lock_iff hwait]
  constructor
  · intro hfirst hmem
    simp [(h.running_iff hfree).mpr ⟨hmem, hfirst hmem⟩] at hrun
  · exact fun hno hmem => absurd hmem hno

/-- Under the invariant a step keeps the promise exactly when it is no second
nested call. -/
theorem Guarded.prevented_iff (h : Guarded signals (e, nested)) {a : τ × Act δ}
    (hstep : e.step signals a = some e') :
    FirstNested (e, nested) a ↔ RecursionPrevented signals e a e' := by
  obtain ⟨t, act⟩ := a
  cases step_effect hstep with
  | @entered id dIn usrFlags created load hwait heff =>
      refine iff_of_true (by simp [FirstNested]) ⟨?_, ?_, by simp⟩
      · exact fun u => heff.ids u ▸ h.nodup u
      · intro id' dIn' usrFlags' created' load' sh hact hok hmem
        obtain ⟨rfl, rfl, rfl, rfl, rfl⟩ : id = id' ∧ dIn = dIn' ∧ usrFlags = usrFlags' ∧
            created = created' ∧ load = load' := by simpa using hact
        have hfound := (umplgProcSignal_ok_iff.mp hok).1
        rw [← Signals.id_of_find hfound] at hfound
        refine ⟨heff.ready sh hok (h.ready_of_active hfound hmem), ?_, heff.ids t⟩
        exact heff.mtx ▸ lock_of_active h.covered hmem
  | @rejected sh dIn load hwait hfree hrun heff =>
      have hsame := heff.toFrames.ids_of_eq heff.frames
      refine iff_of_true ?_ ⟨fun u => hsame u ▸ h.nodup u, by simp, ?_⟩
      · intro load' sh' dIn' _ hwait' _
        obtain ⟨rfl, rfl⟩ : sh = sh' ∧ dIn = dIn' := by simpa [hwait] using hwait'
        exact ((h.running_iff hfree).mp hrun).2
      · intro load' sh' dIn' _ hwait' _
        obtain ⟨rfl, rfl⟩ : sh = sh' ∧ dIn = dIn' := by simpa [hwait] using hwait'
        exact ⟨heff.last, heff.wait, hsame t⟩
  | @loadFailed sh dIn load hwait hfree hfail heff =>
      have hsame := heff.toFrames.ids_of_eq heff.frames
      rw [h.firstNested_iff hwait hfree hfail.1]
      constructor
      · intro hno
        refine ⟨fun u => hsame u ▸ h.nodup u, by simp, ?_⟩
        intro load' sh' dIn' _ hwait' hmem
        obtain ⟨rfl, rfl⟩ : sh = sh' ∧ dIn = dIn' := by simpa [hwait] using hwait'
        exact absurd hmem hno
      · intro hp hmem
        have hlast := (hp.lock load sh dIn rfl hwait hmem).1
        simp [heff.last] at hlast
  | @started sh dIn load hwait hfree hrun hload heff =>
      rw [h.firstNested_iff hwait hfree hrun]
      constructor
      · intro hno
        refine ⟨fun u => ?_, by simp, ?_⟩
        · by_cases hu : u = t
          · subst hu
            exact heff.ids ▸ List.nodup_cons.mpr ⟨hno, h.nodup u⟩
          · exact heff.toFrames.ids hu ▸ h.nodup u
        · intro load' sh' dIn' _ hwait' hmem
          obtain ⟨rfl, rfl⟩ : sh = sh' ∧ dIn = dIn' := by simpa [hwait] using hwait'
          exact absurd hmem hno
      · intro hp
        have hnodup := hp.nodup t
        rw [heff.ids] at hnodup
        exact (List.nodup_cons.mp hnodup).1
  | left hwait heff =>
      refine iff_of_true (by simp [FirstNested]) ⟨fun u => ?_, by simp, by simp⟩
      by_cases hu : u = t
      · subst hu
        have hnodup := h.nodup u
        rw [heff.ids] at hnodup
        exact hnodup.of_cons
      · exact heff.toFrames.ids hu ▸ h.nodup u

theorem noteNested_lock {sh : LuaSh} {dIn : δ} {load : LoadRes}
    (hwait : (e.threads t).wait = some (sh, dIn)) (u : τ) (id : String) :
    noteNested e nested (t, .lock load) u id =
      if u = t ∧ id = sh.id then decide (sh.id ∈ e.ids t) else nested u id := by
  simp only [noteNested, hwait]
  by_cases hu : u = t
  · subst hu
    by_cases hid : id = sh.id <;> simp [hid]
  · simp [hu]

/-- The flag of an active signal after a step that is no second nested call. -/
theorem Guarded.active_step (h : Guarded signals (e, nested)) {a : τ × Act δ}
    (hfirst : FirstNested (e, nested) a) (hstep : e.step signals a = some e') {u : τ}
    {id : String} (hmem : id ∈ e'.ids u) : e'.running id = !noteNested e nested a u id := by
  obtain ⟨t, act⟩ := a
  have hact : id ∈ e.ids u → e.running id = !nested u id := h.active u id
  cases step_effect hstep with
  | entered hwait heff =>
      rw [heff.ids] at hmem
      exact heff.running ▸ hact hmem
  | @rejected sh dIn load hwait hfree hrun heff =>
      rw [heff.toFrames.ids_of_eq heff.frames] at hmem
      rw [heff.running, noteNested_lock hwait]
      have hself := ((h.running_iff hfree).mp hrun).1
      by_cases hid : id = sh.id
      · subst hid
        simp [active_unique h.covered hmem hself, hself]
      · simpa [hid] using hact hmem
  | @loadFailed sh dIn load hwait hfree hfail heff =>
      rw [heff.toFrames.ids_of_eq heff.frames] at hmem
      have hno := (h.firstNested_iff hwait hfree hfail.1).mp hfirst
      rw [heff.running, noteNested_lock hwait, if_neg, hact hmem]
      rintro ⟨rfl, rfl⟩
      exact hno hmem
  | @started sh dIn load hwait hfree hrun hload heff =>
      have hno := (h.firstNested_iff hwait hfree hrun).mp hfirst
      rw [heff.running, noteNested_lock hwait]
      rcases (heff.mem_ids u id).mp hmem with ⟨rfl, rfl⟩ | hold
      · simp [hno]
      · have hid : id ≠ sh.id := by
          rintro rfl
          exact hno (active_of_lock h.covered hold hfree ▸ hold)
        simpa [hid] using hact hold
  | @left f failed res hwait heff =>
      have hold : id ∈ e.ids u := (heff.mem_ids u id).mpr (Or.inr hmem)
      have hid : id ≠ f.sh.id := by
        rintro rfl
        have hself : f.sh.id ∈ e.ids t := heff.ids ▸ List.mem_cons_self
        obtain rfl := active_unique h.covered hold hself
        have hnodup := h.nodup u
        rw [heff.ids] at hnodup
        exact (List.nodup_cons.mp hnodup).1 hmem
      rw [heff.running, Function.update_of_ne hid]
      exact hact hold

/-- The flag of a signal that is not active after a step is clear. -/
theorem Guarded.idle_step (h : Guarded signals (e, nested)) {a : τ × Act δ}
    (hstep : e.step signals a = some e') {id : String} (hno : ∀ u, id ∉ e'.ids u) :
    e'.running id = false := by
  obtain ⟨t, act⟩ := a
  cases step_effect hstep with
  | entered hwait heff =>
      rw [heff.running]
      exact h.idle id fun u => heff.ids u ▸ hno u
  | @rejected sh dIn load hwait hfree hrun heff =>
      rw [heff.running]
      by_cases hid : id = sh.id
      · simp [hid]
      · rw [Function.update_of_ne hid]
        exact h.idle id fun u => heff.toFrames.ids_of_eq heff.frames u ▸ hno u
  | loadFailed hwait hfree hfail heff =>
      rw [heff.running]
      exact h.idle id fun u => heff.toFrames.ids_of_eq heff.frames u ▸ hno u
  | @started sh dIn load hwait hfree hrun hload heff =>
      have hid : id ≠ sh.id := fun heq => hno t ((heff.mem_ids t id).mpr (Or.inl ⟨rfl, heq⟩))
      rw [heff.running, Function.update_of_ne hid]
      exact h.idle id fun u hu => hno u ((heff.mem_ids u id).mpr (Or.inr hu))
  | @left f failed res hwait heff =>
      rw [heff.running]
      by_cases hid : id = f.sh.id
      · simp [hid]
      · rw [Function.update_of_ne hid]
        apply h.idle id
        intro u hu
        rcases (heff.mem_ids u id).mp hu with ⟨-, heq⟩ | hold
        · exact hid heq
        · exact hno u hold

/-- The invariant survives every step that is no second nested call. -/
theorem Guarded.step (h : Guarded signals (e, nested)) {a : τ × Act δ}
    (hfirst : FirstNested (e, nested) a) (hstep : e.step signals a = some e') :
    Guarded signals (e', noteNested e nested a) where
  covered := covered_step h.covered hstep
  nodup := ((h.prevented_iff hstep).mp hfirst).nodup
  active _ _ hmem := h.active_step hfirst hstep hmem
  idle _ hno := h.idle_step hstep hno
  prepared := prepared_step h.prepared hstep

end Step

/-- Recursion is prevented at every step of a run exactly when, at every step of
it, no nested call of an active signal follows another one. -/
theorem recursion_prevented_iff (acts : List (τ × Act δ)) :
    Trace.Along (step signals) (RecursionPrevented signals) start acts ↔
      Trace.Along (Trace.ghost (step signals) noteNested) (fun s a _ => FirstNested s a)
        (start, fun _ _ => false) acts := by
  rw [← Trace.along_ghost_iff noteNested fun _ _ => false]
  refine (Trace.along_iff_of_invariant (I := Guarded signals) ?_ ?_ guarded_start acts).symm
  · rintro ⟨e, nested⟩ a ⟨e', nested'⟩ h hstep
    exact h.prevented_iff (Trace.ghost_eq_some_iff.mp hstep).1
  · rintro ⟨e, nested⟩ a ⟨e', nested'⟩ h hfirst hstep
    obtain ⟨hstep, rfl⟩ := Trace.ghost_eq_some_iff.mp hstep
    exact h.step hfirst hstep

/-- A script that calls its own signal twice: the second call runs it again. -/
theorem second_self_call_runs :
    ∃ e' : Engine Nat Unit,
      Trace.exec (step [LuaSh.basic "A" false]) start
        [(0, .call "A" () 0 true .ok), (0, .lock .ok), (0, .call "A" () 0 true .ok),
          (0, .lock .ok), (0, .call "A" () 0 true .ok), (0, .lock .ok)] = some e' ∧
      e'.ids 0 = ["A", "A"] ∧ ¬ (e'.ids 0).Nodup :=
  ⟨_, rfl, by decide, by decide⟩

end Umink.Lua.Engine
