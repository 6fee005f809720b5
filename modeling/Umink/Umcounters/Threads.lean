import Mathlib.Algebra.BigOperators.Group.Finset.Basic
import Mathlib.Algebra.Order.BigOperators.Group.Finset
import Umink.Library.CriticalSection
import Umink.Umcounters.Updates

/-!
# Counters that many threads use

The calls of `umcounters.c` cut at every lock and at every access to a counter, for any
number of threads that run their calls in any order. The calls lock the context before
the counter, so that none of them is ever stuck, and they take effect one after another
although the updates of a counter take several steps.

## Implementation notes

A thread starts any call whenever it is between two calls, so a run covers every script;
`M.perf_inc` and `M.perf_set` are two calls. The calls with `lock` unset are left out: the
program makes none.
-/

namespace Umink.Umcounters

open Umink.Library

/-- A call with the reading of the clock that it may make. -/
inductive Entry where
  | newCounter (id : CStr) (type : UmcType)
  | get (id : CStr)
  | getInc (id : CStr) (val now : UInt64)
  | getSet (id : CStr) (val now : UInt64)
  | inc (c : Nat) (val now : UInt64)
  | set (c : Nat) (val now : UInt64)

namespace Entry

/-- The call in one piece. -/
def operation : Entry → Operation
  | newCounter id type => .call (.newCounter id type)
  | get id => .call (.get id)
  | getInc id val now => .call (.getInc id val now)
  | getSet id val now => .call (.getSet id val now)
  | inc c val now => .inc c val now
  | set c val now => .set c val now

/-- The name of the counter that the call looks up and updates, with the update. -/
def names : Entry → Option (CStr × Update)
  | getInc id val now => some (id, .inc val now)
  | getSet id val now => some (id, .set val now)
  | newCounter _ _ | get _ | inc _ _ _ | set _ _ _ => none

/-- The counter that the call updates through a pointer, with the update. -/
def points : Entry → Option (Nat × Update)
  | inc c val now => some (c, .inc val now)
  | set c val now => some (c, .set val now)
  | newCounter _ _ | get _ | getInc _ _ _ | getSet _ _ _ => none

end Entry

/-- A place in `update_value` and in the call of it, between two accesses to the counter. -/
inductive Place where
  /-- The argument of `update_value` is next. -/
  | argument (u : Update)
  /-- The previous value and the check against it. -/
  | previous (val now : UInt64)
  | value (val pv now : UInt64)
  | max (val pv now : UInt64)
  /-- The type and the previous timestamp. -/
  | stamp (val pv now : UInt64)
  | tsDiff (val pv pTs now : UInt64)
  | delta (val pv now : UInt64)
  | tsNsec (now : UInt64)
  | done

/-- One access of `update_value`. -/
def Place.next (p : Place) (c : Umc) : Option (Place × Umc) :=
  match p with
  | .argument (.inc val now) => some (.previous (c.values.last.value + val) now, c)
  | .argument (.set val now) => some (.previous val now, c)
  | .previous val now =>
      let pv := c.values.last.value
      if val ≤ pv ∧ c.type ≠ .gauge then some (.done, c) else some (.value val pv now, c)
  | .value val pv now =>
      some (.max val pv now,
        { c with values := { c.values with last := { c.values.last with value := val } } })
  | .max val pv now =>
      some (.stamp val pv now,
        { c with values := { c.values with max := if val > pv then val else pv } })
  | .stamp val pv now =>
      if c.type ≠ .incremental then some (.done, c)
      else some (.tsDiff val pv c.values.last.tsNsec now, c)
  | .tsDiff val pv pTs now =>
      some (.delta val pv now, { c with values := { c.values with tsDiff := now - pTs } })
  | .delta val pv now =>
      some (.tsNsec now, { c with values := { c.values with delta := (val - pv).toInt64 } })
  | .tsNsec now =>
      some (.done,
        { c with values := { c.values with last := { c.values.last with tsNsec := now } } })
  | .done => none

def Place.left : Place → Nat
  | .argument _ => 8
  | .previous _ _ => 7
  | .value _ _ _ => 6
  | .max _ _ _ => 5
  | .stamp _ _ _ => 4
  | .tsDiff _ _ _ _ => 3
  | .delta _ _ _ => 2
  | .tsNsec _ => 1
  | .done => 0

theorem Place.left_lt {p p' : Place} {c c' : Umc} (h : p.next c = some (p', c')) :
    p'.left < p.left := by
  cases p with
  | done => cases h
  | argument u => cases u <;> cases h <;> simp [Place.left]
  | previous val now =>
      simp only [Place.next] at h
      split_ifs at h <;> cases h <;> simp [Place.left]
  | stamp val pv now =>
      simp only [Place.next] at h
      split_ifs at h <;> cases h <;> simp [Place.left]
  | _ => cases h; simp [Place.left]

/-- `update_value` as a section under `c->mtx`. -/
def updateSection : CriticalSection Place Umc := ⟨Place.next, Place.left, Place.left_lt⟩

/-- Where a thread is in its call. -/
inductive Pc where
  | idle
  /-- The thread waits for `ctx->mtx`. -/
  | lockCtx (e : Entry)
  /-- `HASH_FIND_STR`, with `ctx->mtx` locked. -/
  | find (e : Entry)
  /-- `HASH_ADD_STR` of a new counter, with `ctx->mtx` locked. -/
  | add (id : CStr) (type : UmcType)
  /-- The thread waits for `c->mtx`; `ctx` tells whether `ctx->mtx` is locked. -/
  | lockCounter (e : Entry) (u : Update) (c : Nat) (ctx : Bool)
  /-- The thread is in `update_value`, with `c->mtx` locked. -/
  | update (e : Entry) (p : Place) (c : Nat) (ctx : Bool)
  /-- The thread returns, after it has unlocked `ctx->mtx`. -/
  | unlockCtx (e : Entry) (res : Option Nat)

/-- The end of a call that updated a counter. -/
def Pc.leave (e : Entry) (c : Nat) (ctx : Bool) : Pc :=
  if ctx then .unlockCtx e (some c) else .idle

/-- The context, its mutex, the mutexes of the counters and the threads. -/
structure Shared (τ : Type*) where
  ctx : UmcCtx
  mtx : Option τ
  cmtx : Nat → Option τ
  pc : τ → Pc

inductive Act (τ : Type*) where
  | start (t : τ) (e : Entry)
  | run (t : τ)

namespace Shared

variable {τ : Type*} [DecidableEq τ]

def init : Shared τ := ⟨umcNewCtx, none, fun _ => none, fun _ => .idle⟩

def goto (s : Shared τ) (t : τ) (pc : Pc) : Shared τ := { s with pc := Function.update s.pc t pc }

/-- The first step of a call. -/
def enter (s : Shared τ) (t : τ) (e : Entry) : Option (Shared τ) :=
  match e.points with
  | some (c, u) =>
      if c < s.ctx.counters.length then some (s.goto t (.lockCounter e u c false)) else none
  | none => some (s.goto t (.lockCtx e))

/-- The lookup of a call: a new counter is added, one that is there is returned or updated. -/
def lookup (s : Shared τ) (t : τ) (e : Entry) : Option (Shared τ) :=
  match e with
  | .newCounter id type =>
      match s.ctx.umcGet id with
      | some c => some (s.goto t (.unlockCtx e (some c.addr)))
      | none => some (s.goto t (.add id type))
  | .get id => some (s.goto t (.unlockCtx e ((s.ctx.umcGet id).map Umc.addr)))
  | _ =>
      e.names.map fun (id, u) =>
        match s.ctx.umcGet id with
        | some c => s.goto t (.lockCounter e u c.addr true)
        | none => s.goto t (.unlockCtx e none)

/-- The next step of the call of a thread. -/
def advance (s : Shared τ) (t : τ) : Option (Shared τ) :=
  match s.pc t with
  | .idle => none
  | .lockCtx e =>
      if s.mtx = none then some ({ s with mtx := some t }.goto t (.find e)) else none
  | .find e => s.lookup t e
  | .add id type =>
      let c := Umc.fresh s.ctx.counters.length id type
      some ({ s with ctx := ⟨HashTable.add s.ctx.counters c⟩ }.goto t
        (.unlockCtx (.newCounter id type) (some c.addr)))
  | .lockCounter e u c ctx =>
      if s.cmtx c = none then
        some ({ s with cmtx := Function.update s.cmtx c (some t) }.goto t
          (.update e (.argument u) c ctx))
      else none
  | .update e p c ctx =>
      s.ctx.counters[c]?.bind fun obj =>
        match p.next obj with
        | some (p', obj') =>
            some ({ s with ctx := s.ctx.write c fun o => { o with values := obj'.values } }.goto t
              (.update e p' c ctx))
        | none =>
            some ({ s with cmtx := Function.update s.cmtx c none }.goto t (.leave e c ctx))
  | .unlockCtx _ _ => some ({ s with mtx := none }.goto t .idle)

def step (s : Shared τ) : Act τ → Option (Shared τ)
  | .start t e =>
      match s.pc t with
      | .idle => s.enter t e
      | _ => none
  | .run t => s.advance t

end Shared

/-- What a call gives when it runs in one piece. -/
def Entry.result (ctx : UmcCtx) (e : Entry) : Option Nat :=
  match e.operation with
  | .call a => (ctx.call a).2
  | .inc _ _ _ | .set _ _ _ => none

/-- One call in one piece, with its result. -/
def serialStep (ctx : UmcCtx) (a : Entry × Option Nat) : Option UmcCtx :=
  if a.1.result ctx = a.2 then ctx.operate a.1.operation else none

/-- The call of a thread whose effect is fixed and that has not returned. -/
def Pc.pending : Pc → Option (Entry × Option Nat)
  | .update e _ c ctx => some (e, if ctx then some c else none)
  | .unlockCtx e res => some (e, res)
  | .idle | .lockCtx _ | .find _ | .add _ _ | .lockCounter _ _ _ _ => none

/-- The call of a thread that has not returned. -/
def Pc.entry : Pc → Option Entry
  | .lockCtx e | .find e | .lockCounter e _ _ _ | .update e _ _ _ | .unlockCtx e _ => some e
  | .add id type => some (.newCounter id type)
  | .idle => none

/-- The calls that each thread started, the calls of all threads in the order of their
effects, and the calls that returned to each thread. -/
structure History (τ : Type*) where
  started : τ → List Entry
  serial : List (τ × Entry × Option Nat)
  returned : τ → List (Entry × Option Nat)

section Serial

variable {ctx : UmcCtx} {e : Entry} {id : CStr} {u : Update} {c : Umc}

theorem serialStep_newFound (h : ctx.umcGet id = some c) (type : UmcType) :
    serialStep ctx (.newCounter id type, some c.addr) = some ctx := by
  have hnew := UmcCtx.umcNewCounter_of_some h type
  have hres : (Entry.newCounter id type).result ctx = some c.addr :=
    congrArg (fun r : UmcCtx × Nat => some r.2) hnew
  rw [serialStep, if_pos hres]
  exact congrArg (fun r : UmcCtx × Nat => some r.1) hnew

theorem serialStep_newAbsent (h : ctx.umcGet id = none) (type : UmcType) :
    serialStep ctx (.newCounter id type, some ctx.counters.length) =
      some ⟨ctx.counters ++ [Umc.fresh ctx.counters.length id type]⟩ := by
  have hnew := UmcCtx.umcNewCounter_of_none h type
  have hres : (Entry.newCounter id type).result ctx = some ctx.counters.length :=
    congrArg (fun r : UmcCtx × Nat => some r.2) hnew
  rw [serialStep, if_pos hres]
  exact congrArg (fun r : UmcCtx × Nat => some r.1) hnew

theorem serialStep_get (ctx : UmcCtx) (id : CStr) :
    serialStep ctx (.get id, (ctx.umcGet id).map Umc.addr) = some ctx := if_pos rfl

/-- The call in one piece on the counter of a name. -/
theorem serialStep_names (hnames : e.names = some (id, u)) :
    serialStep ctx (e, (ctx.umcGet id).map Umc.addr) =
      some (ctx.getWrite id fun o => o.apply u).1 := by
  have hres : ∀ f, (ctx.getWrite id f).2 = (ctx.umcGet id).map Umc.addr := fun f => by
    unfold UmcCtx.getWrite
    cases ctx.umcGet id <;> rfl
  cases e with
  | getInc i val now =>
      obtain ⟨rfl, rfl⟩ := Prod.mk.inj (Option.some.inj hnames)
      exact if_pos (hres _)
  | getSet i val now =>
      obtain ⟨rfl, rfl⟩ := Prod.mk.inj (Option.some.inj hnames)
      exact if_pos (hres _)
  | newCounter | get | inc | set => cases hnames

theorem serialStep_found (hnames : e.names = some (id, u)) (h : ctx.umcGet id = some c) :
    serialStep ctx (e, some c.addr) = some (ctx.write c.addr fun o => o.apply u) := by
  have hstep : serialStep ctx _ = _ := serialStep_names hnames
  rwa [UmcCtx.getWrite, h] at hstep

theorem serialStep_missed (hnames : e.names = some (id, u)) (h : ctx.umcGet id = none) :
    serialStep ctx (e, none) = some ctx := by
  have hstep : serialStep ctx _ = _ := serialStep_names hnames
  rwa [UmcCtx.getWrite, h] at hstep

theorem serialStep_points {i : Nat} (hpoints : e.points = some (i, u))
    (hi : i < ctx.counters.length) :
    serialStep ctx (e, none) = some (ctx.write i fun o => o.apply u) := by
  cases e with
  | inc j val now =>
      obtain ⟨rfl, rfl⟩ := Prod.mk.inj (Option.some.inj hpoints)
      exact (if_pos rfl).trans (if_pos hi)
  | set j val now =>
      obtain ⟨rfl, rfl⟩ := Prod.mk.inj (Option.some.inj hpoints)
      exact (if_pos rfl).trans (if_pos hi)
  | newCounter | get | getInc | getSet => cases hpoints

end Serial

variable {τ : Type*} [DecidableEq τ]

/-- Note a call when it starts, when its effect is fixed and when it returns. -/
def noteCall (s : Shared τ) (h : History τ) (a : Act τ) : History τ :=
  match a with
  | .start t e => { h with started := Function.update h.started t (h.started t ++ [e]) }
  | .run t =>
      match s.advance t with
      | none => h
      | some s' =>
          match (s.pc t).pending, (s'.pc t).pending with
          | none, some x => { h with serial := h.serial ++ [(t, x)] }
          | some x, none =>
              { h with returned := Function.update h.returned t (h.returned t ++ [x]) }
          | _, _ => h

/-- The threads with the history of their calls. -/
abbrev stepNoted : Shared τ × History τ → Act τ → Option (Shared τ × History τ) :=
  Trace.ghost Shared.step noteCall

def initNoted : Shared τ × History τ := (Shared.init, ⟨fun _ => [], [], fun _ => []⟩)

section Section

variable (c : Umc)

theorem next_frame {α : Type*} (f : Umc → α) (hf : ∀ c vs, f { c with values := vs } = f c)
    (p : Place) (c : Umc) (p' : Place) (c' : Umc) (h : p.next c = some (p', c')) :
    f c' = f c := by
  cases p with
  | done => cases h
  | argument u => cases u <;> cases h <;> rfl
  | previous val now =>
      simp only [Place.next] at h
      split_ifs at h <;> cases h <;> rfl
  | stamp val pv now =>
      simp only [Place.next] at h
      split_ifs at h <;> cases h <;> rfl
  | _ => cases h; exact hf _ _

theorem next_addr {p p' : Place} {c c' : Umc} (h : p.next c = some (p', c')) :
    c'.addr = c.addr :=
  next_frame Umc.addr (fun _ _ => rfl) p c p' c' h

/-- An access changes the values only. -/
theorem next_values {p p' : Place} {c c' : Umc} (h : p.next c = some (p', c')) :
    { c with values := c'.values } = c' := by
  have hcreated := next_frame Umc.created (fun _ _ => rfl) p c p' c' h
  calc { c with values := c'.values } = { c.created with values := c'.values } := rfl
    _ = { c'.created with values := c'.values } := by rw [hcreated]
    _ = c' := rfl

@[simp] theorem finish_addr (p : Place) : (updateSection.finish p c).addr = c.addr :=
  CriticalSection.finish_frame Umc.addr (next_frame _ fun _ _ => rfl) p c

@[simp] theorem finish_key (p : Place) : (updateSection.finish p c).key = c.key :=
  CriticalSection.finish_frame Umc.key (next_frame _ fun _ _ => rfl) p c

theorem finish_done : updateSection.finish .done c = c :=
  CriticalSection.finish_of_none rfl

/-- The accesses of `update_value` from the check on make the whole of it. -/
theorem finish_previous (val now : UInt64) :
    updateSection.finish (.previous val now) c = updateValue c val now := by
  by_cases hlower : val ≤ c.values.last.value ∧ c.type ≠ .gauge
  · have hnext : updateSection.next (.previous val now) c = some (.done, c) := if_pos hlower
    rw [CriticalSection.finish_of_next hnext, finish_done, updateValue, if_pos hlower]
  · have hnext : updateSection.next (.previous val now) c =
        some (.value val c.values.last.value now, c) := if_neg hlower
    rw [CriticalSection.finish_of_next hnext, updateValue, if_neg hlower,
      CriticalSection.finish_of_next rfl, CriticalSection.finish_of_next rfl]
    by_cases htype : c.type ≠ .incremental
    · rw [if_pos htype, CriticalSection.finish_of_next (if_pos htype), finish_done]
    · rw [if_neg htype, CriticalSection.finish_of_next (if_neg htype),
        CriticalSection.finish_of_next rfl, CriticalSection.finish_of_next rfl,
        CriticalSection.finish_of_next rfl, finish_done]

theorem finish_argument (u : Update) : updateSection.finish (.argument u) c = c.apply u := by
  cases u with
  | inc val now =>
      rw [CriticalSection.finish_of_next rfl]
      exact finish_previous c _ now
  | set val now =>
      rw [CriticalSection.finish_of_next rfl]
      exact finish_previous c val now

/-- The counter after the rest of an update. -/
def Umc.complete (c : Umc) : Option Place → Umc
  | none => c
  | some p => updateSection.finish p c

theorem complete_addr (r : Option Place) : (c.complete r).addr = c.addr := by
  cases r with
  | none => rfl
  | some p => exact finish_addr c p

theorem complete_key (r : Option Place) : (c.complete r).key = c.key := by
  cases r with
  | none => rfl
  | some p => exact finish_key c p

end Section

/-- The thread has locked `ctx->mtx`. -/
def Pc.ctxLocked : Pc → Bool
  | .find _ | .add _ _ | .unlockCtx _ _ => true
  | .lockCounter _ _ _ ctx | .update _ _ _ ctx => ctx
  | .idle | .lockCtx _ => false

/-- The counter whose mutex the thread has locked. -/
def Pc.counterLocked : Pc → Option Nat
  | .update _ _ c _ => some c
  | .idle | .lockCtx _ | .find _ | .add _ _ | .lockCounter _ _ _ _ | .unlockCtx _ _ => none

theorem leave_ctxLocked (e : Entry) (c : Nat) (ctx : Bool) :
    (Pc.leave e c ctx).ctxLocked = ctx := by
  cases ctx <;> rfl

theorem leave_counterLocked (e : Entry) (c : Nat) (ctx : Bool) :
    (Pc.leave e c ctx).counterLocked = none := by
  cases ctx <;> rfl

/-- Where the thread is in `update_value`. -/
def Pc.place : Pc → Option Place
  | .update _ p _ _ => some p
  | .idle | .lockCtx _ | .find _ | .add _ _ | .lockCounter _ _ _ _ | .unlockCtx _ _ => none

/-- What a thread knows of the context from the earlier steps of its call. -/
def Pc.Right (ctx : UmcCtx) : Pc → Prop
  | .lockCtx e | .find e => e.points = none
  | .add id _ => ctx.umcGet id = none
  | .lockCounter e u c true => ∃ id obj, e.names = some (id, u) ∧ ctx.umcGet id = some obj ∧
      obj.addr = c
  | .lockCounter e u c false => e.points = some (c, u) ∧ c < ctx.counters.length
  | .update _ _ c _ => c < ctx.counters.length
  | .idle | .unlockCtx _ _ => True

theorem leave_right (e : Entry) (c : Nat) (locked : Bool) {ctx : UmcCtx} :
    (Pc.leave e c locked).Right ctx := by
  cases locked <;> trivial

namespace Shared

/-- What one step of a call does. -/
inductive Advance (s : Shared τ) (t : τ) : Shared τ → Prop
  | lockCtx {e} (hpc : s.pc t = .lockCtx e) (hfree : s.mtx = none) :
      Advance s t ({ s with mtx := some t }.goto t (.find e))
  | newFound {id type c} (hpc : s.pc t = .find (.newCounter id type))
      (hget : s.ctx.umcGet id = some c) :
      Advance s t (s.goto t (.unlockCtx (.newCounter id type) (some c.addr)))
  | newAbsent {id type} (hpc : s.pc t = .find (.newCounter id type))
      (hget : s.ctx.umcGet id = none) : Advance s t (s.goto t (.add id type))
  | got {id} (hpc : s.pc t = .find (.get id)) :
      Advance s t (s.goto t (.unlockCtx (.get id) ((s.ctx.umcGet id).map Umc.addr)))
  | found {e id u c} (hpc : s.pc t = .find e) (hnames : e.names = some (id, u))
      (hget : s.ctx.umcGet id = some c) : Advance s t (s.goto t (.lockCounter e u c.addr true))
  | missed {e id u} (hpc : s.pc t = .find e) (hnames : e.names = some (id, u))
      (hget : s.ctx.umcGet id = none) : Advance s t (s.goto t (.unlockCtx e none))
  | added {id type} (hpc : s.pc t = .add id type) :
      Advance s t ({ s with
        ctx := ⟨s.ctx.counters ++ [Umc.fresh s.ctx.counters.length id type]⟩ }.goto t
          (.unlockCtx (.newCounter id type) (some s.ctx.counters.length)))
  | lockCounter {e u c ctx} (hpc : s.pc t = .lockCounter e u c ctx) (hfree : s.cmtx c = none) :
      Advance s t ({ s with cmtx := Function.update s.cmtx c (some t) }.goto t
        (.update e (.argument u) c ctx))
  | accessed {e p c ctx obj p' obj'} (hpc : s.pc t = .update e p c ctx)
      (hobj : s.ctx.counters[c]? = some obj) (hnext : p.next obj = some (p', obj')) :
      Advance s t ({ s with ctx := s.ctx.write c fun o => { o with values := obj'.values } }.goto t
        (.update e p' c ctx))
  | updated {e p c ctx obj} (hpc : s.pc t = .update e p c ctx)
      (hobj : s.ctx.counters[c]? = some obj) (hnext : p.next obj = none) :
      Advance s t ({ s with cmtx := Function.update s.cmtx c none }.goto t (.leave e c ctx))
  | unlockCtx {e res} (hpc : s.pc t = .unlockCtx e res) :
      Advance s t ({ s with mtx := none }.goto t .idle)

variable {s s' : Shared τ} {t : τ}

theorem lookup_cases {e : Entry} (hpc : s.pc t = .find e) (h : s.lookup t e = some s') :
    Advance s t s' := by
  cases e with
  | newCounter id type =>
      simp only [lookup] at h
      cases hget : s.ctx.umcGet id with
      | some c =>
          rw [hget] at h
          exact Option.some.inj h ▸ .newFound hpc hget
      | none =>
          rw [hget] at h
          exact Option.some.inj h ▸ .newAbsent hpc hget
  | get id => exact Option.some.inj h ▸ .got hpc
  | inc c val now => cases h
  | set c val now => cases h
  | getInc id val now | getSet id val now =>
      simp only [lookup, Entry.names, Option.map_some, Option.some.injEq] at h
      cases hget : s.ctx.umcGet id with
      | some c =>
          rw [hget] at h
          exact h ▸ .found hpc rfl hget
      | none =>
          rw [hget] at h
          exact h ▸ .missed hpc rfl hget

theorem advance_cases (h : s.advance t = some s') : Advance s t s' := by
  unfold advance at h
  split at h
  case h_1 => cases h
  case h_2 e hpc =>
      obtain ⟨hfree, h⟩ := Option.ite_none_right_eq_some.mp h
      exact Option.some.inj h ▸ .lockCtx hpc hfree
  case h_3 e hpc => exact lookup_cases hpc h
  case h_4 id type hpc => exact Option.some.inj h ▸ .added hpc
  case h_5 e u c ctx hpc =>
      obtain ⟨hfree, h⟩ := Option.ite_none_right_eq_some.mp h
      exact Option.some.inj h ▸ .lockCounter hpc hfree
  case h_6 e p c ctx hpc =>
      obtain ⟨obj, hobj, h⟩ := Option.bind_eq_some_iff.mp h
      cases hnext : p.next obj with
      | some next =>
          simp only [hnext] at h
          exact Option.some.inj h ▸ .accessed hpc hobj hnext
      | none =>
          simp only [hnext] at h
          exact Option.some.inj h ▸ .updated hpc hobj hnext
  case h_7 e res hpc => exact Option.some.inj h ▸ .unlockCtx hpc

/-- The mutexes are held by the threads that are in between their locks and unlocks, and
the threads are right about the context. -/
structure Inv (s : Shared τ) : Prop where
  ctxHolder : ∀ t, s.mtx = some t ↔ (s.pc t).ctxLocked = true
  counterHolder : ∀ c t, s.cmtx c = some t ↔ (s.pc t).counterLocked = some c
  places : s.ctx.counters.map Umc.addr = List.range s.ctx.counters.length
  right : ∀ t, (s.pc t).Right s.ctx

omit [DecidableEq τ] in
theorem inv_init : (init : Shared τ).Inv where
  ctxHolder t := by simp [init, Pc.ctxLocked]
  counterHolder c t := by simp [init, Pc.counterLocked]
  places := rfl
  right _ := trivial

/-- One thread goes on while the others stay where they are. -/
theorem Inv.goto (h : s.Inv) {ctx : UmcCtx} {mtx : Option τ} {cmtx : Nat → Option τ} {pc : Pc}
    (hmtx : ∀ u, mtx = some u ↔ if u = t then pc.ctxLocked = true else s.mtx = some u)
    (hcmtx : ∀ c u, cmtx c = some u ↔
      if u = t then pc.counterLocked = some c else s.cmtx c = some u)
    (hplaces : ctx.counters.map Umc.addr = List.range ctx.counters.length)
    (hright : pc.Right ctx) (hother : ∀ u, u ≠ t → (s.pc u).Right ctx) :
    (Shared.goto ⟨ctx, mtx, cmtx, s.pc⟩ t pc).Inv := by
  have hpc : ∀ u, (Shared.goto ⟨ctx, mtx, cmtx, s.pc⟩ t pc).pc u =
      if u = t then pc else s.pc u := fun u => Function.update_apply _ _ _ _
  refine ⟨fun u => ?_, fun c u => ?_, hplaces, fun u => ?_⟩
  · rw [hpc]
    refine (hmtx u).trans ?_
    split_ifs
    · rfl
    · exact h.ctxHolder u
  · rw [hpc]
    refine (hcmtx c u).trans ?_
    split_ifs
    · rfl
    · exact h.counterHolder c u
  · rw [hpc]
    split_ifs with hu
    · exact hright
    · exact hother u hu

/-- A step that takes and releases no lock and leaves the context as it is. -/
theorem Inv.goto_same (h : s.Inv) {pc : Pc} (hctx : (s.pc t).ctxLocked = pc.ctxLocked)
    (hcounter : (s.pc t).counterLocked = pc.counterLocked) (hright : pc.Right s.ctx) :
    (s.goto t pc).Inv := by
  refine h.goto (fun u => ?_) (fun c u => ?_) h.places hright fun u _ => h.right u
  · split_ifs with hu
    · rw [hu, h.ctxHolder, hctx]
    · rfl
  · split_ifs with hu
    · rw [hu, h.counterHolder, hcounter]
    · rfl

omit [DecidableEq τ] in
/-- Only the holder of `ctx->mtx` has it locked. -/
theorem Inv.ctx_excl (h : s.Inv) {u : τ} (ht : (s.pc t).ctxLocked = true)
    (hu : (s.pc u).ctxLocked = true) : u = t :=
  Option.some.inj (((h.ctxHolder u).mpr hu).symm.trans ((h.ctxHolder t).mpr ht))

omit [DecidableEq τ] in
theorem Inv.addr_lt (h : s.Inv) {c : Umc} (hc : c ∈ s.ctx.counters) :
    c.addr < s.ctx.counters.length := by
  rw [← List.mem_range, ← h.places]
  exact List.mem_map_of_mem hc

omit [DecidableEq τ] in
/-- The counter at a place. -/
theorem Inv.eq_of_addr (h : s.Inv) {i : Nat} {obj c : Umc} (hobj : s.ctx.counters[i]? = some obj)
    (hc : c ∈ s.ctx.counters) (haddr : c.addr = i) : c = obj := by
  obtain ⟨j, hj, rfl⟩ := List.getElem_of_mem hc
  have hplace : (s.ctx.counters.map Umc.addr)[j]? = some j := by
    rw [h.places, List.getElem?_range hj]
  rw [List.getElem?_map, List.getElem?_eq_getElem hj, Option.map_some] at hplace
  obtain rfl := haddr.symm.trans (Option.some.inj hplace)
  rw [List.getElem?_eq_getElem hj] at hobj
  exact Option.some.inj hobj

/-- Updates of counters do not touch what a thread knows. -/
theorem right_write {ctx : UmcCtx} {pc : Pc} (i : Nat) {f : Umc → Umc}
    (haddr : ∀ c, (f c).addr = c.addr) (hkey : ∀ c, (f c).key = c.key) (h : pc.Right ctx) :
    pc.Right (ctx.write i f) := by
  have hlength : (ctx.write i f).counters.length = ctx.counters.length := List.length_map _
  have hget : ∀ id, (ctx.write i f).umcGet id =
      (ctx.umcGet id).map fun c => if c.addr = i then f c else c := by
    refine fun id => HashTable.find_map _ (fun c => ?_) id
    split_ifs
    · exact hkey c
    · rfl
  cases pc with
  | add id type => exact (hget id).trans (by rw [show ctx.umcGet id = none from h, Option.map_none])
  | lockCounter e u c locked =>
      cases locked with
      | true =>
          obtain ⟨id, obj, hnames, hobj, rfl⟩ := h
          refine ⟨id, _, hnames, (hget id).trans (by rw [hobj, Option.map_some]), ?_⟩
          split_ifs
          · exact haddr obj
          · rfl
      | false => exact ⟨h.1, hlength ▸ h.2⟩
  | update e p c locked => exact Nat.lt_of_lt_of_eq h hlength.symm
  | _ => exact h

/-- A new counter is of no concern to the threads without `ctx->mtx`. -/
theorem right_add {ctx : UmcCtx} {pc : Pc} (c : Umc) (hpc : pc.ctxLocked = false)
    (h : pc.Right ctx) : pc.Right ⟨ctx.counters ++ [c]⟩ := by
  have hlength : ctx.counters.length < (ctx.counters ++ [c]).length := by
    rw [List.length_append]
    exact Nat.lt_succ_self _
  cases pc with
  | lockCounter e u i locked =>
      obtain rfl : locked = false := hpc
      exact ⟨h.1, h.2.trans hlength⟩
  | update e p i locked => exact h.trans hlength
  | find e | add id type | unlockCtx e res => cases hpc
  | _ => exact h

theorem places_write (ctx : UmcCtx) (i : Nat) {f : Umc → Umc} (haddr : ∀ c, (f c).addr = c.addr) :
    (ctx.write i f).counters.map Umc.addr = ctx.counters.map Umc.addr := by
  rw [UmcCtx.write, HashTable.modify, List.map_map]
  apply List.map_congr_left
  intro c _
  rw [Function.comp_apply]
  split_ifs
  · exact haddr c
  · rfl

theorem Inv.advance (h : s.Inv) (hst : Advance s t s') : s'.Inv := by
  have hright := h.right t
  cases hst with
  | lockCtx hpc hfree =>
      rw [hpc] at hright
      refine h.goto (fun u => ?_) (fun c u => ?_) h.places hright fun u _ => h.right u
      · rw [hfree]
        split_ifs with hu
        · simp [hu, Pc.ctxLocked]
        · simp [Ne.symm hu]
      · split_ifs with hu
        · simp [h.counterHolder, hu, hpc, Pc.counterLocked]
        · rfl
  | newFound hpc hget => exact h.goto_same (by rw [hpc]; rfl) (by rw [hpc]; rfl) trivial
  | newAbsent hpc hget => exact h.goto_same (by rw [hpc]; rfl) (by rw [hpc]; rfl) hget
  | got hpc => exact h.goto_same (by rw [hpc]; rfl) (by rw [hpc]; rfl) trivial
  | found hpc hnames hget =>
      exact h.goto_same (by rw [hpc]; rfl) (by rw [hpc]; rfl) ⟨_, _, hnames, hget, rfl⟩
  | missed hpc hnames hget => exact h.goto_same (by rw [hpc]; rfl) (by rw [hpc]; rfl) trivial
  | added hpc =>
      have hlocked : (s.pc t).ctxLocked = true := by rw [hpc]; rfl
      refine h.goto (fun u => ?_) (fun c u => ?_) ?_ trivial fun u hu => ?_
      · split_ifs with hu
        · simp [hu, h.ctxHolder, hpc, Pc.ctxLocked]
        · rfl
      · split_ifs with hu
        · simp [hu, h.counterHolder, hpc, Pc.counterLocked]
        · rfl
      · rw [List.length_append, List.map_append, h.places]
        exact List.range_succ.symm
      · apply right_add _ _ (h.right u)
        exact Bool.eq_false_iff.mpr fun hlock => hu (h.ctx_excl hlocked hlock)
  | @lockCounter e u c ctx hpc hfree =>
      rw [hpc] at hright
      refine h.goto (fun u => ?_) (fun i u => ?_) h.places ?_ fun u _ => h.right u
      · split_ifs with hu
        · simp [hu, h.ctxHolder, hpc, Pc.ctxLocked]
        · rfl
      · rw [Function.update_apply]
        by_cases hi : i = c
        · rw [if_pos hi, hi, hfree]
          split_ifs with hu
          · simp [hu, Pc.counterLocked]
          · simp [Ne.symm hu]
        · rw [if_neg hi]
          split_ifs with hu
          · simp [hu, h.counterHolder, hpc, Pc.counterLocked, Ne.symm hi]
          · rfl
      · cases ctx with
        | true =>
            obtain ⟨id, obj, -, hobj, rfl⟩ := hright
            exact h.addr_lt (HashTable.mem_of_find hobj)
        | false => exact hright.2
  | @accessed e p c ctx obj p' obj' hpc hobj hnext =>
      rw [hpc] at hright
      refine h.goto (fun u => ?_) (fun i u => ?_) ?_ ?_ fun u _ => ?_
      · split_ifs with hu
        · simp [hu, h.ctxHolder, hpc, Pc.ctxLocked]
        · rfl
      · split_ifs with hu
        · simp [hu, h.counterHolder, hpc, Pc.counterLocked]
        · rfl
      · refine (places_write s.ctx c fun o => ?_).trans (h.places.trans ?_)
        · rfl
        · rw [UmcCtx.write, HashTable.modify, List.length_map]
      · have hin : (Pc.update e p' c ctx).Right s.ctx := hright
        exact right_write c (fun _ => rfl) (fun _ => rfl) hin
      · exact right_write c (fun _ => rfl) (fun _ => rfl) (h.right u)
  | @updated e p c ctx obj hpc hobj hnext =>
      refine h.goto (fun u => ?_) (fun i u => ?_) h.places ?_ fun u _ => h.right u
      · split_ifs with hu
        · rw [hu, h.ctxHolder, hpc, leave_ctxLocked]
          rfl
        · rfl
      · have hheld : s.cmtx c = some t := by rw [h.counterHolder, hpc]; rfl
        rw [Function.update_apply]
        by_cases hi : i = c
        · rw [if_pos hi, hi, hheld]
          split_ifs with hu
          · simp [leave_counterLocked]
          · simp [Ne.symm hu]
        · rw [if_neg hi]
          split_ifs with hu
          · rw [hu, h.counterHolder, hpc, leave_counterLocked]
            simp [Pc.counterLocked, Ne.symm hi]
          · rfl
      · exact leave_right e c ctx
  | unlockCtx hpc =>
      have hheld : s.mtx = some t := by rw [h.ctxHolder, hpc]; rfl
      refine h.goto (fun u => ?_) (fun c u => ?_) h.places trivial fun u _ => h.right u
      · rw [hheld]
        split_ifs with hu
        · simp [Pc.ctxLocked]
        · simp [Ne.symm hu]
      · split_ifs with hu
        · simp [hu, h.counterHolder, hpc, Pc.counterLocked]
        · rfl

theorem Inv.enter (h : s.Inv) {e : Entry} (hpc : s.pc t = .idle) (hst : s.enter t e = some s') :
    s'.Inv := by
  unfold Shared.enter at hst
  split at hst
  case h_1 c u hpoints =>
      obtain ⟨hc, hst⟩ := Option.ite_none_right_eq_some.mp hst
      obtain rfl := Option.some.inj hst
      exact h.goto_same (by rw [hpc]; rfl) (by rw [hpc]; rfl) ⟨hpoints, hc⟩
  case h_2 hpoints =>
      obtain rfl := Option.some.inj hst
      exact h.goto_same (by rw [hpc]; rfl) (by rw [hpc]; rfl) hpoints

theorem step_cases {a : Act τ} (h : s.step a = some s') :
    (∃ t e, a = .start t e ∧ s.pc t = .idle ∧ s.enter t e = some s') ∨
      ∃ t, a = .run t ∧ s.advance t = some s' := by
  cases a with
  | start t e =>
      simp only [step] at h
      split at h
      case h_1 hpc => exact .inl ⟨t, e, rfl, hpc, h⟩
      case h_2 => cases h
  | run t => exact .inr ⟨t, rfl, h⟩

theorem Inv.step (h : s.Inv) {a : Act τ} (hst : s.step a = some s') : s'.Inv := by
  obtain ⟨t, e, -, hpc, hst⟩ | ⟨t, -, hst⟩ := step_cases hst
  · exact h.enter hpc hst
  · exact h.advance (advance_cases hst)

/-- Where the update of a counter is, while one is under way. -/
def rest (s : Shared τ) (i : Nat) : Option Place := (s.cmtx i).bind fun t => (s.pc t).place

/-- The counter after the update that is under way in it. -/
def outcome (s : Shared τ) (c : Umc) : Umc := c.complete (s.rest c.addr)

/-- The context after all updates that are under way. -/
def completed (s : Shared τ) : UmcCtx := ⟨s.ctx.counters.map s.outcome⟩

omit [DecidableEq τ] in
theorem completed_umcGet (s : Shared τ) (id : CStr) :
    s.completed.umcGet id = (s.ctx.umcGet id).map s.outcome :=
  HashTable.find_map _ (fun c => complete_key c _) id

omit [DecidableEq τ] in
theorem completed_length (s : Shared τ) : s.completed.counters.length = s.ctx.counters.length :=
  List.length_map _

section Goto

variable {ctx : UmcCtx} {mtx : Option τ} {cmtx : Nat → Option τ} {pc : Pc} {i : Nat}

theorem rest_goto_self (h : cmtx i = some t) :
    (Shared.goto ⟨ctx, mtx, cmtx, s.pc⟩ t pc).rest i = pc.place := by
  unfold rest goto
  dsimp only
  rw [h, Option.bind_some, Function.update_self]

theorem rest_goto_other (hsame : cmtx i = s.cmtx i) (hne : s.cmtx i ≠ some t) :
    (Shared.goto ⟨ctx, mtx, cmtx, s.pc⟩ t pc).rest i = s.rest i := by
  unfold rest goto
  dsimp only
  rw [hsame]
  cases hheld : s.cmtx i with
  | none => rfl
  | some u =>
      have hu : u ≠ t := fun heq => hne (heq ▸ hheld)
      rw [Option.bind_some, Option.bind_some, Function.update_of_ne hu]

/-- A thread that holds no counter has no part in what becomes of the counters. -/
theorem completed_goto (h : s.Inv) (hpc : (s.pc t).counterLocked = none) :
    (Shared.goto ⟨s.ctx, mtx, s.cmtx, s.pc⟩ t pc).completed = s.completed := by
  refine congrArg UmcCtx.mk (List.map_congr_left fun c _ => ?_)
  apply congrArg (Umc.complete c)
  apply rest_goto_other rfl
  intro hheld
  rw [h.counterHolder, hpc] at hheld
  cases hheld

end Goto

/-- No thread is in the counter that is added. -/
theorem completed_add (h : s.Inv) {pc : Pc} (hpc : (s.pc t).counterLocked = none) (c : Umc)
    (hc : c.addr = s.ctx.counters.length) :
    ({ s with ctx := ⟨s.ctx.counters ++ [c]⟩ }.goto t pc).completed =
      ⟨s.completed.counters ++ [c]⟩ := by
  have hnot : ∀ i, s.cmtx i ≠ some t := fun i hheld => by
    rw [h.counterHolder, hpc] at hheld
    cases hheld
  have hfree : s.rest c.addr = none := by
    rw [rest, hc, Option.bind_eq_none_iff]
    intro u hu
    have hright := h.right u
    rw [h.counterHolder] at hu
    cases hplace : s.pc u with
    | update e p i ctx =>
        rw [hplace] at hright hu
        obtain rfl := Option.some.inj hu
        exact absurd hright (Nat.lt_irrefl _)
    | _ => rfl
  refine congrArg UmcCtx.mk ((List.map_append ..).trans (congrArg₂ _ ?_ ?_))
  · exact List.map_congr_left fun o _ => congrArg (Umc.complete o) (rest_goto_other rfl (hnot _))
  · refine congrArg (fun o => [o]) ?_
    rw [outcome, rest_goto_other rfl (hnot _), hfree]
    rfl

/-- With the lock of a counter its update takes effect. -/
theorem completed_lock (h : s.Inv) {e : Entry} {u : Update} {c : Nat} {ctx : Bool}
    (hpc : s.pc t = .lockCounter e u c ctx) (hfree : s.cmtx c = none) :
    ({ s with cmtx := Function.update s.cmtx c (some t) }.goto t
      (.update e (.argument u) c ctx)).completed = s.completed.write c fun o => o.apply u := by
  refine congrArg UmcCtx.mk (Eq.trans (List.map_congr_left fun o _ => ?_) (List.map_map ..).symm)
  rw [Function.comp_apply, outcome, outcome, complete_addr]
  by_cases ho : o.addr = c
  · have hrest : s.rest o.addr = none := by rw [rest, ho, hfree, Option.bind_none]
    rw [if_pos ho, hrest, rest_goto_self (by rw [ho, Function.update_self])]
    exact finish_argument o u
  · rw [if_neg ho, rest_goto_other (Function.update_of_ne ho _ _)]
    rw [Ne, h.counterHolder, hpc]
    nofun

/-- An access of an update changes nothing of what the update makes of the counter. -/
theorem completed_access (h : s.Inv) {e : Entry} {p p' : Place} {c : Nat} {ctx : Bool}
    {obj obj' : Umc} (hpc : s.pc t = .update e p c ctx) (hobj : s.ctx.counters[c]? = some obj)
    (hnext : p.next obj = some (p', obj')) :
    ({ s with ctx := s.ctx.write c fun o => { o with values := obj'.values } }.goto t
      (.update e p' c ctx)).completed = s.completed := by
  have hheld : s.cmtx c = some t := by rw [h.counterHolder, hpc]; rfl
  refine congrArg UmcCtx.mk ((List.map_map ..).trans (List.map_congr_left fun o ho => ?_))
  rw [Function.comp_apply]
  by_cases haddr : o.addr = c
  · obtain rfl := h.eq_of_addr hobj ho haddr
    have hrest : s.rest o.addr = some p := by
      rw [rest, haddr, hheld, Option.bind_some, hpc]
      rfl
    dsimp only
    rw [if_pos haddr, next_values hnext, outcome, outcome, hrest,
      rest_goto_self ((congrArg s.cmtx ((next_addr hnext).trans haddr)).trans hheld)]
    exact (CriticalSection.finish_of_next hnext).symm
  · rw [if_neg haddr]
    apply congrArg (Umc.complete o)
    apply rest_goto_other rfl
    rw [Ne, h.counterHolder, hpc]
    exact fun heq => haddr (Option.some.inj heq).symm

/-- The end of an update. -/
theorem completed_unlock (h : s.Inv) {e : Entry} {p : Place} {c : Nat} {ctx : Bool}
    {obj : Umc} (hpc : s.pc t = .update e p c ctx) (hobj : s.ctx.counters[c]? = some obj)
    (hnext : p.next obj = none) :
    ({ s with cmtx := Function.update s.cmtx c none }.goto t (.leave e c ctx)).completed =
      s.completed := by
  have hheld : s.cmtx c = some t := by rw [h.counterHolder, hpc]; rfl
  refine congrArg UmcCtx.mk (List.map_congr_left fun o ho => ?_)
  by_cases haddr : o.addr = c
  · obtain rfl := h.eq_of_addr hobj ho haddr
    have hrest : s.rest o.addr = some p := by
      rw [rest, haddr, hheld, Option.bind_some, hpc]
      rfl
    rw [outcome, outcome, hrest, rest, goto]
    dsimp only
    rw [haddr, Function.update_self]
    exact (CriticalSection.finish_of_none hnext).symm
  · apply congrArg (Umc.complete o)
    apply rest_goto_other (Function.update_of_ne haddr _ _)
    rw [Ne, h.counterHolder, hpc]
    exact fun heq => haddr (Option.some.inj heq).symm

/-- The calls in the order of their effects make the context. -/
structure Serial (s : Shared τ) (h : History τ) : Prop where
  inv : s.Inv
  calls : ∀ t, h.started t = (h.returned t).map Prod.fst ++ (s.pc t).entry.toList
  serial : Trace.exec serialStep umcNewCtx (h.serial.map Prod.snd) = some s.completed
  history : ∀ t, (h.serial.filter fun x => x.1 = t).map Prod.snd =
    h.returned t ++ (s.pc t).pending.toList

theorem serial_init : Serial (init : Shared τ) ⟨fun _ => [], [], fun _ => []⟩ :=
  ⟨inv_init, fun _ => rfl, rfl, fun _ => rfl⟩

theorem goto_self (s : Shared τ) (t : τ) (pc : Pc) : (s.goto t pc).pc t = pc :=
  Function.update_self ..

theorem advance_other (h : Advance s t s') {u : τ} (hu : u ≠ t) : s'.pc u = s.pc u := by
  cases h <;> exact Function.update_of_ne hu _ _

section Note

variable {g : History τ} {x : Entry × Option Nat}

/-- A step that fixes no call's effect and returns from no call. -/
theorem Serial.quiet (h : Serial s g) (hst : s.advance t = some s')
    (hentry : (s'.pc t).entry = (s.pc t).entry)
    (hpending : (s'.pc t).pending = (s.pc t).pending) (hsame : s'.completed = s.completed) :
    Serial s' (noteCall s g (.run t)) := by
  have hnote : noteCall s g (.run t) = g := by
    simp only [noteCall, hst, hpending]
    cases (s.pc t).pending <;> rfl
  rw [hnote]
  refine ⟨h.inv.advance (advance_cases hst), fun u => ?_, hsame ▸ h.serial, fun u => ?_⟩
  · rw [h.calls u]
    by_cases hu : u = t
    · rw [hu, hentry]
    · rw [advance_other (advance_cases hst) hu]
  · rw [h.history u]
    by_cases hu : u = t
    · rw [hu, hpending]
    · rw [advance_other (advance_cases hst) hu]

/-- A step that fixes the effect of a call. -/
theorem Serial.effect (h : Serial s g) (hst : s.advance t = some s')
    (hentry : (s'.pc t).entry = (s.pc t).entry)
    (hbefore : (s.pc t).pending = none) (hafter : (s'.pc t).pending = some x)
    (hserial : serialStep s.completed x = some s'.completed) :
    Serial s' (noteCall s g (.run t)) := by
  have hnote : noteCall s g (.run t) = { g with serial := g.serial ++ [(t, x)] } := by
    simp only [noteCall, hst, hbefore, hafter]
  rw [hnote]
  refine ⟨h.inv.advance (advance_cases hst), fun u => ?_, ?_, fun u => ?_⟩
  · dsimp only
    rw [h.calls u]
    by_cases hu : u = t
    · rw [hu, hentry]
    · rw [advance_other (advance_cases hst) hu]
  · rw [List.map_append]
    exact (Trace.exec_append_iff ..).mpr ⟨_, h.serial, (Trace.exec_cons_iff ..).mpr
      ⟨_, hserial, rfl⟩⟩
  · rw [List.filter_append, List.map_append, h.history u]
    by_cases hu : u = t
    · simp [hu, hbefore, hafter]
    · simp [advance_other (advance_cases hst) hu, Ne.symm hu]

/-- A step with which a call returns. -/
theorem Serial.return (h : Serial s g) (hst : s.advance t = some s')
    (hentry : (s.pc t).entry = some x.1) (hidle : s'.pc t = .idle)
    (hbefore : (s.pc t).pending = some x) (hsame : s'.completed = s.completed) :
    Serial s' (noteCall s g (.run t)) := by
  have hafter : (s'.pc t).pending = none := congrArg Pc.pending hidle
  have hnote : noteCall s g (.run t) =
      { g with returned := Function.update g.returned t (g.returned t ++ [x]) } := by
    simp only [noteCall, hst, hbefore, hafter]
  rw [hnote]
  refine ⟨h.inv.advance (advance_cases hst), fun u => ?_, hsame ▸ h.serial, fun u => ?_⟩
  · dsimp only
    rw [h.calls u]
    by_cases hu : u = t
    · rw [hu, hidle, hentry]
      simp [Pc.entry]
    · simp [advance_other (advance_cases hst) hu, hu]
  · dsimp only
    rw [h.history u]
    by_cases hu : u = t
    · simp [hu, hbefore, hafter]
    · simp [advance_other (advance_cases hst) hu, hu]

theorem Serial.advance (h : Serial s g) (hst : s.advance t = some s') :
    Serial s' (noteCall s g (.run t)) := by
  have hright := h.inv.right t
  cases advance_cases hst with
  | lockCtx hpc hfree =>
      exact h.quiet hst (by rw [goto_self, hpc]; rfl) (by rw [goto_self, hpc]; rfl)
        (completed_goto h.inv (by rw [hpc]; rfl))
  | newFound hpc hget =>
      apply h.effect hst (by rw [goto_self, hpc]; rfl) (by rw [hpc]; rfl)
        (congrArg Pc.pending (goto_self ..))
      refine Eq.trans ?_ (congrArg some (completed_goto h.inv (by rw [hpc]; rfl)).symm)
      rw [← complete_addr _ (s.rest _)]
      exact serialStep_newFound ((completed_umcGet s _).trans (by rw [hget]; rfl)) _
  | newAbsent hpc hget =>
      exact h.quiet hst (by rw [goto_self, hpc]; rfl) (by rw [goto_self, hpc]; rfl)
        (completed_goto h.inv (by rw [hpc]; rfl))
  | @got id hpc =>
      apply h.effect hst (by rw [goto_self, hpc]; rfl) (by rw [hpc]; rfl)
        (congrArg Pc.pending (goto_self ..))
      refine Eq.trans ?_ (congrArg some (completed_goto h.inv (by rw [hpc]; rfl)).symm)
      have haddr : (s.ctx.umcGet id).map Umc.addr = (s.completed.umcGet id).map Umc.addr := by
        rw [completed_umcGet, Option.map_map]
        exact Option.map_congr fun c _ => (complete_addr c _).symm
      rw [haddr]
      exact serialStep_get s.completed id
  | found hpc hnames hget =>
      exact h.quiet hst (by rw [goto_self, hpc]; rfl) (by rw [goto_self, hpc]; rfl)
        (completed_goto h.inv (by rw [hpc]; rfl))
  | missed hpc hnames hget =>
      apply h.effect hst (by rw [goto_self, hpc]; rfl) (by rw [hpc]; rfl)
        (congrArg Pc.pending (goto_self ..))
      refine Eq.trans ?_ (congrArg some (completed_goto h.inv (by rw [hpc]; rfl)).symm)
      exact serialStep_missed hnames ((completed_umcGet s _).trans (by rw [hget]; rfl))
  | @added id type hpc =>
      rw [hpc] at hright
      apply h.effect hst (by rw [goto_self, hpc]; rfl) (by rw [hpc]; rfl)
        (congrArg Pc.pending (goto_self ..))
      have hget : s.completed.umcGet id = none := by
        rw [completed_umcGet, show s.ctx.umcGet id = none from hright, Option.map_none]
      have hnew := serialStep_newAbsent hget type
      rw [completed_length] at hnew
      rw [hnew, completed_add h.inv (by rw [hpc]; rfl) _ rfl]
  | @lockCounter e u c ctx hpc hfree =>
      rw [hpc] at hright
      apply h.effect hst (by rw [goto_self, hpc]; rfl) (by rw [hpc]; rfl)
        (congrArg Pc.pending (goto_self ..))
      rw [completed_lock h.inv hpc hfree]
      cases ctx with
      | true =>
          obtain ⟨id, obj, hnames, hobj, rfl⟩ := hright
          have hget : s.completed.umcGet id = some (s.outcome obj) :=
            (completed_umcGet s id).trans (by rw [hobj]; rfl)
          have hstep := serialStep_found hnames hget
          rwa [outcome, complete_addr] at hstep
      | false => exact serialStep_points hright.1 ((completed_length s).symm ▸ hright.2)
  | @accessed e p c ctx obj p' obj' hpc hobj hnext =>
      exact h.quiet hst (by rw [goto_self, hpc]; rfl) (by rw [goto_self, hpc]; rfl)
        (completed_access h.inv hpc hobj hnext)
  | @updated e p c ctx obj hpc hobj hnext =>
      have hsame := completed_unlock h.inv hpc hobj hnext
      cases ctx with
      | true =>
          exact h.quiet hst (by rw [goto_self, hpc]; rfl) (by rw [goto_self, hpc]; rfl) hsame
      | false =>
          exact h.return (x := (e, none)) hst (by rw [hpc]; rfl) (goto_self ..) (by rw [hpc]; rfl)
            hsame
  | @unlockCtx e res hpc =>
      exact h.return (x := (e, res)) hst (by rw [hpc]; rfl) (goto_self ..) (by rw [hpc]; rfl)
        (completed_goto h.inv (by rw [hpc]; rfl))

theorem Serial.enter (h : Serial s g) {e : Entry} (hpc : s.pc t = .idle)
    (hst : s.enter t e = some s') : Serial s' (noteCall s g (.start t e)) := by
  have hgoto : ∃ pc, s' = s.goto t pc ∧ pc.entry = some e ∧ pc.pending = none := by
    unfold Shared.enter at hst
    split at hst
    case h_1 c u hpoints =>
        obtain ⟨-, hst⟩ := Option.ite_none_right_eq_some.mp hst
        exact ⟨_, (Option.some.inj hst).symm, rfl, rfl⟩
    case h_2 hpoints => exact ⟨_, (Option.some.inj hst).symm, rfl, rfl⟩
  have hinv := h.inv.enter hpc hst
  obtain ⟨pc, rfl, hentry, hpending⟩ := hgoto
  have hsame : (s.goto t pc).completed = s.completed :=
    completed_goto h.inv (by rw [hpc]; rfl)
  have hother : ∀ u, u ≠ t → (s.goto t pc).pc u = s.pc u := fun u hu =>
    Function.update_of_ne hu _ _
  refine ⟨hinv, fun u => ?_, hsame ▸ h.serial, fun u => ?_⟩
  · dsimp only [noteCall]
    by_cases hu : u = t
    · rw [hu, goto_self, hentry, Function.update_self, h.calls t, hpc]
      simp [Pc.entry]
    · rw [hother u hu, Function.update_of_ne hu, h.calls u]
  · refine (h.history u).trans ?_
    by_cases hu : u = t
    · rw [hu, goto_self, hpending, hpc]
      rfl
    · rw [hother u hu]
      rfl

theorem Serial.step {a : Act τ} {x y : Shared τ × History τ} (h : Serial x.1 x.2)
    (hst : stepNoted x a = some y) : Serial y.1 y.2 := by
  obtain ⟨hst, hnote⟩ := Trace.ghost_eq_some_iff.mp hst
  rw [← hnote]
  obtain ⟨t, e, rfl, hpc, hst⟩ | ⟨t, rfl, hst⟩ := step_cases hst
  · exact h.enter hpc hst
  · exact h.advance hst

end Note

end Shared

/-- However the threads interleave, every call is made once and returns the result that it
has when the calls run one after another in the order of their effects, and every counter
that no thread is updating is what these calls make of it. -/
theorem calls_serializable {τ : Type*} [DecidableEq τ] {as : List (Act τ)} {s : Shared τ}
    {g : History τ} (h : Trace.exec stepNoted initNoted as = some (s, g)) :
    (∀ t, g.started t = (g.returned t).map Prod.fst ++ (s.pc t).entry.toList) ∧
    (∀ t, (g.serial.filter fun x => x.1 = t).map Prod.snd =
      g.returned t ++ (s.pc t).pending.toList) ∧
    ∃ ctx, Trace.exec serialStep umcNewCtx (g.serial.map Prod.snd) = some ctx ∧
      ctx.counters.length = s.ctx.counters.length ∧
      ∀ i, s.cmtx i = none → ctx.counters[i]? = s.ctx.counters[i]? := by
  have hserial : s.Serial g :=
    Trace.exec_invariant (I := fun x => x.1.Serial x.2) (fun _ _ _ hx hst => hx.step hst)
      Shared.serial_init h
  refine ⟨hserial.calls, hserial.history, s.completed, hserial.serial, s.completed_length, ?_⟩
  intro i hi
  rw [Shared.completed, List.getElem?_map]
  cases hobj : s.ctx.counters[i]? with
  | none => rfl
  | some obj =>
      have hplace : (s.ctx.counters.map Umc.addr)[i]? = some obj.addr := by
        rw [List.getElem?_map, hobj, Option.map_some]
      rw [hserial.inv.places] at hplace
      obtain ⟨_, haddr⟩ := List.getElem?_eq_some_iff.mp hplace
      rw [List.getElem_range] at haddr
      rw [Option.map_some, Shared.outcome, Shared.rest, ← haddr, hi]
      rfl

/-- The second thread comes to the counter while the first one is in `update_value`. -/
def twoThreads : List (Act Bool) :=
  [.start true (.newCounter .empty .incremental), .run true, .run true, .run true, .run true,
    .start true (.inc 0 2 10), .run true, .run true, .run true, .run true,
    .start false (.getInc .empty 3 20), .run false, .run false,
    .run true, .run true, .run true, .run true, .run true, .run true,
    .run false, .run false, .run false, .run false]

theorem calls_serializable_two :
    ∃ s g, Trace.exec stepNoted initNoted twoThreads = some (s, g) ∧
      g.serial.map Prod.fst = [true, true, false] ∧
      ∃ ctx, Trace.exec serialStep umcNewCtx (g.serial.map Prod.snd) = some ctx ∧
        ctx.counters.length = s.ctx.counters.length ∧
        ∀ i, s.cmtx i = none → ctx.counters[i]? = s.ctx.counters[i]? :=
  ⟨_, _, rfl, rfl, (@calls_serializable Bool _ twoThreads _ _ rfl).2.2⟩

/-- How many steps a call has left at most. -/
def Pc.left : Pc → Nat
  | .idle => 0
  | .unlockCtx _ _ => 1
  | .add _ _ => 2
  | .update _ p _ _ => p.left + 2
  | .lockCounter _ _ _ _ => 11
  | .find _ => 12
  | .lockCtx _ => 13

namespace Shared

variable {s s' : Shared τ} {t : τ}

theorem left_lt_of_advance (h : Advance s t s') : (s'.pc t).left < (s.pc t).left := by
  cases h with
  | @accessed e p c ctx obj p' obj' hpc hobj hnext =>
      rw [hpc, goto_self]
      exact Nat.add_lt_add_right (Place.left_lt hnext) 2
  | @updated e p c ctx obj hpc hobj hnext =>
      rw [hpc, goto_self]
      cases ctx <;> simp [Pc.leave, Pc.left]
  | lockCtx hpc | newFound hpc | newAbsent hpc | got hpc | found hpc | missed hpc | added hpc
  | lockCounter hpc | unlockCtx hpc =>
      rw [hpc, goto_self]
      simp [Pc.left, Place.left]

/-- A thread in a counter can go on. -/
theorem Inv.advance_update (h : s.Inv) {e : Entry} {p : Place} {c : Nat} {ctx : Bool}
    (hpc : s.pc t = .update e p c ctx) : ∃ s', s.advance t = some s' := by
  have hright := h.right t
  rw [hpc] at hright
  have hobj := List.getElem?_eq_getElem hright
  unfold Shared.advance
  simp only [hpc, hobj, Option.bind_some]
  split
  · exact ⟨_, rfl⟩
  · exact ⟨_, rfl⟩

/-- A lookup ends. -/
theorem lookup_total {e : Entry} (h : e.points = none) : ∃ s', s.lookup t e = some s' := by
  cases e with
  | newCounter id type =>
      simp only [lookup]
      split
      · exact ⟨_, rfl⟩
      · exact ⟨_, rfl⟩
  | get id => exact ⟨_, rfl⟩
  | getInc id val now => exact ⟨_, rfl⟩
  | getSet id val now => exact ⟨_, rfl⟩
  | inc c val now => cases h
  | set c val now => cases h

/-- While a call has not returned, some thread can go on: one in a counter, or else the one
that has locked the context, or else any of the waiting ones. -/
theorem Inv.progress (h : s.Inv) (hbusy : s.pc t ≠ .idle) : ∃ u s', s.advance u = some s' := by
  by_cases hin : ∃ u e p c ctx, s.pc u = .update e p c ctx
  · obtain ⟨u, e, p, c, ctx, hpc⟩ := hin
    exact ⟨u, h.advance_update hpc⟩
  · have hfree : ∀ c, s.cmtx c = none := by
      intro c
      cases hheld : s.cmtx c with
      | none => rfl
      | some u =>
          rw [h.counterHolder] at hheld
          cases hpc : s.pc u with
          | update e p i ctx => exact absurd ⟨u, e, p, i, ctx, hpc⟩ hin
          | _ => rw [hpc] at hheld; cases hheld
    -- a thread that does not wait for the context can go on
    have hgo : ∀ u, s.pc u ≠ .idle → (∀ e, s.pc u ≠ .lockCtx e) →
        ∃ s', s.advance u = some s' := by
      intro u hidle hwait
      have hright := h.right u
      cases hpc : s.pc u with
      | idle => exact absurd hpc hidle
      | lockCtx e => exact absurd hpc (hwait e)
      | find e =>
          rw [hpc] at hright
          obtain ⟨s', hs'⟩ := lookup_total (s := s) (t := u) hright
          exact ⟨s', by rw [Shared.advance, hpc]; exact hs'⟩
      | add id type => exact ⟨_, by rw [Shared.advance, hpc]⟩
      | lockCounter e v c ctx => exact ⟨_, by rw [Shared.advance, hpc]; exact if_pos (hfree c)⟩
      | update e p c ctx => exact absurd ⟨u, e, p, c, ctx, hpc⟩ hin
      | unlockCtx e res => exact ⟨_, by rw [Shared.advance, hpc]⟩
    cases hmtx : s.mtx with
    | some u =>
        have hlocked := (h.ctxHolder u).mp hmtx
        refine ⟨u, hgo u (fun hpc => ?_) fun e hpc => ?_⟩
        · rw [hpc] at hlocked
          cases hlocked
        · rw [hpc] at hlocked
          cases hlocked
    | none =>
        by_cases hwait : ∃ e, s.pc t = .lockCtx e
        · obtain ⟨e, hpc⟩ := hwait
          exact ⟨t, _, by rw [Shared.advance, hpc]; exact if_pos hmtx⟩
        · exact ⟨t, hgo t hbusy fun e hpc => hwait ⟨e, hpc⟩⟩

/-- A step of a thread brings the threads closer to the end of their calls. -/
theorem left_advance [Fintype τ] (h : Advance s t s') :
    ∑ u, (s'.pc u).left < ∑ u, (s.pc u).left := by
  apply Finset.sum_lt_sum
  · intro u _
    by_cases hu : u = t
    · rw [hu]
      exact (left_lt_of_advance h).le
    · rw [advance_other h hu]
  · exact ⟨t, Finset.mem_univ t, left_lt_of_advance h⟩

end Shared

/-- The locks are never held up: when no new calls start, the threads are through with
their calls after a bounded number of steps, in whatever order they go on, and as long as
one of them is not, some thread can go on. -/
theorem calls_return {τ : Type*} [DecidableEq τ] [Fintype τ] {as : List (Act τ)} {s : Shared τ}
    (h : Trace.exec Shared.step Shared.init as = some s) {ts : List τ} {s' : Shared τ}
    (hrun : Trace.exec Shared.step s (ts.map Act.run) = some s') :
    ts.length + ∑ t, (s'.pc t).left ≤ ∑ t, (s.pc t).left ∧
      ((∀ t, s'.pc t = .idle) ∨ ∃ t s'', s'.step (.run t) = some s'') := by
  have hinv : s.Inv :=
    Trace.exec_invariant (fun _ _ _ hs hst => hs.step hst) Shared.inv_init h
  have hinv' : s'.Inv := Trace.exec_invariant (fun _ _ _ hs hst => hs.step hst) hinv hrun
  constructor
  · clear h hinv hinv'
    induction ts generalizing s with
    | nil =>
        obtain rfl := Option.some.inj hrun
        exact (Nat.zero_add _).le
    | cons t ts ih =>
        obtain ⟨s₁, hst, hrest⟩ := (Trace.exec_cons_iff ..).mp hrun
        have hlt := Shared.left_advance (Shared.advance_cases hst)
        have hle := ih hrest
        rw [List.length_cons]
        omega
  · by_cases hidle : ∀ t, s'.pc t = .idle
    · exact .inl hidle
    · rw [not_forall] at hidle
      obtain ⟨t, ht⟩ := hidle
      exact .inr (hinv'.progress ht)

theorem calls_return_two :
    ∃ s, Trace.exec Shared.step Shared.init (twoThreads.take 13) = some s ∧
      ∃ s', Trace.exec Shared.step s ([true].map Act.run) = some s' ∧
        (1 + ∑ t, (s'.pc t).left ≤ ∑ t, (s.pc t).left ∧
          ((∀ t, s'.pc t = .idle) ∨ ∃ t s'', s'.step (.run t) = some s'')) :=
  ⟨_, rfl, _, rfl, @calls_return Bool _ _ (twoThreads.take 13) _ rfl [true] _ rfl⟩

end Umink.Umcounters
