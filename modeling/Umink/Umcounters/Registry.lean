import Mathlib.Algebra.Ring.Nat
import Mathlib.Data.List.Nodup
import Umink.Library.Trace
import Umink.Umcounters.Counters

/-!
# The counters as a map

A registry binds every string to at most one counter. A context behaves as one
as long as the ids of new counters fit the buffer of a counter: a longer id is
stored cut off, and a lookup of it finds nothing.
-/

namespace Umink.Umcounters

open Umink.Library

/-- What the counters are for: a map from strings to counters. -/
structure Registry where
  size : Nat
  counter : CStr → Option Umc

namespace Registry

def empty : Registry := ⟨0, fun _ => none⟩

/-- The counter of the string, a new one if there is none. -/
def newCounter (r : Registry) (id : CStr) (type : UmcType) : Registry :=
  match r.counter id with
  | some _ => r
  | none => ⟨r.size + 1, Function.update r.counter id (some (Umc.fresh r.size id type))⟩

/-- Change the counter of a string. -/
def update (r : Registry) (id : CStr) (f : Umc → Umc) : Registry :=
  { r with counter := Function.update r.counter id ((r.counter id).map f) }

/-- The registry after a call and the counter that the call returns. -/
def call (r : Registry) : Call → Registry × Option Nat
  | .newCounter id type =>
      (r.newCounter id type, ((r.newCounter id type).counter id).map Umc.addr)
  | .get id => (r, (r.counter id).map Umc.addr)
  | .getInc id val now => (r.update id (incValue val now), (r.counter id).map Umc.addr)
  | .getSet id val now => (r.update id (setValue val now), (r.counter id).map Umc.addr)
  | .perfInc id inc now =>
      ((r.newCounter id .incremental).update id (incValue (UInt64.ofInt inc) now), none)

theorem newCounter_bound (r : Registry) (id : CStr) (type : UmcType) :
    (r.newCounter id type).counter id ≠ none := by
  unfold newCounter
  cases h : r.counter id with
  | some c => simp [h]
  | none => simp

theorem update_counter (r : Registry) (id : CStr) (f : Umc → Umc) (id' : CStr) :
    (r.update id f).counter id' = if id' = id then (r.counter id).map f else r.counter id' :=
  Function.update_apply _ _ _ _

theorem newCounter_counter {r : Registry} {id : CStr} (h : r.counter id = none) (type : UmcType)
    (id' : CStr) : (r.newCounter id type).counter id' =
      if id' = id then some (Umc.fresh r.size id type) else r.counter id' := by
  rw [newCounter, h]
  exact Function.update_apply _ _ _ _

theorem update_bound {r : Registry} {id : CStr} (h : r.counter id ≠ none) (f : Umc → Umc) :
    (r.update id f).counter id ≠ none := by
  simpa [update] using h

end Registry

/-- The id of a new counter fits the buffer of a counter. -/
def Call.Fits : Call → Prop
  | .newCounter id _ => id.length < umcNameMax
  | .perfInc id _ _ => id.length < umcNameMax
  | _ => True

instance : DecidablePred Call.Fits := fun a =>
  match a with
  | .newCounter id _ => inferInstanceAs (Decidable (id.length < umcNameMax))
  | .perfInc id _ _ => inferInstanceAs (Decidable (id.length < umcNameMax))
  | .get _ => .isTrue trivial
  | .getInc _ _ _ => .isTrue trivial
  | .getSet _ _ _ => .isTrue trivial

/-- The counters of the context are those of the registry: the stored keys are
distinct, every string has its counter, and different strings have different ones. -/
structure IsMap (ctx : UmcCtx) (r : Registry) : Prop where
  size : ctx.counters.length = r.size
  keys : (ctx.counters.map Umc.key).Nodup
  get : ∀ id, ctx.umcGet id = r.counter id
  distinct : ∀ id id' c c', ctx.umcGet id = some c → ctx.umcGet id' = some c' →
    c.addr = c'.addr → id = id'

/-- The call returns the counter of the registry and leaves its counters. -/
def AsMap (s : UmcCtx × Registry) (a : Call) (s' : UmcCtx × Registry) : Prop :=
  (s.1.call a).2 = (s.2.call a).2 ∧ IsMap s'.1 s'.2

/-- Note the calls in a registry. -/
def note (_ : UmcCtx) (r : Registry) (a : Call) : Registry := (r.call a).1

section Updates

variable (val now : UInt64) (c : Umc)

@[simp] theorem updateValue_key : (updateValue c val now).key = c.key := by
  unfold updateValue
  dsimp only
  split_ifs <;> rfl

@[simp] theorem updateValue_addr : (updateValue c val now).addr = c.addr := by
  unfold updateValue
  dsimp only
  split_ifs <;> rfl

@[simp] theorem incValue_key : (incValue val now c).key = c.key := updateValue_key _ now c

@[simp] theorem incValue_addr : (incValue val now c).addr = c.addr := updateValue_addr _ now c

@[simp] theorem setValue_key : (setValue val now c).key = c.key := updateValue_key val now c

@[simp] theorem setValue_addr : (setValue val now c).addr = c.addr := updateValue_addr val now c

/-- A value that is not lower is stored in counters of both types. -/
theorem updateValue_value (h : c.values.last.value ≤ val) :
    (updateValue c val now).values.last.value = val := by
  unfold updateValue
  dsimp only
  split_ifs with hlower
  · exact UInt64.le_antisymm h hlower.1
  all_goals rfl

/-- An increment that does not overflow is added. -/
theorem incValue_value (n : Nat) (h : c.values.last.value.toNat + n < 2 ^ 64) :
    (incValue (UInt64.ofInt n) now c).values.last.value.toNat =
      c.values.last.value.toNat + n := by
  have hn : (UInt64.ofInt n).toNat = n := by
    rw [UInt64.ofInt, UInt64.toNat_ofNat']
    omega
  have hsum : (c.values.last.value + UInt64.ofInt n).toNat = c.values.last.value.toNat + n := by
    rw [UInt64.toNat_add, hn, Nat.mod_eq_of_lt h]
  have hle : c.values.last.value ≤ c.values.last.value + UInt64.ofInt n := by
    rw [UInt64.le_iff_toNat_le, hsum]
    exact Nat.le_add_right _ _
  rw [incValue, updateValue_value _ now c hle, hsum]

end Updates

/-- A context that behaves as a registry, with its counters in the order of
their places. -/
structure Inv (ctx : UmcCtx) (r : Registry) : Prop extends IsMap ctx r where
  places : ctx.counters.map Umc.addr = List.range ctx.counters.length

variable {ctx ctx' : UmcCtx} {r : Registry} {id : CStr}

theorem key_of_umcGet {c : Umc} (h : ctx.umcGet id = some c) : c.key = id :=
  HashTable.key_of_find h

/-- No counter is found under an id that does not fit the buffer. -/
theorem umcGet_of_long (hlong : ¬ id.length < umcNameMax) : ctx.umcGet id = none := by
  cases h : ctx.umcGet id with
  | none => rfl
  | some c => exact absurd (key_of_umcGet h ▸ c.key_length) hlong

/-- Counters at different places that were found under their keys. -/
theorem Inv.of_places (size : ctx.counters.length = r.size)
    (keys : (ctx.counters.map Umc.key).Nodup) (get : ∀ id, ctx.umcGet id = r.counter id)
    (places : ctx.counters.map Umc.addr = List.range ctx.counters.length) : Inv ctx r where
  size := size
  keys := keys
  get := get
  places := places
  distinct := by
    intro id id' c c' hc hc' haddr
    have hnodup : (ctx.counters.map Umc.addr).Nodup := places ▸ List.nodup_range
    have heq : c = c' :=
      List.inj_on_of_nodup_map hnodup (HashTable.mem_of_find hc) (HashTable.mem_of_find hc') haddr
    rw [← key_of_umcGet hc, ← key_of_umcGet hc', heq]

theorem inv_new : Inv umcNewCtx .empty :=
  .of_places rfl List.nodup_nil (fun _ => rfl) rfl

/-- A new counter whose id fits is bound to the id, or is the one that was. -/
theorem Inv.newCounter (h : Inv ctx r) (hfits : id.length < umcNameMax) (type : UmcType) :
    Inv (ctx.umcNewCounter id type).1 (r.newCounter id type) ∧
      ((r.newCounter id type).counter id).map Umc.addr = some (ctx.umcNewCounter id type).2 := by
  cases hget : ctx.umcGet id with
  | some c =>
      have hbound : r.counter id = some c := h.get id ▸ hget
      have hnew := UmcCtx.umcNewCounter_of_some hget type
      have hreg : r.newCounter id type = r := by rw [Registry.newCounter, hbound]
      rw [hnew, hreg, hbound]
      exact ⟨h, rfl⟩
  | none =>
      have hfree : r.counter id = none := h.get id ▸ hget
      have hfind : HashTable.find Umc.key ctx.counters id = none := hget
      have hkey : (Umc.fresh ctx.counters.length id type).key = id :=
        (snprintfStr_eq_iff (by decide) id).mpr hfits
      have hreg : (r.newCounter id type).size = r.size + 1 := by rw [Registry.newCounter, hfree]
      simp only [UmcCtx.umcNewCounter, hfind]
      refine ⟨.of_places ?_ ?_ ?_ ?_, ?_⟩
      · rw [HashTable.add, List.length_append, h.size, hreg, List.length_singleton]
      · rw [HashTable.add, List.map_append, List.map_singleton, hkey, ← List.concat_eq_append]
        exact h.keys.concat (HashTable.find_eq_none_iff.mp hfind)
      · intro id'
        rw [UmcCtx.umcGet, HashTable.find_add, hkey, Registry.newCounter_counter hfree, h.size,
          ← h.get id']
        exact if_congr eq_comm rfl rfl
      · rw [HashTable.add, List.map_append, h.places, List.length_append]
        exact List.range_succ.symm
      · rw [Registry.newCounter_counter hfree, if_pos rfl, h.size]
        rfl

/-- A change of the counter that a string is bound to. -/
theorem Inv.write (h : Inv ctx r) {c : Umc} (hc : ctx.umcGet id = some c) {f : Umc → Umc}
    (hkey : ∀ c, (f c).key = c.key) (haddr : ∀ c, (f c).addr = c.addr) :
    Inv (ctx.write c.addr f) (r.update id f) := by
  have hkey' : ∀ u : Umc, (if u.addr = c.addr then f u else u).key = u.key := fun u => by
    split_ifs
    · exact hkey u
    · rfl
  have haddr' : ∀ u : Umc, (if u.addr = c.addr then f u else u).addr = u.addr := fun u => by
    split_ifs
    · exact haddr u
    · rfl
  apply Inv.of_places
  · exact (List.length_map _).trans h.size
  · simpa only [UmcCtx.write, HashTable.modify, List.map_map, Function.comp_def, hkey'] using h.keys
  · intro id'
    have hmap : (ctx.write c.addr f).umcGet id' =
        (ctx.umcGet id').map fun u => if u.addr = c.addr then f u else u :=
      HashTable.find_map ctx.counters hkey' id'
    rw [hmap, Registry.update_counter, ← h.get id', ← h.get id]
    split_ifs with heq
    · rw [heq, hc, Option.map_some, if_pos rfl, Option.map_some]
    · cases hu : ctx.umcGet id' with
      | none => rfl
      | some u =>
          have hne : u.addr ≠ c.addr := fun hsame => heq (h.distinct id' id u c hu hc hsame)
          rw [Option.map_some, if_neg hne]
  · simpa only [UmcCtx.write, HashTable.modify, List.map_map, Function.comp_def, haddr',
      List.length_map] using h.places

theorem Inv.getWrite (h : Inv ctx r) (id : CStr) {f : Umc → Umc} (hkey : ∀ c, (f c).key = c.key)
    (haddr : ∀ c, (f c).addr = c.addr) :
    Inv (ctx.getWrite id f).1 (r.update id f) ∧
      (ctx.getWrite id f).2 = (r.counter id).map Umc.addr := by
  rw [UmcCtx.getWrite, ← h.get id]
  cases hget : ctx.umcGet id with
  | some c => exact ⟨h.write hget hkey haddr, rfl⟩
  | none =>
      have hsame : r.update id f = r := by
        rw [Registry.update, ← h.get id, hget, Option.map_none, ← hget, h.get id,
          Function.update_eq_self]
      rw [hsame]
      exact ⟨h, rfl⟩

theorem Inv.perfInc (h : Inv ctx r) (hfits : id.length < umcNameMax) (inc : Int) (now : UInt64) :
    Inv (ctx.minkLuaDoPerfInc id inc now)
      ((r.newCounter id .incremental).update id (incValue (UInt64.ofInt inc) now)) := by
  obtain ⟨hnew, haddr⟩ := h.newCounter hfits .incremental
  rw [← hnew.get id, Option.map_eq_some_iff] at haddr
  obtain ⟨c, hc, hplace⟩ := haddr
  have hwrite := hnew.write hc (incValue_key (UInt64.ofInt inc) now)
    (incValue_addr (UInt64.ofInt inc) now)
  rw [hplace] at hwrite
  exact hwrite

/-- A call whose id fits does what the registry says. -/
theorem Inv.call (h : Inv ctx r) {a : Call} (hfits : a.Fits) :
    Inv (ctx.call a).1 (r.call a).1 ∧ (ctx.call a).2 = (r.call a).2 := by
  cases a with
  | newCounter id type =>
      obtain ⟨hnew, haddr⟩ := h.newCounter hfits type
      exact ⟨hnew, haddr.symm⟩
  | get id => exact ⟨h, congrArg (Option.map Umc.addr) (h.get id)⟩
  | getInc id val now => exact h.getWrite id (by simp) (by simp)
  | getSet id val now => exact h.getWrite id (by simp) (by simp)
  | perfInc id inc now => exact ⟨h.perfInc hfits inc now, rfl⟩

/-- A counter whose id does not fit is not found under it. -/
theorem not_isMap_of_long {a : Call} (hlong : ¬ a.Fits) : ¬ IsMap ctx' (r.call a).1 := by
  cases a with
  | newCounter id type =>
      intro h
      exact r.newCounter_bound id type (h.get id ▸ umcGet_of_long hlong)
  | get id => exact absurd trivial hlong
  | getInc id val now => exact absurd trivial hlong
  | getSet id val now => exact absurd trivial hlong
  | perfInc id inc now =>
      intro h
      exact Registry.update_bound (r.newCounter_bound id .incremental) _
        (h.get id ▸ umcGet_of_long hlong)

/-- The value of the counter of a string; there is none before the first call. -/
def UmcCtx.value (ctx : UmcCtx) (id : CStr) : Nat :=
  match ctx.umcGet id with
  | some c => c.values.last.value.toNat
  | none => 0

theorem Inv.value_perfInc (h : Inv ctx r) (hfits : id.length < umcNameMax) (n : Nat)
    (now : UInt64) (hsum : ctx.value id + n < 2 ^ 64) :
    (ctx.minkLuaDoPerfInc id n now).value id = ctx.value id + n := by
  have hget : (ctx.minkLuaDoPerfInc id n now).umcGet id =
      ((r.newCounter id .incremental).counter id).map (incValue (UInt64.ofInt n) now) := by
    rw [(h.perfInc hfits n now).get id, Registry.update_counter, if_pos rfl]
  unfold UmcCtx.value at hsum ⊢
  rw [hget, h.get id]
  rw [h.get id] at hsum
  cases hbound : r.counter id with
  | some c =>
      have hreg : r.newCounter id .incremental = r := by rw [Registry.newCounter, hbound]
      rw [hbound] at hsum
      rw [hreg, hbound]
      exact incValue_value now c n hsum
  | none =>
      rw [hbound] at hsum
      rw [Registry.newCounter_counter hbound, if_pos rfl]
      exact incValue_value now (Umc.fresh r.size id .incremental) n hsum

/-- Increments of one counter add up. -/
theorem Inv.value_perfIncs (h : Inv ctx r) (hfits : id.length < umcNameMax)
    (incs : List (Nat × UInt64)) (hsum : ctx.value id + (incs.map Prod.fst).sum < 2 ^ 64) :
    ∃ ctx', Trace.exec UmcCtx.step ctx (incs.map fun p => .perfInc id p.1 p.2) = some ctx' ∧
      ctx'.value id = ctx.value id + (incs.map Prod.fst).sum := by
  induction incs generalizing ctx r with
  | nil => exact ⟨ctx, rfl, rfl⟩
  | cons p incs ih =>
      rw [List.map_cons, List.sum_cons] at hsum
      have hvalue := h.value_perfInc hfits p.1 p.2 (by omega)
      obtain ⟨ctx', hrun, htotal⟩ := ih (h.perfInc hfits p.1 p.2) (by omega)
      refine ⟨ctx', hrun, ?_⟩
      rw [htotal, hvalue, List.map_cons, List.sum_cons, Nat.add_assoc]

/-- A context that fitting calls lead to behaves as a registry. -/
theorem inv_of_exec {calls : List Call} (hfits : ∀ a ∈ calls, a.Fits)
    (h : Trace.exec UmcCtx.step umcNewCtx calls = some ctx) : ∃ r, Inv ctx r := by
  have halong : Trace.Along UmcCtx.step (fun _ a _ => a.Fits) umcNewCtx calls :=
    (Trace.along_action_iff (fun s a => ⟨(UmcCtx.call s a).1, rfl⟩) umcNewCtx calls).mpr hfits
  refine Trace.exec_invariant_along (I := fun ctx => ∃ r, Inv ctx r) ?_ ⟨_, inv_new⟩ halong h
  rintro s a t ⟨r, hr⟩ ha hst
  obtain rfl := Option.some.inj hst
  exact ⟨_, (hr.call ha).1⟩

/-- The calls on a context do what a map from strings to counters does, each of
them, exactly when the id of every new counter fits the buffer of a counter. With
such ids the increments of a counter by scripts add up in it. -/
theorem counters_map_iff (calls : List Call) :
    (Trace.Along (Trace.ghost UmcCtx.step note) AsMap (umcNewCtx, .empty) calls ↔
      ∀ a ∈ calls, a.Fits) ∧
    ∀ ctx, (∀ a ∈ calls, a.Fits) → Trace.exec UmcCtx.step umcNewCtx calls = some ctx →
      ∀ id (incs : List (Nat × UInt64)), id.length < umcNameMax →
        ctx.value id + (incs.map Prod.fst).sum < 2 ^ 64 →
        ∃ ctx', Trace.exec UmcCtx.step ctx (incs.map fun p => .perfInc id p.1 p.2) = some ctx' ∧
          ctx'.value id = ctx.value id + (incs.map Prod.fst).sum := by
  refine ⟨?_, ?_⟩
  · have htotal : ∀ s a, ∃ t, Trace.ghost UmcCtx.step note s a = some t :=
      fun s a => ⟨((s.1.call a).1, (s.2.call a).1), rfl⟩
    rw [← Trace.along_action_iff htotal (umcNewCtx, Registry.empty)]
    refine (Trace.along_iff_of_invariant (I := fun s => Inv s.1 s.2) ?_ ?_ inv_new calls).symm
    · rintro s a t hs hst
      obtain ⟨hctx, hreg⟩ := Trace.ghost_eq_some_iff.mp hst
      obtain hctx := Option.some.inj hctx
      constructor
      · intro ha
        obtain ⟨hinv, hret⟩ := hs.call ha
        exact ⟨hret, hctx ▸ hreg ▸ hinv.toIsMap⟩
      · intro hmap
        by_contra hlong
        rw [AsMap, ← hreg] at hmap
        exact not_isMap_of_long hlong hmap.2
    · rintro s a t hs ha hst
      obtain ⟨hctx, hreg⟩ := Trace.ghost_eq_some_iff.mp hst
      obtain hctx := Option.some.inj hctx
      exact hctx ▸ hreg ▸ (hs.call ha).1
  · intro ctx hfits hrun id incs hid hsum
    obtain ⟨r, hr⟩ := inv_of_exec hfits hrun
    exact hr.value_perfIncs hid incs hsum

/-- Two increments of a counter whose id has 255 bytes. -/
theorem counters_map_iff_longest :
    ∃ ctx', Trace.exec UmcCtx.step umcNewCtx
        [.perfInc (.replicate 255 97 (by decide)) (3 : Nat) 0,
          .perfInc (.replicate 255 97 (by decide)) (4 : Nat) 0] = some ctx' ∧
      ctx'.value (.replicate 255 97 (by decide)) = 7 :=
  (counters_map_iff []).2 umcNewCtx (by simp) rfl (.replicate 255 97 (by decide))
    [(3, 0), (4, 0)] (by decide +kernel) (by decide)

/-- Two increments of a counter whose id has 256 bytes create two counters under
one key, each with the value of one increment, and the id finds neither. -/
theorem long_id_duplicates :
    ∃ ctx, Trace.exec UmcCtx.step umcNewCtx
        [.perfInc (.replicate 256 97 (by decide)) 1 0,
          .perfInc (.replicate 256 97 (by decide)) 1 0] = some ctx ∧
      ctx.counters.map Umc.key =
        [.replicate 255 97 (by decide), .replicate 255 97 (by decide)] ∧
      ctx.counters.map (fun c => c.values.last.value) = [1, 1] ∧
      ctx.umcGet (.replicate 256 97 (by decide)) = none :=
  ⟨_, rfl, by decide +kernel, by decide +kernel, by decide +kernel⟩

end Umink.Umcounters
