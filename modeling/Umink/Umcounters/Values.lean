import Mathlib.Algebra.BigOperators.Group.List.Basic
import Mathlib.Data.List.Infix
import Mathlib.Order.MinMax
import Umink.Umcounters.Updates

/-!
# Values of gauges and incremental counters

An update of a gauge compares the new value with the one before it only. An update
of an incremental counter is accepted if the new value is higher than the one
before it, where the new value of an increment may have wrapped.
-/

namespace Umink.Umcounters

open Umink.Library

/-- The value of the counter. -/
def Umc.value (c : Umc) : UInt64 := c.values.last.value

/-- The values that a counter has held since its creation. -/
def Umc.heldValues (c : Umc) (us : List Update) : Set Nat :=
  {v | ∃ ps, ps <+: us ∧ (c.created.run ps).value.toNat = v}

/-- The value that an update asks of a counter. -/
def Update.request (v : UInt64) : Update → UInt64
  | .inc val _ => v + val
  | .set val _ => val

theorem apply_eq_updateValue (c : Umc) (u : Update) :
    c.apply u = updateValue c (u.request c.value) u.now := by
  cases u <;> rfl

section Gauge

/-- The value of a new gauge after its updates. -/
def gaugeValue (us : List Update) : UInt64 := us.foldl Update.request 0

theorem gaugeValue_concat (us : List Update) (u : Update) :
    gaugeValue (us ++ [u]) = u.request (gaugeValue us) := by
  rw [gaugeValue, List.foldl_append]
  rfl

/-- No value before the last two was higher than both of them. -/
def EndsAtPeak (us : List Update) : Prop :=
  ∀ ps ∈ us.inits, gaugeValue ps ≤ gaugeValue us ∨ gaugeValue ps ≤ gaugeValue us.dropLast

instance (us : List Update) : Decidable (EndsAtPeak us) :=
  inferInstanceAs (Decidable (∀ ps ∈ us.inits, _ ∨ _))

variable {c : Umc}

theorem updateValue_of_gauge (h : c.type = .gauge) (val now : UInt64) :
    (updateValue c val now).value = val ∧
      (updateValue c val now).values.max.toNat = max c.value.toNat val.toNat := by
  have hupdate : updateValue c val now =
      { c with values := { c.values with
          last := { c.values.last with value := val }
          max := if val > c.value then val else c.value } } := by
    have hlower : ¬ (val ≤ c.values.last.value ∧ c.type ≠ .gauge) := fun hlower => hlower.2 h
    have hrate : c.type ≠ .incremental := by simp [h]
    exact (if_neg hlower).trans (if_pos hrate)
  rw [hupdate]
  refine ⟨rfl, ?_⟩
  dsimp only
  split_ifs with hlt
  · exact (max_eq_right (Nat.le_of_lt (UInt64.lt_iff_toNat_lt.mp hlt))).symm
  · exact (max_eq_left (Nat.not_lt.mp fun hlt' => hlt (UInt64.lt_iff_toNat_lt.mpr hlt'))).symm

theorem apply_of_gauge (h : c.type = .gauge) (u : Update) :
    (c.apply u).value = u.request c.value ∧
      (c.apply u).values.max.toNat = max c.value.toNat (u.request c.value).toNat := by
  rw [apply_eq_updateValue]
  exact updateValue_of_gauge h _ u.now

theorem run_value_of_gauge (h : c.type = .gauge) (us : List Update) :
    (c.created.run us).value = gaugeValue us := by
  induction us using List.reverseRecOn with
  | nil => rfl
  | append_singleton us u ih =>
      have htype : (c.created.run us).type = .gauge := (run_type _ us).trans h
      rw [run_concat, (apply_of_gauge htype u).1, gaugeValue_concat, ih]

/-- The maximum of a gauge is that of its last two values. -/
theorem run_max_of_gauge (h : c.type = .gauge) (us : List Update) :
    (c.created.run us).values.max.toNat =
      max (gaugeValue us.dropLast).toNat (gaugeValue us).toNat := by
  cases us using List.reverseRecOn with
  | nil => rfl
  | append_singleton us u =>
      have htype : (c.created.run us).type = .gauge := (run_type _ us).trans h
      rw [run_concat, (apply_of_gauge htype u).2, run_value_of_gauge h, gaugeValue_concat,
        List.dropLast_concat]

/-- The maximum of a gauge is one of its values, and the largest one exactly when no
value before the last two was higher than both of them. -/
theorem isGreatest_max_iff (h : c.type = .gauge) (us : List Update) :
    IsGreatest (c.heldValues us) (c.created.run us).values.max.toNat ↔ EndsAtPeak us := by
  have hmem : (c.created.run us).values.max.toNat ∈ c.heldValues us := by
    rw [run_max_of_gauge h]
    obtain hmax | hmax := max_choice (gaugeValue us.dropLast).toNat (gaugeValue us).toNat
    · refine ⟨us.dropLast, List.dropLast_prefix us, ?_⟩
      rw [hmax, run_value_of_gauge h]
    · refine ⟨us, List.prefix_refl us, ?_⟩
      rw [hmax, run_value_of_gauge h]
  constructor
  · intro hgreatest ps hps
    have hle : (gaugeValue ps).toNat ≤ (c.created.run us).values.max.toNat := by
      apply hgreatest.2
      exact ⟨ps, (List.mem_inits ps us).mp hps, congrArg UInt64.toNat (run_value_of_gauge h ps)⟩
    rw [run_max_of_gauge h, le_max_iff, or_comm] at hle
    exact hle.imp UInt64.le_iff_toNat_le.mpr UInt64.le_iff_toNat_le.mpr
  · intro hpeak
    refine ⟨hmem, ?_⟩
    rintro v ⟨ps, hps, rfl⟩
    rw [run_value_of_gauge h, run_max_of_gauge h, le_max_iff, or_comm]
    exact (hpeak ps ((List.mem_inits ps us).mpr hps)).imp UInt64.le_iff_toNat_le.mp
      UInt64.le_iff_toNat_le.mp

/-- The maximum of a gauge is the largest value that it has held exactly when no
value before the last two was higher than both of them. -/
theorem gauge_max_iff {ops : List Operation} {s : UmcCtx × Log}
    (hrun : Trace.exec operateLogged (umcNewCtx, fun _ => []) ops = some s) {c : Umc}
    (hc : c ∈ s.1.counters) (htype : c.type = .gauge) :
    IsGreatest (c.heldValues (s.2 c.addr)) c.values.max.toNat ↔ EndsAtPeak (s.2 c.addr) := by
  have hcounter := (logged_of_exec hrun).counter c hc
  have hgreatest := isGreatest_max_iff htype (s.2 c.addr)
  rwa [← hcounter] at hgreatest

/-- A gauge that went up to ten and down to five. -/
theorem gauge_max_iff_descent : ∃ s, Trace.exec operateLogged (umcNewCtx, fun _ => [])
      [.call (.newCounter (.replicate 1 103 (by decide)) .gauge), .set 0 10 0, .inc 0 (-5) 0] =
        some s ∧
    ∃ c ∈ s.1.counters, c.values.max = 10 ∧
      IsGreatest (c.heldValues (s.2 c.addr)) c.values.max.toNat :=
  have hrun : Trace.exec operateLogged (umcNewCtx, fun _ => [])
      [.call (.newCounter (.replicate 1 103 (by decide)) .gauge), .set 0 10 0, .inc 0 (-5) 0] =
        some _ := rfl
  ⟨_, hrun, _, List.mem_singleton_self _, rfl,
    (gauge_max_iff hrun (List.mem_singleton_self _) rfl).mpr (by decide)⟩

/-- A gauge that was set to ten, five and three says that its maximum was five. -/
theorem gauge_forgets_maximum : ∃ s, Trace.exec operateLogged (umcNewCtx, fun _ => [])
      [.call (.newCounter (.replicate 1 103 (by decide)) .gauge), .set 0 10 0,
        .call (.getSet (.replicate 1 103 (by decide)) 5 0), .set 0 3 0] = some s ∧
    ∃ c ∈ s.1.counters, c.type = .gauge ∧ c.values.max = 5 ∧
      10 ∈ c.heldValues (s.2 c.addr) ∧
      ¬ IsGreatest (c.heldValues (s.2 c.addr)) c.values.max.toNat := by
  refine ⟨_, rfl, _, List.mem_singleton_self _, rfl, rfl, ?_, ?_⟩
  · exact ⟨[.set 10 0], by decide, rfl⟩
  · intro hgreatest
    have hle := hgreatest.2 ⟨[.set 10 0], by decide, rfl⟩
    exact absurd hle (by decide)

end Gauge

section Incremental

/-- A rise of the value of a counter: the values and the times before it and at it. -/
structure Increase where
  before : UInt64
  after : UInt64
  tsBefore : UInt64
  ts : UInt64

/-- Note an update that raised the value. -/
def Increase.note (i : Increase) (c : Umc) (u : Update) : Increase :=
  if c.value < (c.apply u).value then ⟨c.value, (c.apply u).value, i.ts, u.now⟩ else i

/-- The last rise of the value, after a given one. -/
def Umc.lastIncrease (c : Umc) (i : Increase) : List Update → Increase
  | [] => i
  | u :: us => (c.apply u).lastIncrease (i.note c u) us

/-- The fields of an incremental counter show its last rise. -/
structure Shows (c : Umc) (i : Increase) : Prop where
  value : c.value = i.after
  rises : i.before ≤ i.after
  max : c.values.max = c.value
  ts : c.values.last.tsNsec = i.ts
  tsDiff : c.values.tsDiff = i.ts - i.tsBefore
  delta : c.values.delta.toUInt64 = i.after - i.before

variable {c : Umc}

theorem updateValue_of_le (h : c.type = .incremental) {val : UInt64} (hle : val ≤ c.value)
    (now : UInt64) : updateValue c val now = c :=
  if_pos ⟨hle, by simp [h]⟩

theorem updateValue_of_lt (h : c.type = .incremental) {val : UInt64} (hlt : c.value < val)
    (now : UInt64) : updateValue c val now =
      { c with values :=
          ⟨⟨val, now⟩, val, now - c.values.last.tsNsec, (val - c.value).toInt64⟩ } := by
  have hlower : ¬ (val ≤ c.values.last.value ∧ c.type ≠ .gauge) := fun hlower =>
    UInt64.not_le.mpr hlt hlower.1
  have hrate : ¬ c.type ≠ .incremental := not_not.mpr h
  have hmax : (if val > c.values.last.value then val else c.values.last.value) = val := if_pos hlt
  rw [updateValue, if_neg hlower, if_neg hrate, hmax]
  rfl

/-- The value becomes the one asked for if that is higher. -/
theorem apply_value (h : c.type = .incremental) (u : Update) :
    (c.apply u).value.toNat = max c.value.toNat (u.request c.value).toNat := by
  rw [apply_eq_updateValue]
  by_cases hlt : c.value < u.request c.value
  · rw [updateValue_of_lt h hlt, max_eq_right (Nat.le_of_lt (UInt64.lt_iff_toNat_lt.mp hlt))]
    rfl
  · have hle := UInt64.not_lt.mp hlt
    rw [updateValue_of_le h hle, max_eq_left (UInt64.le_iff_toNat_le.mp hle)]

/-- An increment that would wrap is not accepted, as its result is not higher. -/
theorem apply_inc_value (h : c.type = .incremental) (x now : UInt64) :
    (c.apply (.inc x now)).value.toNat =
      if c.value.toNat + x.toNat < 2 ^ 64 then c.value.toNat + x.toNat else c.value.toNat := by
  have hx : x.toNat < 2 ^ 64 := x.toNat_lt
  rw [apply_value h, Update.request, UInt64.toNat_add]
  split_ifs with hlt
  · rw [Nat.mod_eq_of_lt hlt, max_eq_right (Nat.le_add_right _ _)]
  · rw [Nat.mod_eq_sub_mod (Nat.not_lt.mp hlt), max_eq_left]
    exact (Nat.mod_le _ _).trans (by omega)

theorem Shows.apply {i : Increase} (h : Shows c i) (htype : c.type = .incremental) (u : Update) :
    Shows (c.apply u) (i.note c u) := by
  have hvalue := apply_value htype u
  rw [apply_eq_updateValue] at hvalue ⊢
  by_cases hlt : c.value < u.request c.value
  · have hnote : i.note c u = ⟨c.value, u.request c.value, i.ts, u.now⟩ := by
      rw [Increase.note, apply_eq_updateValue, updateValue_of_lt htype hlt]
      exact if_pos hlt
    rw [updateValue_of_lt htype hlt, hnote, h.ts]
    exact ⟨rfl, UInt64.le_of_lt hlt, rfl, rfl, rfl, UInt64.toUInt64_toInt64 _⟩
  · have hsame := updateValue_of_le htype (UInt64.not_lt.mp hlt) u.now
    have hnote : i.note c u = i := by
      rw [Increase.note, apply_eq_updateValue, hsame]
      exact if_neg (UInt64.lt_irrefl _)
    rw [hsame, hnote]
    exact h

theorem Shows.run {i : Increase} (h : Shows c i) (htype : c.type = .incremental)
    (us : List Update) : Shows (c.run us) (c.lastIncrease i us) := by
  induction us generalizing c i with
  | nil => exact h
  | cons u us ih => exact ih (h.apply htype u) ((apply_type c u).trans htype)

/-- Increments that do not overflow together are all accepted. -/
theorem run_incs_value (h : c.type = .incremental) (incs : List (UInt64 × UInt64))
    (hsum : c.value.toNat + (incs.map fun p => p.1.toNat).sum < 2 ^ 64) :
    (c.run (incs.map fun p => .inc p.1 p.2)).value.toNat =
      c.value.toNat + (incs.map fun p => p.1.toNat).sum := by
  induction incs generalizing c with
  | nil => rfl
  | cons p incs ih =>
      rw [List.map_cons, List.sum_cons] at hsum
      have hvalue : (c.apply (.inc p.1 p.2)).value.toNat = c.value.toNat + p.1.toNat := by
        rw [apply_inc_value h, if_pos (by omega)]
      have hrest := ih (c := c.apply (.inc p.1 p.2)) ((apply_type c _).trans h) (by omega)
      rw [hvalue] at hrest
      calc (c.run ((p :: incs).map fun p => .inc p.1 p.2)).value.toNat
          = c.value.toNat + p.1.toNat + (incs.map fun p => p.1.toNat).sum := hrest
        _ = c.value.toNat + ((p :: incs).map fun p => p.1.toNat).sum := by
            rw [List.map_cons, List.sum_cons, Nat.add_assoc]

/-- An incremental counter takes the value of an increment that does not overflow
and the larger one of a set value and its own, so that its value never goes down.
Its maximum is its value, the difference of times and the one of values belong to
the last rise of the value, and increments give the same value in every order. -/
theorem incremental_counter {ops : List Operation} {s : UmcCtx × Log}
    (hrun : Trace.exec operateLogged (umcNewCtx, fun _ => []) ops = some s) {c : Umc}
    (hc : c ∈ s.1.counters) (htype : c.type = .incremental) :
    (∀ x now, (c.apply (.inc x now)).value.toNat =
      if c.value.toNat + x.toNat < 2 ^ 64 then c.value.toNat + x.toNat else c.value.toNat) ∧
    (∀ x now, (c.apply (.set x now)).value.toNat = max c.value.toNat x.toNat) ∧
    (∀ u, c.value ≤ (c.apply u).value) ∧
    c.values.max = c.value ∧
    Shows c (c.created.lastIncrease ⟨0, 0, 0, 0⟩ (s.2 c.addr)) ∧
    ∀ incs incs' : List (UInt64 × UInt64), (incs.map Prod.fst).Perm (incs'.map Prod.fst) →
      c.value.toNat + (incs.map fun p => p.1.toNat).sum < 2 ^ 64 →
      (c.run (incs.map fun p => .inc p.1 p.2)).value =
        (c.run (incs'.map fun p => .inc p.1 p.2)).value := by
  have hshows : Shows c (c.created.lastIncrease ⟨0, 0, 0, 0⟩ (s.2 c.addr)) := by
    have hnew : Shows c.created ⟨0, 0, 0, 0⟩ := ⟨rfl, UInt64.le_refl _, rfl, rfl, rfl, rfl⟩
    have hruns := hnew.run htype (s.2 c.addr)
    rwa [← (logged_of_exec hrun).counter c hc] at hruns
  refine ⟨apply_inc_value htype, fun x now => apply_value htype (.set x now), ?_, hshows.max,
    hshows, ?_⟩
  · intro u
    rw [UInt64.le_iff_toNat_le, apply_value htype]
    exact le_max_left _ _
  · intro incs incs' hperm hsum
    have htotal : (incs'.map fun p => p.1.toNat).sum = (incs.map fun p => p.1.toNat).sum := by
      have hsums := (hperm.map UInt64.toNat).sum_eq
      rw [List.map_map, List.map_map] at hsums
      exact hsums.symm
    apply UInt64.toNat_inj.mp
    rw [run_incs_value htype incs hsum, run_incs_value htype incs' (htotal ▸ hsum), htotal]

/-- A counter after an increment, a lower value set and an increment that wraps. -/
theorem incremental_counter_wraps : ∃ s, Trace.exec operateLogged (umcNewCtx, fun _ => [])
      [.call (.newCounter (.replicate 1 99 (by decide)) .incremental), .inc 0 7 100, .set 0 5 200,
        .inc 0 (-3) 300] = some s ∧
    ∃ c ∈ s.1.counters, c.value = 7 ∧ c.values.max = c.value ∧
      Shows c (c.created.lastIncrease ⟨0, 0, 0, 0⟩ (s.2 c.addr)) :=
  have hrun : Trace.exec operateLogged (umcNewCtx, fun _ => [])
      [.call (.newCounter (.replicate 1 99 (by decide)) .incremental), .inc 0 7 100, .set 0 5 200,
        .inc 0 (-3) 300] = some _ := rfl
  have hcounter := incremental_counter hrun (List.mem_singleton_self _) rfl
  ⟨_, hrun, _, List.mem_singleton_self _, rfl, hcounter.2.2.2.1, hcounter.2.2.2.2.1⟩

end Incremental

end Umink.Umcounters
