import Umink.Umcounters.Values

/-!
# Increments by scripts

A script increments a counter by an `int`, which the counter adds as a 64-bit
value without sign. A decrement by at most the value of the counter is refused;
a larger one wraps to a value that is higher and is accepted.
-/

namespace Umink.Umcounters

open Umink.Library

variable (id : CStr)

/-- A call of `mink_lua_do_perf_inc` with the name of the counter. -/
def perfIncStep (ctx : UmcCtx) (a : Int32 × UInt64) : Option UmcCtx :=
  some (ctx.minkLuaDoPerfInc id a.1.toInt a.2)

/-- Add up the amounts that are not negative. -/
def addAmount (_ : UmcCtx) (sum : Nat) (a : Int32 × UInt64) : Nat := sum + a.1.toInt.toNat

/-- The counter of the name has the value `sum`, as long as it can be stored. -/
def Counts (ctx : UmcCtx) (sum : Nat) : Prop :=
  sum < 2 ^ 64 → ∃ c, ctx.umcGet id = some c ∧ c.value.toNat = sum

/-- The name fits the buffer of a counter and a decrement is at most the sum of the
increments before it. -/
def Covered (s : UmcCtx × Nat) (a : Int32 × UInt64) (t : UmcCtx × Nat) : Prop :=
  t.2 < 2 ^ 64 → id.length < umcNameMax ∧ (a.1.toInt < 0 → -a.1.toInt ≤ s.2)

instance (s : UmcCtx × Nat) (a : Int32 × UInt64) (t : UmcCtx × Nat) :
    Decidable (Covered id s a t) :=
  inferInstanceAs (Decidable (_ → _ ∧ (_ → _)))

variable {id} {ctx : UmcCtx}

/-- The counter that `mink_lua_do_perf_inc` increments. -/
def UmcCtx.perfCounter (ctx : UmcCtx) (id : CStr) : Umc :=
  (ctx.umcGet id).getD (Umc.fresh ctx.counters.length id .incremental)

/-- The counter of a name that fits is incremented. -/
theorem perfInc_umcGet (hfits : id.length < umcNameMax) (inc : Int) (now : UInt64) :
    (ctx.minkLuaDoPerfInc id inc now).umcGet id =
      some ((ctx.perfCounter id).apply (.inc (UInt64.ofInt inc) now)) := by
  have hnew : (ctx.umcNewCounter id .incremental).1.umcGet id = some (ctx.perfCounter id) ∧
      (ctx.umcNewCounter id .incremental).2 = (ctx.perfCounter id).addr := by
    rw [UmcCtx.perfCounter]
    cases hget : ctx.umcGet id with
    | some c =>
        have hfind : HashTable.find Umc.key ctx.counters id = some c := hget
        rw [UmcCtx.umcNewCounter, hfind]
        exact ⟨hget, rfl⟩
    | none =>
        have hfind : HashTable.find Umc.key ctx.counters id = none := hget
        have hkey : (Umc.fresh ctx.counters.length id .incremental).key = id :=
          (snprintfStr_eq_iff (by decide) id).mpr hfits
        rw [UmcCtx.umcNewCounter, hfind]
        refine ⟨?_, rfl⟩
        rw [UmcCtx.umcGet, HashTable.find_add, if_pos hkey]
        rfl
  have hkeep : ∀ c : Umc, (if c.addr = (ctx.perfCounter id).addr
      then incValue (UInt64.ofInt inc) now c else c).key = c.key := fun c => by
    split_ifs
    · exact incValue_key _ now c
    · rfl
  calc (ctx.minkLuaDoPerfInc id inc now).umcGet id
      = ((ctx.umcNewCounter id .incremental).1.umcGet id).map fun c =>
          if c.addr = (ctx.perfCounter id).addr then incValue (UInt64.ofInt inc) now c else c := by
        rw [← hnew.2] at hkeep ⊢
        exact HashTable.find_map (ctx.umcNewCounter id .incremental).1.counters hkeep id
    _ = some ((ctx.perfCounter id).apply (.inc (UInt64.ofInt inc) now)) := by
        rw [hnew.1, Option.map_some, if_pos rfl]
        rfl

/-- An amount adds what is not negative of it exactly when it does not lower a value
below zero. -/
theorem apply_int_value_iff {c : Umc} (htype : c.type = .incremental) (n : Int32) (now : UInt64)
    (hsum : c.value.toNat + n.toInt.toNat < 2 ^ 64) :
    (c.apply (.inc (UInt64.ofInt n.toInt) now)).value.toNat = c.value.toNat + n.toInt.toNat ↔
      (n.toInt < 0 → -n.toInt ≤ c.value.toNat) := by
  have hn : (UInt64.ofInt n.toInt).toNat = (n.toInt % 2 ^ 64).toNat := by
    rw [UInt64.ofInt, UInt64.toNat_ofNat']
    omega
  have hlow := n.le_toInt
  have hhigh := n.toInt_lt
  rw [apply_inc_value htype, hn]
  split_ifs with hlt
  · omega
  · omega

/-- Before its first increment there is no counter, then one with the sum. -/
def IsSum (id : CStr) (s : UmcCtx × Nat) : Prop :=
  s.2 < 2 ^ 64 → (s.1.perfCounter id).type = .incremental ∧ (s.1.perfCounter id).value.toNat = s.2

theorem isSum_of_new (hnew : ctx.umcGet id = none) : IsSum id (ctx, 0) := by
  intro _
  dsimp only
  rw [UmcCtx.perfCounter, hnew]
  exact ⟨rfl, rfl⟩

theorem perfCounter_of_umcGet {c : Umc} (hget : ctx.umcGet id = some c) :
    ctx.perfCounter id = c := by
  rw [UmcCtx.perfCounter, hget, Option.getD_some]

/-- The counter counts after an increment exactly when that is covered. -/
theorem IsSum.counts_iff {s t : UmcCtx × Nat} {a : Int32 × UInt64} (h : IsSum id s)
    (hst : Trace.ghost (perfIncStep id) addAmount s a = some t) :
    Covered id s a t ↔ Counts id t.1 t.2 := by
  obtain ⟨hctx, hsum⟩ := Trace.ghost_eq_some_iff.mp hst
  obtain hctx := Option.some.inj hctx
  rw [addAmount] at hsum
  refine forall_congr' fun hlt => ?_
  obtain ⟨htype, hvalue⟩ := h (by omega)
  rw [← hvalue] at hsum ⊢
  rw [← hsum] at hlt
  constructor
  · rintro ⟨hfits, hcovered⟩
    refine ⟨_, hctx ▸ perfInc_umcGet hfits a.1.toInt a.2, ?_⟩
    rw [← hsum]
    exact (apply_int_value_iff htype a.1 a.2 hlt).mpr hcovered
  · rintro ⟨c, hget, hc⟩
    have hfits : id.length < umcNameMax := key_of_umcGet hget ▸ c.key_length
    rw [← hctx, perfInc_umcGet hfits] at hget
    obtain rfl := Option.some.inj hget
    rw [← hsum] at hc
    exact ⟨hfits, (apply_int_value_iff htype a.1 a.2 hlt).mp hc⟩

theorem IsSum.step {s t : UmcCtx × Nat} {a : Int32 × UInt64} (h : IsSum id s)
    (hcovered : Covered id s a t) (hst : Trace.ghost (perfIncStep id) addAmount s a = some t) :
    IsSum id t := by
  obtain ⟨hctx, hsum⟩ := Trace.ghost_eq_some_iff.mp hst
  obtain hctx := Option.some.inj hctx
  rw [addAmount] at hsum
  intro hlt
  obtain ⟨c, hget, hc⟩ := (h.counts_iff hst).mp hcovered hlt
  have hcounter := @perfInc_umcGet id s.1 (hcovered hlt).1 a.1.toInt a.2
  rw [perfCounter_of_umcGet hget]
  rw [hctx, hget] at hcounter
  refine ⟨?_, hc⟩
  rw [Option.some.inj hcounter, apply_type]
  exact (h (by omega)).1

/-- The value of a counter that scripts increment is the sum of the amounts that are
not negative, after each call and while the sum can be stored, exactly when its name
fits and every decrement is at most the sum of the increments before it. -/
theorem perf_incs_iff (hnew : ctx.umcGet id = none) (incs : List (Int32 × UInt64)) :
    Trace.Along (Trace.ghost (perfIncStep id) addAmount) (fun _ _ t => Counts id t.1 t.2)
        (ctx, 0) incs ↔
      Trace.Along (Trace.ghost (perfIncStep id) addAmount) (Covered id) (ctx, 0) incs := by
  symm
  apply Trace.along_iff_of_invariant (I := IsSum id)
  · exact fun _ _ _ hs hst => hs.counts_iff hst
  · exact fun _ _ _ hs hcovered hst => hs.step hcovered hst
  · exact isSum_of_new hnew

/-- A counter that is incremented by five, decremented by three and incremented by
two. -/
theorem perf_incs_iff_covered :
    Trace.Along (Trace.ghost (perfIncStep (.replicate 1 99 (by decide))) addAmount)
      (fun _ _ t => Counts (.replicate 1 99 (by decide)) t.1 t.2) (umcNewCtx, 0)
      [(5, 0), (-3, 0), (2, 0)] :=
  (perf_incs_iff rfl _).mpr (by decide)

/-- A decrement of a new counter raises it to the highest value, and the increment
after it is not counted. -/
theorem perf_dec_inflates : umcNewCtx.umcGet (.replicate 1 99 (by decide)) = none ∧
    ¬ Trace.Along (Trace.ghost (perfIncStep (.replicate 1 99 (by decide))) addAmount)
      (fun _ _ t => Counts (.replicate 1 99 (by decide)) t.1 t.2) (umcNewCtx, 0)
      [(-1, 0), (5, 0)] ∧
    ∃ ctx, Trace.exec (perfIncStep (.replicate 1 99 (by decide))) umcNewCtx [(-1, 0), (5, 0)] =
        some ctx ∧ ctx.value (.replicate 1 99 (by decide)) = 2 ^ 64 - 1 := by
  refine ⟨rfl, ?_, _, rfl, by decide⟩
  intro h
  obtain ⟨hcounts, -⟩ := h _ rfl
  obtain ⟨c, hget, hc⟩ := hcounts (by decide)
  obtain rfl := Option.some.inj hget
  exact absurd hc (by decide)

end Umink.Umcounters
