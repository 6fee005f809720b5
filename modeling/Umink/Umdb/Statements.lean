import Umink.Library.Trace
import Umink.Umdb.Store

/-!
# Prepared statements

Five functions prepare a statement, bind its parameters, step it once and finalize
it. They return at the first call that fails, so that the statement of a failed bind,
clear or reset is never finalized.

## Implementation notes

A failed `sqlite3_prepare_v2` leaves no statement, and `sqlite3_finalize` destroys the
statement whatever it returns.
-/

namespace Umink.Umdb

open Umink.Library SqlNumeric

/-- A call into SQLite about the statement of a function. -/
inductive StmtCall where
  | prepare (ok : Bool)
  | bind (i : Nat)
  | step
  | clearBindings
  | reset
  | finalize
  deriving DecidableEq, Repr

/-- The codes that a function returns when a call into SQLite fails; it binds as many
parameters as it has codes for them. -/
structure StmtFn where
  prepare : Nat
  binds : List Nat
  clearBindings : Nat
  reset : Nat
  finalize : Nat

/-- Bind the parameters from `i` on: the code of the first one that fails and the calls. -/
def bindAll (sql : SqlCalls) : Nat → List Nat → Option Nat × List StmtCall
  | _, [] => (none, [])
  | i, code :: codes =>
      if !sql.bind i then (some code, [.bind i])
      else ((bindAll sql (i + 1) codes).1, .bind i :: (bindAll sql (i + 1) codes).2)

/-- From the prepared query to the finalized statement: the code of an early return and
the calls up to there. -/
def StmtFn.run (fn : StmtFn) (sql : SqlCalls) : Option Nat × List StmtCall :=
  if !sql.prepare then (some fn.prepare, [.prepare false])
  else
    let (r, binds) := bindAll sql 1 fn.binds
    let calls := .prepare true :: binds
    match r with
    | some code => (some code, calls)
    | none =>
        let calls := calls ++ [.step, .clearBindings]
        if !sql.clearBindings then (some fn.clearBindings, calls)
        else
          let calls := calls ++ [.reset]
          if !sql.reset then (some fn.reset, calls)
          else
            let calls := calls ++ [.finalize]
            if !sql.finalize then (some fn.finalize, calls) else (none, calls)

/-- The functions that prepare a statement. -/
inductive UmdbFn where
  | uauth
  | uget
  | storeSet
  | storeGet
  | storeInit
  deriving DecidableEq, Repr

def UmdbFn.stmt : UmdbFn → StmtFn
  | .uauth => ⟨2, [3, 4, 5], 6, 7, 8⟩
  | .uget => ⟨2, [3], 6, 7, 8⟩
  | .storeSet => ⟨2, [3, 4, 5], 6, 7, 8⟩
  | .storeGet => ⟨3, [4], 5, 6, 7⟩
  | .storeInit => ⟨2, [], 4, 5, 6⟩

/-- The code of `umdb_mngr_store_init` for a connection and a name. -/
def umdbMngrStoreInit (sql : SqlCalls) : Nat :=
  if !sql.prepare then 2
  else if !sql.clearBindings then 4
  else if !sql.reset then 5
  else if !sql.finalize then 6
  else if !sql.step then 7
  else 0

/-- A call of one of the functions; `entered` tells that it gets past its first checks. -/
structure UmdbCall where
  fn : UmdbFn
  entered : Bool
  sql : SqlCalls

namespace UmdbCall

variable (a : UmdbCall)

def calls : List StmtCall := if a.entered then (a.fn.stmt.run a.sql).2 else []

/-- How many statements the function prepares. -/
def prepared : Nat := a.calls.count (.prepare true)

/-- How many statements the function finalizes. -/
def finalized : Nat := a.calls.count .finalize

/-- Every call between the two succeeds. -/
def Completes : Prop :=
  a.entered = true → a.sql.prepare = true →
    (∀ i < a.fn.stmt.binds.length, a.sql.bind (1 + i) = true) ∧ a.sql.clearBindings = true ∧
      a.sql.reset = true

end UmdbCall

/-- The number of open statements after a call. -/
def openStep (n : Nat) (a : UmdbCall) : Option Nat := some (n + a.prepared - a.finalized)

section Codes

variable {ρ : Type*} [DecidableEq ρ] {R : RealConv ρ} (sql : SqlCalls)

/-- `umdb_mngr_uauth` returns the code of its statement. -/
theorem umdbMngrUauth_code (users : List UserRow) {res : UmdbUauth} (hres : res.auth ≠ 1)
    (u p : String) :
    (umdbMngrUauth (some users) sql res (some u) (some p)).1 =
      (UmdbFn.uauth.stmt.run sql).1.getD 0 := by
  unfold umdbMngrUauth StmtFn.run
  rw [if_neg hres]
  cases sql.prepare
  · rfl
  cases h₁ : sql.bind 1
  · simp [UmdbFn.stmt, bindAll, h₁]
  cases h₂ : sql.bind 2
  · simp [UmdbFn.stmt, bindAll, h₁, h₂]
  cases h₃ : sql.bind 3
  · simp [UmdbFn.stmt, bindAll, h₁, h₂, h₃]
  simp only [UmdbFn.stmt, bindAll, h₁, h₂, h₃]
  cases sql.clearBindings
  · rfl
  cases sql.reset
  · rfl
  cases sql.finalize <;> rfl

/-- `umdb_mngr_uget` returns the code of its statement. -/
theorem umdbMngrUget_code (users : List UserRow) (res : UmdbUauth) (u : String) :
    (umdbMngrUget (some users) sql res (some u)).1 = (UmdbFn.uget.stmt.run sql).1.getD 0 := by
  unfold umdbMngrUget StmtFn.run
  cases sql.prepare
  · rfl
  cases h₁ : sql.bind 1
  · simp [UmdbFn.stmt, bindAll, h₁]
  simp only [UmdbFn.stmt, bindAll, h₁]
  cases sql.clearBindings
  · rfl
  cases sql.reset
  · rfl
  cases sql.finalize <;> rfl

/-- `umdb_mngr_store_set` returns the code of its statement, or tells whether the step
was done. -/
theorem umdbMngrStoreSet_code (s : Store ρ) (k v : CStr) :
    (umdbMngrStoreSet R (some s) sql (some k) (some v)).1 =
      (UmdbFn.storeSet.stmt.run sql).1.getD (if sql.step then 0 else 9) := by
  unfold umdbMngrStoreSet StmtFn.run
  cases sql.prepare
  · rfl
  cases h₁ : sql.bind 1
  · simp [UmdbFn.stmt, bindAll, h₁]
  cases h₂ : sql.bind 2
  · simp [UmdbFn.stmt, bindAll, h₁, h₂]
  cases h₃ : sql.bind 3
  · simp [UmdbFn.stmt, bindAll, h₁, h₂, h₃]
  simp only [UmdbFn.stmt, bindAll, h₁, h₂, h₃]
  cases sql.clearBindings
  · rfl
  cases sql.reset
  · rfl
  cases sql.finalize
  · rfl
  cases sql.step <;> rfl

/-- `umdb_mngr_store_get` returns the code of its statement, or tells whether a text was
read. -/
theorem umdbMngrStoreGet_code (s : Store ρ) (k : CStr) (out : Option CStr) (outSz : Int) :
    (∀ code, (UmdbFn.storeGet.stmt.run sql).1 = some code →
      (umdbMngrStoreGet R (some s) sql (some k) out outSz).1 = code) ∧
    ((UmdbFn.storeGet.stmt.run sql).1 = none →
      (umdbMngrStoreGet R (some s) sql (some k) out outSz).1 = 0 ∨
        (umdbMngrStoreGet R (some s) sql (some k) out outSz).1 = 8) := by
  unfold umdbMngrStoreGet StmtFn.run
  cases sql.prepare
  · exact ⟨fun _ h => Option.some.inj h, nofun⟩
  cases h₁ : sql.bind 1
  · simp [UmdbFn.stmt, bindAll, h₁]
  simp only [UmdbFn.stmt, bindAll, h₁]
  cases sql.clearBindings
  · exact ⟨fun _ h => Option.some.inj h, nofun⟩
  cases sql.reset
  · exact ⟨fun _ h => Option.some.inj h, nofun⟩
  cases sql.finalize
  · exact ⟨fun _ h => Option.some.inj h, nofun⟩
  exact ⟨nofun, fun _ => ite_eq_or_eq _ 0 8⟩

/-- `umdb_mngr_store_init` returns the code of its statement, or tells whether the step
was done. -/
theorem umdbMngrStoreInit_code :
    umdbMngrStoreInit sql = (UmdbFn.storeInit.stmt.run sql).1.getD (if sql.step then 0 else 7) := by
  simp only [umdbMngrStoreInit, StmtFn.run, UmdbFn.stmt, bindAll]
  split_ifs <;> simp_all

end Codes

section Calls

variable {sql : SqlCalls}

/-- Binding calls nothing else. -/
theorem bindAll_calls (i : Nat) (codes : List Nat) (c : StmtCall) (hc : ∀ j, c ≠ .bind j) :
    (bindAll sql i codes).2.count c = 0 := by
  induction codes generalizing i with
  | nil => rfl
  | cons code codes ih =>
      rw [bindAll]
      split_ifs
      · rw [List.count_singleton, if_neg]
        exact fun h => hc i (beq_iff_eq.mp h).symm
      · rw [List.count_cons, ih (i + 1), if_neg]
        exact fun h => hc i (beq_iff_eq.mp h).symm

/-- All parameters are bound exactly when every binding succeeds. -/
theorem bindAll_eq_none_iff (i : Nat) (codes : List Nat) :
    (bindAll sql i codes).1 = none ↔ ∀ j < codes.length, sql.bind (i + j) = true := by
  induction codes generalizing i with
  | nil => simp [bindAll]
  | cons code codes ih =>
      rw [bindAll]
      split_ifs with hbind
      · refine iff_of_false nofun fun h => ?_
        have hfirst := h 0 (Nat.succ_pos _)
        rw [Nat.add_zero] at hfirst
        simp [hfirst] at hbind
      · rw [ih (i + 1), List.length_cons]
        constructor
        · intro h j hj
          cases j with
          | zero => simpa using hbind
          | succ j =>
              rw [Nat.add_comm j 1, ← Nat.add_assoc]
              exact h j (Nat.lt_of_succ_lt_succ hj)
        · intro h j hj
          rw [Nat.add_assoc, Nat.add_comm 1 j]
          exact h (j + 1) (Nat.succ_lt_succ hj)

/-- What a function does with the statement that it prepared. -/
theorem run_counts (fn : StmtFn) (hprepare : sql.prepare = true) :
    (fn.run sql).2.count (.prepare true) = 1 ∧
      (fn.run sql).2.count .finalize =
        if (∀ j < fn.binds.length, sql.bind (1 + j) = true) ∧ sql.clearBindings = true ∧
          sql.reset = true then 1 else 0 := by
  have hopen : (bindAll sql 1 fn.binds).2.count (.prepare true) = 0 :=
    bindAll_calls 1 fn.binds (.prepare true) nofun
  have hclose : (bindAll sql 1 fn.binds).2.count .finalize = 0 :=
    bindAll_calls 1 fn.binds .finalize nofun
  have hbinds : (bindAll sql 1 fn.binds).1 = none ↔ _ := bindAll_eq_none_iff 1 fn.binds
  simp only [← hbinds]
  unfold StmtFn.run
  cases hr : (bindAll sql 1 fn.binds).1 with
  | some code => simp [hprepare, hr, hopen, hclose]
  | none =>
      cases sql.clearBindings with
      | false => simp [hprepare, hr, hopen, hclose]
      | true =>
          cases sql.reset with
          | false => simp [hprepare, hr, hopen, hclose]
          | true => cases sql.finalize <;> simp [hprepare, hr, hopen, hclose]

/-- A failed `sqlite3_prepare_v2` leaves nothing to finalize. -/
theorem run_of_not_prepare (fn : StmtFn) (hprepare : sql.prepare = false) :
    (fn.run sql).2 = [.prepare false] := by
  simp [StmtFn.run, hprepare]

/-- A function finalizes what it prepares exactly if every call between the two
succeeds; otherwise it leaves one statement. -/
theorem counts_cases (a : UmdbCall) :
    (a.Completes ∧ a.prepared = a.finalized) ∨
      (¬ a.Completes ∧ a.prepared = 1 ∧ a.finalized = 0) := by
  unfold UmdbCall.Completes UmdbCall.prepared UmdbCall.finalized UmdbCall.calls
  cases hentered : a.entered with
  | false => exact .inl ⟨nofun, rfl⟩
  | true =>
      cases hprepare : a.sql.prepare with
      | false =>
          rw [if_pos rfl, run_of_not_prepare a.fn.stmt hprepare]
          exact .inl ⟨nofun, rfl⟩
      | true =>
          obtain ⟨hopen, hclose⟩ := run_counts a.fn.stmt hprepare
          rw [if_pos rfl, hopen, hclose]
          split_ifs with hall
          · exact .inl ⟨fun _ _ => hall, rfl⟩
          · exact .inr ⟨fun h => hall (h rfl rfl), rfl, rfl⟩

end Calls

/-- The call finalizes what it prepares and leaves no more open statements than before. -/
structure Finalizes (n : Nat) (a : UmdbCall) (n' : Nat) : Prop where
  balanced : a.prepared = a.finalized
  noGrowth : n' ≤ n

theorem finalizes_iff {n n' : Nat} {a : UmdbCall} (hst : openStep n a = some n') :
    Finalizes n a n' ↔ a.Completes := by
  obtain rfl := Option.some.inj hst
  obtain ⟨hcompletes, hbalanced⟩ | ⟨hleaks, hopen, hclose⟩ := counts_cases a
  · refine iff_of_true ⟨hbalanced, ?_⟩ hcompletes
    rw [hbalanced]
    omega
  · refine iff_of_false (fun h => ?_) hleaks
    have hbalanced := h.balanced
    omega

/-- Along any run of calls of the five functions every prepared statement is finalized
and the number of open statements never grows exactly if no bind, clear or reset of
a prepared statement fails. -/
theorem statements_finalized_iff (calls : List UmdbCall) (n : Nat) :
    Trace.Along openStep Finalizes n calls ↔
      Trace.Along openStep (fun _ a _ => a.Completes) n calls := by
  apply (Trace.along_iff_of_invariant (I := fun _ => True) ?_ ?_ trivial calls).symm
  · exact fun n a n' _ hst => (finalizes_iff hst).symm
  · exact fun _ _ _ _ _ _ => trivial

/-- A step that fails fails again in `sqlite3_reset`. -/
def busySql : SqlCalls := ⟨true, fun _ => true, false, true, false, true, nofun⟩

/-- A busy database leaves a statement at every login. -/
theorem busy_login_leaks :
    (UmdbFn.uauth.stmt.run busySql).1 = some 7 ∧
    (UmdbCall.mk .uauth true busySql).prepared = 1 ∧
    (UmdbCall.mk .uauth true busySql).finalized = 0 ∧
    openStep 0 ⟨.uauth, true, busySql⟩ = some 1 ∧
    ¬ Trace.Along openStep Finalizes 0 [⟨.uauth, true, busySql⟩] := by
  refine ⟨by decide, by decide, by decide, by decide, fun h => ?_⟩
  obtain ⟨hfin, -⟩ := h 1 (by decide)
  exact absurd hfin.noGrowth (by decide)

end Umink.Umdb
