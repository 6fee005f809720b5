import Umink.Library.LastEvent
import Umink.Umdb.Presence

/-!
# The stores of the scripts

`M.db_set` and `M.db_get` work on a data base in memory and on a permanent one, which all
scripts share. What a call reads is decided by the last call, of any script, that set a value
in the same data base, in the same table and for the same key.

## Implementation notes

How SQLite reads the name of a store is a parameter: names that are written in different ways,
with other letters, quotes or the name of the data base, can select one table. Calls with a name
that SQLite reads as more than the name of a table are left out. `sqlite3_open_v2` makes both
connections serialize their statements.
-/

namespace Umink.Umdb

open Umink.Library SqlNumeric LastEvent

/-- How SQLite reads the names of stores. -/
structure StoreNames (τ : Type*) where
  /-- The name stands for one and the same table in the three statements of a store. -/
  Selects : CStr → Prop
  /-- That table. -/
  table : CStr → τ

/-- The tables of a data base. -/
abbrev Tables (τ ρ : Type*) := τ → Store ρ

/-- `dbm_mem` and `dbm_perm`, none while a data base is not open. -/
structure LuaDbs (τ ρ : Type*) where
  mem : Option (Tables τ ρ)
  perm : Option (Tables τ ρ)

/-- The arguments of `M.db_set`: whether it writes the permanent data base, the name of the
store, the key and the value. -/
def dbSetArgs : List LuaArg → Option (Bool × CStr × CStr × CStr)
  | db :: k :: v :: args =>
      match db.text, k.text, v.text with
      | some db, some k, some v => some (args.head?.bind LuaArg.byte == some 1, db, k, v)
      | _, _, _ => none
  | _ => none

inductive DbFn where
  | set
  | get
  deriving DecidableEq

/-- A call of `M.db_set` or `M.db_get` with what SQLite does in `umdb_mngr_store_init` and in
the function after it. -/
structure DbCall {τ : Type*} (N : StoreNames τ) where
  fn : DbFn
  args : List LuaArg
  sqlInit : SqlCalls
  sql : SqlCalls
  named : ∀ arg ∈ args.head?, ∀ name ∈ arg.text, N.Selects name

namespace LuaDbs

variable {τ ρ : Type*}

def dbm (dbs : LuaDbs τ ρ) (perm : Bool) : Option (Tables τ ρ) :=
  if perm then dbs.perm else dbs.mem

def put (dbs : LuaDbs τ ρ) (perm : Bool) (tables : Tables τ ρ) : LuaDbs τ ρ :=
  if perm then { dbs with perm := some tables } else { dbs with mem := some tables }

@[simp] theorem dbm_put (dbs : LuaDbs τ ρ) (p q : Bool) (tables : Tables τ ρ) :
    (dbs.put p tables).dbm q = if q = p then some tables else dbs.dbm q := by
  cases p <;> cases q <;> rfl

/-- The stores by their names. -/
def named (N : StoreNames τ) (dbs : LuaDbs τ ρ) (perm : Bool) : Option (CStr → Store ρ) :=
  (dbs.dbm perm).map fun tables name => tables (N.table name)

variable [DecidableEq ρ] (N : StoreNames τ) (R : RealConv ρ)

/-- `mink_lua_do_db_set`, which returns nothing. -/
def minkLuaDoDbSet [DecidableEq τ] (dbs : LuaDbs τ ρ) (sqlInit sqlSet : SqlCalls)
    (args : List LuaArg) : LuaDbs τ ρ :=
  match dbSetArgs args with
  | none => dbs
  | some (p, db, k, v) =>
      match dbs.dbm p with
      | none => dbs
      | some tables =>
          -- init storage
          if umdbMngrStoreInit sqlInit ≠ 0 then dbs
          else
            -- set data
            let store := some (tables (N.table db))
            match (umdbMngrStoreSet R store sqlSet (some k) (some v)).2 with
            | some s => dbs.put p (Function.update tables (N.table db) s)
            | none => dbs

/-- A call; `M.db_get` changes no rows. -/
def step [DecidableEq τ] (dbs : LuaDbs τ ρ) (a : DbCall N) : LuaDbs τ ρ :=
  match a.fn with
  | .set => dbs.minkLuaDoDbSet N R a.sqlInit a.sql a.args
  | .get => dbs

/-- What a call returns to the script. -/
def result (dbs : LuaDbs τ ρ) (a : DbCall N) : Option CStr :=
  match a.fn with
  | .set => none
  | .get => minkLuaDoDbGet R (dbs.named N false) (dbs.named N true) a.sqlInit a.sql a.args

/-- The value in the row of a key. -/
def row (dbs : LuaDbs τ ρ) (p : Bool) (db k : CStr) : Option (SqlValue ρ) :=
  (dbs.dbm p).bind fun tables => sqlStorageGet R (tables (N.table db)) k

end LuaDbs

/-- The statement of a set was run, whatever failed after it. -/
structure SetRan (sqlInit sqlSet : SqlCalls) : Prop where
  init : umdbMngrStoreInit sqlInit = 0
  prepare : sqlSet.prepare = true
  bind₁ : sqlSet.bind 1 = true
  bind₂ : sqlSet.bind 2 = true
  bind₃ : sqlSet.bind 3 = true
  step : sqlSet.step = true

/-- Nothing failed in a get. -/
structure GetRan (sqlInit sqlGet : SqlCalls) : Prop where
  init : umdbMngrStoreInit sqlInit = 0
  prepare : sqlGet.prepare = true
  bind₁ : sqlGet.bind 1 = true
  clearBindings : sqlGet.clearBindings = true
  reset : sqlGet.reset = true
  finalize : sqlGet.finalize = true

/-- A call sets the value of a key, up to the conversion of the key to a number. -/
structure Sets {τ ρ : Type*} [DecidableEq ρ] {N : StoreNames τ} (R : RealConv ρ) (p : Bool)
    (db k v : CStr) (a : DbCall N) : Prop where
  fn : a.fn = .set
  args : ∃ db' k', dbSetArgs a.args = some (p, db', k', v) ∧ N.table db' = N.table db ∧
    applyNumeric R k' = applyNumeric R k
  ran : SetRan a.sqlInit a.sql

/-- A call asks for the value of a key. -/
structure Gets {τ : Type*} {N : StoreNames τ} (p : Bool) (db k : CStr) (a : DbCall N) :
    Prop where
  fn : a.fn = .get
  args : dbGetArgs a.args = some (p, db, k)
  ran : GetRan a.sqlInit a.sql

namespace LuaDbs

variable {τ ρ : Type*} [DecidableEq τ] [DecidableEq ρ] {N : StoreNames τ} {R : RealConv ρ}
  {dbs : LuaDbs τ ρ} {a : DbCall N} {p : Bool} {db k v : CStr}

/-- A set whose statement was run changes the row whatever code it returns. -/
theorem umdbMngrStoreSet_snd (s : Store ρ) (sql : SqlCalls) (k v : CStr) :
    (umdbMngrStoreSet R (some s) sql (some k) (some v)).2 =
      some (if sql.prepare ∧ sql.bind 1 ∧ sql.bind 2 ∧ sql.bind 3 ∧ sql.step then
        sqlStorageSet R s k v else s) := by
  unfold umdbMngrStoreSet
  cases sql.prepare with
  | false => rfl
  | true =>
      cases sql.bind 1 with
      | false => rfl
      | true =>
          cases sql.bind 2 with
          | false => rfl
          | true =>
              cases sql.bind 3 with
              | false => rfl
              | true => cases sql.step <;> dsimp only <;> split_ifs <;> simp_all

/-- What `M.db_set` makes of the data bases: nothing, or a row in one table. -/
theorem minkLuaDoDbSet_cases (dbs : LuaDbs τ ρ) (sqlInit sqlSet : SqlCalls) (args : List LuaArg) :
    (∃ p db k v tables, dbSetArgs args = some (p, db, k, v) ∧ dbs.dbm p = some tables ∧
      SetRan sqlInit sqlSet ∧
      dbs.minkLuaDoDbSet N R sqlInit sqlSet args = dbs.put p (Function.update tables (N.table db)
        (sqlStorageSet R (tables (N.table db)) k v))) ∨
    ((∀ p db k v tables, dbSetArgs args = some (p, db, k, v) → dbs.dbm p = some tables →
      ¬ SetRan sqlInit sqlSet) ∧
      ∀ p, (dbs.minkLuaDoDbSet N R sqlInit sqlSet args).dbm p = dbs.dbm p) := by
  cases hargs : dbSetArgs args with
  | none => exact .inr ⟨nofun, fun _ => by simp only [minkLuaDoDbSet, hargs]⟩
  | some call =>
      obtain ⟨p, db, k, v⟩ := call
      cases hdbm : dbs.dbm p with
      | none =>
          refine .inr ⟨fun p' db' k' v' tables heq hsome => ?_, fun _ => ?_⟩
          · obtain ⟨rfl, -⟩ := Prod.mk.inj (Option.some.inj heq)
            rw [hdbm] at hsome
            cases hsome
          · simp only [minkLuaDoDbSet, hargs, hdbm]
      | some tables =>
          have hset : dbs.minkLuaDoDbSet N R sqlInit sqlSet args =
              if umdbMngrStoreInit sqlInit ≠ 0 then dbs
              else dbs.put p (Function.update tables (N.table db)
                (if sqlSet.prepare ∧ sqlSet.bind 1 ∧ sqlSet.bind 2 ∧ sqlSet.bind 3 ∧
                    sqlSet.step then
                  sqlStorageSet R (tables (N.table db)) k v else tables (N.table db))) := by
            simp only [minkLuaDoDbSet, hargs, hdbm, umdbMngrStoreSet_snd]
          rw [hset]
          by_cases hran : SetRan sqlInit sqlSet
          · refine .inl ⟨p, db, k, v, tables, rfl, hdbm, hran, ?_⟩
            rw [if_neg (not_not.mpr hran.init),
              if_pos ⟨hran.prepare, hran.bind₁, hran.bind₂, hran.bind₃, hran.step⟩]
          · refine .inr ⟨fun _ _ _ _ _ _ _ => hran, fun q => ?_⟩
            split_ifs with hinit hstmt
            · rfl
            · obtain ⟨hprepare, h₁, h₂, h₃, hstep⟩ := hstmt
              exact absurd ⟨not_not.mp hinit, hprepare, h₁, h₂, h₃, hstep⟩ hran
            · rw [Function.update_eq_self, dbm_put]
              split_ifs with hq
              · rw [hq, hdbm]
              · rfl

/-- No call opens or closes a data base. -/
theorem isSome_dbm_step (dbs : LuaDbs τ ρ) (a : DbCall N) (p : Bool) :
    ((dbs.step N R a).dbm p).isSome = (dbs.dbm p).isSome := by
  unfold step
  cases a.fn with
  | get => rfl
  | set =>
      obtain ⟨q, db, k, v, tables, -, hdbm, -, heq⟩ | ⟨-, heq⟩ :=
        @minkLuaDoDbSet_cases _ _ _ _ N R dbs a.sqlInit a.sql a.args
      · dsimp only
        rw [heq, dbm_put]
        split_ifs with hp
        · rw [hp, hdbm]
          rfl
        · rfl
      · dsimp only
        rw [heq]

theorem isSome_dbm_foldl (dbs : LuaDbs τ ρ) (calls : List (DbCall N)) (p : Bool) :
    ((calls.foldl (step N R) dbs).dbm p).isSome = (dbs.dbm p).isSome := by
  induction calls generalizing dbs with
  | nil => rfl
  | cons a calls ih => rw [List.foldl_cons, ih, isSome_dbm_step]

/-- A call that sets the value of a key decides its row. -/
theorem row_step_of_sets (h : Sets R p db k v a) (hopen : (dbs.dbm p).isSome = true) :
    (dbs.step N R a).row N R p db k = some (applyNumeric R v) := by
  obtain ⟨hfn, ⟨db', k', hargs, htable, hkey⟩, hran⟩ := h
  rw [step, hfn]
  obtain ⟨q, db₁, k₁, v₁, tables, hargs', -, -, heq⟩ | ⟨hnone, -⟩ :=
    @minkLuaDoDbSet_cases _ _ _ _ N R dbs a.sqlInit a.sql a.args
  · rw [hargs] at hargs'
    obtain ⟨rfl, rfl, rfl, rfl⟩ : p = q ∧ db' = db₁ ∧ k' = k₁ ∧ v = v₁ := by simpa using hargs'
    dsimp only
    rw [heq, row, dbm_put, if_pos rfl, Option.bind_some, htable, Function.update_self,
      sqlStorageGet_set, if_pos hkey.symm]
  · obtain ⟨tables, hdbm⟩ := Option.isSome_iff_exists.mp hopen
    exact absurd hran (hnone _ _ _ _ _ hargs hdbm)

/-- Every other call leaves the row as it is. -/
theorem row_step_of_not_sets (dbs : LuaDbs τ ρ) (a : DbCall N) (h : ¬ ∃ v, Sets R p db k v a) :
    (dbs.step N R a).row N R p db k = dbs.row N R p db k := by
  unfold step
  cases hfn : a.fn with
  | get => rfl
  | set =>
      obtain ⟨q, db', k', v, tables, hargs, hdbm, hran, heq⟩ | ⟨-, heq⟩ :=
        @minkLuaDoDbSet_cases _ _ _ _ N R dbs a.sqlInit a.sql a.args
      · dsimp only
        rw [heq, row, row, dbm_put]
        split_ifs with hp
        · subst hp
          rw [hdbm, Option.bind_some, Option.bind_some]
          by_cases htable : N.table db = N.table db'
          · rw [htable, Function.update_self, sqlStorageGet_set, if_neg]
            exact fun hkey => h ⟨v, hfn, ⟨db', k', hargs, htable.symm, hkey.symm⟩, hran⟩
          · rw [Function.update_of_ne htable]
        · rfl
      · dsimp only
        rw [row, row, heq]

/-- A get in which nothing failed returns the text of the row, unless it is empty. -/
theorem minkLuaDoDbGet_of_ran {mem perm : Option (CStr → Store ρ)} {stores : CStr → Store ρ}
    {sqlInit sqlGet : SqlCalls} {args : List LuaArg} (hran : GetRan sqlInit sqlGet)
    (hargs : dbGetArgs args = some (p, db, k)) (hstores : (if p then perm else mem) = some stores) :
    minkLuaDoDbGet R mem perm sqlInit sqlGet args =
      (sqlStorageGet R (stores db) k).bind fun value =>
        if 0 < int32 (columnText R value).length then some (columnText R value) else none := by
  have hstep := sqlGet.step_of_reset hran.reset
  simp only [minkLuaDoDbGet, hargs, hstores, hran.init, ne_eq, not_true_eq_false, if_false,
    umdbMngrStoreGet, hran.prepare, hran.bind₁, hstep, hran.clearBindings, hran.reset,
    hran.finalize, Bool.not_true, Bool.false_eq_true, if_true]
  cases sqlStorageGet R (stores db) k with
  | none => rfl
  | some value =>
      rw [Option.bind_some]
      by_cases hlen : 0 < int32 (columnText R value).length
      · rw [if_pos hlen]
        simp only [if_pos hlen]
      · rw [if_neg hlen]
        simp only [if_neg hlen]

/-- A get in which something failed returns nothing. -/
theorem getRan_of_minkLuaDoDbGet {mem perm : Option (CStr → Store ρ)} {sqlInit sqlGet : SqlCalls}
    {args : List LuaArg} {text : CStr}
    (h : minkLuaDoDbGet R mem perm sqlInit sqlGet args = some text) :
    ∃ p db k stores, dbGetArgs args = some (p, db, k) ∧ (if p then perm else mem) = some stores ∧
      GetRan sqlInit sqlGet := by
  unfold minkLuaDoDbGet at h
  cases hargs : dbGetArgs args with
  | none =>
      rw [hargs] at h
      cases h
  | some call =>
      obtain ⟨p, db, k⟩ := call
      cases hstores : (if p then perm else mem) with
      | none =>
          simp only [hargs, hstores] at h
          cases h
      | some stores =>
          refine ⟨p, db, k, stores, rfl, hstores, ?_⟩
          simp only [hargs, hstores] at h
          obtain ⟨hinit, h⟩ := Option.ite_none_left_eq_some.mp h
          unfold umdbMngrStoreGet at h
          dsimp only at h
          cases hprepare : sqlGet.prepare <;> cases h₁ : sqlGet.bind 1 <;>
            cases hclear : sqlGet.clearBindings <;> cases hreset : sqlGet.reset <;>
            cases hfinalize : sqlGet.finalize <;>
            simp_all [GetRan.mk]

omit [DecidableEq τ] in
/-- `M.db_get` returns the text of the row, unless it is empty. -/
theorem result_eq_some_iff {text : CStr} :
    dbs.result N R a = some text ↔
      ∃ p db k, Gets p db k a ∧ ∃ value, dbs.row N R p db k = some value ∧
        columnText R value = text ∧ 0 < int32 text.length := by
  have hnamed : ∀ q, (if q then dbs.named N true else dbs.named N false) = dbs.named N q :=
    fun q => by cases q <;> rfl
  constructor
  · intro h
    unfold result at h
    cases hfn : a.fn with
    | set =>
        rw [hfn] at h
        cases h
    | get =>
        rw [hfn] at h
        obtain ⟨p, db, k, stores, hargs, hstores, hran⟩ := getRan_of_minkLuaDoDbGet h
        dsimp only at h
        rw [minkLuaDoDbGet_of_ran hran hargs hstores] at h
        obtain ⟨value, hvalue, htext⟩ := Option.bind_eq_some_iff.mp h
        obtain ⟨hlen, htext⟩ := Option.ite_none_right_eq_some.mp htext
        obtain rfl := Option.some.inj htext
        rw [hnamed] at hstores
        obtain ⟨tables, hdbm, rfl⟩ := Option.map_eq_some_iff.mp hstores
        refine ⟨p, db, k, ⟨hfn, hargs, hran⟩, value, ?_, rfl, hlen⟩
        rw [row, hdbm, Option.bind_some]
        exact hvalue
  · rintro ⟨p, db, k, ⟨hfn, hargs, hran⟩, value, hrow, rfl, hlen⟩
    obtain ⟨tables, hdbm, hvalue⟩ := Option.bind_eq_some_iff.mp hrow
    have hstores : (if p then dbs.named N true else dbs.named N false) =
        some fun name => tables (N.table name) := by
      rw [hnamed, named, hdbm, Option.map_some]
    rw [result, hfn]
    dsimp only
    rw [minkLuaDoDbGet_of_ran hran hargs hstores, hvalue, Option.bind_some, if_pos hlen]

end LuaDbs

section Runs

variable {τ ρ : Type*} [DecidableEq τ] [DecidableEq ρ] {N : StoreNames τ}

/-- The value that a script reads: of the last call that set it, or of the data base as it
was opened. -/
def Holds (R : RealConv ρ) (dbs : LuaDbs τ ρ) (calls : List (DbCall N)) (p : Bool) (db k : CStr)
    (value : SqlValue ρ) : Prop :=
  (∃ before a after v, Last (fun a => ∃ v, Sets R p db k v a) calls before a after ∧
    Sets R p db k v a ∧ applyNumeric R v = value) ∨
  ((∀ a ∈ calls, ¬ ∃ v, Sets R p db k v a) ∧ dbs.row N R p db k = some value)

theorem LuaDbs.row_foldl_iff {R : RealConv ρ} (dbs : LuaDbs τ ρ) (calls : List (DbCall N))
    (p : Bool) (db k : CStr) (value : SqlValue ρ) :
    (calls.foldl (step N R) dbs).row N R p db k = some value ↔
      (dbs.dbm p).isSome ∧ Holds R dbs calls p db k value := by
  cases hopen : (dbs.dbm p).isSome with
  | false =>
      have hclosed : (calls.foldl (step N R) dbs).dbm p = none := by
        rw [← Option.not_isSome_iff_eq_none, isSome_dbm_foldl, hopen]
        exact Bool.false_ne_true
      simp [row, hclosed]
  | true =>
      have hviews := @view_foldl_eq_iff _ _ _ (fun a => ∃ v, Sets R p db k v a) (step N R)
        (fun dbs => row N R dbs p db k) (fun dbs a h => row_step_of_not_sets dbs a h) calls dbs
        (some value)
      have hset : ∀ (before : List (DbCall N)) (a : DbCall N) (v : CStr), Sets R p db k v a →
          ((before.foldl (step N R) dbs).step N R a).row N R p db k = some (applyNumeric R v) :=
        fun before a v h => row_step_of_sets h ((isSome_dbm_foldl dbs before p).trans hopen)
      rw [hviews, or_comm]
      refine Iff.trans (or_congr ⟨?_, ?_⟩ Iff.rfl) (and_iff_right rfl).symm
      · rintro ⟨before, a, after, hlast, hrow⟩
        obtain ⟨v, hv⟩ := hlast.meets
        have hvalue := Option.some.inj ((hset before a v hv).symm.trans hrow)
        exact ⟨before, a, after, v, hlast, hv, hvalue⟩
      · rintro ⟨before, a, after, v, hlast, hv, rfl⟩
        exact ⟨before, a, after, hlast, hset before a v hv⟩

/-- After every sequence of calls of `M.db_set` and `M.db_get` with names of tables, in which any
call into SQLite may fail, a call returns a text exactly if it is an `M.db_get` in which nothing
failed, on an open data base, and the text is not empty and is the one that SQLite prints for the
last value that was set in the same data base and table and for the same key up to conversion to a
number. -/
theorem db_get_last (N : StoreNames τ) (R : RealConv ρ) (dbs : LuaDbs τ ρ)
    (calls : List (DbCall N)) (a : DbCall N) (text : CStr) :
    (calls.foldl (LuaDbs.step N R) dbs).result N R a = some text ↔
      ∃ p db k, Gets p db k a ∧ (dbs.dbm p).isSome ∧ ∃ value, Holds R dbs calls p db k value ∧
        columnText R value = text ∧ 0 < int32 text.length := by
  rw [LuaDbs.result_eq_some_iff]
  simp only [LuaDbs.row_foldl_iff, and_assoc, exists_and_left]

end Runs

end Umink.Umdb
