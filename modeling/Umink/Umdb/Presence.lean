import Umink.Umdb.Statements

/-!
# Presence in the user store

`umdb_mngr_store_get` and `M.db_get` tell whether a key was set by the length of the
text that was read: an empty value is reported like a missing key, although its text
was allocated for the caller.

## Implementation notes

A data base is the stores that its table names select, with no rows for a table that is
not there yet. Of an argument of a Lua function the functions see whether it is a string
and whether it is a number.
-/

namespace Umink.Umdb

open Umink.Library SqlNumeric

/-- An argument of a Lua function: its text if `lua_isstring`, and its number converted
to `uint8_t` if `lua_isnumber`. -/
structure LuaArg where
  text : Option CStr
  byte : Option UInt8

/-- The arguments of `M.db_get`: whether it reads the permanent data base, the name of
the store and the key. -/
def dbGetArgs : List LuaArg → Option (Bool × CStr × CStr)
  | db :: k :: args =>
      match db.text, k.text with
      | some db, some k => some (args.head?.bind LuaArg.byte == some 1, db, k)
      | _, _ => none
  | _ => none

section Functions

variable {ρ : Type*} [DecidableEq ρ] (R : RealConv ρ)

/-- `mink_lua_do_db_get`: the returned string; `sqlInit` and `sqlGet` are the calls into
SQLite of `umdb_mngr_store_init` and of `umdb_mngr_store_get`. -/
def minkLuaDoDbGet (mem perm : Option (CStr → Store ρ)) (sqlInit sqlGet : SqlCalls)
    (args : List LuaArg) : Option CStr :=
  match dbGetArgs args with
  | none => none
  | some (p, db, k) =>
      match if p then perm else mem with
      | none => none
      | some stores =>
          -- init storage
          if umdbMngrStoreInit sqlInit ≠ 0 then none
          else
            match umdbMngrStoreGet R (some (stores db)) sqlGet (some k) none 0 with
            | (0, ob, _) => ob
            | _ => none

/-- A call of `umdb_mngr_store_set` with any value that SQLite can bind. -/
structure StoreCall where
  sql : SqlCalls
  k : CStr
  v : CStr
  bound : v.length < 2 ^ 31

/-- A successful call. -/
def Store.put (s : Store ρ) (a : StoreCall) : Option (Store ρ) :=
  match umdbMngrStoreSet R (some s) a.sql (some a.k) (some a.v) with
  | (0, s) => s
  | _ => none

end Functions

def noteValue {ρ : Type*} (_ : Store ρ) (m : Texts) (a : StoreCall) : Texts :=
  Function.update m a.k (some a.v)

/-- What the two functions report about a store in which the values `m` were set. -/
structure Reports {ρ : Type*} [DecidableEq ρ] (R : RealConv ρ) (s : Store ρ) (m : Texts) :
    Prop where
  code : ∀ (k : CStr) (sql : SqlCalls) (out : Option CStr) (outSz : Int), sql.Ok →
    ((umdbMngrStoreGet R (some s) sql (some k) out outSz).1 = 0 ↔ ∃ v, m k = some v)
  missing : ∀ (k : CStr) (sql : SqlCalls) (out : Option CStr) (outSz : Int), sql.Ok →
    m k = none → (umdbMngrStoreGet R (some s) sql (some k) out outSz).2 = (out, 0)
  value : ∀ (mem perm : Option (CStr → Store ρ)) (sqlInit sqlGet : SqlCalls)
    (args : List LuaArg) (p : Bool) (db k v : CStr) (stores : CStr → Store ρ),
    sqlInit.Ok → sqlGet.Ok → dbGetArgs args = some (p, db, k) →
    (if p then perm else mem) = some stores → stores db = s → m k = some v →
    minkLuaDoDbGet R mem perm sqlInit sqlGet args = some v

/-- The key does not look like a number, and the value is neither empty nor changed by
the conversion to a number and back. -/
def StoreCall.Plain {ρ : Type*} (R : RealConv ρ) (a : StoreCall) : Prop :=
  parseNum a.k.bytes = none ∧ KeepsText R a.v ∧ 0 < a.v.length

section Effects

variable {ρ : Type*} [DecidableEq ρ] {R : RealConv ρ} {s s' : Store ρ} {m : Texts}

theorem put_eq {a : StoreCall} (h : s.put R a = some s') : s' = sqlStorageSet R s a.k a.v := by
  unfold Store.put at h
  split at h
  · next t hcall =>
    have ht := umdbMngrStoreSet_of_zero hcall
    exact Option.some.inj (h.symm.trans ht)
  · cases h

theorem umdbMngrStoreInit_of_ok {sql : SqlCalls} (hsql : sql.Ok) : umdbMngrStoreInit sql = 0 := by
  obtain ⟨hprepare, -, -, -, hclear, hreset, hfinalize⟩ := hsql
  have hstep := sql.step_of_reset hreset
  simp [umdbMngrStoreInit, hprepare, hclear, hreset, hfinalize, hstep]

/-- `M.db_get` returns the text of a row unless it is empty. -/
theorem minkLuaDoDbGet_of_ok {mem perm : Option (CStr → Store ρ)} {sqlInit sqlGet : SqlCalls}
    {args : List LuaArg} {p : Bool} {db k : CStr} {stores : CStr → Store ρ}
    (hinit : sqlInit.Ok) (hget : sqlGet.Ok) (hargs : dbGetArgs args = some (p, db, k))
    (hdbm : (if p then perm else mem) = some stores) :
    minkLuaDoDbGet R mem perm sqlInit sqlGet args =
      match sqlStorageGet R (stores db) k with
      | some v => if int32 (columnText R v).length > 0 then some (columnText R v) else none
      | none => none := by
  simp only [minkLuaDoDbGet, hargs, hdbm, umdbMngrStoreInit_of_ok hinit, ne_eq, not_true_eq_false,
    if_false, umdbMngrStoreGet_of_ok hget]
  cases sqlStorageGet R (stores db) k with
  | none => rfl
  | some v =>
      dsimp only
      split_ifs <;> rfl

theorem Inv.reports (h : Inv R s m) : Reports R s m where
  code k sql out outSz hsql := by
    rw [h.exact k sql out outSz hsql]
    cases m k <;> simp
  missing k sql out outSz hsql hm := by
    rw [h.exact k sql out outSz hsql, hm]
  value mem perm sqlInit sqlGet args p db k v stores hinit hget hargs hdbm hstore hm := by
    obtain ⟨hkeeps, hpos, hbound⟩ := h.value k v hm
    rw [minkLuaDoDbGet_of_ok hinit hget hargs hdbm, hstore, h.stored k, hm]
    simp only [Option.map_some, (columnText_applyNumeric_iff v).mpr hkeeps, int32_of_lt hbound]
    rw [if_pos (by omega)]

/-- A call that sets a value that is not empty is one of those that keep texts. -/
theorem Inv.put (h : Inv R s m) {a : StoreCall} (hplain : a.Plain R) :
    Inv R (sqlStorageSet R s a.k a.v) (noteValue s m a) := by
  obtain ⟨hkey, hkeeps, hpos⟩ := hplain
  exact @Inv.step _ _ R s m h ⟨a.sql, a.k, a.v, hpos, a.bound⟩ ⟨hkey, hkeeps⟩

/-- The arguments of `M.db_get(db, k)`. -/
def getArgs (db k : CStr) : List LuaArg := [⟨some db, none⟩, ⟨some k, none⟩]

/-- After a call whose key looks like a number, the same key with a space before it is
answered too; the key itself is answered with the value only if the value is kept and is
not empty. -/
theorem Inv.plain_of_reports (h : Inv R s m) {a : StoreCall}
    (hreports : Reports R (sqlStorageSet R s a.k a.v) (noteValue s m a)) : a.Plain R := by
  have hkey : parseNum a.k.bytes = none := by
    by_contra hnum
    have hget := hreports.missing (padded a.k) .success none 0 (by decide)
    rw [noteValue, Function.update_of_ne (padded_ne a.k), umdbMngrStoreGet_of_ok (by decide),
      sqlStorageGet_set, if_pos (applyNumeric_padded hnum)] at hget
    exact absurd (congrArg Prod.fst (hget (h.free_of_number hnum))) nofun
  have hvalue := hreports.value (some fun _ => sqlStorageSet R s a.k a.v) none .success .success
    (getArgs a.k a.k) false a.k a.k a.v _ (by decide) (by decide) rfl rfl rfl
    (Function.update_self _ _ _)
  rw [minkLuaDoDbGet_of_ok (by decide) (by decide) rfl rfl, sqlStorageGet_set, if_pos rfl] at hvalue
  dsimp only at hvalue
  split_ifs at hvalue with hpos
  have htext := Option.some.inj hvalue
  refine ⟨hkey, (columnText_applyNumeric_iff a.v).mp htext, ?_⟩
  rw [htext, int32_of_lt a.bound] at hpos
  exact_mod_cast hpos

end Effects

/-- Set and missing keys are told apart, and `M.db_get` returns the last value, after each of a
sequence of successful calls exactly when no call sets an empty value, a key that looks like a
number or a value that the conversion to a number changes. -/
theorem store_presence_iff {ρ : Type*} [DecidableEq ρ] (R : RealConv ρ) (calls : List StoreCall) :
    Trace.Along (Trace.ghost (Store.put R) noteValue) (fun _ _ t => Reports R t.1 t.2)
        ([], fun _ => none) calls ↔
      Trace.Along (Store.put R) (fun _ a _ => a.Plain R) [] calls := by
  rw [← Trace.along_ghost_iff noteValue (fun _ => none)]
  refine (Trace.along_iff_of_invariant (I := fun s => Inv R s.1 s.2) ?_ ?_ inv_init calls).symm
  · rintro s a t hs hst
    obtain ⟨hstep, hnote⟩ := Trace.ghost_eq_some_iff.mp hst
    rw [put_eq hstep, ← hnote]
    exact ⟨fun hplain => (hs.put hplain).reports, fun hreports => hs.plain_of_reports hreports⟩
  · rintro s a t hs hplain hst
    obtain ⟨hstep, hnote⟩ := Trace.ghost_eq_some_iff.mp hst
    rw [put_eq hstep, ← hnote]
    exact hs.put hplain

/-- `umdb_mngr_store_set(m, s, "a", "")`. -/
def setEmpty : StoreCall := ⟨.success, .ascii "a" (by decide), .empty, by decide⟩

/-- An empty value is reported as a missing key, with a text of size 1 for the caller to
free, and `M.db_get` returns nothing for it. -/
theorem empty_value_missing :
    ∃ s : Store Unit,
      Store.put halfConv [] setEmpty = some s ∧
      umdbMngrStoreGet halfConv (some s) .success (some setEmpty.k) none 0 =
        (8, some .empty, 1) ∧
      minkLuaDoDbGet halfConv (some fun _ => s) none .success .success
        (getArgs (.ascii "s" (by decide)) setEmpty.k) = none ∧
      ¬ Reports halfConv s (noteValue s (fun _ => none) setEmpty) := by
  refine ⟨_, rfl, by decide, by decide, fun h => ?_⟩
  have hcode := (h.code setEmpty.k .success none 0 (by decide)).mpr
    ⟨setEmpty.v, Function.update_self _ _ _⟩
  exact absurd hcode (by decide)

end Umink.Umdb
