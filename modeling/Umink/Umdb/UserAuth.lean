import Umink.Library.CTypes

/-!
# The user table

`umdb_mngr_uauth` and `umdb_mngr_uget` with the two queries they prepare. What
SQLite answers to the calls that one function makes is an input.
-/

namespace Umink.Umdb

open Umink.Library

/-- A row of the table `user`. -/
structure UserRow where
  id : Int
  username : String
  password : String
  flags : Int

/-- Whether the calls into SQLite succeed: `sqlite3_prepare_v2`, the binding of
each parameter, `sqlite3_step` (with a row or without one), then
`sqlite3_clear_bindings`, `sqlite3_reset`, which reports the error of a failed
step again, and `sqlite3_finalize`. -/
structure SqlCalls where
  prepare : Bool
  bind : Nat → Bool
  step : Bool
  clearBindings : Bool
  reset : Bool
  finalize : Bool
  step_of_reset : reset = true → step = true

/-- `umdb_uauth_d_t`. -/
structure UmdbUauth where
  auth : Int
  id : Int
  flags : Int
  usr : Option String

/-- `dbm`, with the rows of its `user` table; none while there is no connection. -/
abbrev Dbm := Option (List UserRow)

/-- The first row of `SQL_USER_AUTH`: id, flags and auth of the user. -/
def sqlUserAuth (users : List UserRow) (u p : String) : Option (Int × Int × Int) :=
  (users.find? fun a => a.username = u).map fun a =>
    (a.id, a.flags, if users.any (fun b => b.username = u ∧ b.password = p) then 1 else 0)

/-- The first row of `SQL_USER_GET`: id and flags of the user. -/
def sqlUserGet (users : List UserRow) (u : String) : Option (Int × Int) :=
  (users.find? fun a => a.username = u).map fun a => (a.id, a.flags)

/-- `umdb_mngr_uauth`: the code and the result descriptor. -/
def umdbMngrUauth (m : Dbm) (sql : SqlCalls) (res : UmdbUauth) (u p : Option String) :
    Nat × UmdbUauth :=
  -- skip if already authenticated
  if res.auth = 1 then (0, res)
  else
    match m, u, p with
    | some users, some u, some p =>
        if !sql.prepare then (2, res)
        else if !sql.bind 1 then (3, res)
        else if !sql.bind 2 then (4, res)
        else if !sql.bind 3 then (5, res)
        else
          let row := if sql.step then sqlUserAuth users u p else none
          let (usrId, usrFlags, auth) :=
            match row with
            | some (id, flags, auth) => (int32 id, int32 flags, int32 auth)
            | none => (-1, 0, -1)
          if !sql.clearBindings then (6, res)
          else if !sql.reset then (7, res)
          else if !sql.finalize then (8, res)
          else (0, { res with auth := auth, id := usrId, flags := usrFlags })
    | _, _, _ => (1, res)

/-- `umdb_mngr_uget`: the code and the result descriptor. -/
def umdbMngrUget (m : Dbm) (sql : SqlCalls) (res : UmdbUauth) (u : Option String) :
    Nat × UmdbUauth :=
  match m, u with
  | some users, some u =>
      if !sql.prepare then (2, res)
      else if !sql.bind 1 then (3, res)
      else
        let row := if sql.step then sqlUserGet users u else none
        let (usrId, usrFlags) :=
          match row with
          | some (id, flags) => (int32 id, int32 flags)
          | none => (-1, 0)
        if !sql.clearBindings then (6, res)
        else if !sql.reset then (7, res)
        else if !sql.finalize then (8, res)
        else (0, { res with id := usrId, flags := usrFlags, usr := some u })
  | _, _ => (1, res)

/-- The pair is in a row of the table. -/
def Matches (users : List UserRow) (u p : String) : Prop :=
  ∃ r ∈ users, r.username = u ∧ r.password = p

/-- Every call of one authentication query succeeds. -/
def SqlCalls.Ok (sql : SqlCalls) : Prop :=
  sql.prepare ∧ sql.bind 1 ∧ sql.bind 2 ∧ sql.bind 3 ∧ sql.clearBindings ∧ sql.reset ∧
    sql.finalize

instance (sql : SqlCalls) : Decidable sql.Ok := inferInstanceAs (Decidable (_ ∧ _))

def SqlCalls.success : SqlCalls := ⟨true, fun _ => true, true, true, true, true, fun _ => rfl⟩

theorem sqlUserAuth_eq_none_iff {users : List UserRow} {u p : String} :
    sqlUserAuth users u p = none ↔ ∀ r ∈ users, r.username ≠ u := by
  simp [sqlUserAuth]

theorem sqlUserAuth_some {users : List UserRow} {u p : String} {row : Int × Int × Int}
    (h : sqlUserAuth users u p = some row) :
    (row.2.2 = 1 ∧ Matches users u p) ∨ (row.2.2 = 0 ∧ ¬ Matches users u p) := by
  obtain ⟨a, -, rfl⟩ := Option.map_eq_some_iff.mp h
  have hany : users.any (fun b => b.username = u ∧ b.password = p) = true ↔ Matches users u p := by
    simp [Matches]
  by_cases hm : Matches users u p
  · exact Or.inl ⟨by simp only [hany.mpr hm, if_true], hm⟩
  · exact Or.inr ⟨by rw [if_neg (fun h => hm (hany.mp h))], hm⟩

theorem sqlUserAuth_of_matches {users : List UserRow} {u p : String} (h : Matches users u p) :
    ∃ row, sqlUserAuth users u p = some row := by
  obtain ⟨r, hr, hu, -⟩ := h
  cases hrow : sqlUserAuth users u p with
  | some row => exact ⟨row, rfl⟩
  | none => exact absurd hu (sqlUserAuth_eq_none_iff.mp hrow r hr)

section Uauth

variable {users : List UserRow} {m : Dbm} {sql : SqlCalls} {res : UmdbUauth} {u p : String}

/-- A descriptor that is authenticated already stays as it is. -/
theorem umdbMngrUauth_of_auth (h : res.auth = 1) (u p : Option String) :
    umdbMngrUauth m sql res u p = (0, res) := by
  simp [umdbMngrUauth, h]

/-- The descriptor that a query fills. -/
theorem umdbMngrUauth_of_ok (hres : res.auth ≠ 1) (hsql : sql.Ok) :
    umdbMngrUauth (some users) sql res (some u) (some p) =
      (0, match sqlUserAuth users u p with
        | some row =>
            { res with auth := int32 row.2.2, id := int32 row.1, flags := int32 row.2.1 }
        | none => { res with auth := -1, id := -1, flags := 0 }) := by
  obtain ⟨hprepare, h₁, h₂, h₃, hclear, hreset, hfinalize⟩ := hsql
  have hstep := sql.step_of_reset hreset
  simp only [umdbMngrUauth, hres, hprepare, h₁, h₂, h₃, hstep, hclear, hreset, hfinalize, if_false,
    if_true, Bool.not_true, Bool.false_eq_true]
  cases sqlUserAuth users u p <;> rfl

theorem umdbMngrUauth_of_not_ok (hres : res.auth ≠ 1) (hsql : ¬ sql.Ok) :
    (umdbMngrUauth m sql res (some u) (some p)).1 ≠ 0 := by
  intro h
  cases m with
  | none => simp [umdbMngrUauth, hres] at h
  | some users =>
      -- a call that fails returns before the others
      unfold umdbMngrUauth at h
      rw [if_neg hres] at h
      cases hprepare : sql.prepare <;> rw [hprepare] at h
      · cases h
      cases h₁ : sql.bind 1 <;> rw [h₁] at h
      · cases h
      cases h₂ : sql.bind 2 <;> rw [h₂] at h
      · cases h
      cases h₃ : sql.bind 3 <;> rw [h₃] at h
      · cases h
      cases hclear : sql.clearBindings <;> rw [hclear] at h
      · cases h
      cases hreset : sql.reset <;> rw [hreset] at h
      · cases h
      cases hfinalize : sql.finalize <;> rw [hfinalize] at h
      · cases h
      exact hsql ⟨hprepare, h₁, h₂, h₃, hclear, hreset, hfinalize⟩

/-- A descriptor that is not authenticated already is authenticated exactly by
a query that succeeds and finds the pair. -/
theorem umdbMngrUauth_auth_iff {u p : Option String} (hres : res.auth ≠ 1) :
    ((umdbMngrUauth m sql res u p).1 = 0 ∧ (umdbMngrUauth m sql res u p).2.auth = 1) ↔
      sql.Ok ∧ ∃ users u' p', m = some users ∧ u = some u' ∧ p = some p' ∧ Matches users u' p' := by
  rcases m with _ | users
  · simp [umdbMngrUauth, hres]
  rcases u with _ | u
  · simp [umdbMngrUauth, hres]
  rcases p with _ | p
  · simp [umdbMngrUauth, hres]
  by_cases hsql : sql.Ok
  · rw [umdbMngrUauth_of_ok hres hsql]
    cases hrow : sqlUserAuth users u p with
    | none =>
        have hno : ¬ Matches users u p := by
          intro hm
          obtain ⟨row, hsome⟩ := sqlUserAuth_of_matches hm
          simp [hrow] at hsome
        simp [hno]
    | some row =>
        rcases sqlUserAuth_some hrow with ⟨hone, hm⟩ | ⟨hzero, hm⟩
        · simp [hsql, hone, hm, int32]
        · simp [hzero, hm, int32]
  · exact iff_of_false (fun h => umdbMngrUauth_of_not_ok hres hsql h.1) fun h => hsql h.1

/-- The columns that `umdb_mngr_uget` reports for a user: those of the row, or
-1 and 0 for a user in no row. -/
def usrColumns (users : List UserRow) (u : String) : Int × Int :=
  match sqlUserGet users u with
  | some (id, flags) => (int32 id, int32 flags)
  | none => (-1, 0)

theorem umdbMngrUget_of_zero (h : (umdbMngrUget m sql res (some u)).1 = 0) :
    ∃ users, m = some users ∧ umdbMngrUget m sql res (some u) =
      (0, { res with
        id := (usrColumns users u).1, flags := (usrColumns users u).2, usr := some u }) := by
  rcases m with _ | users
  · simp [umdbMngrUget] at h
  have hcalls : sql.prepare ∧ sql.bind 1 ∧ sql.clearBindings ∧ sql.reset ∧ sql.finalize := by
    simp only [umdbMngrUget] at h
    split_ifs at h <;> simp_all
  obtain ⟨hprepare, h₁, hclear, hreset, hfinalize⟩ := hcalls
  have hstep := sql.step_of_reset hreset
  refine ⟨users, rfl, ?_⟩
  simp only [umdbMngrUget, usrColumns, hprepare, h₁, hstep, hclear, hreset, hfinalize, if_true,
    Bool.not_true, Bool.false_eq_true, if_false]

end Uauth

end Umink.Umdb
