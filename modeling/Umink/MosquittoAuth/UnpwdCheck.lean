import Umink.Umdb.UserAuth

/-!
# Password check of the version 4 broker plugin

`mosquitto_auth_unpwd_check` passes its result descriptor to `umdb_mngr_uauth`
without initialising it, so the content that the variable happens to have is an
input of the check.
-/

namespace Umink.MosquittoAuth

open Umink.Umdb

/-- The `MOSQ_ERR_*` codes that the plugins return. -/
inductive MosqErr where
  | success
  | auth
  | malformedPacket
  deriving DecidableEq, Repr

/-- `mosquitto_auth_unpwd_check`; `uauth` is what the automatic variable holds at
its declaration. -/
def mosquittoAuthUnpwdCheck (dbm : Dbm) (sql : SqlCalls) (uauth : UmdbUauth)
    (username password : Option String) : MosqErr :=
  -- anonymous not allowed
  if username.isNone then .auth
  else
    let (r, uauth) := umdbMngrUauth dbm sql uauth username password
    if r = 0 then
      if uauth.auth ≠ 1 then .auth else .success
    else .auth

variable {dbm : Dbm} {sql : SqlCalls} {uauth : UmdbUauth} {username password : Option String}

/-- Both names are given, the query succeeds and finds the pair. -/
def RightLogin (dbm : Dbm) (sql : SqlCalls) (username password : Option String) : Prop :=
  sql.Ok ∧ ∃ users u p, dbm = some users ∧ username = some u ∧ password = some p ∧
    Matches users u p

/-- The check lets a named user pass exactly with an authenticated descriptor. -/
theorem unpwdCheck_success_iff :
    mosquittoAuthUnpwdCheck dbm sql uauth username password = .success ↔
      username ≠ none ∧ (umdbMngrUauth dbm sql uauth username password).1 = 0 ∧
        (umdbMngrUauth dbm sql uauth username password).2.auth = 1 := by
  cases username with
  | none => simp [mosquittoAuthUnpwdCheck]
  | some u =>
      simp only [mosquittoAuthUnpwdCheck, Option.isNone_some, Bool.false_eq_true, if_false]
      split_ifs <;> simp_all

/-- With any content but a set `auth` the password decides. -/
theorem unpwdCheck_of_auth_ne (h : uauth.auth ≠ 1) :
    mosquittoAuthUnpwdCheck dbm sql uauth username password = .success ↔
      RightLogin dbm sql username password := by
  rw [unpwdCheck_success_iff, umdbMngrUauth_auth_iff h]
  constructor
  · exact fun hlogin => hlogin.2
  · rintro ⟨hok, users, u, p, hdbm, hu, hp, hm⟩
    exact ⟨by simp [hu], hok, users, u, p, hdbm, hu, hp, hm⟩

/-- With a set `auth` every named user passes. -/
theorem unpwdCheck_of_auth_eq (h : uauth.auth = 1) :
    mosquittoAuthUnpwdCheck dbm sql uauth username password = .success ↔ username ≠ none := by
  simp [unpwdCheck_success_iff, umdbMngrUauth_of_auth h, h]

/-- A login is answered rightly exactly when the descriptor does not start out
authenticated, unless the answer is the same without the password. All logins
are answered rightly exactly when it does not. -/
theorem unpwdCheck_right_iff (uauth : UmdbUauth) :
    (∀ dbm sql username password,
      (mosquittoAuthUnpwdCheck dbm sql uauth username password = .success ↔
        RightLogin dbm sql username password) ↔
      (uauth.auth = 1 → username = none ∨ RightLogin dbm sql username password)) ∧
    ((∀ dbm sql username password,
      mosquittoAuthUnpwdCheck dbm sql uauth username password = .success ↔
        RightLogin dbm sql username password) ↔ uauth.auth ≠ 1) := by
  by_cases h : uauth.auth = 1
  · refine ⟨fun dbm sql username password => ?_, iff_of_false (fun hall => ?_) (by simp [h])⟩
    · rw [unpwdCheck_of_auth_eq h]
      constructor
      · intro hright _
        by_cases hu : username = none
        · exact Or.inl hu
        · exact Or.inr (hright.mp hu)
      · intro hcond
        rcases hcond h with rfl | hright
        · apply iff_of_false (by simp)
          rintro ⟨-, users, u, p, -, hu, -⟩
          cases hu
        · obtain ⟨-, users, u, p, -, rfl, -⟩ := id hright
          exact iff_of_true (by simp) hright
    · -- no login is right without a connection
      have hwrong := (hall none SqlCalls.success (some "") none).mp
        ((unpwdCheck_of_auth_eq h).mpr (by simp))
      obtain ⟨-, users, u, p, hdbm, -⟩ := hwrong
      cases hdbm
  · refine ⟨fun dbm sql username password => ?_, iff_of_true (fun _ _ _ _ => ?_) h⟩
    · exact iff_of_true (unpwdCheck_of_auth_ne h) fun heq => absurd heq h
    · exact unpwdCheck_of_auth_ne h

/-- The descriptor of an earlier login is still in the variable: a wrong password
passes, and so does a user who is in no row. -/
theorem unpwdCheck_leftover :
    mosquittoAuthUnpwdCheck (some [⟨1, "admin", "password", 1⟩]) SqlCalls.success
        ⟨1, 1, 1, none⟩ (some "admin") (some "guess") = .success ∧
      ¬ RightLogin (some [⟨1, "admin", "password", 1⟩]) SqlCalls.success (some "admin")
        (some "guess") ∧
      mosquittoAuthUnpwdCheck (some [⟨1, "admin", "password", 1⟩]) SqlCalls.success
        ⟨1, 1, 1, none⟩ (some "nobody") none = .success := by
  refine ⟨by decide, ?_, by decide⟩
  rintro ⟨-, users, u, p, hdbm, hu, hp, r, hr, -, hpass⟩
  cases hdbm
  cases hp
  obtain rfl : r = ⟨1, "admin", "password", 1⟩ := by simpa using hr
  exact absurd hpass (by decide)

end Umink.MosquittoAuth
