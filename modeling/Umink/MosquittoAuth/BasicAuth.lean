import Umink.Library.HashTable
import Umink.Library.JsonC
import Umink.Library.Trace
import Umink.MosquittoAuth.UnpwdCheck

/-!
# Logins of the version 5 broker plugin

`cb_basic_auth` lets a client in with a token in the place of the user name or
with a password, and keeps a record of failed logins for each user. The state of
the plugin is the list of these records.

## Implementation notes

Files, clocks, the token library and the database answer differently at every
call; what they answer is part of the call.
-/

namespace Umink.MosquittoAuth

open Umink.Library Umink.Umdb

/-- `user_ban_cfg` and `jwt_exp`. -/
structure AuthCfg where
  maxFailedNr : UInt32
  failedTimeSpan : UInt32
  banDuration : UInt32
  jwtExp : Int

/-- `struct umuser_d`. -/
structure Umuser where
  username : String
  firstFailedTs : Int
  failedNr : UInt32
  bannedUntilTs : Int
  deriving DecidableEq, Repr

/-- The token library: `jwt_decode` with a public key, `jwt_validate` at a time
and `jwt_get_grants_json`. -/
structure JwtLib (β : Type*) where
  decode : String → String → Option β
  validate : β → Int → Bool
  grantsJson : β → Option String

/-- A call of `cb_basic_auth` with what it reads from its environment. -/
structure AuthCall where
  username : Option String
  password : Option String
  /-- The content of the key file; none when it cannot be opened. -/
  pubKey : Option String
  /-- `jwt_valid_new` succeeds. -/
  validNew : Bool
  /-- `time(NULL)` for the validator and for the expiry. -/
  validNow : Int
  now : Int
  /-- The second of `CLOCK_MONOTONIC`. -/
  clk : Int
  dbm : Dbm
  sql : SqlCalls

/-- What `jwt_parse` takes from a token. -/
structure JwtClaims where
  usr : String
  id : Int
  flags : Int
  iat : Int

/-- `jwt_parse`. -/
def jwtParse (c : JsonC) (data : Option String) : Option JwtClaims :=
  match data with
  | none => none
  | some data =>
      let j := c.tokenerParse data
      if j.isNull then none
      else
        let jUsrId := j.field "usr_id"
        let jUsr := j.field "usr"
        let jUsrFlgs := j.field "usr_flgs"
        let jIat := j.field "iat"
        if jUsrId.isNull ∨ jUsr.isNull ∨ jIat.isNull then none
        else
          some ⟨c.getString jUsr, c.getInt jUsrId, c.getInt jUsrFlgs, c.getInt jIat⟩

variable {β : Type*} (cfg : AuthCfg) (lib : JwtLib β) (c : JsonC)

/-- The token part of `cb_basic_auth`: the descriptor, `use_jwt` and the name
that the rest of the login is about. -/
def jwtLogin (ed : AuthCall) (key username : String) : UmdbUauth × Bool × String :=
  let uauth : UmdbUauth := ⟨0, 0, -1, none⟩
  match lib.decode key username with
  | none => ({ uauth with auth := 0 }, false, username)
  | some jwt =>
      if lib.validate jwt ed.validNow then
        match jwtParse c (lib.grantsJson jwt) with
        | none => (uauth, false, username)
        | some claims =>
            let uauth : UmdbUauth := ⟨1, claims.id, claims.flags, some claims.usr⟩
            -- not expired
            if int32 (claims.iat + cfg.jwtExp) > ed.now then (uauth, true, claims.usr)
            else ({ uauth with auth := 0 }, false, username)
      else (uauth, false, username)

/-- The record after one more wrong password. -/
def countFailure (clk : Int) (umuser : Umuser) : Umuser :=
  let failedNr := umuser.failedNr + 1
  let firstFailedTs := if failedNr = 1 then clk else umuser.firstFailedTs
  -- reset counters if configured time span has expired
  let (failedNr, firstFailedTs) :=
    if clk - firstFailedTs > cfg.failedTimeSpan.toNat then (1, clk) else (failedNr, firstFailedTs)
  -- ban user if threshold reached
  let bannedUntilTs :=
    if failedNr ≥ cfg.maxFailedNr then clk + cfg.banDuration.toNat else umuser.bannedUntilTs
  ⟨umuser.username, firstFailedTs, failedNr, bannedUntilTs⟩

def clearFailures (umuser : Umuser) : Umuser := ⟨umuser.username, 0, 0, 0⟩

/-- `cb_basic_auth` for a known user, from the ban check on: the result and the
record. -/
def checkUmuser (clk : Int) (auth : Int) (umuser : Umuser) : MosqErr × Umuser :=
  if umuser.bannedUntilTs > 0 then
    -- user still banned
    if clk ≤ umuser.bannedUntilTs then (.auth, umuser)
    -- user no longer banned
    else (.success, clearFailures umuser)
  -- not authenticated due to wrong password
  else if auth ≠ 1 then (.auth, countFailure cfg clk umuser)
  else (.success, clearFailures umuser)

/-- `cb_basic_auth`: the result and `umusers`. -/
def cbBasicAuth (umusers : List Umuser) (ed : AuthCall) : MosqErr × List Umuser :=
  match ed.username, ed.pubKey, ed.validNew with
  | some username, some key, true =>
      let (uauth, _, username) := jwtLogin cfg lib c ed key username
      let umuser := HashTable.find Umuser.username umusers username
      let (r, uauth) := umdbMngrUauth ed.dbm ed.sql uauth (some username) ed.password
      if r ≠ 0 then (.auth, umusers)
      -- unknown user
      else if uauth.id < 1 then (.auth, umusers)
      else
        let (umuser, umusers) :=
          match umuser with
          | some umuser => (umuser, umusers)
          | none => (⟨username, 0, 0, 0⟩, HashTable.add umusers ⟨username, 0, 0, 0⟩)
        let (res, umuser) := checkUmuser cfg ed.clk uauth.auth umuser
        (res, HashTable.modify Umuser.username umusers username fun _ => umuser)
  | _, _, _ => (.auth, umusers)

/-- One call as a step of the plugin. -/
def authStep (umusers : List Umuser) (ed : AuthCall) : Option (List Umuser) :=
  some (cbBasicAuth cfg lib c umusers ed).2

/-- The claims of the presented token when it is accepted and can be parsed. -/
def tokenClaims (ed : AuthCall) : Option JwtClaims :=
  match ed.username, ed.pubKey, ed.validNew with
  | some username, some key, true =>
      (lib.decode key username).bind fun jwt =>
        if lib.validate jwt ed.validNow then jwtParse c (lib.grantsJson jwt) else none
  | _, _, _ => none

/-- The presented token was accepted and parsed and has not expired. -/
def ValidToken (ed : AuthCall) : Prop :=
  ∃ claims, tokenClaims lib c ed = some claims ∧ ed.now < claims.iat + cfg.jwtExp

/-- The presented pair is in a row of the user table. -/
def ValidPair (ed : AuthCall) : Prop :=
  ∃ users u p, ed.dbm = some users ∧ ed.username = some u ∧ ed.password = some p ∧
    Matches users u p

/-- A client that is let in presented a valid pair or a valid token. -/
def SoundLogin (umusers : List Umuser) (ed : AuthCall) : Prop :=
  (cbBasicAuth cfg lib c umusers ed).1 = .success → ValidPair ed ∨ ValidToken cfg lib c ed

/-- The second up to which the user is banned; zero without a ban. -/
def banOf (umusers : List Umuser) (username : String) : Int :=
  ((HashTable.find Umuser.username umusers username).map Umuser.bannedUntilTs).getD 0

/-- The login takes the token: its claims are not expired in `int` arithmetic. -/
def TakesToken (ed : AuthCall) (claims : JwtClaims) : Prop :=
  tokenClaims lib c ed = some claims ∧ ed.now < int32 (claims.iat + cfg.jwtExp)

/-- A login of a known user with a wrong password and no token, whose ban ended
before the call. -/
def ExpiredBanLogin (umusers : List Umuser) (ed : AuthCall) : Prop :=
  (∀ claims, ¬ TakesToken cfg lib c ed claims) ∧ ¬ ValidToken cfg lib c ed ∧
    ed.pubKey ≠ none ∧ ed.validNew = true ∧ ed.sql.Ok ∧
    ∃ users u p r, ed.dbm = some users ∧ ed.username = some u ∧ ed.password = some p ∧
      users.find? (fun a => a.username = u) = some r ∧ 1 ≤ int32 r.id ∧ ¬ Matches users u p ∧
      0 < banOf umusers u ∧ banOf umusers u < ed.clk

/-- A login of a user without a present ban by an expired token, whose expiry
time wraps to a later one, and not by a pair. -/
def WrappedTokenLogin (umusers : List Umuser) (ed : AuthCall) : Prop :=
  ∃ claims, TakesToken cfg lib c ed claims ∧ claims.iat + cfg.jwtExp ≤ ed.now ∧ 1 ≤ claims.id ∧
    (banOf umusers claims.usr ≤ 0 ∨ banOf umusers claims.usr < ed.clk) ∧ ¬ ValidPair ed

section Login

variable {cfg lib c} {umusers : List Umuser} {ed : AuthCall}

/-- The check of a record lets a client in after a ban, and else when it is
authenticated and not banned. -/
theorem checkUmuser_success_iff {clk auth : Int} {r : Umuser} :
    (checkUmuser cfg clk auth r).1 = .success ↔
      (0 < r.bannedUntilTs ∧ r.bannedUntilTs < clk) ∨ (r.bannedUntilTs ≤ 0 ∧ auth = 1) := by
  unfold checkUmuser
  by_cases hban : r.bannedUntilTs > 0
  · have hpos : ¬ r.bannedUntilTs ≤ 0 := Int.not_le.mpr hban
    rw [if_pos hban]
    by_cases hclk : clk ≤ r.bannedUntilTs
    · simp [hclk, hpos, Int.not_lt.mpr hclk]
    · simp [hclk, hban, Int.not_le.mp hclk]
  · have hle : r.bannedUntilTs ≤ 0 := Int.not_lt.mp hban
    rw [if_neg hban]
    by_cases hauth : auth = 1
    · simp [hauth, hle]
    · simp [hauth, Int.not_lt.mpr hle]

/-- `cb_basic_auth` after its first checks: the query with the descriptor of the
token part and the check of the record. -/
theorem cbBasicAuth_success_iff {username key : String} (hu : ed.username = some username)
    (hkey : ed.pubKey = some key) (hnew : ed.validNew = true) {uauth : UmdbUauth} {useJwt : Bool}
    {name : String} (hlogin : jwtLogin cfg lib c ed key username = (uauth, useJwt, name)) :
    (cbBasicAuth cfg lib c umusers ed).1 = .success ↔
      (umdbMngrUauth ed.dbm ed.sql uauth (some name) ed.password).1 = 0 ∧
      1 ≤ (umdbMngrUauth ed.dbm ed.sql uauth (some name) ed.password).2.id ∧
      ((0 < banOf umusers name ∧ banOf umusers name < ed.clk) ∨
        (banOf umusers name ≤ 0 ∧
          (umdbMngrUauth ed.dbm ed.sql uauth (some name) ed.password).2.auth = 1)) := by
  simp only [cbBasicAuth, hu, hkey, hnew, hlogin]
  split_ifs with hcode hid
  · exact iff_of_false (by simp) fun h => hcode h.1
  · exact iff_of_false (by simp) fun h => absurd h.2.1 (by omega)
  · have hcode' : (umdbMngrUauth ed.dbm ed.sql uauth (some name) ed.password).1 = 0 := by
      simpa using hcode
    rw [and_iff_right hcode', and_iff_right (by omega)]
    cases hfind : HashTable.find Umuser.username umusers name with
    | none =>
        simp only [banOf, hfind, Option.map_none, Option.getD_none]
        exact checkUmuser_success_iff
    | some r =>
        simp only [banOf, hfind, Option.map_some, Option.getD_some]
        exact checkUmuser_success_iff

/-- The token part of a login that takes the token. -/
theorem jwtLogin_of_takes {username key : String} {claims : JwtClaims}
    (hu : ed.username = some username) (hkey : ed.pubKey = some key) (hnew : ed.validNew = true)
    (h : TakesToken cfg lib c ed claims) :
    jwtLogin cfg lib c ed key username =
      (⟨1, claims.id, claims.flags, some claims.usr⟩, true, claims.usr) := by
  obtain ⟨hclaims, hnow⟩ := h
  simp only [tokenClaims, hu, hkey, hnew, Option.bind_eq_some_iff] at hclaims
  obtain ⟨jwt, hdecode, hparse⟩ := hclaims
  split at hparse
  · next hvalid => simp [jwtLogin, hdecode, hvalid, hparse, hnow]
  · cases hparse

/-- The token part of every other login leaves the descriptor unauthenticated
and the name as it is. -/
theorem jwtLogin_of_not_takes {username key : String} (hu : ed.username = some username)
    (hkey : ed.pubKey = some key) (hnew : ed.validNew = true)
    (h : ∀ claims, ¬ TakesToken cfg lib c ed claims) :
    ∃ uauth, uauth.auth = 0 ∧ jwtLogin cfg lib c ed key username = (uauth, false, username) := by
  simp only [TakesToken, tokenClaims, hu, hkey, hnew] at h
  unfold jwtLogin
  cases hdecode : lib.decode key username with
  | none => exact ⟨⟨0, 0, -1, none⟩, rfl, rfl⟩
  | some jwt =>
      cases hvalid : lib.validate jwt ed.validNow with
      | false => exact ⟨⟨0, 0, -1, none⟩, rfl, by simp [hvalid]⟩
      | true =>
          cases hparse : jwtParse c (lib.grantsJson jwt) with
          | none => exact ⟨⟨0, 0, -1, none⟩, rfl, by simp [hvalid, hparse]⟩
          | some claims =>
              have hexpired : ¬ ed.now < int32 (claims.iat + cfg.jwtExp) := fun hnow =>
                h claims ⟨by simp [hdecode, hvalid, hparse], hnow⟩
              exact ⟨⟨0, claims.id, claims.flags, some claims.usr⟩, rfl, by
                simp [hvalid, hparse, hexpired]⟩

theorem tokenClaims_eq_some {claims : JwtClaims} (h : tokenClaims lib c ed = some claims) :
    ∃ username key, ed.username = some username ∧ ed.pubKey = some key ∧ ed.validNew = true := by
  unfold tokenClaims at h
  split at h
  · next username key hu hkey hnew => exact ⟨username, key, hu, hkey, hnew⟩
  · cases h

/-- A login by token is let in when its user exists and is not banned. -/
theorem success_iff_of_takes {claims : JwtClaims} (h : TakesToken cfg lib c ed claims) :
    (cbBasicAuth cfg lib c umusers ed).1 = .success ↔
      1 ≤ claims.id ∧ (banOf umusers claims.usr ≤ 0 ∨ banOf umusers claims.usr < ed.clk) := by
  obtain ⟨username, key, hu, hkey, hnew⟩ := tokenClaims_eq_some h.1
  rw [cbBasicAuth_success_iff hu hkey hnew (jwtLogin_of_takes hu hkey hnew h),
    umdbMngrUauth_of_auth rfl]
  simp only [true_and, and_true]
  constructor
  · rintro ⟨hid, hban⟩
    exact ⟨hid, by omega⟩
  · rintro ⟨hid, hban⟩
    exact ⟨hid, by omega⟩

/-- What an answered query with an unauthenticated descriptor says of a user with
a positive id. -/
theorem known_iff (users : List UserRow) (sql : SqlCalls) {uauth : UmdbUauth} (u p : String)
    (hauth : uauth.auth = 0) :
    ((umdbMngrUauth (some users) sql uauth (some u) (some p)).1 = 0 ∧
      1 ≤ (umdbMngrUauth (some users) sql uauth (some u) (some p)).2.id) ↔
    sql.Ok ∧ ∃ r, users.find? (fun a => a.username = u) = some r ∧ 1 ≤ int32 r.id := by
  have hne : uauth.auth ≠ 1 := by omega
  by_cases hsql : sql.Ok
  · rw [umdbMngrUauth_of_ok hne hsql]
    cases hfind : users.find? (fun a => a.username = u) with
    | none => simp [sqlUserAuth, hfind]
    | some r => simp [hsql, sqlUserAuth, hfind]
  · exact iff_of_false (fun h => umdbMngrUauth_of_not_ok hne hsql h.1) fun h => hsql h.1

/-- A login without a token is let in when the user is known and has the right
password or a ban that ended. -/
theorem success_iff_of_not_takes (h : ∀ claims, ¬ TakesToken cfg lib c ed claims) :
    (cbBasicAuth cfg lib c umusers ed).1 = .success ↔
      ed.pubKey ≠ none ∧ ed.validNew = true ∧ ed.sql.Ok ∧
      ∃ users u p r, ed.dbm = some users ∧ ed.username = some u ∧ ed.password = some p ∧
        users.find? (fun a => a.username = u) = some r ∧ 1 ≤ int32 r.id ∧
        ((0 < banOf umusers u ∧ banOf umusers u < ed.clk) ∨
          (banOf umusers u ≤ 0 ∧ Matches users u p)) := by
  rcases hu : ed.username with _ | u
  · simp [cbBasicAuth, hu]
  rcases hkey : ed.pubKey with _ | key
  · simp [cbBasicAuth, hu, hkey]
  rcases hnew : ed.validNew with _ | _
  · simp [cbBasicAuth, hu, hkey, hnew]
  obtain ⟨uauth, hauth, hlogin⟩ := jwtLogin_of_not_takes hu hkey hnew h
  have hne : uauth.auth ≠ 1 := by omega
  rw [cbBasicAuth_success_iff hu hkey hnew hlogin]
  rcases hdbm : ed.dbm with _ | users
  · simp [umdbMngrUauth, hne]
  rcases hp : ed.password with _ | p
  · simp [umdbMngrUauth, hne]
  have hknown := known_iff users ed.sql u p hauth
  have hright := @umdbMngrUauth_auth_iff (some users) ed.sql uauth (some u) (some p) hne
  simp only [Option.some.injEq, exists_and_left, exists_eq_left'] at hright ⊢
  constructor
  · rintro ⟨hcode, hid, hban⟩
    obtain ⟨hok, r, hfind, hr⟩ := hknown.mp ⟨hcode, hid⟩
    refine ⟨by simp, trivial, hok, r, hfind, hr, ?_⟩
    rcases hban with hexpired | ⟨hnone, hone⟩
    · exact Or.inl hexpired
    · exact Or.inr ⟨hnone, (hright.mp ⟨hcode, hone⟩).2⟩
  · rintro ⟨-, -, hok, r, hfind, hr, hban⟩
    obtain ⟨hcode, hid⟩ := hknown.mpr ⟨hok, r, hfind, hr⟩
    refine ⟨hcode, hid, ?_⟩
    rcases hban with hexpired | ⟨hnone, hm⟩
    · exact Or.inl hexpired
    · exact Or.inr ⟨hnone, (hright.mpr ⟨hok, hm⟩).2⟩

/-- Letting a client in is sound exactly when the call is neither the login after
an expired ban with a wrong password nor the login by a token whose expiry time
wraps. -/
theorem soundLogin_iff :
    SoundLogin cfg lib c umusers ed ↔
      ¬ ExpiredBanLogin cfg lib c umusers ed ∧ ¬ WrappedTokenLogin cfg lib c umusers ed := by
  by_cases htakes : ∃ claims, TakesToken cfg lib c ed claims
  · obtain ⟨claims, htakes⟩ := htakes
    have hnotban : ¬ ExpiredBanLogin cfg lib c umusers ed := fun hban => hban.1 claims htakes
    rw [SoundLogin, success_iff_of_takes htakes, and_iff_right hnotban]
    constructor
    · rintro hsound ⟨claims', htakes', hexpired, hid, hban, hpair⟩
      obtain rfl : claims = claims' := Option.some.inj (htakes.1.symm.trans htakes'.1)
      rcases hsound ⟨hid, hban⟩ with hpair' | ⟨claims', hclaims', hvalid⟩
      · exact hpair hpair'
      · obtain rfl : claims = claims' := Option.some.inj (htakes.1.symm.trans hclaims')
        omega
    · rintro hno ⟨hid, hban⟩
      by_contra hneither
      rw [not_or] at hneither
      refine hno ⟨claims, htakes, ?_, hid, hban, hneither.1⟩
      by_contra hlt
      exact hneither.2 ⟨claims, htakes.1, by omega⟩
  · have hnone : ∀ claims, ¬ TakesToken cfg lib c ed claims := fun claims h => htakes ⟨claims, h⟩
    have hnotwrap : ¬ WrappedTokenLogin cfg lib c umusers ed := fun ⟨claims, h, _⟩ => hnone claims h
    rw [SoundLogin, success_iff_of_not_takes hnone, and_iff_left hnotwrap]
    constructor
    · rintro hsound ⟨-, hvalid, hkey, hnew, hok, users, u, p, r, hdbm, hu, hp, hfind, hr, hm, hban⟩
      rcases hsound ⟨hkey, hnew, hok, users, u, p, r, hdbm, hu, hp, hfind, hr, Or.inl hban⟩ with
        ⟨users', u', p', hdbm', hu', hp', hm'⟩ | hvalid'
      · obtain rfl : users = users' := Option.some.inj (hdbm.symm.trans hdbm')
        obtain rfl : u = u' := Option.some.inj (hu.symm.trans hu')
        obtain rfl : p = p' := Option.some.inj (hp.symm.trans hp')
        exact hm hm'
      · exact hvalid hvalid'
    · rintro hno ⟨hkey, hnew, hok, users, u, p, r, hdbm, hu, hp, hfind, hr, hban⟩
      by_contra hneither
      rw [not_or] at hneither
      have hm : ¬ Matches users u p := fun hm => hneither.1 ⟨users, u, p, hdbm, hu, hp, hm⟩
      rcases hban with hban | ⟨-, hm'⟩
      · exact hno ⟨hnone, hneither.2, hkey, hnew, hok, users, u, p, r, hdbm, hu, hp, hfind, hr, hm,
          hban⟩
      · exact hm hm'

end Login

/-- Every login of a run is sound exactly when no call of it is a login after an
expired ban with a wrong password or by a token whose expiry time wraps. -/
theorem basic_auth_sound_iff (calls : List AuthCall) :
    Trace.Along (authStep cfg lib c) (fun s ed _ => SoundLogin cfg lib c s ed) [] calls ↔
      Trace.Along (authStep cfg lib c)
        (fun s ed _ => ¬ ExpiredBanLogin cfg lib c s ed ∧ ¬ WrappedTokenLogin cfg lib c s ed) []
        calls :=
  ⟨Trace.Along.mono fun _ _ _ h => soundLogin_iff.mp h,
    Trace.Along.mono fun _ _ _ h => soundLogin_iff.mpr h⟩

section ExpiredBan

/-- A login of the user `admin` by password at a second. -/
def adminLogin (password : String) (clk : Int) : AuthCall where
  username := some "admin"
  password := some password
  pubKey := some "key"
  validNew := true
  validNow := clk
  now := clk
  clk := clk
  dbm := some [⟨1, "admin", "password", 1⟩]
  sql := SqlCalls.success

/-- No user name is a token. -/
def noTokens : JwtLib Unit := ⟨fun _ _ => none, fun _ _ => false, fun _ => none⟩

/-- The default configuration of the plugin. -/
def defaultCfg : AuthCfg := ⟨3, 60, 300, 600⟩

def rejectJson : JsonC := ⟨fun _ => .null, fun _ => 0, fun _ => ""⟩

/-- Three wrong passwords ban the user; a wrong password after the end of the ban
is let in. -/
theorem expired_ban_lets_in :
    ∃ umusers,
      Trace.exec (authStep defaultCfg noTokens rejectJson) []
        [adminLogin "a" 1, adminLogin "b" 2, adminLogin "c" 3] = some umusers ∧
      (cbBasicAuth defaultCfg noTokens rejectJson umusers (adminLogin "d" 304)).1 = .success ∧
      ¬ ValidPair (adminLogin "d" 304) ∧
      ¬ ValidToken defaultCfg noTokens rejectJson (adminLogin "d" 304) := by
  refine ⟨_, rfl, by decide, ?_, ?_⟩
  · rintro ⟨users, u, p, hdbm, -, hp, r, hr, -, hpass⟩
    obtain rfl := Option.some.inj hdbm
    obtain rfl := Option.some.inj hp
    obtain rfl : r = ⟨1, "admin", "password", 1⟩ := by simpa using hr
    exact absurd hpass (by decide)
  · rintro ⟨claims, hclaims, -⟩
    cases hclaims

end ExpiredBan

end Umink.MosquittoAuth
