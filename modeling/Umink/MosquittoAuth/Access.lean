import Umink.Library.LastEvent
import Umink.MosquittoAuth.Lockout
import Umink.MosquittoAuth.PayloadMod

/-!
# Access of the clients

A client that is let in keeps the name of its login until it disconnects. Each access and
each published message is checked with this name against the user table of the moment.

## Implementation notes

The broker asks a plugin about a client when it connects, and the client exists until it
disconnects or is refused; `mosquitto_client_username` of any other client is a null pointer.
The two plugins check an access in the same way.
-/

namespace Umink.MosquittoAuth

open Umink.Library Umink.Umdb

/-- `strncmp(topic, "mink/admin/", 11)` finds the prefix. -/
def isAdminTopic (topic : String) : Bool := "mink/admin/".toList.isPrefixOf topic.toList

/-- The check of an access by the user of a client; `uauth` is what the automatic variable
holds at its declaration. -/
def aclCheck (dbm : Dbm) (sql : SqlCalls) (uauth : UmdbUauth) (topic : String)
    (username : Option String) : MosqErr :=
  -- anonymous not allowed
  if username.isNone then .auth
  else
    let (r, uauth) := umdbMngrUget dbm sql uauth username
    if r = 0 then
      -- not found
      if uauth.id < 1 then .auth
      -- "admin" topic requested, check user flags
      else if isAdminTopic topic ∧ uauth.flags ≠ 1 then .auth
      else .success
    else .auth

/-- `mosquitto_auth_acl_check` of the version 4 plugin. -/
def mosquittoAuthAclCheck : Dbm → SqlCalls → UmdbUauth → String → Option String → MosqErr :=
  aclCheck

/-- `cb_acl_check` of the version 5 plugin. -/
def cbAclCheck : Dbm → SqlCalls → UmdbUauth → String → Option String → MosqErr := aclCheck

/-- Every call of `umdb_mngr_uget` into SQLite succeeds. -/
def GetOk (sql : SqlCalls) : Prop :=
  sql.prepare ∧ sql.bind 1 ∧ sql.clearBindings ∧ sql.reset ∧ sql.finalize

/-- The table has the user, with the flags of an administrator for an admin topic. -/
def MayAccess (dbm : Dbm) (sql : SqlCalls) (topic u : String) : Prop :=
  GetOk sql ∧ ∃ users r, dbm = some users ∧
    users.find? (fun a => a.username = u) = some r ∧ 1 ≤ int32 r.id ∧
    (isAdminTopic topic → int32 r.flags = 1)

section AclCheck

variable {dbm : Dbm} {sql : SqlCalls} {uauth : UmdbUauth} {topic u : String}

theorem umdbMngrUget_zero_iff {username : Option String} :
    (umdbMngrUget dbm sql uauth username).1 = 0 ↔
      GetOk sql ∧ dbm ≠ none ∧ username ≠ none := by
  rcases dbm with _ | users
  · simp [umdbMngrUget]
  rcases username with _ | u
  · simp [umdbMngrUget]
  simp only [umdbMngrUget, GetOk]
  split_ifs <;> simp_all

/-- The check lets exactly the users pass that the table has. -/
theorem aclCheck_success_iff :
    aclCheck dbm sql uauth topic (some u) = .success ↔ MayAccess dbm sql topic u := by
  by_cases hget : (umdbMngrUget dbm sql uauth (some u)).1 = 0
  · obtain ⟨users, rfl, hres⟩ := umdbMngrUget_of_zero hget
    have hok := (umdbMngrUget_zero_iff.mp hget).1
    simp only [aclCheck, hres, MayAccess, hok, Option.isNone_some, Bool.false_eq_true, if_false,
      if_true, true_and, Option.some.injEq, exists_and_left, exists_eq_left', usrColumns,
      sqlUserGet]
    cases hfind : users.find? fun a => a.username = u with
    | none => simp
    | some r =>
        simp only [Option.map_some, Option.some.injEq, exists_eq_left']
        split_ifs with hid hadmin
        · exact iff_of_false (by simp) fun h => absurd h.1 (by omega)
        · exact iff_of_false (by simp) fun h => hadmin.2 (h.2 hadmin.1)
        · refine iff_of_true rfl ⟨by omega, fun htopic => ?_⟩
          by_contra hflags
          exact hadmin ⟨htopic, hflags⟩
  · refine iff_of_false ?_ ?_
    · simp [aclCheck, hget]
    · rintro ⟨hok, users, r, rfl, -⟩
      exact hget (umdbMngrUget_zero_iff.mpr ⟨hok, by simp, by simp⟩)

theorem aclCheck_none : aclCheck dbm sql uauth topic none = .auth := rfl

end AclCheck

/-- What the broker hears of its clients. -/
inductive ClientEvent (κ ℓ : Type*) where
  | connect (client : κ) (ed : ℓ)
  | disconnect (client : κ)

def ClientEvent.client {κ ℓ : Type*} : ClientEvent κ ℓ → κ
  | .connect client _ => client
  | .disconnect client => client

/-- The state of the plugin and the names of the clients. -/
structure Broker (σ κ : Type*) where
  plugin : σ
  /-- `mosquitto_client_username`. -/
  clientUsername : κ → Option String

section Sessions

variable {σ κ ℓ : Type*} [DecidableEq κ] (login : σ → ℓ → Option String × σ)

/-- A client takes the name of its login, or none when it is refused or leaves. -/
def Broker.step (b : Broker σ κ) : ClientEvent κ ℓ → Broker σ κ
  | .connect client ed =>
      ⟨(login b.plugin ed).2, Function.update b.clientUsername client (login b.plugin ed).1⟩
  | .disconnect client => ⟨b.plugin, Function.update b.clientUsername client none⟩

/-- The broker after a run, from a state of the plugin without clients. -/
def Broker.run (s : σ) (events : List (ClientEvent κ ℓ)) : Broker σ κ :=
  events.foldl (Broker.step login) ⟨s, fun _ => none⟩

/-- The last event of the client is its login `ed`, which found the plugin in the state `t`
and let the client in under the name `u`. -/
def Session (s : σ) (events : List (ClientEvent κ ℓ)) (client : κ) (t : σ) (ed : ℓ) (u : String) :
    Prop :=
  ∃ before after, LastEvent.Last (fun e => e.client = client) events before (.connect client ed)
      after ∧
    t = (Broker.run login s before).plugin ∧ (login t ed).1 = some u

variable {login}

theorem Broker.step_connect_self (b : Broker σ κ) (client : κ) (ed : ℓ) :
    (Broker.step login b (.connect client ed)).clientUsername client = (login b.plugin ed).1 :=
  Function.update_self ..

theorem Broker.step_disconnect_self (b : Broker σ κ) (client : κ) :
    (Broker.step login b (.disconnect client)).clientUsername client = none :=
  Function.update_self ..

/-- An event of another client leaves the name of the client as it is. -/
theorem Broker.step_other (client : κ) (b : Broker σ κ) (e : ClientEvent κ ℓ)
    (h : ¬ e.client = client) :
    (Broker.step login b e).clientUsername client = b.clientUsername client := by
  cases e with
  | connect other ed => exact Function.update_of_ne (Ne.symm h) ..
  | disconnect other => exact Function.update_of_ne (Ne.symm h) ..

/-- A client has the name of its session. -/
theorem clientUsername_eq_some_iff {s : σ} {events : List (ClientEvent κ ℓ)} {client : κ}
    {u : String} :
    (Broker.run login s events).clientUsername client = some u ↔
      ∃ t ed, Session login s events client t ed u := by
  have hlast := @LastEvent.view_foldl_eq_iff _ _ _ (fun e => e.client = client)
    (Broker.step login) (fun b => b.clientUsername client) (Broker.step_other client) events
    ⟨s, fun _ => none⟩ (some u)
  apply hlast.trans
  constructor
  · rintro (⟨-, hnone⟩ | ⟨before, e, after, hlast, hname⟩)
    · cases hnone
    · cases e with
      | connect other ed =>
          obtain rfl : other = client := hlast.meets
          rw [Broker.step_connect_self] at hname
          exact ⟨_, ed, before, after, hlast, rfl, hname⟩
      | disconnect other =>
          obtain rfl : other = client := hlast.meets
          rw [Broker.step_disconnect_self] at hname
          cases hname
  · rintro ⟨t, ed, before, after, hlast, rfl, hname⟩
    exact .inr ⟨before, .connect client ed, after, hlast,
      (Broker.step_connect_self _ client ed).trans hname⟩

/-- A check of a client passes exactly for a client with a session of a user who may access
the topic. -/
theorem aclCheck_iff_session {s : σ} {events : List (ClientEvent κ ℓ)} {client : κ} {dbm : Dbm}
    {sql : SqlCalls} {uauth : UmdbUauth} {topic : String} :
    aclCheck dbm sql uauth topic ((Broker.run login s events).clientUsername client) = .success ↔
      ∃ t ed u, Session login s events client t ed u ∧ MayAccess dbm sql topic u := by
  constructor
  · intro hcheck
    cases hname : (Broker.run login s events).clientUsername client with
    | none =>
        rw [hname, aclCheck_none] at hcheck
        cases hcheck
    | some u =>
        obtain ⟨t, ed, hsession⟩ := clientUsername_eq_some_iff.mp hname
        rw [hname] at hcheck
        exact ⟨t, ed, u, hsession, aclCheck_success_iff.mp hcheck⟩
  · rintro ⟨t, ed, u, hsession, hmay⟩
    rw [clientUsername_eq_some_iff.mpr ⟨t, ed, hsession⟩]
    exact aclCheck_success_iff.mpr hmay

end Sessions

section BasicAuth

variable {κ β : Type*} [DecidableEq κ] (cfg : AuthCfg) (lib : JwtLib β) (c : JsonC)

/-- A login with `cb_basic_auth`: a client that is let in has the name of the token that is
taken, or the one it gave. -/
def basicAuthLogin (umusers : List Umuser) (ed : AuthCall) : Option String × List Umuser :=
  let (res, umusers) := cbBasicAuth cfg lib c umusers ed
  (if res = .success then attemptUser cfg lib c ed else none, umusers)

/-- The login shows a password of the user, or a token of it that has not expired. -/
def Presents (ed : AuthCall) (u : String) : Prop :=
  (∃ users p, ed.dbm = some users ∧ ed.username = some u ∧ ed.password = some p ∧
    Matches users u p) ∨
  ∃ claims, tokenClaims lib c ed = some claims ∧ claims.usr = u ∧
    ed.now < claims.iat + cfg.jwtExp

/-- The login comes after the end of a ban of the user. -/
def AfterBan (umusers : List Umuser) (ed : AuthCall) (u : String) : Prop :=
  0 < banOf umusers u ∧ banOf umusers u < ed.clk

/-- The login shows an expired token of the user whose expiry time wraps. -/
def WrappedExpiry (ed : AuthCall) (u : String) : Prop :=
  ∃ claims, TakesToken cfg lib c ed claims ∧ claims.usr = u ∧ claims.iat + cfg.jwtExp ≤ ed.now

section Login

variable {cfg lib c} {umusers : List Umuser} {ed : AuthCall} {u : String}

/-- What a login that gives a name showed. -/
theorem presents_of_basicAuthLogin (h : (basicAuthLogin cfg lib c umusers ed).1 = some u) :
    Presents cfg lib c ed u ∨ AfterBan umusers ed u ∨ WrappedExpiry cfg lib c ed u := by
  obtain ⟨hsuccess, hname⟩ : (cbBasicAuth cfg lib c umusers ed).1 = .success ∧
      attemptUser cfg lib c ed = some u := Option.ite_none_right_eq_some.mp h
  by_cases htakes : ∃ claims, TakesToken cfg lib c ed claims
  · obtain ⟨claims, htakes⟩ := htakes
    obtain ⟨username, key, hu, hkey, hnew⟩ := tokenClaims_eq_some htakes.1
    have husr : claims.usr = u := by
      have hlogin := jwtLogin_of_takes hu hkey hnew htakes
      simpa only [attemptUser, hu, hkey, hnew, hlogin, Option.some.injEq] using hname
    by_cases hexpired : claims.iat + cfg.jwtExp ≤ ed.now
    · exact .inr (.inr ⟨claims, htakes, husr, hexpired⟩)
    · exact .inl (.inr ⟨claims, htakes.1, husr, Int.not_le.mp hexpired⟩)
  · have hnone : ∀ claims, ¬ TakesToken cfg lib c ed claims := fun claims h => htakes ⟨claims, h⟩
    obtain ⟨hkey, hnew, -, users, u', p, r, hdbm, hu, hp, -, -, hban⟩ :=
      (success_iff_of_not_takes hnone).mp hsuccess
    obtain ⟨key, hkey⟩ := Option.ne_none_iff_exists'.mp hkey
    obtain rfl : u' = u := by
      obtain ⟨uauth, -, hlogin⟩ := jwtLogin_of_not_takes hu hkey hnew hnone
      simpa only [attemptUser, hu, hkey, hnew, hlogin, Option.some.injEq] using hname
    obtain hban | ⟨-, hmatch⟩ := hban
    · exact .inr (.inl hban)
    · exact .inl (.inl ⟨users, p, hdbm, hu, hp, hmatch⟩)

end Login

variable (tokenerParse : List UInt8 → Json) (toJsonString : Json → Option (List UInt8))

/-- How a payload goes on: as it is where it is no JSON text, without a header where its own header
asks to be left out, and with the header of the user otherwise. -/
def Identified (users : List UserRow) (u : String) (payload payload' : List UInt8) : Prop :=
  let j := tokenerParse (cString payload)
  if j.isNull then payload' = payload
  else if skipHeader ((j.field "mink_usr").field "skip") then
    toJsonString (unheaded j) = some payload'
  else
    toJsonString (.obj [("mink_usr", usrHeader users u), ("mink_pld", unheaded j)]) = some payload'

theorem identified_iff {users : List UserRow} {u : String} {payload payload' : List UInt8} :
    Identified tokenerParse toJsonString users u payload payload' ↔
      if (tokenerParse (cString payload)).isNull then payload' = payload
      else
        toJsonString (newPayload (usrHeader users u) (tokenerParse (cString payload))) =
          some payload' := by
  rw [Identified, newPayload_eq]
  split_ifs <;> rfl

theorem identified_of_success {dbm : Dbm} {sql : SqlCalls} {uauth : UmdbUauth} {topic u : String}
    {payload : List UInt8} (htopic : isMinkTopic topic = true)
    (h : (cbPldMod tokenerParse toJsonString dbm sql uauth topic (some u) payload).1 = .success) :
    ∃ users, dbm = some users ∧ Identified tokenerParse toJsonString users u payload
      (cbPldMod tokenerParse toJsonString dbm sql uauth topic (some u) payload).2 := by
  by_cases hget : (umdbMngrUget dbm sql uauth (some u)).1 = 0
  · obtain ⟨users, rfl, -⟩ := umdbMngrUget_of_zero hget
    refine ⟨users, rfl, ?_⟩
    rw [cbPldMod_of_uget htopic hget] at h ⊢
    rw [identified_iff]
    split_ifs with hnull
    · rfl
    · rw [if_neg hnull] at h
      cases hprint : toJsonString
          (newPayload (usrHeader users u) (tokenerParse (cString payload))) with
      | none => simp [hprint] at h
      | some npld => rfl
  · simp [cbPldMod, htopic, hget] at h

/-- In every run of logins and disconnects an access is allowed exactly to a client that is
still logged in, as a user whom the table has at that moment, with the flags of an
administrator for an admin topic; the login showed a password or a token of this user, unless
it came after a ban or with a wrapped expiry time. A message of the client on a `mink/` topic goes
on with the header of this user, unless it is no JSON text for the tokener, and goes on as it is, or
has a header of its own that asks for none. -/
theorem access_mediated (umusers : List Umuser) (events : List (ClientEvent κ AuthCall))
    (client : κ) :
    (∀ dbm sql uauth topic,
      cbAclCheck dbm sql uauth topic
          ((Broker.run (basicAuthLogin cfg lib c) umusers events).clientUsername client) =
        .success ↔
      ∃ t ed u, Session (basicAuthLogin cfg lib c) umusers events client t ed u ∧
        MayAccess dbm sql topic u) ∧
    (∀ t ed u, Session (basicAuthLogin cfg lib c) umusers events client t ed u →
      Presents cfg lib c ed u ∨ AfterBan t ed u ∨ WrappedExpiry cfg lib c ed u) ∧
    ∀ dbm sql uauth topic payload payload', isMinkTopic topic = true →
      cbPldMod tokenerParse toJsonString dbm sql uauth topic
          ((Broker.run (basicAuthLogin cfg lib c) umusers events).clientUsername client) payload =
        (.success, payload') →
      ∃ t ed u users, Session (basicAuthLogin cfg lib c) umusers events client t ed u ∧
        dbm = some users ∧ Identified tokenerParse toJsonString users u payload payload' := by
  refine ⟨fun dbm sql uauth topic => aclCheck_iff_session, ?_, ?_⟩
  · rintro t ed u ⟨before, after, -, -, hname⟩
    exact presents_of_basicAuthLogin hname
  · intro dbm sql uauth topic payload payload' htopic hres
    cases hname : (Broker.run (basicAuthLogin cfg lib c) umusers events).clientUsername client with
    | none =>
        rw [hname] at hres
        cases dbm <;> simp [cbPldMod, htopic, umdbMngrUget] at hres
    | some u =>
        obtain ⟨t, ed, hsession⟩ := clientUsername_eq_some_iff.mp hname
        rw [hname] at hres
        obtain ⟨users, hdbm, hidentified⟩ := identified_of_success tokenerParse toJsonString htopic
          (congrArg Prod.fst hres)
        rw [hres] at hidentified
        exact ⟨t, ed, u, users, hsession, hdbm, hidentified⟩

end BasicAuth

section Unpwd

variable {κ : Type*} [DecidableEq κ]

/-- A call of `mosquitto_auth_unpwd_check`, with what its variable holds. -/
structure UnpwdCall where
  dbm : Dbm
  sql : SqlCalls
  uauth : UmdbUauth
  username : Option String
  password : Option String

/-- A login with `mosquitto_auth_unpwd_check`, which keeps no state. -/
def unpwdLogin (_ : Unit) (ed : UnpwdCall) : Option String × Unit :=
  (if mosquittoAuthUnpwdCheck ed.dbm ed.sql ed.uauth ed.username ed.password = .success then
    ed.username else none, ())

/-- With the version 4 plugin an access is allowed exactly to a client that is still logged in as a
user whom the table has at that moment; and a client that is logged in showed the password of this
user, unless the variable of the login held an authenticated descriptor. -/
theorem access_mediated_unpwd (events : List (ClientEvent κ UnpwdCall)) (client : κ) :
    (∀ dbm sql uauth topic,
      mosquittoAuthAclCheck dbm sql uauth topic
          ((Broker.run unpwdLogin () events).clientUsername client) = .success ↔
      ∃ t ed u, Session unpwdLogin () events client t ed u ∧ MayAccess dbm sql topic u) ∧
    ∀ t ed u, Session unpwdLogin () events client t ed u →
      ed.username = some u ∧
        (ed.uauth.auth = 1 ∨ RightLogin ed.dbm ed.sql ed.username ed.password) := by
  refine ⟨fun dbm sql uauth topic => aclCheck_iff_session, ?_⟩
  rintro t ed u ⟨before, after, -, -, hname⟩
  obtain ⟨hsuccess, hu⟩ := Option.ite_none_right_eq_some.mp hname
  refine ⟨hu, ?_⟩
  by_cases hauth : ed.uauth.auth = 1
  · exact .inl hauth
  · exact .inr ((unpwdCheck_of_auth_ne hauth).mp hsuccess)

end Unpwd

end Umink.MosquittoAuth
