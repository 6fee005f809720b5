import Mathlib.Data.List.Induction
import Umink.Library.CTypes
import Umink.MosquittoAuth.BasicAuth

/-!
# The broker loads the plugin

`mosquitto_plugin_init` reads the options, opens the data base and registers the callbacks.
`mosquitto_plugin_cleanup` undoes that only if all of it succeeded.

## Implementation notes

The keys of the options are compared by `strncmp`, most of them up to the length of the name.
-/

namespace Umink.MosquittoAuth

open Umink.Library

/-- `struct mosquitto_opt`. -/
structure MosquittoOpt where
  key : String
  value : String

inductive MosqEvt where
  | basicAuth
  | aclCheck
  | message
  deriving DecidableEq

/-- The result of `mosquitto_plugin_init`: `MOSQ_ERR_AUTH`, or what a registration returned. -/
inductive InitRes where
  | success
  | auth
  | register (rc : Int)
  deriving DecidableEq

/-- The variables of the plugin that the options set. -/
structure PluginOpts where
  dbName : Option String
  cfg : AuthCfg
  jwtPublicKey : Option String
  jwtPrivateKey : Option String

/-- The plugin and the callbacks that the broker calls. -/
structure PluginState where
  opts : PluginOpts
  dbm : Bool
  mosqPid : Bool
  umusers : List Umuser
  callbacks : List MosqEvt

namespace PluginOpts

/-- The initializers. -/
def start : PluginOpts := ⟨none, ⟨3, 60, 300, 600⟩, none, none⟩

end PluginOpts

namespace PluginState

def start : PluginState := ⟨.start, false, false, [], []⟩

end PluginState

/-- `strncmp` returns 0. -/
def strncmpEq (a b : String) (n : Nat) : Bool :=
  (a.toList ++ ['\x00']).take n = (b.toList ++ ['\x00']).take n

/-- The processing of one option. -/
def processOpt (s : PluginOpts) (opt : MosquittoOpt) : PluginOpts :=
  -- mink db
  if strncmpEq opt.key "db_name" 7 then { s with dbName := some opt.value }
  -- max failed login attempts
  else if strncmpEq opt.key "max_failed_logins" 17 then
    { s with cfg := { s.cfg with maxFailedNr := UInt32.ofInt (atoi opt.value) } }
  -- failed login check time span
  else if strncmpEq opt.key "failed_login_time_span" 22 then
    { s with cfg := { s.cfg with failedTimeSpan := UInt32.ofInt (atoi opt.value) } }
  -- user ban duration
  else if strncmpEq opt.key "failed_login_ban_duration" 26 then
    { s with cfg := { s.cfg with banDuration := UInt32.ofInt (atoi opt.value) } }
  -- jwt public key
  else if strncmpEq opt.key "jwt_public_key" 14 then { s with jwtPublicKey := some opt.value }
  -- jwt private key
  else if strncmpEq opt.key "jwt_private_key" 15 then { s with jwtPrivateKey := some opt.value }
  -- jwt expiration
  else if strncmpEq opt.key "jwt_expiration" 14 then
    { s with cfg := { s.cfg with jwtExp := atoi opt.value } }
  else s

/-- The registrations, up to the first that fails. -/
def registerAll (register : MosqEvt → Int) (s : PluginState) :
    List MosqEvt → InitRes × PluginState
  | [] => (.success, { s with mosqPid := true })
  | e :: es =>
      if register e ≠ 0 then (.register (register e), s)
      else registerAll register { s with callbacks := s.callbacks ++ [e] } es

/-- `mosquitto_plugin_init`; `opens` tells whether `umdb_mngr_new` connects. -/
def mosquittoPluginInit (opens : String → Bool) (register : MosqEvt → Int) (s : PluginState)
    (opts : List MosquittoOpt) : InitRes × PluginState :=
  -- process options
  let s := { s with opts := opts.foldl processOpt s.opts }
  match s.opts.dbName with
  -- missing db options
  | none => (.auth, s)
  | some db =>
      if !opens db then (.auth, { s with dbm := false })
      else registerAll register { s with dbm := true } [.basicAuth, .aclCheck, .message]

/-- `mosquitto_plugin_cleanup`. -/
def mosquittoPluginCleanup (s : PluginState) : PluginState :=
  if s.mosqPid then
    { s with
      callbacks := ((s.callbacks.erase .basicAuth).erase .aclCheck).erase .message
      dbm := false
      umusers := [] }
  else s

/-- The options that the plugin knows. -/
inductive OptName where
  | dbName
  | maxFailedLogins
  | failedLoginTimeSpan
  | failedLoginBanDuration
  | jwtPublicKey
  | jwtPrivateKey
  | jwtExpiration
  deriving DecidableEq

namespace OptName

/-- The name and the number of characters that are compared. -/
def name : OptName → String × Nat
  | dbName => ("db_name", 7)
  | maxFailedLogins => ("max_failed_logins", 17)
  | failedLoginTimeSpan => ("failed_login_time_span", 22)
  | failedLoginBanDuration => ("failed_login_ban_duration", 26)
  | jwtPublicKey => ("jwt_public_key", 14)
  | jwtPrivateKey => ("jwt_private_key", 15)
  | jwtExpiration => ("jwt_expiration", 14)

/-- The key is taken for the option. -/
def Takes (o : OptName) (key : String) : Bool := strncmpEq key o.name.1 o.name.2

/-- The value of the last option of the name. -/
def last (o : OptName) (opts : List MosquittoOpt) : Option String :=
  ((opts.filter fun opt => o.Takes opt.key).getLast?).map MosquittoOpt.value

/-- The characters that are compared. -/
def compared (o : OptName) : List Char := (o.name.1.toList ++ ['\x00']).take o.name.2

theorem takes_iff {o : OptName} {key : String} :
    o.Takes key = true ↔ (key.toList ++ ['\x00']).take o.name.2 = o.compared :=
  decide_eq_true_iff

/-- No key is taken for two options. -/
theorem eq_of_takes {o o' : OptName} {key : String} (h : o.Takes key = true)
    (h' : o'.Takes key = true) : o = o' := by
  have hsame : o.compared.take o'.name.2 = o'.compared.take o.name.2 := by
    rw [← takes_iff.mp h, ← takes_iff.mp h', List.take_take, List.take_take, min_comm]
  cases o <;> cases o' <;> first | rfl | exact absurd hsame (by decide)

theorem last_concat (o : OptName) (opts : List MosquittoOpt) (opt : MosquittoOpt) :
    o.last (opts ++ [opt]) =
      (if o.Takes opt.key then some opt.value else none).or (o.last opts) := by
  split_ifs with htakes <;> simp [last, List.filter_append, htakes]

end OptName

section Options

variable {s : PluginOpts} {opt : MosquittoOpt}

/-- The value of a number. -/
def uintOf (value : String) : UInt32 := UInt32.ofInt (atoi value)

/-- What the options set, each of them by the last option of its name. -/
def PluginOpts.set (s : PluginOpts) (last : OptName → Option String) : PluginOpts where
  dbName := (last .dbName).or s.dbName
  cfg :=
    { maxFailedNr := ((last .maxFailedLogins).map uintOf).getD s.cfg.maxFailedNr
      failedTimeSpan := ((last .failedLoginTimeSpan).map uintOf).getD s.cfg.failedTimeSpan
      banDuration := ((last .failedLoginBanDuration).map uintOf).getD s.cfg.banDuration
      jwtExp := ((last .jwtExpiration).map atoi).getD s.cfg.jwtExp }
  jwtPublicKey := (last .jwtPublicKey).or s.jwtPublicKey
  jwtPrivateKey := (last .jwtPrivateKey).or s.jwtPrivateKey

/-- The processing of an option in the words of its names. -/
theorem processOpt_takes (s : PluginOpts) (opt : MosquittoOpt) :
    processOpt s opt =
      if OptName.dbName.Takes opt.key then { s with dbName := some opt.value }
      else if OptName.maxFailedLogins.Takes opt.key then
        { s with cfg := { s.cfg with maxFailedNr := uintOf opt.value } }
      else if OptName.failedLoginTimeSpan.Takes opt.key then
        { s with cfg := { s.cfg with failedTimeSpan := uintOf opt.value } }
      else if OptName.failedLoginBanDuration.Takes opt.key then
        { s with cfg := { s.cfg with banDuration := uintOf opt.value } }
      else if OptName.jwtPublicKey.Takes opt.key then { s with jwtPublicKey := some opt.value }
      else if OptName.jwtPrivateKey.Takes opt.key then { s with jwtPrivateKey := some opt.value }
      else if OptName.jwtExpiration.Takes opt.key then
        { s with cfg := { s.cfg with jwtExp := atoi opt.value } }
      else s :=
  rfl

theorem processOpt_eq (s : PluginOpts) (opt : MosquittoOpt) :
    processOpt s opt = s.set fun o => if o.Takes opt.key then some opt.value else none := by
  rw [processOpt_takes]
  by_cases htaken : ∃ o : OptName, o.Takes opt.key = true
  · obtain ⟨o, ho⟩ := htaken
    have htakes : ∀ o' : OptName, o'.Takes opt.key = decide (o' = o) := fun o' => by
      rw [Bool.eq_iff_iff, decide_eq_true_eq]
      exact ⟨fun ho' => OptName.eq_of_takes ho' ho, fun heq => heq ▸ ho⟩
    simp only [htakes]
    cases o <;> rfl
  · have htakes : ∀ o : OptName, o.Takes opt.key = false := fun o =>
      Bool.eq_false_iff.mpr fun ho => htaken ⟨o, ho⟩
    simp only [htakes]
    rfl

/-- What is set last stays. -/
theorem PluginOpts.set_set (s : PluginOpts) (last last' : OptName → Option String) :
    (s.set last).set last' = s.set fun o => (last' o).or (last o) := by
  have hnumber : ∀ {α : Type} (f : String → α) (a b : Option String) (d : α),
      (a.map f).getD ((b.map f).getD d) = ((a.or b).map f).getD d := fun f a b d => by
    cases a <;> rfl
  simp only [PluginOpts.set, hnumber, Option.or_assoc]

/-- The options after all are processed. -/
theorem foldl_processOpt (s : PluginOpts) (opts : List MosquittoOpt) :
    opts.foldl processOpt s = s.set fun o => o.last opts := by
  induction opts using List.reverseRecOn with
  | nil => rfl
  | append_singleton opts opt ih =>
      rw [List.foldl_append, List.foldl_cons, List.foldl_nil, ih, processOpt_eq,
        PluginOpts.set_set]
      simp only [OptName.last_concat]

end Options

section Registrations

variable {register : MosqEvt → Int}

/-- The callbacks before the first that is refused are registered, and the plugin knows its id
only if none is. -/
theorem registerAll_eq (s : PluginState) (es : List MosqEvt) :
    (registerAll register s es).2 =
      { s with
        callbacks := s.callbacks ++ es.takeWhile fun e => register e = 0
        mosqPid := if ∀ e ∈ es, register e = 0 then true else s.mosqPid } ∧
    ((registerAll register s es).1 = .success ↔ ∀ e ∈ es, register e = 0) := by
  induction es generalizing s with
  | nil => simp [registerAll]
  | cons e es ih =>
      by_cases he : register e = 0
      · obtain ⟨hstate, hcode⟩ := ih { s with callbacks := s.callbacks ++ [e] }
        rw [registerAll, if_neg (not_not.mpr he)]
        refine ⟨?_, ?_⟩
        · rw [hstate]
          simp [he]
        · rw [hcode]
          simp [he]
      · rw [registerAll, if_pos he]
        refine ⟨?_, ?_⟩
        · simp [he]
        · simp [he]

end Registrations

/-- A data base is named and can be opened. -/
def Opened (opens : String → Bool) (opts : List MosquittoOpt) : Prop :=
  ∃ db ∈ OptName.dbName.last opts, opens db = true

section Init

variable {opens : String → Bool} {register : MosqEvt → Int} {opts : List MosquittoOpt}

/-- The events of the plugin in the order of their registrations. -/
def MosqEvt.order : List MosqEvt := [.basicAuth, .aclCheck, .message]

theorem MosqEvt.mem_order (e : MosqEvt) : e ∈ order := by
  cases e <;> decide

theorem mosquittoPluginInit_of_not_opened (h : ¬ Opened opens opts) :
    mosquittoPluginInit opens register .start opts =
      (.auth, { PluginState.start with opts := PluginOpts.start.set fun o => o.last opts }) := by
  have hname : (PluginOpts.start.set fun o => o.last opts).dbName = OptName.dbName.last opts :=
    Option.or_none
  simp only [mosquittoPluginInit, PluginState.start, foldl_processOpt, hname]
  cases hlast : OptName.dbName.last opts with
  | none => rfl
  | some db =>
      have hclosed : opens db = false := Bool.eq_false_iff.mpr fun hopen => h ⟨db, hlast, hopen⟩
      simp [hclosed]

theorem mosquittoPluginInit_of_opened (h : Opened opens opts) :
    mosquittoPluginInit opens register .start opts =
      registerAll register { PluginState.start with
        opts := PluginOpts.start.set fun o => o.last opts
        dbm := true } MosqEvt.order := by
  obtain ⟨db, hlast, hopen⟩ := h
  have hname : (PluginOpts.start.set fun o => o.last opts).dbName = some db :=
    Option.or_none.trans hlast
  simp [mosquittoPluginInit, PluginState.start, foldl_processOpt, hname, hopen, MosqEvt.order]

end Init

/-- Every setting of the plugin is that of the last option whose key is taken for its name, or
its initializer. Loading succeeds exactly if a data base is named and opened and no registration
fails, and registers the callbacks up to the first that fails. Unloading removes the callbacks
and closes the data base exactly if loading succeeded or had opened none. -/
theorem plugin_init_cleanup (opens : String → Bool) (register : MosqEvt → Int)
    (opts : List MosquittoOpt) :
    let init := mosquittoPluginInit opens register .start opts
    init.2.opts = PluginOpts.start.set (fun o => o.last opts) ∧
    (init.1 = .success ↔ Opened opens opts ∧ ∀ e, register e = 0) ∧
    (Opened opens opts → init.2.callbacks = MosqEvt.order.takeWhile fun e => register e = 0) ∧
    ((mosquittoPluginCleanup init.2).callbacks = [] ∧ (mosquittoPluginCleanup init.2).dbm = false ↔
      init.1 = .success ∨ ¬ Opened opens opts) := by
  intro init
  have hinit : init = mosquittoPluginInit opens register .start opts := rfl
  clear_value init
  by_cases hopened : Opened opens opts
  · rw [mosquittoPluginInit_of_opened hopened] at hinit
    obtain ⟨hstate, hcode⟩ := @registerAll_eq register { PluginState.start with
      opts := PluginOpts.start.set fun o => o.last opts
      dbm := true } MosqEvt.order
    rw [← hinit] at hstate hcode
    have hall : (∀ e ∈ MosqEvt.order, register e = 0) ↔ ∀ e, register e = 0 :=
      ⟨fun h e => h e e.mem_order, fun h e _ => h e⟩
    rw [hall] at hcode
    refine ⟨congrArg PluginState.opts hstate, hcode.trans (and_iff_right hopened).symm,
      fun _ => congrArg PluginState.callbacks hstate, ?_⟩
    rw [or_iff_left (not_not.mpr hopened), hcode, hstate]
    by_cases hzero : ∀ e, register e = 0
    · have htake : (MosqEvt.order.takeWhile fun e => register e = 0) = MosqEvt.order := by
        simp [MosqEvt.order, hzero]
      rw [htake, if_pos fun e _ => hzero e]
      exact iff_of_true ⟨rfl, rfl⟩ hzero
    · rw [if_neg (hall.not.mpr hzero)]
      exact iff_of_false (fun h => Bool.noConfusion h.2) hzero
  · rw [mosquittoPluginInit_of_not_opened hopened] at hinit
    subst hinit
    exact ⟨rfl, iff_of_false nofun fun hno => hopened hno.1, fun hno => absurd hno hopened,
      iff_of_true ⟨rfl, rfl⟩ (.inr hopened)⟩

end Umink.MosquittoAuth
