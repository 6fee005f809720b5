import Umink.Lua.CmdCall
import Umink.Mqtt.Loader

/-!
# Two ways to publish from a script

A script publishes a message with `M.mqtt.publish` or with the command `CMD_MQTT_PUBLISH`,
which takes the arguments as rows. Both look the connection up under its name; they check the
arguments and read the retain flag differently.

## Implementation notes

The library takes a message for a client that is not null; whether `MQTTAsync_sendMessage`
then succeeds is a parameter. A command reads through a null pointer where a row has no
column or a column has no value.
-/

namespace Umink.Mqtt

open Umink.Library Umink.Lua Umink.Mqtt.Loader

/-- A message that the library gets for the client of a connection, with QoS 1. -/
structure MqttMsg where
  entry : Nat
  topic : CStr
  payload : CStr
  retained : Bool
  deriving DecidableEq

/-- `mqtt_mngr_get_conn`: the names are compared as C strings. -/
def mqttMngrGetConn (conns : List ConnObj) (name : CStr) : Option ConnObj :=
  HashTable.find (fun conn : ConnObj => CStr.ofText conn.name) conns name

variable (accepts : MqttMsg → Bool) (conns : List ConnObj)

/-- `MQTTAsync_sendMessage`: whether it succeeds, and the message. -/
def asyncSendMessage (conn : ConnObj) (msg : MqttMsg) : Bool × List MqttMsg :=
  if conn.client then (accepts msg, [msg]) else (false, [])

/-- `mqtt_conn_pub`: the code and the message. -/
def mqttConnPub (conn : ConnObj) (d t : CStr) (retain : Bool) : Nat × List MqttMsg :=
  if !conn.client then (1, [])
  else
    let (ok, msgs) := asyncSendMessage accepts conn ⟨conn.entry, t, d, retain⟩
    (if !ok then 1 else 0, msgs)

/-- `mqtt_mngr_send` with set pointers: whether it succeeds, and the message. -/
def mqttMngrSend (conn : ConnObj) (t : CStr) (retain : Bool) (d : CStr) : Bool × List MqttMsg :=
  if !(d.length > 0) then (false, [])
  else asyncSendMessage accepts conn ⟨conn.entry, t, d, retain⟩

/-- The text that `lua_tostring` gives of a value for which `lua_isstring` holds. -/
def luaString : LuaValue → Option CStr
  | .str s => some s
  | .num text => some text
  | .bool _ | .other => none

/-- The retain flag of `mink_lua_mqtt_pub`: its fourth argument, if that is a boolean. -/
def pubRetain : List LuaValue → Bool
  | .bool b :: _ => b
  | _ => false

/-- `mink_lua_mqtt_pub`: the result in the script, and the message. -/
def minkLuaMqttPub : List LuaValue → Bool × List MqttMsg
  | a₁ :: a₂ :: a₃ :: rest =>
      let retain := pubRetain rest
      -- data types check (all strings)
      match luaString a₁, luaString a₂, luaString a₃ with
      | some c, some t, some d =>
          match mqttMngrGetConn conns c with
          | none => (false, [])
          | some conn => mqttMngrSend accepts conn t retain d
      | _, _, _ => (false, [])
  -- min 3 args: conn name, topic, data
  | _ => (false, [])

/-- The value of the first column of a row; none for a null pointer. -/
def firstValue (row : StddItems) : Option CStr := row.head?.bind StddItem.value

/-- `impl_mqtt_publish`: the message, unless the code reads through a null pointer. -/
def implMqttPublish : Stdd → Option (List MqttMsg)
  | row₀ :: row₁ :: row₂ :: rest =>
      -- sanity check (columns)
      if row₀.length < 1 then some []
      else do
        match mqttMngrGetConn conns (← firstValue row₀) with
        | none => return []
        | some conn =>
            -- check retain flag in input data
            let retain ←
              match rest with
              | [] => some false
              | row₃ :: _ => (firstValue row₃).map fun v => atoi v.text ≠ 0
            let d ← firstValue row₂
            let t ← firstValue row₁
            return (mqttConnPub accepts conn d t retain).2
  | _ => some []

/-- The message of a command call with the arguments. -/
def cmdPublish (args : List LuaValue) : Option (List MqttMsg) :=
  implMqttPublish accepts conns ((args.map cmdArg).foldl addArg (umplgStddInit none))

/-- The retain flag that the command reads of its further arguments. -/
def cmdRetain : List LuaValue → Bool
  | [] => false
  | a :: _ => atoi (cmdArg a).text ≠ 0

/-- The connection of a name has a client. -/
def Reaches (name : CStr) (conn : ConnObj) : Prop :=
  mqttMngrGetConn conns name = some conn ∧ conn.client = true

/-- The first three arguments are strings or numbers, the payload is not empty, and a further
argument that is no boolean is no number other than zero. -/
def SameForBoth : List LuaValue → Prop
  | a₁ :: a₂ :: a₃ :: rest =>
      (∃ c t d, luaString a₁ = some c ∧ luaString a₂ = some t ∧ luaString a₃ = some d ∧
        d.length > 0) ∧
      ∀ a text, rest.head? = some a → luaString a = some text → atoi text.text = 0
  | _ => True

section Publish

variable {accepts conns}

theorem cmdArg_of_luaString {a : LuaValue} {s : CStr} (h : luaString a = some s) :
    cmdArg a = s := by
  cases a with
  | str s' => exact Option.some.inj h
  | num text => exact Option.some.inj h
  | bool b => cases h
  | other => cases h

/-- The command with three arguments or more. -/
theorem cmdPublish_cons (a₁ a₂ a₃ : LuaValue) (rest : List LuaValue) :
    cmdPublish accepts conns (a₁ :: a₂ :: a₃ :: rest) =
      match mqttMngrGetConn conns (cmdArg a₁) with
      | none => some []
      | some conn =>
          some (mqttConnPub accepts conn (cmdArg a₃) (cmdArg a₂) (cmdRetain rest)).2 := by
  rw [cmdPublish, addArg_foldl, umplgStddInit, List.nil_append]
  cases hconn : mqttMngrGetConn conns (cmdArg a₁) with
  | none => simp [implMqttPublish, firstValue, hconn]
  | some conn =>
      cases rest with
      | nil => simp [implMqttPublish, firstValue, hconn, cmdRetain]
      | cons a rest => simp [implMqttPublish, firstValue, hconn, cmdRetain]

/-- The message of the command when the connection has a client. -/
theorem cmdPublish_of_reaches {a₁ : LuaValue} (a₂ a₃ : LuaValue) (rest : List LuaValue)
    {conn : ConnObj} (h : Reaches conns (cmdArg a₁) conn) :
    cmdPublish accepts conns (a₁ :: a₂ :: a₃ :: rest) =
      some [⟨conn.entry, cmdArg a₂, cmdArg a₃, cmdRetain rest⟩] := by
  obtain ⟨hfind, hclient⟩ := h
  simp only [cmdPublish_cons, hfind, mqttConnPub, asyncSendMessage, hclient, Bool.not_true,
    Bool.false_eq_true, if_false, if_true]

/-- Without a client the command sends nothing. -/
theorem cmdPublish_of_not_reaches {a₁ : LuaValue} (a₂ a₃ : LuaValue) (rest : List LuaValue)
    (h : ¬ ∃ conn, Reaches conns (cmdArg a₁) conn) :
    cmdPublish accepts conns (a₁ :: a₂ :: a₃ :: rest) = some [] := by
  rw [cmdPublish_cons]
  cases hfind : mqttMngrGetConn conns (cmdArg a₁) with
  | none => rfl
  | some conn =>
      cases hclient : conn.client with
      | true => exact absurd ⟨conn, hfind, hclient⟩ h
      | false => simp [mqttConnPub, hclient]

theorem cmdPublish_short {args : List LuaValue} (h : args.length < 3) :
    cmdPublish accepts conns args = some [] := by
  rw [cmdPublish, addArg_foldl, umplgStddInit, List.nil_append]
  obtain _ | ⟨a₁, _ | ⟨a₂, _ | ⟨a₃, rest⟩⟩⟩ := args
  · rfl
  · rfl
  · rfl
  · exact absurd h (by simp)

theorem cmdRetain_eq_iff (rest : List LuaValue) :
    cmdRetain rest = pubRetain rest ↔
      ∀ a text, rest.head? = some a → luaString a = some text → atoi text.text = 0 := by
  cases rest with
  | nil => exact iff_of_true rfl fun a text ha => by cases ha
  | cons a rest =>
      have hhead : ∀ b, (a :: rest).head? = some b → a = b := fun b => Option.some.inj
      cases a with
      | str s | num s =>
          constructor
          · intro h b text hb htext
            obtain rfl := hhead b hb
            obtain rfl := Option.some.inj htext
            exact not_not.mp (of_decide_eq_false h)
          · exact fun h => decide_eq_false (not_not.mpr (h _ s rfl rfl))
      | bool b =>
          refine iff_of_true (by cases b <;> rfl) fun a' text ha htext => ?_
          obtain rfl := hhead a' ha
          cases htext
      | other =>
          refine iff_of_true rfl fun a' text ha htext => ?_
          obtain rfl := hhead a' ha
          cases htext

/-- A call of `M.mqtt.publish` whose first arguments are strings or numbers. -/
theorem minkLuaMqttPub_of_strings {a₁ a₂ a₃ : LuaValue} (rest : List LuaValue) {n t d : CStr}
    (h₁ : luaString a₁ = some n) (h₂ : luaString a₂ = some t) (h₃ : luaString a₃ = some d) :
    minkLuaMqttPub accepts conns (a₁ :: a₂ :: a₃ :: rest) =
      match mqttMngrGetConn conns n with
      | none => (false, [])
      | some conn => mqttMngrSend accepts conn t (pubRetain rest) d := by
  simp only [minkLuaMqttPub, h₁, h₂, h₃]

/-- The other calls send nothing. -/
theorem minkLuaMqttPub_of_not_strings {a₁ a₂ a₃ : LuaValue} (rest : List LuaValue)
    (h : ¬ ∃ n t d, luaString a₁ = some n ∧ luaString a₂ = some t ∧ luaString a₃ = some d) :
    minkLuaMqttPub accepts conns (a₁ :: a₂ :: a₃ :: rest) = (false, []) := by
  simp only [minkLuaMqttPub]
  cases h₁ : luaString a₁ with
  | none => rfl
  | some n =>
      cases h₂ : luaString a₂ with
      | none => rfl
      | some t =>
          cases h₃ : luaString a₃ with
          | none => rfl
          | some d => exact absurd ⟨n, t, d, h₁, h₂, h₃⟩ h

/-- The message of `M.mqtt.publish` when the connection has a client. -/
theorem minkLuaMqttPub_of_reaches {a₁ a₂ a₃ : LuaValue} (rest : List LuaValue) {conn : ConnObj}
    (hconn : Reaches conns (cmdArg a₁) conn) :
    (minkLuaMqttPub accepts conns (a₁ :: a₂ :: a₃ :: rest)).2 =
        [⟨conn.entry, cmdArg a₂, cmdArg a₃, pubRetain rest⟩] ∧
      (∃ n t d, luaString a₁ = some n ∧ luaString a₂ = some t ∧ luaString a₃ = some d ∧
        d.length > 0) ∨
    (minkLuaMqttPub accepts conns (a₁ :: a₂ :: a₃ :: rest)).2 = [] ∧
      ¬ ∃ n t d, luaString a₁ = some n ∧ luaString a₂ = some t ∧ luaString a₃ = some d ∧
        d.length > 0 := by
  obtain ⟨hfind, hclient⟩ := hconn
  by_cases hstrings : ∃ n t d, luaString a₁ = some n ∧ luaString a₂ = some t ∧
      luaString a₃ = some d
  · obtain ⟨n, t, d, h₁, h₂, h₃⟩ := hstrings
    rw [cmdArg_of_luaString h₁] at hfind
    rw [minkLuaMqttPub_of_strings rest h₁ h₂ h₃, hfind, cmdArg_of_luaString h₂,
      cmdArg_of_luaString h₃]
    by_cases hd : d.length > 0
    · left
      have hgo : ¬ (!decide (d.length > 0)) = true := by simp [hd]
      simp only [mqttMngrSend, if_neg hgo, asyncSendMessage, hclient, if_true, true_and]
      exact ⟨n, t, d, h₁, h₂, h₃, hd⟩
    · right
      have hempty : (!decide (d.length > 0)) = true := by simp [hd]
      simp only [mqttMngrSend, if_pos hempty, true_and]
      rintro ⟨n', t', d', -, -, h₃', hd'⟩
      obtain rfl := Option.some.inj (h₃.symm.trans h₃')
      exact hd hd'
  · right
    rw [minkLuaMqttPub_of_not_strings rest hstrings]
    exact ⟨rfl, fun ⟨n, t, d, h₁, h₂, h₃, _⟩ => hstrings ⟨n, t, d, h₁, h₂, h₃⟩⟩

/-- Without a client `M.mqtt.publish` sends nothing. -/
theorem minkLuaMqttPub_of_not_reaches {a₁ : LuaValue} (a₂ a₃ : LuaValue) (rest : List LuaValue)
    (h : ¬ ∃ conn, Reaches conns (cmdArg a₁) conn) :
    (minkLuaMqttPub accepts conns (a₁ :: a₂ :: a₃ :: rest)).2 = [] := by
  by_cases hstrings : ∃ n t d, luaString a₁ = some n ∧ luaString a₂ = some t ∧
      luaString a₃ = some d
  · obtain ⟨n, t, d, h₁, h₂, h₃⟩ := hstrings
    rw [minkLuaMqttPub_of_strings rest h₁ h₂ h₃]
    rw [cmdArg_of_luaString h₁] at h
    cases hfind : mqttMngrGetConn conns n with
    | none => rfl
    | some conn =>
        cases hclient : conn.client with
        | true => exact absurd ⟨conn, hfind, hclient⟩ h
        | false =>
            have hnone : asyncSendMessage accepts conn ⟨conn.entry, t, d, pubRetain rest⟩ =
                (false, []) := if_neg (by simp [hclient])
            simp only [mqttMngrSend, hnone, ite_self]
  · rw [minkLuaMqttPub_of_not_strings rest hstrings]

/-- The script is told of a success exactly when the library took its message. -/
theorem minkLuaMqttPub_true_iff (args : List LuaValue) :
    (minkLuaMqttPub accepts conns args).1 = true ↔
      ∃ msg, (minkLuaMqttPub accepts conns args).2 = [msg] ∧ accepts msg = true := by
  have hnone : ∀ r : Bool × List MqttMsg, r = (false, []) →
      (r.1 = true ↔ ∃ msg, r.2 = [msg] ∧ accepts msg = true) := by
    rintro r rfl
    simp
  match args with
  | [] | [_] | [_, _] => exact hnone _ rfl
  | a₁ :: a₂ :: a₃ :: rest =>
      by_cases hstrings : ∃ n t d, luaString a₁ = some n ∧ luaString a₂ = some t ∧
          luaString a₃ = some d
      · obtain ⟨n, t, d, h₁, h₂, h₃⟩ := hstrings
        rw [minkLuaMqttPub_of_strings rest h₁ h₂ h₃]
        cases hconn : mqttMngrGetConn conns n with
        | none => exact hnone _ rfl
        | some conn =>
            simp only [mqttMngrSend, asyncSendMessage]
            split_ifs <;> simp
      · exact hnone _ (minkLuaMqttPub_of_not_strings rest hstrings)

end Publish

/-- A command call from a script never reads through a null pointer. It and `M.mqtt.publish`
with the same arguments send the same, exactly if they reach no client, or the arguments are
strings and numbers with a payload that is not empty and without a retain flag that is no
boolean. `M.mqtt.publish` tells the script whether the library took the message. -/
theorem publish_agree_iff (accepts : MqttMsg → Bool) (conns : List ConnObj)
    (args : List LuaValue) :
    (∃ msgs, cmdPublish accepts conns args = some msgs) ∧
    (cmdPublish accepts conns args = some (minkLuaMqttPub accepts conns args).2 ↔
      ∀ a conn, args.head? = some a → Reaches conns (cmdArg a) conn → SameForBoth args) ∧
    ((minkLuaMqttPub accepts conns args).1 = true ↔
      ∃ msg, (minkLuaMqttPub accepts conns args).2 = [msg] ∧ accepts msg = true) := by
  match args with
  | [] | [_] | [_, _] =>
      rw [cmdPublish_short (by simp)]
      exact ⟨⟨[], rfl⟩, iff_of_true rfl fun _ _ _ _ => trivial, minkLuaMqttPub_true_iff _⟩
  | a₁ :: a₂ :: a₃ :: rest =>
      refine ⟨?_, ?_, minkLuaMqttPub_true_iff _⟩
      · rw [cmdPublish_cons]
        split
        · exact ⟨_, rfl⟩
        · exact ⟨_, rfl⟩
      · by_cases hreach : ∃ conn, Reaches conns (cmdArg a₁) conn
        · obtain ⟨conn, hconn⟩ := hreach
          rw [cmdPublish_of_reaches a₂ a₃ rest hconn, Option.some.injEq]
          have hcond : (∀ a conn, (a₁ :: a₂ :: a₃ :: rest).head? = some a →
              Reaches conns (cmdArg a) conn → SameForBoth (a₁ :: a₂ :: a₃ :: rest)) ↔
              SameForBoth (a₁ :: a₂ :: a₃ :: rest) :=
            ⟨fun h => h a₁ conn rfl hconn, fun h _ _ _ _ => h⟩
          rw [hcond, SameForBoth]
          obtain ⟨hmsg, hstrings⟩ | ⟨hmsg, hstrings⟩ :=
            @minkLuaMqttPub_of_reaches accepts conns a₁ a₂ a₃ rest conn hconn
          · rw [hmsg, and_iff_right hstrings, ← cmdRetain_eq_iff]
            simp
          · rw [hmsg]
            exact iff_of_false (List.cons_ne_nil _ _) fun h => hstrings h.1
        · rw [cmdPublish_of_not_reaches a₂ a₃ rest hreach, minkLuaMqttPub_of_not_reaches a₂ a₃ rest
            hreach]
          refine iff_of_true rfl fun a conn ha hconn => ?_
          obtain rfl := Option.some.inj ha
          exact absurd ⟨conn, hconn⟩ hreach

end Umink.Mqtt
