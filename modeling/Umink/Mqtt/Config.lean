import Umink.Library.HashTable
import Umink.Library.JsonBytes

/-!
# Configuration of the MQTT connections

`process_cfg` reads the connections of the `plg_sysagent_mqtt.so` section one after
another, checks each, and adds it to the connection manager. Of the path for binary
uploads it checks only that it is a string.

## Implementation notes

Subscriptions are left out, and so are the queue and the thread of a connection. What
`mkdir` finds may change between two connections.
-/

namespace Umink.Mqtt

open Umink.Library

/-- What `mkdir` returns, and `errno` after it. -/
structure MkdirRes where
  ret : Int
  errno : Int
  deriving DecidableEq

/-- `EEXIST`. -/
def eexist : Int := 17

/-- The directory was created or is there already. -/
def MkdirRes.Taken (r : MkdirRes) : Prop := r.ret = 0 ∨ r.errno = eexist

instance (r : MkdirRes) : Decidable r.Taken := inferInstanceAs (Decidable (_ ∨ _))

/-- `mqtt_conn_d`. -/
structure MqttConnD where
  name : String
  sigQsz : Int
  binUplPath : CStr
  deriving DecidableEq

/-- The manager's connections, and the calls of `mqtt_conn_connect` with the place of
their objects in the configuration. -/
structure MngrState where
  conns : List MqttConnD
  connects : List (Nat × MqttConnD)

theorem tmpDir_noNul : 0 ∉ "/tmp".toList.map fun c => UInt8.ofNat c.toNat := by decide

/-- The path of a connection without a directory of its own. -/
def tmpDir : CStr := CStr.ascii "/tmp" tmpDir_noNul

variable (c : JsonC)

/-- The checks of one connection: its error code or zero. -/
def verifyConn (v : Json) : Nat :=
  if !v.isObj then 4
  else
    let jN := v.field "name"
    let jAddr := v.field "address"
    let jClid := v.field "client_id"
    let jUsr := v.field "username"
    let jPwd := v.field "password"
    let jPthQsz := v.field "proc_thread_qsize"
    let jBinPath := v.field "bin_upload_path"
    -- all values are mandatory
    if jN.isNull ∨ jAddr.isNull ∨ jClid.isNull ∨ jUsr.isNull ∨ jPwd.isNull then 5
    else if !(jN.isStr ∧ jAddr.isStr ∧ jClid.isStr ∧ jUsr.isStr ∧ jPwd.isStr) then 6
    else if !jPthQsz.isNull ∧ !jPthQsz.isInt then 6
    else if !jBinPath.isNull ∧ !jBinPath.isStr then 6
    else 0

/-- The `bin_upl_path` of a connection. -/
def connBinPath (mkdir : CStr → MkdirRes) (jBinPath : Json) : CStr :=
  if jBinPath.isNull then tmpDir
  else
    let r := mkdir (c.cString jBinPath)
    if r.ret ≠ 0 ∧ r.errno ≠ eexist then tmpDir else c.cString jBinPath

/-- `mqtt_mngr_add_conn`: the new connection, and the connections with it. -/
def mqttMngrAddConn (conns : List MqttConnD) (mkdir : CStr → MkdirRes) (v : Json) :
    Option (MqttConnD × List MqttConnD) :=
  let jAddr := v.field "address"
  let jName := v.field "name"
  if jAddr.isNull ∨ jName.isNull then none
  -- label should not be present
  else if (HashTable.find MqttConnD.name conns (c.getString jName)).isSome then none
  else
    let conn : MqttConnD :=
      { name := c.getString jName
        sigQsz := max (c.getInt (v.field "proc_thread_qsize")) 256
        binUplPath := connBinPath c mkdir (v.field "bin_upload_path") }
    some (conn, HashTable.add conns conn)

/-- The loop over the connections, with the place of the first. -/
def processConns (mkdir : Nat → CStr → MkdirRes) :
    List Json → Nat → MngrState → Nat × MngrState
  | [], _, st => (0, st)
  | v :: vs, i, st =>
      let r := verifyConn v
      if r ≠ 0 then (r, st)
      else
        match mqttMngrAddConn c st.conns (mkdir i) v with
        | none => processConns mkdir vs (i + 1) st
        | some (conn, conns) =>
            processConns mkdir vs (i + 1) ⟨conns, st.connects ++ [(i, conn)]⟩

/-- The section of a configuration. -/
def plgCfg (cfg : Json) : Json := cfg.field "plg_sysagent_mqtt.so"

/-- The connections of a configuration. -/
def cfgConns (cfg : Json) : List Json := ((plgCfg cfg).field "connections").elems?.getD []

/-- `process_cfg`: the code and what was configured. -/
def processCfg (mkdir : Nat → CStr → MkdirRes) (cfg : Json) (conns : List MqttConnD) :
    Nat × MngrState :=
  if cfg.isNull then (1, ⟨conns, []⟩)
  else if !cfg.isObj then (2, ⟨conns, []⟩)
  else if (plgCfg cfg).isNull then (3, ⟨conns, []⟩)
  else processConns c mkdir (cfgConns cfg) 0 ⟨conns, []⟩

/-- `process_cfg` adds the connection `conn` from an object whose path is `s`, after
`mkdir` of that path. -/
def AcceptsPath (mkdir : Nat → CStr → MkdirRes) (cfg : Json) (conns : List MqttConnD)
    (conn : MqttConnD) (s : String) : Prop :=
  ∃ i v, (cfgConns cfg)[i]? = some v ∧ v.field "bin_upload_path" = .str s ∧
    (i, conn) ∈ (processCfg c mkdir cfg conns).2.connects ∧ (mkdir i (CStr.ofText s)).Taken

variable {c} {mkdir : Nat → CStr → MkdirRes} {conns : List MqttConnD} {conn : MqttConnD}

theorem mqttMngrAddConn_path {conns' : List MqttConnD} {mk : CStr → MkdirRes} {v : Json}
    (h : mqttMngrAddConn c conns mk v = some (conn, conns')) :
    conn.binUplPath = connBinPath c mk (v.field "bin_upload_path") := by
  unfold mqttMngrAddConn at h
  dsimp only at h
  split at h
  · cases h
  · split at h
    · cases h
    · obtain ⟨rfl, -⟩ := Prod.mk.inj (Option.some.inj h)
      rfl

/-- Each call of `mqtt_conn_connect` in the loop is for an object that passed the checks. -/
theorem processConns_connects {vs : List Json} {k i : Nat} {st : MngrState}
    (h : (i, conn) ∈ (processConns c mkdir vs k st).2.connects) :
    (i, conn) ∈ st.connects ∨
      ∃ n v, i = k + n ∧ vs[n]? = some v ∧ verifyConn v = 0 ∧
        conn.binUplPath = connBinPath c (mkdir i) (v.field "bin_upload_path") := by
  induction vs generalizing k st with
  | nil => exact Or.inl h
  | cons v vs ih =>
      rw [processConns] at h
      split at h
      · exact Or.inl h
      · next hok =>
          have hv : verifyConn v = 0 := not_not.mp hok
          split at h
          · obtain hst | ⟨n, v', hi, hn, hrest⟩ := ih h
            · exact Or.inl hst
            · exact Or.inr ⟨n + 1, v', by omega, hn, hrest⟩
          · next conn' conns' hadd =>
              obtain hst | ⟨n, v', hi, hn, hrest⟩ := ih h
              · obtain hst | hnew := List.mem_append.mp hst
                · exact Or.inl hst
                · obtain ⟨rfl, rfl⟩ := Prod.mk.inj (List.mem_singleton.mp hnew)
                  exact Or.inr ⟨0, v, rfl, rfl, hv, mqttMngrAddConn_path hadd⟩
              · exact Or.inr ⟨n + 1, v', by omega, hn, hrest⟩

theorem processCfg_connects {cfg : Json} {i : Nat}
    (h : (i, conn) ∈ (processCfg c mkdir cfg conns).2.connects) :
    ∃ v, (cfgConns cfg)[i]? = some v ∧ verifyConn v = 0 ∧
      conn.binUplPath = connBinPath c (mkdir i) (v.field "bin_upload_path") := by
  unfold processCfg at h
  repeat' split at h
  case isFalse.isFalse.isFalse =>
    obtain hnil | ⟨n, v, hi, hn, hv, hpath⟩ := processConns_connects h
    · cases hnil
    · obtain rfl : i = n := by omega
      exact ⟨v, hn, hv, hpath⟩
  all_goals cases h

/-- A path that is configured and passes the checks is a string. -/
theorem binPath_of_verifyConn {v : Json} (h : verifyConn v = 0) :
    v.field "bin_upload_path" = .null ∨ ∃ s, v.field "bin_upload_path" = .str s := by
  unfold verifyConn at h
  dsimp only at h
  repeat' split at h
  case isFalse.isFalse.isFalse.isFalse.isFalse hpath =>
    cases hfield : v.field "bin_upload_path" with
    | null => exact Or.inl rfl
    | str s => exact Or.inr ⟨s, rfl⟩
    | _ => simp [hfield, Json.isNull, Json.isStr] at hpath
  all_goals cases h

theorem connBinPath_str (mk : CStr → MkdirRes) (s : String) :
    connBinPath c mk (.str s) = if (mk (CStr.ofText s)).Taken then CStr.ofText s else tmpDir := by
  rw [connBinPath, JsonC.cString_str]
  by_cases h : (mk (CStr.ofText s)).Taken
  · have hdir : ¬ ((mk (CStr.ofText s)).ret ≠ 0 ∧ (mk (CStr.ofText s)).errno ≠ eexist) :=
      fun hno => h.elim hno.1 hno.2
    rw [if_pos h]
    exact if_neg hdir
  · rw [if_neg h]
    exact if_pos (not_or.mp h)

/-- The path of a connection is the string that `process_cfg` accepted for it, as far as a
C string goes. -/
theorem AcceptsPath.binUplPath {cfg : Json} {s : String}
    (h : AcceptsPath c mkdir cfg conns conn s) : conn.binUplPath = CStr.ofText s := by
  obtain ⟨i, v, hv, hstr, hmem, htaken⟩ := h
  obtain ⟨v', hv', -, hpath⟩ := processCfg_connects hmem
  obtain rfl : v = v' := Option.some.inj (hv.symm.trans hv')
  rw [hpath, hstr, connBinPath_str, if_pos htaken]

/-- A connection has a path that `process_cfg` accepted, or the default. -/
theorem binUplPath_cases {cfg : Json} {i : Nat}
    (h : (i, conn) ∈ (processCfg c mkdir cfg conns).2.connects) :
    conn.binUplPath = tmpDir ∨ ∃ s, AcceptsPath c mkdir cfg conns conn s := by
  obtain ⟨v, hv, hok, hpath⟩ := processCfg_connects h
  obtain hnull | ⟨s, hstr⟩ := binPath_of_verifyConn hok
  · exact Or.inl (by rw [hpath, hnull]; rfl)
  · by_cases htaken : (mkdir i (CStr.ofText s)).Taken
    · exact Or.inr ⟨s, i, v, hv, hstr, h, htaken⟩
    · exact Or.inl (by rw [hpath, hstr, connBinPath_str, if_neg htaken])

end Umink.Mqtt
