import Umink.Library.FirstMatch
import Umink.Library.Trace
import Umink.Mqtt.Config

/-!
# The connections come up

`process_cfg` makes the connection objects one after another and connects each of them. The
MQTT library calls `mqtt_on_connect` on its own thread whenever a connection is established,
also while the loop still works on later entries. However the two meet, each call subscribes
to the topics of the entry.

## Implementation notes

The results of the library and of `mkdir` depend on the entry. The library establishes the
connections that `MQTTAsync_connect` accepted, any number of times, and none of the others. A
null `connections` value has no entries.
-/

namespace Umink.Mqtt.Loader

open Umink.Library

/-- A connection object, with the number of its entry in `connections`. -/
structure ConnObj extends MqttConnD where
  entry : Nat
  topics : List CStr
  /-- `client` is not null. -/
  client : Bool

/-- The key of the connection manager. -/
def ConnObj.key (conn : ConnObj) : String := conn.name

/-- Whether `MQTTAsync_create`, `MQTTAsync_setCallbacks` and `MQTTAsync_connect` succeed for
an entry. -/
structure AsyncRes where
  create : Bool
  setCallbacks : Bool
  connect : Bool

/-- The calls into the MQTT library for the object of an entry. -/
inductive AsyncCall where
  | create (entry : Nat) (addr clid : CStr)
  | setCallbacks (entry : Nat)
  | setConnected (entry : Nat)
  | connect (entry : Nat) (ka : Int) (usr pwd : CStr)
  | subscribe (entry : Nat) (t : CStr)

/-- Where `process_cfg` stands: before the entry `i`, at a topic of its new connection, before
`mqtt_conn_connect`, or at its end. -/
inductive LoadPc where
  | entries (i : Nat) (vs : List Json)
  | topics (i : Nat) (v : Json) (subs vs : List Json)
  | connect (i : Nat) (v : Json) (vs : List Json)
  | done (code : Nat)

/-- The connections of the manager, the entries whose connections the library establishes, and
the calls that it got. -/
structure Startup where
  pc : LoadPc
  conns : List ConnObj
  up : List Nat
  calls : List AsyncCall

/-- A step of `process_cfg`, or a call of `mqtt_on_connect` for the object of an entry. -/
inductive Act where
  | load
  | connected (i : Nat)

variable (c : JsonC) (mkdir : Nat → CStr → MkdirRes) (async : Nat → AsyncRes)

/-- The elements of `subscriptions`. -/
def subscriptions (v : Json) : List Json := (v.field "subscriptions").elems?.getD []

/-- A change of the object of an entry in place. -/
def modifyEntry (conns : List ConnObj) (i : Nat) (f : ConnObj → ConnObj) : List ConnObj :=
  conns.map fun conn => if conn.entry = i then f conn else conn

/-- `mqtt_conn_add_topic`. -/
def mqttConnAddTopic (t : CStr) (conn : ConnObj) : ConnObj :=
  { conn with topics := conn.topics ++ [t] }

/-- The keep-alive interval of `mqtt_conn_connect`. -/
def keepAlive (v : Json) : Int :=
  if (v.field "keep_alive").isInt then c.getInt (v.field "keep_alive") else 20

/-- `mqtt_conn_connect`: the code and the calls. -/
def mqttConnConnect (i : Nat) (v : Json) : Nat × List AsyncCall :=
  let calls := [.create i (c.cString (v.field "address")) (c.cString (v.field "client_id"))]
  if !(async i).create then (1, calls)
  else
    -- set callbacks (RX)
    let calls := calls ++ [.setCallbacks i]
    if !(async i).setCallbacks then (2, calls)
    else
      let calls := calls ++ [.setConnected i,
        .connect i (keepAlive c v) (c.cString (v.field "username"))
          (c.cString (v.field "password"))]
      if !(async i).connect then (3, calls) else (0, calls)

/-- `mqtt_conn_sub`: the calls. -/
def mqttConnSub (conn : ConnObj) (t : CStr) : List AsyncCall :=
  if conn.client then [.subscribe conn.entry t] else []

/-- `mqtt_on_connect`: the calls. -/
def mqttOnConnect (conn : ConnObj) : List AsyncCall := conn.topics.flatMap (mqttConnSub conn)

/-- The next step of `process_cfg`. -/
def loadStep (s : Startup) : Option Startup :=
  match s.pc with
  | .entries _ [] => some { s with pc := .done 0 }
  | .entries i (v :: vs) =>
      let r := verifyConn v
      if r ≠ 0 then some { s with pc := .done r }
      else
        match mqttMngrAddConn c (s.conns.map ConnObj.toMqttConnD) (mkdir i) v with
        | none => some { s with pc := .entries (i + 1) vs }
        | some (conn, _) =>
            some { s with
              pc := .topics i v (subscriptions v) vs
              conns := HashTable.add s.conns ⟨conn, i, [], false⟩ }
  | .topics i v [] vs => some { s with pc := .connect i v vs }
  | .topics i v (j :: subs) vs =>
      -- verify type
      if !j.isStr then some { s with pc := .topics i v subs vs }
      else
        some { s with
          pc := .topics i v subs vs
          conns := modifyEntry s.conns i (mqttConnAddTopic (c.cString j)) }
  | .connect i v vs =>
      let (r, calls) := mqttConnConnect c async i v
      some
        { pc := .entries (i + 1) vs
          conns := modifyEntry s.conns i fun conn => { conn with client := (async i).create }
          up := if r = 0 then s.up ++ [i] else s.up
          calls := s.calls ++ calls }
  | .done _ => none

/-- One step of the loop or of the library's thread. -/
def step (s : Startup) : Act → Option Startup
  | .load => loadStep c mkdir async s
  | .connected i =>
      if i ∈ s.up then
        (s.conns.find? fun conn => conn.entry = i).map fun conn =>
          { s with calls := s.calls ++ mqttOnConnect conn }
      else none

/-- `process_cfg` at the start of its loop, or at its end without one. -/
def start (cfg : Json) : Startup :=
  if cfg.isNull then ⟨.done 1, [], [], []⟩
  else if !cfg.isObj then ⟨.done 2, [], [], []⟩
  else if (plgCfg cfg).isNull then ⟨.done 3, [], [], []⟩
  else ⟨.entries 0 (cfgConns cfg), [], [], []⟩

/-- The topics of an entry. -/
def topics (v : Json) : List CStr := ((subscriptions v).filter Json.isStr).map c.cString

/-- The name of an entry. -/
def connName (v : Json) : String := c.getString (v.field "name")

/-- The object of an entry. -/
def entryObj (i : Nat) (v : Json) : ConnObj where
  name := connName c v
  sigQsz := max (c.getInt (v.field "proc_thread_qsize")) 256
  binUplPath := connBinPath c (mkdir i) (v.field "bin_upload_path")
  entry := i
  topics := topics c v
  client := (async i).create

/-- The entry is an object with the mandatory members, and all of its members are of the types
that they should be. -/
def WellFormed (v : Json) : Prop :=
  v.isObj ∧ (v.field "name").isStr ∧ (v.field "address").isStr ∧ (v.field "client_id").isStr ∧
    (v.field "username").isStr ∧ (v.field "password").isStr ∧
    ((v.field "proc_thread_qsize").isNull ∨ (v.field "proc_thread_qsize").isInt) ∧
    ((v.field "bin_upload_path").isNull ∨ (v.field "bin_upload_path").isStr)

instance : DecidablePred WellFormed := fun _ => inferInstanceAs (Decidable (_ ∧ _))

/-- The entries before the first malformed one. -/
def validConns (cfg : Json) : List Json := (cfgConns cfg).takeWhile fun v => WellFormed v

/-- The entry `i` is the first valid one with its name. -/
def Chosen (cfg : Json) (i : Nat) (v : Json) : Prop :=
  FirstAt (fun w => connName c w = connName c v) (validConns cfg) i v

/-- The calls that the object of an entry leads to. -/
inductive CallOf (i : Nat) (v : Json) : AsyncCall → Prop
  | create :
      CallOf i v (.create i (c.cString (v.field "address")) (c.cString (v.field "client_id")))
  | setCallbacks : CallOf i v (.setCallbacks i)
  | setConnected : CallOf i v (.setConnected i)
  | connect : CallOf i v
      (.connect i (keepAlive c v) (c.cString (v.field "username")) (c.cString (v.field "password")))
  | subscribe {t : CStr} (h : t ∈ topics c v) : CallOf i v (.subscribe i t)

/-- The section of the plugin is there. -/
def SectionValid (cfg : Json) : Prop := cfg.isObj ∧ !(plgCfg cfg).isNull

/-- The objects of entries in order. -/
def objs (vs : List Json) : List ConnObj := vs.zipIdx.map fun p => entryObj c mkdir async p.2 p.1

/-- The connections after some entries: the first object under each name. -/
def loaded (vs : List Json) : List ConnObj :=
  HashTable.addAll ConnObj.key [] (objs c mkdir async vs)

section Objects

variable {c mkdir async}

theorem verifyConn_eq_zero_iff {v : Json} : verifyConn v = 0 ↔ WellFormed v := by
  have hstr : ∀ j : Json, j.isStr = true → j.isNull = false := by
    intro j h
    cases j <;> first | rfl | cases h
  unfold verifyConn WellFormed
  dsimp only
  split_ifs with hobj hnull htype hqsz hpath
  · exact iff_of_false (by decide) fun h => by simp [h.1] at hobj
  · refine iff_of_false (by decide) fun ⟨_, hn, ha, hc, hu, hp, _⟩ => ?_
    simp [hstr _ hn, hstr _ ha, hstr _ hc, hstr _ hu, hstr _ hp] at hnull
  · exact iff_of_false (by decide) fun ⟨_, hn, ha, hc, hu, hp, _⟩ => by
      simp [hn, ha, hc, hu, hp] at htype
  · exact iff_of_false (by decide) fun ⟨_, _, _, _, _, _, hq, _⟩ => by
      obtain hq | hq := hq <;> simp [hq] at hqsz
  · exact iff_of_false (by decide) fun ⟨_, _, _, _, _, _, _, hb⟩ => by
      obtain hb | hb := hb <;> simp [hb] at hpath
  · refine iff_of_true rfl ?_
    simp only [Bool.not_eq_true', Bool.not_eq_false, decide_eq_true_eq] at hobj htype
    obtain ⟨hn, ha, hc, hu, hp⟩ : _ ∧ _ ∧ _ ∧ _ ∧ _ := by simpa using htype
    refine ⟨hobj, hn, ha, hc, hu, hp, ?_, ?_⟩
    · by_contra hno
      simp_all
    · by_contra hno
      simp_all

theorem loaded_append (vs : List Json) (v : Json) :
    loaded c mkdir async (vs ++ [v]) =
      HashTable.addNew ConnObj.key (loaded c mkdir async vs)
        (entryObj c mkdir async vs.length v) := by
  rw [loaded, objs, List.zipIdx_append, List.map_append, HashTable.addAll_append, Nat.zero_add]
  rfl

/-- `mqtt_mngr_add_conn` refuses a name that is there and makes the object of an entry under
a new one. -/
theorem mqttMngrAddConn_eq {v : Json} (h : WellFormed v) (conns : List ConnObj) (i : Nat) :
    mqttMngrAddConn c (conns.map ConnObj.toMqttConnD) (mkdir i) v =
      if connName c v ∈ conns.map ConnObj.key then none
      else
        some ((entryObj c mkdir async i v).toMqttConnD,
          (HashTable.add conns (entryObj c mkdir async i v)).map ConnObj.toMqttConnD) := by
  have hnull : ¬ ((v.field "address").isNull = true ∨ (v.field "name").isNull = true) := by
    obtain ⟨-, hname, haddr, -⟩ := h
    rintro (hno | hno)
    · cases hfield : v.field "address" <;> simp_all [Json.isNull, Json.isStr]
    · cases hfield : v.field "name" <;> simp_all [Json.isNull, Json.isStr]
  have hkeys : (conns.map ConnObj.toMqttConnD).map MqttConnD.name = conns.map ConnObj.key := by
    rw [List.map_map]
    rfl
  unfold mqttMngrAddConn
  dsimp only
  rw [if_neg hnull]
  by_cases hmem : connName c v ∈ conns.map ConnObj.key
  · have hfind : (HashTable.find MqttConnD.name (conns.map ConnObj.toMqttConnD)
        (c.getString (v.field "name"))).isSome := by
      rw [Option.isSome_iff_ne_none, Ne, HashTable.find_eq_none_iff, hkeys, not_not]
      exact hmem
    rw [if_pos hfind, if_pos hmem]
  · have hfind : HashTable.find MqttConnD.name (conns.map ConnObj.toMqttConnD)
        (c.getString (v.field "name")) = none := by
      rw [HashTable.find_eq_none_iff, hkeys]
      exact hmem
    have hadd : (HashTable.add conns (entryObj c mkdir async i v)).map ConnObj.toMqttConnD =
        HashTable.add (conns.map ConnObj.toMqttConnD) (entryObj c mkdir async i v).toMqttConnD :=
      List.map_append
    rw [hfind, if_neg hmem, hadd]
    rfl

/-- The connections are the objects of the first entries under their names. -/
theorem mem_loaded_iff {vs : List Json} {conn : ConnObj} :
    conn ∈ loaded c mkdir async vs ↔
      ∃ i v, FirstAt (fun w => connName c w = connName c v) vs i v ∧
        conn = entryObj c mkdir async i v := by
  have hnone : ∀ (n : String) (v : Json) (i : Nat),
      [entryObj c mkdir async i v].find? (fun e => e.key = n) = none ↔ ¬ connName c v = n := by
    intro n v i
    rw [List.find?_eq_none, List.forall_mem_singleton, decide_eq_true_eq]
    rfl
  obtain ⟨new, heq, hgained⟩ := @HashTable.addAll_eq_append _ _ _ ConnObj.key []
    (objs c mkdir async vs)
  rw [List.nil_append] at heq
  have hfirst : ∀ conn ∈ new, ∃ i v, FirstAt (fun w => connName c w = connName c v) vs i v ∧
      conn = entryObj c mkdir async i v := by
    intro conn hconn
    have hfind := hgained.first conn hconn
    rw [objs, List.map_eq_flatMap] at hfind
    obtain ⟨i, v, hat, hfind⟩ := find?_flatMap_zipIdx (fun v i => hnone conn.key v i) hfind
    rw [Nat.zero_add] at hfind
    obtain rfl := List.mem_singleton.mp (List.mem_of_find?_eq_some hfind)
    exact ⟨i, v, hat, rfl⟩
  rw [loaded, heq]
  constructor
  · exact hfirst conn
  · rintro ⟨i, v, hat, rfl⟩
    have hkey : connName c v ∈ new.map ConnObj.key := by
      rw [hgained.mem_keys_iff]
      refine ⟨List.not_mem_nil, List.mem_map.mpr ⟨entryObj c mkdir async i v, ?_, rfl⟩⟩
      exact List.mem_map.mpr ⟨(v, i), List.mk_mem_zipIdx_iff_getElem?.mpr hat.entry, rfl⟩
    obtain ⟨conn, hconn, hname⟩ := List.mem_map.mp hkey
    obtain ⟨j, w, hat', rfl⟩ := hfirst conn hconn
    have hname' : connName c w = connName c v := hname
    rw [hname'] at hat'
    obtain rfl := hat.index_eq hat'
    obtain rfl := Option.some.inj (hat.entry.symm.trans hat'.entry)
    exact hconn

theorem entry_lt_of_mem_loaded {vs : List Json} {conn : ConnObj}
    (h : conn ∈ loaded c mkdir async vs) : conn.entry < vs.length := by
  obtain ⟨i, v, hat, rfl⟩ := mem_loaded_iff.mp h
  exact (List.getElem?_eq_some_iff.mp hat.entry).1

/-- A change of the last object. -/
theorem modifyEntry_append {vs : List Json} {conn : ConnObj} {i : Nat} (hi : i = vs.length)
    (hconn : conn.entry = i) (f : ConnObj → ConnObj) :
    modifyEntry (loaded c mkdir async vs ++ [conn]) i f =
      loaded c mkdir async vs ++ [f conn] := by
  have hkeep : (loaded c mkdir async vs).map (fun u => if u.entry = i then f u else u) =
      loaded c mkdir async vs := by
    refine (List.map_congr_left fun u hu => if_neg ?_).trans (List.map_id' _)
    have hlt := entry_lt_of_mem_loaded hu
    omega
  rw [modifyEntry, List.map_append, hkeep, List.map_singleton, if_pos hconn]

/-- The connections of the whole loop are those of `process_cfg` of the configuration
module. -/
theorem processConns_conns (vs : List Json) (i : Nat) (conns : List ConnObj)
    (connects : List (Nat × MqttConnD)) :
    (processConns c mkdir vs i ⟨conns.map ConnObj.toMqttConnD, connects⟩).2.conns =
      (HashTable.addAll ConnObj.key conns (((vs.takeWhile fun v => WellFormed v).zipIdx i).map
        fun p => entryObj c mkdir async p.2 p.1)).map ConnObj.toMqttConnD := by
  induction vs generalizing i conns connects with
  | nil => rfl
  | cons v vs ih =>
      rw [processConns]
      dsimp only
      by_cases hv : WellFormed v
      · rw [if_neg (not_not.mpr (verifyConn_eq_zero_iff.mpr hv)),
          List.takeWhile_cons_of_pos (by simpa using hv), List.zipIdx_cons, List.map_cons,
          HashTable.addAll_cons, @mqttMngrAddConn_eq c mkdir async v hv]
        by_cases hmem : connName c v ∈ conns.map ConnObj.key
        · rw [if_pos hmem, HashTable.addNew_of_mem hmem]
          exact ih (i + 1) conns connects
        · rw [if_neg hmem, HashTable.addNew_of_not_mem hmem]
          exact ih (i + 1) _ _
      · rw [if_pos fun hz => hv (verifyConn_eq_zero_iff.mp hz),
          List.takeWhile_cons_of_neg (by simpa using hv)]
        rfl

end Objects

/-- The loop has worked on the entries `pre`, which are well formed. -/
structure Worked (cfg : Json) (pre rest : List Json) : Prop where
  valid : SectionValid cfg
  split : cfgConns cfg = pre ++ rest
  wellFormed : ∀ w ∈ pre, WellFormed w

/-- The connections at a point of the loop: those of the entries before, and while the loop is
at a new entry its object, which has the topics that it was given so far and no client. -/
inductive At (cfg : Json) (pre : List Json) : LoadPc → List ConnObj → Prop
  | entries {vs : List Json} (h : Worked cfg pre vs) :
      At cfg pre (.entries pre.length vs) (loaded c mkdir async pre)
  | topics {v : Json} {subs vs : List Json} {ts : List CStr} (h : Worked cfg pre (v :: vs))
      (hv : WellFormed v) (hnew : connName c v ∉ (loaded c mkdir async pre).map ConnObj.key)
      (hts : ts ++ (subs.filter Json.isStr).map c.cString = topics c v) :
      At cfg pre (.topics pre.length v subs vs) (loaded c mkdir async pre ++
        [{ entryObj c mkdir async pre.length v with topics := ts, client := false }])
  | connect {v : Json} {vs : List Json} (h : Worked cfg pre (v :: vs)) (hv : WellFormed v)
      (hnew : connName c v ∉ (loaded c mkdir async pre).map ConnObj.key) :
      At cfg pre (.connect pre.length v vs) (loaded c mkdir async pre ++
        [{ entryObj c mkdir async pre.length v with client := false }])
  | finished (h : Worked cfg pre []) : At cfg pre (.done 0) (loaded c mkdir async pre)
  | failed {v : Json} {vs : List Json} (h : Worked cfg pre (v :: vs)) (hv : ¬ WellFormed v) :
      At cfg pre (.done (verifyConn v)) (loaded c mkdir async pre)
  | rejected {code : Nat} (hcfg : ¬ SectionValid cfg) (hpre : pre = []) (hcode : code ≠ 0) :
      At cfg pre (.done code) (loaded c mkdir async pre)

/-- The entry `i` is the first one with its name. -/
def First (pre : List Json) (i : Nat) (v : Json) : Prop :=
  FirstAt (fun w => connName c w = connName c v) pre i v

/-- The invariant of the start. -/
structure Inv (cfg : Json) (s : Startup) (pre : List Json) : Prop where
  loop : At c mkdir async cfg pre s.pc s.conns
  up : ∀ i ∈ s.up, (async i).create = true ∧ ∃ v, First c pre i v
  calls : ∀ call ∈ s.calls, ∃ i v, First c pre i v ∧ CallOf c i v call

section Startup

variable {c mkdir async} {cfg : Json} {s t : Startup} {pre : List Json}

theorem First.append {i : Nat} {v : Json} (h : First c pre i v) (vs : List Json) :
    First c (pre ++ vs) i v := FirstAt.append h vs

theorem First.lt {i : Nat} {v : Json} (h : First c pre i v) : i < pre.length :=
  (List.getElem?_eq_some_iff.mp h.entry).1

/-- A new entry with a new name is the first one with it. -/
theorem first_of_new {v : Json}
    (hnew : connName c v ∉ (loaded c mkdir async pre).map ConnObj.key) :
    First c (pre ++ [v]) pre.length v where
  entry := List.getElem?_concat_length
  holds := rfl
  least := by
    intro j hj w hw hname
    rw [List.getElem?_append_left hj] at hw
    have hkeys : connName c v ∈ (objs c mkdir async pre).map ConnObj.key := by
      refine List.mem_map.mpr ⟨entryObj c mkdir async j w, ?_, hname⟩
      exact List.mem_map.mpr ⟨(w, j), List.mk_mem_zipIdx_iff_getElem?.mpr hw, rfl⟩
    obtain ⟨new, heq, hgained⟩ := @HashTable.addAll_eq_append _ _ _ ConnObj.key []
      (objs c mkdir async pre)
    rw [loaded, heq, List.nil_append, hgained.mem_keys_iff] at hnew
    exact hnew ⟨List.not_mem_nil, hkeys⟩

theorem Worked.valid_eq {rest : List Json} (h : Worked cfg pre rest) :
    validConns cfg = pre ++ rest.takeWhile fun v => WellFormed v := by
  rw [validConns, h.split, List.takeWhile_append_of_pos]
  exact fun w hw => decide_eq_true (h.wellFormed w hw)

/-- The entries before the place of the loop are among the valid ones. -/
theorem At.prefix (h : At c mkdir async cfg pre s.pc s.conns) :
    ∃ rest, validConns cfg = pre ++ rest := by
  generalize s.pc = pc, s.conns = conns at h
  cases h with
  | entries h | topics h | connect h | finished h | failed h => exact ⟨_, h.valid_eq⟩
  | rejected _ hpre _ => exact ⟨validConns cfg, by rw [hpre, List.nil_append]⟩

theorem Worked.take {v : Json} {vs : List Json} (h : Worked cfg pre (v :: vs))
    (hv : WellFormed v) : Worked cfg (pre ++ [v]) vs where
  valid := h.valid
  split := by rw [h.split, List.append_cons]
  wellFormed w hw := by
    obtain hw | hw := List.mem_append.mp hw
    · exact h.wellFormed w hw
    · exact List.mem_singleton.mp hw ▸ hv

/-- What `mqtt_conn_connect` calls is of its entry. -/
theorem callOf_mqttConnConnect {i : Nat} {v : Json} {call : AsyncCall}
    (h : call ∈ (mqttConnConnect c async i v).2) : CallOf c i v call := by
  have hall : call ∈ [.create i (c.cString (v.field "address")) (c.cString (v.field "client_id")),
      .setCallbacks i, .setConnected i, .connect i (keepAlive c v)
        (c.cString (v.field "username")) (c.cString (v.field "password"))] := by
    unfold mqttConnConnect at h
    dsimp only at h
    split_ifs at h <;> simp only [List.cons_append, List.nil_append, List.mem_cons] at h ⊢ <;> tauto
  simp only [List.mem_cons, List.not_mem_nil, or_false] at hall
  obtain rfl | rfl | rfl | rfl := hall
  · exact .create
  · exact .setCallbacks
  · exact .setConnected
  · exact .connect

/-- Only a connection whose client was created is accepted. -/
theorem create_of_mqttConnConnect {i : Nat} {v : Json} (h : (mqttConnConnect c async i v).1 = 0) :
    (async i).create = true := by
  unfold mqttConnConnect at h
  dsimp only at h
  cases hcreate : (async i).create with
  | true => rfl
  | false => simp [hcreate] at h

/-- Entries that are worked on add to what is known of the calls. -/
theorem Inv.append (h : Inv c mkdir async cfg s pre) (vs : List Json) {pc : LoadPc}
    {conns : List ConnObj} (hat : At c mkdir async cfg (pre ++ vs) pc conns) :
    Inv c mkdir async cfg { s with pc := pc, conns := conns } (pre ++ vs) where
  loop := hat
  up i hi := by
    obtain ⟨hcreate, v, hfirst⟩ := h.up i hi
    exact ⟨hcreate, v, hfirst.append vs⟩
  calls call hcall := by
    obtain ⟨i, v, hfirst, hof⟩ := h.calls call hcall
    exact ⟨i, v, hfirst.append vs, hof⟩

/-- The place of the loop and the connections change. -/
theorem Inv.move (h : Inv c mkdir async cfg s pre) {pc : LoadPc} {conns : List ConnObj}
    (hat : At c mkdir async cfg pre pc conns) :
    Inv c mkdir async cfg { s with pc := pc, conns := conns } pre :=
  ⟨hat, h.up, h.calls⟩

/-- The place after an entry. -/
theorem Worked.at_next {v : Json} {vs : List Json} (h : Worked cfg pre (v :: vs))
    (hv : WellFormed v) :
    At c mkdir async cfg (pre ++ [v]) (.entries (pre.length + 1) vs)
      (HashTable.addNew ConnObj.key (loaded c mkdir async pre)
        (entryObj c mkdir async pre.length v)) := by
  have hat := @At.entries c mkdir async _ _ _ (h.take hv)
  rwa [List.length_append, List.length_singleton, loaded_append] at hat

/-- The step at an entry. -/
theorem Inv.load_entry {v : Json} {vs : List Json} (h : Inv c mkdir async cfg s pre)
    (hpc : s.pc = .entries pre.length (v :: vs)) (hconns : s.conns = loaded c mkdir async pre)
    (hw : Worked cfg pre (v :: vs)) (hstep : loadStep c mkdir async s = some t) :
    ∃ pre', Inv c mkdir async cfg t pre' := by
  by_cases hv : WellFormed v
  · have hcode : ¬ verifyConn v ≠ 0 := not_not.mpr (verifyConn_eq_zero_iff.mpr hv)
    have hadd := @mqttMngrAddConn_eq c mkdir async v hv (loaded c mkdir async pre) pre.length
    simp only [loadStep, hpc, if_neg hcode, hconns] at hstep
    by_cases hmem : connName c v ∈ (loaded c mkdir async pre).map ConnObj.key
    · rw [hadd, if_pos hmem] at hstep
      obtain rfl := Option.some.inj hstep
      have hat := @Worked.at_next c mkdir async _ _ _ _ hw hv
      rw [HashTable.addNew_of_mem hmem] at hat
      exact ⟨pre ++ [v], h.append [v] hat⟩
    · rw [hadd, if_neg hmem] at hstep
      obtain rfl := Option.some.inj hstep
      exact ⟨pre, h.move (.topics hw hv hmem (List.nil_append _))⟩
  · have hcode : verifyConn v ≠ 0 := fun hz => hv (verifyConn_eq_zero_iff.mp hz)
    simp only [loadStep, hpc, if_pos hcode] at hstep
    obtain rfl := Option.some.inj hstep
    exact ⟨pre, h.move (hconns ▸ .failed hw hv)⟩

/-- The step at a topic. -/
theorem Inv.load_topic {v j : Json} {subs vs : List Json} {ts : List CStr}
    (h : Inv c mkdir async cfg s pre) (hpc : s.pc = .topics pre.length v (j :: subs) vs)
    (hconns : s.conns = loaded c mkdir async pre ++
      [{ entryObj c mkdir async pre.length v with topics := ts, client := false }])
    (hw : Worked cfg pre (v :: vs)) (hv : WellFormed v)
    (hnew : connName c v ∉ (loaded c mkdir async pre).map ConnObj.key)
    (hts : ts ++ ((j :: subs).filter Json.isStr).map c.cString = topics c v)
    (hstep : loadStep c mkdir async s = some t) : Inv c mkdir async cfg t pre := by
  by_cases hstr : j.isStr = true
  · have hgo : ¬ (!j.isStr) = true := by simp [hstr]
    simp only [loadStep, hpc, if_neg hgo, hconns] at hstep
    rw [modifyEntry_append rfl rfl] at hstep
    obtain rfl := Option.some.inj hstep
    refine h.move (@At.topics _ _ _ _ _ _ _ _ (ts ++ [c.cString j]) hw hv hnew ?_)
    rw [List.filter_cons_of_pos hstr, List.map_cons] at hts
    rw [← hts, List.append_assoc, List.singleton_append]
  · have hskip : (!j.isStr) = true := by simpa using hstr
    simp only [loadStep, hpc, if_pos hskip] at hstep
    obtain rfl := Option.some.inj hstep
    rw [List.filter_cons_of_neg hstr] at hts
    exact h.move (hconns ▸ .topics hw hv hnew hts)

/-- The step that connects. -/
theorem Inv.load_connect {v : Json} {vs : List Json} (h : Inv c mkdir async cfg s pre)
    (hpc : s.pc = .connect pre.length v vs)
    (hconns : s.conns = loaded c mkdir async pre ++
      [{ entryObj c mkdir async pre.length v with client := false }])
    (hw : Worked cfg pre (v :: vs)) (hv : WellFormed v)
    (hnew : connName c v ∉ (loaded c mkdir async pre).map ConnObj.key)
    (hstep : loadStep c mkdir async s = some t) : Inv c mkdir async cfg t (pre ++ [v]) := by
  simp only [loadStep, hpc, hconns] at hstep
  rw [modifyEntry_append rfl rfl] at hstep
  obtain rfl := Option.some.inj hstep
  have hfirst := first_of_new hnew
  have hat := @Worked.at_next c mkdir async _ _ _ _ hw hv
  rw [HashTable.addNew_of_not_mem hnew] at hat
  have hinv := h.append [v] hat
  refine ⟨hat, fun i hi => ?_, fun call hcall => ?_⟩
  · by_cases hcode : (mqttConnConnect c async pre.length v).1 = 0
    · rw [if_pos hcode] at hi
      obtain hi | hi := List.mem_append.mp hi
      · exact hinv.up i hi
      · obtain rfl := List.mem_singleton.mp hi
        exact ⟨create_of_mqttConnConnect hcode, v, hfirst⟩
    · rw [if_neg hcode] at hi
      exact hinv.up i hi
  · obtain hcall | hcall := List.mem_append.mp hcall
    · exact hinv.calls call hcall
    · exact ⟨pre.length, v, hfirst, callOf_mqttConnConnect hcall⟩

/-- A step of the loop keeps the invariant. -/
theorem Inv.load (h : Inv c mkdir async cfg s pre) (hstep : loadStep c mkdir async s = some t) :
    ∃ pre', Inv c mkdir async cfg t pre' := by
  have hloop := h.loop
  generalize hpc : s.pc = pc, hconns : s.conns = conns at hloop
  -- one case for each place of the loop
  cases hloop with
  | @entries vs hw =>
      cases vs with
      | nil =>
          rw [loadStep, hpc] at hstep
          obtain rfl := Option.some.inj hstep
          exact ⟨pre, h.move (hconns ▸ .finished hw)⟩
      | cons v vs => exact h.load_entry hpc hconns hw hstep
  | @topics v subs vs ts hw hv hnew hts =>
      cases subs with
      | nil =>
          rw [loadStep, hpc] at hstep
          obtain rfl := Option.some.inj hstep
          obtain rfl : ts = topics c v := by simpa using hts
          exact ⟨pre, h.move (hconns ▸ .connect hw hv hnew)⟩
      | cons j subs => exact ⟨pre, h.load_topic hpc hconns hw hv hnew hts hstep⟩
  | @connect v vs hw hv hnew => exact ⟨pre ++ [v], h.load_connect hpc hconns hw hv hnew hstep⟩
  | finished | failed | rejected =>
      rw [loadStep, hpc] at hstep
      cases hstep

/-- The object of an accepted entry is found with all of its topics. -/
theorem Inv.find {i : Nat} (h : Inv c mkdir async cfg s pre) (hi : i ∈ s.up) :
    ∃ v, First c pre i v ∧ (async i).create = true ∧
      s.conns.find? (fun conn => conn.entry = i) = some (entryObj c mkdir async i v) := by
  obtain ⟨hcreate, v, hfirst⟩ := h.up i hi
  refine ⟨v, hfirst, hcreate, ?_⟩
  have hmem : entryObj c mkdir async i v ∈ loaded c mkdir async pre :=
    mem_loaded_iff.mpr ⟨i, v, hfirst, rfl⟩
  have hfind : (loaded c mkdir async pre).find? (fun conn => conn.entry = i) =
      some (entryObj c mkdir async i v) := by
    cases hres : (loaded c mkdir async pre).find? fun conn => conn.entry = i with
    | none => exact absurd (decide_eq_true rfl) (List.find?_eq_none.mp hres _ hmem)
    | some conn =>
        obtain ⟨j, w, hfirst', rfl⟩ := mem_loaded_iff.mp (List.mem_of_find?_eq_some hres)
        have hentry := List.find?_some hres
        obtain rfl : j = i := of_decide_eq_true hentry
        obtain rfl := Option.some.inj (hfirst.entry.symm.trans hfirst'.entry)
        rfl
  obtain ⟨pc, conns, up, calls⟩ := s
  have hloop := h.loop
  dsimp only at hloop ⊢
  cases hloop with
  | topics | connect => rw [List.find?_append, hfind, Option.some_or]
  | entries | finished | failed | rejected => exact hfind

/-- `mqtt_on_connect` of an accepted entry subscribes to its topics. -/
theorem mqttOnConnect_entryObj {i : Nat} {v : Json} (h : (async i).create = true) :
    mqttOnConnect (entryObj c mkdir async i v) = (topics c v).map (.subscribe i) := by
  rw [mqttOnConnect, List.map_eq_flatMap]
  apply List.flatMap_congr
  intro t _
  exact if_pos h

/-- A call of the library's thread keeps the invariant and subscribes to the topics. -/
theorem Inv.connected {i : Nat} (h : Inv c mkdir async cfg s pre)
    (hstep : step c mkdir async s (.connected i) = some t) :
    Inv c mkdir async cfg t pre ∧
      ∃ v, First c pre i v ∧ t.calls = s.calls ++ (topics c v).map (.subscribe i) := by
  obtain ⟨hi, hstep⟩ := Option.ite_none_right_eq_some.mp hstep
  obtain ⟨v, hfirst, hcreate, hfind⟩ := h.find hi
  rw [hfind, Option.map_some, mqttOnConnect_entryObj hcreate] at hstep
  obtain rfl := Option.some.inj hstep
  refine ⟨⟨h.loop, h.up, fun call hcall => ?_⟩, v, hfirst, rfl⟩
  obtain hcall | hcall := List.mem_append.mp hcall
  · exact h.calls call hcall
  · obtain ⟨t, ht, rfl⟩ := List.mem_map.mp hcall
    exact ⟨i, v, hfirst, .subscribe ht⟩

theorem inv_start (cfg : Json) : Inv c mkdir async cfg (start cfg) [] := by
  have hnone : ∀ {code : Nat}, ¬ SectionValid cfg → code ≠ 0 →
      Inv c mkdir async cfg ⟨.done code, [], [], []⟩ [] := fun hcfg hcode =>
    ⟨.rejected hcfg rfl hcode, nofun, nofun⟩
  unfold start
  split_ifs with hnull hobj hplg
  · refine hnone (fun hcfg => ?_) (by decide)
    cases cfg <;> simp_all [SectionValid, Json.isNull, Json.isObj]
  · exact hnone (fun hcfg => by simp [hcfg.1] at hobj) (by decide)
  · exact hnone (fun hcfg => by simp [hplg, SectionValid] at hcfg) (by decide)
  · refine ⟨.entries ⟨⟨by simpa using hobj, by simpa using hplg⟩, rfl, ?_⟩, ?_, ?_⟩
    · exact fun w hw => absurd hw List.not_mem_nil
    · exact fun i hi => absurd hi List.not_mem_nil
    · exact fun call hcall => absurd hcall List.not_mem_nil

theorem cfgConns_of_not_valid (h : ¬ SectionValid cfg) : cfgConns cfg = [] := by
  have hplg : plgCfg cfg = .null := by
    by_cases hobj : cfg.isObj = true
    · have hnull : (plgCfg cfg).isNull = true := by simpa [SectionValid, hobj] using h
      cases hfield : plgCfg cfg <;> simp_all [Json.isNull]
    · cases cfg <;> simp_all [plgCfg, Json.field, Json.isObj]
  rw [cfgConns, hplg]
  rfl

/-- The objects of the valid entries are the connections of `process_cfg` in the
configuration module. -/
theorem loaded_validConns (cfg : Json) :
    (loaded c mkdir async (validConns cfg)).map ConnObj.toMqttConnD =
      (processCfg c mkdir cfg []).2.conns := by
  by_cases hcfg : SectionValid cfg
  · have hnull : cfg.isNull = false := by
      cases cfg <;> first | rfl | cases hcfg.1
    have hplg : ¬ (plgCfg cfg).isNull = true := by simpa using hcfg.2
    rw [processCfg, if_neg (by simp [hnull]), if_neg (by simp [hcfg.1]), if_neg hplg]
    exact (processConns_conns (cfgConns cfg) 0 [] []).symm
  · rw [validConns, cfgConns_of_not_valid hcfg, processCfg]
    split_ifs with hnull hobj hplg
    · rfl
    · rfl
    · rfl
    · exact absurd ⟨by simpa using hobj, by simpa using hplg⟩ hcfg

/-- What the connections are at the end of the loop. -/
theorem At.done {code : Nat} {conns : List ConnObj}
    (h : At c mkdir async cfg pre (.done code) conns) :
    (code = 0 ↔ SectionValid cfg ∧ ∀ v ∈ cfgConns cfg, WellFormed v) ∧
      conns = loaded c mkdir async (validConns cfg) := by
  cases h with
  | finished hw =>
      have hall := hw.split
      rw [List.append_nil] at hall
      refine ⟨iff_of_true rfl ⟨hw.valid, hall ▸ hw.wellFormed⟩, ?_⟩
      rw [hw.valid_eq, List.takeWhile_nil, List.append_nil]
  | @failed v vs hw hv =>
      constructor
      · refine iff_of_false (fun hz => hv (verifyConn_eq_zero_iff.mp hz)) fun hall => hv ?_
        apply hall.2
        rw [hw.split]
        exact List.mem_append_right pre List.mem_cons_self
      · rw [hw.valid_eq, List.takeWhile_cons_of_neg (by simpa using hv), List.append_nil]
  | rejected hcfg hpre hcode =>
      refine ⟨iff_of_false hcode fun hall => hcfg hall.1, ?_⟩
      rw [hpre, validConns, cfgConns_of_not_valid hcfg]
      rfl

end Startup

/-- In every order of the steps of `process_cfg` and the calls of `mqtt_on_connect`, each call
for an entry subscribes to all of its string topics in order and to nothing else; the entry is
the first valid one with its name, and everything else that the library is asked is of such an
entry. At the end of the loop the connections are the objects of these entries, those that
`process_cfg` makes when no callback comes between, and the code tells whether all entries are well
formed. -/
theorem connections_come_up (cfg : Json) (acts : List Act) :
    Trace.Along (step c mkdir async)
      (fun s a t => ∀ i, a = .connected i → ∃ v, Chosen c cfg i v ∧
        t.calls = s.calls ++ (topics c v).map (.subscribe i)) (start cfg) acts ∧
    ∀ s, Trace.exec (step c mkdir async) (start cfg) acts = some s →
      (∀ call ∈ s.calls, ∃ i v, Chosen c cfg i v ∧ CallOf c i v call) ∧
      ∀ code, s.pc = .done code →
        (code = 0 ↔ SectionValid cfg ∧ ∀ v ∈ cfgConns cfg, WellFormed v) ∧
        s.conns.map ConnObj.toMqttConnD = (processCfg c mkdir cfg []).2.conns ∧
        ∀ conn, conn ∈ s.conns ↔
          ∃ i v, Chosen c cfg i v ∧ conn = entryObj c mkdir async i v := by
  have hkeep : ∀ s a t, (∃ pre, Inv c mkdir async cfg s pre) → step c mkdir async s a = some t →
      (∃ pre, Inv c mkdir async cfg t pre) ∧ ∀ i, a = .connected i → ∃ v, Chosen c cfg i v ∧
        t.calls = s.calls ++ (topics c v).map (.subscribe i) := by
    rintro s a t ⟨pre, hinv⟩ hstep
    cases a with
    | load => exact ⟨hinv.load hstep, nofun⟩
    | connected i =>
        obtain ⟨hinv', v, hfirst, hcalls⟩ := hinv.connected hstep
        refine ⟨⟨pre, hinv'⟩, ?_⟩
        rintro j hj
        obtain rfl : i = j := Act.connected.inj hj
        obtain ⟨rest, hrest⟩ := hinv.loop.prefix
        refine ⟨v, ?_, hcalls⟩
        rw [Chosen, hrest]
        exact hfirst.append rest
  refine ⟨Trace.along_of_invariant hkeep ⟨[], inv_start cfg⟩ acts, fun s hexec => ?_⟩
  obtain ⟨pre, hinv⟩ := Trace.exec_invariant (fun s a t hs hstep => (hkeep s a t hs hstep).1)
    ⟨[], inv_start cfg⟩ hexec
  refine ⟨fun call hcall => ?_, fun code hpc => ?_⟩
  · obtain ⟨i, v, hfirst, hof⟩ := hinv.calls call hcall
    obtain ⟨rest, hrest⟩ := hinv.loop.prefix
    refine ⟨i, v, ?_, hof⟩
    rw [Chosen, hrest]
    exact hfirst.append rest
  · have hloop := hinv.loop
    rw [hpc] at hloop
    obtain ⟨hcode, hconns⟩ := hloop.done
    rw [hconns]
    exact ⟨hcode, loaded_validConns cfg, fun conn => mem_loaded_iff⟩

end Umink.Mqtt.Loader
