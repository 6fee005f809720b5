import Umink.Library.CTypes
import Umink.Spscq.Interleaving

/-!
# A connection of the MQTT plugin

The four parties that work on one connection: `mqtt_on_rx` on the receive thread
of the MQTT library, publishers that got a handle from `mqtt_mngr_get_conn`, the
`mqtt_proc_thread` of the connection and `mqtt_mngr_del_conn`. An action is the
next step of one of them; any order of the steps is a run.

## Implementation notes

`spscq_push` and `spscq_pop` are cut into the half-steps of the queue. The
library calls `mqtt_on_rx` on one thread and until `MQTTAsync_destroy` has
returned; that call frees the client and sets the handle to null, and
`MQTTAsync_sendMessage` refuses a null handle. `released` and `disposed` record
what was released and what became of the messages; no step reads them.
-/

namespace Umink.Mqtt

open Umink.Library Umink.Spscq

/-- The items of a received message. -/
structure RxData where
  mqttTopic : String
  mqttPayload : String
  mqttConnection : String
  deriving DecidableEq, Repr

/-- What a `mqtt_conn_d` consists of. -/
inductive Part where
  | sigSem
  | sigQ
  | client
  | name
  | topics
  | binUplPath
  | descriptor
  deriving DecidableEq, Repr

/-- How a message of the queue ends. -/
inductive Disposal where
  | handed
  | freed
  deriving DecidableEq, Repr

/-- Where `mqtt_on_rx` stands. -/
inductive RxPc where
  | idle
  | build (t payload : String)
  | push (eD : RxData)
  | pushing (eD : RxData)
  | queueFull
  | post
  deriving DecidableEq, Repr

/-- Where a publisher stands: in `mqtt_conn_pub` or `mqtt_mngr_send` with its
handle, before it reads the client, and before `MQTTAsync_sendMessage`. -/
inductive PubPc where
  | idle
  | connPub
  | mngrSend (dsz : Nat)
  | readClient
  | sendMessage (client : Bool)
  deriving DecidableEq, Repr

/-- Where `mqtt_proc_thread` stands. -/
inductive ProcPc where
  | check
  | wait
  | recheck
  | pop
  | popping
  | handle
  | free
  | flush
  | flushing
  | flushFree
  | done
  deriving DecidableEq, Repr

/-- The step of `mqtt_mngr_del_conn` that comes next. -/
inductive ShutPc where
  | lock
  | find
  | join
  | semDestroy
  | spscqFree
  | hashDel
  | clientDestroy
  | freeName
  | freeTopics
  | freeBinUplPath
  | freeConn
  | unlock
  | done
  deriving DecidableEq, Repr

/-- A connection with the parties that work on it; `π` names the publishers. -/
structure Conn (π : Type*) where
  name : String
  client : Bool
  sigQ : Pair RxData
  sigSem : Nat
  hashed : Bool
  terminating : Bool
  rx : RxPc
  pub : π → PubPc
  proc : ProcPc
  data : Option RxData
  del : ShutPc
  released : List Part
  disposed : List (RxData × Disposal)

/-- The actions: the MQTT library delivers a message, a publisher asks for the
connection, and each party takes its next step. -/
inductive Act (π : Type*) where
  | deliver (t payload : String)
  | rx
  | getConn (p : π) (dsz : Option Nat)
  | pub (p : π)
  | proc
  | del
  | terminate

variable {π : Type*}

namespace Conn

/-- A connection after `mqtt_mngr_add_conn`, and `MQTTAsync_create` if `client`. -/
def start (n : QSize) (items : Nat → RxData) (name : String) (client : Bool) : Conn π where
  name := name
  client := client
  sigQ := Pair.start n items
  sigSem := 0
  hashed := true
  terminating := false
  rx := .idle
  pub := fun _ => .idle
  proc := .check
  data := none
  del := .lock
  released := []
  disposed := []

/-- The next half-step of `spscq_push`. -/
def nextPush {ι : Type*} : PushPc ι → Option (HalfStep ι)
  | .ready _ => none
  | .store _ _ _ => some .pushStore
  | .bump _ _ => some .pushBump
  | .publish _ => some .pushPublish

/-- The next half-step of `spscq_pop`. -/
def nextPop {ι : Type*} : PopPc → Option (HalfStep ι)
  | .ready _ => none
  | .load _ => some .popLoad
  | .bump _ => some .popBump
  | .publish => some .popPublish

/-- The topics of binary uploads, which do not use the connection. -/
def isBinTopic (t : String) : Bool := "mink.bin/".toList.isPrefixOf t.toList

/-- The step of `mqtt_on_rx`. -/
def rxStep (n : QSize) (s : Conn π) : Option (Conn π) :=
  match s.rx with
  | .idle => none
  | .build t payload => some { s with rx := .push ⟨cText t, cText payload, s.name⟩ }
  | .push eD =>
      (s.sigQ.step n (.pushReadTail 1 eD)).map fun q =>
        match q.push with
        | .ready _ => { s with sigQ := q, rx := .queueFull }
        | _ => { s with sigQ := q, rx := .pushing eD }
  | .pushing eD =>
      (nextPush s.sigQ.push).bind fun h => (s.sigQ.step n h).map fun q =>
        match q.push with
        | .ready _ => { s with sigQ := q, rx := .post }
        | _ => { s with sigQ := q, rx := .pushing eD }
  -- the data is freed and the name logged
  | .queueFull => some { s with rx := .idle }
  | .post => some { s with sigSem := s.sigSem + 1, rx := .idle }

/-- The step of `mqtt_conn_pub` or `mqtt_mngr_send`. -/
def pubStep [DecidableEq π] (s : Conn π) (p : π) : Option (Conn π) :=
  match s.pub p with
  | .idle => none
  | .connPub =>
      some { s with pub := Function.update s.pub p (if s.client then .readClient else .idle) }
  | .mngrSend dsz =>
      some { s with pub := Function.update s.pub p (if dsz = 0 then .idle else .readClient) }
  | .readClient => some { s with pub := Function.update s.pub p (.sendMessage s.client) }
  | .sendMessage _ => some { s with pub := Function.update s.pub p .idle }

/-- The first half-step of `spscq_pop`: on to `more`, or to `empty` when the queue has
nothing. -/
def popStart (n : QSize) (s : Conn π) (more empty : ProcPc) : Option (Conn π) :=
  (s.sigQ.step n .popReadHead).map fun q =>
    match q.pop with
    | .ready _ => { s with sigQ := q, proc := empty }
    | _ => { s with sigQ := q, proc := more }

/-- The item that the next half-step of `spscq_pop` loads, or what `data` holds. -/
def popData (s : Conn π) : Option RxData :=
  match s.sigQ.pop with
  | .load nextTail => some (s.sigQ.queue.items nextTail)
  | _ => s.data

/-- A further half-step of `spscq_pop`: on to `got` when it returns. -/
def popNext (n : QSize) (s : Conn π) (more got : ProcPc) : Option (Conn π) :=
  (nextPop s.sigQ.pop).bind fun h => (s.sigQ.step n h).map fun q =>
    match q.pop with
    | .ready _ => { s with sigQ := q, data := s.popData, proc := got }
    | _ => { s with sigQ := q, data := s.popData, proc := more }

/-- The end of the message in `data`. -/
def dispose (s : Conn π) (d : Disposal) : List (RxData × Disposal) :=
  s.disposed ++ s.data.toList.map fun eD => (eD, d)

/-- The step of `mqtt_proc_thread`. -/
def procStep (n : QSize) (s : Conn π) : Option (Conn π) :=
  match s.proc with
  | .check => some { s with proc := if s.terminating then .flush else .wait }
  -- the wait takes a post or ends after its timeout
  | .wait => some { s with sigSem := s.sigSem - 1, proc := .recheck }
  | .recheck => some { s with proc := if s.terminating then .flush else .pop }
  | .pop => s.popStart n .popping .check
  | .popping => s.popNext n .popping .handle
  | .handle => some { s with disposed := s.dispose .handed, proc := .free }
  | .free => some { s with proc := .check }
  | .flush => s.popStart n .flushing .done
  | .flushing => s.popNext n .flushing .flushFree
  | .flushFree => some { s with disposed := s.dispose .freed, proc := .flush }
  | .done => none

/-- The step of `mqtt_mngr_del_conn`. -/
def delStep (s : Conn π) : Option (Conn π) :=
  match s.del with
  | .lock => some { s with del := .find }
  | .find => some { s with del := if s.hashed then .join else .unlock }
  | .join => if s.proc = .done then some { s with del := .semDestroy } else none
  | .semDestroy => some { s with del := .spscqFree, released := s.released ++ [.sigSem] }
  | .spscqFree => some { s with del := .hashDel, released := s.released ++ [.sigQ] }
  | .hashDel => some { s with del := .clientDestroy, hashed := false }
  | .clientDestroy =>
      some { s with del := .freeName, client := false, released := s.released ++ [.client] }
  | .freeName => some { s with del := .freeTopics, released := s.released ++ [.name] }
  | .freeTopics => some { s with del := .freeBinUplPath, released := s.released ++ [.topics] }
  | .freeBinUplPath => some { s with del := .freeConn, released := s.released ++ [.binUplPath] }
  | .freeConn => some { s with del := .unlock, released := s.released ++ [.descriptor] }
  | .unlock => some { s with del := .done }
  | .done => none

/-- One action, refused where the party that takes it cannot go on. -/
def step [DecidableEq π] (n : QSize) (s : Conn π) (a : Act π) : Option (Conn π) :=
  match a with
  | .deliver t payload =>
      if s.rx = .idle ∧ s.client then
        some (if isBinTopic t then s else { s with rx := .build t payload })
      else none
  | .rx => s.rxStep n
  | .getConn p dsz =>
      -- the lookup waits for the lock of the manager
      if s.pub p = .idle ∧ (s.del = .lock ∨ s.del = .done) then
        let pc := match dsz with
          | none => PubPc.connPub
          | some dsz => .mngrSend dsz
        some { s with pub := Function.update s.pub p (if s.hashed then pc else .idle) }
      else none
  | .pub p => s.pubStep p
  | .proc => s.procStep n
  | .del => s.delStep
  | .terminate => some { s with terminating := true }

/-- The parts of the connection that an action uses. -/
def uses (s : Conn π) (a : Act π) : List Part :=
  match a with
  | .deliver _ _ | .terminate => []
  | .rx =>
      match s.rx with
      | .idle => []
      | .build _ _ | .queueFull => [.descriptor, .name]
      | .push _ => [.descriptor, .sigQ]
      | .pushing _ => [.sigQ]
      | .post => [.descriptor, .sigSem]
  | .getConn _ _ => if s.hashed then [.descriptor, .name] else []
  | .pub p =>
      match s.pub p with
      | .idle | .mngrSend _ => []
      | .connPub | .readClient => [.descriptor]
      | .sendMessage client => if client then [.client] else []
  | .proc =>
      match s.proc with
      | .check | .recheck | .free | .flushFree | .done => []
      | .wait => [.descriptor, .sigSem]
      | .pop | .flush => [.descriptor, .sigQ]
      | .popping | .flushing => [.sigQ]
      | .handle => [.descriptor]
  | .del =>
      match s.del with
      | .lock | .unlock | .done => []
      | .find => if s.hashed then [.descriptor, .name] else []
      | .join | .hashDel => [.descriptor]
      | .semDestroy => [.descriptor, .sigSem]
      | .spscqFree => [.descriptor, .sigQ]
      | .clientDestroy => if s.client then [.descriptor, .client] else [.descriptor]
      | .freeName => [.descriptor, .name]
      | .freeTopics => [.descriptor, .topics]
      | .freeBinUplPath => [.descriptor, .binUplPath]
      | .freeConn => [.descriptor]

/-- The messages that `spscq_push` accepted: the ones that are published. -/
def accepted (s : Conn π) : List RxData := s.sigQ.accepted.take s.sigQ.published

/-- The message that the proc thread has popped and not yet disposed of. -/
def held (s : Conn π) : List RxData :=
  match s.proc with
  | .handle | .flushFree => s.data.toList
  | .popping | .flushing =>
      match s.sigQ.pop with
      | .bump _ | .publish => s.data.toList
      | _ => []
  | _ => []

/-- The action uses no part that was released. -/
def UsesLive (s : Conn π) (a : Act π) : Prop := ∀ part ∈ s.uses a, part ∉ s.released

/-- Each accepted message was disposed of once, or the proc thread holds it or will
still find it in the queue. -/
def Accounted (s : Conn π) : Prop :=
  ∃ waiting, s.disposed.map Prod.fst ++ s.held ++ waiting = s.accepted ∧
    (s.proc = .done → s.held ++ waiting = [])

end Conn

end Umink.Mqtt
