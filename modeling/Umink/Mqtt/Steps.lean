import Umink.Mqtt.Connection
import Umink.Spscq.Flushing

/-!
# The steps of a connection

What an action changes, what the receive thread does from each of its places, and
what the rest of a call of `spscq_pop` does.
-/

namespace Umink.Mqtt

open Umink.Library Umink.Spscq

namespace Conn

variable {π : Type*} {n : QSize} {s t : Conn π}

/-- An action changes only what belongs to the party that takes it. -/
inductive Framed (s : Conn π) : Act π → Conn π → Prop
  | deliver {tp payload : String} (rx : RxPc) :
      Framed s (.deliver tp payload) { s with rx := rx }
  | rx (q : Pair RxData) (rx : RxPc) (sem : Nat) :
      Framed s .rx { s with sigQ := q, rx := rx, sigSem := sem }
  | getConn {p : π} {dsz : Option Nat} (pub : π → PubPc) :
      Framed s (.getConn p dsz) { s with pub := pub }
  | pub {p : π} (pub : π → PubPc) : Framed s (.pub p) { s with pub := pub }
  | proc (hne : s.proc ≠ .done) (q : Pair RxData) (sem : Nat) (data : Option RxData)
      (proc : ProcPc) (disposed : List (RxData × Disposal)) :
      Framed s .proc
        { s with sigQ := q, sigSem := sem, data := data, proc := proc, disposed := disposed }
  | del (pc : ShutPc) (client hashed : Bool) (released : List Part) :
      Framed s .del { s with del := pc, client := client, hashed := hashed, released := released }
  | terminate : Framed s .terminate { s with terminating := true }

theorem step_framed [DecidableEq π] {a : Act π} (h : s.step n a = some t) : Framed s a t := by
  cases a with
  | deliver tp payload =>
      simp only [step] at h
      split at h
      · obtain rfl := Option.some.inj h
        split
        · exact .deliver s.rx
        · exact .deliver _
      · cases h
  | rx =>
      simp only [step, rxStep] at h
      split at h
      · cases h
      · obtain rfl := Option.some.inj h
        exact .rx s.sigQ _ s.sigSem
      · obtain ⟨q, -, rfl⟩ := Option.map_eq_some_iff.mp h
        split <;> exact .rx q _ s.sigSem
      · obtain ⟨a, -, h⟩ := Option.bind_eq_some_iff.mp h
        obtain ⟨q, -, rfl⟩ := Option.map_eq_some_iff.mp h
        split <;> exact .rx q _ s.sigSem
      all_goals
        obtain rfl := Option.some.inj h
        exact .rx s.sigQ _ _
  | getConn p dsz =>
      simp only [step] at h
      split at h
      · obtain rfl := Option.some.inj h
        exact .getConn _
      · cases h
  | pub p =>
      simp only [step, pubStep] at h
      split at h
      · cases h
      all_goals
        obtain rfl := Option.some.inj h
        exact .pub _
  | proc =>
      have hne : s.proc ≠ .done := by
        intro hdone
        simp [step, procStep, hdone] at h
      simp only [step, procStep, popStart, popNext] at h
      split at h
      case h_4 | h_8 =>
        obtain ⟨q, -, rfl⟩ := Option.map_eq_some_iff.mp h
        split <;> exact .proc hne q s.sigSem s.data _ s.disposed
      case h_5 | h_9 =>
        obtain ⟨a, -, h⟩ := Option.bind_eq_some_iff.mp h
        obtain ⟨q, -, rfl⟩ := Option.map_eq_some_iff.mp h
        split <;> exact .proc hne q s.sigSem _ _ s.disposed
      case h_11 => cases h
      all_goals
        obtain rfl := Option.some.inj h
        exact .proc hne s.sigQ _ s.data _ _
  | del =>
      simp only [step, delStep] at h
      split at h
      case h_3 =>
        split at h
        · obtain rfl := Option.some.inj h
          exact .del _ s.client s.hashed s.released
        · cases h
      case h_13 => cases h
      all_goals
        obtain rfl := Option.some.inj h
        exact .del _ _ _ _
  | terminate =>
      obtain rfl := Option.some.inj h
      exact .terminate

/-- What the receive thread finds and does where it takes a step, given that it flushes
every message. -/
inductive RxEffect (n : QSize) (s : Conn π) : Conn π → Prop
  | build {tp payload : String} (hrx : s.rx = .build tp payload) :
      RxEffect n s { s with rx := .push ⟨cText tp, cText payload, s.name⟩ }
  | room {eD : RxData} {nextHead : Nat} {q : Pair RxData} (hrx : s.rx = .push eD)
      (hq : s.sigQ.step n (.pushReadTail 1 eD) = some q) (hpush : q.push = .store 1 eD nextHead)
      (hacc : q.accepted = s.sigQ.accepted) (hpub : q.published = s.sigQ.published) :
      RxEffect n s { s with sigQ := q, rx := .pushing eD }
  | full {eD : RxData} {last : Option (UInt8 × Nat)} {q : Pair RxData} (hrx : s.rx = .push eD)
      (hq : s.sigQ.step n (.pushReadTail 1 eD) = some q) (hpush : q.push = .ready last)
      (hacc : q.accepted = s.sigQ.accepted) (hpub : q.published = s.sigQ.published) :
      RxEffect n s { s with sigQ := q, rx := .queueFull }
  | store {eD item : RxData} {flushItem : UInt8} {nextHead : Nat} {q : Pair RxData}
      (hrx : s.rx = .pushing eD) (hp : s.sigQ.push = .store flushItem item nextHead)
      (hq : s.sigQ.step n .pushStore = some q) (hpush : q.push = .bump flushItem nextHead)
      (hacc : q.accepted = s.sigQ.accepted ++ [item]) (hpub : q.published = s.sigQ.published) :
      RxEffect n s { s with sigQ := q, rx := .pushing eD }
  | bump {eD : RxData} {flushItem : UInt8} {nextHead : Nat} {q : Pair RxData}
      (hrx : s.rx = .pushing eD) (hp : s.sigQ.push = .bump flushItem nextHead)
      (hq : s.sigQ.step n .pushBump = some q) (hpush : q.push = .publish flushItem)
      (hacc : q.accepted = s.sigQ.accepted) (hpub : q.published = s.sigQ.published) :
      RxEffect n s { s with sigQ := q, rx := .pushing eD }
  | publish {eD : RxData} {flushItem : UInt8} {last : Option (UInt8 × Nat)} {q : Pair RxData}
      (hrx : s.rx = .pushing eD) (hp : s.sigQ.push = .publish flushItem)
      (hq : s.sigQ.step n .pushPublish = some q) (hpush : q.push = .ready last)
      (hacc : q.accepted = s.sigQ.accepted) (hpub : q.published = s.sigQ.published + 1) :
      RxEffect n s { s with sigQ := q, rx := .post }
  | post (hrx : s.rx = .post) : RxEffect n s { s with sigSem := s.sigSem + 1, rx := .idle }
  | queueFull (hrx : s.rx = .queueFull) : RxEffect n s { s with rx := .idle }

theorem rxStep_effect (hf : s.sigQ.Flushes) (h : s.rxStep n = some t) : RxEffect n s t := by
  unfold rxStep at h
  cases hrx : s.rx with
  | idle => simp [hrx] at h
  | build tp payload =>
      obtain rfl : _ = t := by simpa [hrx] using h
      exact .build hrx
  | queueFull =>
      obtain rfl : _ = t := by simpa [hrx] using h
      exact .queueFull hrx
  | post =>
      obtain rfl : _ = t := by simpa [hrx] using h
      exact .post hrx
  | push eD =>
      simp only [hrx, Option.map_eq_some_iff] at h
      obtain ⟨q, hq, rfl⟩ := h
      cases Pair.step_effect hq with
      | readTail hp hroom => exact .room hrx hq rfl rfl rfl
      | full hp hfull => exact .full hrx hq rfl rfl rfl
  | pushing eD =>
      simp only [hrx, Option.bind_eq_some_iff, Option.map_eq_some_iff] at h
      obtain ⟨a, ha, q, hq, rfl⟩ := h
      cases hp : s.sigQ.push with
      | ready last => simp [hp, nextPush] at ha
      | store flushItem item nextHead =>
          obtain rfl : _ = a := by simpa [hp, nextPush] using ha
          have hst := hq
          simp only [Pair.step, hp, Option.some.injEq] at hst
          subst hst
          exact .store hrx hp hq rfl rfl rfl
      | bump flushItem nextHead =>
          obtain rfl : _ = a := by simpa [hp, nextPush] using ha
          simp only [Pair.Flushes, hp] at hf
          have hst := hq
          simp only [Pair.step, hp, if_pos (Or.inl hf.1 : flushItem ≠ 0 ∨ _),
            Option.some.injEq] at hst
          subst hst
          exact .bump hrx hp hq rfl rfl rfl
      | publish flushItem =>
          obtain rfl : _ = a := by simpa [hp, nextPush] using ha
          simp only [Pair.Flushes, hp] at hf
          have hst := hq
          simp only [Pair.step, hp, Option.some.injEq] at hst
          subst hst
          exact .publish hrx hp hq rfl rfl hf.symm

/-- What the rest of a call of `spscq_pop` does: the load takes the message into `data`,
and the call returns to `got` at once or after publishing the index. -/
inductive PopEffect (n : QSize) (s : Conn π) (more got : ProcPc) : Conn π → Prop
  | load {nextTail : Nat} {q : Pair RxData} (hp : s.sigQ.pop = .load nextTail)
      (hq : s.sigQ.step n .popLoad = some q) (hpop : q.pop = .bump nextTail)
      (hpopped : q.popped = s.sigQ.popped ++ [s.sigQ.queue.items nextTail]) :
      PopEffect n s more got
        { s with sigQ := q, data := some (s.sigQ.queue.items nextTail), proc := more }
  | bump {nextTail : Nat} {q : Pair RxData} (hp : s.sigQ.pop = .bump nextTail)
      (hq : s.sigQ.step n .popBump = some q) (hpop : q.pop = .publish)
      (hpopped : q.popped = s.sigQ.popped) :
      PopEffect n s more got { s with sigQ := q, proc := more }
  | got {a : HalfStep RxData} {last : Option Nat} {q : Pair RxData}
      (hp : (∃ nextTail, s.sigQ.pop = .bump nextTail) ∨ s.sigQ.pop = .publish) (ha : ¬ a.isPush)
      (hq : s.sigQ.step n a = some q) (hpop : q.pop = .ready last)
      (hpopped : q.popped = s.sigQ.popped) :
      PopEffect n s more got { s with sigQ := q, proc := got }

theorem popNext_effect {more got : ProcPc} (h : s.popNext n more got = some t) :
    PopEffect n s more got t := by
  simp only [popNext, popData, Option.bind_eq_some_iff, Option.map_eq_some_iff] at h
  obtain ⟨a, ha, q, hq, rfl⟩ := h
  cases hp : s.sigQ.pop with
  | ready last => simp [hp, nextPop] at ha
  | load nextTail =>
      obtain rfl : _ = a := by simpa [hp, nextPop] using ha
      have hst := hq
      simp only [Pair.step, hp, Option.some.injEq] at hst
      subst hst
      exact .load hp hq rfl rfl
  | bump nextTail =>
      obtain rfl : _ = a := by simpa [hp, nextPop] using ha
      have hst := hq
      simp only [Pair.step, hp] at hst
      split at hst <;> obtain rfl := Option.some.inj hst
      · exact .bump hp hq rfl rfl
      · exact .got (Or.inl ⟨_, hp⟩) (by decide) hq rfl rfl
  | publish =>
      obtain rfl : _ = a := by simpa [hp, nextPop] using ha
      have hst := hq
      simp only [Pair.step, hp, Option.some.injEq] at hst
      subst hst
      exact .got (Or.inr hp) (by decide) hq rfl rfl

end Conn

end Umink.Mqtt
