import Umink.Mqtt.Lifetime

/-!
# The hand-over of received messages

`mqtt_on_rx` queues a message and posts the semaphore afterwards, and
`mqtt_proc_thread` pops one message after each wait, whether the wait took a
token or not. Tokens and messages drift apart, but while the daemon runs there is
a token, or one about to be posted or still held, for every queued message.

## Implementation notes

A wait ends with a token when there is one, or without at any time. `took` is the
result of the last wait, which the source drops, and `arrived` records the
messages that the library delivered; no step reads them.
-/

namespace Umink.Mqtt

open Umink.Library Umink.Spscq

/-- A connection with the result of the last wait and the messages that arrived. -/
structure Handover (π : Type*) where
  conn : Conn π
  took : Bool
  arrived : List RxData

/-- The end of a wait, or another action of the connection. -/
inductive HandoverAct (π : Type*) where
  | wait (took : Bool)
  | act (a : Act π)

variable {π : Type*}

namespace Handover

/-- The proc thread is in `sem_timedwait`. -/
def Waits (s : Handover π) : Prop := s.conn.proc = .wait

instance (s : Handover π) : Decidable s.Waits := inferInstanceAs (Decidable (_ = _))

/-- The action is a step of the proc thread. -/
def isProc : Act π → Bool
  | .proc => true
  | _ => false

def start (n : QSize) (items : Nat → RxData) (name : String) (client : Bool) : Handover π :=
  ⟨.start n items name client, false, []⟩

/-- The message that arrives with an action. -/
def arrival (name : String) : Act π → List RxData
  | .deliver t payload =>
      if Conn.isBinTopic t then [] else [⟨cText t, cText payload, name⟩]
  | _ => []

/-- One action. -/
def step [DecidableEq π] (n : QSize) (s : Handover π) (a : HandoverAct π) : Option (Handover π) :=
  match a with
  | .wait took =>
      if s.Waits ∧ (took → 0 < s.conn.sigSem) then
        some { s with
          conn := { s.conn with sigSem := s.conn.sigSem - took.toNat, proc := .recheck }
          took := took }
      else none
  | .act a =>
      if s.Waits ∧ isProc a then none
      else
        (s.conn.step n a).map fun c =>
          { s with conn := c, arrived := s.arrived ++ arrival s.conn.name a }

/-- The number of messages in the queue. -/
def queued (s : Handover π) : Nat := s.conn.sigQ.published - s.conn.sigQ.popped.length

/-- The pushes that are done and not posted yet. -/
def posting (c : Conn π) : Nat := if c.rx = .post then 1 else 0

/-- The proc thread is between its wait and the load of a message. -/
def beforeLoad (c : Conn π) : Bool :=
  match c.proc, c.sigQ.pop with
  | .recheck, _ => true
  | .pop, _ => true
  | .popping, .load _ => true
  | _, _ => false

/-- The tokens that the proc thread holds: it took one and has not popped since. -/
def holding (took : Bool) (c : Conn π) : Nat := if took ∧ beforeLoad c then 1 else 0

/-- The held tokens follow from the place of the proc thread and of its pop. -/
theorem holding_congr {c c' : Conn π} (took : Bool) (hproc : c'.proc = c.proc)
    (hpop : c'.sigQ.pop = c.sigQ.pop) : holding took c' = holding took c := by
  have hbefore : beforeLoad c' = beforeLoad c := by
    unfold beforeLoad
    rw [hproc, hpop]
  unfold holding
  rw [hbefore]

/-- The messages that were handed to the signal. -/
def handed (s : Handover π) : List RxData :=
  (s.conn.disposed.filter fun d => d.2 = .handed).map Prod.fst

/-- The message that `mqtt_on_rx` works on until it is stored in the queue. -/
def inflight (c : Conn π) : List RxData :=
  match c.rx with
  | .build t payload => [⟨cText t, cText payload, c.name⟩]
  | .push eD => [eD]
  | _ =>
      match c.sigQ.push with
      | .store _ item _ => [item]
      | _ => []

section Balance

variable {n : QSize} {c c' : Conn π}

/-- A step of the receive thread publishes a message when it comes to its post, and only
then, and posts once. -/
theorem rxStep_balance (hf : c.sigQ.Flushes) (h : c.rxStep n = some c') :
    c'.sigQ.published + c.sigSem + posting c = c.sigQ.published + c'.sigSem + posting c' := by
  cases Conn.rxStep_effect hf h with
  | build hrx | queueFull hrx => simp [posting, hrx]
  | room hrx hq hpush hacc hpub | full hrx hq hpush hacc hpub => simp [posting, hrx, hpub]
  | store hrx hp hq hpush hacc hpub | bump hrx hp hq hpush hacc hpub => simp [posting, hrx, hpub]
  | publish hrx hp hq hpush hacc hpub =>
      simp [posting, hrx, hpub]
      omega
  | post hrx =>
      simp [posting, hrx]
      omega

/-- A step of the receive thread stores the message that it works on or drops it. -/
theorem rxStep_inflight (hf : c.sigQ.Flushes) (h : c.rxStep n = some c') :
    (c'.sigQ.accepted ++ inflight c').Sublist (c.sigQ.accepted ++ inflight c) := by
  cases Conn.rxStep_effect hf h with
  | build hrx | queueFull hrx | post hrx => simp [inflight, hrx]
  | room hrx hq hpush hacc hpub | full hrx hq hpush hacc hpub => simp [inflight, hrx, hpush, hacc]
  | _ hrx hp hq hpush hacc hpub => simp [inflight, hrx, hp, hpush, hacc]

/-- The proc thread is in its loop. -/
def looping : ProcPc → Bool
  | .flush | .flushing | .flushFree | .done => false
  | _ => true

/-- What a step of the proc thread outside its wait does while the daemon runs: it pops
a message or keeps its token, unless it finds the queue empty. -/
structure ProcStepped (c c' : Conn π) : Prop where
  published : c'.sigQ.published = c.sigQ.published
  sigSem : c'.sigSem = c.sigSem
  accepted : c'.sigQ.accepted = c.sigQ.accepted
  posting : posting c' = posting c
  inflight : inflight c' = inflight c
  inLoop : looping c'.proc
  handed : (∀ d ∈ c.disposed, d.2 = .handed) → ∀ d ∈ c'.disposed, d.2 = .handed
  popped : c'.sigQ.published ≤ c'.sigQ.popped.length ∨
    ∀ took, c.sigQ.popped.length + holding took c ≤ c'.sigQ.popped.length + holding took c'

/-- A step that leaves the queue alone. -/
theorem ProcStepped.of_proc {proc : ProcPc} {disposed : List (RxData × Disposal)}
    (hloop : looping proc)
    (hdisposed : (∀ d ∈ c.disposed, d.2 = .handed) → ∀ d ∈ disposed, d.2 = .handed)
    (hhold : beforeLoad c → beforeLoad { c with proc := proc }) :
    ProcStepped c { c with proc := proc, disposed := disposed } where
  published := rfl
  sigSem := rfl
  accepted := rfl
  posting := rfl
  inflight := rfl
  inLoop := hloop
  handed := hdisposed
  popped := Or.inr fun took => by
    have hsame : beforeLoad { c with proc := proc, disposed := disposed } =
        beforeLoad { c with proc := proc } := rfl
    apply Nat.add_le_add_left
    unfold holding
    rw [hsame]
    split
    · next h => rw [if_pos ⟨h.1, hhold h.2⟩]
    · exact Nat.zero_le _

/-- A step that makes a half-step of `spscq_pop`. -/
theorem ProcStepped.of_pop {a : HalfStep RxData} {q : Pair RxData} {proc : ProcPc}
    {data : Option RxData} (ha : ¬ a.isPush) (hq : c.sigQ.step n a = some q)
    (hloop : looping proc)
    (hpopped : q.published ≤ q.popped.length ∨ ∀ took, c.sigQ.popped.length + holding took c ≤
      q.popped.length + holding took { c with sigQ := q, proc := proc }) :
    ProcStepped c { c with sigQ := q, data := data, proc := proc } := by
  obtain ⟨hpush, hacc, hpub⟩ := Pair.pop_frame ha hq
  refine ⟨hpub, rfl, hacc, rfl, ?_, hloop, fun h => h, hpopped⟩
  simp only [Handover.inflight, hpush]

theorem procStep_stepped (hqueue : Pair.Inv n c.sigQ) (hrun : c.terminating = false)
    (hloop : looping c.proc) (hwait : c.proc ≠ .wait) (h : c.procStep n = some c') :
    ProcStepped c c' := by
  unfold Conn.procStep at h
  cases hproc : c.proc with
  | check =>
      simp only [hproc] at h
      rw [if_neg (by simp [hrun])] at h
      obtain rfl := Option.some.inj h
      exact .of_proc rfl (fun h => h) (by simp [beforeLoad, hproc])
  | wait => exact absurd hproc hwait
  | recheck =>
      simp only [hproc] at h
      rw [if_neg (by simp [hrun])] at h
      obtain rfl := Option.some.inj h
      exact .of_proc rfl (fun h => h) (by simp [beforeLoad])
  | pop =>
      simp only [hproc, Conn.popStart, Option.map_eq_some_iff] at h
      obtain ⟨q, hq, rfl⟩ := h
      obtain ⟨-, -, hpub⟩ := Pair.pop_frame (by decide) hq
      obtain ⟨hpopped, hcases⟩ := Pair.popReadHead_cases hqueue hq
      rcases hcases with ⟨last, hready, hdrained⟩ | ⟨nextTail, hload⟩
      · simp only [hready]
        refine .of_pop (a := .popReadHead) (by decide) hq rfl (Or.inl ?_)
        rw [hpub, hpopped, hdrained]
      · simp only [hload]
        refine .of_pop (a := .popReadHead) (by decide) hq rfl (Or.inr fun took => ?_)
        simp [holding, beforeLoad, hproc, hload, hpopped]
  | popping =>
      simp only [hproc] at h
      cases Conn.popNext_effect h with
      | load hp hq hpop hpopped =>
          refine .of_pop (a := .popLoad) (by decide) hq rfl (Or.inr fun took => ?_)
          -- the popped message is the one that the token was for
          have hle : holding took c ≤ 1 := by
            unfold holding
            split <;> decide
          rw [hpopped, List.length_append, List.length_singleton]
          omega
      | bump hp hq hpop hpopped =>
          refine .of_pop (a := .popBump) (by decide) hq rfl (Or.inr fun took => ?_)
          simp [holding, beforeLoad, hproc, hp, hpopped]
      | got hp ha hq hpop hpopped =>
          refine .of_pop ha hq rfl (Or.inr fun took => ?_)
          rcases hp with ⟨nextTail, hp⟩ | hp <;> simp [holding, beforeLoad, hproc, hp, hpopped]
  | handle =>
      obtain rfl : _ = c' := by simpa [hproc] using h
      refine .of_proc rfl (fun h d hd => ?_) (by simp [beforeLoad, hproc])
      rcases List.mem_append.mp hd with hold | hnew
      · exact h d hold
      · obtain ⟨eD, -, rfl⟩ := List.mem_map.mp hnew
        rfl
  | free =>
      obtain rfl : _ = c' := by simpa [hproc] using h
      exact .of_proc rfl (fun h => h) (by simp [beforeLoad, hproc])
  | flush => simp [looping, hproc] at hloop
  | flushing => simp [looping, hproc] at hloop
  | flushFree => simp [looping, hproc] at hloop
  | done => simp [looping, hproc] at hloop

/-- A daemon that terminates does not run again. -/
theorem step_terminating [DecidableEq π] {a : Act π} (hterm : c.terminating = true)
    (h : c.step n a = some c') : c'.terminating = true := by
  cases Conn.step_framed h with
  | terminate => rfl
  | _ => exact hterm

end Balance

/-- The invariant of the hand-over while the daemon runs. -/
structure Inv (n : QSize) (s : Handover π) : Prop where
  conn : Conn.Inv n s.conn
  inLoop : looping s.conn.proc
  handed : ∀ d ∈ s.conn.disposed, d.2 = .handed
  count : s.conn.sigQ.published ≤
    s.conn.sigQ.popped.length + s.conn.sigSem + posting s.conn + holding s.took s.conn
  order : (s.conn.sigQ.accepted ++ inflight s.conn).Sublist s.arrived

theorem inv_start (n : QSize) (items : Nat → RxData) (name : String) (client : Bool) :
    Inv n (start n items name client : Handover π) where
  conn := Conn.inv_start n items name client
  inLoop := rfl
  handed := by simp [start, Conn.start]
  count := Nat.zero_le _
  order := List.Sublist.refl _

section Steps

variable {n : QSize} {s t : Handover π}

theorem not_latePublish (hloop : looping s.conn.proc) (a : Act π) : ¬ s.conn.LatePublish a := by
  have hne : s.conn.proc ≠ .done := by
    intro hdone
    simp [looping, hdone] at hloop
  unfold Conn.LatePublish
  split
  · exact hne
  · exact not_false

/-- The end of a wait turns a token into one that is held, or leaves it. -/
theorem Inv.wait (h : Inv n s) {took : Bool} (hproc : s.conn.proc = .wait)
    (htook : took → 0 < s.conn.sigSem) :
    Inv n { s with
      conn := { s.conn with sigSem := s.conn.sigSem - took.toNat, proc := .recheck }
      took := took } where
  conn := h.conn.of_proc (by simp [hproc]) (by decide) (by simp [Conn.held, hproc])
  inLoop := rfl
  handed := h.handed
  count := by
    have hcount := h.count
    have hnone : holding s.took s.conn = 0 := by simp [holding, beforeLoad, hproc]
    rw [hnone] at hcount
    cases took with
    | false => simpa [holding, posting] using hcount
    | true =>
        have hpos := htook rfl
        simp only [holding, beforeLoad, posting, Bool.toNat_true] at hcount ⊢
        simp
        omega
  order := h.order

theorem Inv.deliver [DecidableEq π] (h : Inv n s) {tp payload : String} {c : Conn π}
    (hst : s.conn.step n (.deliver tp payload) = some c) :
    Inv n { s with
      conn := c, arrived := s.arrived ++ arrival s.conn.name (.deliver tp payload : Act π) } := by
  have hconn := h.conn.step (not_latePublish h.inLoop _) hst
  have hcount := h.count
  have horder := h.order
  simp only [Conn.step] at hst
  split at hst
  case isFalse => cases hst
  case isTrue hidle =>
      obtain rfl := Option.some.inj hst
      cases hbin : Conn.isBinTopic tp with
      | true =>
          simp only [hbin, if_true, arrival, List.append_nil] at hconn ⊢
          exact ⟨hconn, h.inLoop, h.handed, hcount, horder⟩
      | false =>
          simp only [hbin, Bool.false_eq_true, if_false, arrival] at hconn ⊢
          refine ⟨hconn, h.inLoop, h.handed, ?_, ?_⟩
          · have hpost : posting s.conn = 0 := by simp [posting, hidle.1]
            have hhold : holding s.took { s.conn with rx := .build tp payload } =
                holding s.took s.conn := holding_congr s.took rfl rfl
            rw [hpost, ← hhold] at hcount
            exact hcount
          · have hacc := (List.sublist_append_left _ _).trans horder
            exact hacc.append (List.Sublist.refl _)

theorem Inv.rx (h : Inv n s) {c : Conn π} (hst : s.conn.rxStep n = some c) :
    Inv n { s with conn := c } := by
  have hconn := h.conn.rxStep (not_latePublish h.inLoop _) hst
  have hbalance := rxStep_balance h.conn.flushes hst
  have horder := (rxStep_inflight h.conn.flushes hst).trans h.order
  have hcount := h.count
  obtain ⟨hproc, hdisposed, hpop, hpopped⟩ : c.proc = s.conn.proc ∧
      c.disposed = s.conn.disposed ∧ c.sigQ.pop = s.conn.sigQ.pop ∧
      c.sigQ.popped = s.conn.sigQ.popped := by
    obtain ⟨q, rx, sem, rfl, hq, -, -⟩ := Conn.rxStep_cases h.conn.flushes hst
    rcases hq with rfl | ⟨a, ha, hq⟩
    · exact ⟨rfl, rfl, rfl, rfl⟩
    · exact ⟨rfl, rfl, Pair.push_frame ha hq⟩
  exact {
    conn := hconn
    inLoop := hproc ▸ h.inLoop
    handed := hdisposed ▸ h.handed
    count := by
      rw [← holding_congr s.took hproc hpop, ← hpopped] at hcount
      show c.sigQ.published ≤ c.sigQ.popped.length + c.sigSem + posting c + holding s.took c
      omega
    order := horder }

theorem Inv.proc (h : Inv n s) (hrun : s.conn.terminating = false) (hwait : s.conn.proc ≠ .wait)
    {c : Conn π} (hst : s.conn.procStep n = some c) : Inv n { s with conn := c } := by
  have hstep := procStep_stepped h.conn.queue hrun h.inLoop hwait hst
  refine ⟨h.conn.procStep hst, hstep.inLoop, hstep.handed h.handed, ?_, ?_⟩
  · have hcount := h.count
    simp only [hstep.sigSem, hstep.posting]
    rcases hstep.popped with hdrained | hpopped
    · omega
    · have htook := hpopped s.took
      rw [hstep.published]
      omega
  · simp only [hstep.accepted, hstep.inflight]
    exact h.order

theorem Inv.step [DecidableEq π] (h : s.conn.terminating = false → Inv n s)
    {a : HandoverAct π} (hst : s.step n a = some t) : t.conn.terminating = false → Inv n t := by
  intro hrun'
  cases a with
  | wait took =>
      simp only [Handover.step] at hst
      split at hst
      · next hwait =>
        obtain rfl := Option.some.inj hst
        exact (h hrun').wait hwait.1 hwait.2
      · cases hst
  | act a =>
      simp only [Handover.step] at hst
      split at hst
      · cases hst
      · next hfree =>
        obtain ⟨c, hc, rfl⟩ := Option.map_eq_some_iff.mp hst
        have hrun : s.conn.terminating = false := by
          by_contra hterm
          rw [Bool.not_eq_false] at hterm
          simp [step_terminating hterm hc] at hrun'
        have hinv := h hrun
        have hconn := hinv.conn.step (not_latePublish hinv.inLoop _) hc
        cases Conn.step_framed hc with
        | deliver rx => exact hinv.deliver hc
        | rx => simpa only [arrival, List.append_nil] using hinv.rx hc
        | proc =>
            have hwait : s.conn.proc ≠ .wait := fun hproc => hfree ⟨hproc, rfl⟩
            simpa only [arrival, List.append_nil] using hinv.proc hrun hwait hc
        | _ =>
            simp only [arrival, List.append_nil]
            exact ⟨hconn, hinv.inLoop, hinv.handed, hinv.count, hinv.order⟩

/-- The invariant holds as long as the daemon runs. -/
theorem Inv.of_reachable [DecidableEq π] {items : Nat → RxData} {name : String}
    {client : Bool} (hs : Trace.Reachable (Handover.step n) (start n items name client) s) :
    s.conn.terminating = false → Inv n s :=
  hs.invariant (I := fun s => s.conn.terminating = false → Inv n s)
    (fun _ => inv_start n items name client) (fun _ _ _ h hst => Inv.step h hst)

theorem Inv.queued_le (h : Inv n s) :
    s.queued ≤ s.conn.sigSem + posting s.conn + holding s.took s.conn := by
  have hcount := h.count
  unfold queued
  omega

/-- A thread that waits holds no token, so a queued message has one in the semaphore or
one about to come. -/
theorem Inv.wakes (h : Inv n s) (hwait : s.Waits) (hqueued : 0 < s.queued) :
    0 < s.conn.sigSem ∨ s.conn.rx = .post := by
  have hle := h.queued_le
  have hnone : holding s.took s.conn = 0 := by
    have hproc : s.conn.proc = .wait := hwait
    simp [holding, beforeLoad, hproc]
  by_cases hrx : s.conn.rx = .post
  · exact Or.inr hrx
  · have hpost : posting s.conn = 0 := if_neg hrx
    left
    omega

/-- The messages are handed over in the order in which they were queued. -/
theorem Inv.handed_prefix (h : Inv n s) : s.handed <+: s.conn.sigQ.accepted := by
  have hall : s.handed = s.conn.disposed.map Prod.fst := by
    unfold Handover.handed
    rw [List.filter_eq_self.mpr fun d hd => decide_eq_true (h.handed d hd)]
  obtain ⟨waiting, hwaiting, -⟩ := h.conn.accounted
  have haccepted : s.handed <+: s.conn.accepted := by
    rw [hall, ← hwaiting, List.append_assoc]
    exact List.prefix_append _ _
  exact haccepted.trans (List.take_prefix _ _)

end Steps

/-- In every state before termination, a queued message has a token of its own that is
posted, about to be posted or held by the proc thread, so that a thread that waits is
woken, and the messages are handed to the signal in the order of their arrival, each
accepted one at most once. -/
theorem no_lost_wakeup [DecidableEq π] {n : QSize} {items : Nat → RxData} {name : String}
    {client : Bool} {s : Handover π}
    (hs : Trace.Reachable (step n) (start n items name client) s)
    (hrun : s.conn.terminating = false) :
    s.queued ≤ s.conn.sigSem + posting s.conn + holding s.took s.conn ∧
      (s.Waits → 0 < s.queued → 0 < s.conn.sigSem ∨ s.conn.rx = .post) ∧
      s.handed <+: s.conn.sigQ.accepted ∧ s.conn.sigQ.accepted.Sublist s.arrived := by
  have h := Inv.of_reachable hs hrun
  exact ⟨h.queued_le, h.wakes, h.handed_prefix,
    (List.sublist_append_left _ _).trans h.order⟩

section Delivery

/-- A connection with a queue of 512 slots. -/
def idleConn : Handover Unit := ⟨Conn.plainConn, false, []⟩

/-- A message arrives while the proc thread waits. -/
def oneMessage : List (HandoverAct Unit) :=
  .act .proc :: .act (.deliver "t" "p") :: List.replicate 6 (.act .rx)

/-- The message has its token. -/
theorem one_message_wakes :
    ∃ s, Trace.exec (step ⟨9, le_rfl⟩) idleConn oneMessage = some s ∧ s.Waits ∧
      s.queued = 1 ∧ (0 < s.conn.sigSem ∨ s.conn.rx = .post) := by
  obtain ⟨s, hs, hwait, hrun, hqueued⟩ :
      ∃ s, Trace.exec (step ⟨9, le_rfl⟩) idleConn oneMessage = some s ∧ s.Waits ∧
        s.conn.terminating = false ∧ s.queued = 1 := ⟨_, rfl, rfl, rfl, rfl⟩
  have hpos : 0 < s.queued := by
    rw [hqueued]
    exact Nat.one_pos
  exact ⟨s, hs, hwait, hqueued, (no_lost_wakeup ⟨_, hs⟩ hrun).2.1 hwait hpos⟩

end Delivery

end Handover

end Umink.Mqtt
