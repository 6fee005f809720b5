import Umink.Mqtt.Steps

/-!
# The lifetime of a connection

`mqtt_mngr_del_conn` joins the proc thread and then releases the connection part
by part, while the receive thread and the publishers go on. No part is used
after its release exactly when each of their steps comes before the release of
what it uses, and every accepted message is handed to the signal or freed once
exactly when none is published after the proc thread has ended.
-/

namespace Umink.Mqtt

open Umink.Library Umink.Spscq

namespace ShutPc

/-- The order of the steps of `mqtt_mngr_del_conn`. -/
def rank : ShutPc → Nat
  | .lock => 0
  | .find => 1
  | .join => 2
  | .semDestroy => 3
  | .spscqFree => 4
  | .hashDel => 5
  | .clientDestroy => 6
  | .freeName => 7
  | .freeTopics => 8
  | .freeBinUplPath => 9
  | .freeConn => 10
  | .unlock => 11
  | .done => 12

instance : LE ShutPc := ⟨fun a b => a.rank ≤ b.rank⟩

instance (a b : ShutPc) : Decidable (a ≤ b) := inferInstanceAs (Decidable (a.rank ≤ b.rank))

theorem le_trans {a b c : ShutPc} (h : a ≤ b) (h' : b ≤ c) : a ≤ c := Nat.le_trans h h'

/-- The parts that are released when a step comes next. -/
def released : ShutPc → List Part
  | .lock | .find | .join | .semDestroy => []
  | .spscqFree => [.sigSem]
  | .hashDel | .clientDestroy => [.sigSem, .sigQ]
  | .freeName => [.sigSem, .sigQ, .client]
  | .freeTopics => [.sigSem, .sigQ, .client, .name]
  | .freeBinUplPath => [.sigSem, .sigQ, .client, .name, .topics]
  | .freeConn => [.sigSem, .sigQ, .client, .name, .topics, .binUplPath]
  | .unlock | .done => [.sigSem, .sigQ, .client, .name, .topics, .binUplPath, .descriptor]

end ShutPc

/-- The step that releases a part. -/
def Part.releasedBy : Part → ShutPc
  | .sigSem => .semDestroy
  | .sigQ => .spscqFree
  | .client => .clientDestroy
  | .name => .freeName
  | .topics => .freeTopics
  | .binUplPath => .freeBinUplPath
  | .descriptor => .freeConn

/-- A part is live until the step that releases it. -/
theorem Part.notMem_released_iff {part : Part} {pc : ShutPc} :
    part ∉ pc.released ↔ pc ≤ part.releasedBy := by
  cases part <;> cases pc <;> decide

namespace Conn

variable {π : Type*} {n : QSize} {s t : Conn π}

/-- A step of the receive thread or of a publisher comes before the step of
`mqtt_mngr_del_conn` that releases what it uses. -/
def InTime (s : Conn π) (a : Act π) : Prop :=
  match a with
  | .rx =>
      match s.rx with
      | .idle => True
      | .build _ _ | .queueFull => s.del ≤ .freeName
      | .push _ | .pushing _ => s.del ≤ .spscqFree
      | .post => s.del ≤ .semDestroy
  | .pub p =>
      match s.pub p with
      | .idle | .mngrSend _ => True
      | .connPub | .readClient => s.del ≤ .freeConn
      | .sendMessage client => client → s.del ≤ .clientDestroy
  | _ => True

/-- The action publishes a message after the proc thread has ended. -/
def LatePublish (s : Conn π) (a : Act π) : Prop :=
  match a, s.rx, s.sigQ.push with
  | .rx, .pushing _, .publish _ => s.proc = .done
  | _, _, _ => False

/-- The invariant of the connection. -/
structure Inv (n : QSize) (s : Conn π) : Prop where
  queue : Pair.Inv n s.sigQ
  flushes : s.sigQ.Flushes
  popped : s.disposed.map Prod.fst ++ s.held = s.sigQ.popped
  drained : s.proc = .done → s.sigQ.popped.length = s.sigQ.published
  joined : s.proc = .done ∨ s.del ≤ .join
  hashed : s.hashed ↔ s.del ≤ .hashDel
  released : s.released = s.del.released

theorem inv_start (n : QSize) (items : Nat → RxData) (name : String) (client : Bool) :
    Inv n (start n items name client : Conn π) where
  queue := Pair.inv_start n items
  flushes := Pair.flushes_start n items
  popped := rfl
  drained := nofun
  joined := Or.inr (show ShutPc.lock ≤ .join by decide)
  hashed := iff_of_true rfl (show ShutPc.lock ≤ .hashDel by decide)
  released := rfl

/-- The messages that are popped but not held are disposed of, the others wait. -/
theorem Inv.accounted (h : Inv n s) : s.Accounted := by
  refine ⟨s.accepted.drop s.sigQ.popped.length, ?_, fun hdone => ?_⟩
  · have hle := h.queue.popped_le_published
    have htake : s.sigQ.popped = s.accepted.take s.sigQ.popped.length := by
      rw [accepted, List.take_take, Nat.min_eq_left hle]
      exact h.queue.popped_eq
    calc s.disposed.map Prod.fst ++ s.held ++ s.accepted.drop s.sigQ.popped.length
        = s.sigQ.popped ++ s.accepted.drop s.sigQ.popped.length := by rw [h.popped]
      _ = s.accepted.take s.sigQ.popped.length ++ s.accepted.drop s.sigQ.popped.length := by
          rw [← htake]
      _ = s.accepted := List.take_append_drop _ _
  · have hheld : s.held = [] := by simp [held, hdone]
    rw [hheld, List.nil_append, h.drained hdone, accepted]
    exact List.drop_eq_nil_of_le (List.length_take_le _ _)

/-- A step of the receive thread changes the queue by a half-step of the producer
and publishes only at the end of a push. -/
theorem rxStep_cases (hf : s.sigQ.Flushes) (h : s.rxStep n = some t) :
    ∃ q rx sem, t = { s with sigQ := q, rx := rx, sigSem := sem } ∧
      (q = s.sigQ ∨ ∃ a : HalfStep RxData, a.isPush ∧ s.sigQ.step n a = some q) ∧ q.Flushes ∧
      (q.published = s.sigQ.published ∨
        ∃ eD flushItem, s.rx = .pushing eD ∧ s.sigQ.push = .publish flushItem) := by
  cases rxStep_effect hf h with
  | build | post | queueFull => exact ⟨s.sigQ, _, _, rfl, Or.inl rfl, hf, Or.inl rfl⟩
  | room hrx hq hpush hacc hpub | full hrx hq hpush hacc hpub =>
      exact ⟨_, _, _, rfl, Or.inr ⟨_, rfl, hq⟩, (hf.pushReadTail (by decide) hq).1, Or.inl hpub⟩
  | store hrx hp hq hpush hacc hpub =>
      exact ⟨_, _, _, rfl, Or.inr ⟨_, rfl, hq⟩, (hf.pushStore hq).1, Or.inl hpub⟩
  | bump hrx hp hq hpush hacc hpub =>
      exact ⟨_, _, _, rfl, Or.inr ⟨_, rfl, hq⟩, (hf.pushBump hq).1, Or.inl hpub⟩
  | publish hrx hp hq hpush hacc hpub =>
      exact ⟨_, _, _, rfl, Or.inr ⟨_, rfl, hq⟩, Pair.flushes_of_pushPublish hq,
        Or.inr ⟨_, _, hrx, hp⟩⟩

/-- A step of the receive thread keeps the invariant unless it publishes late. -/
theorem Inv.rxStep (h : Inv n s) (hlate : ¬ LatePublish s (.rx : Act π))
    (hst : s.rxStep n = some t) : Inv n t := by
  obtain ⟨q, rx, sem, rfl, hq, hf, hpub⟩ := rxStep_cases h.flushes hst
  obtain ⟨hinv, hpop, hpopped⟩ : Pair.Inv n q ∧ q.pop = s.sigQ.pop ∧ q.popped = s.sigQ.popped := by
    rcases hq with rfl | ⟨a, ha, hq⟩
    · exact ⟨h.queue, rfl, rfl⟩
    · exact ⟨h.queue.step hq, Pair.push_frame ha hq⟩
  refine ⟨hinv, hf, ?_, fun hdone => ?_, h.joined, h.hashed, h.released⟩
  · have hheld : held { s with sigQ := q, rx := rx, sigSem := sem } = s.held := by
      simp only [held, hpop]
    rw [hheld, hpopped]
    exact h.popped
  · rcases hpub with hpub | ⟨eD, flushItem, hrx, hp⟩
    · simp only [hpopped, hpub]
      exact h.drained hdone
    · exact absurd (by simpa only [LatePublish, hrx, hp] using hdone) hlate

theorem not_done_of_popping {pc : ProcPc} (h : pc = .popping ∨ pc = .flushing) : pc ≠ .done := by
  rcases h with rfl | rfl <;> decide

/-- A call of `spscq_pop` keeps the invariant; the thread ends only when it has
popped every published message. -/
theorem Inv.popStart (h : Inv n s) {more empty : ProcPc} (hdel : s.del ≤ .join)
    (hheld : s.held = []) (hmore : more = .popping ∨ more = .flushing)
    (hempty : empty = .check ∨ empty = .done) (hst : s.popStart n more empty = some t) :
    Inv n t := by
  simp only [Conn.popStart, Option.map_eq_some_iff] at hst
  obtain ⟨q, hq, rfl⟩ := hst
  obtain ⟨hpush, hacc, hpub⟩ := Pair.pop_frame (by decide) hq
  obtain ⟨hpopped, hcases⟩ := Pair.popReadHead_cases h.queue hq
  have hall : s.disposed.map Prod.fst = q.popped := by
    rw [hpopped, ← h.popped, hheld, List.append_nil]
  rcases hcases with ⟨last, hready, hdrained⟩ | ⟨nextTail, hload⟩
  · simp only [hready]
    refine ⟨h.queue.step hq, h.flushes.of_pop (by decide) hq, ?_, fun _ => ?_, Or.inr hdel,
      h.hashed, h.released⟩
    · rcases hempty with rfl | rfl <;> simpa [held] using hall
    · simpa only [hpopped, hpub] using hdrained
  · simp only [hload]
    refine ⟨h.queue.step hq, h.flushes.of_pop (by decide) hq, ?_, ?_, Or.inr hdel,
      h.hashed, h.released⟩
    · rcases hmore with rfl | rfl <;> simpa [held, hload] using hall
    · exact fun hdone => absurd hdone (not_done_of_popping hmore)

/-- What the thread holds inside `spscq_pop`. -/
theorem held_of_popping (hproc : s.proc = .popping ∨ s.proc = .flushing) :
    s.held = match s.sigQ.pop with
      | .bump _ | .publish => s.data.toList
      | _ => [] := by
  rcases hproc with hproc | hproc <;> cases hpop : s.sigQ.pop <;> simp only [held, hproc, hpop]

/-- The rest of `spscq_pop` keeps the invariant: the load takes the message into
`data`. -/
theorem Inv.popNext (h : Inv n s) {more got : ProcPc} (hdel : s.del ≤ .join)
    (hproc : s.proc = .popping ∨ s.proc = .flushing) (hmore : more = .popping ∨ more = .flushing)
    (hgot : got = .handle ∨ got = .flushFree) (hst : s.popNext n more got = some t) : Inv n t := by
  have hprev := h.popped
  rw [held_of_popping hproc] at hprev
  cases popNext_effect hst with
  | load hp hq hpop hpopped =>
      simp only [hp, List.append_nil] at hprev
      refine ⟨h.queue.step hq, h.flushes.of_pop (by decide) hq, ?_, ?_, Or.inr hdel, h.hashed,
        h.released⟩
      · rcases hmore with rfl | rfl <;> simp [held, hpop, hpopped, hprev]
      · exact fun hdone => absurd hdone (not_done_of_popping hmore)
  | bump hp hq hpop hpopped =>
      simp only [hp] at hprev
      refine ⟨h.queue.step hq, h.flushes.of_pop (by decide) hq, ?_, ?_, Or.inr hdel, h.hashed,
        h.released⟩
      · rcases hmore with rfl | rfl <;> simp [held, hpop, hpopped, hprev]
      · exact fun hdone => absurd hdone (not_done_of_popping hmore)
  | got hp ha hq hpop hpopped =>
      have hdata : s.disposed.map Prod.fst ++ s.data.toList = s.sigQ.popped := by
        rcases hp with ⟨nextTail, hp⟩ | hp <;> simpa only [hp] using hprev
      have hne : got ≠ .done := by rcases hgot with rfl | rfl <;> decide
      refine ⟨h.queue.step hq, h.flushes.of_pop ha hq, ?_, ?_, Or.inr hdel, h.hashed,
        h.released⟩
      · rcases hgot with rfl | rfl <;> simp [held, hpopped, hdata]
      · exact fun hdone => absurd hdone hne

/-- A step of the proc thread that leaves the queue alone keeps the invariant if it
accounts for what the thread held. -/
theorem Inv.of_proc (h : Inv n s) (hne : s.proc ≠ .done) {proc : ProcPc} {sem : Nat}
    {disposed : List (RxData × Disposal)} (hproc : proc ≠ .done)
    (hheld : disposed.map Prod.fst ++ { s with proc := proc }.held =
      s.disposed.map Prod.fst ++ s.held) :
    Inv n { s with proc := proc, sigSem := sem, disposed := disposed } where
  queue := h.queue
  flushes := h.flushes
  popped := hheld.trans h.popped
  drained := fun hdone => absurd hdone hproc
  joined := Or.inr (h.joined.resolve_left hne)
  hashed := h.hashed
  released := h.released

theorem Inv.procStep (h : Inv n s) (hst : s.procStep n = some t) : Inv n t := by
  unfold Conn.procStep at hst
  have hdel (hne : s.proc ≠ .done) : s.del ≤ .join := h.joined.resolve_left hne
  cases hproc : s.proc with
  | check =>
      obtain rfl : _ = t := by simpa [hproc] using hst
      refine h.of_proc (by simp [hproc]) ?_ ?_
      · split <;> decide
      · split <;> simp [held, hproc]
  | wait =>
      obtain rfl : _ = t := by simpa [hproc] using hst
      exact h.of_proc (by simp [hproc]) (by decide) (by simp [held, hproc])
  | recheck =>
      obtain rfl : _ = t := by simpa [hproc] using hst
      refine h.of_proc (by simp [hproc]) ?_ ?_
      · split <;> decide
      · split <;> simp [held, hproc]
  | pop =>
      simp only [hproc] at hst
      exact h.popStart (hdel (by simp [hproc])) (by simp [held, hproc]) (Or.inl rfl) (Or.inl rfl)
        hst
  | popping =>
      simp only [hproc] at hst
      exact h.popNext (hdel (by simp [hproc])) (Or.inl hproc) (Or.inl rfl) (Or.inl rfl) hst
  | handle =>
      obtain rfl : _ = t := by simpa [hproc] using hst
      exact h.of_proc (by simp [hproc]) (by decide)
        (by simp [held, hproc, dispose, Function.comp_def])
  | free =>
      obtain rfl : _ = t := by simpa [hproc] using hst
      exact h.of_proc (by simp [hproc]) (by decide) (by simp [held, hproc])
  | flush =>
      simp only [hproc] at hst
      exact h.popStart (hdel (by simp [hproc])) (by simp [held, hproc]) (Or.inr rfl) (Or.inr rfl)
        hst
  | flushing =>
      simp only [hproc] at hst
      exact h.popNext (hdel (by simp [hproc])) (Or.inr hproc) (Or.inr rfl) (Or.inr rfl) hst
  | flushFree =>
      obtain rfl : _ = t := by simpa [hproc] using hst
      exact h.of_proc (by simp [hproc]) (by decide)
        (by simp [held, hproc, dispose, Function.comp_def])
  | done => simp [hproc] at hst

theorem Inv.of_del (h : Inv n s) {pc : ShutPc} {client hashed : Bool} {released : List Part}
    (hjoined : s.proc = .done ∨ pc ≤ .join) (hhashed : hashed ↔ pc ≤ .hashDel)
    (hreleased : released = pc.released) :
    Inv n { s with del := pc, client := client, hashed := hashed, released := released } where
  queue := h.queue
  flushes := h.flushes
  popped := h.popped
  drained := h.drained
  joined := hjoined
  hashed := hhashed
  released := hreleased

/-- `mqtt_mngr_del_conn` releases the parts in their order, after the proc thread has
ended. -/
theorem Inv.delStep (h : Inv n s) (hst : s.delStep = some t) : Inv n t := by
  have hrel := h.released
  have hjoined := h.joined
  have hhashed := h.hashed
  unfold Conn.delStep at hst
  cases hdel : s.del with
  | lock =>
      simp only [hdel, Option.some.injEq] at hst hrel hhashed
      subst hst
      exact h.of_del (Or.inr (by decide)) (hhashed.trans (by decide)) hrel
  | find =>
      simp only [hdel, Option.some.injEq] at hst hrel hhashed
      subst hst
      rw [if_pos (hhashed.mpr (by decide))]
      exact h.of_del (Or.inr (by decide)) (hhashed.trans (by decide)) hrel
  | join =>
      simp only [hdel] at hst hrel hhashed
      split at hst
      · next hdone =>
        obtain rfl := Option.some.inj hst
        exact h.of_del (Or.inl hdone) (hhashed.trans (by decide)) hrel
      · cases hst
  | done => simp [hdel] at hst
  | hashDel =>
      simp only [hdel, Option.some.injEq] at hst hrel hjoined
      subst hst
      exact h.of_del (Or.inl (hjoined.resolve_right (by decide))) (by decide) hrel
  | _ =>
      simp only [hdel, Option.some.injEq] at hst hrel hjoined hhashed
      subst hst
      refine h.of_del (Or.inl (hjoined.resolve_right (by decide))) (hhashed.trans (by decide)) ?_
      simp [hrel, ShutPc.released]

theorem Inv.step [DecidableEq π] (h : Inv n s) {a : Act π} (hlate : ¬ LatePublish s a)
    (hst : step n s a = some t) : Inv n t := by
  cases step_framed hst with
  | rx => exact h.rxStep hlate hst
  | proc => exact h.procStep hst
  | del => exact h.delStep hst
  | _ => exact { h with }

/-- The descriptor is released last. -/
theorem forall_descriptor_iff {pc : ShutPc} {part : Part} :
    (∀ part' ∈ [Part.descriptor, part], pc ≤ part'.releasedBy) ↔ pc ≤ part.releasedBy := by
  constructor
  · exact fun h => h part (by simp)
  · intro h part' hpart'
    rcases List.mem_cons.mp hpart' with rfl | hmem
    · exact ShutPc.le_trans h (by cases part <;> decide)
    · exact (List.mem_singleton.mp hmem).symm ▸ h

theorem Inv.usesLive_iff_le (h : Inv n s) {a : Act π} :
    s.UsesLive a ↔ ∀ part ∈ s.uses a, s.del ≤ part.releasedBy := by
  simp only [UsesLive, h.released, Part.notMem_released_iff]

/-- The proc thread uses only parts that are released after it was joined. -/
theorem Inv.usesLive_proc (h : Inv n s) : s.UsesLive (.proc : Act π) := by
  rw [h.usesLive_iff_le]
  intro part hpart
  have hne : s.proc ≠ .done := by
    intro hdone
    simp [uses, hdone] at hpart
  have hdel : s.del ≤ .join := h.joined.resolve_left hne
  exact ShutPc.le_trans hdel (by cases part <;> decide)

/-- `mqtt_mngr_del_conn` uses no part that it has released. -/
theorem Inv.usesLive_del (h : Inv n s) : s.UsesLive (.del : Act π) := by
  rw [h.usesLive_iff_le]
  cases hdel : s.del with
  | find =>
      cases hhashed : s.hashed
      · simp [uses, hdel, hhashed]
      · simp [uses, hdel, hhashed]
        decide
  | clientDestroy => cases hclient : s.client <;> simp [uses, hdel, hclient] <;> decide
  | lock => simp [uses, hdel]
  | unlock => simp [uses, hdel]
  | done => simp [uses, hdel]
  | _ =>
      simp [uses, hdel]
      decide

/-- An action uses live parts exactly if it comes before the release of what it
uses. -/
theorem Inv.usesLive_iff (h : Inv n s) {a : Act π} : s.UsesLive a ↔ s.InTime a := by
  cases a with
  | deliver tp payload => simp [UsesLive, uses, InTime]
  | terminate => simp [UsesLive, uses, InTime]
  | proc => exact iff_of_true h.usesLive_proc trivial
  | del => exact iff_of_true h.usesLive_del trivial
  | getConn p dsz =>
      refine iff_of_true (h.usesLive_iff_le.mpr fun part hpart => ?_) trivial
      simp only [uses] at hpart
      split at hpart
      · next hhashed =>
        have hname : s.del ≤ Part.name.releasedBy :=
          ShutPc.le_trans (h.hashed.mp hhashed) (by decide)
        exact forall_descriptor_iff.mpr hname part hpart
      · cases hpart
  | rx =>
      rw [h.usesLive_iff_le]
      cases hrx : s.rx with
      | idle => simp [uses, InTime, hrx]
      | pushing eD => simp [uses, InTime, hrx, Part.releasedBy]
      | _ =>
          simp only [uses, InTime, hrx]
          exact forall_descriptor_iff
  | pub p =>
      rw [h.usesLive_iff_le]
      cases hpub : s.pub p with
      | sendMessage client => cases client <;> simp [uses, InTime, hpub, Part.releasedBy]
      | _ => simp [uses, InTime, hpub, Part.releasedBy]

/-- A message that is published after the proc thread has ended is never disposed
of. -/
theorem Inv.not_accounted_of_late [DecidableEq π] (h : Inv n s) {a : Act π}
    (hlate : LatePublish s a) (hst : s.step n a = some t) : ¬ t.Accounted := by
  unfold LatePublish at hlate
  split at hlate
  · next eD flushItem hrx hp =>
    have hflushes := h.flushes
    simp only [Pair.Flushes, hp] at hflushes
    simp only [Conn.step, Conn.rxStep, hrx, nextPush, hp, Option.bind_some, Pair.step,
      Option.map_some, Option.some.injEq] at hst
    subst hst
    rintro ⟨waiting, hall, hnone⟩
    have hheld : s.held = [] := by simp [held, hlate]
    have hdisposed : s.disposed.map Prod.fst = s.sigQ.popped := by
      rw [← h.popped, hheld, List.append_nil]
    have hlost : s.sigQ.popped = s.sigQ.accepted := by
      rw [List.append_assoc, hnone hlate, List.append_nil] at hall
      simpa [accepted, hdisposed] using hall
    have hlen := congrArg List.length hlost
    rw [h.drained hlate] at hlen
    omega
  · exact hlate.elim

/-- Nothing is disposed of once the proc thread has ended. -/
theorem step_of_done [DecidableEq π] {a : Act π} (hdone : s.proc = .done)
    (hst : s.step n a = some t) : t.proc = .done ∧ t.disposed = s.disposed := by
  cases step_framed hst with
  | proc hne => exact absurd hdone hne
  | _ => exact ⟨hdone, rfl⟩

/-- What is not disposed of when the proc thread has ended never is. -/
theorem exec_of_done [DecidableEq π] {acts : List (Act π)} (hdone : s.proc = .done)
    (h : Trace.exec (step n) s acts = some t) : t.disposed = s.disposed := by
  have hrun : t.proc = .done ∧ t.disposed = s.disposed :=
    Trace.exec_invariant (I := fun u => u.proc = .done ∧ u.disposed = s.disposed)
      (fun u a v hu hst => ⟨(step_of_done hu.1 hst).1, (step_of_done hu.1 hst).2.trans hu.2⟩)
      ⟨hdone, rfl⟩ h
  exact hrun.2

/-- In every run, no party uses a part of the connection after its release and every
accepted message is handed to the signal or freed once, exactly when each step of
the receive thread and of a publisher comes before the release of what it uses and
no message is published after the proc thread has ended. -/
theorem lifetime_iff [DecidableEq π] (n : QSize) (items : Nat → RxData) (name : String)
    (client : Bool) (acts : List (Act π)) :
    Trace.Along (step n) (fun s a t => s.UsesLive a ∧ t.Accounted) (start n items name client)
        acts ↔
      Trace.Along (step n) (fun s a _ => s.InTime a ∧ ¬ LatePublish s a)
        (start n items name client) acts := by
  refine (Trace.along_iff_of_invariant (I := Inv n) ?_ ?_ (inv_start n items name client) acts).symm
  · intro s a t h hst
    rw [h.usesLive_iff]
    refine and_congr_right fun _ => ⟨fun hlate => ?_, fun hacc hlate => ?_⟩
    · exact (h.step hlate hst).accounted
    · exact h.not_accounted_of_late hlate hst hacc
  · exact fun s a t h hc hst => h.step hc.2 hst

section LateSteps

/-- A connection with a queue of 512 slots and one publisher. -/
def plainConn : Conn Unit := start ⟨9, le_rfl⟩ (fun _ => ⟨"", "", ""⟩) "conn" true

/-- The daemon terminates and the proc thread ends. -/
def endOfProc : List (Act Unit) := [.terminate, .proc, .proc]

/-- A message arrives after the end of the proc thread. -/
def lateMessage : List (Act Unit) :=
  endOfProc ++ .deliver "t" "p" :: List.replicate 6 .rx ++ List.replicate 12 .del

/-- A message arrives after the queue was released. -/
def messageAfterFree : List (Act Unit) :=
  endOfProc ++ List.replicate 5 .del ++ [.deliver "t" "p", .rx]

/-- A publisher has its handle while the connection is released. -/
def staleHandle : List (Act Unit) :=
  [.getConn () (some 1), .pub ()] ++ endOfProc ++ List.replicate 11 .del

/-- An accepted message is neither handed to the signal nor freed, a released queue is
pushed to, and a publisher reads the client of a released descriptor. -/
theorem late_steps_violate :
    (∃ s, Trace.exec (step ⟨9, le_rfl⟩) plainConn lateMessage = some s ∧
      s.del = .done ∧ s.rx = .idle ∧ s.accepted = [⟨"t", "p", "conn"⟩] ∧ s.disposed = [] ∧
      ¬ s.Accounted) ∧
    (∃ s t, Trace.exec (step ⟨9, le_rfl⟩) plainConn messageAfterFree = some s ∧
      s.step ⟨9, le_rfl⟩ .rx = some t ∧ ¬ s.UsesLive (.rx : Act Unit)) ∧
    (∃ s t, Trace.exec (step ⟨9, le_rfl⟩) plainConn staleHandle = some s ∧
      s.step ⟨9, le_rfl⟩ (.pub ()) = some t ∧ ¬ s.UsesLive (.pub () : Act Unit)) := by
  refine ⟨⟨_, rfl, rfl, rfl, by decide, rfl, ?_⟩, ⟨_, _, rfl, rfl, ?_⟩, ⟨_, _, rfl, rfl, ?_⟩⟩
  · rintro ⟨waiting, hall, hnone⟩
    have hall' : waiting = [⟨"t", "p", "conn"⟩] := hall
    have hnone' : waiting = [] := hnone rfl
    rw [hnone'] at hall'
    cases hall'
  · exact fun h => h .sigQ (by decide) (by decide)
  · exact fun h => h .descriptor (by decide) (by decide)

end LateSteps

end Conn

end Umink.Mqtt
