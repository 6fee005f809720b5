import Mathlib.Logic.Function.Basic
import Umink.Library.Trace

/-!
# Shutdown of the MQTT connections

`mqtt_mngr_process_conns` takes the lock of the connection manager and, under
it, has `mqtt_term` join the processing thread of every connection. A processing
thread runs the scripts of `mqtt:RX`, and a script that publishes has to take
the same lock in `mqtt_mngr_get_conn`.

## Implementation notes

A script is what it does in the run: any number of publishes and its return. A
publish whose arguments are refused takes no lock and is no step. The scripts
run one at a time, under the mutex of the signal `mqtt:RX`.
-/

namespace Umink.Mqtt

open Umink.Library

/-- The holders of the lock of the manager. -/
inductive Party where
  | term
  | proc (c : String)
  deriving DecidableEq, Repr

/-- Where `mqtt_mngr_process_conns` stands, with the connections that its loop still
has to visit: before the lock, at the loop, in `mqtt_mngr_del_conn` before and after
`pthread_join`. -/
inductive TermPc where
  | lock
  | iter (rest : List String)
  | join (c : String) (rest : List String)
  | del (c : String) (rest : List String)
  | done
  deriving DecidableEq, Repr

/-- How a script publishes: with `M.mqtt.publish` or with `M.cmd_call` and
`CMD_MQTT_PUBLISH`. -/
inductive Via where
  | mngrSend
  | connPub
  deriving DecidableEq, Repr

/-- Where a processing thread stands: in `mqtt_proc_thread`, at the mutex of the
signal, in the script, in `mqtt_mngr_get_conn` before and after the lock, and before
the message is sent. -/
inductive ThPc where
  | check
  | wait
  | recheck
  | pop
  | procSignal
  | script
  | getConn (name : String) (via : Via)
  | find (name : String) (via : Via)
  | send (name : String) (via : Via)
  | flush
  | done
  deriving DecidableEq, Repr

/-- The connection manager with the terminating thread and the processing threads. -/
structure Mngr where
  conns : List String
  mtx : Option Party
  terminating : Bool
  term : TermPc
  rxMtx : Option String
  th : String → ThPc
  queued : String → Nat

/-- The actions: a message is queued for a connection, the daemon begins to terminate,
and each thread takes its next step, in a script one that the script chooses. -/
inductive MngrAct where
  | deliver (c : String)
  | terminate
  | term
  | proc (c : String)
  | publish (c name : String) (via : Via)
  | ret (c : String)
  deriving DecidableEq, Repr

namespace Mngr

/-- The manager with a connection for each name, before anything was received. -/
def start (names : List String) : Mngr where
  conns := names
  mtx := none
  terminating := false
  term := .lock
  rxMtx := none
  th := fun c => if c ∈ names then .check else .done
  queued := fun _ => 0

def setTh (s : Mngr) (c : String) (pc : ThPc) : Mngr := { s with th := Function.update s.th c pc }

/-- The step of the terminating thread. -/
def termStep (s : Mngr) : Option Mngr :=
  match s.term with
  | .lock =>
      -- `umd_loop` returns when the daemon terminates
      if s.terminating ∧ s.mtx = none then
        some { s with mtx := some .term, term := .iter s.conns }
      else none
  | .iter [] => some { s with mtx := none, term := .done }
  | .iter (c :: rest) => some { s with term := if c ∈ s.conns then .join c rest else .iter rest }
  | .join c rest => if s.th c = .done then some { s with term := .del c rest } else none
  | .del c rest => some { s with conns := s.conns.erase c, term := .iter rest }
  | .done => none

/-- The step of a processing thread, outside its script. -/
def thStep (s : Mngr) (c : String) : Option Mngr :=
  match s.th c with
  | .check => some (s.setTh c (if s.terminating then .flush else .wait))
  | .wait => some (s.setTh c .recheck)
  | .recheck => some (s.setTh c (if s.terminating then .flush else .pop))
  | .pop =>
      if s.queued c = 0 then some (s.setTh c .check)
      else
        some { s.setTh c .procSignal with
          queued := Function.update s.queued c (s.queued c - 1) }
  | .procSignal =>
      if s.rxMtx = none then some { s.setTh c .script with rxMtx := some c } else none
  | .script => none
  | .getConn name via =>
      if s.mtx = none then some { s.setTh c (.find name via) with mtx := some (.proc c) } else none
  | .find name via =>
      some { s.setTh c (if name ∈ s.conns then .send name via else .script) with mtx := none }
  | .send _ _ => some (s.setTh c .script)
  | .flush =>
      if s.queued c = 0 then some (s.setTh c .done)
      else some { s with queued := Function.update s.queued c (s.queued c - 1) }
  | .done => none

/-- One action, refused where the thread that takes it has to wait. -/
def step (s : Mngr) (a : MngrAct) : Option Mngr :=
  match a with
  | .deliver c => some { s with queued := Function.update s.queued c (s.queued c + 1) }
  | .terminate => some { s with terminating := true }
  | .term => s.termStep
  | .proc c => s.thStep c
  | .publish c name via =>
      if s.th c = .script then some (s.setTh c (.getConn name via)) else none
  | .ret c =>
      if s.th c = .script then some { s.setTh c .check with rxMtx := none } else none

end Mngr

/-- In `mqtt_mngr_get_conn`, without the lock. -/
def ThPc.Waits : ThPc → Prop
  | .getConn _ _ => True
  | _ => False

/-- In `mqtt_mngr_get_conn`, with the lock. -/
def ThPc.Holds : ThPc → Prop
  | .find _ _ => True
  | _ => False

/-- In the loop of `mqtt_mngr_process_conns`, with the lock. -/
def TermPc.Holds : TermPc → Prop
  | .iter _ | .join _ _ | .del _ _ => True
  | .lock | .done => False

/-- In `pthread_join` for the thread of the connection. -/
def TermPc.Joins (c : String) : TermPc → Prop
  | .join d _ => d = c
  | _ => False

theorem TermPc.Joins.holds {c : String} {pc : TermPc} (h : pc.Joins c) : pc.Holds := by
  cases pc with
  | join d rest => trivial
  | lock => exact h.elim
  | iter rest => exact h.elim
  | del d rest => exact h.elim
  | done => exact h.elim

instance : (pc : ThPc) → Decidable pc.Waits
  | .getConn _ _ => .isTrue trivial
  | .check | .wait | .recheck | .pop | .procSignal | .script | .find _ _ | .send _ _ | .flush
  | .done => .isFalse id

instance (c : String) : (pc : TermPc) → Decidable (pc.Joins c)
  | .join d _ => inferInstanceAs (Decidable (d = c))
  | .lock | .iter _ | .del _ _ | .done => .isFalse id

namespace Mngr

/-- The terminating thread holds the lock and joins a thread that waits for it. -/
def Deadlocked (s : Mngr) (c : String) : Prop :=
  s.term.Joins c ∧ s.mtx = some .term ∧ (s.th c).Waits

instance (s : Mngr) (c : String) : Decidable (s.Deadlocked c) :=
  inferInstanceAs (Decidable (_ ∧ _ ∧ _))

/-- A script publishes while its thread is joined, or the terminating thread turns to a
thread that waits for the lock. -/
def Crosses (s : Mngr) : MngrAct → Prop
  | .publish c _ _ => s.term.Joins c
  | .term =>
      match s.term with
      | .iter (c :: _) => c ∈ s.conns ∧ (s.th c).Waits
      | _ => False
  | _ => False

section Steps

variable {s t : Mngr} {a : MngrAct}

/-- What an action does to the lock and to the threads. -/
inductive Effect (s t : Mngr) : MngrAct → Prop
  | quiet {a : MngrAct} (hpub : ∀ c name via, a ≠ .publish c name via) (hterm : a ≠ .term)
      (term : t.term = s.term) (mtx : t.mtx = s.mtx) (th : t.th = s.th) : Effect s t a
  | moved {a : MngrAct} (c : String) (pc : ThPc) (hpub : ∀ c name via, a ≠ .publish c name via)
      (hterm : a ≠ .term) (hfrom : ¬ (s.th c).Waits ∧ ¬ (s.th c).Holds)
      (hto : ¬ pc.Waits ∧ ¬ pc.Holds) (term : t.term = s.term) (mtx : t.mtx = s.mtx)
      (th : t.th = Function.update s.th c pc) : Effect s t a
  | asked (c name : String) (via : Via) (hfrom : s.th c = .script) (term : t.term = s.term)
      (mtx : t.mtx = s.mtx) (th : t.th = Function.update s.th c (.getConn name via)) :
      Effect s t (.publish c name via)
  | got (c name : String) (via : Via) (hfrom : (s.th c).Waits) (hfree : s.mtx = none)
      (term : t.term = s.term) (mtx : t.mtx = some (.proc c))
      (th : t.th = Function.update s.th c (.find name via)) : Effect s t (.proc c)
  | released (c : String) (pc : ThPc) (hfrom : (s.th c).Holds) (hto : ¬ pc.Waits ∧ ¬ pc.Holds)
      (term : t.term = s.term) (mtx : t.mtx = none) (th : t.th = Function.update s.th c pc) :
      Effect s t (.proc c)
  | locked (hfree : s.mtx = none) (term : t.term = .iter s.conns) (mtx : t.mtx = some .term)
      (th : t.th = s.th) (hfrom : s.term = .lock) : Effect s t .term
  | turned (c : String) (rest : List String) (hfrom : s.term = .iter (c :: rest))
      (hmem : c ∈ s.conns) (term : t.term = .join c rest) (mtx : t.mtx = s.mtx)
      (th : t.th = s.th) : Effect s t .term
  | walked (hfrom : s.term.Holds) (hto : t.term.Holds) (hjoin : ∀ c, ¬ t.term.Joins c)
      (hdone : ∀ c, s.term.Joins c → s.th c = .done)
      (hturn : ∀ c rest, s.term = .iter (c :: rest) → c ∉ s.conns)
      (mtx : t.mtx = s.mtx) (th : t.th = s.th) : Effect s t .term
  | unlocked (hfrom : s.term = .iter []) (term : t.term = .done) (mtx : t.mtx = none)
      (th : t.th = s.th) : Effect s t .term

theorem termStep_effect (h : s.termStep = some t) : Effect s t .term := by
  unfold termStep at h
  split at h
  case h_1 hpc =>
      split at h
      case isTrue hcond =>
          obtain rfl := Option.some.inj h
          exact .locked hcond.2 rfl rfl rfl hpc
      case isFalse => cases h
  case h_2 hpc =>
      obtain rfl := Option.some.inj h
      exact .unlocked hpc rfl rfl rfl
  case h_3 c rest hpc =>
      obtain rfl := Option.some.inj h
      by_cases hmem : c ∈ s.conns
      · exact .turned c rest hpc hmem (if_pos hmem) rfl rfl
      · refine .walked ?_ ?_ ?_ ?_ ?_ rfl rfl
        · simp only [hpc, TermPc.Holds]
        · simp only [if_neg hmem, TermPc.Holds]
        · simp only [if_neg hmem, TermPc.Joins, not_false_eq_true, implies_true]
        · simp only [hpc, TermPc.Joins, false_implies, implies_true]
        · intro d rest' hd
          rw [hpc] at hd
          injection hd with hd
          exact (List.cons.inj hd).1 ▸ hmem
  case h_4 c rest hpc =>
      split at h
      case isTrue hdone =>
          obtain rfl := Option.some.inj h
          refine .walked ?_ trivial (fun _ => id) ?_ ?_ rfl rfl
          · simp only [hpc, TermPc.Holds]
          · intro d hd
            simp only [hpc, TermPc.Joins] at hd
            exact hd ▸ hdone
          · simp only [hpc, reduceCtorEq, false_implies, implies_true]
      case isFalse => cases h
  case h_5 c rest hpc =>
      obtain rfl := Option.some.inj h
      refine .walked ?_ trivial (fun _ => id) ?_ ?_ rfl rfl
      · simp only [hpc, TermPc.Holds]
      · simp only [hpc, TermPc.Joins, false_implies, implies_true]
      · simp only [hpc, reduceCtorEq, false_implies, implies_true]
  case h_6 => cases h

theorem thStep_effect {c : String} (h : s.thStep c = some t) : Effect s t (.proc c) := by
  have hpub : ∀ d name via, MngrAct.proc c ≠ .publish d name via := by simp
  have hterm : MngrAct.proc c ≠ .term := by simp
  have hmoved : ∀ pc, s.th c = pc → ¬ pc.Waits → ¬ pc.Holds →
      ¬ (s.th c).Waits ∧ ¬ (s.th c).Holds := fun pc hpc hw hh => hpc ▸ ⟨hw, hh⟩
  unfold thStep at h
  split at h
  case h_1 hpc =>
      obtain rfl := Option.some.inj h
      refine .moved c _ hpub hterm (hmoved _ hpc id id) ?_ rfl rfl rfl
      split <;> exact ⟨id, id⟩
  case h_2 hpc =>
      obtain rfl := Option.some.inj h
      exact .moved c _ hpub hterm (hmoved _ hpc id id) ⟨id, id⟩ rfl rfl rfl
  case h_3 hpc =>
      obtain rfl := Option.some.inj h
      refine .moved c _ hpub hterm (hmoved _ hpc id id) ?_ rfl rfl rfl
      split <;> exact ⟨id, id⟩
  case h_4 hpc =>
      split at h <;> obtain rfl := Option.some.inj h
      all_goals exact .moved c _ hpub hterm (hmoved _ hpc id id) ⟨id, id⟩ rfl rfl rfl
  case h_5 hpc =>
      split at h
      case isTrue =>
          obtain rfl := Option.some.inj h
          exact .moved c _ hpub hterm (hmoved _ hpc id id) ⟨id, id⟩ rfl rfl rfl
      case isFalse => cases h
  case h_6 => cases h
  case h_7 name via hpc =>
      split at h
      case isTrue hfree =>
          obtain rfl := Option.some.inj h
          exact .got c name via (hpc ▸ trivial) hfree rfl rfl rfl
      case isFalse => cases h
  case h_8 name via hpc =>
      obtain rfl := Option.some.inj h
      refine .released c _ (hpc ▸ trivial) ?_ rfl rfl rfl
      split <;> exact ⟨id, id⟩
  case h_9 hpc =>
      obtain rfl := Option.some.inj h
      exact .moved c _ hpub hterm (hmoved _ hpc id id) ⟨id, id⟩ rfl rfl rfl
  case h_10 hpc =>
      split at h <;> obtain rfl := Option.some.inj h
      · exact .moved c _ hpub hterm (hmoved _ hpc id id) ⟨id, id⟩ rfl rfl rfl
      · exact .quiet hpub hterm rfl rfl rfl
  case h_11 => cases h

theorem step_effect (h : s.step a = some t) : Effect s t a := by
  cases a with
  | deliver c =>
      obtain rfl := Option.some.inj h
      exact .quiet (by simp) (by simp) rfl rfl rfl
  | terminate =>
      obtain rfl := Option.some.inj h
      exact .quiet (by simp) (by simp) rfl rfl rfl
  | term => exact termStep_effect h
  | proc c => exact thStep_effect h
  | publish c name via =>
      obtain ⟨hpc, h⟩ := Option.ite_none_right_eq_some.mp h
      obtain rfl := Option.some.inj h
      exact .asked c name via hpc rfl rfl rfl
  | ret c =>
      obtain ⟨hpc, h⟩ := Option.ite_none_right_eq_some.mp h
      obtain rfl := Option.some.inj h
      exact .moved c .check (by simp) (by simp) (hpc ▸ ⟨id, id⟩) ⟨id, id⟩ rfl rfl rfl

theorem of_update {P : ThPc → Prop} {th : String → ThPc} {c d : String} {pc : ThPc}
    (hpc : ¬ P pc) (h : P (Function.update th c pc d)) : d ≠ c ∧ P (th d) := by
  by_cases hdc : d = c
  · rw [hdc, Function.update_self] at h
    exact absurd h hpc
  · rw [Function.update_of_ne hdc] at h
    exact ⟨hdc, h⟩

/-- The lock is taken where its holders stand inside it. -/
structure Inv (s : Mngr) : Prop where
  term : s.term.Holds → s.mtx = some .term
  th : ∀ c, (s.th c).Holds → s.mtx = some (.proc c)

theorem inv_start (names : List String) : (start names).Inv where
  term := False.elim
  th c h := by
    simp only [start] at h
    split at h <;> cases h

theorem Inv.step (hI : s.Inv) (hst : s.step a = some t) : t.Inv := by
  cases step_effect hst with
  | quiet hpub hterm term mtx th => exact ⟨term ▸ mtx ▸ hI.term, th ▸ mtx ▸ hI.th⟩
  | moved c pc hpub hterm hfrom hto term mtx th =>
      refine ⟨term ▸ mtx ▸ hI.term, ?_⟩
      intro d hd
      rw [mtx]
      rw [th] at hd
      exact hI.th d (of_update hto.2 hd).2
  | asked c name via hfrom term mtx th =>
      refine ⟨term ▸ mtx ▸ hI.term, ?_⟩
      intro d hd
      rw [mtx]
      rw [th] at hd
      exact hI.th d (of_update id hd).2
  | got c name via hfrom hfree term mtx th =>
      constructor
      · intro h
        have hheld := hI.term (term ▸ h)
        rw [hfree] at hheld
        cases hheld
      · intro d hd
        rw [mtx]
        by_cases hdc : d = c
        · rw [hdc]
        · rw [th, Function.update_of_ne hdc] at hd
          have hheld := hI.th d hd
          rw [hfree] at hheld
          cases hheld
  | released c pc hfrom hto term mtx th =>
      have hmine := hI.th c hfrom
      constructor
      · intro h
        have hheld := hI.term (term ▸ h)
        rw [hmine] at hheld
        cases hheld
      · intro d hd
        rw [th] at hd
        obtain ⟨hdc, hd⟩ := of_update hto.2 hd
        have hheld := hI.th d hd
        rw [hmine] at hheld
        injection hheld with hheld
        injection hheld with hheld
        exact absurd hheld.symm hdc
  | locked hfree term mtx th hfrom =>
      refine ⟨fun _ => mtx, ?_⟩
      intro d hd
      have hheld := hI.th d (th ▸ hd)
      rw [hfree] at hheld
      cases hheld
  | turned c rest hfrom hmem term mtx th =>
      have hmine := hI.term (hfrom ▸ trivial)
      exact ⟨fun _ => mtx.trans hmine, fun d hd => mtx.trans (hI.th d (th ▸ hd))⟩
  | walked hfrom hto hjoin hdone hturn mtx th =>
      exact ⟨fun _ => mtx.trans (hI.term hfrom), fun d hd => mtx.trans (hI.th d (th ▸ hd))⟩
  | unlocked hfrom term mtx th =>
      have hmine := hI.term (hfrom ▸ trivial)
      constructor
      · intro h
        rw [term] at h
        exact h.elim
      · intro d hd
        have hheld := hI.th d (th ▸ hd)
        rw [hmine] at hheld
        cases hheld

/-- A step that does not cross the other thread leads into no deadlock. -/
theorem not_deadlocked_step (hno : ∀ c, ¬ s.Deadlocked c) (hC : ¬ s.Crosses a)
    (hst : s.step a = some t) (c : String) : ¬ t.Deadlocked c := by
  rintro ⟨hjoin, hmtx, hwaits⟩
  cases step_effect hst with
  | quiet hpub hterm term mtx th => exact hno c ⟨term ▸ hjoin, mtx ▸ hmtx, th ▸ hwaits⟩
  | moved d pc hpub hterm hfrom hto term mtx th =>
      rw [th] at hwaits
      exact hno c ⟨term ▸ hjoin, mtx ▸ hmtx, (of_update hto.1 hwaits).2⟩
  | asked d name via hfrom term mtx th =>
      rw [term] at hjoin
      by_cases hcd : c = d
      · exact hC (hcd ▸ hjoin)
      · rw [th, Function.update_of_ne hcd] at hwaits
        exact hno c ⟨hjoin, mtx ▸ hmtx, hwaits⟩
  | got d name via hfrom hfree term mtx th =>
      rw [mtx] at hmtx
      injection hmtx with hmtx
      cases hmtx
  | released d pc hfrom hto term mtx th =>
      rw [mtx] at hmtx
      cases hmtx
  | locked hfree term mtx th hfrom =>
      rw [term] at hjoin
      exact hjoin
  | turned d rest hfrom hmem term mtx th =>
      rw [term] at hjoin
      obtain rfl : d = c := hjoin
      apply hC
      simp only [Crosses, hfrom]
      exact ⟨hmem, th ▸ hwaits⟩
  | walked hfrom hto hjoins hdone hturn mtx th => exact hjoins c hjoin
  | unlocked hfrom term mtx th =>
      rw [term] at hjoin
      exact hjoin

theorem Crosses.cases (h : s.Crosses a) :
    (∃ c name via, a = .publish c name via ∧ s.term.Joins c) ∨
      ∃ c rest, a = .term ∧ s.term = .iter (c :: rest) ∧ c ∈ s.conns ∧ (s.th c).Waits := by
  cases a with
  | publish c name via => exact .inl ⟨c, name, via, rfl, h⟩
  | term =>
      simp only [Crosses] at h
      split at h
      case h_1 c rest hpc => exact .inr ⟨c, rest, rfl, hpc, h⟩
      case h_2 => cases h
  | deliver c => exact h.elim
  | terminate => exact h.elim
  | proc c => exact h.elim
  | ret c => exact h.elim

/-- A step that crosses the other thread is the beginning of a deadlock. -/
theorem deadlocked_of_crosses (hI : s.Inv) (hC : s.Crosses a) (hst : s.step a = some t) :
    ∃ c, t.Deadlocked c := by
  rcases hC.cases with ⟨c, name, via, rfl, hjoin⟩ | ⟨c, rest, rfl, hpc, hmem, hwaits⟩
  · have hmine := hI.term (TermPc.Joins.holds hjoin)
    cases step_effect hst with
    | quiet hpub hterm term mtx th => exact absurd rfl (hpub c name via)
    | moved d pc hpub hterm hfrom hto term mtx th => exact absurd rfl (hpub c name via)
    | asked _ _ _ hfrom term mtx th =>
        refine ⟨c, term ▸ hjoin, mtx.trans hmine, ?_⟩
        rw [th, Function.update_self]
        trivial
  · have hmine := hI.term (hpc ▸ trivial)
    cases step_effect hst with
    | quiet hpub hterm term mtx th => exact absurd rfl hterm
    | moved d pc hpub hterm hfrom hto term mtx th => exact absurd rfl hterm
    | locked hfree term mtx th hfrom =>
        rw [hpc] at hfrom
        cases hfrom
    | turned d rest' hfrom hmem' term mtx th =>
        rw [hpc] at hfrom
        injection hfrom with hfrom
        injection hfrom with hcd _
        refine ⟨c, ?_, mtx.trans hmine, th ▸ hwaits⟩
        rw [term, hcd]
        rfl
    | walked hfrom hto hjoin hdone hturn mtx th => exact absurd hmem (hturn c rest hpc)
    | unlocked hfrom term mtx th =>
        rw [hpc] at hfrom
        cases hfrom

/-- No action of any thread ends a deadlock. -/
theorem Deadlocked.step {c : String} (h : s.Deadlocked c) (hI : s.Inv)
    (hst : s.step a = some t) : t.Deadlocked c := by
  obtain ⟨hjoin, hmtx, hwaits⟩ := h
  have hother : ∀ d, ¬ (s.th d).Waits → c ≠ d := fun d hd hcd => hd (hcd ▸ hwaits)
  cases step_effect hst with
  | quiet hpub hterm term mtx th => exact ⟨term ▸ hjoin, mtx ▸ hmtx, th ▸ hwaits⟩
  | moved d pc hpub hterm hfrom hto term mtx th =>
      refine ⟨term ▸ hjoin, mtx ▸ hmtx, ?_⟩
      rw [th, Function.update_of_ne (hother d hfrom.1)]
      exact hwaits
  | asked d name via hfrom term mtx th =>
      refine ⟨term ▸ hjoin, mtx ▸ hmtx, ?_⟩
      rw [th, Function.update_of_ne (hother d (hfrom ▸ id))]
      exact hwaits
  | got d name via hfrom hfree term mtx th =>
      rw [hmtx] at hfree
      cases hfree
  | released d pc hfrom hto term mtx th =>
      have hheld := hI.th d hfrom
      rw [hmtx] at hheld
      cases hheld
  | locked hfree term mtx th hfrom =>
      rw [hmtx] at hfree
      cases hfree
  | turned d rest hfrom hmem term mtx th =>
      rw [hfrom] at hjoin
      exact hjoin.elim
  | walked hfrom hto hjoins hdone hturn mtx th =>
      rw [hdone c hjoin] at hwaits
      exact hwaits.elim
  | unlocked hfrom term mtx th =>
      rw [hfrom] at hjoin
      exact hjoin.elim

end Steps

section Runs

/-- A deadlock that a run has reached lasts, whatever the threads do. -/
theorem Deadlocked.forever {names : List String} {s t : Mngr} {c : String}
    (hs : Trace.Reachable Mngr.step (start names) s) (h : s.Deadlocked c) {as : List MngrAct}
    (hrun : Trace.exec Mngr.step s as = some t) : t.Deadlocked c := by
  have hI : s.Inv := hs.invariant (inv_start names) fun _ _ _ hI hst => hI.step hst
  have hboth : t.Inv ∧ t.Deadlocked c := Trace.exec_invariant
    (I := fun s => s.Inv ∧ s.Deadlocked c)
    (fun s a t h hst => ⟨h.1.step hst, h.2.step h.1 hst⟩) ⟨hI, h⟩ hrun
  exact hboth.2

/-- The runs in which no state is deadlocked are those in which no script publishes
while its thread is joined and the terminating thread turns to no thread that waits
for its lock. -/
theorem shutdown_deadlock_iff (names : List String) (as : List MngrAct) :
    Trace.Along step (fun s a _ => ¬ s.Crosses a) (start names) as ↔
      Trace.Along step (fun _ _ t => ∀ c, ¬ t.Deadlocked c) (start names) as := by
  apply Trace.along_iff_of_invariant (I := fun s => s.Inv ∧ ∀ c, ¬ s.Deadlocked c)
  · intro s a t hI hst
    constructor
    · intro hC
      exact not_deadlocked_step hI.2 hC hst
    · intro hno hC
      obtain ⟨c, hc⟩ := deadlocked_of_crosses hI.1 hC hst
      exact hno c hc
  · intro s a t hI hC hst
    exact ⟨hI.1.step hst, not_deadlocked_step hI.2 hC hst⟩
  · exact ⟨inv_start names, fun c h => h.1.elim⟩

/-- A message is processed when the daemon terminates; its script publishes after the
terminating thread has taken the lock. -/
def publishWhileJoined : List MngrAct :=
  [.deliver "conn", .proc "conn", .proc "conn", .proc "conn", .proc "conn", .proc "conn",
    .terminate, .term, .term, .publish "conn" "conn" .mngrSend]

/-- One connection and one publish reach a deadlock. -/
theorem publish_while_joined_deadlocks :
    ∃ s, Trace.exec step (start ["conn"]) publishWhileJoined = some s ∧ s.Deadlocked "conn" :=
  ⟨_, rfl, by decide⟩

end Runs

end Mngr

end Umink.Mqtt
