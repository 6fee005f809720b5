import Mathlib.Data.List.Basic
import Umink.Library.Trace

/-!
# CLI sessions and the end of the daemon

`th_cli_server` gives each client a detached thread of its own. The shutdown
joins the server and nobody joins the clients, which look at the terminating
flag between two scripts only.

## Implementation notes

A script takes any number of steps, each of which may use everything that the
functions of `M` use. A script may leave a finalizer in its Lua state, which then
runs as a script inside `lua_close`. The database managers are released with the
environment manager that holds them.
-/

namespace Umink.Lua.Cli

open Umink.Library

/-- What the shutdown releases: database managers, counters and plugin manager. -/
inductive Res where
  | dbm
  | perf
  | pm
  deriving DecidableEq, Repr

/-- Where `main` stands: in `umd_loop`, before `umplg_terminate_all(pm, 0)`, before each
part of `umlua_shutdown`, before `umplg_terminate_all(pm, 1)`, `umc_free_ctx`,
`umplg_free_mngr` and `umd_destroy`. -/
inductive MainPc where
  | loop
  | terminate0
  | joinServer
  | stopEnvs
  | freeDbm
  | terminate1
  | freeCtx
  | freeMngr
  | destroy
  | exited
  deriving DecidableEq, Repr

/-- Where `th_cli_server` stands. -/
inductive SrvPc where
  | check
  | poll
  | accept
  | done
  deriving DecidableEq, Repr

/-- Where a `th_cli_client` stands: at the copy of the environment manager's fields, in
`lua_env_setup`, in the parts of its loop and at its end. -/
inductive CliPc where
  | start
  | setup
  | check
  | poll
  | recv
  | load
  | run
  | close
  | done
  deriving DecidableEq, Repr

/-- A client thread; `fin` tells that a script left a finalizer in its Lua state. -/
structure Client where
  pc : CliPc
  fin : Bool
  deriving DecidableEq, Repr

structure Daemon where
  main : MainPc
  terminating : Bool
  srv : SrvPc
  clients : List Client

/-- The outcome of what a thread does next. -/
inductive CliEv where
  | next
  | timeout
  | fail
  | script
  | ret (fin : Bool)
  deriving DecidableEq, Repr

/-- The actions: SIGTERM, and the next step of each thread. -/
inductive CliAct where
  | sigterm
  | main
  | srv (ev : CliEv)
  | cli (i : Nat) (ev : CliEv)
  deriving DecidableEq, Repr

/-- What `main` has released before it comes to a place. -/
def MainPc.released : MainPc → List Res
  | .terminate1 => [.dbm]
  | .freeCtx => [.dbm]
  | .freeMngr => [.dbm, .perf]
  | .destroy => [.dbm, .perf, .pm]
  | .exited => [.dbm, .perf, .pm]
  | _ => []

/-- What a client uses in a step. -/
def CliPc.uses : CliPc → CliEv → List Res
  | .start, _ => [.dbm]
  | .setup, _ => [.pm]
  | _, .script => [.dbm, .perf, .pm]
  | _, _ => []

/-- The step of a client. -/
def Client.step (terminating : Bool) (c : Client) (ev : CliEv) : Option Client :=
  match c.pc, ev with
  | .start, .next => some { c with pc := .setup }
  | .setup, .next => some { c with pc := .check }
  | .check, .next => some { c with pc := if terminating then .close else .poll }
  | .poll, .next => some { c with pc := .recv }
  | .poll, .timeout => some { c with pc := .check }
  | .poll, .fail => some { c with pc := .close }
  | .recv, .next => some { c with pc := .load }
  | .recv, .fail => some { c with pc := .close }
  | .load, .next => some { c with pc := .run }
  | .load, .fail => some { c with pc := .close }
  | .run, .script => some c
  | .run, .ret fin => some ⟨.check, c.fin || fin⟩
  | .close, .script => if c.fin then some c else none
  | .close, .next => some { c with pc := .done }
  | _, _ => none

namespace Daemon

def start : Daemon := ⟨.loop, false, .check, []⟩

/-- The step of `main`. -/
def mainStep (s : Daemon) : Option Daemon :=
  match s.main with
  | .loop => if s.terminating then some { s with main := .terminate0 } else none
  | .terminate0 => some { s with main := .joinServer }
  | .joinServer => if s.srv = .done then some { s with main := .stopEnvs } else none
  | .stopEnvs => some { s with main := .freeDbm }
  | .freeDbm => some { s with main := .terminate1 }
  | .terminate1 => some { s with main := .freeCtx }
  | .freeCtx => some { s with main := .freeMngr }
  | .freeMngr => some { s with main := .destroy }
  | .destroy => some { s with main := .exited }
  | .exited => none

/-- The step of the server. -/
def srvStep (s : Daemon) (ev : CliEv) : Option Daemon :=
  match s.srv, ev with
  | .check, .next => some { s with srv := if s.terminating then .done else .poll }
  | .poll, .next => some { s with srv := .accept }
  | .poll, .timeout => some { s with srv := .check }
  | .poll, .fail => some { s with srv := .done }
  | .accept, .next => some { s with srv := .check, clients := s.clients ++ [⟨.start, false⟩] }
  | .accept, .fail => some { s with srv := .done }
  | _, _ => none

/-- The step of a client of the daemon. -/
def cliStep (s : Daemon) (i : Nat) (ev : CliEv) : Option Daemon := do
  let c ← s.clients[i]?
  let c ← c.step s.terminating ev
  some { s with clients := s.clients.set i c }

/-- One action; the threads end with the process. -/
def step (s : Daemon) (a : CliAct) : Option Daemon :=
  if s.main = .exited then
    none
  else
    match a with
    | .sigterm => some { s with terminating := true }
    | .main => s.mainStep
    | .srv ev => s.srvStep ev
    | .cli i ev => s.cliStep i ev

/-- A client uses what has been released, or runs a script without it. -/
def LateUse (s : Daemon) (a : CliAct) : Prop :=
  match a with
  | .cli i ev => ∃ c, s.clients[i]? = some c ∧ ∃ r ∈ c.pc.uses ev, r ∈ s.main.released
  | _ => False

end Daemon

/-- The client runs no script any more and uses nothing, once the daemon terminates. -/
def Client.Idle (c : Client) : Prop :=
  c.pc = .done ∨ c.fin = false ∧ (c.pc = .check ∨ c.pc = .close)

instance : DecidablePred Client.Idle := fun _ =>
  inferInstanceAs (Decidable (_ ∨ _ ∧ (_ ∨ _)))

namespace Daemon

def Quiet (s : Daemon) : Prop := ∀ c ∈ s.clients, c.Idle

instance : DecidablePred Quiet := fun s => List.decidableBAll Client.Idle s.clients

/-- `umlua_shutdown` releases the database managers only when all clients are idle. -/
def WaitsForClients (s : Daemon) (a : CliAct) : Prop := a = .main → s.main = .freeDbm → s.Quiet

instance (s : Daemon) (a : CliAct) : Decidable (s.WaitsForClients a) :=
  inferInstanceAs (Decidable (_ → _ → _))

variable {s t : Daemon} {a : CliAct}

/-- What one step of `main` does. -/
structure MainStepped (s t : Daemon) : Prop where
  others : t = { s with main := t.main }
  terminating : s.main = .loop → s.terminating = true ∧ t.main = .terminate0
  phase : s.main = .terminate0 → t.main = .joinServer
  joined : s.main = .joinServer → s.srv = .done
  released : t.main.released ≠ [] → s.main.released ≠ [] ∨ s.main = .freeDbm
  keeps : s.main.released ≠ [] → t.main.released ≠ []

theorem mainStep_stepped (h : s.mainStep = some t) : MainStepped s t := by
  unfold mainStep at h
  cases hmain : s.main with
  | loop =>
      rw [hmain] at h
      dsimp only at h
      split at h
      · next hflag =>
        obtain rfl := Option.some.inj h
        exact ⟨rfl, fun _ => ⟨hflag, rfl⟩, by simp [hmain], by simp [hmain],
          fun hrel => absurd rfl hrel, by simp [hmain, MainPc.released]⟩
      · cases h
  | joinServer =>
      rw [hmain] at h
      dsimp only at h
      split at h
      · next hdone =>
        obtain rfl := Option.some.inj h
        exact ⟨rfl, by simp [hmain], by simp [hmain], fun _ => hdone,
          fun hrel => absurd rfl hrel, by simp [hmain, MainPc.released]⟩
      · cases h
  | exited => simp [hmain] at h
  | _ =>
      rw [hmain] at h
      obtain rfl := Option.some.inj h
      exact ⟨rfl, by simp [hmain], by simp [hmain], by simp [hmain],
        by simp [hmain, MainPc.released], by simp [hmain, MainPc.released]⟩

theorem cliStep_eq_some_iff {i : Nat} {ev : CliEv} :
    s.cliStep i ev = some t ↔ ∃ c c', s.clients[i]? = some c ∧ c.step s.terminating ev = some c' ∧
      t = { s with clients := s.clients.set i c' } := by
  simp only [cliStep, Option.bind_eq_bind, Option.bind_eq_some_iff, Option.some.injEq]
  constructor
  · rintro ⟨c, hc, c', hc', rfl⟩
    exact ⟨c, c', hc, hc', rfl⟩
  · rintro ⟨c, c', hc, hc', rfl⟩
    exact ⟨c, hc, c', hc', rfl⟩

/-- What an action finds and changes. -/
inductive Effect (s : Daemon) : CliAct → Daemon → Prop
  | sigterm : Effect s .sigterm { s with terminating := true }
  | main {t : Daemon} (h : MainStepped s t) : Effect s .main t
  | srv {ev : CliEv} {srv : SrvPc} {clients : List Client} (hsrv : s.srv ≠ .done) :
      Effect s (.srv ev) { s with srv := srv, clients := clients }
  | cli {i : Nat} {ev : CliEv} {c c' : Client} (hc : s.clients[i]? = some c)
      (hc' : c.step s.terminating ev = some c') :
      Effect s (.cli i ev) { s with clients := s.clients.set i c' }

theorem step_effect (h : s.step a = some t) : Effect s a t := by
  unfold Daemon.step at h
  split at h
  case isTrue => cases h
  case isFalse =>
      cases a with
      | sigterm =>
          obtain rfl := Option.some.inj h
          exact .sigterm
      | main => exact .main (mainStep_stepped h)
      | srv ev =>
          dsimp only at h
          unfold srvStep at h
          split at h
          case h_7 => cases h
          all_goals
            next hsrv =>
            obtain rfl := Option.some.inj h
            exact .srv (by simp [hsrv])
      | cli i ev =>
          obtain ⟨c, c', hc, hc', rfl⟩ := cliStep_eq_some_iff.mp h
          exact .cli hc hc'

/-- An idle client of a terminating daemon stays idle and uses nothing. -/
theorem idle_step {c c' : Client} {ev : CliEv} (hidle : c.Idle) (h : c.step true ev = some c') :
    c'.Idle ∧ c.pc.uses ev = [] := by
  obtain ⟨pc, fin⟩ := c
  rcases hidle with hdone | ⟨hfin, hcheck | hclose⟩
  · dsimp only at hdone
    subst hdone
    simp [Client.step] at h
  · dsimp only at hfin hcheck
    subst hfin hcheck
    cases ev with
    | next =>
        obtain rfl := Option.some.inj h
        exact ⟨Or.inr ⟨rfl, Or.inr rfl⟩, rfl⟩
    | _ => simp [Client.step] at h
  · dsimp only at hfin hclose
    subst hfin hclose
    cases ev with
    | next =>
        obtain rfl := Option.some.inj h
        exact ⟨Or.inl rfl, rfl⟩
    | _ => simp [Client.step] at h

/-- What holds of the other threads when `main` is at a place. -/
structure Inv (s : Daemon) : Prop where
  terminating : s.main ≠ .loop → s.terminating = true
  srv : s.main ≠ .loop → s.main ≠ .terminate0 → s.main ≠ .joinServer → s.srv = .done

theorem inv_start : start.Inv where
  terminating h := absurd rfl h
  srv h := absurd rfl h

theorem Inv.mainStep (h : s.Inv) (hst : MainStepped s t) : t.Inv := by
  have hflag : t.terminating = s.terminating := by rw [hst.others]
  have hdone : t.srv = s.srv := by rw [hst.others]
  constructor
  · intro _
    rw [hflag]
    by_cases hloop : s.main = .loop
    · exact (hst.terminating hloop).1
    · exact h.terminating hloop
  · intro _ hphase hjoin
    rw [hdone]
    by_cases hjoining : s.main = .joinServer
    · exact hst.joined hjoining
    · exact h.srv (fun hloop => hphase (hst.terminating hloop).2)
        (fun hzero => hjoin (hst.phase hzero)) hjoining

theorem Inv.step (h : s.Inv) (hst : s.step a = some t) : t.Inv := by
  cases step_effect hst with
  | sigterm => exact ⟨fun _ => rfl, h.srv⟩
  | main hmain => exact h.mainStep hmain
  | srv hsrv => exact ⟨h.terminating, fun h₁ h₂ h₃ => absurd (h.srv h₁ h₂ h₃) hsrv⟩
  | cli hc hc' => exact ⟨h.terminating, h.srv⟩

theorem Inv.reachable (h : Trace.Reachable Daemon.step start s) : s.Inv :=
  Trace.Reachable.invariant h inv_start fun _ _ _ hs hst => Inv.step hs hst

/-- When something has been released, all clients are idle. -/
def QuietWhenReleased (s : Daemon) : Prop := s.main.released ≠ [] → s.Quiet

/-- What is released is released after the server was joined. -/
theorem Inv.of_released (h : s.Inv) (hrel : s.main.released ≠ []) :
    s.terminating = true ∧ s.srv = .done := by
  have hlate : s.main ≠ .loop ∧ s.main ≠ .terminate0 ∧ s.main ≠ .joinServer := by
    refine ⟨?_, ?_, ?_⟩ <;> exact fun hmain => hrel (by rw [hmain]; rfl)
  exact ⟨h.terminating hlate.1, h.srv hlate.1 hlate.2.1 hlate.2.2⟩

theorem released_step (hrel : s.main.released ≠ []) (hst : s.step a = some t) :
    t.main.released ≠ [] := by
  cases step_effect hst with
  | main hmain => exact hmain.keeps hrel
  | _ => exact hrel

/-- The database managers are released once. -/
theorem along_waitsForClients (hrel : s.main.released ≠ []) (acts : List CliAct) :
    Trace.Along Daemon.step (fun s a _ => s.WaitsForClients a) s acts := by
  induction acts generalizing s with
  | nil => trivial
  | cons a acts ih =>
      intro t hst
      refine ⟨fun _ hfree => ?_, ih (released_step hrel hst)⟩
      rw [hfree] at hrel
      exact absurd rfl hrel

theorem QuietWhenReleased.step (h : s.Inv) (hq : s.QuietWhenReleased)
    (hC : s.WaitsForClients a) (hst : s.step a = some t) : t.QuietWhenReleased := by
  cases step_effect hst with
  | sigterm => exact hq
  | main hmain =>
      intro hrel
      have hquiet : s.Quiet := by
        rcases hmain.released hrel with hbefore | hfree
        · exact hq hbefore
        · exact hC rfl hfree
      rw [hmain.others]
      exact hquiet
  | srv hsrv => exact fun hrel => absurd (h.of_released hrel).2 hsrv
  | cli hc hc' =>
      intro hrel
      rw [(h.of_released hrel).1] at hc'
      have hidle := (idle_step (hq hrel _ (List.mem_of_getElem? hc)) hc').1
      intro u hu
      rcases List.mem_or_eq_of_mem_set hu with hmem | rfl
      · exact hq hrel u hmem
      · exact hidle

/-- Idle clients use nothing late. -/
theorem QuietWhenReleased.not_lateUse (h : s.Inv) (hq : s.QuietWhenReleased)
    (hst : s.step a = some t) : ¬ s.LateUse a := by
  cases step_effect hst with
  | cli hc₀ hc' =>
      rintro ⟨c, hc, r, huse, hr⟩
      have hrel : s.main.released ≠ [] := List.ne_nil_of_mem hr
      obtain rfl := Option.some.inj (hc.symm.trans hc₀)
      rw [(h.of_released hrel).1] at hc'
      rw [(idle_step (hq hrel c (List.mem_of_getElem? hc)) hc').2] at huse
      cases huse
  | _ => exact not_false

/-- A run that makes the shutdown wait for the clients has no late use. -/
theorem along_not_lateUse (h : s.Inv) (hq : s.QuietWhenReleased) {acts : List CliAct}
    (hC : Trace.Along Daemon.step (fun s a _ => s.WaitsForClients a) s acts) :
    Trace.Along Daemon.step (fun s a _ => ¬ s.LateUse a) s acts := by
  induction acts generalizing s with
  | nil => trivial
  | cons a acts ih =>
      intro t hst
      obtain ⟨hwait, hrest⟩ := hC t hst
      exact ⟨hq.not_lateUse h hst, ih (h.step hst) (hq.step h hwait hst) hrest⟩

section Doomed

/-- Some run from here has a late use. -/
def Doomed (s : Daemon) : Prop :=
  ∃ acts, ¬ Trace.Along Daemon.step (fun s a _ => ¬ s.LateUse a) s acts

theorem Doomed.of_step (hst : s.step a = some t) (h : t.Doomed) : s.Doomed := by
  obtain ⟨acts, hacts⟩ := h
  exact ⟨a :: acts, fun hall => hacts (hall t hst).2⟩

theorem doomed_of_lateUse (hst : s.step a = some t) (h : s.LateUse a) : s.Doomed :=
  ⟨[a], fun hall => (hall t hst).1 h⟩

variable {i : Nat} {c c' : Client} {ev : CliEv}

theorem step_cli (hlive : s.main ≠ .exited) (hc : s.clients[i]? = some c)
    (hc' : c.step s.terminating ev = some c') :
    s.step (.cli i ev) = some { s with clients := s.clients.set i c' } := by
  rw [Daemon.step, if_neg hlive]
  exact cliStep_eq_some_iff.mpr ⟨c, c', hc, hc', rfl⟩

theorem getElem?_set (hc : s.clients[i]? = some c) (c' : Client) :
    (s.clients.set i c')[i]? = some c' :=
  List.getElem?_set_self (List.getElem?_eq_some_iff.mp hc).1

/-- The step of a client that leads to a doomed state. -/
theorem Doomed.of_cli (hlive : s.main ≠ .exited) (hc : s.clients[i]? = some c)
    (hc' : c.step s.terminating ev = some c')
    (h : Doomed { s with clients := s.clients.set i c' }) : s.Doomed :=
  h.of_step (step_cli hlive hc hc')

theorem doomed_of_cli (hlive : s.main ≠ .exited) (hc : s.clients[i]? = some c)
    (hc' : c.step s.terminating ev = some c') {r : Res} (huse : r ∈ c.pc.uses ev)
    (hr : r ∈ s.main.released) : s.Doomed :=
  doomed_of_lateUse (step_cli hlive hc hc') ⟨c, hc, r, huse, hr⟩

/-- A client that is not idle can come to a late use once the database managers are
released. The cases follow it to its next script, or to the use of the plugin manager
in its setup after `main` has released that. -/
theorem doomed_of_not_idle (hmain : s.main = .terminate1) (hflag : s.terminating = true)
    (hc : s.clients[i]? = some c) (hidle : ¬ c.Idle) : s.Doomed := by
  have hlive : s.main ≠ .exited := by simp [hmain]
  have hdbm : Res.dbm ∈ s.main.released := by simp [hmain, MainPc.released]
  -- the script runs
  have hrun : ∀ (s : Daemon) fin, s.main = .terminate1 →
      s.clients[i]? = some ⟨.run, fin⟩ → s.Doomed := fun s fin hmain hc =>
    @doomed_of_cli s i _ _ .script (by simp [hmain]) hc rfl .dbm (by simp [CliPc.uses])
      (by simp [hmain, MainPc.released])
  have hload : ∀ (s : Daemon) fin, s.main = .terminate1 →
      s.clients[i]? = some ⟨.load, fin⟩ → s.Doomed := fun s fin hmain hc =>
    @Doomed.of_cli s i _ _ .next (by simp [hmain]) hc rfl
      (hrun _ fin hmain (getElem?_set hc _))
  have hrecv : ∀ (s : Daemon) fin, s.main = .terminate1 →
      s.clients[i]? = some ⟨.recv, fin⟩ → s.Doomed := fun s fin hmain hc =>
    @Doomed.of_cli s i _ _ .next (by simp [hmain]) hc rfl
      (hload _ fin hmain (getElem?_set hc _))
  -- the finalizer runs
  have hclose : ∀ s : Daemon, s.main = .terminate1 →
      s.clients[i]? = some ⟨.close, true⟩ → s.Doomed := fun s hmain hc =>
    @doomed_of_cli s i _ _ .script (by simp [hmain]) hc rfl .dbm (by simp [CliPc.uses])
      (by simp [hmain, MainPc.released])
  obtain ⟨pc, fin⟩ := c
  cases pc with
  | start => exact @doomed_of_cli s i _ _ .next hlive hc rfl .dbm (by simp [CliPc.uses]) hdbm
  | setup =>
      let s₁ : Daemon := { s with main := .freeCtx }
      let s₂ : Daemon := { s with main := .freeMngr }
      let s₃ : Daemon := { s with main := .destroy }
      have h₁ : s.step .main = some s₁ := by simp [Daemon.step, mainStep, hmain, s₁]
      have h₂ : s₁.step .main = some s₂ := rfl
      have h₃ : s₂.step .main = some s₃ := rfl
      have huse : s₃.Doomed :=
        @doomed_of_cli s₃ i _ _ .next (by simp [s₃]) hc rfl .pm (by simp [CliPc.uses])
          (by simp [s₃, MainPc.released])
      exact ((huse.of_step h₃).of_step h₂).of_step h₁
  | check =>
      obtain rfl : fin = true := by simpa [Client.Idle] using hidle
      refine @Doomed.of_cli s i _ ⟨.close, true⟩ .next hlive hc ?_
        (hclose _ hmain (getElem?_set hc _))
      simp [Client.step, hflag]
  | poll =>
      exact @Doomed.of_cli s i _ _ .next hlive hc rfl (hrecv _ fin hmain (getElem?_set hc _))
  | recv => exact hrecv s fin hmain hc
  | load => exact hload s fin hmain hc
  | run => exact hrun s fin hmain hc
  | close =>
      obtain rfl : fin = true := by simpa [Client.Idle] using hidle
      exact hclose s hmain hc
  | done => exact absurd (Or.inl rfl) hidle

end Doomed

/-- No client uses anything after its release when `umlua_shutdown` releases the
database managers only while all clients are idle. Whenever it releases them
otherwise, some continuation of the run has a late use. -/
theorem cli_shutdown_iff (acts : List CliAct) :
    (Trace.Along Daemon.step (fun s a _ => s.WaitsForClients a) start acts →
      Trace.Along Daemon.step (fun s a _ => ¬ s.LateUse a) start acts) ∧
    ∀ s, Trace.exec Daemon.step start acts = some s → s.main = .freeDbm →
      ((∀ later, Trace.Along Daemon.step (fun s a _ => ¬ s.LateUse a) s (.main :: later)) ↔
        s.Quiet) := by
  refine ⟨along_not_lateUse inv_start fun hrel => absurd rfl hrel, ?_⟩
  intro s hs hmain
  have hinv := Inv.reachable ⟨acts, hs⟩
  let t : Daemon := { s with main := .terminate1 }
  have hst : s.step .main = some t := by simp [Daemon.step, mainStep, hmain, t]
  constructor
  · intro hall c hc
    by_contra hidle
    obtain ⟨i, hi⟩ := List.getElem?_of_mem hc
    have hflag : t.terminating = true := hinv.terminating (by simp [hmain])
    obtain ⟨later, hlater⟩ := doomed_of_not_idle (s := t) rfl hflag hi hidle
    exact hlater (hall later t hst).2
  · intro hquiet later t' hst'
    obtain rfl := Option.some.inj (hst.symm.trans hst')
    have hrel : t.main.released ≠ [] := by simp [t, MainPc.released]
    exact ⟨not_false, along_not_lateUse (hinv.step hst) (fun _ => hquiet)
      (along_waitsForClients hrel later)⟩

/-- A client that leaves before the daemon terminates. -/
theorem cli_shutdown_iff_closed :
    Trace.Along Daemon.step (fun s a _ => ¬ s.LateUse a) start
      [.srv .next, .srv .next, .srv .next, .cli 0 .next, .cli 0 .next, .cli 0 .next,
        .cli 0 .fail, .cli 0 .next, .sigterm, .srv .next, .main, .main, .main, .main, .main] :=
  (cli_shutdown_iff _).1 (by decide)

/-- A client that polls when the daemon terminates runs its script after the plugin
manager was released. -/
theorem late_script :
    ∃ s, Trace.exec Daemon.step start
        [.srv .next, .srv .next, .srv .next, .cli 0 .next, .cli 0 .next, .cli 0 .next,
          .sigterm, .srv .next, .main, .main, .main, .main, .main, .main, .main, .main,
          .cli 0 .next, .cli 0 .next, .cli 0 .next] = some s ∧
      s.main.released = [.dbm, .perf, .pm] ∧ s.LateUse (.cli 0 .script) ∧
      s.step (.cli 0 .script) = some s :=
  ⟨_, rfl, rfl, ⟨⟨.run, false⟩, rfl, .pm, by decide, by decide⟩, rfl⟩

end Daemon

end Umink.Lua.Cli
