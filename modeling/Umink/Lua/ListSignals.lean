import Umink.Lua.Loader
import Umink.Lua.SubModules

/-!
# The list of signals

`list_signals` of the ubus object lists the registered signals with the environments of their
scripts, and passes over those whose names begin with `@`.

## Implementation notes

The signals are registered as in the module about sub-modules, while setups and calls go on. A
handler of another plugin has no environment in its arguments.
-/

namespace Umink.Lua

open Umink.Library Umink.Plugin Fnmatch

/-- The table that `signal_match_cb` adds for a signal. -/
structure ListedSignal where
  name : String
  path : String
  interval : UInt32
  autoStart : Bool
  deriving DecidableEq

/-- The name begins with `@`. -/
def isSpecial (name : String) : Bool := name.toList.head? = some '@'

/-- The table of a signal of the configuration. -/
def listedSignal (sh : LuaSh) : ListedSignal :=
  ⟨sh.id, sh.args.env.path, sh.args.env.interval.toUInt32, sh.args.env.active⟩

/-- `signal_match_cb`; none when an environment is read that is not there. -/
def listMatchCb (sh : UmplgSh SigHandler) (b : List ListedSignal) : Option (List ListedSignal) :=
  -- skip special signals
  if isSpecial sh.id then some b
  else
    match sh.args with
    | .luaSigHndlrRun args => some (b ++ [listedSignal ⟨sh.id, sh.minAuthLvl, args⟩])
    | _ => none

/-- `list_signals`: the array of the reply. -/
def listSignals (signals : Signals SigHandler) : Option (List ListedSignal) :=
  umplgMatchSignal signals "*" listMatchCb []

/-- What an action registers. -/
def MAct.reg {τ : Type*} : MAct τ → Option (UmplgSh SigHandler)
  | .regLua sh => some (luaSh sh)
  | .regMqtt => some mqttSh
  | _ => none

/-- An action registers a signal of the name. -/
def MAct.registers {τ : Type*} (name : String) (a : MAct τ) : Bool :=
  a.reg.any fun sh => sh.id = name

/-- What is listed of a signal. -/
def listed (sh : UmplgSh SigHandler) : Option ListedSignal :=
  if isSpecial sh.id then none
  else
    match sh.args with
    | .luaSigHndlrRun args => some (listedSignal ⟨sh.id, sh.minAuthLvl, args⟩)
    | _ => none

section List

variable {signals : Signals SigHandler} {e : ListedSignal} {sh : UmplgSh SigHandler}

theorem listed_eq_some_iff :
    listed sh = some e ↔ ¬ isSpecial e.name ∧ ∃ l, sh = luaSh l ∧ listedSignal l = e := by
  unfold listed
  constructor
  · intro h
    obtain ⟨hspecial, h⟩ := Option.ite_none_left_eq_some.mp h
    obtain ⟨id, lvl, args⟩ := sh
    cases args with
    | luaSigHndlrRun args =>
        obtain rfl := Option.some.inj h
        exact ⟨hspecial, ⟨id, lvl, args⟩, rfl, rfl⟩
    | _ => cases h
  · rintro ⟨hspecial, l, rfl, rfl⟩
    exact if_neg hspecial

theorem fnmatch_all (id : String) : fnmatch "*" id = true := matchToks_star id.toList

/-- A handler that is known is listed or passed over. -/
theorem listMatchCb_eq (h : Known sh) (b : List ListedSignal) :
    listMatchCb sh b = some (b ++ (listed sh).toList) := by
  cases h with
  | core => exact congrArg some (List.append_nil b).symm
  | mqtt => exact congrArg some (List.append_nil b).symm
  | lua l =>
      unfold listMatchCb listed
      split_ifs with hspecial
      · exact congrArg some (List.append_nil b).symm
      · rfl

/-- The signals are listed in the order of the table. -/
theorem listSignals_eq (h : ∀ sh ∈ signals, Known sh) :
    listSignals signals = some (signals.filterMap listed) := by
  have hrun : ∀ b, umplgMatchSignal signals "*" listMatchCb b =
      some (b ++ signals.filterMap listed) := by
    induction signals with
    | nil => exact fun b => congrArg some (List.append_nil b).symm
    | cons sh signals ih =>
        intro b
        obtain ⟨hsh, hrest⟩ := List.forall_mem_cons.mp h
        rw [umplgMatchSignal, List.foldlM_cons, if_pos (fnmatch_all sh.id), listMatchCb_eq hsh]
        refine (ih hrest _).trans (congrArg some ?_)
        cases hlisted : listed sh with
        | none => rw [List.filterMap_cons_none hlisted, Option.toList_none, List.append_nil]
        | some e =>
            rw [List.filterMap_cons_some hlisted, Option.toList_some, List.append_assoc,
              List.singleton_append]
  exact hrun []

end List

section Runs

variable {τ : Type*} [DecidableEq τ] {s s' : MState τ} {a : MAct τ}

/-- The table after an action. -/
theorem signals_step (h : MInv s) (hst : s.step a = some s') :
    s'.signals = (a.reg.map (HashTable.addNew UmplgSh.id s.signals)).getD s.signals := by
  cases a with
  | regLua sh =>
      obtain rfl := Option.some.inj hst
      exact Loader.umplgRegSignal_eq_addNew s.signals (luaSh sh)
  | regMqtt =>
      obtain rfl := Option.some.inj hst
      exact Loader.umplgRegSignal_eq_addNew s.signals mqttSh
  | env =>
      obtain ⟨m, -, rfl⟩ := Option.map_eq_some_iff.mp hst
      rfl
  | signal t id usrFlags =>
      obtain rfl | ⟨-, m, -, rfl⟩ := step_signal_cases h hst
      · rfl
      · rfl
  | script t f =>
      obtain rfl := Option.some.inj hst
      rfl
  | envScript i f =>
      obtain rfl := Option.some.inj hst
      rfl

/-- The table after a run. -/
theorem signals_exec {acts : List (MAct τ)} (h : MInv s)
    (hexec : Trace.exec MState.step s acts = some s') :
    s'.signals = HashTable.addAll UmplgSh.id s.signals (acts.filterMap MAct.reg) := by
  induction acts generalizing s with
  | nil =>
      obtain rfl := Option.some.inj hexec
      rfl
  | cons a acts ih =>
      obtain ⟨t, hst, hrest⟩ := (Trace.exec_cons_iff ..).mp hexec
      rw [ih (step_kept h hst).1 hrest, signals_step h hst]
      cases hreg : a.reg with
      | none =>
          rw [List.filterMap_cons_none hreg]
          rfl
      | some sh =>
          rw [List.filterMap_cons_some hreg, HashTable.addAll_cons]
          rfl

end Runs

theorem luaSh_injective : Function.Injective luaSh := by
  rintro ⟨id, lvl, args⟩ ⟨id', lvl', args'⟩ h
  obtain ⟨rfl, rfl, hargs⟩ := UmplgSh.mk.inj h
  obtain rfl : args = args' := SigHandler.luaSigHndlrRun.inj hargs
  rfl

/-- The first registration of a name. -/
theorem find?_reg {τ : Type*} (acts : List (MAct τ)) (l : LuaSh) :
    (acts.filterMap MAct.reg).find? (fun sh => sh.id = l.id) = some (luaSh l) ↔
      acts.find? (MAct.registers l.id) = some (.regLua l) := by
  rw [List.find?_filterMap, Option.bind_eq_some_iff]
  constructor
  · rintro ⟨a, hfind, hreg⟩
    refine hfind.trans (congrArg some ?_)
    cases a with
    | regLua sh => rw [luaSh_injective (Option.some.inj hreg)]
    | regMqtt => exact absurd (Option.some.inj hreg).symm (luaSh_ne_mqttSh l)
    | _ => cases hreg
  · exact fun hfind => ⟨.regLua l, hfind, rfl⟩

/-- Of two names the one that is registered first is registered by the earlier action. -/
theorem findIdx_registers_lt {τ : Type*} (acts : List (MAct τ)) {name name' : String}
    (h : (acts.filterMap MAct.reg).findIdx (fun sh => sh.id = name) <
      (acts.filterMap MAct.reg).findIdx fun sh => sh.id = name') :
    acts.findIdx (MAct.registers name) < acts.findIdx (MAct.registers name') := by
  induction acts with
  | nil => exact h
  | cons a acts ih =>
      cases hreg : a.reg with
      | none =>
          have hother : ∀ name, MAct.registers name a = false := fun name => by
            rw [MAct.registers, hreg, Option.any_none]
          rw [List.filterMap_cons_none hreg] at h
          rw [List.findIdx_cons, List.findIdx_cons, hother, hother]
          exact Nat.succ_lt_succ (ih h)
      | some sh =>
          have hthis : ∀ name, MAct.registers name a = decide (sh.id = name) := fun name => by
            rw [MAct.registers, hreg, Option.any_some]
          rw [List.filterMap_cons_some hreg, List.findIdx_cons, List.findIdx_cons] at h
          rw [List.findIdx_cons, List.findIdx_cons, hthis, hthis]
          cases hname' : decide (sh.id = name') with
          | true =>
              rw [hname'] at h
              exact absurd h (Nat.not_lt_zero _)
          | false =>
              rw [hname'] at h
              cases hname : decide (sh.id = name) with
              | true => exact Nat.succ_pos _
              | false =>
                  rw [hname] at h
                  exact Nat.succ_lt_succ (ih (Nat.lt_of_succ_lt_succ h))

theorem name_of_listed {sh : UmplgSh SigHandler} {e : ListedSignal} (h : listed sh = some e) :
    e.name = sh.id := by
  obtain ⟨-, l, rfl, rfl⟩ := listed_eq_some_iff.mp h
  rfl

/-- In every run `list_signals` answers with one table for every name of the configuration that
does not begin with `@`, in the order in which the names were registered first, with the path, the
interval modulo 2^32 and the start of the environment that did. -/
theorem list_signals_lists {τ : Type*} [DecidableEq τ] {acts : List (MAct τ)} {s : MState τ}
    (hexec : Trace.exec MState.step .start acts = some s) :
    ∃ list, listSignals s.signals = some list ∧
      (list.map ListedSignal.name).Nodup ∧
      (list.Pairwise fun e e' =>
        acts.findIdx (MAct.registers e.name) < acts.findIdx (MAct.registers e'.name)) ∧
      ∀ e, e ∈ list ↔ ¬ isSpecial e.name ∧
        ∃ sh, acts.find? (MAct.registers e.name) = some (.regLua sh) ∧ listedSignal sh = e := by
  have hinv : MInv s :=
    Trace.exec_invariant (fun _ _ _ hs hst => (step_kept hs hst).1) minv_start hexec
  have hsignals := signals_exec minv_start hexec
  obtain ⟨new, hnew, hgained⟩ := @HashTable.addAll_eq_append _ _ _ UmplgSh.id
    (MState.start : MState τ).signals (acts.filterMap MAct.reg)
  have hlist : s.signals.filterMap listed = new.filterMap listed := by
    rw [hsignals, hnew]
    rfl
  refine ⟨new.filterMap listed, (listSignals_eq hinv.known).trans (congrArg some hlist), ?_, ?_,
    fun e => ?_⟩
  · have hids : new.Pairwise fun sh sh' => sh.id ≠ sh'.id := List.pairwise_map.mp hgained.nodup
    refine List.pairwise_map.mpr (List.pairwise_filterMap.mpr (hids.imp ?_))
    intro sh sh' hne e he e' he'
    rw [name_of_listed he, name_of_listed he']
    exact hne
  · refine List.pairwise_filterMap.mpr (hgained.order.imp ?_)
    intro sh sh' hlt e he e' he'
    rw [name_of_listed he, name_of_listed he']
    exact findIdx_registers_lt acts hlt
  · rw [List.mem_filterMap]
    constructor
    · rintro ⟨sh, hmem, hlisted⟩
      obtain ⟨hspecial, l, rfl, rfl⟩ := listed_eq_some_iff.mp hlisted
      exact ⟨hspecial, l, (find?_reg acts l).mp ((hgained.mem_iff (luaSh l)).mp hmem).2, rfl⟩
    · rintro ⟨hspecial, l, hfind, rfl⟩
      refine ⟨luaSh l, (hgained.mem_iff (luaSh l)).mpr ⟨fun hmem => hspecial ?_, ?_⟩,
        listed_eq_some_iff.mpr ⟨hspecial, l, rfl, rfl⟩⟩
      · have hcore : l.id = coreSh.id := List.mem_singleton.mp hmem
        calc isSpecial l.id
          _ = isSpecial coreSh.id := congrArg isSpecial hcore
          _ = true := rfl
      · exact (find?_reg acts l).mpr hfind

/-- After the registration of one signal, and of another of its name, the first is listed. -/
theorem list_signals_lists_twice :
    ∃ list, listSignals (HashTable.addAll UmplgSh.id [coreSh]
        [luaSh (.basic "net" true), luaSh (.basic "net" false)]) = some list ∧
      listedSignal (.basic "net" true) ∈ list := by
  let acts : List (MAct Unit) := [.regLua (.basic "net" true), .regLua (.basic "net" false)]
  obtain ⟨s, hexec⟩ : ∃ s, Trace.exec MState.step .start acts = some s := ⟨_, rfl⟩
  obtain ⟨list, hlist, -, -, hmem⟩ := list_signals_lists hexec
  rw [signals_exec minv_start hexec] at hlist
  exact ⟨list, hlist, (hmem _).mpr ⟨by decide, _, rfl, rfl⟩⟩

end Umink.Lua
