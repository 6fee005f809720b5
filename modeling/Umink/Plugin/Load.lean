import Umink.Library.GrowArray
import Umink.Library.HashTable
import Umink.Library.Trace

/-!
# Loading plugins

`umplg_load` stores the descriptor of a plugin in a growing array and adds a
hook for each command of the plugin. A hook keeps the address of the descriptor
at the time of its load; `umplg_run` calls the handler it finds there.

## Implementation notes

The `init` handler of a plugin registers signals and leaves plugins and hooks
alone. That `realloc` moves the array when it grows is part of a load. The message
about a command that has a hook reads the list of commands behind `dlclose`.
-/

namespace Umink.Plugin

open Umink.Library

/-- What `dlsym` finds in a plugin file; `COMMANDS` ends at its first -1. -/
structure PlgFile (η : Type*) where
  regHooks : Option (List Int)
  init : Option η
  term : Option η
  cmdh : Option η
  cmdhL : Option η

/-- `umplgd_t`. -/
structure Umplgd (η : Type*) where
  name : String
  cmdh : η
  cmdhL : Option η
  termh : η
  terminated : Bool

/-- `umplg_hkd_t`. -/
structure UmplgHkd where
  id : Int
  plgp : ElemPtr

/-- The plugins and the hooks of `umplg_mngr_t`. -/
structure UmplgMngr (η : Type*) where
  plgs : GrowArray (Umplgd η)
  hooks : List UmplgHkd

/-- A call of `umplg_load`, with the file that `dlopen` gives. -/
structure LoadCall (η : Type*) where
  fpath : String
  file : Option (PlgFile η)
  moves : Bool

/-- What `umplg_load` does: return an address or NULL with the manager after it, or read
the commands of a file that is not mapped any more. -/
inductive LoadRes (η : Type*) where
  | ret (pdp : Option ElemPtr) (pm : UmplgMngr η)
  | unmapped

/-- What `umplg_run` does: return a code, call a handler with a descriptor, or read
through an address that is invalid. -/
inductive RunRes (η : Type*) where
  | ret (res : Int)
  | calls (handler : η) (plgp : ElemPtr)
  | invalid
  deriving DecidableEq

variable {η : Type*}

/-- The commands and the descriptor of a plugin that has all handlers it must have. -/
def LoadCall.resolve (c : LoadCall η) : Option (List Int × Umplgd η) :=
  match c.file with
  | some ⟨some regHooks, some _, some term, some cmdh, cmdhL⟩ =>
      some (regHooks.takeWhile (· ≠ -1), ⟨c.fpath, cmdh, cmdhL, term, false⟩)
  | _ => none

/-- The load registers the command. -/
def LoadCall.Registers (c : LoadCall η) (id : Int) : Prop := ∃ r, c.resolve = some r ∧ id ∈ r.1

namespace UmplgMngr

/-- The manager of `umplg_new_mngr`. -/
def new : UmplgMngr η := ⟨GrowArray.empty, []⟩

variable (pm : UmplgMngr η)

def findHook (id : Int) : Option UmplgHkd := HashTable.find UmplgHkd.id pm.hooks id

/-- `umplg_load`; `mapped` says whether the file stays mapped when the call closes it. -/
def umplgLoad (c : LoadCall η) (mapped : Bool) : LoadRes η :=
  match c.resolve with
  | none => .ret none pm
  | some (cmds, pd) =>
      if cmds.any fun id => (pm.findHook id).isSome then
        -- the message reads the command after the file is closed
        if mapped then .ret none pm else .unmapped
      else
        let plgs := pm.plgs.pushBack pd c.moves
        let pdp := plgs.back
        .ret (some pdp)
          ⟨plgs, cmds.foldl (fun hooks id => HashTable.add hooks ⟨id, pdp⟩) pm.hooks⟩

/-- `umplg_run`. -/
def umplgRun (cmdId : Int) (isLocal : Bool) : RunRes η :=
  match pm.findHook cmdId with
  | none => .ret 1
  | some hook =>
      match pm.plgs.deref hook.plgp with
      | none => .invalid
      | some pd =>
          if isLocal then
            match pd.cmdhL with
            | some cmdhL => .calls cmdhL hook.plgp
            | none => .ret (-1)
          else .calls pd.cmdh hook.plgp

/-- A successful load, which never looks at what is mapped. -/
def step (c : LoadCall η) : Option (UmplgMngr η) :=
  match pm.umplgLoad c false with
  | .ret (some _) pm' => some pm'
  | _ => none

/-- The command runs the handlers of the plugin of load number `k`, with its descriptor. -/
def Dispatches (id : Int) (k : Nat) (c : LoadCall η) : Prop :=
  ∃ cmds pd block, c.resolve = some (cmds, pd) ∧ pm.plgs.deref ⟨block, k⟩ = some pd ∧
    pm.umplgRun id false = .calls pd.cmdh ⟨block, k⟩ ∧
    pm.umplgRun id true =
      match pd.cmdhL with
      | some cmdhL => .calls cmdhL ⟨block, k⟩
      | none => .ret (-1)

/-- The load moves the array while there are hooks. -/
def Strands (c : LoadCall η) : Prop := pm.plgs.Full ∧ c.moves ∧ pm.hooks ≠ []

instance (c : LoadCall η) : Decidable (pm.Strands c) :=
  inferInstanceAs (Decidable (_ ∧ _ ∧ ¬ _ = []))

/-- Every hook that is found has the address of a descriptor in the array. -/
def Valid : Prop := ∀ id hook, pm.findHook id = some hook → hook.plgp.block = pm.plgs.block

variable {pm} {t : UmplgMngr η} {c : LoadCall η}

theorem find_foldl_add (cmds : List Int) (pdp : ElemPtr) (hooks : List UmplgHkd) (id : Int) :
    HashTable.find UmplgHkd.id
        (cmds.foldl (fun hooks id => HashTable.add hooks ⟨id, pdp⟩) hooks) id =
      if id ∈ cmds then some ⟨id, pdp⟩ else HashTable.find UmplgHkd.id hooks id := by
  induction cmds generalizing hooks with
  | nil => simp
  | cons cmd cmds ih =>
      rw [List.foldl_cons, ih, HashTable.find_add]
      by_cases hmem : id ∈ cmds
      · rw [if_pos hmem, if_pos (List.mem_cons_of_mem cmd hmem)]
      · by_cases hcmd : cmd = id
        · rw [if_neg hmem, if_pos hcmd, if_pos (hcmd ▸ List.mem_cons_self), hcmd]
        · have hno : id ∉ cmd :: cmds := by
            intro h
            rcases List.mem_cons.mp h with rfl | h
            · exact hcmd rfl
            · exact hmem h
          rw [if_neg hmem, if_neg hcmd, if_neg hno]

/-- What a successful load does. -/
structure Loaded (s t : UmplgMngr η) (c : LoadCall η) (cmds : List Int) (pd : Umplgd η) :
    Prop where
  resolve : c.resolve = some (cmds, pd)
  free : ∀ id ∈ cmds, s.findHook id = none
  plgs : t.plgs = s.plgs.pushBack pd c.moves
  hooks : ∀ id, t.findHook id =
    if id ∈ cmds then some ⟨id, t.plgs.block, s.plgs.elems.length⟩ else s.findHook id

theorem loaded_of_step (h : pm.step c = some t) : ∃ cmds pd, Loaded pm t c cmds pd := by
  unfold step umplgLoad at h
  cases hres : c.resolve with
  | none =>
      rw [hres] at h
      cases h
  | some r =>
      obtain ⟨cmds, pd⟩ := r
      rw [hres] at h
      dsimp only at h
      by_cases hused : (cmds.any fun id => (pm.findHook id).isSome) = true
      · rw [if_pos hused] at h
        cases h
      · rw [if_neg hused] at h
        obtain rfl := Option.some.inj h
        refine ⟨cmds, pd, hres, ?_, rfl, ?_⟩
        · intro id hid
          by_contra hsome
          apply hused
          exact List.any_eq_true.mpr ⟨id, hid, Option.isSome_iff_ne_none.mpr hsome⟩
        · intro id
          rw [findHook, find_foldl_add, GrowArray.back_pushBack]
          rfl

/-- What the loads so far have left behind. -/
structure Inv (s : UmplgMngr η) (loads : List (LoadCall η)) : Prop where
  wf : s.plgs.Wf
  length : s.plgs.elems.length = loads.length
  block : ∀ id hook, s.findHook id = some hook → hook.plgp.block ≤ s.plgs.block
  elem : ∀ (k : Nat) (c : LoadCall η), loads[k]? = some c → ∃ cmds pd, c.resolve = some (cmds, pd) ∧
    s.plgs.elems[k]? = some pd
  hook : ∀ (k : Nat) (c : LoadCall η) id, loads[k]? = some c → c.Registers id →
    ∃ block, s.findHook id = some ⟨id, block, k⟩
  owner : ∀ id hook, s.findHook id = some hook →
    ∃ c : LoadCall η, loads[hook.plgp.idx]? = some c ∧ c.Registers id

theorem inv_new : (new : UmplgMngr η).Inv [] where
  wf := GrowArray.wf_empty
  length := rfl
  block id hook h := by cases h
  elem k c h := by simp at h
  hook k c id h := by simp at h
  owner id hook h := by cases h

theorem Inv.step {s : UmplgMngr η} {loads : List (LoadCall η)} (hI : s.Inv loads)
    (hst : s.step c = some t) : t.Inv (loads ++ [c]) := by
  obtain ⟨cmds, pd, hl⟩ := loaded_of_step hst
  have helems : t.plgs.elems = s.plgs.elems ++ [pd] := by rw [hl.plgs]; rfl
  have hreg : ∀ id, c.Registers id ↔ id ∈ cmds := by
    intro id
    simp [LoadCall.Registers, hl.resolve]
  have hlast : ∀ k c', (loads ++ [c])[k]? = some c' →
      loads[k]? = some c' ∨ k = loads.length ∧ c' = c := by
    intro k c' hk
    rcases Nat.lt_trichotomy k loads.length with hlt | heq | hgt
    · rw [List.getElem?_append_left hlt] at hk
      exact .inl hk
    · rw [heq, List.getElem?_concat_length] at hk
      exact .inr ⟨heq, (Option.some.inj hk).symm⟩
    · rw [List.getElem?_eq_none (by simp; omega)] at hk
      cases hk
  refine ⟨?_, ?_, ?_, ?_, ?_, ?_⟩
  · rw [hl.plgs]
    exact hI.wf.pushBack
  · rw [helems, List.length_append, List.length_append, hI.length]
    rfl
  · intro id hook hfind
    rw [hl.hooks] at hfind
    split at hfind
    case isTrue =>
        obtain rfl := Option.some.inj hfind
        exact Nat.le_refl _
    case isFalse =>
        calc
          hook.plgp.block ≤ s.plgs.block := hI.block id hook hfind
          _ ≤ t.plgs.block := by rw [hl.plgs]; exact GrowArray.block_le_pushBack
  · intro k c' hk
    rcases hlast k c' hk with hk | ⟨rfl, rfl⟩
    · obtain ⟨cmds', pd', hres, helem⟩ := hI.elem k c' hk
      refine ⟨cmds', pd', hres, ?_⟩
      rw [helems, List.getElem?_append_left (List.getElem?_eq_some_iff.mp helem).1, helem]
    · refine ⟨cmds, pd, hl.resolve, ?_⟩
      rw [helems, ← hI.length, List.getElem?_concat_length]
  · intro k c' id hk hid
    rcases hlast k c' hk with hk | ⟨rfl, rfl⟩
    · obtain ⟨block, hfind⟩ := hI.hook k c' id hk hid
      refine ⟨block, ?_⟩
      have hnew : id ∉ cmds := by
        intro hmem
        rw [hl.free id hmem] at hfind
        cases hfind
      rw [hl.hooks, if_neg hnew, hfind]
    · refine ⟨t.plgs.block, ?_⟩
      rw [hl.hooks, if_pos ((hreg id).mp hid), hI.length]
  · intro id hook hfind
    rw [hl.hooks] at hfind
    split at hfind
    case isTrue hmem =>
        obtain rfl := Option.some.inj hfind
        refine ⟨c, ?_, (hreg id).mpr hmem⟩
        change (loads ++ [c])[s.plgs.elems.length]? = some c
        rw [hI.length, List.getElem?_concat_length]
    case isFalse =>
        obtain ⟨c', hc', hid⟩ := hI.owner id hook hfind
        refine ⟨c', ?_, hid⟩
        rw [List.getElem?_append_left (List.getElem?_eq_some_iff.mp hc').1, hc']

theorem Inv.exec {s : UmplgMngr η} {loads calls : List (LoadCall η)} (hI : s.Inv loads)
    (h : Trace.exec UmplgMngr.step s calls = some t) : t.Inv (loads ++ calls) := by
  induction calls generalizing s loads with
  | nil =>
      obtain rfl := Option.some.inj h
      rw [List.append_nil]
      exact hI
  | cons c calls ih =>
      obtain ⟨u, hsu, hut⟩ := (Trace.exec_cons_iff _ s t c calls).mp h
      rw [List.append_cons]
      exact ih (hI.step hsu) hut

/-- Every command runs its plugin exactly if every hook has a valid address. -/
theorem Inv.dispatches_iff {loads : List (LoadCall η)} (hI : pm.Inv loads) :
    (∀ k c, loads[k]? = some c → ∀ id, c.Registers id → pm.Dispatches id k c) ↔ pm.Valid := by
  constructor
  · intro hall id hook hfind
    obtain ⟨c, hc, hid⟩ := hI.owner id hook hfind
    obtain ⟨cmds, pd, block, hres, hderef, hrun, -⟩ := hall _ c hc id hid
    cases hd : pm.plgs.deref hook.plgp with
    | none => simp [umplgRun, hfind, hd] at hrun
    | some pd' => exact (GrowArray.deref_eq_some_iff.mp hd).1
  · intro hvalid k c hc id hid
    obtain ⟨cmds, pd, hres, helem⟩ := hI.elem k c hc
    obtain ⟨block, hfind⟩ := hI.hook k c id hc hid
    have hderef : pm.plgs.deref ⟨block, k⟩ = some pd :=
      GrowArray.deref_eq_some_iff.mpr ⟨hvalid id _ hfind, helem⟩
    refine ⟨cmds, pd, block, hres, hderef, ?_, ?_⟩
    · simp [umplgRun, hfind, hderef]
    · simp only [umplgRun, hfind, hderef, if_true]

theorem exists_hook (h : pm.hooks ≠ []) : ∃ id hook, pm.findHook id = some hook := by
  obtain ⟨hook, hooks, hcons⟩ := List.exists_cons_of_ne_nil h
  refine ⟨hook.id, ?_⟩
  rw [← Option.isSome_iff_exists, findHook, HashTable.find, List.find?_isSome]
  exact ⟨hook, List.mem_reverse.mpr (hcons ▸ List.mem_cons_self), by simp⟩

theorem hooks_ne_nil {id : Int} {hook : UmplgHkd} (h : pm.findHook id = some hook) :
    pm.hooks ≠ [] := List.ne_nil_of_mem (HashTable.mem_of_find h)

/-- A load that strands no hook keeps all addresses valid. -/
theorem Valid.step {s : UmplgMngr η} (hv : s.Valid) (hC : ¬ s.Strands c)
    (hst : s.step c = some t) : t.Valid := by
  obtain ⟨cmds, pd, hl⟩ := loaded_of_step hst
  intro id hook hfind
  rw [hl.hooks] at hfind
  split at hfind
  case isTrue =>
      obtain rfl := Option.some.inj hfind
      rfl
  case isFalse =>
      have hstay : ¬ (s.plgs.Full ∧ c.moves = true) := fun h =>
        hC ⟨h.1, h.2, hooks_ne_nil hfind⟩
      rw [hl.plgs, GrowArray.block_pushBack, if_neg hstay]
      exact hv id hook hfind

/-- A stranded hook stays stranded. -/
theorem Valid.of_step {s : UmplgMngr η} {loads : List (LoadCall η)} (hI : s.Inv loads)
    (hst : s.step c = some t) (hv : t.Valid) : s.Valid ∧ ¬ s.Strands c := by
  obtain ⟨cmds, pd, hl⟩ := loaded_of_step hst
  have hkeep : ∀ id hook, s.findHook id = some hook → hook.plgp.block = t.plgs.block := by
    intro id hook hfind
    have hold : id ∉ cmds := by
      intro hmem
      rw [hl.free id hmem] at hfind
      cases hfind
    apply hv id hook
    rw [hl.hooks, if_neg hold, hfind]
  have hle : s.plgs.block ≤ t.plgs.block := by
    rw [hl.plgs]
    exact GrowArray.block_le_pushBack
  constructor
  · intro id hook hfind
    have hblock := hkeep id hook hfind
    have hbound := hI.block id hook hfind
    omega
  · rintro ⟨hfull, hmoves, hhooks⟩
    obtain ⟨id, hook, hfind⟩ := exists_hook hhooks
    have hblock := hkeep id hook hfind
    have hbound := hI.block id hook hfind
    rw [hl.plgs, GrowArray.block_pushBack, if_pos ⟨hfull, hmoves⟩] at hblock
    omega

/-- A run of loads that strand no hook ends with valid addresses. -/
theorem valid_of_along {calls : List (LoadCall η)}
    (hC : Trace.Along UmplgMngr.step (fun s c _ => ¬ s.Strands c) new calls)
    (h : Trace.exec UmplgMngr.step new calls = some pm) : pm.Valid := by
  have hnew : (new : UmplgMngr η).Valid := fun id hook hfind => by cases hfind
  exact Trace.exec_invariant_along (fun s c t hv hc hst => hv.step hc hst) hnew hC h

/-- After a run of loads every registered command reaches the plugin of its load exactly
if no load moved the array while a command was registered. -/
theorem dispatch_iff {calls : List (LoadCall η)}
    (h : Trace.exec UmplgMngr.step new calls = some pm) :
    (∀ k c, calls[k]? = some c → ∀ id, c.Registers id → pm.Dispatches id k c) ↔
      Trace.Along UmplgMngr.step (fun s c _ => ¬ s.Strands c) new calls := by
  have hI : pm.Inv calls := inv_new.exec h
  rw [hI.dispatches_iff]
  constructor
  · intro hv
    apply (Trace.along_of_exec (I := fun s => ∃ loads, s.Inv loads) (V := Valid) _ _
      ⟨[], inv_new⟩ h hv).2
    · rintro s c t ⟨loads, hI⟩ hst
      exact ⟨_, hI.step hst⟩
    · rintro s c t ⟨loads, hI⟩ hst hv
      exact Valid.of_step hI hst hv
  · intro hC
    exact valid_of_along hC h

/-- Eight plugins fit into the first block, so that all their commands work. -/
theorem dispatch_of_length_le_eight {calls : List (LoadCall η)}
    (h : Trace.exec UmplgMngr.step new calls = some pm) (hlen : calls.length ≤ 8) :
    ∀ k c, calls[k]? = some c → ∀ id, c.Registers id → pm.Dispatches id k c := by
  have hI : pm.Inv calls := inv_new.exec h
  apply hI.dispatches_iff.mpr
  have hroom : ∀ (calls : List (LoadCall η)) (s : UmplgMngr η) (loads : List (LoadCall η)),
      s.Inv loads → loads.length + calls.length ≤ 8 →
      Trace.Along UmplgMngr.step (fun s c _ => ¬ s.Strands c) s calls := by
    intro calls
    induction calls with
    | nil => exact fun _ _ _ _ => trivial
    | cons c calls ih =>
        intro s loads hI hle t hst
        have hle' : loads.length + 1 + calls.length ≤ 8 := by
          rw [List.length_cons] at hle
          omega
        refine ⟨?_, ih t _ (hI.step hst) (by simpa using hle')⟩
        rintro ⟨hfull, -, hhooks⟩
        have hnone := hI.wf.eq_nil_of_full hfull (hI.length ▸ by omega)
        obtain ⟨id, hook, hfind⟩ := exists_hook hhooks
        obtain ⟨c', hc', -⟩ := hI.owner id hook hfind
        have hidx := (List.getElem?_eq_some_iff.mp hc').1
        rw [← hI.length, hnone] at hidx
        exact absurd hidx (Nat.not_lt_zero _)
  exact valid_of_along (hroom calls new [] inv_new (by simpa using hlen)) h

section NinePlugins

/-- A plugin with one command. -/
def oneCommand (k : Nat) (moves : Bool) : LoadCall Nat :=
  ⟨"plg", some ⟨some [k + 1, -1], some k, some k, some k, some k⟩, moves⟩

/-- Nine plugins, of which the last one moves the array. -/
def ninePlugins : List (LoadCall Nat) :=
  (List.range 8).map (oneCommand · false) ++ [oneCommand 8 true]

/-- After the ninth load the command of the first plugin reads an invalid address. -/
theorem ninth_plugin_strands :
    ∃ pm : UmplgMngr Nat, Trace.exec UmplgMngr.step new ninePlugins = some pm ∧
      (oneCommand 0 false).Registers 1 ∧ pm.umplgRun 1 true = .invalid :=
  ⟨_, rfl, ⟨_, rfl, by decide⟩, by decide⟩

/-- The last plugin of two is called. -/
theorem dispatch_iff_two :
    ∃ pm : UmplgMngr Nat,
      Trace.exec UmplgMngr.step new [oneCommand 0 true, oneCommand 1 true] = some pm ∧
      pm.Dispatches 2 1 (oneCommand 1 true) := by
  refine ⟨_, rfl, ?_⟩
  have hall := (@dispatch_iff Nat _ [oneCommand 0 true, oneCommand 1 true] rfl).mpr (by decide)
  exact hall 1 _ rfl 2 ⟨_, rfl, by decide⟩

end NinePlugins

end UmplgMngr

end Umink.Plugin
