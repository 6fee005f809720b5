import Mathlib.Data.List.Nodup
import Mathlib.Data.List.TakeWhile
import Umink.Plugin.Load

/-!
# The hook table

`umplg_load` looks for each command of a plugin in the table as it was before the
load, and adds all of them afterwards. The loads return, the table binds every command
at most once, and no plugin file is loaded twice, exactly as long as no list of commands
repeats one, no plugin without commands is loaded again and no other file is refused for
its commands.

## Implementation notes

A path may lead to any file, and two paths to the same one. The files do not
change during a run. When a file is closed it stays mapped if a loaded plugin has it
open, and the loaded plugins stay open.
-/

namespace Umink.Plugin

open Umink.Library

/-- The command names that `umplg_new_mngr` maps. -/
def cmdMap : List (Int × String) :=
  [(0, "UNKNWON_COMMAND"), (35, "CMD_MQTT_PUBLISH"), (36, "CMD_LUA_CALL"),
    (37, "CMD_MQTT_BINARY_UPLOAD")]

/-- `umplg_get_cmd_id`. -/
def umplgGetCmdId (cmdStr : String) : Int :=
  match HashTable.find Prod.snd cmdMap cmdStr with
  | some cmd => cmd.1
  | none => -1

/-- The files behind paths and what `dlsym` finds in them. -/
structure PlgFiles (ι η : Type*) where
  file : String → Option ι
  content : ι → PlgFile η

variable {ι η : Type*}

/-- The call for a path, with what `realloc` does. -/
def PlgFiles.call (D : PlgFiles ι η) (a : String × Bool) : LoadCall η :=
  ⟨a.1, (D.file a.1).map D.content, a.2⟩

namespace UmplgMngr

/-- The run of a command for its name, in `mink_lua_cmd_call`. -/
def cmdRun (pm : UmplgMngr η) (name : String) : RunRes η := pm.umplgRun (umplgGetCmdId name) true

variable (D : PlgFiles ι η)

/-- The files of the loaded plugins. -/
def files (s : UmplgMngr η) : List (Option ι) := s.plgs.elems.map fun pd => D.file pd.name

/-- The commands that have a hook. -/
def hookIds (s : UmplgMngr η) : List Int := s.hooks.map UmplgHkd.id

/-- What the hook table should be after a load that returned, and what the load should
have done. -/
structure Integrity (s : UmplgMngr η) (a : String × Bool) (r : Option ElemPtr)
    (t : UmplgMngr η) : Prop where
  ids : t.hookIds.Nodup
  noEnd : -1 ∉ t.hookIds
  unmapped : ∀ name, name ∉ cmdMap.map Prod.snd → t.cmdRun name = .ret 1
  files : (t.files D).Nodup
  null : r = none → t = s
  success : ∀ pdp, r = some pdp → ∃ cmds pd,
    (D.call a).resolve = some (cmds, pd) ∧ t.plgs.elems = s.plgs.elems ++ [pd] ∧
    t.plgs.deref pdp = some pd ∧ t.hooks = s.hooks ++ cmds.map fun id => ⟨id, pdp⟩

/-- A load that is refused for its commands is one of a loaded file, and one that is not
refused has a list without repeated commands, which is empty only for a file that is not
loaded yet. -/
def Proper (s : UmplgMngr η) (a : String × Bool) : Prop :=
  match (D.call a).resolve with
  | none => True
  | some (cmds, _) =>
      if ∃ id ∈ cmds, id ∈ s.hookIds then D.file a.1 ∈ s.files D
      else cmds.Nodup ∧ (cmds = [] → D.file a.1 ∉ s.files D)

section Runs

variable [DecidableEq ι]

/-- `umplg_load` of a path. -/
def load (s : UmplgMngr η) (a : String × Bool) : LoadRes η :=
  s.umplgLoad (D.call a) (decide (D.file a.1 ∈ s.files D))

/-- A call of `umplg_load` after one that returned. -/
def loadPath : LoadRes η → String × Bool → Option (LoadRes η)
  | .ret _ s, a => some (s.load D a)
  | .unmapped, _ => none

end Runs

/-- The load returns, and the hook table is as it should be. -/
def Sound : LoadRes η → String × Bool → LoadRes η → Prop
  | .ret _ s, a, .ret r t => s.Integrity D a r t
  | _, _, _ => False

/-- The load is proper for the manager before it. -/
def ProperLoad (s : LoadRes η) (a : String × Bool) : Prop :=
  match s with
  | .ret _ s => s.Proper D a
  | .unmapped => False

/-- The hook table as it should be, with the commands of every loaded file. -/
structure Tidy (s : UmplgMngr η) : Prop where
  ids : s.hookIds.Nodup
  noEnd : -1 ∉ s.hookIds
  files : (s.files D).Nodup
  owned : ∀ a cmds pd, D.file a.1 ∈ s.files D → (D.call a).resolve = some (cmds, pd) →
    ∀ id ∈ cmds, id ∈ s.hookIds

section Load

variable {s t : UmplgMngr η} {c : LoadCall η} {cmds : List Int} {pd : Umplgd η}

theorem foldl_add_eq_append (cmds : List Int) (pdp : ElemPtr) (hooks : List UmplgHkd) :
    cmds.foldl (fun hooks id => HashTable.add hooks ⟨id, pdp⟩) hooks =
      hooks ++ cmds.map fun id => ⟨id, pdp⟩ := by
  induction cmds generalizing hooks with
  | nil => rw [List.map_nil, List.append_nil, List.foldl_nil]
  | cons id cmds ih =>
      rw [List.foldl_cons, ih, HashTable.add, List.append_assoc, List.map_cons]
      rfl

theorem resolve_spec (h : c.resolve = some (cmds, pd)) : pd.name = c.fpath ∧ -1 ∉ cmds := by
  unfold LoadCall.resolve at h
  split at h
  case h_1 =>
      obtain ⟨rfl, rfl⟩ := Prod.mk.inj (Option.some.inj h)
      refine ⟨rfl, ?_⟩
      intro hmem
      exact absurd (List.mem_takeWhile_imp hmem) (by simp)
  case h_2 => cases h

/-- The commands are those of the file. -/
theorem resolve_congr {c c' : LoadCall η} (h : c.file = c'.file) :
    c.resolve.map Prod.fst = c'.resolve.map Prod.fst := by
  unfold LoadCall.resolve
  rw [h]
  split <;> rfl

theorem findHook_isSome_iff (s : UmplgMngr η) (id : Int) :
    (s.findHook id).isSome ↔ id ∈ s.hookIds := by
  rw [Option.isSome_iff_ne_none, ne_eq, findHook, HashTable.find_eq_none_iff, not_not]
  rfl

/-- What a load that is not refused does. -/
structure Accepted (s t : UmplgMngr η) (c : LoadCall η) (cmds : List Int) (pd : Umplgd η) :
    Prop where
  resolve : c.resolve = some (cmds, pd)
  free : ∀ id ∈ cmds, id ∉ s.hookIds
  res : ∀ mapped, s.umplgLoad c mapped = .ret (some t.plgs.back) t
  elems : t.plgs.elems = s.plgs.elems ++ [pd]
  hooks : t.hooks = s.hooks ++ cmds.map fun id => ⟨id, t.plgs.back⟩

/-- A load finds no plugin, or it is refused for a command that has a hook and returns if
the file stays mapped, or it is accepted. -/
theorem umplgLoad_cases (s : UmplgMngr η) (c : LoadCall η) :
    (c.resolve = none ∧ ∀ mapped, s.umplgLoad c mapped = .ret none s) ∨
    (∃ cmds pd, c.resolve = some (cmds, pd) ∧ (∃ id ∈ cmds, id ∈ s.hookIds) ∧
      ∀ mapped, s.umplgLoad c mapped = if mapped then .ret none s else .unmapped) ∨
    ∃ t cmds pd, Accepted s t c cmds pd := by
  cases hres : c.resolve with
  | none =>
      refine .inl ⟨rfl, ?_⟩
      intro mapped
      rw [umplgLoad, hres]
  | some r =>
      obtain ⟨cmds, pd⟩ := r
      cases hused : cmds.any fun id => (s.findHook id).isSome with
      | true =>
          refine .inr (.inl ⟨cmds, pd, rfl, ?_, ?_⟩)
          · obtain ⟨id, hid, hhook⟩ := List.any_eq_true.mp hused
            exact ⟨id, hid, (findHook_isSome_iff s id).mp hhook⟩
          · intro mapped
            simp only [umplgLoad, hres, hused, if_true]
      | false =>
          let plgs := s.plgs.pushBack pd c.moves
          refine .inr (.inr ⟨⟨plgs, s.hooks ++ cmds.map fun id => ⟨id, plgs.back⟩⟩, cmds, pd, hres,
            ?_, ?_, rfl, rfl⟩)
          · intro id hid hhook
            rw [← findHook_isSome_iff] at hhook
            have hany : (cmds.any fun id => (s.findHook id).isSome) = true :=
              List.any_eq_true.mpr ⟨id, hid, hhook⟩
            rw [hused] at hany
            cases hany
          · intro mapped
            simp only [umplgLoad, hres, hused, foldl_add_eq_append]
            rfl

theorem Accepted.hookIds (h : Accepted s t c cmds pd) : t.hookIds = s.hookIds ++ cmds := by
  rw [UmplgMngr.hookIds, h.hooks, List.map_append, List.map_map]
  exact congrArg _ (List.map_id cmds)

theorem Accepted.files (h : Accepted s t c cmds pd) :
    t.files D = s.files D ++ [D.file c.fpath] := by
  rw [UmplgMngr.files, h.elems, List.map_append, List.map_singleton, (resolve_spec h.resolve).1]
  rfl

theorem Accepted.deref (h : Accepted s t c cmds pd) : t.plgs.deref t.plgs.back = some pd := by
  rw [GrowArray.deref_eq_some_iff, GrowArray.back, h.elems, List.length_append,
    List.length_singleton, Nat.add_sub_cancel]
  exact ⟨rfl, List.getElem?_concat_length⟩

end Load

section Steps

variable {D} {s t : UmplgMngr η} {a : String × Bool}

/-- The names without an id run no handler. -/
theorem cmdRun_unmapped (h : -1 ∉ s.hookIds) {name : String}
    (hname : name ∉ cmdMap.map Prod.snd) : s.cmdRun name = .ret 1 := by
  have hid : umplgGetCmdId name = -1 := by
    rw [umplgGetCmdId, HashTable.find_eq_none_iff.mpr hname]
  have hhook : s.findHook (-1) = none := by
    rw [findHook, HashTable.find_eq_none_iff]
    exact h
  rw [cmdRun, hid, umplgRun, hhook]

theorem tidy_new : (new : UmplgMngr η).Tidy D where
  ids := List.nodup_nil
  noEnd := List.not_mem_nil
  files := List.nodup_nil
  owned := fun _ _ _ h => absurd h List.not_mem_nil

/-- An accepted load of a tidy table is proper when its commands and its file are new. -/
theorem Tidy.proper_iff (h : s.Tidy D) {cmds : List Int} {pd : Umplgd η}
    (ha : Accepted s t (D.call a) cmds pd) :
    s.Proper D a ↔ cmds.Nodup ∧ D.file a.1 ∉ s.files D := by
  have hfree : ¬ ∃ id ∈ cmds, id ∈ s.hookIds := fun ⟨id, hid, hhook⟩ => ha.free id hid hhook
  have hempty : D.file a.1 ∈ s.files D → cmds = [] := fun hfile =>
    List.eq_nil_iff_forall_not_mem.mpr fun id hid =>
      ha.free id hid (h.owned a cmds pd hfile ha.resolve id hid)
  rw [Proper, ha.resolve]
  dsimp only
  rw [if_neg hfree]
  exact and_congr_right fun _ =>
    ⟨fun hnew hfile => hnew (hempty hfile) hfile, fun hnew _ => hnew⟩

/-- The commands and the files stay distinct exactly when those of the load are new. -/
theorem Tidy.nodup_iff (h : s.Tidy D) {cmds : List Int} {pd : Umplgd η}
    (ha : Accepted s t (D.call a) cmds pd) :
    t.hookIds.Nodup ∧ (t.files D).Nodup ↔ cmds.Nodup ∧ D.file a.1 ∉ s.files D := by
  rw [ha.hookIds, ha.files, List.nodup_append', List.nodup_append', List.disjoint_singleton]
  have hdisjoint : s.hookIds.Disjoint cmds := fun id hhook hid => ha.free id hid hhook
  constructor
  · rintro ⟨hids, hfiles⟩
    exact ⟨hids.2.1, hfiles.2.2⟩
  · rintro ⟨hcmds, hfile⟩
    exact ⟨⟨h.ids, hcmds, hdisjoint⟩, h.files, List.nodup_singleton _, hfile⟩

theorem Tidy.noEnd_of_accepted (h : s.Tidy D) {cmds : List Int} {pd : Umplgd η}
    (ha : Accepted s t (D.call a) cmds pd) : -1 ∉ t.hookIds := by
  rw [ha.hookIds, List.mem_append, not_or]
  exact ⟨h.noEnd, (resolve_spec ha.resolve).2⟩

/-- A manager that a load leaves alone is as it was. -/
theorem Tidy.integrity_null (h : s.Tidy D) (a : String × Bool) : s.Integrity D a none s where
  ids := h.ids
  noEnd := h.noEnd
  unmapped := fun _ hname => cmdRun_unmapped h.noEnd hname
  files := h.files
  null := fun _ => rfl
  success := fun _ hpdp => nomatch hpdp

/-- An accepted load leaves the hook table as it should be exactly when it is proper. -/
theorem Tidy.integrity_accepted (h : s.Tidy D) {cmds : List Int} {pd : Umplgd η}
    (ha : Accepted s t (D.call a) cmds pd) :
    s.Proper D a ↔ s.Integrity D a (some t.plgs.back) t := by
  rw [h.proper_iff ha, ← h.nodup_iff ha]
  constructor
  · rintro ⟨hids, hfiles⟩
    have hnoEnd := h.noEnd_of_accepted ha
    refine ⟨hids, hnoEnd, fun _ hname => cmdRun_unmapped hnoEnd hname, hfiles, ?_, ?_⟩
    · exact fun hnull => nomatch hnull
    · intro pdp hpdp
      obtain rfl := Option.some.inj hpdp
      exact ⟨cmds, pd, ha.resolve, ha.elems, ha.deref, ha.hooks⟩
  · exact fun hintegrity => ⟨hintegrity.ids, hintegrity.files⟩

theorem Tidy.of_accepted (h : s.Tidy D) {cmds : List Int} {pd : Umplgd η}
    (ha : Accepted s t (D.call a) cmds pd) (hproper : s.Proper D a) : t.Tidy D := by
  obtain ⟨hids, hfiles⟩ := (h.nodup_iff ha).mpr ((h.proper_iff ha).mp hproper)
  refine ⟨hids, h.noEnd_of_accepted ha, hfiles, ?_⟩
  intro a' cmds' pd' hfile hres id hid
  rw [ha.files, List.mem_append] at hfile
  rw [ha.hookIds, List.mem_append]
  obtain hold | hnew := hfile
  · exact .inl (h.owned a' cmds' pd' hold hres id hid)
  · -- the same file has the same commands
    have hfiles : (D.call a').file = (D.call a).file :=
      congrArg (Option.map D.content) (List.mem_singleton.mp hnew)
    have hcmds := resolve_congr hfiles
    rw [hres, ha.resolve] at hcmds
    obtain rfl : cmds' = cmds := Option.some.inj hcmds
    exact .inr hid

variable [DecidableEq ι]

/-- A load returns and leaves the hook table as it should be exactly when it is proper, and
then the next load finds a tidy table. -/
theorem Tidy.load (h : s.Tidy D) (r : Option ElemPtr) (a : String × Bool) :
    (s.Proper D a ↔ Sound D (.ret r s) a (s.load D a)) ∧
      (s.Proper D a → ∃ r' t, s.load D a = .ret r' t ∧ t.Tidy D) := by
  obtain ⟨hres, hload⟩ | ⟨cmds, pd, hres, hused, hload⟩ | ⟨t, cmds, pd, ha⟩ :=
    s.umplgLoad_cases (D.call a)
  · have hproper : s.Proper D a := by
      rw [Proper, hres]
      trivial
    rw [UmplgMngr.load, hload]
    exact ⟨iff_of_true hproper (h.integrity_null a), fun _ => ⟨none, s, rfl, h⟩⟩
  · have hproper : s.Proper D a ↔ D.file a.1 ∈ s.files D := by
      rw [Proper, hres]
      dsimp only
      rw [if_pos hused]
    rw [UmplgMngr.load, hload, hproper]
    by_cases hfile : D.file a.1 ∈ s.files D
    · rw [if_pos (decide_eq_true hfile)]
      exact ⟨iff_of_true hfile (h.integrity_null a), fun _ => ⟨none, s, rfl, h⟩⟩
    · rw [if_neg (by simpa using hfile)]
      exact ⟨iff_of_false hfile id, fun hmem => absurd hmem hfile⟩
  · rw [UmplgMngr.load, ha.res]
    exact ⟨h.integrity_accepted ha, fun hproper => ⟨_, t, rfl, h.of_accepted ha hproper⟩⟩

end Steps

/-- In every run of loads each of them returns, has done what it should and leaves the hook
table as it should be, exactly when every load is proper. -/
theorem integrity_along_iff [DecidableEq ι] (D : PlgFiles ι η) (calls : List (String × Bool)) :
    Trace.Along (loadPath D) (Sound D) (.ret none new) calls ↔
      Trace.Along (loadPath D) (fun s a _ => ProperLoad D s a) (.ret none new) calls := by
  symm
  apply Trace.along_iff_of_invariant (I := fun s => ∃ r pm, s = .ret r pm ∧ pm.Tidy D)
  · rintro _ a t ⟨r, pm, rfl, hs⟩ hst
    obtain rfl := Option.some.inj hst
    exact (hs.load r a).1
  · rintro _ a t ⟨r, pm, rfl, hs⟩ hproper hst
    obtain rfl := Option.some.inj hst
    exact (hs.load r a).2 hproper
  · exact ⟨none, new, rfl, tidy_new⟩

section Repeats

/-- A plugin whose list repeats a command, one without commands and two that share one. -/
def repeats : PlgFiles String Nat :=
  ⟨some, fun f =>
    let cmds :=
      match f with
      | "repeated" => [5, 5, -1]
      | "empty" => [-1]
      | "single" => [5, -1]
      | _ => [5, 7, -1]
    ⟨some cmds, some 0, some 0, some 0, none⟩⟩

/-- The list that repeats a command gives it two hooks, the plugin without commands is loaded
twice, and the second of two plugins that share a command is read when it is not mapped. -/
theorem repeats_not_integrity :
    ¬ Trace.Along (loadPath repeats) (Sound repeats) (.ret none new) [("repeated", false)] ∧
      ¬ Trace.Along (loadPath repeats) (Sound repeats) (.ret none new)
        [("empty", false), ("empty", false)] ∧
      ¬ Trace.Along (loadPath repeats) (Sound repeats) (.ret none new)
        [("single", false), ("shared", false)] := by
  refine ⟨fun h => ?_, fun h => ?_, fun h => ?_⟩
  · have hids := (h _ rfl).1.ids
    exact absurd hids (by decide)
  · have hfiles := ((h _ rfl).2 _ rfl).1.files
    exact absurd hfiles (by decide)
  · exact ((h _ rfl).2 _ rfl).1

end Repeats

end UmplgMngr

end Umink.Plugin
