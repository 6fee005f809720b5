import Mathlib.Data.List.Infix
import Umink.Library.CharArray
import Umink.Library.CStringOrder
import Umink.Library.Greedy
import Umink.Plugin.HookTable

/-!
# The plugins of a directory

`init_plugins` loads the files of the plugin directory whose names contain `.so`, in the
order of their names, from paths that it makes in one buffer. A file that is refused for
its commands ends the daemon, unless a loaded plugin is the same file.

## Implementation notes

`scandir` reports the entries of a directory in any order, each of them once. What
`realloc` does to the array of the plugins may depend on how many there are. The `init`
handlers are those of Plugin/Load.lean.
-/

namespace Umink.Daemon

open Umink.Library Umink.Plugin

theorem slash_noNul : 0 ∉ "/".toList.map fun c => UInt8.ofNat c.toNat := by decide

theorem so_noNul : 0 ∉ ".so".toList.map fun c => UInt8.ofNat c.toNat := by decide

def slash : CStr := CStr.ascii "/" slash_noNul

def so : CStr := CStr.ascii ".so" so_noNul

/-- `strstr` finds `.so` in a name. -/
def isSo (name : CStr) : Bool := so.bytes <:+: name.bytes

/-- `fs_readdir` without a filter: the entries in the order of `alphasort`. -/
def fsReaddir (dir : Option (List CStr)) : Option (List CStr) := dir.map CStr.sorted

variable {ι η : Type} [DecidableEq ι] (D : PlgFiles ι η) (moves : Nat → Bool)
  (mem : Nat → UInt8)

/-- The manager after the load of a path, unless it reads a file that is not mapped. -/
def loadFile (pm : UmplgMngr η) (path : CStr) : Option (UmplgMngr η) :=
  match pm.load D (path.text, moves pm.plgs.elems.length) with
  | .ret _ pm => some pm
  | .unmapped => none

/-- The loop of `init_plugins`, with the buffer for the paths; `none` is the end of the
daemon. -/
def loadFiles (pdir : CStr) {n : Nat} (plgFname : CharArray n) (pm : UmplgMngr η) :
    List CStr → Except Fault (Option (UmplgMngr η))
  | [] => return some pm
  | name :: lst =>
      -- only .so files
      if isSo name then do
        let pdl := pdir.length
        let l := name.length
        -- concat dir path and file path
        let plgFname := plgFname.realloc (pdl + l + 2) mem
        let plgFname ← plgFname.memcpy pdl (slash.bytes ++ [0])
        let plgFname ← plgFname.memcpy (pdl + 1) (name.bytes ++ [0])
        -- load plugin
        match loadFile D moves pm (← plgFname.str) with
        | some pm => loadFiles pdir plgFname pm lst
        | none => return none
      else loadFiles pdir plgFname pm lst

/-- `init_plugins`. -/
def initPlugins (pm : UmplgMngr η) (pdir : Option CStr) (dir : Option (List CStr)) :
    Except Fault (Option (UmplgMngr η)) :=
  match pdir, fsReaddir dir with
  | some pdir, some lst => loadFiles D moves mem pdir (CharArray.strdup pdir) pm lst
  | _, _ => return some pm

/-- The path of a file in the directory. -/
def pluginPath (pdir name : CStr) : CStr := pdir ++ slash ++ name

/-- The file can be loaded when none of its commands is taken. -/
def Loadable (pdir name : CStr) : Prop :=
  (D.call ((pluginPath pdir name).text, false)).resolve ≠ none

/-- The file registers the command. -/
def Offers (pdir name : CStr) (id : Int) : Prop :=
  (D.call ((pluginPath pdir name).text, false)).Registers id

/-- Two files register one command. -/
def Conflict (pdir m n : CStr) : Prop := ∃ id, Offers D pdir m id ∧ Offers D pdir n id

/-- The file registers a command of a plugin whose name comes before its own, and none of
these plugins is the same file. -/
def Clash (pdir : CStr) (names : List CStr) (n : CStr) : Prop :=
  (∃ m ∈ names, m < n ∧ Conflict D pdir m n) ∧
    ∀ m ∈ names, m < n → D.file (pluginPath pdir m).text ≠ D.file (pluginPath pdir n).text

section Paths

variable {D moves mem} {pdir name : CStr}

/-- The loop calls `umplg_load` with the path of each plugin file and never writes outside
of its buffer. -/
theorem loadFiles_eq (pdir : CStr) {n : Nat} {plgFname : CharArray n} (pm : UmplgMngr η)
    (lst : List CStr) (hn : pdir.length ≤ n)
    (hdir : plgFname.toList.take pdir.length = pdir.bytes) :
    loadFiles D moves mem pdir plgFname pm lst =
      .ok ((lst.filter isSo).foldlM
        (fun pm name => loadFile D moves pm (pluginPath pdir name)) pm) := by
  induction lst generalizing n plgFname pm with
  | nil => rfl
  | cons name lst ih =>
      cases hso : isSo name with
      | false =>
          rw [loadFiles, hso, List.filter_cons_of_neg (by simp [hso])]
          exact ih pm hn hdir
      | true =>
          have htake : (plgFname.realloc (pdir.length + name.length + 2) mem).toList.take
              pdir.length = pdir.bytes := by
            rw [CharArray.take_realloc hn (by omega), hdir]
          obtain ⟨b₁, hcopy₁, hstr₁⟩ := @CharArray.memcpy_str _ _ slash pdir htake
            (show pdir.length + 1 < _ by omega)
          have hlen : (pdir ++ slash).length = pdir.length + 1 := CStr.length_append ..
          obtain ⟨b₂, hcopy₂, hstr₂⟩ := @CharArray.memcpy_length _ _ name _ hstr₁
            (by rw [hlen]; omega)
          rw [hlen] at hcopy₂
          have hdir₂ : b₂.toList.take pdir.length = pdir.bytes := by
            obtain ⟨rest, hrest⟩ := CharArray.str_eq_ok_iff.mp hstr₂
            rw [hrest, CStr.bytes_append, CStr.bytes_append, List.append_assoc, List.append_assoc,
              CStr.length, List.take_left]
          rw [loadFiles, if_pos hso, List.filter_cons_of_pos hso, List.foldlM_cons]
          dsimp only
          rw [hcopy₁, ok_bind, hcopy₂, ok_bind, hstr₂, ok_bind]
          rw [show pdir ++ slash ++ name = pluginPath pdir name from rfl]
          cases loadFile D moves pm (pluginPath pdir name) with
          | none => rfl
          | some pm' => exact ih pm' (by omega) hdir₂

end Paths

/-- The loaded plugins are the files, and the commands with a hook are theirs. -/
structure Holds (pdir : CStr) (pm : UmplgMngr η) (names : List CStr) : Prop where
  plgs : pm.plgs.elems.map Umplgd.name = names.map fun n => (pluginPath pdir n).text
  hooks : ∀ id, id ∈ pm.hookIds ↔ ∃ n ∈ names, Offers D pdir n id

section Selection

variable {D moves} {pdir name : CStr} {pm : UmplgMngr η} {kept : List CStr}

omit [DecidableEq ι] in
theorem holds_new (pdir : CStr) : Holds D pdir (UmplgMngr.new : UmplgMngr η) [] where
  plgs := rfl
  hooks id := by simp [UmplgMngr.new, UmplgMngr.hookIds]

omit [DecidableEq ι] in
/-- A file that is loaded takes its commands. -/
theorem Holds.take (h : Holds D pdir pm kept) {b : Bool} {pm' : UmplgMngr η} {cmds : List Int}
    {pd : Umplgd η}
    (hload : UmplgMngr.Accepted pm pm' (D.call ((pluginPath pdir name).text, b)) cmds pd) :
    Holds D pdir pm' (kept ++ [name]) where
  plgs := by
    rw [hload.elems, List.map_append, List.map_append, h.plgs, List.map_singleton,
      List.map_singleton, (UmplgMngr.resolve_spec hload.resolve).1]
    rfl
  hooks id := by
    have hoffers : Offers D pdir name id ↔ id ∈ cmds := by
      constructor
      · rintro ⟨r, hres, hid⟩
        obtain rfl := Option.some.inj (hload.resolve.symm.trans hres)
        exact hid
      · exact fun hid => ⟨(cmds, pd), hload.resolve, hid⟩
    rw [hload.hookIds, List.mem_append, h.hooks]
    constructor
    · rintro (⟨n, hn, hid⟩ | hid)
      · exact ⟨n, List.mem_append_left _ hn, hid⟩
      · exact ⟨name, List.mem_append_right _ List.mem_cons_self, hoffers.mpr hid⟩
    · rintro ⟨n, hn, hid⟩
      obtain hn | hn := List.mem_append.mp hn
      · exact .inl ⟨n, hn, hid⟩
      · obtain rfl := List.mem_singleton.mp hn
        exact .inr (hoffers.mp hid)

omit [DecidableEq ι] in
theorem Holds.mem_files (h : Holds D pdir pm kept) (name : CStr) :
    D.file (pluginPath pdir name).text ∈ pm.files D ↔
      ∃ m ∈ kept, D.file (pluginPath pdir m).text = D.file (pluginPath pdir name).text := by
  have hfiles : pm.files D = (pm.plgs.elems.map Umplgd.name).map D.file := by
    rw [List.map_map]
    rfl
  rw [hfiles, h.plgs, List.map_map, List.mem_map]
  rfl

/-- What the load of a file does: nothing if the file cannot be loaded, nothing or the end if
a command is taken, and otherwise the file is loaded. -/
theorem Holds.load_cases (h : Holds D pdir pm kept) (moves : Nat → Bool) (name : CStr) :
    (¬ Loadable D pdir name ∧ loadFile D moves pm (pluginPath pdir name) = some pm) ∨
    ((∃ m ∈ kept, Conflict D pdir m name) ∧ loadFile D moves pm (pluginPath pdir name) =
      if D.file (pluginPath pdir name).text ∈ pm.files D then some pm else none) ∨
    ((∀ m ∈ kept, ¬ Conflict D pdir m name) ∧ Loadable D pdir name ∧ ∃ pm',
      loadFile D moves pm (pluginPath pdir name) = some pm' ∧
        Holds D pdir pm' (kept ++ [name])) := by
  obtain ⟨hres, hload⟩ | ⟨cmds, pd, hres, ⟨id, hid, hhook⟩, hload⟩ | ⟨pm', cmds, pd, hload⟩ :=
    pm.umplgLoad_cases (D.call ((pluginPath pdir name).text, moves pm.plgs.elems.length))
  · refine .inl ⟨fun hloadable => hloadable hres, ?_⟩
    rw [loadFile, UmplgMngr.load, hload]
  · refine .inr (.inl ⟨?_, ?_⟩)
    · obtain ⟨m, hm, hoffers⟩ := (h.hooks id).mp hhook
      exact ⟨m, hm, id, hoffers, (cmds, pd), hres, hid⟩
    · rw [loadFile, UmplgMngr.load, hload]
      by_cases hfile : D.file (pluginPath pdir name).text ∈ pm.files D
      · rw [if_pos (decide_eq_true hfile), if_pos hfile]
      · rw [if_neg (by simpa using hfile), if_neg hfile]
  · refine .inr (.inr ⟨?_, Option.ne_none_iff_exists'.mpr ⟨_, hload.resolve⟩, pm', ?_,
      h.take hload⟩)
    · rintro m hm ⟨id, hoffers, r, hres, hid⟩
      obtain rfl := Option.some.inj (hload.resolve.symm.trans hres)
      exact hload.free id hid ((h.hooks id).mpr ⟨m, hm, hoffers⟩)
    · rw [loadFile, UmplgMngr.load, hload.res]

omit [DecidableEq ι] in
/-- Only the files before a file count for it. -/
theorem clash_append_iff {new : List CStr} (hkept : ∀ m ∈ kept, m < name)
    (hnew : ∀ m ∈ new, ¬ m < name) :
    Clash D pdir (kept ++ new) name ↔ (∃ m ∈ kept, Conflict D pdir m name) ∧
      ∀ m ∈ kept, D.file (pluginPath pdir m).text ≠ D.file (pluginPath pdir name).text := by
  have hbefore : ∀ m, m ∈ kept ++ new → m < name → m ∈ kept := fun m hm hlt =>
    (List.mem_append.mp hm).resolve_right fun hmem => hnew m hmem hlt
  constructor
  · rintro ⟨⟨m, hm, hlt, hconflict⟩, hfiles⟩
    exact ⟨⟨m, hbefore m hm hlt, hconflict⟩, fun m hm =>
      hfiles m (List.mem_append_left _ hm) (hkept m hm)⟩
  · rintro ⟨⟨m, hm, hconflict⟩, hfiles⟩
    exact ⟨⟨m, List.mem_append_left _ hm, hkept m hm, hconflict⟩, fun m hm hlt =>
      hfiles m (hbefore m hm hlt)⟩

/-- A file that is free to be loaded is no clash. -/
theorem Holds.load_free (h : Holds D pdir pm kept) (moves : Nat → Bool) {new : List CStr}
    (hvalid : Loadable D pdir name) (hfree : ∀ m ∈ kept, ¬ Conflict D pdir m name)
    (hkept : ∀ m ∈ kept, m < name) (hnew : ∀ m ∈ new, ¬ m < name) :
    ¬ Clash D pdir (kept ++ new) name ∧ ∃ pm',
      loadFile D moves pm (pluginPath pdir name) = some pm' ∧
        Holds D pdir pm' (kept ++ [name]) := by
  constructor
  · rw [clash_append_iff hkept hnew]
    rintro ⟨⟨m, hm, hconflict⟩, -⟩
    exact hfree m hm hconflict
  · obtain ⟨hno, -⟩ | ⟨⟨m, hm, hconflict⟩, -⟩ | ⟨-, -, hload⟩ := h.load_cases moves name
    · exact absurd hvalid hno
    · exact absurd hconflict (hfree m hm)
    · exact hload

/-- A file that is refused ends the loop exactly if it clashes. -/
theorem Holds.load_refused (h : Holds D pdir pm kept) (moves : Nat → Bool) {new : List CStr}
    (hrefused : Loadable D pdir name → ∃ m ∈ kept, Conflict D pdir m name)
    (hkept : ∀ m ∈ kept, m < name) (hnew : ∀ m ∈ new, ¬ m < name) :
    Clash D pdir (kept ++ new) name ∧ loadFile D moves pm (pluginPath pdir name) = none ∨
      ¬ Clash D pdir (kept ++ new) name ∧
        loadFile D moves pm (pluginPath pdir name) = some pm := by
  rw [clash_append_iff hkept hnew]
  obtain ⟨hno, hload⟩ | ⟨hconflict, hload⟩ | ⟨hfree, hvalid, -⟩ := h.load_cases moves name
  · refine .inr ⟨?_, hload⟩
    rintro ⟨⟨m, hm, id, -, r, hres, -⟩, -⟩
    exact hno (Option.ne_none_iff_exists'.mpr ⟨r, hres⟩)
  · by_cases hfile : D.file (pluginPath pdir name).text ∈ pm.files D
    · refine .inr ⟨?_, hload.trans (if_pos hfile)⟩
      rintro ⟨-, hfiles⟩
      obtain ⟨m, hm, hsame⟩ := (h.mem_files name).mp hfile
      exact hfiles m hm hsame
    · refine .inl ⟨⟨hconflict, fun m hm hsame => ?_⟩, hload.trans (if_neg hfile)⟩
      exact hfile ((h.mem_files name).mpr ⟨m, hm, hsame⟩)
  · obtain ⟨m, hm, hconflict⟩ := hrefused hvalid
    exact absurd hconflict (hfree m hm)

/-- The loop takes the files greedily and goes on until one of them clashes. -/
theorem Holds.select {lst new : List CStr}
    (hselect : Greedy.Select (Loadable D pdir) (Conflict D pdir) kept lst new)
    (h : Holds D pdir pm kept) (hsorted : lst.Pairwise (· < ·))
    (hkept : ∀ m ∈ kept, ∀ n ∈ lst, m < n) :
    (∃ n ∈ lst, Clash D pdir (kept ++ new) n) ∧
        lst.foldlM (fun pm name => loadFile D moves pm (pluginPath pdir name)) pm = none ∨
      (∀ n ∈ lst, ¬ Clash D pdir (kept ++ new) n) ∧ ∃ pm',
        lst.foldlM (fun pm name => loadFile D moves pm (pluginPath pdir name)) pm = some pm' ∧
          Holds D pdir pm' (kept ++ new) := by
  induction hselect generalizing pm with
  | nil kept => exact .inr ⟨by simp, pm, rfl, by rwa [List.append_nil]⟩
  | @take kept xs new x hvalid hfree hselect ih =>
      obtain ⟨hx, hsorted⟩ := List.pairwise_cons.mp hsorted
      have hbefore : ∀ m ∈ kept, m < x := fun m hm => hkept m hm x List.mem_cons_self
      have hafter : ∀ m ∈ x :: new, ¬ m < x := by
        rintro m hm hlt
        obtain rfl | hm := List.mem_cons.mp hm
        · exact lt_irrefl m hlt
        · exact lt_irrefl m (hlt.trans (hx m (hselect.sublist.subset hm)))
      have hkept' : ∀ m ∈ kept ++ [x], ∀ n ∈ xs, m < n := by
        intro m hm n hn
        obtain hm | hm := List.mem_append.mp hm
        · exact hkept m hm n (List.mem_cons_of_mem x hn)
        · exact List.mem_singleton.mp hm ▸ hx n hn
      obtain ⟨hfirst, pm', hload, hholds⟩ := h.load_free moves hvalid hfree hbefore hafter
      rw [List.foldlM_cons, hload, Option.bind_eq_bind, Option.bind_some, List.forall_mem_cons,
        List.exists_mem_cons_iff, and_iff_right hfirst, or_iff_right hfirst, List.append_cons]
      exact ih hholds hsorted hkept'
  | @skip kept xs new x hrefused hselect ih =>
      obtain ⟨hx, hsorted⟩ := List.pairwise_cons.mp hsorted
      have hbefore : ∀ m ∈ kept, m < x := fun m hm => hkept m hm x List.mem_cons_self
      have hafter : ∀ m ∈ new, ¬ m < x := fun m hm hlt =>
        lt_irrefl m (hlt.trans (hx m (hselect.sublist.subset hm)))
      rw [List.foldlM_cons, List.forall_mem_cons, List.exists_mem_cons_iff]
      obtain ⟨hclash, hload⟩ | ⟨hfirst, hload⟩ := h.load_refused moves hrefused hbefore hafter
      · exact .inl ⟨.inl hclash, by rw [hload]; rfl⟩
      · rw [hload, Option.bind_eq_bind, Option.bind_some, and_iff_right hfirst,
          or_iff_right hfirst]
        exact ih h hsorted fun m hm n hn => hkept m hm n (List.mem_cons_of_mem x hn)

end Selection

/-- Whatever the order in which the file system reports the entries of the plugin directory,
the daemon takes the plugin files in the order of their names, without a store outside of the
buffer. It ends at the first file that registers a command of a plugin before it and is none
of these plugins itself. If there is no such file, it has loaded each file named `.so` that
can be loaded, unless it registers a command of a loaded plugin whose name comes before its
own. -/
theorem init_plugins_loads (D : PlgFiles ι η) (moves : Nat → Bool) (mem : Nat → UInt8)
    (pdir : CStr) {entries : List CStr} (h : entries.Nodup) :
    ∃ names : List CStr, names.Pairwise (· < ·) ∧
      (∀ n, n ∈ names ↔ n ∈ entries ∧ isSo n ∧ Loadable D pdir n ∧
        ∀ m ∈ names, m < n → ¬ Conflict D pdir m n) ∧
      ∃ res : Option (UmplgMngr η),
        (∀ entries', entries'.Perm entries →
          initPlugins D moves mem UmplgMngr.new (some pdir) (some entries') = .ok res) ∧
        (res = none ↔ ∃ n ∈ entries, isSo n ∧ Clash D pdir names n) ∧
        ∀ pm, res = some pm → Holds D pdir pm names := by
  have hsorted : ((CStr.sorted entries).filter isSo).Pairwise (· < ·) :=
    (CStr.sorted_pairwise h).filter _
  have hmem : ∀ n, n ∈ (CStr.sorted entries).filter isSo ↔ n ∈ entries ∧ isSo n = true := by
    intro n
    rw [List.mem_filter, CStr.mem_sorted]
  obtain ⟨names, hselect⟩ := Greedy.exists_select (Loadable D pdir) (Conflict D pdir) []
    ((CStr.sorted entries).filter isSo)
  have hloop := @Holds.select ι η _ D moves pdir UmplgMngr.new [] _ names hselect
    (holds_new pdir) hsorted (by simp)
  refine ⟨names, hsorted.sublist hselect.sublist, fun n => ?_,
    ((CStr.sorted entries).filter isSo).foldlM
      (fun pm name => loadFile D moves pm (pluginPath pdir name)) UmplgMngr.new,
    fun entries' hperm => ?_, ?_⟩
  · rw [hselect.mem_iff_of_lt hsorted, hmem, and_assoc]
  · have hdir : (CharArray.strdup pdir).toList.take pdir.length = pdir.bytes := by
      rw [CharArray.toList_strdup, CStr.length, List.take_left]
    have hread : fsReaddir (some entries') = some (CStr.sorted entries) :=
      congrArg some (CStr.sorted_congr hperm)
    simp only [initPlugins, hread]
    exact loadFiles_eq pdir _ _ (Nat.le_succ _) hdir
  · rw [List.nil_append] at hloop
    obtain ⟨⟨n, hn, hclash⟩, hnone⟩ | ⟨hfree, pm', hsome, hholds⟩ := hloop
    · rw [hnone]
      obtain ⟨hentry, hso⟩ := (hmem n).mp hn
      refine ⟨iff_of_true rfl ⟨n, hentry, hso, hclash⟩, ?_⟩
      intro pm hpm
      cases hpm
    · rw [hsome]
      refine ⟨iff_of_false (Option.some_ne_none pm') ?_, ?_⟩
      · rintro ⟨n, hentry, hso, hclash⟩
        exact hfree n ((hmem n).mpr ⟨hentry, hso⟩) hclash
      · intro pm hpm
        exact Option.some.inj hpm ▸ hholds

theorem mqtt_noNul : 0 ∉ "mqtt.so".toList.map fun c => UInt8.ofNat c.toNat := by decide

theorem lua_noNul : 0 ∉ "lua.so".toList.map fun c => UInt8.ofNat c.toNat := by decide

/-- Every path leads to a file of its own, which registers one command. -/
def oneCommand : PlgFiles String Unit :=
  ⟨some, fun _ => ⟨some [36, -1], some (), some (), some (), none⟩⟩

/-- Two files that share a command. -/
theorem init_plugins_loads_two :
    ∃ names : List CStr, names.Pairwise (· < ·) ∧
      (∀ n, n ∈ names ↔
        n ∈ [CStr.ascii "mqtt.so" mqtt_noNul, CStr.ascii "lua.so" lua_noNul] ∧ isSo n ∧
          Loadable oneCommand slash n ∧ ∀ m ∈ names, m < n → ¬ Conflict oneCommand slash m n) ∧
      ∃ res : Option (UmplgMngr Unit),
        (∀ entries', entries'.Perm
            [CStr.ascii "mqtt.so" mqtt_noNul, CStr.ascii "lua.so" lua_noNul] →
          initPlugins oneCommand (fun _ => false) (fun _ => 0) UmplgMngr.new (some slash)
            (some entries') = .ok res) ∧
        (res = none ↔
          ∃ n ∈ [CStr.ascii "mqtt.so" mqtt_noNul, CStr.ascii "lua.so" lua_noNul], isSo n ∧
            Clash oneCommand slash names n) ∧
        ∀ pm, res = some pm → Holds oneCommand slash pm names :=
  init_plugins_loads oneCommand (fun _ => false) (fun _ => 0) slash (by decide)

end Umink.Daemon
