import Mathlib.Data.List.TakeWhile
import Umink.Library.FirstMatch
import Umink.Lua.Loader

/-!
# What a configuration registers

The loader keeps a script's size in 32 bits: an environment whose script is larger can be
taken for one with an empty script. Otherwise it registers what the environments before the
first malformed one list, each new name once and with the first environment that has it.

## Implementation notes

The environments before the first malformed one are the list `validEnvs`.
-/

namespace Umink.Lua.Loader

open Umink.Library Umink.Plugin

variable (c : JsonC) (files : String → ScriptFile)

section Checks

/-- A script that can be read and is not empty. -/
def Readable : ScriptFile → Prop
  | .size n => 0 < n
  | _ => False

instance : DecidablePred Readable
  | .noOpen => inferInstanceAs (Decidable False)
  | .noSeek => inferInstanceAs (Decidable False)
  | .size n => inferInstanceAs (Decidable (0 < n))

/-- A script whose size is not positive in the 32 bits that the loop keeps of it. -/
def Oversized : ScriptFile → Prop
  | .size n => 0 < n ∧ int32 n ≤ 0
  | _ => False

instance : DecidablePred Oversized
  | .noOpen => inferInstanceAs (Decidable False)
  | .noSeek => inferInstanceAs (Decidable False)
  | .size n => inferInstanceAs (Decidable (0 < n ∧ int32 n ≤ 0))

/-- The script of an environment. -/
def script (v : Json) : ScriptFile := files (c.getString (v.field "path"))

/-- An object with all mandatory values, values of the right types and a script that can be
read. -/
def WellFormed (v : Json) : Prop :=
  v.isObj ∧ (v.field "name").isStr ∧ (v.field "auto_start").isBool ∧
    (v.field "interval").isInt ∧ (v.field "path").isStr ∧ (v.field "events").elems?.isSome ∧
    ((v.field "min_auth").isNull ∨ (v.field "min_auth").isInt) ∧ Readable (script c files v)

instance : DecidablePred (WellFormed c files) :=
  fun _ => inferInstanceAs (Decidable (_ ∧ _))

variable {c files}

/-- A value of any other type is not null. -/
theorem not_isNull_of {p : Json → Bool} (hp : p .null = false) {j : Json} (h : p j = true) :
    j.isNull = false := by
  cases j with
  | null => exact absurd h (by simp [hp])
  | _ => rfl

/-- An optional value passes the check of its type if it is missing or has the type. -/
theorem wellTyped_iff {missing typed : Bool} :
    (missing = true ∨ typed = true) ↔ ¬ ((!missing) = true ∧ (!typed) = true) := by
  cases missing <;> cases typed <;> decide

/-- `ftell` returns -1 or a position in the file. -/
def FtellResults (files : String → ScriptFile) : Prop := ∀ path n, files path = .size n → -1 ≤ n

theorem int32_pos_iff {n : Int} (hn : -1 ≤ n) :
    0 < int32 n ↔ 0 < n ∧ ¬ (0 < n ∧ int32 n ≤ 0) := by
  unfold int32
  omega

/-- The checks accept the environments that are well formed and have no oversized
script. -/
theorem verifyEnv_eq_zero_iff (hfiles : FtellResults files) (v : Json) :
    verifyEnv c files v = 0 ↔ WellFormed c files v ∧ ¬ Oversized (script c files v) := by
  constructor
  · intro h
    unfold verifyEnv at h
    dsimp only at h
    repeat' split at h
    case h_3.isFalse hobj _ hauth htypes _ n hfile hsize =>
      simp only [Bool.not_eq_true', decide_eq_false_iff_not, not_not] at htypes
      obtain ⟨hn, has, hint, hp, hev⟩ := htypes
      have hpos := (int32_pos_iff (hfiles _ n hfile)).mp (Int.not_le.mp hsize)
      have hscript : script c files v = .size n := hfile
      rw [WellFormed, hscript]
      exact ⟨⟨by simpa using hobj, hn, has, hint, hp, hev, wellTyped_iff.mpr hauth, hpos.1⟩,
        hpos.2⟩
    all_goals cases h
  · rintro ⟨⟨hobj, hn, has, hint, hp, hev, hauth, hread⟩, hsize⟩
    have hnull : ¬ ((v.field "name").isNull ∨ (v.field "auto_start").isNull ∨
        (v.field "interval").isNull ∨ (v.field "path").isNull ∨ (v.field "events").isNull) := by
      simp [not_isNull_of (p := Json.isStr) rfl hn, not_isNull_of (p := Json.isBool) rfl has,
        not_isNull_of (p := Json.isInt) rfl hint, not_isNull_of (p := Json.isStr) rfl hp,
        not_isNull_of (p := fun j => j.elems?.isSome) rfl hev]
    unfold verifyEnv
    dsimp only
    rw [if_neg (by simp [hobj]), if_neg hnull, if_neg (wellTyped_iff.mp hauth),
      if_neg (by simp [hn, has, hint, hp, hev])]
    unfold script at hread hsize
    cases hfile : files (c.getString (v.field "path")) with
    | noOpen =>
        rw [hfile] at hread
        exact False.elim hread
    | noSeek =>
        rw [hfile] at hread
        exact False.elim hread
    | size n =>
        rw [hfile] at hread hsize
        have hpos := (int32_pos_iff (hfiles _ n hfile)).mpr ⟨hread, hsize⟩
        exact if_neg (Int.not_le.mpr hpos)

end Checks

section Registered

variable (agressiveGc conserveMem : Bool)

/-- The name of an environment. -/
def envName (v : Json) : String := c.getString (v.field "name")

/-- The signals `new` that the environments `vs` add to the signals `old`. -/
structure NewSignals (vs : List Json) (old new : Signals ObjArgs) : Prop where
  nodup : (new.map UmplgSh.id).Nodup
  ids : ∀ s, s ∈ new.map UmplgSh.id ↔ s ∉ old.map UmplgSh.id ∧ ∃ v ∈ vs, s ∈ eventIds c v
  bound : ∀ sh ∈ new, ∃ i v, FirstAt (fun w => sh.id ∈ eventIds c w) vs i v ∧
    sh.args.env = createEnv c agressiveGc conserveMem i v ∧ sh.args.perf < (events v).length
  unshared : ∀ sh ∈ new, ∀ sh' ∈ old ++ new, sh'.args.env.entry = sh.args.env.entry →
    sh'.args.perf = sh.args.perf → sh' = sh

/-- The environments `new` that the environments `vs` add to the environments `old`. -/
structure NewEnvs (vs : List Json) (old new : List EnvObj) : Prop where
  nodup : (new.map EnvObj.key).Nodup
  names : ∀ n, n ∈ new.map EnvObj.key ↔ n ∉ old.map EnvObj.key ∧ ∃ v ∈ vs, envName c v = n
  first : ∀ env ∈ new, ∃ i v, FirstAt (fun w => envName c w = env.key) vs i v ∧
    env = createEnv c agressiveGc conserveMem i v

/-- What the environments `vs` add. -/
structure Loaded (vs : List Json) (st t : ObjState) : Prop where
  signals : ∃ new, t.signals = st.signals ++ new ∧
    NewSignals c agressiveGc conserveMem vs st.signals new
  envs : ∃ new, t.envs = st.envs ++ new ∧ NewEnvs c agressiveGc conserveMem vs st.envs new

variable {c agressiveGc conserveMem}

theorem slot_ids (env : EnvObj) (v : Json) :
    ((strEvents v).zipIdx.map (slot c env v)).map UmplgSh.id = eventIds c v := by
  rw [List.map_map, show UmplgSh.id ∘ slot c env v = c.getString ∘ Prod.fst from rfl,
    ← List.map_map, List.zipIdx_map_fst]
  rfl

theorem mem_slots_ids_iff (i : Nat) (vs : List Json) (s : String) :
    s ∈ (slots c agressiveGc conserveMem i vs).map UmplgSh.id ↔ ∃ v ∈ vs, s ∈ eventIds c v := by
  induction vs generalizing i with
  | nil => simp [slots]
  | cons v vs ih =>
      rw [slots_cons, List.map_append, List.mem_append, slot_ids, ih, List.exists_mem_cons_iff]

theorem mem_objs_keys_iff (i : Nat) (vs : List Json) (n : String) :
    n ∈ (objs c agressiveGc conserveMem i vs).map EnvObj.key ↔ ∃ v ∈ vs, envName c v = n := by
  induction vs generalizing i with
  | nil => simp [objs]
  | cons v vs ih =>
      rw [objs_cons, List.map_cons, List.mem_cons, ih, List.exists_mem_cons_iff]
      exact or_congr_left ⟨Eq.symm, Eq.symm⟩

theorem find?_slot_eq_none_iff (s : String) (v : Json) (i : Nat) :
    ((strEvents v).zipIdx.map (slot c (createEnv c agressiveGc conserveMem i v) v)).find?
      (fun u => u.id = s) = none ↔ s ∉ eventIds c v := by
  rw [← slot_ids (c := c) (createEnv c agressiveGc conserveMem i v) v]
  simp

/-- A new signal is the one of an event of the first environment with its name. -/
theorem slot_of_find {vs : List Json} {s : String} {sh : UmplgSh ObjArgs}
    (h : (slots c agressiveGc conserveMem 0 vs).find? (fun u => u.id = s) = some sh) :
    ∃ i v ev n, FirstAt (fun w => s ∈ eventIds c w) vs i v ∧ (strEvents v)[n]? = some ev ∧
      sh = slot c (createEnv c agressiveGc conserveMem i v) v (ev, n) := by
  obtain ⟨i, v, hfirst, hfind⟩ := find?_flatMap_zipIdx
    (fun v i => find?_slot_eq_none_iff s v i) h
  obtain ⟨⟨ev, n⟩, hev, rfl⟩ := List.mem_map.mp (List.mem_of_find?_eq_some hfind)
  rw [Nat.zero_add]
  exact ⟨i, v, ev, n, hfirst, List.mem_zipIdx_iff_getElem?.mp hev, rfl⟩

theorem find?_obj_eq_none_iff (n : String) (v : Json) (i : Nat) :
    [createEnv c agressiveGc conserveMem i v].find? (fun e => e.key = n) = none ↔
      envName c v ≠ n := by
  rw [List.find?_eq_none, List.forall_mem_singleton, decide_eq_true_eq]
  rfl

theorem obj_of_find {vs : List Json} {n : String} {env : EnvObj}
    (h : (objs c agressiveGc conserveMem 0 vs).find? (fun e => e.key = n) = some env) :
    ∃ i v, FirstAt (fun w => envName c w = n) vs i v ∧
      env = createEnv c agressiveGc conserveMem i v := by
  rw [objs, List.map_eq_flatMap] at h
  obtain ⟨i, v, hfirst, hfind⟩ := find?_flatMap_zipIdx
    (fun v i => find?_obj_eq_none_iff n v i) h
  rw [Nat.zero_add] at hfind
  have hmem := List.mem_of_find?_eq_some hfind
  exact ⟨i, v, hfirst, List.mem_singleton.mp hmem⟩

/-- The signals of the loop are those that its environments add. -/
theorem newSignals_of_gained {vs : List Json} {old new : Signals ObjArgs}
    (hold : ∀ sh ∈ old, sh.args.env.entry = none)
    (h : HashTable.Gained UmplgSh.id old (slots c agressiveGc conserveMem 0 vs) new) :
    NewSignals c agressiveGc conserveMem vs old new := by
  have hnew := fun sh hsh => slot_of_find (h.first sh hsh)
  refine ⟨h.nodup, fun s => ?_, fun sh hsh => ?_, fun sh hsh sh' hsh' hentry hperf => ?_⟩
  · rw [h.mem_keys_iff, mem_slots_ids_iff]
  · obtain ⟨i, v, ev, n, hfirst, hev, heq⟩ := hnew sh hsh
    have hlt : n < (strEvents v).length := (List.getElem?_eq_some_iff.mp hev).1
    refine ⟨i, v, hfirst, by rw [heq]; rfl, ?_⟩
    rw [heq]
    exact Nat.lt_of_lt_of_le hlt (List.length_filter_le _ _)
  · obtain ⟨i, v, ev, n, hfirst, hev, heq⟩ := hnew sh hsh
    obtain hsh' | hsh' := List.mem_append.mp hsh'
    · rw [hold sh' hsh', heq] at hentry
      cases hentry
    · obtain ⟨i', v', ev', n', hfirst', hev', heq'⟩ := hnew sh' hsh'
      rw [heq, heq'] at hentry hperf
      obtain rfl : i' = i := Option.some.inj hentry
      obtain rfl : n' = n := hperf
      obtain rfl := Option.some.inj (hfirst'.entry.symm.trans hfirst.entry)
      obtain rfl := Option.some.inj (hev'.symm.trans hev)
      rw [heq, heq']

/-- The environments of the loop are those that it adds. -/
theorem newEnvs_of_gained {vs : List Json} {old new : List EnvObj}
    (h : HashTable.Gained EnvObj.key old (objs c agressiveGc conserveMem 0 vs) new) :
    NewEnvs c agressiveGc conserveMem vs old new where
  nodup := h.nodup
  names n := by rw [h.mem_keys_iff, mem_objs_keys_iff]
  first env henv := obj_of_find (h.first env henv)

/-- The loop adds what the environments that it accepts add. -/
theorem processEnvs_loaded {files : String → ScriptFile} (vs : List Json) (st : ObjState)
    (hold : ∀ sh ∈ st.signals, sh.args.env.entry = none) :
    Loaded c agressiveGc conserveMem (vs.takeWhile fun v => verifyEnv c files v = 0) st
      (processEnvs c files agressiveGc conserveMem 0 vs st).2 := by
  rw [processEnvs_eq_addAll]
  generalize (vs.takeWhile fun v => verifyEnv c files v = 0) = ws
  obtain ⟨signals, hsignals, hgained⟩ := @HashTable.addAll_eq_append _ _ _ UmplgSh.id st.signals
    (slots c agressiveGc conserveMem 0 ws)
  obtain ⟨envs, henvs, hgained'⟩ := @HashTable.addAll_eq_append _ _ _ EnvObj.key st.envs
    (objs c agressiveGc conserveMem 0 ws)
  exact ⟨⟨signals, hsignals, newSignals_of_gained hold hgained⟩,
    ⟨envs, henvs, newEnvs_of_gained hgained'⟩⟩

variable (c) in
/-- The events and the name of an environment are in the tables already or among those of
the environments `vs`. -/
def Known (vs : List Json) (st : ObjState) (v : Json) : Prop :=
  (∀ s ∈ eventIds c v, s ∈ st.signals.map UmplgSh.id ∨ ∃ w ∈ vs, s ∈ eventIds c w) ∧
    (envName c v ∈ st.envs.map EnvObj.key ∨ ∃ w ∈ vs, envName c w = envName c v)

theorem NewSignals.append {us vs : List Json} {old new : Signals ObjArgs}
    (h : NewSignals c agressiveGc conserveMem us old new)
    (hvs : ∀ v ∈ vs, ∀ s ∈ eventIds c v,
      s ∈ old.map UmplgSh.id ∨ ∃ w ∈ us, s ∈ eventIds c w) :
    NewSignals c agressiveGc conserveMem (us ++ vs) old new where
  nodup := h.nodup
  ids s := by
    rw [h.ids s]
    refine and_congr_right fun hnew => ⟨?_, ?_⟩
    · rintro ⟨v, hv, hs⟩
      exact ⟨v, List.mem_append_left vs hv, hs⟩
    · rintro ⟨v, hv, hs⟩
      obtain hv | hv := List.mem_append.mp hv
      · exact ⟨v, hv, hs⟩
      · exact (hvs v hv s hs).resolve_left hnew
  bound sh hsh := by
    obtain ⟨i, v, hfirst, hrest⟩ := h.bound sh hsh
    exact ⟨i, v, hfirst.append vs, hrest⟩
  unshared := h.unshared

theorem NewEnvs.append {us vs : List Json} {old new : List EnvObj}
    (h : NewEnvs c agressiveGc conserveMem us old new)
    (hvs : ∀ v ∈ vs, envName c v ∈ old.map EnvObj.key ∨ ∃ w ∈ us, envName c w = envName c v) :
    NewEnvs c agressiveGc conserveMem (us ++ vs) old new where
  nodup := h.nodup
  names n := by
    rw [h.names n]
    refine and_congr_right fun hnew => ⟨?_, ?_⟩
    · rintro ⟨v, hv, hn⟩
      exact ⟨v, List.mem_append_left vs hv, hn⟩
    · rintro ⟨v, hv, rfl⟩
      obtain hv | hv := List.mem_append.mp hv
      · exact ⟨v, hv, rfl⟩
      · exact (hvs v hv).resolve_left hnew
  first env henv := by
    obtain ⟨i, v, hfirst, heq⟩ := h.first env henv
    exact ⟨i, v, hfirst.append vs, heq⟩

/-- What some environments add is what further ones add with them exactly if these have
nothing new. -/
theorem Loaded.append_iff {us : List Json} {st t : ObjState}
    (h : Loaded c agressiveGc conserveMem us st t) (vs : List Json) :
    Loaded c agressiveGc conserveMem (us ++ vs) st t ↔ ∀ v ∈ vs, Known c us st v := by
  obtain ⟨⟨signals, hsignals, hnewSignals⟩, ⟨envs, henvs, hnewEnvs⟩⟩ := h
  constructor
  · rintro ⟨⟨signals', hsignals', hall⟩, ⟨envs', henvs', hall'⟩⟩ v hv
    obtain rfl := List.append_cancel_left (hsignals.symm.trans hsignals')
    obtain rfl := List.append_cancel_left (henvs.symm.trans henvs')
    have hmem := List.mem_append_right us hv
    refine ⟨fun s hs => or_iff_not_imp_left.mpr fun hold => ?_,
      or_iff_not_imp_left.mpr fun hold => ?_⟩
    · exact ((hnewSignals.ids s).mp ((hall.ids s).mpr ⟨hold, v, hmem, hs⟩)).2
    · exact ((hnewEnvs.names _).mp ((hall'.names _).mpr ⟨hold, v, hmem, rfl⟩)).2
  · intro hvs
    exact ⟨⟨signals, hsignals, hnewSignals.append fun v hv => (hvs v hv).1⟩,
      ⟨envs, henvs, hnewEnvs.append fun v hv => (hvs v hv).2⟩⟩

end Registered

section Config

/-- The sections of a configuration other than `envs` are valid. -/
def SectionsValid (cfg : Json) : Prop :=
  cfg.isObj ∧ !(plgCfg cfg).isNull ∧
    (((plgCfg cfg).field "aggressive_gc").isNull ∨ ((plgCfg cfg).field "aggressive_gc").isBool) ∧
    (((plgCfg cfg).field "conserve_memory").isNull ∨
      ((plgCfg cfg).field "conserve_memory").isBool)

instance (cfg : Json) : Decidable (SectionsValid cfg) := inferInstanceAs (Decidable (_ ∧ _))

/-- The entries that the loader accepts: none of a configuration with an invalid section,
otherwise those before the first one that fails a check. -/
def acceptedEnvs (cfg : Json) : List Json :=
  if SectionsValid cfg then (cfgEnvs cfg).takeWhile fun v => verifyEnv c files v = 0 else []

/-- The environments before the first malformed one. -/
def validEnvs (cfg : Json) : List Json := (cfgEnvs cfg).takeWhile fun v => WellFormed c files v

/-- The code tells whether an environment is malformed, and the environments before it were
loaded. -/
structure Loads (cfg : Json) (st : ObjState) (r : Nat × ObjState) : Prop where
  code : r.1 = 0 ↔ validEnvs c files cfg = cfgEnvs cfg
  loaded : Loaded c ((plgCfg cfg).field "aggressive_gc").isTrue
    ((plgCfg cfg).field "conserve_memory").isTrue (validEnvs c files cfg) st r.2

/-- The script of an environment is not oversized. -/
def Fits (v : Json) : Prop := ¬ Oversized (script c files v)

instance : DecidablePred (Fits c files) := fun _ => inferInstanceAs (Decidable (¬ _))

/-- No script is oversized if no environment is malformed, and from the first oversized one
on nothing is new up to the first malformed environment. -/
def NothingLost (cfg : Json) (st : ObjState) : Prop :=
  (validEnvs c files cfg = cfgEnvs cfg → ∀ v ∈ cfgEnvs cfg, Fits c files v) ∧
    ∀ v ∈ (validEnvs c files cfg).dropWhile fun v => Fits c files v,
      Known c ((validEnvs c files cfg).takeWhile fun v => Fits c files v) st v

variable {c files}

theorem processCfg_of_valid {cfg : Json} (hcfg : SectionsValid cfg) (st : ObjState) :
    processCfg c files cfg st =
      processEnvs c files ((plgCfg cfg).field "aggressive_gc").isTrue
        ((plgCfg cfg).field "conserve_memory").isTrue 0 (cfgEnvs cfg) st := by
  obtain ⟨hobj, hplg, hgc, hmem⟩ := hcfg
  have hnull : cfg.isNull = false := not_isNull_of (p := Json.isObj) rfl hobj
  unfold processCfg
  rw [if_neg (by simp [hnull]), if_neg (by simp [hobj]), if_neg (by simpa using hplg)]
  dsimp only
  rw [if_neg (wellTyped_iff.mp hgc), if_neg (wellTyped_iff.mp hmem)]

/-- A configuration with an invalid section changes nothing. -/
theorem processCfg_of_not_valid {cfg : Json} (hcfg : ¬ SectionsValid cfg) (st : ObjState) :
    (processCfg c files cfg st).2 = st := by
  unfold processCfg
  dsimp only
  split_ifs with hnull hobj hplg hgc hmem
  any_goals rfl
  · exact absurd ⟨by simpa using hobj, by simpa using hplg, wellTyped_iff.mpr hgc,
      wellTyped_iff.mpr hmem⟩ hcfg

/-- Accepted entries passed the checks. -/
theorem verifyEnv_of_mem_acceptedEnvs {cfg v : Json} (h : v ∈ acceptedEnvs c files cfg) :
    verifyEnv c files v = 0 := by
  unfold acceptedEnvs at h
  split_ifs at h
  · simpa using List.mem_takeWhile_imp h
  · cases h

/-- The signals that were there before have no entry. -/
theorem entry_of_mem_objects (st : CfgState) :
    ∀ sh ∈ (objects st).signals, sh.args.env.entry = none := by
  intro sh hsh
  obtain ⟨sh', -, rfl⟩ := List.mem_map.mp hsh
  rfl

/-- An empty environment manager gets the environments of the accepted entries. -/
theorem processCfg_newEnvs (cfg : Json) (signals : Signals LuaSigArgs) :
    NewEnvs c ((plgCfg cfg).field "aggressive_gc").isTrue
      ((plgCfg cfg).field "conserve_memory").isTrue (acceptedEnvs c files cfg) []
      (processCfg c files cfg (objects ⟨signals, []⟩)).2.envs := by
  unfold acceptedEnvs
  split_ifs with hcfg
  · rw [processCfg_of_valid hcfg]
    obtain ⟨-, new, hnew, henvs⟩ := @processEnvs_loaded c
      ((plgCfg cfg).field "aggressive_gc").isTrue ((plgCfg cfg).field "conserve_memory").isTrue
      files (cfgEnvs cfg) (objects ⟨signals, []⟩) (entry_of_mem_objects _)
    rw [hnew]
    exact henvs
  · rw [processCfg_of_not_valid hcfg]
    exact ⟨List.nodup_nil, by simp [objects], by simp [objects]⟩

/-- The loop accepts the valid environments before the first oversized script. -/
theorem takeWhile_verifyEnv (hfiles : FtellResults files) (cfg : Json) :
    ((cfgEnvs cfg).takeWhile fun v => verifyEnv c files v = 0) =
      (validEnvs c files cfg).takeWhile fun v => Fits c files v := by
  rw [validEnvs, List.takeWhile_takeWhile]
  congr 1
  funext v
  apply decide_eq_decide.mpr
  rw [verifyEnv_eq_zero_iff hfiles, decide_eq_true_eq, decide_eq_true_eq]
  exact and_comm

theorem validEnvs_eq_iff (cfg : Json) :
    validEnvs c files cfg = cfgEnvs cfg ↔ ∀ v ∈ cfgEnvs cfg, WellFormed c files v := by
  simp [validEnvs, List.takeWhile_eq_self_iff]

/-- The code of the loop tells whether an environment is malformed exactly if it does not
fail because of an oversized script alone. -/
theorem processEnvs_code_iff (hfiles : FtellResults files) (cfg : Json)
    (agressiveGc conserveMem : Bool) (st : ObjState) :
    ((processEnvs c files agressiveGc conserveMem 0 (cfgEnvs cfg) st).1 = 0 ↔
        validEnvs c files cfg = cfgEnvs cfg) ↔
      (validEnvs c files cfg = cfgEnvs cfg → ∀ v ∈ cfgEnvs cfg, Fits c files v) := by
  rw [processEnvs_code_eq_zero_iff, validEnvs_eq_iff]
  simp only [verifyEnv_eq_zero_iff hfiles]
  constructor
  · exact fun h hall v hv => (h.mpr hall v hv).2
  · exact fun h => ⟨fun hok v hv => (hok v hv).1, fun hall v hv => ⟨hall v hv, h hall v hv⟩⟩

/-- A configuration is loaded as far as its first malformed environment, and the code tells
whether there is one, exactly if no oversized script hides something new. -/
theorem processCfg_loads_iff (hfiles : FtellResults files) {cfg : Json} (hcfg : SectionsValid cfg)
    (st : CfgState) :
    Loads c files cfg (objects st) (processCfg c files cfg (objects st)) ↔
      NothingLost c files cfg (objects st) := by
  have hloaded := @processEnvs_loaded c ((plgCfg cfg).field "aggressive_gc").isTrue
    ((plgCfg cfg).field "conserve_memory").isTrue files (cfgEnvs cfg) (objects st)
    (entry_of_mem_objects st)
  rw [takeWhile_verifyEnv hfiles] at hloaded
  have hall := hloaded.append_iff ((validEnvs c files cfg).dropWhile fun v => Fits c files v)
  rw [List.takeWhile_append_dropWhile] at hall
  have hcode := processEnvs_code_iff (c := c) hfiles cfg ((plgCfg cfg).field "aggressive_gc").isTrue
    ((plgCfg cfg).field "conserve_memory").isTrue (objects st)
  rw [processCfg_of_valid hcfg]
  constructor
  · exact fun h => ⟨hcode.mp h.code, hall.mp h.loaded⟩
  · exact fun h => ⟨hcode.mpr h.1, hall.mpr h.2⟩

end Config

/-- A configuration with two environments that share an event. -/
def twoEnvs : Json :=
  .obj [("umlua", .obj [("envs", .arr [
    .obj [("name", .str "a"), ("auto_start", .bool true), ("interval", .int 0),
      ("path", .str "a.lua"), ("events", .arr [.str "e", .int 1, .str "e", .str "f"])],
    .obj [("name", .str "b"), ("auto_start", .bool true), ("interval", .int 0),
      ("path", .str "b.lua"), ("events", .arr [.str "f", .str "g"])]])])]

def plainTexts : JsonC := ⟨fun _ => .null, fun _ => 0, fun _ => ""⟩

/-- Two environments with scripts of 10 bytes are loaded. -/
theorem processCfg_loads_two :
    Loads plainTexts (fun _ => .size 10) twoEnvs (objects ⟨[], []⟩)
      (processCfg plainTexts (fun _ => .size 10) twoEnvs (objects ⟨[], []⟩)) := by
  refine (processCfg_loads_iff ?_ (by decide) ⟨[], []⟩).mpr ⟨fun _ => ?_, ?_⟩
  · intro path n h
    cases h
    decide
  · decide
  · rintro v (hv : v ∈ ([] : List Json))
    cases hv

/-- The second of two scripts has 2^31 bytes: the configuration is well formed and is not
loaded. -/
def bigScript (path : String) : ScriptFile := if path = "b.lua" then .size (2 ^ 31) else .size 10

theorem big_script_rejected :
    (processCfg plainTexts bigScript twoEnvs (objects ⟨[], []⟩)).1 = 8 ∧
    validEnvs plainTexts bigScript twoEnvs = cfgEnvs twoEnvs ∧
    (processCfg plainTexts bigScript twoEnvs (objects ⟨[], []⟩)).2.signals.map
      UmplgSh.id = ["e", "f"] ∧
    ¬ Loads plainTexts bigScript twoEnvs (objects ⟨[], []⟩)
      (processCfg plainTexts bigScript twoEnvs (objects ⟨[], []⟩)) := by
  refine ⟨by decide, rfl, by decide, fun h => ?_⟩
  have hcode := h.code.mpr rfl
  exact absurd hcode (by decide)

end Umink.Lua.Loader
