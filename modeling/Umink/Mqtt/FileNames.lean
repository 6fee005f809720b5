import Mathlib.Data.List.Forall2
import Umink.Library.CharArray
import Umink.Mqtt.Config
import Umink.Mqtt.Uploads

/-!
# The buffers for the names of uploads

`mqtt_bin_upl_add` copies the path of a connection into a field of 128 bytes.
`mqtt_handle_bin` makes the name of the temporary file in a buffer of the length of
the path, the uuid and 6 bytes, and cuts the last 4 bytes off for `rename`. The path
of a connection may have any length.

## Implementation notes

A store outside of a buffer is undefined, and a run ends with it; what it overwrites
is left out. Memory that is not initialized has arbitrary contents. The sizes do not
wrap.
-/

namespace Umink.Mqtt

open Umink.Library

/-- The string that `uuid_unparse_lower` writes. -/
structure UuidStr where
  str : CStr
  length_eq : str.length = 36
  not_dot : 46 ∉ str.bytes
  deriving DecidableEq

/-- The uuid as a text. -/
def UuidStr.toUuid (uuid : UuidStr) : Uuid where
  text := uuid.str.text
  length_eq := by
    rw [CStr.toList_text, List.length_map]
    exact uuid.length_eq
  not_dot := by
    rw [CStr.toList_text, List.mem_map]
    rintro ⟨b, hb, hdot⟩
    have hcode : b.toNat = 46 := by
      rw [← CStr.toNat_byteChar b, hdot]
      rfl
    obtain rfl : b = 46 := UInt8.toNat_inj.mp hcode
    exact uuid.not_dot hb

/-- `mqtt_file_d`, with its arrays. -/
structure MqttFileMem where
  uuid : CharArray 37
  path : CharArray 128
  size : Nat
  ts : Int

/-- The key of an entry. -/
def MqttFileMem.key (f : MqttFileMem) : Except Fault CStr := f.uuid.str

/-- What the memory of an upload holds before its first use: `uuid_str` and the new entry
of `mqtt_bin_upl_add`, and the two buffers of `mqtt_handle_bin`. -/
structure UploadMem where
  uuidStr : CharArray 37
  file : MqttFileMem
  fp : Nat → UInt8
  fp2 : Nat → UInt8

theorem slash_noNul : 0 ∉ "/".toList.map fun c => UInt8.ofNat c.toNat := by decide

theorem tmpExt_noNul : 0 ∉ ".tmp".toList.map fun c => UInt8.ofNat c.toNat := by decide

def slash : CStr := CStr.ascii "/" slash_noNul

/-- The extension of the temporary files. -/
def tmpExt : CStr := CStr.ascii ".tmp" tmpExt_noNul

namespace MqttFileMem

/-- `mqtt_bin_upl_add`, with the uuid that `uuid_generate` gives and the time: the new entry
and the entries. -/
def mqttBinUplAdd (t : List MqttFileMem) (m : UploadMem) (path : CStr) (fsz : Nat)
    (uuid : UuidStr) (now : Int) : Except Fault (Option MqttFileMem × List MqttFileMem) :=
  if fsz = 0 then .ok (none, t)
  else do
    let uuidStr ← m.uuidStr.strcpy uuid.str
    let k ← uuidStr.str
    if (HashTable.find key t (.ok k)).isSome then .ok (none, t)
    else
      let fpath ← m.file.path.strcpy path
      let fuuid ← m.file.uuid.memcpy 0 uuidStr.toList
      let f := { uuid := fuuid, path := fpath, size := fsz, ts := now }
      .ok (some f, HashTable.add t f)

variable (f : MqttFileMem)

/-- The size of the buffer for the name of the temporary file, in `mqtt_handle_bin` and in
`mqtt_bin_cleanup`. -/
def fpSize : Except Fault Nat := do
  return (← f.path.str).length + (← f.uuid.str).length + 6

/-- `gen_temp_fname`. -/
def genTempFname {n : Nat} (b : CharArray n) : Except Fault (CharArray n) := do
  let b ← b.store 0 0
  let b ← b.strcat (← f.path.str)
  let b ← b.strcat slash
  let b ← b.strcat (← f.uuid.str)
  b.strcat tmpExt

/-- The name that `mqtt_bin_cleanup` unlinks. -/
def unlinkArg (m : UploadMem) : Except Fault CStr := do
  let fp ← f.genTempFname (CharArray.uninit (← f.fpSize) m.fp)
  fp.str

/-- The two names in `mqtt_handle_bin`: the one it opens, and the one it renames the file to. -/
def renameArgs (m : UploadMem) : Except Fault (CStr × CStr) := do
  let fp ← f.genTempFname (CharArray.uninit (← f.fpSize) m.fp)
  let name ← fp.str
  let sl := name.length - 4
  let fp2 ← (CharArray.uninit (sl + 1) m.fp2).memcpy 0 (fp.toList.take sl)
  let fp2 ← fp2.store sl 0
  return (name, ← fp2.str)

end MqttFileMem

namespace MqttFileMem

variable {f : MqttFileMem} {p u path : CStr}

/-- The name and its NUL fill a buffer of the lengths and 6 bytes. -/
theorem genTempFname_of_str (hp : f.path.str = .ok p) (hu : f.uuid.str = .ok u) {n : Nat}
    (hn : p.length + u.length + 6 ≤ n) (b : CharArray n) :
    ∃ fp, f.genTempFname b = .ok fp ∧ fp.str = .ok (p ++ slash ++ u ++ tmpExt) := by
  have hslash : slash.length = 1 := rfl
  have hext : tmpExt.length = 4 := rfl
  obtain ⟨b₀, h₀, hstr₀⟩ := @CharArray.store_zero n b (by omega)
  obtain ⟨b₁, h₁, hstr₁⟩ := @CharArray.strcat_of_lt n b₀ p _ hstr₀ (by
    rw [CStr.empty_length]
    omega)
  rw [CStr.empty_append] at hstr₁
  obtain ⟨b₂, h₂, hstr₂⟩ := @CharArray.strcat_of_lt n b₁ slash _ hstr₁ (by omega)
  obtain ⟨b₃, h₃, hstr₃⟩ := @CharArray.strcat_of_lt n b₂ u _ hstr₂ (by
    rw [CStr.length_append]
    omega)
  obtain ⟨b₄, h₄, hstr₄⟩ := @CharArray.strcat_of_lt n b₃ tmpExt _ hstr₃ (by
    rw [CStr.length_append, CStr.length_append]
    omega)
  refine ⟨b₄, ?_, hstr₄⟩
  rw [genTempFname, h₀, ok_bind, hp, ok_bind, h₁, ok_bind, h₂, ok_bind, hu, ok_bind, h₃,
    ok_bind, h₄]

theorem fpSize_of_str (hp : f.path.str = .ok p) (hu : f.uuid.str = .ok u) :
    f.fpSize = .ok (p.length + u.length + 6) := by
  rw [fpSize, hp, ok_bind, hu, ok_bind]
  rfl

theorem unlinkArg_of_str (hp : f.path.str = .ok p) (hu : f.uuid.str = .ok u) (m : UploadMem) :
    f.unlinkArg m = .ok (p ++ slash ++ u ++ tmpExt) := by
  obtain ⟨fp, hgen, hstr⟩ :=
    genTempFname_of_str hp hu (Nat.le_refl _) (CharArray.uninit _ m.fp)
  rw [unlinkArg, fpSize_of_str hp hu, ok_bind, hgen, ok_bind, hstr]

/-- The buffers of `mqtt_handle_bin` hold the whole names of an entry. -/
theorem renameArgs_of_str (hp : f.path.str = .ok p) (hu : f.uuid.str = .ok u) (m : UploadMem) :
    f.renameArgs m = .ok (p ++ slash ++ u ++ tmpExt, p ++ slash ++ u) := by
  obtain ⟨fp, hgen, hstr⟩ :=
    genTempFname_of_str hp hu (Nat.le_refl _) (CharArray.uninit _ m.fp)
  obtain ⟨rest, hrest⟩ := CharArray.str_eq_ok_iff.mp hstr
  have hsl : (p ++ slash ++ u ++ tmpExt).length - 4 = (p ++ slash ++ u).length := by
    rw [CStr.length_append]
    exact Nat.add_sub_cancel _ 4
  have htake : fp.toList.take (p ++ slash ++ u).length = (p ++ slash ++ u).bytes := by
    rw [hrest, CStr.bytes_append, List.append_assoc, CStr.length, List.take_left]
  obtain ⟨fp2, hcopy, hstr2⟩ := @CharArray.strcpy_of_lt _
    (CharArray.uninit ((p ++ slash ++ u).length + 1) m.fp2) (p ++ slash ++ u) (Nat.lt_succ_self _)
  rw [renameArgs, fpSize_of_str hp hu, ok_bind, hgen, ok_bind, hstr, ok_bind]
  dsimp only
  -- the bytes without the extension and the NUL are one copy of the shorter name
  rw [hsl, htake, ← bind_assoc, CharArray.memcpy_store, hcopy, ok_bind, hstr2]
  rfl

section Add

variable {t : List MqttFileMem} {fsz : Nat} {uuid : UuidStr}

/-- The uuid and its NUL fill `uuid_str`. -/
theorem strcpy_uuidStr (a : CharArray 37) (uuid : UuidStr) :
    ∃ b, a.strcpy uuid.str = .ok b ∧ b.str = .ok uuid.str := by
  apply CharArray.strcpy_of_lt
  rw [uuid.length_eq]
  decide

/-- There is no entry without a size or for a uuid that is taken. -/
theorem mqttBinUplAdd_none {m : UploadMem} {now : Int}
    (h : fsz = 0 ∨ HashTable.find key t (.ok uuid.str) ≠ none) :
    mqttBinUplAdd t m path fsz uuid now = .ok (none, t) := by
  by_cases hfsz : fsz = 0
  · exact if_pos hfsz
  · obtain ⟨a, hcopy, hstr⟩ := strcpy_uuidStr m.uuidStr uuid
    have hfound := Option.isSome_iff_ne_none.mpr (h.resolve_left hfsz)
    rw [mqttBinUplAdd, if_neg hfsz, hcopy, ok_bind, hstr, ok_bind, if_pos hfound]

/-- The entry for a new uuid has the uuid, and the copy of the path decides about the rest. -/
theorem mqttBinUplAdd_new (hfsz : fsz ≠ 0) (hnew : HashTable.find key t (.ok uuid.str) = none)
    (m : UploadMem) (path : CStr) (now : Int) :
    ∃ a : CharArray 37, a.str = .ok uuid.str ∧
      mqttBinUplAdd t m path fsz uuid now = m.file.path.strcpy path >>= fun fpath =>
        .ok (some ⟨a, fpath, fsz, now⟩, HashTable.add t ⟨a, fpath, fsz, now⟩) := by
  obtain ⟨a, hcopy, hstr⟩ := strcpy_uuidStr m.uuidStr uuid
  refine ⟨a, hstr, ?_⟩
  rw [mqttBinUplAdd, if_neg hfsz, hcopy, ok_bind, hstr, ok_bind, hnew]
  apply bind_congr
  intro fpath
  rw [CharArray.memcpy_toList]
  rfl

/-- A path of 128 bytes or more is written behind its field. -/
theorem mqttBinUplAdd_of_le (hfsz : fsz ≠ 0)
    (hnew : HashTable.find key t (.ok uuid.str) = none) (m : UploadMem) (now : Int)
    (h : 128 ≤ path.length) :
    mqttBinUplAdd t m path fsz uuid now = .error (.store 128 128) := by
  obtain ⟨a, -, hadd⟩ := mqttBinUplAdd_new hfsz hnew m path now
  rw [hadd, CharArray.strcpy_of_le h]
  rfl

theorem mqttBinUplAdd_of_lt (hfsz : fsz ≠ 0)
    (hnew : HashTable.find key t (.ok uuid.str) = none) (m : UploadMem) (now : Int)
    (h : path.length < 128) :
    ∃ f, mqttBinUplAdd t m path fsz uuid now = .ok (some f, HashTable.add t f) ∧
      f.path.str = .ok path ∧ f.uuid.str = .ok uuid.str ∧ f.size = fsz ∧ f.ts = now := by
  obtain ⟨a, ha, hadd⟩ := mqttBinUplAdd_new hfsz hnew m path now
  obtain ⟨fpath, hcopy, hstr⟩ := @CharArray.strcpy_of_lt 128 m.file.path path h
  refine ⟨⟨a, fpath, fsz, now⟩, ?_, hstr, ha, rfl, rfl⟩
  rw [hadd, hcopy]
  rfl

end Add

section Texts

/-- An entry has the texts of an upload in its arrays. -/
structure Represents (f : MqttFileMem) (g : MqttFileD) : Prop where
  path : ∃ p, f.path.str = .ok p ∧ p.text = g.path
  uuid : ∃ u, f.uuid.str = .ok u ∧ u.text = g.key
  size : f.size = g.size
  ts : f.ts = g.ts

variable {g : MqttFileD} {t : List MqttFileMem} {gs : List MqttFileD} {fsz : Nat}

theorem slash_text : slash.text = "/" := by decide

theorem tmpExt_text : tmpExt.text = ".tmp" := by decide

/-- The names of the arrays are the names of the upload. -/
theorem Represents.renameArgs (h : Represents f g) (m : UploadMem) :
    ∃ name newName, f.renameArgs m = .ok (name, newName) ∧
      name.text = Mqtt.genTempFname g.toMqttFile ∧ newName.text = finalFname g.toMqttFile := by
  obtain ⟨p, hp, hpath⟩ := h.path
  obtain ⟨u, hu, huuid⟩ := h.uuid
  refine ⟨_, _, renameArgs_of_str hp hu m, ?_, ?_⟩
  · rw [CStr.text_append, CStr.text_append, CStr.text_append, hpath, huuid, slash_text,
      tmpExt_text]
    rfl
  · rw [CStr.text_append, CStr.text_append, hpath, huuid, slash_text]
    rfl

theorem key_represents (h : Represents f g) (k : CStr) : f.key = .ok k ↔ g.key = k.text := by
  obtain ⟨u, hu, huuid⟩ := h.uuid
  rw [key, hu, ← huuid]
  constructor
  · intro heq
    rw [Except.ok.inj heq]
  · intro heq
    rw [CStr.text_inj heq]

theorem mem_keys_represents (h : List.Forall₂ Represents t gs) (k : CStr) :
    .ok k ∈ t.map key ↔ k.text ∈ gs.map MqttFileD.key := by
  induction h with
  | nil => exact iff_of_false List.not_mem_nil List.not_mem_nil
  | cons hfg _ ih =>
      rw [List.map_cons, List.map_cons, List.mem_cons, List.mem_cons, ih, eq_comm,
        key_represents hfg, eq_comm]

theorem find_represents (h : List.Forall₂ Represents t gs) (k : CStr) :
    HashTable.find key t (.ok k) = none ↔ HashTable.find MqttFileD.key gs k.text = none := by
  rw [HashTable.find_eq_none_iff, HashTable.find_eq_none_iff, mem_keys_represents h]

theorem length_text (p : CStr) : p.text.length = p.length := by
  rw [CStr.length, ← String.length_toList, CStr.toList_text, List.length_map]

/-- `mqtt_bin_upl_add` on the arrays does what it does on the texts, and stores outside of
the field for the path when it does so there. -/
theorem mqttBinUplAdd_represents {s : UplState} (h : List.Forall₂ Represents t s.binUploads)
    (m : UploadMem) (path : CStr) (fsz : Nat) (uuid : UuidStr) (now : Int) :
    (∃ e, s.mqttBinUplAdd path.text fsz uuid.toUuid now = .error e ∧
      mqttBinUplAdd t m path fsz uuid now = .error e) ∨
    (s.mqttBinUplAdd path.text fsz uuid.toUuid now = .ok none ∧
      mqttBinUplAdd t m path fsz uuid now = .ok (none, t)) ∨
    ∃ g f, s.mqttBinUplAdd path.text fsz uuid.toUuid now =
        .ok (some (g, { s with binUploads := HashTable.add s.binUploads g })) ∧
      mqttBinUplAdd t m path fsz uuid now = .ok (some f, HashTable.add t f) ∧ Represents f g ∧
      List.Forall₂ Represents (HashTable.add t f) (HashTable.add s.binUploads g) := by
  have hfind : (s.findUpl uuid.toUuid.text).isSome ↔
      HashTable.find key t (.ok uuid.str) ≠ none := by
    rw [Option.isSome_iff_ne_none]
    exact not_congr (find_represents h uuid.str).symm
  rw [UplState.mqttBinUplAdd]
  by_cases hold : fsz = 0 ∨ HashTable.find key t (.ok uuid.str) ≠ none
  · refine .inr (.inl ⟨?_, mqttBinUplAdd_none hold⟩)
    by_cases hfsz : fsz = 0
    · exact if_pos hfsz
    · rw [if_neg hfsz, if_pos (hfind.mpr (hold.resolve_left hfsz))]
  obtain ⟨hfsz, hnew⟩ := not_or.mp hold
  rw [if_neg hfsz, if_neg fun hin => hnew (hfind.mp hin)]
  by_cases hpath : path.length < 128
  · obtain ⟨f, hadd, hp, hu, hsize, hts⟩ :=
      mqttBinUplAdd_of_lt hfsz (not_not.mp hnew) m now hpath
    have hf : Represents f ⟨⟨path.text, uuid.toUuid, fsz⟩, now⟩ :=
      ⟨⟨path, hp, rfl⟩, ⟨uuid.str, hu, rfl⟩, hsize, hts⟩
    rw [copyPath_of_lt (by rwa [length_text])]
    exact .inr (.inr ⟨_, f, rfl, hadd, hf, List.rel_append h (.cons hf .nil)⟩)
  · have hle := Nat.not_lt.mp hpath
    rw [copyPath_of_le (by rwa [length_text])]
    exact .inl ⟨_, rfl, mqttBinUplAdd_of_le hfsz (not_not.mp hnew) m now hle⟩

end Texts

/-- The entry of an upload has the whole path, `gen_temp_fname` makes the whole name of the
temporary file for both of its callers, and the file is renamed to the name without the
extension; every store is inside of its buffer. -/
def WholeNames (t : List MqttFileMem) (m : UploadMem) (connPath : CStr) (fsz : Nat)
    (uuid : UuidStr) (now : Int) (path : List UInt8) : Prop :=
  ∃ f p name newName,
    mqttBinUplAdd t m connPath fsz uuid now = .ok (some f, HashTable.add t f) ∧
    f.path.str = .ok p ∧ p.bytes = path ∧ p.length < 128 ∧
    f.renameArgs m = .ok (name, newName) ∧ f.unlinkArg m = .ok name ∧
    name.bytes = path ++ slash.bytes ++ uuid.str.bytes ++ tmpExt.bytes ∧
    newName.bytes = path ++ slash.bytes ++ uuid.str.bytes

section Names

variable {t : List MqttFileMem} {fsz : Nat} {uuid : UuidStr}

theorem wholeNames_of_lt (hfsz : fsz ≠ 0) (hnew : HashTable.find key t (.ok uuid.str) = none)
    (m : UploadMem) (now : Int) (h : path.length < 128) :
    WholeNames t m path fsz uuid now path.bytes := by
  obtain ⟨f, hadd, hpath, huuid, -, -⟩ := mqttBinUplAdd_of_lt hfsz hnew m now h
  exact ⟨f, path, _, _, hadd, hpath, rfl, CharArray.length_lt_of_str hpath,
    renameArgs_of_str hpath huuid m, unlinkArg_of_str hpath huuid m, rfl, rfl⟩

/-- The path of the entry is the path of the connection, which fits its field. -/
theorem path_of_wholeNames (hfsz : fsz ≠ 0)
    (hnew : HashTable.find key t (.ok uuid.str) = none) {m : UploadMem} {now : Int}
    {bytes : List UInt8} (h : WholeNames t m path fsz uuid now bytes) :
    path.length < 128 ∧ path.bytes = bytes := by
  obtain ⟨f, p, name, newName, hadd, hp, hbytes, -⟩ := h
  by_cases hlt : path.length < 128
  · obtain ⟨f', hadd', hpath, -⟩ := mqttBinUplAdd_of_lt hfsz hnew m now hlt
    have hsame := Except.ok.inj (hadd'.symm.trans hadd)
    obtain rfl : f' = f := Option.some.inj (Prod.mk.inj hsame).1
    obtain rfl : path = p := Except.ok.inj (hpath.symm.trans hp)
    exact ⟨hlt, hbytes⟩
  · rw [mqttBinUplAdd_of_le hfsz hnew m now (Nat.le_of_not_lt hlt)] at hadd
    cases hadd

/-- The names of an upload are whole exactly when the path of its connection is shorter than
the field. -/
theorem wholeNames_iff (hfsz : fsz ≠ 0) (hnew : HashTable.find key t (.ok uuid.str) = none)
    (m : UploadMem) (now : Int) :
    WholeNames t m path fsz uuid now path.bytes ↔ path.length < 128 :=
  ⟨fun h => (path_of_wholeNames hfsz hnew h).1, wholeNames_of_lt hfsz hnew m now⟩

section Configured

variable {c : JsonC} {mkdir : Nat → CStr → MkdirRes} {cfg : Json} {conns : List MqttConnD}
  {conn : MqttConnD}

/-- Of the connections that `process_cfg` adds, only one with an accepted path of 128 bytes or
more has other names. -/
theorem wholeNames_of_connects {i : Nat}
    (h : (i, conn) ∈ (processCfg c mkdir cfg conns).2.connects) (hfsz : fsz ≠ 0)
    (hnew : HashTable.find key t (.ok uuid.str) = none) (m : UploadMem) (now : Int) :
    WholeNames t m conn.binUplPath fsz uuid now conn.binUplPath.bytes ∨
      ∃ s, AcceptsPath c mkdir cfg conns conn s ∧ 128 ≤ (CStr.ofText s).length := by
  obtain hdefault | ⟨s, haccept⟩ := binUplPath_cases h
  · rw [hdefault]
    exact Or.inl ((wholeNames_iff hfsz hnew m now).mpr (by decide))
  · by_cases hlt : (CStr.ofText s).length < 128
    · rw [haccept.binUplPath]
      exact Or.inl ((wholeNames_iff hfsz hnew m now).mpr hlt)
    · exact Or.inr ⟨s, haccept, Nat.le_of_not_lt hlt⟩

/-- The names under a path of the configuration are whole exactly when the path has fewer
than 128 bytes and no NUL. -/
theorem uploadNames_iff {s : String} (haccept : AcceptsPath c mkdir cfg conns conn s)
    (hfsz : fsz ≠ 0)
    (hnew : HashTable.find key t (.ok uuid.str) = none) (m : UploadMem) (now : Int) :
    WholeNames t m conn.binUplPath fsz uuid now (Json.utf8Encode s.toList) ↔
      s.utf8ByteSize < 128 ∧ '\x00' ∉ s.toList := by
  rw [haccept.binUplPath, ← utf8Encode_length]
  constructor
  · intro h
    obtain ⟨hlt, hbytes⟩ := path_of_wholeNames hfsz hnew h
    rw [CStr.length, hbytes] at hlt
    exact ⟨hlt, CStr.bytes_ofText_eq_iff.mp hbytes⟩
  · rintro ⟨hlt, hnul⟩
    have hbytes := CStr.bytes_ofText_eq_iff.mpr hnul
    rw [← hbytes] at hlt ⊢
    exact wholeNames_of_lt hfsz hnew m now hlt

end Configured

end Names

section LongPath

/-- A connection with a path for binary uploads. -/
def pathConn (s : String) : Json :=
  .obj [("name", .str "c"), ("address", .str "a"), ("client_id", .str "i"),
    ("username", .str "u"), ("password", .str "p"), ("bin_upload_path", .str s)]

def pathCfg (s : String) : Json :=
  .obj [("plg_sysagent_mqtt.so", .obj [("connections", .arr [pathConn s])])]

/-- A json-c that no value but a string comes to. -/
def stringsOnly : JsonC := ⟨fun _ => .null, fun _ => 0, fun _ => ""⟩

theorem acceptsPath_pathCfg (s : String) :
    AcceptsPath stringsOnly (fun _ _ => ⟨0, 0⟩) (pathCfg s) [] ⟨"c", 256, CStr.ofText s⟩ s := by
  refine ⟨0, pathConn s, rfl, rfl, ?_, Or.inl rfl⟩
  rw [← JsonC.cString_str stringsOnly]
  exact List.mem_singleton.mpr rfl

/-- The uuid of 32 zeros. -/
def zeroUuid : UuidStr where
  str := CStr.ascii "00000000-0000-0000-0000-000000000000" (by decide)
  length_eq := rfl
  not_dot := by decide

/-- A memory of zeros. -/
def zeroMem : UploadMem :=
  ⟨Vector.replicate 37 0, ⟨Vector.replicate 37 0, Vector.replicate 128 0, 0, 0⟩, fun _ => 0,
    fun _ => 0⟩

/-- The names under `/tmp/mqtt` are whole. -/
theorem uploadNames_mqtt :
    WholeNames [] zeroMem (CStr.ofText "/tmp/mqtt") 1 zeroUuid 0
      (Json.utf8Encode "/tmp/mqtt".toList) := by
  have haccept := acceptsPath_pathCfg "/tmp/mqtt"
  exact (uploadNames_iff haccept (by decide) rfl zeroMem 0).mpr ⟨by decide, by decide⟩

/-- `/tmp/` and a name of `n` letters. -/
def longPath (n : Nat) : String := String.ofList ("/tmp/".toList ++ List.replicate n 'a')

theorem longPath_length (n : Nat) : (CStr.ofText (longPath n)).length = 5 + n := by
  have htext : (longPath n).toList = "/tmp/".toList ++ List.replicate n 'a' :=
    String.toList_ofList
  have hnul : '\x00' ∉ (longPath n).toList := by
    rw [htext, List.mem_append, List.mem_replicate]
    exact fun h => h.elim (by decide) (fun heq => absurd heq.2 (by decide))
  calc (CStr.ofText (longPath n)).length
      = ((longPath n).toList.map fun c => (String.utf8EncodeChar c).length).sum := by
        rw [CStr.length, CStr.bytes_ofText_eq_iff.mpr hnul, Json.utf8Encode, List.length_flatMap]
    _ = 5 + n * 1 := by
        rw [htext, List.map_append, List.map_replicate, List.sum_append_nat,
          List.sum_replicate_nat]
        rfl
    _ = 5 + n := by rw [Nat.mul_one]

/-- A path of 200 bytes is written behind the field, over the size and the time stamp. -/
theorem longPath_overflow :
    AcceptsPath stringsOnly (fun _ _ => ⟨0, 0⟩) (pathCfg (longPath 195)) []
      ⟨"c", 256, CStr.ofText (longPath 195)⟩ (longPath 195) ∧
    mqttBinUplAdd [] zeroMem (CStr.ofText (longPath 195)) 1 zeroUuid 0 =
      .error (.store 128 128) ∧
    ¬ WholeNames [] zeroMem (CStr.ofText (longPath 195)) 1 zeroUuid 0
      (Json.utf8Encode (longPath 195).toList) := by
  have hlong : 128 ≤ (CStr.ofText (longPath 195)).length := by
    rw [longPath_length]
    decide
  have hadd := @mqttBinUplAdd_of_le _ [] 1 zeroUuid (by decide) rfl zeroMem 0 hlong
  refine ⟨acceptsPath_pathCfg (longPath 195), hadd, ?_⟩
  rintro ⟨f, p, name, newName, hok, -⟩
  rw [hadd] at hok
  cases hok

end LongPath

end MqttFileMem

end Umink.Mqtt
