import Umink.Library.CTypes
import Umink.Library.Trace
import Umink.Mqtt.BinUpload

/-!
# Uploads over a whole run

An upload ends in one of three ways: its file has the announced size and is renamed,
or it was left alone for too long and `mqtt_bin_cleanup` removes it, or the plugin
terminates. Each `write` may store any part of its chunk, so that the sum of the
chunks bounds the file from above only and the size is read again at the end.

## Implementation notes

A file has fewer than 2 ^ 63 bytes and a payload fewer than 2 ^ 31, so that the sums
of the source do not wrap. A run ends with a store outside of the array for a path, as the
function on the arrays does (`MqttFileMem.mqttBinUplAdd_represents`). The record beside the
state has the uploads that were created and the number of bytes that were written for each
uuid.
-/

namespace Umink.Mqtt

open Umink.Library

/-- `SIG_SEM_TIMEOUT`. -/
def sigSemTimeout : Int := 5

/-- `mqtt_file_d`. -/
structure MqttFileD extends MqttFile where
  ts : Int
  deriving DecidableEq

/-- The entry has expired. -/
def MqttFileD.Expired (f : MqttFileD) (now : Int) : Prop := now - f.ts > sigSemTimeout

instance (f : MqttFileD) (now : Int) : Decidable (f.Expired now) :=
  inferInstanceAs (Decidable (_ > _))

/-- The key of an entry. -/
def MqttFileD.key (f : MqttFileD) : String := f.uuid.text

/-- A message on a binary topic, with the outcome of `open` and the bytes that each
`write` stores at most. -/
structure UplMsg where
  tpc : String
  payload : List UInt8
  opens : Bool
  writes : Nat → Nat

/-- The uuid and the operation of a topic. -/
def binTopic (tpc : String) : Option (String × String) :=
  match strtok tpc '/' with
  | _ :: _ :: fileUuid :: fileOp :: _ => some (fileUuid, fileOp)
  | _ => none

/-- The bytes that the loop of `mqtt_handle_bin` stores, with `fsz` counting the chunks.
Each round takes a byte at least, so the length of the payload bounds the rounds. -/
def storeChunks (size : Nat) (writes : Nat → Nat) : Nat → Nat → Nat → List UInt8 → List UInt8
  | 0, _, _, _ => []
  | rounds + 1, fsz, chunk, pld =>
      if pld = [] then []
      else if fsz + chunk > size then []
      else
        let rest := pld.drop chunk
        (pld.take chunk).take (writes rounds) ++
          storeChunks size writes rounds (fsz + chunk) (min chunk rest.length) rest

/-- The loop of `mqtt_bin_cleanup`: the entries that stay and the files. -/
def cleanupLoop (now : Int) : List MqttFileD → (String → Option (List UInt8)) →
    List MqttFileD × (String → Option (List UInt8))
  | [], files => ([], files)
  | f :: fs, files =>
      if f.Expired now then
        cleanupLoop now fs (Function.update files (genTempFname f.toMqttFile) none)
      else (f :: (cleanupLoop now fs files).1, (cleanupLoop now fs files).2)

/-- The announced uploads, and the content of every file. -/
structure UplState where
  binUploads : List MqttFileD
  files : String → Option (List UInt8)

namespace UplState

variable (s : UplState)

/-- The entry under a uuid. -/
def findUpl (uuid : String) : Option MqttFileD := HashTable.find MqttFileD.key s.binUploads uuid

/-- `mqtt_bin_upl_add`, with the uuid that `uuid_generate` gives and the time. -/
def mqttBinUplAdd (path : String) (fsz : Nat) (uuid : Uuid) (now : Int) :
    Except Fault (Option (MqttFileD × UplState)) :=
  if fsz = 0 then .ok none
  else if (s.findUpl uuid.text).isSome then .ok none
  else do
    let fpath ← copyPath path
    let f := ⟨⟨fpath, uuid, fsz⟩, now⟩
    return some (f, { s with binUploads := HashTable.add s.binUploads f })

/-- `mqtt_bin_upl_del`; the uuids of the entries are distinct. -/
def mqttBinUplDel (uuid : String) : UplState :=
  { s with binUploads := s.binUploads.filter fun f => f.key ≠ uuid }

/-- Set the time stamp of the entry under a uuid. -/
def touch (uuid : String) (now : Int) : UplState :=
  { s with binUploads :=
      HashTable.modify MqttFileD.key s.binUploads uuid fun f => { f with ts := now } }

def setFile (name : String) (content : Option (List UInt8)) : UplState :=
  { s with files := Function.update s.files name content }

/-- The content of the temporary file of an upload. -/
def content (f : MqttFile) : List UInt8 := (s.files (genTempFname f)).getD []

/-- The bytes that an `upload` message stores in the temporary file. -/
def stores (f : MqttFileD) (msg : UplMsg) : List UInt8 :=
  let n := msg.payload.length
  if msg.opens ∧ (s.content f.toMqttFile).length < f.size then
    storeChunks f.size msg.writes n (s.content f.toMqttFile).length (min n maxChunk) msg.payload
  else []

/-- The `upload` operation of `mqtt_handle_bin`, with its return value. -/
def handleUpload (f : MqttFileD) (msg : UplMsg) (now : Int) : UplState × Int :=
  if msg.opens = false then (s, 3)
  else
    let fp := genTempFname f.toMqttFile
    let content := s.content f.toMqttFile
    -- file size check
    if content.length ≥ f.size then (s.setFile fp (some content), 4)
    else
      let content := content ++ s.stores f msg
      let s := (s.setFile fp (some content)).touch f.key now
      -- remove metadata descriptor if finished
      if f.size = content.length then
        let s := s.mqttBinUplDel f.key
        ((s.setFile fp none).setFile (finalFname f.toMqttFile) (some content), 0)
      else (s, 0)

/-- The entry that an `upload` message is for. -/
def target (msg : UplMsg) : Option MqttFileD :=
  match binTopic msg.tpc with
  | some (fileUuid, fileOp) => if fileOp = "upload" then s.findUpl fileUuid else none
  | none => none

/-- `mqtt_handle_bin`, with its return value. -/
def mqttHandleBin (msg : UplMsg) (now : Int) : UplState × Int :=
  match binTopic msg.tpc with
  | some (fileUuid, fileOp) =>
      match s.findUpl fileUuid with
      | none => (s, 2)
      | some f => if fileOp = "upload" then s.handleUpload f msg now else (s, 0)
  | none => (s, 1)

/-- `mqtt_bin_cleanup`. -/
def mqttBinCleanup (now : Int) : UplState :=
  ⟨(cleanupLoop now s.binUploads s.files).1, (cleanupLoop now s.binUploads s.files).2⟩

end UplState

/-- The name and the path for uploads of a connection. -/
structure UplConn where
  name : String
  binUplPath : String
  deriving DecidableEq

/-- Rows of the names and values of their columns. -/
abbrev StdRows := List (List (String × String))

/-- The size argument of `CMD_MQTT_BINARY_UPLOAD`. -/
def sizeArg (data : Option StdRows) : Option String :=
  match data with
  | some (_ :: ((_, sz) :: _) :: _) => some sz
  | _ => none

/-- The checks of `impl_mqtt_bin_upload`: the connection and the size as an `int`. -/
def binUploadArgs (conns : List UplConn) (data : Option StdRows) : Option (UplConn × Int) :=
  match data with
  | some (((_, cname) :: _) :: ((_, sz) :: _) :: _) =>
      match HashTable.find UplConn.name conns cname with
      | some c => some (c, atoi sz)
      | none => none
  | _ => none

/-- `impl_mqtt_bin_upload`, with the uuid and the time: the uploads and the data. -/
def implMqttBinUpload (s : UplState) (conns : List UplConn) (data : Option StdRows) (uuid : Uuid)
    (now : Int) : Except Fault (UplState × Option StdRows) :=
  match binUploadArgs conns data with
  | none => .ok (s, data)
  | some (c, n) => do
      match ← s.mqttBinUplAdd c.binUplPath (sizeT n) uuid now with
      | none => return (s, data)
      -- return file uuid
      | some (fd, s) => return (s, data.map (· ++ [[("file_uuid", fd.uuid.text)]]))

/-- The state with the uploads created in the run and the bytes written for each
uuid. -/
structure UplRun where
  s : UplState
  created : List MqttFile
  stored : String → Nat

/-- What happens to the uploads. -/
inductive UplOp where
  | add (path : String) (fsz : Nat) (uuid : Uuid) (now : Int)
  | request (conns : List UplConn) (data : Option StdRows) (uuid : Uuid) (now : Int)
  | handle (msg : UplMsg) (now : Int)
  | cleanup (now : Int)

namespace UplRun

/-- The plugin before the first upload, with what the disk has already. -/
def start (files : String → Option (List UInt8)) : UplRun := ⟨⟨[], files⟩, [], fun _ => 0⟩

variable (r : UplRun)

/-- The uuid was not used in the run, and there is no file of it. -/
def Fresh (path : String) (uuid : Uuid) : Prop :=
  uuid ∉ r.created.map MqttFile.uuid ∧ r.s.files (genTempFname ⟨path, uuid, 0⟩) = none ∧
    r.s.files (finalFname ⟨path, uuid, 0⟩) = none

instance (path : String) (uuid : Uuid) : Decidable (r.Fresh path uuid) :=
  inferInstanceAs (Decidable (_ ∧ _ ∧ _))

/-- The call of `mqtt_bin_upl_add` with a fresh uuid. -/
def add (path : String) (fsz : Nat) (uuid : Uuid) (now : Int) : Option (Except Fault UplRun) :=
  if r.Fresh path uuid then
    some do
      match ← r.s.mqttBinUplAdd path fsz uuid now with
      | none => return r
      | some (f, s) => return { r with s := s, created := f.toMqttFile :: r.created }
  else none

/-- A message, with the bytes that it stores. -/
def handle (msg : UplMsg) (now : Int) : UplRun where
  s := (r.s.mqttHandleBin msg now).1
  created := r.created
  stored :=
    match r.s.target msg with
    | none => r.stored
    | some f => Function.update r.stored f.key (r.stored f.key + (r.s.stores f msg).length)

/-- One operation. -/
def step : Except Fault UplRun → UplOp → Option (Except Fault UplRun)
  | .error _, _ => none
  | .ok r, .add path fsz uuid now => r.add path fsz uuid now
  | .ok r, .request conns data uuid now =>
      match binUploadArgs conns data with
      | none => some (.ok r)
      | some (c, n) => r.add c.binUplPath (sizeT n) uuid now
  | .ok r, .handle msg now => some (.ok (r.handle msg now))
  | .ok r, .cleanup now => some (.ok { r with s := r.s.mqttBinCleanup now })

end UplRun

section Chunks

/-- The chunks that are stored fit below the size. -/
theorem storeChunks_length_le {size fsz : Nat} (writes : Nat → Nat) (rounds chunk : Nat)
    (pld : List UInt8) (h : fsz ≤ size) :
    fsz + (storeChunks size writes rounds fsz chunk pld).length ≤ size := by
  induction rounds generalizing fsz chunk pld with
  | zero => exact h
  | succ rounds ih =>
      by_cases hnil : pld = []
      · simpa [storeChunks, hnil] using h
      · by_cases hover : fsz + chunk > size
        · simpa [storeChunks, hnil, hover] using h
        · have hrest := ih (min chunk (pld.drop chunk).length) (pld.drop chunk)
            (Nat.not_lt.mp hover)
          have hwrite : ((pld.take chunk).take (writes rounds)).length ≤ chunk :=
            Nat.le_trans (List.length_take_le' _ _) (List.length_take_le _ _)
          simp only [storeChunks, if_neg hnil, if_neg hover, List.length_append]
          omega

end Chunks

section Cleanup

variable (now : Int) (fs : List MqttFileD) (files : String → Option (List UInt8))

/-- The entries that have not expired stay. -/
theorem cleanupLoop_fst : (cleanupLoop now fs files).1 = fs.filter fun f => ¬ f.Expired now := by
  induction fs generalizing files with
  | nil => rfl
  | cons f fs ih =>
      by_cases hexp : f.Expired now
      · simp [cleanupLoop, hexp, ih]
      · simp [cleanupLoop, hexp, ih]

/-- The temporary files of the others are removed. -/
theorem cleanupLoop_snd (name : String) : (cleanupLoop now fs files).2 name =
    if ∃ f ∈ fs, f.Expired now ∧ genTempFname f.toMqttFile = name then none else files name := by
  induction fs generalizing files with
  | nil => simp [cleanupLoop]
  | cons f fs ih =>
      by_cases hexp : f.Expired now
      · rw [cleanupLoop, if_pos hexp, ih, Function.update_apply]
        by_cases hname : name = genTempFname f.toMqttFile
        · simp [hname, hexp]
        · simp [hexp, hname, Ne.symm hname]
      · rw [cleanupLoop, if_neg hexp, ih]
        simp [hexp]

end Cleanup

section Names

variable {f g : MqttFile}

theorem finalFname_ne_finalFname (h : g.uuid.text ≠ f.uuid.text) :
    finalFname g ≠ finalFname f := by
  intro heq
  apply h
  have hlists := congrArg String.toList heq
  simp only [finalFname, String.toList_append] at hlists
  exact String.toList_inj.mp
    (List.append_inj_right' hlists (g.uuid.length_eq.trans f.uuid.length_eq.symm))

theorem Uuid.text_injective {u v : Uuid} (h : u.text = v.text) : u = v := by
  cases u
  cases v
  congr

end Names

namespace UplState

variable {s : UplState} {f : MqttFileD} {msg : UplMsg}

/-- The content of the temporary file after a message for its upload. -/
def after (s : UplState) (f : MqttFileD) (msg : UplMsg) : List UInt8 :=
  s.content f.toMqttFile ++ s.stores f msg

theorem after_length_le (h : (s.content f.toMqttFile).length < f.size) (msg : UplMsg) :
    (s.after f msg).length ≤ f.size := by
  rw [after, List.length_append, stores]
  split_ifs
  · exact storeChunks_length_le _ _ _ _ (Nat.le_of_lt h)
  · exact Nat.le_of_lt h

/-- The state after a message that leaves an upload below its size, and after one that
completes it. -/
theorem handleUpload_cases (h : (s.content f.toMqttFile).length < f.size) (msg : UplMsg)
    (now : Int) :
    (msg.opens = false ∧ s.handleUpload f msg now = (s, 3)) ∨
    ((s.after f msg).length < f.size ∧ s.handleUpload f msg now =
      ((s.setFile (genTempFname f.toMqttFile) (some (s.after f msg))).touch f.key now, 0)) ∨
    ((s.after f msg).length = f.size ∧ s.handleUpload f msg now =
      (((((s.setFile (genTempFname f.toMqttFile) (some (s.after f msg))).touch f.key
        now).mqttBinUplDel f.key).setFile (genTempFname f.toMqttFile) none).setFile
          (finalFname f.toMqttFile) (some (s.after f msg)), 0)) := by
  have hle := after_length_le h msg
  by_cases hopens : msg.opens = false
  · exact .inl ⟨hopens, if_pos hopens⟩
  · refine .inr ?_
    by_cases hdone : f.size = (s.after f msg).length
    · refine .inr ⟨hdone.symm, ?_⟩
      rw [handleUpload, if_neg hopens]
      exact (if_neg (Nat.not_le.mpr h)).trans (if_pos hdone)
    · refine .inl ⟨Nat.lt_of_le_of_ne hle (Ne.symm hdone), ?_⟩
      rw [handleUpload, if_neg hopens]
      exact (if_neg (Nat.not_le.mpr h)).trans (if_neg hdone)

theorem findUpl_touch (s : UplState) (k : String) (now : Int) (k' : String) :
    (s.touch k now).findUpl k' =
      if k' = k then (s.findUpl k).map fun f => { f with ts := now } else s.findUpl k' := by
  have hkey : ∀ f : MqttFileD, f.key = k → ({ f with ts := now } : MqttFileD).key = k :=
    fun _ hk => hk
  exact HashTable.find_modify s.binUploads k hkey k'

theorem map_touch (s : UplState) (k : String) (now : Int) :
    (s.touch k now).binUploads.map MqttFileD.toMqttFile =
      s.binUploads.map MqttFileD.toMqttFile := by
  rw [touch, HashTable.modify, List.map_map]
  apply List.map_congr_left
  intro f _
  rw [Function.comp_apply]
  split_ifs <;> rfl

theorem findUpl_del (s : UplState) (k k' : String) :
    (s.mqttBinUplDel k).findUpl k' = if k' = k then none else s.findUpl k' :=
  HashTable.find_remove s.binUploads k k'

/-- What a message does to its upload, and what it leaves alone. -/
structure Handled (s t : UplState) (f : MqttFileD) (msg : UplMsg) : Prop where
  uploads : (t.binUploads.map MqttFileD.toMqttFile).Sublist
    (s.binUploads.map MqttFileD.toMqttFile)
  other : ∀ k, k ≠ f.key → t.findUpl k = s.findUpl k
  files : ∀ name, name ≠ genTempFname f.toMqttFile → name ≠ finalFname f.toMqttFile →
    t.files name = s.files name
  own : (∃ g, t.findUpl f.key = some g ∧ g.toMqttFile = f.toMqttFile ∧
      t.content f.toMqttFile = s.after f msg ∧ (s.after f msg).length < f.size ∧
      t.files (finalFname f.toMqttFile) = s.files (finalFname f.toMqttFile)) ∨
    ((s.after f msg).length = f.size ∧ t.findUpl f.key = none ∧
      t.files (genTempFname f.toMqttFile) = none ∧
      t.files (finalFname f.toMqttFile) = some (s.after f msg))

/-- An upload that is below its size never gets the return value for full files. -/
theorem handled_handleUpload (hfind : s.findUpl f.key = some f)
    (h : (s.content f.toMqttFile).length < f.size) (msg : UplMsg) (now : Int) :
    s.Handled (s.handleUpload f msg now).1 f msg ∧ (s.handleUpload f msg now).2 ≠ 4 := by
  have hname : finalFname f.toMqttFile ≠ genTempFname f.toMqttFile := finalFname_ne
  obtain ⟨hclosed, hcall⟩ | ⟨hlt, hcall⟩ | ⟨hfull, hcall⟩ := handleUpload_cases h msg now
  · have hafter : s.after f msg = s.content f.toMqttFile := by
      rw [after, stores, if_neg (by simp [hclosed]), List.append_nil]
    rw [hcall]
    refine ⟨⟨List.Sublist.refl _, fun _ _ => rfl, fun _ _ _ => rfl, ?_⟩,
      show (3 : Int) ≠ 4 by decide⟩
    exact .inl ⟨f, hfind, rfl, hafter.symm, hafter ▸ h, rfl⟩
  · rw [hcall]
    refine ⟨⟨?_, ?_, ?_, ?_⟩, show (0 : Int) ≠ 4 by decide⟩
    · rw [map_touch]
      exact List.Sublist.refl _
    · intro k hk
      rw [findUpl_touch, if_neg hk]
      rfl
    · exact fun name htemp _ => Function.update_of_ne htemp _ _
    · have hfile : (s.setFile (genTempFname f.toMqttFile) (some (s.after f msg))).files
          (genTempFname f.toMqttFile) = some (s.after f msg) := Function.update_self _ _ _
      refine .inl ⟨{ f with ts := now }, ?_, rfl, ?_, hlt, Function.update_of_ne hname _ _⟩
      · rw [findUpl_touch, if_pos rfl]
        exact congrArg _ hfind
      · exact congrArg (Option.getD · []) hfile
  · rw [hcall]
    refine ⟨⟨?_, ?_, ?_, ?_⟩, show (0 : Int) ≠ 4 by decide⟩
    · rw [← map_touch s f.key now]
      exact List.filter_sublist.map _
    · intro k hk
      refine (findUpl_del _ _ _).trans ?_
      rw [if_neg hk, findUpl_touch, if_neg hk]
      rfl
    · intro name htemp hfinal
      refine (Function.update_of_ne hfinal _ _).trans ((Function.update_of_ne htemp _ _).trans ?_)
      exact Function.update_of_ne htemp _ _
    · refine .inr ⟨hfull, ?_, ?_, Function.update_self _ _ _⟩
      · exact (findUpl_del _ _ _).trans (if_pos rfl)
      · exact (Function.update_of_ne hname.symm _ _).trans (Function.update_self _ _ _)

/-- A message that is for no upload changes nothing. -/
theorem mqttHandleBin_of_target_none (h : s.target msg = none) (now : Int) :
    (s.mqttHandleBin msg now).1 = s ∧ (s.mqttHandleBin msg now).2 ≠ 4 := by
  unfold target at h
  unfold mqttHandleBin
  cases htopic : binTopic msg.tpc with
  | none => exact ⟨rfl, show (1 : Int) ≠ 4 by decide⟩
  | some p =>
      rw [htopic] at h
      dsimp only at h ⊢
      cases hfind : s.findUpl p.1 with
      | none => exact ⟨rfl, show (2 : Int) ≠ 4 by decide⟩
      | some f =>
          have hop : p.2 ≠ "upload" := by
            intro hop
            rw [if_pos hop, hfind] at h
            cases h
          dsimp only
          rw [if_neg hop]
          exact ⟨rfl, show (0 : Int) ≠ 4 by decide⟩

theorem mqttHandleBin_of_target (h : s.target msg = some f) (now : Int) :
    s.mqttHandleBin msg now = s.handleUpload f msg now ∧ s.findUpl f.key = some f ∧
      ∃ op, binTopic msg.tpc = some (f.key, op) := by
  unfold target at h
  unfold mqttHandleBin
  cases htopic : binTopic msg.tpc with
  | none => rw [htopic] at h; cases h
  | some p =>
      rw [htopic] at h
      obtain ⟨hop, hfind⟩ := Option.ite_none_right_eq_some.mp h
      have hkey : f.key = p.1 := HashTable.key_of_find hfind
      dsimp only
      rw [hfind]
      refine ⟨if_pos hop, hkey ▸ hfind, p.2, ?_⟩
      rw [hkey]

/-- `mqtt_bin_cleanup` keeps the entries that have not expired. -/
theorem binUploads_cleanup (s : UplState) (now : Int) :
    (s.mqttBinCleanup now).binUploads = s.binUploads.filter fun f => ¬ f.Expired now :=
  cleanupLoop_fst now _ _

theorem files_cleanup (s : UplState) (now : Int) (name : String) :
    (s.mqttBinCleanup now).files name =
      if ∃ f ∈ s.binUploads, f.Expired now ∧ genTempFname f.toMqttFile = name then none
      else s.files name :=
  cleanupLoop_snd now _ _ name

end UplState

end Umink.Mqtt
