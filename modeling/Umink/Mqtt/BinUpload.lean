import Mathlib.Logic.Function.Basic
import Umink.Library.CharArray
import Umink.Library.HashTable

/-!
# Binary uploads

`mqtt_bin_upl_add` announces a file of a given size under a fresh uuid.
`mqtt_handle_bin` appends the payloads that arrive for the uuid to a temporary
file, in chunks and only as far as the announced size allows, and renames the
file when it has that size.

## Implementation notes

Each `write` writes all its bytes. Whether `open` succeeds is part of a message.
A file that is not there has no content. No entry expires, so the time stamps
and `mqtt_bin_cleanup` are left out. A path has a character for each of its bytes.
-/

namespace Umink.Mqtt

open Umink.Library

/-- The text that `uuid_unparse_lower` writes. -/
structure Uuid where
  text : String
  length_eq : text.toList.length = 36
  not_dot : '.' ∉ text.toList
  deriving DecidableEq

structure MqttFile where
  path : String
  uuid : Uuid
  size : Nat
  deriving DecidableEq

/-- A message on a binary topic. -/
structure BinMsg where
  tpc : String
  payload : List UInt8
  opens : Bool

/-- The copy of a path into its field of 128 bytes, which has no bound; `MqttFileMem` has the
field itself. -/
def copyPath (path : String) : Except Fault String :=
  if path.length < 128 then .ok path else .error (.store 128 128)

/-- The announced uploads, and the content of every file. -/
structure BinState where
  binUploads : List MqttFile
  files : String → Option (List UInt8)

/-- The nonempty parts of a string between the separators. -/
def strtok (s : String) (sep : Char) : List String :=
  ((s.toList.splitOn sep).filter (· ≠ [])).map String.ofList

def genTempFname (f : MqttFile) : String := f.path ++ "/" ++ f.uuid.text ++ ".tmp"

/-- The name without the extension. -/
def finalFname (f : MqttFile) : String := f.path ++ "/" ++ f.uuid.text

/-- The largest chunk that is written at once. -/
def maxChunk : Nat := 2097152

/-- The loop of `mqtt_handle_bin` over the chunks of a payload, which ends before the
first chunk that does not fit. Each round writes a byte at least, so the length of the
payload bounds the rounds. -/
def writeChunks (size : Nat) : Nat → Nat → Nat → List UInt8 → List UInt8 → List UInt8
  | 0, _, _, _, content => content
  | rounds + 1, fsz, chunk, pld, content =>
      if pld = [] then content
      else if fsz + chunk > size then content
      else
        let rest := pld.drop chunk
        writeChunks size rounds (fsz + chunk) (min chunk rest.length) rest
          (content ++ pld.take chunk)

namespace BinState

variable (s : BinState)

/-- The entry under a uuid. -/
def findUpl (uuid : String) : Option MqttFile :=
  HashTable.find (fun f => f.uuid.text) s.binUploads uuid

/-- `mqtt_bin_upl_add`, with the uuid that `uuid_generate` gives. -/
def mqttBinUplAdd (path : String) (fsz : Nat) (uuid : Uuid) :
    Except Fault (Option (MqttFile × BinState)) :=
  if fsz = 0 then .ok none
  else if (s.findUpl uuid.text).isSome then .ok none
  else do
    let fpath ← copyPath path
    let f := ⟨fpath, uuid, fsz⟩
    return some (f, { s with binUploads := HashTable.add s.binUploads f })

def setFile (name : String) (content : Option (List UInt8)) : BinState :=
  { s with files := Function.update s.files name content }

/-- The `upload` operation of `mqtt_handle_bin`, with its return value. -/
def handleUpload (f : MqttFile) (msg : BinMsg) : BinState × Int :=
  if msg.opens = false then (s, 3)
  else
    let fp := genTempFname f
    let content := (s.files fp).getD []
    let fsz := content.length
    if fsz ≥ f.size then (s.setFile fp (some content), 4)
    else
      let pld := msg.payload
      let content := writeChunks f.size pld.length fsz (min pld.length maxChunk) pld content
      if f.size = content.length then
        let s := { s with binUploads := s.binUploads.erase f }
        ((s.setFile fp none).setFile (finalFname f) (some content), 0)
      else (s.setFile fp (some content), 0)

/-- `mqtt_handle_bin`, with its return value. -/
def mqttHandleBin (msg : BinMsg) : BinState × Int :=
  match strtok msg.tpc '/' with
  | _ :: _ :: fileUuid :: fileOp :: _ =>
      match s.findUpl fileUuid with
      | none => (s, 2)
      | some f => if fileOp = "upload" then s.handleUpload f msg else (s, 0)
  | _ => (s, 1)

/-- The state after a sequence of messages. -/
def run (msgs : List BinMsg) : BinState := msgs.foldl (fun s msg => (s.mqttHandleBin msg).1) s

end BinState

section Chunks

/-- How many bytes of a payload of `n` bytes `writeChunks` writes. -/
def chunksLength (size : Nat) : Nat → Nat → Nat → Nat → Nat
  | 0, _, _, _ => 0
  | rounds + 1, fsz, chunk, n =>
      if n = 0 then 0
      else if fsz + chunk > size then 0
      else chunk + chunksLength size rounds (fsz + chunk) (min chunk (n - chunk)) (n - chunk)

theorem writeChunks_eq (size rounds fsz chunk : Nat) (pld content : List UInt8) :
    writeChunks size rounds fsz chunk pld content =
      content ++ pld.take (chunksLength size rounds fsz chunk pld.length) := by
  induction rounds generalizing fsz chunk pld content with
  | zero => simp [writeChunks, chunksLength]
  | succ rounds ih =>
      by_cases hnil : pld = []
      · simp [writeChunks, hnil]
      · have hlen : pld.length ≠ 0 := fun h => hnil (List.length_eq_zero_iff.mp h)
        by_cases hover : fsz + chunk > size
        · simp [writeChunks, chunksLength, hnil, hover]
        · simp only [writeChunks, chunksLength, if_neg hnil, if_neg hlen, if_neg hover]
          rw [ih, List.length_drop, List.take_add, List.append_assoc]

/-- A payload that fits is written to its end. -/
theorem chunksLength_of_fits {size rounds fsz chunk n : Nat} (hrounds : n ≤ rounds)
    (hchunk : chunk ≤ n) (hpos : 0 < n → 0 < chunk) (hfits : fsz + n ≤ size) :
    chunksLength size rounds fsz chunk n = n := by
  induction rounds generalizing fsz chunk n with
  | zero =>
      have hn : n = 0 := by omega
      simp [chunksLength, hn]
  | succ rounds ih =>
      by_cases hn : n = 0
      · simp [chunksLength, hn]
      · have hover : ¬ fsz + chunk > size := by omega
        have hrest : chunksLength size rounds (fsz + chunk) (min chunk (n - chunk)) (n - chunk) =
            n - chunk := by
          apply ih
          · omega
          · omega
          · omega
          · omega
        simp only [chunksLength, if_neg hn, if_neg hover, hrest]
        omega

theorem chunksLength_le {size rounds fsz chunk n : Nat} (hchunk : chunk ≤ n)
    (hfsz : fsz ≤ size) :
    chunksLength size rounds fsz chunk n ≤ n ∧
      fsz + chunksLength size rounds fsz chunk n ≤ size := by
  induction rounds generalizing fsz chunk n with
  | zero => exact ⟨Nat.zero_le _, hfsz⟩
  | succ rounds ih =>
      by_cases hn : n = 0
      · simp [chunksLength, hn, hfsz]
      · by_cases hover : fsz + chunk > size
        · simp [chunksLength, hn, hover, hfsz]
        · simp only [chunksLength, if_neg hn, if_neg hover]
          have hrest : min chunk (n - chunk) ≤ n - chunk := Nat.min_le_right _ _
          obtain ⟨hle, hsize⟩ := ih hrest (Nat.not_lt.mp hover)
          omega

end Chunks

/-- How many bytes of a payload of `n` bytes are appended to a file of `len` bytes. -/
def MqttFile.writtenLength (f : MqttFile) (len n : Nat) : Nat :=
  chunksLength f.size n len (min n maxChunk) n

variable {f : MqttFile}

theorem copyPath_of_lt {path : String} (h : path.length < 128) : copyPath path = .ok path :=
  if_pos h

theorem copyPath_of_le {path : String} (h : 128 ≤ path.length) :
    copyPath path = .error (.store 128 128) := if_neg (Nat.not_lt.mpr h)

theorem MqttFile.writtenLength_of_fits {len n : Nat} (h : len + n ≤ f.size) :
    f.writtenLength len n = n := by
  apply chunksLength_of_fits (Nat.le_refl n) (Nat.min_le_left _ _) _ h
  intro hn
  exact Nat.lt_min.mpr ⟨hn, by decide⟩

theorem MqttFile.writtenLength_le {len : Nat} (h : len ≤ f.size) (n : Nat) :
    f.writtenLength len n ≤ n ∧ len + f.writtenLength len n ≤ f.size :=
  chunksLength_le (Nat.min_le_left _ _) h

section Names

variable {g : MqttFile}

theorem genTempFname_ne (h : g.uuid.text ≠ f.uuid.text) : genTempFname g ≠ genTempFname f := by
  intro heq
  apply h
  have hlists := congrArg String.toList heq
  simp only [genTempFname, String.toList_append] at hlists
  have hnames := List.append_cancel_right hlists
  exact String.toList_inj.mp
    (List.append_inj_right' hnames (g.uuid.length_eq.trans f.uuid.length_eq.symm))

/-- The name of a finished file is no name of a temporary one, which ends with an
extension. -/
theorem finalFname_ne : finalFname g ≠ genTempFname f := by
  intro heq
  have hlists := congrArg String.toList heq
  simp only [finalFname, genTempFname, String.toList_append] at hlists
  rcases List.append_eq_append_iff.mp hlists with ⟨rest, -, hext⟩ | ⟨rest, -, hext⟩
  · apply g.uuid.not_dot
    rw [hext]
    simp
  · have hlen := congrArg List.length hext
    rw [List.length_append, g.uuid.length_eq] at hlen
    simp at hlen

end Names

/-- The message uploads to the uuid. -/
def uploadsTo (uuid : String) (msg : BinMsg) : Bool :=
  match strtok msg.tpc '/' with
  | _ :: _ :: fileUuid :: fileOp :: _ => fileUuid = uuid ∧ fileOp = "upload"
  | _ => false

/-- All payloads that are delivered for the uuid, in the order of their arrival. -/
def payloads (uuid : String) (msgs : List BinMsg) : List UInt8 :=
  ((msgs.filter (uploadsTo uuid)).map BinMsg.payload).flatten

/-- How many bytes of a message are appended to a temporary file of `len` bytes. -/
def MqttFile.taken (f : MqttFile) (len : Nat) (msg : BinMsg) : Nat :=
  if uploadsTo f.uuid.text msg ∧ msg.opens then f.writtenLength len msg.payload.length else 0

/-- The content of the temporary file after a message. -/
def MqttFile.accept (f : MqttFile) (content : List UInt8) (msg : BinMsg) : List UInt8 :=
  content ++ msg.payload.take (f.taken content.length msg)

theorem MqttFile.taken_le {len : Nat} (h : len ≤ f.size) (msg : BinMsg) :
    f.taken len msg ≤ msg.payload.length ∧ len + f.taken len msg ≤ f.size := by
  unfold MqttFile.taken
  split
  · exact f.writtenLength_le h msg.payload.length
  · exact ⟨Nat.zero_le _, h⟩

theorem MqttFile.accept_of_not_uploadsTo {content : List UInt8} {msg : BinMsg}
    (h : ¬ uploadsTo f.uuid.text msg) : f.accept content msg = content := by
  simp [MqttFile.accept, MqttFile.taken, h]

theorem MqttFile.length_accept {content : List UInt8} (h : content.length ≤ f.size)
    (msg : BinMsg) :
    (f.accept content msg).length = content.length + f.taken content.length msg := by
  have hle := (f.taken_le h msg).1
  rw [MqttFile.accept, List.length_append, List.length_take]
  omega

theorem MqttFile.length_accept_le {content : List UInt8} (h : content.length ≤ f.size)
    (msg : BinMsg) : (f.accept content msg).length ≤ f.size := by
  rw [f.length_accept h]
  exact (f.taken_le h msg).2

namespace BinState

variable {s : BinState} {content : List UInt8}

/-- The entries under the uuid of `f`. -/
def entries (s : BinState) (f : MqttFile) : List MqttFile :=
  s.binUploads.filter fun g => g.uuid.text = f.uuid.text

/-- The upload is announced and its temporary file has the given content. -/
structure Live (s : BinState) (f : MqttFile) (content : List UInt8) : Prop where
  entry : s.entries f = [f]
  file : (s.files (genTempFname f)).getD [] = content
  below : content.length < f.size

theorem Live.findUpl (h : s.Live f content) : s.findUpl f.uuid.text = some f :=
  HashTable.find_of_filter h.entry

/-- An upload under another uuid leaves this one alone. -/
theorem Live.handleUpload_other (h : s.Live f content) {g : MqttFile}
    (hne : g.uuid.text ≠ f.uuid.text) (msg : BinMsg) : (s.handleUpload g msg).1.Live f content := by
  have hfile : ∀ (u : BinState) name c, name ≠ genTempFname f →
      (u.setFile name c).files (genTempFname f) = u.files (genTempFname f) := fun u name c hn =>
    Function.update_of_ne hn.symm _ _
  have htemp := genTempFname_ne hne
  have hfinal : finalFname g ≠ genTempFname f := finalFname_ne
  unfold handleUpload
  split
  case isTrue => exact h
  case isFalse =>
      dsimp only
      split
      case isTrue =>
          refine ⟨h.entry, ?_, h.below⟩
          rw [hfile _ _ _ htemp]
          exact h.file
      case isFalse =>
          split
          case isTrue =>
              refine ⟨?_, ?_, h.below⟩
              · have hfg : f ≠ g := fun hfg => hne (hfg ▸ rfl)
                have herase := List.erase_filter (f := fun g => g.uuid.text = f.uuid.text)
                  (l := s.binUploads) (a := g)
                calc
                  (s.binUploads.erase g).filter (fun g => g.uuid.text = f.uuid.text) =
                      (s.entries f).erase g := herase.symm
                  _ = [f] := by rw [h.entry, List.erase_cons_tail (by simpa using hfg)]; rfl
              · rw [hfile _ _ _ hfinal, hfile _ _ _ htemp]
                exact h.file
          case isFalse =>
              refine ⟨h.entry, ?_, h.below⟩
              rw [hfile _ _ _ htemp]
              exact h.file

/-- What a message makes of an upload: the temporary file goes on with the new content,
or the entry is gone and the file has its final name. -/
def Received (t : BinState) (f : MqttFile) (content : List UInt8) : Prop :=
  (content.length < f.size ∧ t.Live f content) ∨
    (content.length = f.size ∧ t.entries f = [] ∧ t.files (finalFname f) = some content)

theorem Live.received (h : s.Live f content) : s.Received f content := .inl ⟨h.below, h⟩

theorem Live.handleUpload_self (h : s.Live f content) {msg : BinMsg}
    (hup : uploadsTo f.uuid.text msg) :
    (s.handleUpload f msg).1.Received f (f.accept content msg) := by
  have hbelow : ¬ content.length ≥ f.size := Nat.not_le.mpr h.below
  by_cases hopens : msg.opens = false
  · have haccept : f.accept content msg = content := by
      simp [MqttFile.accept, MqttFile.taken, hopens]
    have hsame : s.handleUpload f msg = (s, 3) := by simp only [handleUpload, if_pos hopens]
    rw [haccept, hsame]
    exact h.received
  · have haccept : f.accept content msg =
        content ++ msg.payload.take (f.writtenLength content.length msg.payload.length) := by
      rw [Bool.not_eq_false] at hopens
      rw [MqttFile.accept, MqttFile.taken, if_pos ⟨hup, hopens⟩]
    have hwritten : writeChunks f.size msg.payload.length content.length
        (min msg.payload.length maxChunk) msg.payload content = f.accept content msg := by
      rw [writeChunks_eq, haccept]
      rfl
    have hle := f.length_accept_le (Nat.le_of_lt h.below) msg
    by_cases hdone : f.size = (f.accept content msg).length
    · have hcall : (s.handleUpload f msg).1 =
          (({ s with binUploads := s.binUploads.erase f } : BinState).setFile (genTempFname f)
            none).setFile (finalFname f) (some (f.accept content msg)) := by
        simp only [handleUpload, if_neg hopens, h.file, if_neg hbelow, hwritten, if_pos hdone]
      refine .inr ⟨hdone.symm, ?_, ?_⟩
      · have herase := List.erase_filter (f := fun g => g.uuid.text = f.uuid.text)
          (l := s.binUploads) (a := f)
        calc
          (s.handleUpload f msg).1.entries f = (s.entries f).erase f := by
            rw [hcall]
            exact herase.symm
          _ = [] := by rw [h.entry, List.erase_cons_head]
      · rw [hcall]
        exact Function.update_self _ _ _
    · have hcall : (s.handleUpload f msg).1 =
          s.setFile (genTempFname f) (some (f.accept content msg)) := by
        simp only [handleUpload, if_neg hopens, h.file, if_neg hbelow, hwritten, if_neg hdone]
      have hlt : (f.accept content msg).length < f.size := by omega
      refine .inl ⟨hlt, ?_⟩
      rw [hcall]
      refine ⟨h.entry, ?_, hlt⟩
      have hfile : (s.setFile (genTempFname f) (some (f.accept content msg))).files
          (genTempFname f) = some (f.accept content msg) := Function.update_self _ _ _
      rw [hfile]
      rfl

/-- One message, for this upload or for any other topic. -/
theorem Live.step (h : s.Live f content) (msg : BinMsg) :
    (s.mqttHandleBin msg).1.Received f (f.accept content msg) := by
  have hother : ¬ uploadsTo f.uuid.text msg → f.accept content msg = content :=
    MqttFile.accept_of_not_uploadsTo
  unfold mqttHandleBin
  split
  case h_1 dev x fileUuid fileOp rest htok =>
      have huploads : uploadsTo f.uuid.text msg ↔
          fileUuid = f.uuid.text ∧ fileOp = "upload" := by
        simp only [uploadsTo, htok, decide_eq_true_eq]
      by_cases hid : fileUuid = f.uuid.text
      · simp only [hid, h.findUpl]
        by_cases hop : fileOp = "upload"
        · rw [if_pos hop]
          exact h.handleUpload_self (huploads.mpr ⟨hid, hop⟩)
        · rw [if_neg hop, hother fun hup => hop (huploads.mp hup).2]
          exact h.received
      · rw [hother fun hup => hid (huploads.mp hup).1]
        cases hfind : s.findUpl fileUuid with
        | none => exact h.received
        | some g =>
            have hkey := HashTable.key_of_find hfind
            dsimp only
            split
            · exact (h.handleUpload_other (fun hg => hid (hkey.symm.trans hg)) msg).received
            · exact h.received
  case h_2 htok =>
      have hno : ¬ uploadsTo f.uuid.text msg := by
        unfold uploadsTo
        split
        case h_1 heq => exact absurd heq (htok _ _ _ _ _)
        case h_2 => simp
      rw [hother hno]
      exact h.received

theorem binUploads_sublist (s : BinState) (msg : BinMsg) :
    (s.mqttHandleBin msg).1.binUploads.Sublist s.binUploads := by
  have hupload : ∀ g, (s.handleUpload g msg).1.binUploads.Sublist s.binUploads := by
    intro g
    unfold handleUpload
    split
    · exact List.Sublist.refl _
    · dsimp only
      split
      · exact List.Sublist.refl _
      · split
        · exact List.erase_sublist
        · exact List.Sublist.refl _
  unfold mqttHandleBin
  split
  · split
    · exact List.Sublist.refl _
    · split
      · exact hupload _
      · exact List.Sublist.refl _
  · exact List.Sublist.refl _

/-- Once its entry is gone no message concerns the upload. -/
theorem entries_run (h : s.entries f = []) (msgs : List BinMsg) : (s.run msgs).entries f = [] := by
  induction msgs generalizing s with
  | nil => exact h
  | cons msg msgs ih =>
      apply ih
      have hsub := (s.binUploads_sublist msg).filter fun g => g.uuid.text = f.uuid.text
      exact List.sublist_nil.mp (h ▸ hsub)

theorem length_le_foldl_accept (content : List UInt8) (msgs : List BinMsg) :
    content.length ≤ (msgs.foldl f.accept content).length := by
  induction msgs generalizing content with
  | nil => exact Nat.le_refl _
  | cons msg msgs ih =>
      calc
        content.length ≤ (f.accept content msg).length := by simp [MqttFile.accept]
        _ ≤ ((msg :: msgs).foldl f.accept content).length := ih _

/-- The upload is under way after a sequence of messages that leaves it below its
size. -/
theorem Live.run (h : s.Live f content) {msgs : List BinMsg}
    (hbelow : (msgs.foldl f.accept content).length < f.size) :
    (s.run msgs).Live f (msgs.foldl f.accept content) := by
  induction msgs generalizing s content with
  | nil => exact h
  | cons msg msgs ih =>
      have hle : (f.accept content msg).length ≤
          (msgs.foldl f.accept (f.accept content msg)).length :=
        length_le_foldl_accept _ msgs
      rcases h.step msg with ⟨-, hlive⟩ | ⟨hfull, -, -⟩
      · exact ih hlive hbelow
      · have hbelow' : (msgs.foldl f.accept (f.accept content msg)).length < f.size := hbelow
        omega

/-- The upload is over after a sequence of messages that does not. -/
theorem Live.run_full (h : s.Live f content) {msgs : List BinMsg}
    (hfull : ¬ (msgs.foldl f.accept content).length < f.size) : (s.run msgs).entries f = [] := by
  induction msgs generalizing s content with
  | nil => exact absurd h.below hfull
  | cons msg msgs ih =>
      rcases h.step msg with ⟨-, hlive⟩ | ⟨-, hgone, -⟩
      · exact ih hlive hfull
      · exact entries_run hgone msgs

/-- The message ends the upload: its entry is removed and its file gets its final name. -/
def Completes (s : BinState) (f : MqttFile) (msg : BinMsg) : Prop :=
  s.findUpl f.uuid.text = some f ∧ (s.mqttHandleBin msg).1.findUpl f.uuid.text = none

theorem findUpl_of_entries (h : s.entries f = []) : s.findUpl f.uuid.text = none := by
  rw [findUpl, HashTable.find, ← List.head?_filter, List.filter_reverse]
  exact congrArg (fun l : List MqttFile => l.reverse.head?) h

/-- A message ends the upload exactly when it takes the temporary file to its size. -/
theorem Live.completes_run_iff (h : s.Live f content) {msgs : List BinMsg} {msg : BinMsg} :
    (s.run msgs).Completes f msg ↔
      (msgs.foldl f.accept content).length < f.size ∧
        (f.accept (msgs.foldl f.accept content) msg).length = f.size := by
  by_cases hbelow : (msgs.foldl f.accept content).length < f.size
  · have hlive := h.run hbelow
    rcases hlive.step msg with ⟨hlt, hnext⟩ | ⟨hfull, hgone, -⟩
    · constructor
      · rintro ⟨-, hnone⟩
        rw [hnext.findUpl] at hnone
        cases hnone
      · rintro ⟨-, hfull⟩
        omega
    · exact ⟨fun _ => ⟨hbelow, hfull⟩, fun _ => ⟨hlive.findUpl, findUpl_of_entries hgone⟩⟩
  · constructor
    · rintro ⟨hsome, -⟩
      rw [findUpl_of_entries (h.run_full hbelow)] at hsome
      cases hsome
    · rintro ⟨hlt, -⟩
      exact absurd hlt hbelow

/-- The file that a completed upload leaves. -/
theorem Live.file_of_completes (h : s.Live f content) {msgs : List BinMsg} {msg : BinMsg}
    (hdone : (s.run msgs).Completes f msg) :
    ((s.run msgs).mqttHandleBin msg).1.files (finalFname f) =
      some (f.accept (msgs.foldl f.accept content) msg) := by
  obtain ⟨hbelow, hfull⟩ := h.completes_run_iff.mp hdone
  rcases (h.run hbelow).step msg with ⟨hlt, -⟩ | ⟨-, -, hfile⟩
  · omega
  · exact hfile

/-- A file that was just announced under a uuid without a temporary file. -/
theorem live_of_add {path : String} {fsz : Nat} {uuid : Uuid} {t : BinState}
    (hadd : s.mqttBinUplAdd path fsz uuid = .ok (some (f, t)))
    (hnew : s.files (genTempFname f) = none) : f = ⟨path, uuid, fsz⟩ ∧ t.Live f [] := by
  unfold mqttBinUplAdd at hadd
  split at hadd
  case isTrue => cases hadd
  case isFalse hpos =>
      split at hadd
      case isTrue => cases hadd
      case isFalse hnone =>
          by_cases hpath : path.length < 128
          · rw [copyPath_of_lt hpath, ok_bind] at hadd
            obtain ⟨rfl, rfl⟩ := Prod.mk.inj (Option.some.inj (Except.ok.inj hadd))
            refine ⟨rfl, ?_, ?_, Nat.pos_of_ne_zero hpos⟩
            · have hold : s.binUploads.filter (fun g => g.uuid.text = uuid.text) = [] := by
                rw [Option.not_isSome_iff_eq_none, findUpl, HashTable.find,
                  ← List.head?_filter, List.head?_eq_none_iff, List.filter_reverse,
                  List.reverse_eq_nil_iff] at hnone
                exact hnone
              simp [entries, HashTable.add, List.filter_append, hold]
            · simp [hnew]
          · rw [copyPath_of_le (Nat.not_lt.mp hpath)] at hadd
            cases hadd

end BinState

end Umink.Mqtt
