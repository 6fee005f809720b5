import Umink.Mqtt.Uploads

/-!
# Topics of binary uploads

A message for an upload has the topic `mink.bin/<device>/<file uuid>/upload`. The
tokenizer of `mqtt_handle_bin` drops empty levels and ignores what follows the
fourth token, so that other topics are taken for it as well.
-/

namespace Umink.Mqtt

open Umink.Library

/-- The levels of a topic, the empty ones included. -/
def topicLevels (tpc : String) : List String := (tpc.toList.splitOn '/').map String.ofList

/-- The topic has four levels, none of them empty. -/
structure FourLevels (tpc : String) : Prop where
  length : (topicLevels tpc).length = 4
  nonempty : "" ∉ topicLevels tpc

/-- A topic that `mqtt_on_rx` passes on. -/
def BinTopic (tpc : String) : Prop := "mink.bin/".toList <+: tpc.toList

instance (tpc : String) : Decidable (BinTopic tpc) :=
  inferInstanceAs (Decidable ("mink.bin/".toList <+: tpc.toList))

/-- The message is for the upload under the uuid. -/
def UploadTopic (tpc uuid : String) : Prop :=
  ∃ dev, topicLevels tpc = ["mink.bin", dev, uuid, "upload"] ∧ dev ≠ "" ∧ uuid ≠ ""

namespace UplState

variable (s : UplState) (msg : UplMsg) (now : Int)

/-- A message changes something only on the topic of an upload, and no files but those of
this upload; other numbers of levels and empty levels are an error. -/
structure TopicGrammar : Prop where
  writes : (s.mqttHandleBin msg now).1 ≠ s → ∃ uuid f, UploadTopic msg.tpc uuid ∧
    s.findUpl uuid = some f ∧
    ∀ name, name ≠ genTempFname f.toMqttFile → name ≠ finalFname f.toMqttFile →
      (s.mqttHandleBin msg now).1.files name = s.files name
  rejects : ¬ FourLevels msg.tpc →
    (s.mqttHandleBin msg now).2 ≠ 0 ∧ (s.mqttHandleBin msg now).1 = s

/-- The third nonempty level is the uuid of an upload, and the fourth one is not `upload`
or the temporary file can be opened and has not reached its size. -/
def TakesTokens : Prop :=
  ∃ uuid op f, binTopic msg.tpc = some (uuid, op) ∧ s.findUpl uuid = some f ∧
    (op = "upload" → msg.opens = true ∧
      ∀ content, s.files (genTempFname f.toMqttFile) = some content → content.length < f.size)

variable {s msg now}

section Levels

variable {tpc : String}

theorem strtok_eq (tpc : String) : strtok tpc '/' = (topicLevels tpc).filter (· ≠ "") := by
  rw [strtok, topicLevels, List.filter_map]
  congr 2
  funext l
  simp

theorem topicLevels_of_binTopic (h : BinTopic tpc) :
    ∃ levels, topicLevels tpc = "mink.bin" :: levels := by
  obtain ⟨rest, hrest⟩ := h
  have hsplit : tpc.toList.splitOn '/' = "mink.bin".toList :: rest.splitOn '/' := by
    have hsep : "mink.bin/".toList ++ rest = "mink.bin".toList ++ '/' :: rest := rfl
    rw [← hrest, hsep, List.splitOn_append_cons_self_of_not_mem (by decide)]
  exact ⟨(rest.splitOn '/').map String.ofList, by rw [topicLevels, hsplit]; rfl⟩

/-- The tokens of a topic with four levels. -/
theorem binTopic_of_fourLevels (hbin : BinTopic tpc) (h : FourLevels tpc) :
    ∃ dev uuid op, topicLevels tpc = ["mink.bin", dev, uuid, op] ∧ dev ≠ "" ∧ uuid ≠ "" ∧
      binTopic tpc = some (uuid, op) := by
  obtain ⟨levels, hlevels⟩ := topicLevels_of_binTopic hbin
  have hlen := h.length
  have hne := h.nonempty
  have htok : strtok tpc '/' = topicLevels tpc := by
    rw [strtok_eq, List.filter_eq_self]
    intro l hl
    exact decide_eq_true fun heq => hne (heq ▸ hl)
  rw [hlevels] at hlen hne htok
  obtain ⟨dev, uuid, op, rfl⟩ := List.length_eq_three.mp (Nat.succ.inj hlen)
  refine ⟨dev, uuid, op, hlevels, ?_, ?_, ?_⟩
  · rintro rfl
    simp at hne
  · rintro rfl
    simp at hne
  · rw [binTopic, htok]

end Levels

section Handle

theorem setFile_self {name : String} {content : List UInt8} (h : s.files name = some content) :
    s.setFile name (some content) = s := by
  rw [setFile, ← h, Function.update_eq_self]

/-- What an `upload` message leaves of other files. -/
theorem handleUpload_files (f : MqttFileD) {name : String}
    (htmp : name ≠ genTempFname f.toMqttFile) (hfinal : name ≠ finalFname f.toMqttFile) :
    (s.handleUpload f msg now).1.files name = s.files name := by
  unfold handleUpload
  dsimp only
  split_ifs
  · rfl
  · exact Function.update_of_ne htmp _ _
  · refine (Function.update_of_ne hfinal _ _).trans ?_
    exact (Function.update_of_ne htmp _ _).trans (Function.update_of_ne htmp _ _)
  · exact Function.update_of_ne htmp _ _

theorem handleUpload_of_full (hopens : msg.opens = true) {f : MqttFileD}
    (hfull : (s.content f.toMqttFile).length ≥ f.size) : s.handleUpload f msg now =
      (s.setFile (genTempFname f.toMqttFile) (some (s.content f.toMqttFile)), 4) := by
  simp only [handleUpload, hopens, Bool.true_eq_false, if_false]
  exact if_pos hfull

theorem handleUpload_of_room (hopens : msg.opens = true) {f : MqttFileD}
    (hroom : (s.content f.toMqttFile).length < f.size) : (s.handleUpload f msg now).2 = 0 := by
  simp only [handleUpload, hopens, Bool.true_eq_false, if_false]
  rw [if_neg (Nat.not_le.mpr hroom)]
  split_ifs <;> rfl

/-- An `upload` message is rejected without a change exactly when the file cannot be
opened or has reached its size. -/
theorem handleUpload_rejects_iff (f : MqttFileD) :
    ((s.handleUpload f msg now).2 ≠ 0 ∧ (s.handleUpload f msg now).1 = s) ↔
      ¬ (msg.opens = true ∧ ∀ content,
        s.files (genTempFname f.toMqttFile) = some content → content.length < f.size) := by
  cases hopens : msg.opens with
  | false => simp [handleUpload, hopens]
  | true =>
      rw [and_iff_right rfl]
      by_cases hfull : (s.content f.toMqttFile).length ≥ f.size
      · rw [handleUpload_of_full hopens hfull]
        cases hfile : s.files (genTempFname f.toMqttFile) with
        | none =>
            refine iff_of_false ?_ (by simp)
            rintro ⟨-, hsame⟩
            have hat := congrFun (congrArg UplState.files hsame) (genTempFname f.toMqttFile)
            dsimp only [setFile] at hat
            rw [hfile, Function.update_self] at hat
            cases hat
        | some content =>
            have hcontent : s.content f.toMqttFile = content := by
              rw [UplState.content, hfile, Option.getD_some]
            rw [hcontent] at hfull ⊢
            have hcode : (4 : Int) ≠ 0 := by decide
            refine iff_of_true ⟨hcode, setFile_self hfile⟩ fun hlt => ?_
            exact absurd (hlt content rfl) (Nat.not_lt.mpr hfull)
      · have hroom := Nat.not_le.mp hfull
        rw [handleUpload_of_room hopens hroom]
        refine iff_of_false (fun h => h.1 rfl) fun hno => hno fun content hfile => ?_
        rwa [UplState.content, hfile, Option.getD_some] at hroom

/-- A message is rejected without a change exactly when its tokens are not taken. -/
theorem mqttHandleBin_rejects_iff :
    ((s.mqttHandleBin msg now).2 ≠ 0 ∧ (s.mqttHandleBin msg now).1 = s) ↔
      ¬ s.TakesTokens msg := by
  unfold mqttHandleBin TakesTokens
  cases htokens : binTopic msg.tpc with
  | none => simp
  | some tokens =>
      obtain ⟨uuid, op⟩ := tokens
      cases hfind : s.findUpl uuid with
      | none => simp [hfind]
      | some f =>
          by_cases hop : op = "upload"
          · subst hop
            simp only [hfind, if_true, handleUpload_rejects_iff f]
            simp [hfind]
          · simp [hfind, hop]

end Handle

/-- For a topic of binary uploads, messages are taken by the grammar exactly if the
topic has four nonempty levels or the tokens of it are not taken. -/
theorem topic_grammar_iff (hbin : BinTopic msg.tpc) :
    s.TopicGrammar msg now ↔ FourLevels msg.tpc ∨ ¬ s.TakesTokens msg := by
  constructor
  · intro h
    by_cases hfour : FourLevels msg.tpc
    · exact .inl hfour
    · exact .inr (mqttHandleBin_rejects_iff.mp (h.rejects hfour))
  · rintro (hfour | htakes)
    · refine ⟨fun hchange => ?_, fun hno => absurd hfour hno⟩
      obtain ⟨dev, uuid, op, hlevels, hdev, huuid, htokens⟩ := binTopic_of_fourLevels hbin hfour
      have htakes : s.TakesTokens msg := by
        by_contra hno
        exact hchange (mqttHandleBin_rejects_iff.mpr hno).2
      obtain ⟨uuid', op', f, htokens', hfind, -⟩ := htakes
      obtain ⟨rfl, rfl⟩ := Prod.mk.inj (Option.some.inj (htokens.symm.trans htokens'))
      by_cases hop : op = "upload"
      · subst hop
        refine ⟨uuid, f, ⟨dev, hlevels, hdev, huuid⟩, hfind, fun name htmp hfinal => ?_⟩
        simp only [mqttHandleBin, htokens, hfind, if_true]
        exact handleUpload_files f htmp hfinal
      · simp [mqttHandleBin, htokens, hfind, hop] at hchange
    · have hreject := (@mqttHandleBin_rejects_iff s msg now).mpr htakes
      exact ⟨fun hchange => absurd hreject.2 hchange, fun _ => hreject⟩

section EmptyLevel

/-- The text of an upload's uuid. -/
def topicUuid : Uuid := ⟨"00000000-0000-4000-8000-000000000001", by decide, by decide⟩

/-- An upload of two bytes, of which nothing has arrived. -/
def topicState : UplState := ⟨[⟨⟨"/tmp", topicUuid, 2⟩, 0⟩], fun _ => none⟩

/-- A byte on a topic. -/
def topicMsg (tpc : String) : UplMsg := ⟨tpc, [97], true, fun _ => 1⟩

/-- A message with an empty level is written to the file. -/
theorem empty_level_writes :
    BinTopic (topicMsg "mink.bin//dev/00000000-0000-4000-8000-000000000001/upload").tpc ∧
    ¬ FourLevels (topicMsg "mink.bin//dev/00000000-0000-4000-8000-000000000001/upload").tpc ∧
    (topicState.mqttHandleBin
      (topicMsg "mink.bin//dev/00000000-0000-4000-8000-000000000001/upload") 0).2 = 0 ∧
    (topicState.mqttHandleBin
      (topicMsg "mink.bin//dev/00000000-0000-4000-8000-000000000001/upload") 0).1.files
        "/tmp/00000000-0000-4000-8000-000000000001.tmp" = some [97] := by
  refine ⟨by decide, fun h => absurd h.length (by decide), by decide, by decide⟩

/-- A message of the documented form. -/
theorem topic_grammar_iff_plain : topicState.TopicGrammar
    (topicMsg "mink.bin/dev/00000000-0000-4000-8000-000000000001/upload") 0 :=
  (topic_grammar_iff (by decide)).mpr (.inl ⟨by decide, by decide⟩)

end EmptyLevel

end UplState

end Umink.Mqtt
