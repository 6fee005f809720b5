import Umink.Mqtt.UploadIntegrity
import Umink.Mqtt.Uploads

/-!
# Sizes of uploads

Between any two operations an upload is under way, with fewer bytes than it
announced, or over, with no temporary file. A message concerns the upload of its
uuid only. This holds along a run exactly as long as the paths of the uploads that
are created fit their field.
-/

namespace Umink.Mqtt

open Umink.Library

namespace UplRun

/-- Where an upload stands: its entry is there and its temporary file is too short, or
both are gone. -/
structure Status (r : UplRun) (f : MqttFile) : Prop where
  final : ∀ c, r.s.files (finalFname f) = some c → c.length = f.size
  bound : r.stored f.uuid.text ≤ f.size
  entry : (∃ g, r.s.findUpl f.uuid.text = some g ∧ g.toMqttFile = f ∧
      (r.s.content f).length < f.size ∧ r.stored f.uuid.text = (r.s.content f).length) ∨
    r.s.findUpl f.uuid.text = none ∧ r.s.files (genTempFname f) = none

/-- The uploads of the run. -/
structure Inv (r : UplRun) : Prop where
  uuids : (r.created.map MqttFile.uuid).Nodup
  keys : (r.s.binUploads.map MqttFileD.key).Nodup
  entries : ∀ g ∈ r.s.binUploads, g.toMqttFile ∈ r.created
  status : ∀ f ∈ r.created, r.Status f
  unstored : ∀ uuid : Uuid, uuid ∉ r.created.map MqttFile.uuid → r.stored uuid.text = 0

theorem inv_start (files : String → Option (List UInt8)) : (start files).Inv where
  uuids := List.nodup_nil
  keys := List.nodup_nil
  entries := fun _ h => absurd h List.not_mem_nil
  status := fun _ h => absurd h List.not_mem_nil
  unstored := fun _ _ => rfl

variable {r r' : UplRun} {f : MqttFile} {g : MqttFileD}

/-- An upload that an operation does not concern. -/
theorem Status.congr (h : r.Status f)
    (hfind : r'.s.findUpl f.uuid.text = r.s.findUpl f.uuid.text)
    (htemp : r'.s.files (genTempFname f) = r.s.files (genTempFname f))
    (hfinal : r'.s.files (finalFname f) = r.s.files (finalFname f))
    (hstored : r'.stored f.uuid.text = r.stored f.uuid.text) : r'.Status f := by
  have hcontent : r'.s.content f = r.s.content f := congrArg (Option.getD · []) htemp
  refine ⟨?_, ?_, ?_⟩
  · rw [hfinal]
    exact h.final
  · rw [hstored]
    exact h.bound
  · rw [hfind, htemp, hstored, hcontent]
    exact h.entry

theorem Inv.findUpl_iff (h : r.Inv) {k : String} :
    r.s.findUpl k = some g ↔ g ∈ r.s.binUploads ∧ g.key = k :=
  HashTable.find_eq_some_iff h.keys

/-- Two uploads of the run with one uuid are the same. -/
theorem Inv.eq_of_text (h : r.Inv) {f f' : MqttFile} (hf : f ∈ r.created) (hf' : f' ∈ r.created)
    (heq : f.uuid.text = f'.uuid.text) : f = f' :=
  List.inj_on_of_nodup_map h.uuids hf hf' (Uuid.text_injective heq)

theorem Inv.findUpl_of_unused (h : r.Inv) {uuid : Uuid}
    (huuid : uuid ∉ r.created.map MqttFile.uuid) : r.s.findUpl uuid.text = none := by
  rw [Option.eq_none_iff_forall_ne_some]
  intro g hfind
  obtain ⟨hg, hkey⟩ := h.findUpl_iff.mp hfind
  have hcreated := List.mem_map_of_mem (f := MqttFile.uuid) (h.entries g hg)
  exact huuid (Uuid.text_injective hkey ▸ hcreated)

/-- The upload of an entry is under way. -/
theorem Inv.live (h : r.Inv) (hg : g ∈ r.s.binUploads) :
    (r.s.content g.toMqttFile).length < g.size ∧
      r.stored g.key = (r.s.content g.toMqttFile).length := by
  have hfind : r.s.findUpl g.key = some g := h.findUpl_iff.mpr ⟨hg, rfl⟩
  obtain ⟨g', -, -, hlive⟩ | ⟨hnone, -⟩ := (h.status _ (h.entries g hg)).entry
  · exact hlive
  · exact nomatch hfind.symm.trans hnone

/-- The temporary file of an upload has an entry. -/
theorem Inv.temp (h : r.Inv) (hf : f ∈ r.created) (htemp : r.s.files (genTempFname f) ≠ none) :
    ∃ g ∈ r.s.binUploads, g.toMqttFile = f := by
  obtain ⟨g, hfind, heq, -⟩ | ⟨-, hnone⟩ := (h.status f hf).entry
  · exact ⟨g, (h.findUpl_iff.mp hfind).1, heq⟩
  · exact absurd hnone htemp

section Add

variable {path : String} {fsz : Nat} {uuid : Uuid} {now : Int}

/-- A call for a fresh uuid: there is an upload if its size is not 0 and its path fits. -/
theorem add_eq (h : r.Inv) {res : Except Fault UplRun}
    (hadd : r.add path fsz uuid now = some res) :
    r.Fresh path uuid ∧ res =
      if fsz = 0 then .ok r
      else if path.length < 128 then .ok { r with
        s := { r.s with binUploads := r.s.binUploads ++ [⟨⟨path, uuid, fsz⟩, now⟩] }
        created := ⟨path, uuid, fsz⟩ :: r.created }
      else .error (.store 128 128) := by
  obtain ⟨hfresh, hadd⟩ := Option.ite_none_right_eq_some.mp hadd
  refine ⟨hfresh, ?_⟩
  obtain rfl := Option.some.inj hadd
  by_cases hzero : fsz = 0
  · rw [UplState.mqttBinUplAdd, if_pos hzero, if_pos hzero]
    rfl
  · have hnew : ¬ (r.s.findUpl uuid.text).isSome := by
      rw [h.findUpl_of_unused hfresh.1]
      exact Bool.false_ne_true
    rw [UplState.mqttBinUplAdd, if_neg hzero, if_neg hnew, if_neg hzero]
    by_cases hpath : path.length < 128
    · rw [copyPath_of_lt hpath, if_pos hpath]
      rfl
    · rw [copyPath_of_le (Nat.not_lt.mp hpath), if_neg hpath]
      rfl

/-- An upload that was just created. -/
theorem add_cases (h : r.Inv) (hadd : r.add path fsz uuid now = some (.ok r')) :
    r.Fresh path uuid ∧ (r' = r ∨ fsz ≠ 0 ∧
      r' = { r with
        s := { r.s with binUploads := r.s.binUploads ++ [⟨⟨path, uuid, fsz⟩, now⟩] }
        created := ⟨path, uuid, fsz⟩ :: r.created }) := by
  obtain ⟨hfresh, heq⟩ := add_eq h hadd
  refine ⟨hfresh, ?_⟩
  by_cases hzero : fsz = 0
  · rw [if_pos hzero] at heq
    exact .inl (Except.ok.inj heq)
  · rw [if_neg hzero] at heq
    by_cases hpath : path.length < 128
    · rw [if_pos hpath] at heq
      exact .inr ⟨hzero, Except.ok.inj heq⟩
    · rw [if_neg hpath] at heq
      cases heq

theorem Inv.add (h : r.Inv) (hadd : r.add path fsz uuid now = some (.ok r')) : r'.Inv := by
  obtain ⟨⟨huuid, htemp, hfinal⟩, rfl | ⟨hpos, rfl⟩⟩ := add_cases h hadd
  · exact h
  have hnone := h.findUpl_of_unused huuid
  refine ⟨?_, ?_, ?_, ?_, ?_⟩
  · exact List.nodup_cons.mpr ⟨huuid, h.uuids⟩
  · rw [List.map_append, List.map_singleton, ← List.concat_eq_append]
    exact h.keys.concat (HashTable.find_eq_none_iff.mp hnone)
  · intro g hg
    obtain hg | hg := List.mem_append.mp hg
    · exact List.mem_cons_of_mem _ (h.entries g hg)
    · obtain rfl := List.mem_singleton.mp hg
      exact List.mem_cons_self
  · intro f hf
    obtain rfl | hf := List.mem_cons.mp hf
    · have hcontent : r.s.content ⟨path, uuid, fsz⟩ = [] := congrArg (Option.getD · []) htemp
      have hstored : r.stored uuid.text = 0 := h.unstored uuid huuid
      refine ⟨?_, ?_, .inl ⟨⟨⟨path, uuid, fsz⟩, now⟩, ?_, rfl, ?_, ?_⟩⟩
      · intro c hc
        exact nomatch hc.symm.trans hfinal
      · exact Nat.le_trans (Nat.le_of_eq hstored) (Nat.zero_le _)
      · exact (HashTable.find_add _ _ _).trans (if_pos rfl)
      · exact Nat.lt_of_le_of_lt (Nat.le_of_eq (congrArg List.length hcontent))
          (Nat.pos_of_ne_zero hpos)
      · exact hstored.trans (congrArg List.length hcontent).symm
    · refine (h.status f hf).congr ?_ rfl rfl rfl
      have hne : uuid.text ≠ f.uuid.text := fun heq =>
        huuid (Uuid.text_injective heq ▸ List.mem_map_of_mem hf)
      exact (HashTable.find_add _ _ _).trans (if_neg hne)
  · intro u hu
    exact h.unstored u fun hmem => hu (List.mem_cons_of_mem _ hmem)

end Add

section Cleanup

variable (now : Int)

theorem Inv.keys_cleanup (h : r.Inv) :
    ((r.s.mqttBinCleanup now).binUploads.map MqttFileD.key).Nodup := by
  rw [UplState.binUploads_cleanup]
  exact (List.filter_sublist.map _).nodup h.keys

theorem Inv.findUpl_cleanup (h : r.Inv) (k : String) :
    (r.s.mqttBinCleanup now).findUpl k = some g ↔ r.s.findUpl k = some g ∧ ¬ g.Expired now := by
  rw [h.findUpl_iff, UplState.findUpl, HashTable.find_eq_some_iff (h.keys_cleanup now),
    UplState.binUploads_cleanup, List.mem_filter, decide_eq_true_eq, and_right_comm]

/-- An upload whose entry has expired is removed with its file, and no other one is. -/
theorem Inv.status_cleanup (h : r.Inv) (hf : f ∈ r.created) :
    ({ r with s := r.s.mqttBinCleanup now } : UplRun).Status f := by
  have hstatus := h.status f hf
  refine ⟨?_, hstatus.bound, ?_⟩
  · have hno : ¬ ∃ g ∈ r.s.binUploads,
        g.Expired now ∧ genTempFname g.toMqttFile = finalFname f := by
      rintro ⟨g, -, -, heq⟩
      exact finalFname_ne heq.symm
    dsimp only
    rw [UplState.files_cleanup, if_neg hno]
    exact hstatus.final
  obtain ⟨g, hfind, rfl, hlive⟩ | ⟨hnone, htemp⟩ := hstatus.entry
  · by_cases hexp : g.Expired now
    · refine .inr ⟨?_, ?_⟩
      · rw [Option.eq_none_iff_forall_ne_some]
        intro g' hg'
        obtain ⟨hfind', hexp'⟩ := (h.findUpl_cleanup now _).mp hg'
        obtain rfl := Option.some.inj (hfind.symm.trans hfind')
        exact hexp' hexp
      · exact (r.s.files_cleanup now _).trans
          (if_pos ⟨g, (h.findUpl_iff.mp hfind).1, hexp, rfl⟩)
    · have hother : ¬ ∃ g' ∈ r.s.binUploads,
          g'.Expired now ∧ genTempFname g'.toMqttFile = genTempFname g.toMqttFile := by
        rintro ⟨g', hg', hexp', hname⟩
        have hkey : g'.key = g.uuid.text := by_contra fun hne => genTempFname_ne hne hname
        have hfind' := h.findUpl_iff.mpr ⟨hg', hkey⟩
        obtain rfl := Option.some.inj (hfind.symm.trans hfind')
        exact hexp hexp'
      have hfile : (r.s.mqttBinCleanup now).files (genTempFname g.toMqttFile) =
          r.s.files (genTempFname g.toMqttFile) := by
        rw [UplState.files_cleanup, if_neg hother]
      have hcontent : (r.s.mqttBinCleanup now).content g.toMqttFile = r.s.content g.toMqttFile :=
        congrArg (Option.getD · []) hfile
      refine .inl ⟨g, (h.findUpl_cleanup now _).mpr ⟨hfind, hexp⟩, rfl, ?_⟩
      rw [hcontent]
      exact hlive
  · refine .inr ⟨?_, ?_⟩
    · rw [Option.eq_none_iff_forall_ne_some]
      intro g hg
      exact nomatch hnone.symm.trans ((h.findUpl_cleanup now _).mp hg).1
    · dsimp only
      rw [UplState.files_cleanup, htemp, ite_self]

theorem Inv.cleanup (h : r.Inv) : ({ r with s := r.s.mqttBinCleanup now } : UplRun).Inv where
  uuids := h.uuids
  keys := h.keys_cleanup now
  entries := by
    intro g hg
    rw [UplState.binUploads_cleanup] at hg
    exact h.entries g (List.mem_filter.mp hg).1
  status := fun _ hf => h.status_cleanup now hf
  unstored := h.unstored

end Cleanup

section Handle

variable {msg : UplMsg} (now : Int)

/-- A message for the upload of an entry, or for none. -/
theorem Inv.handle_cases (h : r.Inv) (msg : UplMsg) :
    (r.s.target msg = none ∧ (r.s.mqttHandleBin msg now).1 = r.s ∧
      (r.s.mqttHandleBin msg now).2 ≠ 4) ∨
    ∃ g, r.s.target msg = some g ∧ g ∈ r.s.binUploads ∧
      (binTopic msg.tpc).map Prod.fst = some g.key ∧
      r.s.Handled (r.s.mqttHandleBin msg now).1 g msg ∧ (r.s.mqttHandleBin msg now).2 ≠ 4 := by
  cases htarget : r.s.target msg with
  | none => exact .inl ⟨rfl, UplState.mqttHandleBin_of_target_none htarget now⟩
  | some g =>
      obtain ⟨hcall, hfind, op, htopic⟩ := UplState.mqttHandleBin_of_target htarget now
      have hg := (h.findUpl_iff.mp hfind).1
      rw [hcall, htopic]
      exact .inr ⟨g, rfl, hg, rfl, UplState.handled_handleUpload hfind (h.live hg).1 msg now⟩

/-- A message for one upload leaves the others. -/
theorem handled_other {t : UplState} (ht : r.s.Handled t g msg) (hne : f.uuid.text ≠ g.key) :
    t.findUpl f.uuid.text = r.s.findUpl f.uuid.text ∧
      t.files (genTempFname f) = r.s.files (genTempFname f) ∧
      t.files (finalFname f) = r.s.files (finalFname f) :=
  ⟨ht.other _ hne, ht.files _ (genTempFname_ne hne) finalFname_ne.symm,
    ht.files _ finalFname_ne (finalFname_ne_finalFname hne)⟩

theorem Inv.handle (h : r.Inv) (msg : UplMsg) : (r.handle msg now).Inv := by
  rw [UplRun.handle]
  obtain ⟨htarget, hsame, -⟩ | ⟨g, htarget, hg, -, ht, -⟩ := h.handle_cases now msg
  · rw [htarget, hsame]
    exact h
  rw [htarget]
  have hcreated := h.entries g hg
  refine ⟨h.uuids, ?_, ?_, ?_, ?_⟩
  · have hkeys : ∀ s : UplState, s.binUploads.map MqttFileD.key =
        (s.binUploads.map MqttFileD.toMqttFile).map fun f => f.uuid.text := fun s => by
      rw [List.map_map]
      rfl
    have hnodup := h.keys
    rw [hkeys] at hnodup ⊢
    exact (ht.uploads.map _).nodup hnodup
  · intro g' hg'
    obtain ⟨g'', hg'', heq⟩ := List.mem_map.mp (ht.uploads.subset (List.mem_map_of_mem hg'))
    rw [← heq]
    exact h.entries g'' hg''
  · intro f hf
    by_cases hkey : f.uuid.text = g.key
    · obtain rfl : f = g.toMqttFile := h.eq_of_text hf hcreated hkey
      have hstored : Function.update r.stored g.key (r.stored g.key + (r.s.stores g msg).length)
          g.key = (r.s.after g msg).length := by
        rw [Function.update_self, (h.live hg).2, UplState.after, List.length_append]
      have hle := UplState.after_length_le (h.live hg).1 msg
      refine ⟨?_, ?_, ?_⟩
      · obtain ⟨g', -, -, -, -, hfinal⟩ | ⟨hfull, -, -, hfinal⟩ := ht.own
        · dsimp only
          rw [hfinal]
          exact (h.status _ hf).final
        · intro c hc
          obtain rfl := Option.some.inj (hfinal.symm.trans hc)
          exact hfull
      · exact Nat.le_trans (Nat.le_of_eq hstored) hle
      · obtain ⟨g', hfind, heq, hcontent, hlt, -⟩ | ⟨-, hnone, htemp, -⟩ := ht.own
        · refine .inl ⟨g', hfind, heq, ?_, ?_⟩
          · exact Nat.lt_of_le_of_lt (Nat.le_of_eq (congrArg List.length hcontent)) hlt
          · exact hstored.trans (congrArg List.length hcontent).symm
        · exact .inr ⟨hnone, htemp⟩
    · obtain ⟨hfind, htemp, hfinal⟩ := handled_other ht hkey
      exact (h.status f hf).congr hfind htemp hfinal (Function.update_of_ne hkey _ _)
  · intro uuid huuid
    have hne : uuid.text ≠ g.key := fun heq =>
      huuid (Uuid.text_injective heq ▸ List.mem_map_of_mem hcreated)
    exact (Function.update_of_ne hne _ _).trans (h.unstored uuid huuid)

end Handle

theorem Inv.step (h : r.Inv) {o : UplOp} (hst : step (.ok r) o = some (.ok r')) : r'.Inv := by
  cases o with
  | add path fsz uuid now => exact h.add hst
  | request conns data uuid now =>
      cases hargs : binUploadArgs conns data with
      | none =>
          rw [UplRun.step, hargs] at hst
          exact Except.ok.inj (Option.some.inj hst) ▸ h
      | some c =>
          rw [UplRun.step, hargs] at hst
          exact h.add hst
  | handle msg now =>
      obtain rfl := Except.ok.inj (Option.some.inj hst)
      exact h.handle now msg
  | cleanup now =>
      obtain rfl := Except.ok.inj (Option.some.inj hst)
      exact h.cleanup now

/-- What an operation leaves: temporary files below the announced sizes, finished files
of exactly these sizes and no temporary file without an entry. A message leaves the
uploads of the other uuids alone and is never refused for a full file. -/
structure SizeSafe (r : UplRun) (o : UplOp) (r' : UplRun) : Prop where
  below : ∀ g ∈ r'.s.binUploads, (r'.s.content g.toMqttFile).length < g.size
  final : ∀ f ∈ r'.created, ∀ c, r'.s.files (finalFname f) = some c → c.length = f.size
  temp : ∀ f ∈ r'.created, r'.s.files (genTempFname f) ≠ none →
    ∃ g ∈ r'.s.binUploads, g.toMqttFile = f
  other : ∀ msg now, o = .handle msg now → ∀ f ∈ r.created,
    (binTopic msg.tpc).map Prod.fst ≠ some f.uuid.text →
      r'.s.findUpl f.uuid.text = r.s.findUpl f.uuid.text ∧
        r'.s.files (genTempFname f) = r.s.files (genTempFname f) ∧
        r'.s.files (finalFname f) = r.s.files (finalFname f)
  ret : ∀ msg now, o = .handle msg now → (r.s.mqttHandleBin msg now).2 ≠ 4

theorem Inv.sizeSafe (h : r.Inv) {o : UplOp} (hst : UplRun.step (.ok r) o = some (.ok r')) :
    SizeSafe r o r' := by
  have h' := h.step hst
  refine ⟨fun g hg => (h'.live hg).1, fun f hf => (h'.status f hf).final, fun f hf => h'.temp hf,
    ?_, ?_⟩
  · rintro msg now rfl f - hother
    obtain rfl := Except.ok.inj (Option.some.inj hst)
    rw [UplRun.handle]
    obtain ⟨-, hsame, -⟩ | ⟨g, -, -, htopic, ht, -⟩ := h.handle_cases now msg
    · dsimp only
      rw [hsame]
      exact ⟨rfl, rfl, rfl⟩
    · exact handled_other ht fun hkey => hother (hkey ▸ htopic)
  · rintro msg now rfl
    obtain ⟨-, -, hret⟩ | ⟨g, -, -, -, -, hret⟩ := h.handle_cases now msg
    · exact hret
    · exact hret

/-- The operation stores nothing outside of an array, and leaves what it should. -/
def Safe : Except Fault UplRun → UplOp → Except Fault UplRun → Prop
  | .ok r, o, .ok r' => SizeSafe r o r'
  | _, _, _ => False

/-- The path of an upload that is created fits its field. -/
def Fits : UplOp → Prop
  | .add path fsz _ _ => fsz ≠ 0 → path.length < 128
  | .request conns data _ _ =>
      ∀ c n, binUploadArgs conns data = some (c, n) → sizeT n ≠ 0 → c.binUplPath.length < 128
  | .handle _ _ => True
  | .cleanup _ => True

theorem add_ok_iff (h : r.Inv) {path : String} {fsz : Nat} {uuid : Uuid} {now : Int}
    {res : Except Fault UplRun} (hadd : r.add path fsz uuid now = some res) :
    (fsz ≠ 0 → path.length < 128) ↔ ∃ r', res = .ok r' := by
  obtain ⟨-, rfl⟩ := add_eq h hadd
  by_cases hzero : fsz = 0
  · rw [if_pos hzero]
    exact iff_of_true (fun hne => absurd hzero hne) ⟨r, rfl⟩
  · rw [if_neg hzero]
    by_cases hpath : path.length < 128
    · rw [if_pos hpath]
      exact iff_of_true (fun _ => hpath) ⟨_, rfl⟩
    · rw [if_neg hpath]
      refine iff_of_false (fun himp => hpath (himp hzero)) ?_
      rintro ⟨r', hr'⟩
      cases hr'

/-- An operation goes through exactly when the path of its upload fits. -/
theorem Inv.fits_iff (h : r.Inv) {o : UplOp} {res : Except Fault UplRun}
    (hst : UplRun.step (.ok r) o = some res) : Fits o ↔ ∃ r', res = .ok r' := by
  cases o with
  | add path fsz uuid now => exact add_ok_iff h hst
  | request conns data uuid now =>
      rw [UplRun.step] at hst
      rw [Fits]
      cases hargs : binUploadArgs conns data with
      | none =>
          rw [hargs] at hst
          obtain rfl := Option.some.inj hst
          refine iff_of_true ?_ ⟨r, rfl⟩
          intro c n hsome
          cases hsome
      | some p =>
          rw [hargs] at hst
          rw [← add_ok_iff h hst]
          constructor
          · exact fun hall => hall p.1 p.2 rfl
          · rintro hfits c n heq
            obtain rfl := Option.some.inj heq
            exact hfits
  | handle msg now => exact iff_of_true trivial ⟨_, (Option.some.inj hst).symm⟩
  | cleanup now => exact iff_of_true trivial ⟨_, (Option.some.inj hst).symm⟩

/-- In every run, whatever each `write` stores, uploads keep to their announced sizes
after every operation exactly as long as the paths of new uploads fit. -/
theorem upload_sizes_iff (files : String → Option (List UInt8)) (ops : List UplOp) :
    Trace.Along UplRun.step Safe (.ok (start files)) ops ↔
      Trace.Along UplRun.step (fun _ o _ => Fits o) (.ok (start files)) ops := by
  symm
  apply Trace.along_iff_of_invariant (I := fun s => ∃ r : UplRun, s = .ok r ∧ r.Inv)
  · rintro _ o t ⟨r, rfl, hr⟩ hst
    rw [hr.fits_iff hst]
    constructor
    · rintro ⟨r', rfl⟩
      exact hr.sizeSafe hst
    · cases t with
      | ok r' => exact fun _ => ⟨r', rfl⟩
      | error e => exact False.elim
  · rintro _ o t ⟨r, rfl, hr⟩ hfits hst
    obtain ⟨r', rfl⟩ := (hr.fits_iff hst).mp hfits
    exact ⟨r', rfl, hr.step hst⟩
  · exact ⟨start files, rfl, inv_start files⟩

/-- `n` slashes, a path to the root directory. -/
def rootPath (n : Nat) : String := String.ofList (List.replicate n '/')

theorem rootPath_length (n : Nat) : (rootPath n).length = n := by simp [rootPath]

/-- A path of 300 slashes is stored behind its field. -/
theorem root_path_not_safe : ¬ Trace.Along UplRun.step Safe (.ok (start fun _ => none))
    [.add (rootPath 300) 10 sampleUuid 0] := by
  intro h
  obtain ⟨res, hadd⟩ :
      ∃ res, (start fun _ => none).add (rootPath 300) 10 sampleUuid 0 = some res :=
    ⟨_, if_pos ⟨List.not_mem_nil, rfl, rfl⟩⟩
  have hres := (add_eq (inv_start _) hadd).2
  rw [if_neg (by decide), rootPath_length, if_neg (by decide)] at hres
  subst hres
  exact (h _ hadd).1

end UplRun

section FullWrites

/-- The uploads without time stamps. -/
def UplState.toBin (s : UplState) : BinState :=
  ⟨s.binUploads.map MqttFileD.toMqttFile, s.files⟩

def UplMsg.toBin (msg : UplMsg) : BinMsg := ⟨msg.tpc, msg.payload, msg.opens⟩

/-- Every `write` of the message stores its whole chunk. -/
def UplMsg.Full (msg : UplMsg) : Prop := ∀ i, maxChunk ≤ msg.writes i

variable {s : UplState} {f : MqttFileD} {msg : UplMsg}

theorem storeChunks_of_full (hfull : msg.Full) (size rounds fsz chunk : Nat)
    (pld content : List UInt8) (hchunk : chunk ≤ maxChunk) :
    content ++ storeChunks size msg.writes rounds fsz chunk pld =
      writeChunks size rounds fsz chunk pld content := by
  induction rounds generalizing fsz chunk pld content with
  | zero => exact List.append_nil content
  | succ rounds ih =>
      by_cases hnil : pld = []
      · simp [storeChunks, writeChunks, hnil]
      · by_cases hover : fsz + chunk > size
        · simp [storeChunks, writeChunks, hnil, hover]
        · have hwrite : (pld.take chunk).take (msg.writes rounds) = pld.take chunk := by
            apply List.take_of_length_le
            calc
              (pld.take chunk).length ≤ chunk := List.length_take_le _ _
              _ ≤ maxChunk := hchunk
              _ ≤ msg.writes rounds := hfull rounds
          simp only [storeChunks, writeChunks, if_neg hnil, if_neg hover, hwrite]
          rw [← ih _ _ _ _ (Nat.le_trans (Nat.min_le_left _ _) hchunk), List.append_assoc]

theorem toBin_findUpl (s : UplState) (k : String) :
    s.toBin.findUpl k = (s.findUpl k).map MqttFileD.toMqttFile := by
  rw [BinState.findUpl, UplState.toBin, HashTable.find, ← List.map_reverse, List.find?_map]
  rfl

/-- With the uuids distinct the deletion removes one entry. -/
theorem toBin_del (hkeys : (s.binUploads.map MqttFileD.key).Nodup) (hf : f ∈ s.binUploads) :
    (s.binUploads.filter fun g => g.key ≠ f.key).map MqttFileD.toMqttFile =
      (s.binUploads.map MqttFileD.toMqttFile).erase f.toMqttFile := by
  have hnodup : (s.binUploads.map MqttFileD.toMqttFile).Nodup := by
    apply List.Nodup.of_map (fun g : MqttFile => g.uuid.text)
    rwa [List.map_map]
  rw [hnodup.erase_eq_filter, List.filter_map]
  congr 1
  apply List.filter_congr
  intro g hg
  have hiff : g.key = f.key ↔ g.toMqttFile = f.toMqttFile := by
    constructor
    · exact fun hkey => congrArg _ (List.inj_on_of_nodup_map hkeys hg hf hkey)
    · exact fun heq => congrArg (fun g : MqttFile => g.uuid.text) heq
  rw [Bool.eq_iff_iff, decide_eq_true_eq, Function.comp_apply, bne_iff_ne]
  exact not_congr hiff

/-- The entry that is removed may have got a new time stamp. -/
theorem filter_touch (s : UplState) (k : String) (now : Int) :
    (s.touch k now).binUploads.filter (fun g => g.key ≠ k) =
      s.binUploads.filter fun g => g.key ≠ k := by
  rw [UplState.touch, HashTable.modify]
  induction s.binUploads with
  | nil => rfl
  | cons g gs ih =>
      by_cases hg : g.key = k
      · have hg' : ({ g with ts := now } : MqttFileD).key = k := hg
        rw [List.map_cons, if_pos hg, List.filter_cons_of_neg (by simpa using hg'),
          List.filter_cons_of_neg (by simpa using hg), ih]
      · rw [List.map_cons, if_neg hg, List.filter_cons_of_pos (by simpa using hg),
          List.filter_cons_of_pos (by simpa using hg), ih]

theorem toBin_handleUpload (hkeys : (s.binUploads.map MqttFileD.key).Nodup)
    (hf : f ∈ s.binUploads) (hbelow : (s.content f.toMqttFile).length < f.size)
    (hfull : msg.Full) (now : Int) :
    (s.handleUpload f msg now).1.toBin = (s.toBin.handleUpload f.toMqttFile msg.toBin).1 := by
  have hge : ¬ (s.content f.toMqttFile).length ≥ f.size := Nat.not_le.mpr hbelow
  have hcontent : (s.toBin.files (genTempFname f.toMqttFile)).getD [] = s.content f.toMqttFile :=
    rfl
  have hpayload : msg.toBin.payload = msg.payload := rfl
  have hmap := UplState.map_touch (s.setFile (genTempFname f.toMqttFile) (some (s.after f msg)))
    f.key now
  by_cases hopens : msg.opens = false
  · have hclosed : msg.toBin.opens = false := hopens
    rw [UplState.handleUpload, BinState.handleUpload, if_pos hopens, if_pos hclosed]
  have hopens' : ¬ msg.toBin.opens = false := hopens
  have hwritten : writeChunks f.size msg.payload.length (s.content f.toMqttFile).length
      (min msg.payload.length maxChunk) msg.payload (s.content f.toMqttFile) = s.after f msg := by
    rw [UplState.after, UplState.stores, if_pos ⟨Bool.of_not_eq_false hopens, hbelow⟩,
      storeChunks_of_full hfull _ _ _ _ _ _ (Nat.min_le_right _ _)]
  obtain ⟨hclosed, -⟩ | ⟨hlt, hcall⟩ | ⟨hdone, hcall⟩ := UplState.handleUpload_cases hbelow msg now
  · exact absurd hclosed hopens
  · have hold : (s.toBin.handleUpload f.toMqttFile msg.toBin).1 =
        s.toBin.setFile (genTempFname f.toMqttFile) (some (s.after f msg)) := by
      simp only [BinState.handleUpload, if_neg hopens', hcontent, if_neg hge, hpayload, hwritten,
        if_neg (Nat.ne_of_gt hlt)]
    rw [hcall, hold]
    exact congrArg₂ BinState.mk hmap rfl
  · have hold : (s.toBin.handleUpload f.toMqttFile msg.toBin).1 =
        (({ s.toBin with binUploads := s.toBin.binUploads.erase f.toMqttFile } : BinState).setFile
          (genTempFname f.toMqttFile) none).setFile (finalFname f.toMqttFile)
            (some (s.after f msg)) := by
      simp only [BinState.handleUpload, if_neg hopens', hcontent, if_neg hge, hpayload, hwritten,
        if_pos hdone.symm]
    rw [hcall, hold]
    refine congrArg₂ BinState.mk ?_ ?_
    · exact (congrArg _ (filter_touch _ _ now)).trans (toBin_del hkeys hf)
    · exact congrArg (Function.update · _ _) (Function.update_idem _ _ _)

/-- While no entry expires, messages that are written in full are handled as by the
model without time stamps. -/
theorem UplRun.Inv.toBin_mqttHandleBin {r : UplRun} (h : r.Inv) (hfull : msg.Full) (now : Int) :
    (r.s.mqttHandleBin msg now).1.toBin = (r.s.toBin.mqttHandleBin msg.toBin).1 := by
  unfold UplState.mqttHandleBin BinState.mqttHandleBin binTopic
  rw [show msg.toBin.tpc = msg.tpc from rfl]
  generalize strtok msg.tpc '/' = tokens
  rcases tokens with _ | ⟨_, _ | ⟨_, _ | ⟨u, _ | ⟨op, rest⟩⟩⟩⟩
  case cons.cons.cons.cons =>
    dsimp only
    rw [toBin_findUpl]
    cases hfind : r.s.findUpl u with
    | none => rfl
    | some f =>
        have hf := (h.findUpl_iff.mp hfind).1
        dsimp only [Option.map_some]
        by_cases hop : op = "upload"
        · rw [if_pos hop, if_pos hop]
          exact toBin_handleUpload h.keys hf (h.live hf).1 hfull now
        · rw [if_neg hop, if_neg hop]
  -- a topic without an operation is not handled
  all_goals rfl

end FullWrites

end Umink.Mqtt
