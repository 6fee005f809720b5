import Mathlib.Data.List.Forall2
import Umink.Mqtt.BinUpload

/-!
# What a finished upload contains

The test for the end of an upload looks at the size of its file only. A message
that does not fit is dropped from its first chunk on, and later messages that
fit fill the file up. So the file is the beginning of what was delivered, for
all bytes of the messages, exactly if no message was cut before the last one.
-/

namespace Umink.Mqtt

variable {f : MqttFile}

section Contents

variable {content : List UInt8} {msgs msgs' : List BinMsg} {msg msg' : BinMsg}

/-- The same message up to the bytes of its payload. -/
structure SameShape (m m' : BinMsg) : Prop where
  tpc : m.tpc = m'.tpc
  length : m.payload.length = m'.payload.length
  opens : m.opens = m'.opens

/-- No message for the upload is cut: together they have at most the announced size, and
the file could be opened for each of them. -/
def MqttFile.Uncut (f : MqttFile) (msgs : List BinMsg) : Prop :=
  (payloads f.uuid.text msgs).length ≤ f.size ∧
    ∀ m ∈ msgs, uploadsTo f.uuid.text m → m.payload ≠ [] → m.opens

theorem payloads_cons (uuid : String) (m : BinMsg) (msgs : List BinMsg) :
    payloads uuid (m :: msgs) =
      (if uploadsTo uuid m then m.payload else []) ++ payloads uuid msgs := by
  by_cases h : uploadsTo uuid m <;> simp [payloads, h]

theorem payloads_append (uuid : String) (as bs : List BinMsg) :
    payloads uuid (as ++ bs) = payloads uuid as ++ payloads uuid bs := by
  simp [payloads]

theorem SameShape.uploadsTo_eq (h : SameShape msg msg') (uuid : String) :
    uploadsTo uuid msg = uploadsTo uuid msg' := by
  simp only [uploadsTo, h.tpc]

theorem SameShape.taken_eq (h : SameShape msg msg') (len : Nat) :
    f.taken len msg = f.taken len msg' := by
  simp only [MqttFile.taken, h.uploadsTo_eq, h.opens, h.length]

theorem length_payloads_congr (h : List.Forall₂ SameShape msgs msgs') (uuid : String) :
    (payloads uuid msgs).length = (payloads uuid msgs').length := by
  induction h with
  | nil => rfl
  | @cons m m' ms ms' hm hms ih =>
      simp only [payloads_cons, List.length_append, hm.uploadsTo_eq, ih]
      split
      · rw [hm.length]
      · rfl

theorem length_accept_congr {c c' : List UInt8} (hlen : c.length = c'.length)
    (h : SameShape msg msg') : (f.accept c msg).length = (f.accept c' msg').length := by
  simp only [MqttFile.accept, List.length_append, List.length_take, hlen, h.taken_eq, h.length]

/-- The size of a temporary file depends on the sizes of the messages only. -/
theorem length_foldl_accept_congr {c c' : List UInt8} (hlen : c.length = c'.length)
    (h : List.Forall₂ SameShape msgs msgs') :
    (msgs.foldl f.accept c).length = (msgs'.foldl f.accept c').length := by
  induction h generalizing c c' with
  | nil => exact hlen
  | cons hm hms ih => exact ih (length_accept_congr hlen hm)

theorem MqttFile.Uncut.congr (h : f.Uncut msgs) (hshape : List.Forall₂ SameShape msgs msgs') :
    f.Uncut msgs' := by
  refine ⟨length_payloads_congr hshape _ ▸ h.1, ?_⟩
  have hopens := h.2
  clear h
  induction hshape with
  | nil => exact hopens
  | @cons m m' ms ms' hm hms ih =>
      intro x hx hup hne
      rcases List.mem_cons.mp hx with rfl | hx
      · have hne' : m.payload ≠ [] := by
          rw [ne_eq, ← List.length_eq_zero_iff, hm.length, List.length_eq_zero_iff]
          exact hne
        exact hm.opens ▸ hopens m List.mem_cons_self (hm.uploadsTo_eq _ ▸ hup) hne'
      · exact ih (fun y hy => hopens y (List.mem_cons_of_mem _ hy)) x hx hup hne

/-- Up to the first message that is cut, everything delivered is in the file. -/
theorem first_cut (hbelow : content.length ≤ f.size) :
    (msgs.foldl f.accept content = content ++ payloads f.uuid.text msgs ∧
        ∀ m ∈ msgs, uploadsTo f.uuid.text m → m.payload ≠ [] → m.opens) ∨
      ∃ as m bs, msgs = as ++ m :: bs ∧ uploadsTo f.uuid.text m ∧
        as.foldl f.accept content = content ++ payloads f.uuid.text as ∧
        f.taken (as.foldl f.accept content).length m < m.payload.length := by
  induction msgs generalizing content with
  | nil => exact .inl ⟨by simp [payloads], by simp⟩
  | cons m msgs ih =>
      by_cases hcut : uploadsTo f.uuid.text m ∧ f.taken content.length m < m.payload.length
      · exact .inr ⟨[], m, msgs, rfl, hcut.1, by simp [payloads], hcut.2⟩
      · have hm : f.accept content m =
            content ++ if uploadsTo f.uuid.text m then m.payload else [] := by
          by_cases hup : uploadsTo f.uuid.text m
          · have hall : m.payload.length ≤ f.taken content.length m :=
              Nat.le_of_not_lt fun hlt => hcut ⟨hup, hlt⟩
            rw [if_pos hup, MqttFile.accept, List.take_of_length_le hall]
          · rw [if_neg hup, MqttFile.accept_of_not_uploadsTo hup, List.append_nil]
        have hopen : uploadsTo f.uuid.text m → m.payload ≠ [] → m.opens := by
          intro hup hne
          by_contra hclosed
          apply hcut
          rw [MqttFile.taken, if_neg fun h => hclosed h.2]
          exact ⟨hup, List.length_pos_iff.mpr hne⟩
        rcases ih (f.length_accept_le hbelow m) with ⟨hall, hopens⟩ | ⟨as, x, bs, rfl, hup, has, hx⟩
        · refine .inl ⟨?_, List.forall_mem_cons.mpr ⟨hopen, hopens⟩⟩
          rw [List.foldl_cons, hall, hm, payloads_cons, List.append_assoc]
        · refine .inr ⟨m :: as, x, bs, rfl, hup, ?_, hx⟩
          rw [List.foldl_cons, has, hm, payloads_cons, List.append_assoc]

/-- Messages that are not cut are all in the file. -/
theorem foldl_accept_of_uncut (h : f.Uncut msgs) :
    msgs.foldl f.accept [] = payloads f.uuid.text msgs := by
  rcases @first_cut f [] msgs (Nat.zero_le _) with ⟨hall, -⟩ | ⟨as, m, bs, rfl, hup, has, hcut⟩
  · exact hall
  · have hne : m.payload ≠ [] := by
      intro hnil
      simp [hnil] at hcut
    have hopen : m.opens := h.2 m (by simp) hup hne
    have hfits : (as.foldl f.accept []).length + m.payload.length ≤ f.size := by
      have hle := h.1
      simp only [payloads_append, payloads_cons, if_pos hup, List.length_append] at hle
      rw [has, List.nil_append]
      omega
    rw [MqttFile.taken, if_pos ⟨hup, hopen⟩, f.writtenLength_of_fits hfits] at hcut
    exact absurd hcut (Nat.lt_irrefl _)

/-- The message with a payload of zeros. -/
def BinMsg.zeros (m : BinMsg) : BinMsg := { m with payload := List.replicate m.payload.length 0 }

/-- The message with zeros and a single one, after `k` bytes. -/
def BinMsg.mark (m : BinMsg) (k : Nat) : BinMsg :=
  { m with payload := List.replicate k 0 ++ 1 :: List.replicate (m.payload.length - k - 1) 0 }

theorem sameShape_zeros (m : BinMsg) : SameShape m m.zeros := ⟨rfl, by simp [BinMsg.zeros], rfl⟩

theorem sameShape_mark {m : BinMsg} {k : Nat} (h : k < m.payload.length) :
    SameShape m (m.mark k) := by
  refine ⟨rfl, ?_, rfl⟩
  simp only [BinMsg.mark, List.length_append, List.length_replicate, List.length_cons]
  omega

theorem sameShape_map_zeros (msgs : List BinMsg) :
    List.Forall₂ SameShape msgs (msgs.map BinMsg.zeros) := by
  induction msgs with
  | nil => exact .nil
  | cons m msgs ih => exact .cons (sameShape_zeros m) ih

theorem accept_zeros (h : ∀ b ∈ content, b = 0) (m : BinMsg) :
    ∀ b ∈ f.accept content m.zeros, b = 0 := by
  intro b hb
  rcases List.mem_append.mp hb with hb | hb
  · exact h b hb
  · exact List.eq_of_mem_replicate (List.mem_of_mem_take hb)

theorem foldl_accept_zeros (h : ∀ b ∈ content, b = 0) (msgs : List BinMsg) :
    ∀ b ∈ (msgs.map BinMsg.zeros).foldl f.accept content, b = 0 := by
  induction msgs generalizing content with
  | nil => exact h
  | cons m msgs ih => exact ih (accept_zeros h m)

/-- When a message was cut before the file is full, a byte that was left out is missed:
here a one among zeros. -/
theorem exists_wrong_content {as bs : List BinMsg} {m : BinMsg} (hup : uploadsTo f.uuid.text m)
    (has : as.foldl f.accept [] = payloads f.uuid.text as)
    (hcut : f.taken (as.foldl f.accept []).length m < m.payload.length)
    (hbelow : ((as ++ m :: bs).foldl f.accept []).length < f.size) :
    ∃ msgs', List.Forall₂ SameShape (as ++ m :: bs) msgs' ∧
      f.accept (msgs'.foldl f.accept []) msg.zeros ≠
        (payloads f.uuid.text (msgs' ++ [msg.zeros])).take f.size := by
  let k := f.taken (as.foldl f.accept []).length m
  let as' := as.map BinMsg.zeros
  let bs' := bs.map BinMsg.zeros
  have hmark : SameShape m (m.mark k) := sameShape_mark hcut
  refine ⟨as' ++ m.mark k :: bs', ?_, ?_⟩
  · exact List.rel_append (sameShape_map_zeros as) (.cons hmark (sameShape_map_zeros bs))
  intro hright
  have hlen : (as'.foldl f.accept []).length = (as.foldl f.accept []).length :=
    (length_foldl_accept_congr rfl (sameShape_map_zeros as)).symm
  have hk : f.taken (as'.foldl f.accept []).length (m.mark k) = k := by
    rw [hlen, ← hmark.taken_eq]
  -- the one is never written
  have hzero : ∀ b ∈ f.accept ((as' ++ m.mark k :: bs').foldl f.accept []) msg.zeros, b = 0 := by
    apply accept_zeros
    rw [List.foldl_append, List.foldl_cons]
    apply foldl_accept_zeros
    intro b hb
    rw [MqttFile.accept, hk] at hb
    rcases List.mem_append.mp hb with hb | hb
    · exact foldl_accept_zeros (by simp) as b hb
    · rw [BinMsg.mark, List.take_left' (by simp)] at hb
      exact List.eq_of_mem_replicate hb
  -- but it was delivered at a place inside the file
  have hplace : (payloads f.uuid.text as' ++ List.replicate k 0).length < f.size := by
    calc
      (payloads f.uuid.text as' ++ List.replicate k 0).length =
          (as.foldl f.accept []).length + k := by
        rw [List.length_append, List.length_replicate, has,
          length_payloads_congr (sameShape_map_zeros as)]
      _ = (f.accept (as.foldl f.accept []) m).length := by
        rw [MqttFile.accept, List.length_append, List.length_take]
        omega
      _ ≤ ((as ++ m :: bs).foldl f.accept []).length := by
        rw [List.foldl_append, List.foldl_cons]
        exact BinState.length_le_foldl_accept _ bs
      _ < f.size := hbelow
  have hone : (1 : UInt8) ∈
      (payloads f.uuid.text (as' ++ m.mark k :: bs' ++ [msg.zeros])).take f.size := by
    have hup' : uploadsTo f.uuid.text (m.mark k) := hmark.uploadsTo_eq _ ▸ hup
    rw [List.append_assoc, List.cons_append, payloads_append, payloads_cons, if_pos hup',
      BinMsg.mark, List.append_assoc, ← List.append_assoc, List.take_append,
      List.cons_append]
    obtain ⟨n, hn⟩ :
        ∃ n, f.size - (payloads f.uuid.text as' ++ List.replicate k 0).length = n + 1 :=
      ⟨_, (Nat.sub_add_cancel (Nat.sub_pos_of_lt hplace)).symm⟩
    rw [hn, List.take_succ_cons]
    exact List.mem_append_right _ List.mem_cons_self
  exact absurd (hzero 1 (hright ▸ hone)) (by decide)

end Contents

/-- Whatever bytes its messages have, a completed upload leaves the beginning of what was
delivered exactly if no message before the last one was cut. -/
theorem bin_upload_iff {s t : BinState} {path : String} {fsz : Nat} {uuid : Uuid}
    (hadd : s.mqttBinUplAdd path fsz uuid = .ok (some (f, t)))
    (hnew : s.files (genTempFname f) = none) {msgs : List BinMsg} {msg : BinMsg}
    (hdone : (t.run msgs).Completes f msg) :
    (∀ msgs' msg', List.Forall₂ SameShape msgs msgs' → SameShape msg msg' →
        ((t.run msgs').mqttHandleBin msg').1.files (finalFname f) =
          some ((payloads uuid.text (msgs' ++ [msg'])).take fsz)) ↔
      f.Uncut msgs := by
  obtain ⟨hf, hlive⟩ := BinState.live_of_add hadd hnew
  obtain ⟨hbelow, hfull⟩ := hlive.completes_run_iff.mp hdone
  have hsize : f.size = fsz := by rw [hf]
  have huuid : f.uuid = uuid := by rw [hf]
  have hfile : ∀ msgs' msg', List.Forall₂ SameShape msgs msgs' → SameShape msg msg' →
      ((t.run msgs').mqttHandleBin msg').1.files (finalFname f) =
        some (f.accept (msgs'.foldl f.accept []) msg') := by
    intro msgs' msg' hmsgs hmsg
    have hlen := length_foldl_accept_congr (f := f) (c := []) rfl hmsgs
    have hlen' := length_accept_congr (f := f) hlen hmsg
    exact hlive.file_of_completes (hlive.completes_run_iff.mpr ⟨hlen ▸ hbelow, hlen' ▸ hfull⟩)
  rw [← hsize, ← huuid]
  constructor
  · intro hright
    rcases @first_cut f [] msgs (Nat.zero_le _) with
      ⟨hall, hopens⟩ | ⟨as, m, bs, rfl, hup, has, hcut⟩
    · rw [hall] at hbelow
      exact ⟨Nat.le_of_lt hbelow, hopens⟩
    · obtain ⟨msgs', hshape, hwrong⟩ := @exists_wrong_content f msg as bs m hup has hcut hbelow
      have hsame := hright msgs' msg.zeros hshape (sameShape_zeros msg)
      rw [hfile msgs' msg.zeros hshape (sameShape_zeros msg)] at hsame
      exact absurd (Option.some.inj hsame) hwrong
  · intro huncut msgs' msg' hmsgs hmsg
    have hall : msgs'.foldl f.accept [] = payloads f.uuid.text msgs' :=
      foldl_accept_of_uncut (huncut.congr hmsgs)
    have hlen := length_foldl_accept_congr (f := f) (c := []) rfl hmsgs
    have hlast : (f.accept (msgs'.foldl f.accept []) msg').length = f.size :=
      (length_accept_congr hlen hmsg) ▸ hfull
    have hup : uploadsTo f.uuid.text msg' := by
      by_contra hno
      rw [MqttFile.accept_of_not_uploadsTo hno, ← hlen] at hlast
      omega
    rw [hfile msgs' msg' hmsgs hmsg]
    have hwhole : payloads f.uuid.text (msgs' ++ [msg']) =
        msgs'.foldl f.accept [] ++ msg'.payload := by
      rw [payloads_append, payloads_cons, if_pos hup, hall]
      simp [payloads]
    have hpart : f.accept (msgs'.foldl f.accept []) msg' <+:
        msgs'.foldl f.accept [] ++ msg'.payload :=
      List.prefix_append_right_inj _ |>.mpr (List.take_prefix _ _)
    rw [hwhole, ← hlast]
    exact congrArg some (List.prefix_iff_eq_take.mp hpart)

section CutMessage

def sampleUuid : Uuid := ⟨"00000000-0000-4000-8000-000000000000", by decide, by decide⟩

def sampleState : BinState := ⟨[⟨"/tmp", sampleUuid, 10⟩], fun _ => none⟩

/-- A message with `n` copies of a byte for the sample upload. -/
def sampleMsg (n : Nat) (b : UInt8) : BinMsg :=
  ⟨"mink.bin/dev/00000000-0000-4000-8000-000000000000/upload", List.replicate n b, true⟩

theorem add_sampleState :
    (BinState.mqttBinUplAdd ⟨[], fun _ => none⟩ "/tmp" 10 sampleUuid) =
      .ok (some (⟨"/tmp", sampleUuid, 10⟩, sampleState)) := rfl

theorem completes_sample_whole :
    (sampleState.run [sampleMsg 6 1]).Completes ⟨"/tmp", sampleUuid, 10⟩ (sampleMsg 4 2) :=
  ⟨by decide, by decide⟩

/-- Two messages that fit exactly leave what was delivered. -/
theorem bin_upload_iff_whole :
    ((sampleState.run [sampleMsg 6 1]).mqttHandleBin (sampleMsg 4 2)).1.files
        (finalFname ⟨"/tmp", sampleUuid, 10⟩) =
      some ((payloads sampleUuid.text [sampleMsg 6 1, sampleMsg 4 2]).take 10) :=
  (bin_upload_iff add_sampleState rfl completes_sample_whole).mpr
    ⟨by decide, fun m hm _ _ => by rw [List.mem_singleton.mp hm]; rfl⟩
    [sampleMsg 6 1] (sampleMsg 4 2) (.cons ⟨rfl, rfl, rfl⟩ .nil) ⟨rfl, rfl, rfl⟩

/-- Ten bytes are announced; the second of three messages does not fit and the third
fills the file. -/
theorem dropped_message_corrupts :
    BinState.mqttBinUplAdd ⟨[], fun _ => none⟩ "/tmp" 10 sampleUuid =
        .ok (some (⟨"/tmp", sampleUuid, 10⟩, sampleState)) ∧
      (sampleState.run [sampleMsg 6 1, sampleMsg 6 2]).Completes ⟨"/tmp", sampleUuid, 10⟩
        (sampleMsg 4 3) ∧
      ((sampleState.run [sampleMsg 6 1, sampleMsg 6 2]).mqttHandleBin (sampleMsg 4 3)).1.files
          (finalFname ⟨"/tmp", sampleUuid, 10⟩) = some [1, 1, 1, 1, 1, 1, 3, 3, 3, 3] ∧
      (payloads sampleUuid.text [sampleMsg 6 1, sampleMsg 6 2, sampleMsg 4 3]).take 10 =
        [1, 1, 1, 1, 1, 1, 2, 2, 2, 2] :=
  ⟨rfl, ⟨by decide, by decide⟩, by decide, by decide⟩

end CutMessage

end Umink.Mqtt
