import Umink.Mqtt.UploadIntegrity
import Umink.Mqtt.UploadSizes

/-!
# Shutdown and sizes of requests

Both phases of the termination leave an upload alone that has not expired. The size of
a request is an `int` that becomes a `size_t`, so that a negative one announces a file
of nearly 2 ^ 64 bytes.
-/

namespace Umink.Mqtt

open Umink.Library

/-- The connections and the uploads of the plugin. -/
structure MqttPlg where
  conns : List UplConn
  uploads : UplState

/-- `term_phase_0`: every connection is removed. -/
def termPhase0 (p : MqttPlg) : MqttPlg := { p with conns := [] }

/-- `term_phase_1`, with the time. -/
def termPhase1 (p : MqttPlg) (now : Int) : MqttPlg :=
  { p with uploads := p.uploads.mqttBinCleanup now }

/-- `terminate`. -/
def terminate (p : MqttPlg) (phase : Int) (now : Int) : MqttPlg :=
  if phase = 0 then termPhase0 p
  else if phase = 1 then termPhase1 p now
  else p

namespace UplRun

variable {files : String → Option (List UInt8)} {ops : List UplOp} {r : UplRun}

/-- What holds at the start and after every operation without a fault holds after a run
without a fault. -/
theorem exec_ok {I : UplRun → Prop}
    (hstep : ∀ r o r', I r → UplRun.step (.ok r) o = some (.ok r') → I r') {r r' : UplRun}
    (hr : I r) (h : Trace.exec UplRun.step (.ok r) ops = some (.ok r')) : I r' := by
  refine Trace.exec_invariant (I := fun s => ∀ r, s = .ok r → I r) ?_ ?_ h r' rfl
  · rintro s o _ hs hst r' rfl
    cases s with
    | ok r => exact hstep r o r' (hs r rfl) hst
    | error e => cases hst
  · exact fun r' heq => Except.ok.inj heq ▸ hr

theorem inv_of_exec (h : Trace.exec UplRun.step (.ok (start files)) ops = some (.ok r)) : r.Inv :=
  exec_ok (fun _ _ _ hs hst => hs.step hst) (inv_start files) h

/-- There is no entry and no temporary file of the uploads of the run. -/
def NothingLeft (created : List MqttFile) (s : UplState) : Prop :=
  s.binUploads = [] ∧ ∀ f ∈ created, s.files (genTempFname f) = none

/-- The termination leaves nothing of the uploads exactly when all entries have expired
by then. -/
theorem terminate_leaves_nothing_iff
    (hrun : Trace.exec UplRun.step (.ok (start files)) ops = some (.ok r))
    (conns : List UplConn) (now₀ now : Int) :
    NothingLeft r.created (terminate (terminate ⟨conns, r.s⟩ 0 now₀) 1 now).uploads ↔
      ∀ g ∈ r.s.binUploads, g.Expired now := by
  have h := inv_of_exec hrun
  have hterm : (terminate (terminate ⟨conns, r.s⟩ 0 now₀) 1 now).uploads =
      r.s.mqttBinCleanup now := rfl
  rw [hterm]
  constructor
  · rintro ⟨hempty, -⟩ g hg
    rw [UplState.binUploads_cleanup, List.filter_eq_nil_iff] at hempty
    exact not_not.mp fun hexp => hempty g hg (decide_eq_true hexp)
  · intro hall
    refine ⟨?_, ?_⟩
    · rw [UplState.binUploads_cleanup, List.filter_eq_nil_iff]
      intro g hg hexp
      exact of_decide_eq_true hexp (hall g hg)
    · intro f hf
      by_contra htemp
      have hstatus := h.cleanup now
      obtain ⟨g, hg, -⟩ := hstatus.temp hf htemp
      rw [UplState.binUploads_cleanup] at hg
      obtain ⟨hmem, hexp⟩ := List.mem_filter.mp hg
      exact of_decide_eq_true hexp (hall g hmem)

section Sample

/-- An upload of ten bytes, of which a message brings three and two are stored. -/
def sampleOps : List UplOp :=
  [.add "/tmp" 10 sampleUuid 0,
    .handle ⟨"mink.bin/dev/00000000-0000-4000-8000-000000000000/upload", [1, 2, 3], true,
      fun _ => 2⟩ 1]

/-- The upload has expired when the plugin is terminated. -/
theorem terminate_leaves_nothing_expired :
    ∃ r, Trace.exec UplRun.step (.ok (start fun _ => none)) sampleOps = some (.ok r) ∧
      NothingLeft r.created (terminate (terminate ⟨[], r.s⟩ 0 7) 1 7).uploads :=
  have hrun : Trace.exec UplRun.step (.ok (start fun _ => none)) sampleOps = some (.ok _) := rfl
  ⟨_, hrun, (terminate_leaves_nothing_iff hrun [] 7 7).mpr (by decide)⟩

/-- The plugin is terminated one second after the message, and the file stays. -/
theorem terminate_leaves_upload :
    ∃ r, Trace.exec UplRun.step (.ok (start fun _ => none)) sampleOps = some (.ok r) ∧
      ⟨"/tmp", sampleUuid, 10⟩ ∈ r.created ∧
      (terminate (terminate ⟨[], r.s⟩ 0 2) 1 2).uploads.files
        (genTempFname ⟨"/tmp", sampleUuid, 10⟩) = some [1, 2] ∧
      ¬ NothingLeft r.created (terminate (terminate ⟨[], r.s⟩ 0 2) 1 2).uploads := by
  refine ⟨_, rfl, by decide, by decide, ?_⟩
  rintro ⟨hempty, -⟩
  exact absurd (congrArg List.length hempty) (by decide)

end Sample

section Request

theorem created_subset (h : r.Inv) {r' : UplRun} {o : UplOp}
    (hst : UplRun.step (.ok r) o = some (.ok r')) : r.created ⊆ r'.created := by
  have hadd : ∀ {path fsz uuid now}, r.add path fsz uuid now = some (.ok r') →
      r.created ⊆ r'.created := by
    intro path fsz uuid now hst
    obtain ⟨-, rfl | ⟨-, rfl⟩⟩ := add_cases h hst
    · exact List.Subset.refl _
    · exact List.subset_cons_self _ _
  cases o with
  | add path fsz uuid now => exact hadd hst
  | request conns data uuid now =>
      cases hargs : binUploadArgs conns data with
      | none =>
          rw [UplRun.step, hargs] at hst
          exact Except.ok.inj (Option.some.inj hst) ▸ List.Subset.refl _
      | some c =>
          rw [UplRun.step, hargs] at hst
          exact hadd hst
  | handle msg now => exact Except.ok.inj (Option.some.inj hst) ▸ List.Subset.refl _
  | cleanup now => exact Except.ok.inj (Option.some.inj hst) ▸ List.Subset.refl _

/-- No more bytes are written for an upload of the run than it announces. -/
theorem stored_le (h : r.Inv) {f : MqttFile} (hf : f ∈ r.created) {r' : UplRun}
    (hrun : Trace.exec UplRun.step (.ok r) ops = some (.ok r')) :
    r'.stored f.uuid.text ≤ f.size := by
  have hlater : r'.Inv ∧ f ∈ r'.created :=
    exec_ok (I := fun r => r.Inv ∧ f ∈ r.created)
      (fun _ _ _ hs hst => ⟨hs.1.step hst, created_subset hs.1 hst hs.2⟩) ⟨h, hf⟩ hrun
  exact (hlater.1.status f hlater.2).bound

variable {r₁ : UplRun} {conns : List UplConn} {data : Option StdRows} {uuid : Uuid} {now : Int}
  {sz : String}

/-- A request that is not refused announces its size argument. -/
theorem binUploadArgs_snd {c : UplConn} {n : Int} (hsize : sizeArg data = some sz)
    (hargs : binUploadArgs conns data = some (c, n)) : n = atoi sz := by
  unfold binUploadArgs at hargs
  split at hargs
  case h_1 =>
      split at hargs
      case h_1 =>
          obtain rfl := Option.some.inj hsize
          exact (Prod.mk.inj (Option.some.inj hargs)).2.symm
      case h_2 => cases hargs
  case h_2 => cases hargs

/-- A request creates no upload and returns no uuid, or it creates one of its size. -/
theorem request_cases (h : r.Inv) (hsize : sizeArg data = some sz)
    (hreq : UplRun.step (.ok r) (.request conns data uuid now) = some (.ok r₁)) :
    (r₁ = r ∧ (∃ s, implMqttBinUpload r.s conns data uuid now = .ok (s, data)) ∧
      (binUploadArgs conns data = none ∨ sizeT (atoi sz) = 0)) ∨
    ∃ c : UplConn, binUploadArgs conns data = some (c, atoi sz) ∧ sizeT (atoi sz) ≠ 0 ∧
      (⟨c.binUplPath, uuid, sizeT (atoi sz)⟩ : MqttFile) ∈ r₁.created ∧
      r₁.s.binUploads = r.s.binUploads ++ [⟨⟨c.binUplPath, uuid, sizeT (atoi sz)⟩, now⟩] := by
  cases hargs : binUploadArgs conns data with
  | none =>
      rw [UplRun.step, hargs] at hreq
      rw [implMqttBinUpload, hargs]
      exact .inl ⟨(Except.ok.inj (Option.some.inj hreq)).symm, ⟨r.s, rfl⟩, .inl rfl⟩
  | some p =>
      obtain ⟨c, n⟩ := p
      obtain rfl := binUploadArgs_snd hsize hargs
      rw [UplRun.step, hargs] at hreq
      rw [implMqttBinUpload, hargs]
      by_cases hzero : sizeT (atoi sz) = 0
      · have hsame := (add_eq h hreq).2
        rw [if_pos hzero] at hsame
        refine .inl ⟨Except.ok.inj hsame, ⟨r.s, ?_⟩, .inr hzero⟩
        dsimp only
        rw [UplState.mqttBinUplAdd, if_pos hzero]
        rfl
      · obtain ⟨-, rfl | ⟨-, rfl⟩⟩ := add_cases h hreq
        · have hsame := (add_eq h hreq).2
          rw [if_neg hzero] at hsame
          by_cases hpath : c.binUplPath.length < 128
          · rw [if_pos hpath] at hsame
            have hlen := congrArg (fun r : UplRun => r.created.length) (Except.ok.inj hsame)
            exact absurd hlen (by simp)
          · rw [if_neg hpath] at hsame
            cases hsame
        · exact .inr ⟨c, rfl, hzero, List.mem_cons_self, rfl⟩

/-- What a request for `n` bytes should do: create no upload without bytes, and have no
more than `n` bytes stored for the uuid that it returns. -/
structure Bounded (r r₁ : UplRun) (conns : List UplConn) (data : Option StdRows) (uuid : Uuid)
    (now : Int) (n : Int) : Prop where
  created : n ≤ 0 → r₁.s.binUploads = r.s.binUploads
  stored : ∀ s d, implMqttBinUpload r.s conns data uuid now = .ok (s, d) → d ≠ data →
    ∀ ops r₂, Trace.exec UplRun.step (.ok r₁) ops = some (.ok r₂) →
      (r₂.stored uuid.text : Int) ≤ max n 0

/-- A request bounds what is stored on the disk exactly when it is refused or its size
argument is not negative. -/
theorem request_bounded_iff
    (hrun : Trace.exec UplRun.step (.ok (start files)) ops = some (.ok r))
    (hsize : sizeArg data = some sz)
    (hreq : UplRun.step (.ok r) (.request conns data uuid now) = some (.ok r₁)) :
    Bounded r r₁ conns data uuid now (atoi sz) ↔
      binUploadArgs conns data = none ∨ 0 ≤ atoi sz := by
  have h := inv_of_exec hrun
  obtain ⟨hlow, hhigh⟩ := atoi_bounds sz
  obtain ⟨hsame, ⟨s₁, hreply⟩, hwhy⟩ | ⟨c, hargs, hpos, hcreated, huploads⟩ :=
    request_cases h hsize hreq
  · have hbounded : Bounded r r₁ conns data uuid now (atoi sz) := by
      refine ⟨fun _ => by rw [hsame], ?_⟩
      intro s d hres hne
      exact absurd (Prod.mk.inj (Except.ok.inj (hres.symm.trans hreply))).2 hne
    refine iff_of_true hbounded ?_
    obtain hnone | hzero := hwhy
    · exact .inl hnone
    · exact .inr (Int.not_lt.mp fun hneg => sizeT_of_neg hneg hlow hzero)
  · have hnew : r₁.s.binUploads ≠ r.s.binUploads := by
      rw [huploads]
      simp
    rw [hargs]
    constructor
    · intro hbounded
      refine .inr ?_
      by_contra hneg
      exact hnew (hbounded.created (by omega))
    · rintro (hnone | hnonneg)
      · cases hnone
      · have hsz := sizeT_of_nonneg hnonneg hhigh
        refine ⟨fun hle => ?_, fun _ _ _ _ ops r₂ hops => ?_⟩
        · exact absurd (show sizeT (atoi sz) = 0 by omega) hpos
        · have hle := stored_le (h.step hreq) hcreated hops
          dsimp only at hle
          omega

/-- The connection and the request of a script for an upload. -/
def sampleConn : UplConn := ⟨"conn", "/tmp"⟩

def sampleRequest (sz : String) : Option StdRows := some [[("", "conn")], [("", sz)]]

/-- A request for ten bytes. -/
theorem request_bounded_ten : ∃ r₁,
    UplRun.step (.ok (start fun _ => none))
      (.request [sampleConn] (sampleRequest "10") sampleUuid 0) = some (.ok r₁) ∧
    atoi "10" = 10 ∧
    Bounded (start fun _ => none) r₁ [sampleConn] (sampleRequest "10") sampleUuid 0 (atoi "10") :=
  have hrun : Trace.exec UplRun.step (.ok (start fun _ => none)) [] =
      some (.ok (start fun _ => none)) := rfl
  have hsize : sizeArg (sampleRequest "10") = some "10" := rfl
  ⟨_, rfl, by decide, (request_bounded_iff hrun hsize rfl).mpr (.inr (by decide))⟩

/-- A request for minus one byte creates an upload of 2 ^ 64 - 1 bytes. -/
theorem negative_request_creates : ∃ r₁,
    UplRun.step (.ok (start fun _ => none))
      (.request [sampleConn] (sampleRequest "-1") sampleUuid 0) = some (.ok r₁) ∧
    atoi "-1" = -1 ∧ r₁.s.binUploads = [⟨⟨"/tmp", sampleUuid, 2 ^ 64 - 1⟩, 0⟩] ∧
    ¬ Bounded (start fun _ => none) r₁ [sampleConn] (sampleRequest "-1") sampleUuid 0 (-1) := by
  refine ⟨_, rfl, by decide, by decide, ?_⟩
  intro hbounded
  have hsame := congrArg List.length (hbounded.created (by decide))
  exact absurd hsame (by decide)

end Request

end UplRun

end Umink.Mqtt
