import Qcc730.Upgrade.Session

/-! Receiving the header in pieces.

    However the stream is cut, the collected header is a prefix of it: the part-1 fields are read off
    the same first 17 bytes and the pieces are appended up to the length they give. Only the very
    first piece is different: if it is shorter than the part-1 header, the file is rejected. -/

namespace Qcc730.Upgrade
open Lib Flash

/-! ### When a complete header is accepted -/

/-- The part-1 checks. -/
def ImageSetHdr.Correct (h : ImageSetHdr) : Prop :=
  (0 < h.numImages ∧ h.numImages ≤ fwUpgradeMaxImagesNum) ∧
    ¬(h.magic = 0 ∨ h.length = 0 ∨ h.format = 0) ∧ h.length = h.hashOffset + fwUpgradeHashLen

instance (h : ImageSetHdr) : Decidable h.Correct := inferInstanceAs (Decidable (_ ∧ _ ∧ _))

/-- The trial FWD's field can be programmed. -/
def Session.CanSet (s : Session) (info : FwdInfo) : Prop :=
  s.cxt.trialFwdIdx < fwUpgradeMaxFwd ∧
    s.fu.dev.InFlash (s.cxt.trialFwdIdx * 4096 + info.offset) info.byteCnt

/-- The tally of a list of entries as they are in the file. -/
def tally (hs : List ImageHdr) : Tally := (hs.map ImageHdr.adjust).foldl Tally.add Tally.zero

/-- The images fit, by the code's own sums. -/
def Tally.Fits (t : Tally) (env : Env) (memSize : ℕ) (fdt : Fdt) : Prop :=
  ¬(t.sblImageExist = true ∧ t.appImageExist = false) ∧ t.diskSize ≤ memSize ∧ t.len ≤ t.diskSize ∧
    ∃ i start size, fwUpgradeSelectSblTrialFde env.cfg fdt = some (i, start, size) ∧ t.sblDiskSize ≤ size

/-- The complete header `b` passes every check. -/
def Session.Acceptable (env : Env) (s : Session) (b : Bytes) : Prop :=
  headerHashOk env.sha256 b ∧ (∀ info ∈ [FwdInfo.magic, .version, .totalImage], s.CanSet info) ∧
    (∀ h ∈ imageHdrs b (ImageSetHdr.decode b).numImages, ¬h.Incorrect) ∧
    (tally (imageHdrs b (ImageSetHdr.decode b).numImages)).Fits env s.cxt.trialMemSize s.fu.dev.mem.fdt

/-- The writes of one field of the trial FWD. -/
def infoWrites (fwdIdx : ℕ) (info : FwdInfo) (v : ℕ) : List Write :=
  pages (info.encode v).length (fwdIdx * 4096 + info.offset) (info.encode v)

@[simp] theorem FwdInfo.length_encode (info : FwdInfo) (v : ℕ) : (info.encode v).length = info.byteCnt := by
  cases info <;> rfl

theorem setTrialInfo_ok {s : Session} {info : FwdInfo} (v : ℕ) (h : s.CanSet info) :
    setTrialInfo info v s =
      (.ok (), { s with fu := s.fu.writes (infoWrites s.cxt.trialFwdIdx info v) }) := by
  have hlt : ¬fwUpgradeMaxFwd ≤ s.cxt.trialFwdIdx := Nat.not_le.mpr h.1
  have hin : s.fu.dev.InFlash (s.cxt.trialFwdIdx * 4096 + info.offset) (info.encode v).length := by
    rw [FwdInfo.length_encode]; exact h.2
  simp only [setTrialInfo, Cmd.bind_apply, Cmd.gets_apply, Cmd.orFail, onFu, Cmd.zoom, fwUpgradeSetFwdInfo,
    if_neg hlt, drvFlashWrite, if_pos hin]
  rfl

theorem setTrialInfo_error {s : Session} {info : FwdInfo} (v : ℕ) (h : ¬s.CanSet info) :
    setTrialInfo info v s = (.error .flashWriteFail, s) := by
  by_cases hlt : fwUpgradeMaxFwd ≤ s.cxt.trialFwdIdx
  · simp only [setTrialInfo, Cmd.bind_apply, Cmd.gets_apply, Cmd.orFail, onFu, Cmd.zoom, fwUpgradeSetFwdInfo,
      if_pos hlt]
  · have hin : ¬s.fu.dev.InFlash (s.cxt.trialFwdIdx * 4096 + info.offset) (info.encode v).length := by
      rw [FwdInfo.length_encode]
      exact fun hin => h ⟨Nat.not_le.mp hlt, hin⟩
    simp only [setTrialInfo, Cmd.bind_apply, Cmd.gets_apply, Cmd.orFail, onFu, Cmd.zoom, fwUpgradeSetFwdInfo,
      if_neg hlt, drvFlashWrite, if_neg hin]

/-- The session after the image entries `hs` were saved. -/
def Session.saved (s : Session) (hs : List ImageHdr) : Session :=
  s.setCxt fun c => { c with totalImages := hs.length, imageHdr := hs.map ImageHdr.adjust }

theorem checkImageEntries_ok {hs : List ImageHdr} (s : Session) (h : ∀ x ∈ hs, ¬x.Incorrect) :
    checkImageEntries hs s = (.ok (tally hs), s.saved hs) := by
  rw [checkImageEntries, checkEntries_of_correct _ h]
  rfl

theorem checkImageEntries_error {hs : List ImageHdr} (s : Session) (h : ¬∀ x ∈ hs, ¬x.Incorrect) :
    ∃ c, checkImageEntries hs s = (.error .incorrectImageHdr, { s with cxt := c }) := by
  rw [checkImageEntries]
  rcases hc : checkEntries Tally.zero hs with ⟨_ | t, hs'⟩
  · exact ⟨_, rfl⟩
  · exact absurd (checkEntries_ok hc).2.2 h

/-- The session after the SBL slot was noted. -/
def Session.withSblSlot (s : Session) (i start size : ℕ) : Session :=
  s.setCxt fun c => { c with trialSblIdx := i, trialSblStart := start, trialSblSize := size }

theorem checkSpace_ok (env : Env) {t : Tally} {s : Session} {i start size : ℕ}
    (h : ¬(t.sblImageExist = true ∧ t.appImageExist = false) ∧ t.diskSize ≤ s.cxt.trialMemSize ∧ t.len ≤ t.diskSize)
    (hs : fwUpgradeSelectSblTrialFde env.cfg s.fu.dev.mem.fdt = some (i, start, size))
    (hz : t.sblDiskSize ≤ size) : checkSpace env t s = (.ok (), s.withSblSlot i start size) := by
  obtain ⟨h₁, h₂, h₃⟩ := h
  rw [checkSpace, Cmd.ensure_bind, if_pos h₁, Cmd.ensure_bind, if_pos h₂, Cmd.ensure_bind, if_pos h₃]
  have hsel : selectSblSlot env s = (.ok (), s.withSblSlot i start size) := by
    rw [selectSblSlot, hs]
    rfl
  rw [Cmd.bind_ok hsel, Cmd.ensure_apply, if_pos (by exact hz)]

theorem checkSpace_error (env : Env) {t : Tally} {s : Session}
    (h : ¬t.Fits env s.cxt.trialMemSize s.fu.dev.mem.fdt) :
    ∃ e c, checkSpace env t s = (.error e, { s with cxt := c }) := by
  rw [checkSpace]
  by_cases h₁ : ¬(t.sblImageExist = true ∧ t.appImageExist = false)
  swap
  · exact ⟨_, _, (Cmd.ensure_bind _ _ _ _).trans (if_neg h₁)⟩
  rw [Cmd.ensure_bind, if_pos h₁]
  by_cases h₂ : t.diskSize ≤ s.cxt.trialMemSize
  swap
  · exact ⟨_, _, (Cmd.ensure_bind _ _ _ _).trans (if_neg h₂)⟩
  rw [Cmd.ensure_bind, if_pos h₂]
  by_cases h₃ : t.len ≤ t.diskSize
  swap
  · exact ⟨_, _, (Cmd.ensure_bind _ _ _ _).trans (if_neg h₃)⟩
  rw [Cmd.ensure_bind, if_pos h₃, Cmd.bind_apply, selectSblSlot]
  rcases hs : fwUpgradeSelectSblTrialFde env.cfg s.fu.dev.mem.fdt with _ | ⟨i, start, size⟩
  · exact ⟨_, _, rfl⟩
  · refine ⟨_, _, if_neg ?_⟩
    intro hz
    exact h ⟨h₁, h₂, h₃, i, start, size, hs, hz⟩

/-- The writes of the descriptor's head. -/
def headWrites (trial : ℕ) (hdr : ImageSetHdr) (hidden : ℕ) : List Write :=
  infoWrites trial .magic hdr.magic ++ infoWrites trial .version hdr.version ++
    infoWrites trial .totalImage ((hdr.numImages + hidden) % 256)

/-- The session after an accepted header. -/
def Session.configured (s : Session) (b : Bytes) (i start size : ℕ) : Session where
  fu := s.fu.writes (headWrites s.cxt.trialFwdIdx (ImageSetHdr.decode b) s.cxt.hiddenImagesCount)
  cxt := { s.cxt with
    totalImages := (ImageSetHdr.decode b).numImages
    imageHdr := (imageHdrs b (ImageSetHdr.decode b).numImages).map ImageHdr.adjust
    trialSblIdx := i, trialSblStart := start, trialSblSize := size
    fileReadCount := (ImageSetHdr.decode b).length
    configBuf := none }
  script := s.script
  phase := s.phase
  verified := s.verified

theorem Fu.writes_writes (s : Fu) (ws vs : List Write) : (s.writes ws).writes vs = s.writes (ws ++ vs) := by
  simp only [Fu.writes, Dev.writes_append]

theorem Mem.replay_infoWrites_fdt (m : Mem) (f : ℕ) (info : FwdInfo) (v : ℕ) :
    (replay Mem.app m (infoWrites f info v)).fdt = m.fdt :=
  Mem.replay_fdt fun w hw => (pages_sub _ _ _ w hw).2.2

/-- Parsing a complete header: the descriptor's head is programmed as far as the checks go, and an
    acceptable header is taken over. -/
theorem parseConfig_cases (env : Env) (s : Session) (b : Bytes) :
    (¬s.Acceptable env b ∧ ∃ e c ws, parseConfig env b s = (.error e, { s with fu := s.fu.writes ws, cxt := c }) ∧
      ws <+: headWrites s.cxt.trialFwdIdx (ImageSetHdr.decode b) s.cxt.hiddenImagesCount) ∨
    (s.Acceptable env b ∧ ∃ i start size,
      fwUpgradeSelectSblTrialFde env.cfg s.fu.dev.mem.fdt = some (i, start, size) ∧
      (tally (imageHdrs b (ImageSetHdr.decode b).numImages)).sblDiskSize ≤ size ∧
      parseConfig env b s = nextStage env (s.configured b i start size)) := by
  set hdr := ImageSetHdr.decode b with hhdr
  set t := s.cxt.trialFwdIdx with ht
  rw [parseConfig]
  by_cases hh : headerHashOk env.sha256 b
  swap
  · exact .inl ⟨fun h => hh h.1, _, s.cxt, [], by rw [Cmd.ensure_bind, if_neg hh, Fu.writes, Dev.writes_nil],
      List.nil_prefix⟩
  rw [Cmd.ensure_bind, if_pos hh]
  by_cases h₁ : s.CanSet .magic
  swap
  · exact .inl ⟨fun h => h₁ (h.2.1 _ (by simp)), _, s.cxt, [],
      by rw [Cmd.bind_error (setTrialInfo_error _ h₁), Fu.writes, Dev.writes_nil], List.nil_prefix⟩
  rw [Cmd.bind_ok (setTrialInfo_ok _ h₁)]
  by_cases h₂ : s.CanSet .version
  swap
  · exact .inl ⟨fun h => h₂ (h.2.1 _ (by simp)), _, s.cxt, infoWrites t .magic hdr.magic,
      by rw [Cmd.bind_error (setTrialInfo_error _ (by exact h₂))],
      ⟨infoWrites t .version hdr.version ++ _, by rw [headWrites, List.append_assoc]⟩⟩
  rw [Cmd.bind_ok (setTrialInfo_ok _ (by exact h₂)), Cmd.bind_ok (Cmd.gets_apply _ _)]
  by_cases h₃ : s.CanSet .totalImage
  swap
  · exact .inl ⟨fun h => h₃ (h.2.1 _ (by simp)), _, s.cxt, infoWrites t .magic hdr.magic ++
      infoWrites t .version hdr.version, by rw [Cmd.bind_error (setTrialInfo_error _ (by exact h₃)), ← Fu.writes_writes],
      ⟨_, rfl⟩⟩
  rw [Cmd.bind_ok (setTrialInfo_ok _ (by exact h₃))]
  simp only [Fu.writes_writes]
  -- from here on the device is fixed
  set fu' := s.fu.writes _ with hfu
  have hfdt : fu'.dev.mem.fdt = s.fu.dev.mem.fdt := by
    rw [hfu]
    simp only [Fu.writes_dev, Dev.writes_mem, replay_append, Mem.replay_infoWrites_fdt]
  by_cases h₄ : ∀ x ∈ imageHdrs b hdr.numImages, ¬x.Incorrect
  swap
  · obtain ⟨c, hc⟩ := checkImageEntries_error { s with fu := fu' } h₄
    exact .inl ⟨fun h => h₄ h.2.2.1, _, c, _, by rw [Cmd.bind_error hc]; rfl, List.prefix_rfl⟩
  rw [Cmd.bind_ok (checkImageEntries_ok _ h₄)]
  by_cases h₅ : (tally (imageHdrs b hdr.numImages)).Fits env s.cxt.trialMemSize s.fu.dev.mem.fdt
  swap
  · obtain ⟨e, c, hc⟩ := checkSpace_error env
      (s := { s with fu := fu' }.saved (imageHdrs b hdr.numImages))
      (t := tally (imageHdrs b hdr.numImages)) (by
        show ¬Tally.Fits _ env s.cxt.trialMemSize fu'.dev.mem.fdt
        rw [hfdt]
        exact h₅)
    exact .inl ⟨fun h => h₅ h.2.2.2, e, c, _, by rw [Cmd.bind_error hc]; rfl, List.prefix_rfl⟩
  obtain ⟨g₁, g₂, g₃, i, start, size, hsel, hz⟩ := h₅
  have hsp := checkSpace_ok env (s := { s with fu := fu' }.saved (imageHdrs b hdr.numImages))
    ⟨g₁, g₂, g₃⟩ (by
      show fwUpgradeSelectSblTrialFde env.cfg fu'.dev.mem.fdt = _
      rw [hfdt]
      exact hsel) hz
  rw [Cmd.bind_ok hsp, Cmd.bind_ok (Cmd.modify_apply _ _)]
  refine .inr ⟨⟨hh, ?_, h₄, g₁, g₂, g₃, i, start, size, hsel, hz⟩, i, start, size, hsel, hz, ?_⟩
  · intro info hi
    simp only [List.mem_cons, List.not_mem_nil, or_false] at hi
    rcases hi with rfl | rfl | rfl
    exacts [h₁, h₂, h₃]
  · congr 1
    simp only [Session.saved, Session.withSblSlot, Session.setCxt, Session.configured, imageHdrs, List.length_map,
      List.length_range, hfu]
    rfl

theorem nextStage_ok (env : Env) (s : Session) : ∃ s', nextStage env s = (.ok (), s') := by
  rw [nextStage]
  split
  · exact ⟨_, rfl⟩
  · exact ⟨_, rfl⟩

/-- What `fw_upgrade_process_config_file` can do with a complete header. -/
theorem processConfigFile_complete (env : Env) {s : Session} {b : Bytes} {c : Cxt}
    (h : s.cxt.receiveConfig = (.ok (some b), c)) :
    (¬{ s with cxt := c }.Acceptable env b ∧ ∃ e c' ws,
      fwUpgradeProcessConfigFile env s = (.error e, { s with fu := s.fu.writes ws, cxt := c' }) ∧
      ws <+: headWrites c.trialFwdIdx (ImageSetHdr.decode b) c.hiddenImagesCount) ∨
    ({ s with cxt := c }.Acceptable env b ∧ ∃ i start size,
      fwUpgradeSelectSblTrialFde env.cfg s.fu.dev.mem.fdt = some (i, start, size) ∧
      (tally (imageHdrs b (ImageSetHdr.decode b).numImages)).sblDiskSize ≤ size ∧
      fwUpgradeProcessConfigFile env s = nextStage env ({ s with cxt := c }.configured b i start size)) := by
  rw [fwUpgradeProcessConfigFile, h]
  simp only
  rcases parseConfig_cases env { s with cxt := c } b with ⟨hna, e, c', ws, hpc, hws⟩ |
    ⟨ha, i, start, size, hsel, hz, hpc⟩
  · rw [hpc]
    exact .inl ⟨hna, e, _, ws, rfl, hws⟩
  · obtain ⟨s', hs'⟩ := nextStage_ok env ({ s with cxt := c }.configured b i start size)
    rw [hpc, hs']
    exact .inr ⟨ha, i, start, size, hsel, hz, by rw [hs']⟩

/-! ### Steps of a session that nobody interrupts -/

theorem Session.poll_nil {s : Session} (h : s.script.requests = []) : s.poll = s := by
  rw [Session.poll, h]

theorem Session.step_process {env : Env} {s : Session} (hp : s.phase = .process) (hr : s.script.requests = [])
    (hs : s.cxt.sessionStatus = .running) : s.step env = afterSwitch (sessionSwitch env s) := by
  rw [Session.step, hp]
  simp only [Session.poll_nil hr, if_pos hs]

/-! ### Header reception as part of a run -/

/-- What receiving the header comes to: the file is rejected, it ends too early, or its entries are taken
    over; of an all-in-one file there may be bytes left for the images. -/
inductive HeaderOutcome where
  | rejected
  | incomplete
  | accepted (imageHdr : List ImageHdr) (unread : Option Bytes)
  deriving DecidableEq, Repr

def Packet.bytes : Packet → Bytes
  | .data b => b
  | .fail => []

/-- The bytes not yet looked at: the rest of the buffer and what is still to come. -/
def Session.unread (s : Session) : Bytes :=
  s.cxt.buffer.drop s.cxt.bufOffset ++ s.script.packets.flatMap Packet.bytes

/-- The outcome that a session shows, once there is one. -/
def Session.headerOutcome (s : Session) : Option HeaderOutcome :=
  match s.phase with
  | .process =>
    if s.cxt.isFirst then none
    else some (.accepted s.cxt.imageHdr (if s.cxt.format = formatPartialUpgrade then none else some s.unread))
  | .finalize (.error _) => some .rejected
  | .finalize (.ok _) => some .incomplete
  | .done _ => none

/-- The first outcome that shows in the run from `s`. -/
def HeaderResult (env : Env) (s : Session) (o : HeaderOutcome) : Prop :=
  ∃ n, (∀ m < n, (s.run env m).headerOutcome = none) ∧ (s.run env n).headerOutcome = some o

theorem HeaderResult.unique {env : Env} {s : Session} {o o' : HeaderOutcome} (h : HeaderResult env s o)
    (h' : HeaderResult env s o') : o = o' := by
  obtain ⟨n, hn, ho⟩ := h
  obtain ⟨n', hn', ho'⟩ := h'
  rcases Nat.lt_trichotomy n n' with hlt | rfl | hlt
  · rw [hn' n hlt] at ho; cases ho
  · rw [ho] at ho'
    cases ho'
    rfl
  · rw [hn n' hlt] at ho'; cases ho'

theorem HeaderResult.now {env : Env} {s : Session} {o : HeaderOutcome} (h : s.headerOutcome = some o) :
    HeaderResult env s o := ⟨0, by simp, h⟩

/-- An outcome after a step that shows none. -/
theorem HeaderResult.later {env : Env} {s : Session} {o : HeaderOutcome} (h : s.headerOutcome = none)
    (hr : HeaderResult env (s.step env) o) : HeaderResult env s o := by
  obtain ⟨n, hn, ho⟩ := hr
  refine ⟨n + 1, ?_, ho⟩
  rintro (_ | m) hm
  · exact h
  · exact hn m (by omega)

/-- The session `s` ready to receive the header in the pieces `cs`. -/
def Session.receiving (s : Session) (cs : List Bytes) : Session where
  fu := s.fu
  cxt := { s.cxt with state := .receiveData, sessionStatus := .running, isFirst := true, configBuf := none }
  script := ⟨cs.map .data, s.script.connects, []⟩
  phase := .process
  verified := s.verified

/-- A piece as the transport delivers it. -/
def Chunk (b : Bytes) : Prop := b ≠ [] ∧ b.length ≤ fwUpgradeBufSize

instance (b : Bytes) : Decidable (Chunk b) := inferInstanceAs (Decidable (_ ∧ _))

/-- In the middle of the header: `pre` of it has been collected, `cs` is to come. -/
structure Collecting (s t : Session) (pre : Bytes) (cs : List Bytes) : Prop where
  fu : t.fu = s.fu
  phase : t.phase = .process
  script : t.script = ⟨cs.map .data, s.script.connects, []⟩
  state : t.cxt.state = .receiveData
  status : t.cxt.sessionStatus = .running
  isFirst : t.cxt.isFirst = true
  trialFwdIdx : t.cxt.trialFwdIdx = s.cxt.trialFwdIdx
  trialMemSize : t.cxt.trialMemSize = s.cxt.trialMemSize
  configBuf : t.cxt.configBuf = if pre = [] then none else some pre
  format : pre ≠ [] → t.cxt.format = (ImageSetHdr.decode pre).format
  count : pre ≠ [] → t.cxt.imageWrtCount = pre.length
  length : pre ≠ [] → imageSetHdrPart1Size ≤ pre.length ∧ pre.length < (ImageSetHdr.decode pre).length
  correct : pre ≠ [] → (ImageSetHdr.decode pre).Correct

theorem collecting_receiving (s : Session) (cs : List Bytes) : Collecting s (s.receiving cs) [] cs := by
  constructor <;> simp [Session.receiving]

/-- The part-1 header only looks at the first 17 bytes. -/
theorem ImageSetHdr.decode_append {b : Bytes} (c : Bytes) (h : imageSetHdrPart1Size ≤ b.length) :
    ImageSetHdr.decode (b ++ c) = ImageSetHdr.decode b := by
  have hg : ∀ i < 17, (b ++ c).getD i 0 = b.getD i 0 := by
    intro i hi
    simp only [imageSetHdrPart1Size] at h
    rw [List.getD_eq_getElem?_getD, List.getElem?_append_left (by omega), List.getD_eq_getElem?_getD]
  simp only [ImageSetHdr.decode, wordAt, hg _ (show 0 < 17 by decide), hg _ (show 16 < 17 by decide),
    hg _ (show 0 + 1 < 17 by decide), hg _ (show 0 + 2 < 17 by decide), hg _ (show 0 + 3 < 17 by decide),
    hg _ (show 4 < 17 by decide), hg _ (show 4 + 1 < 17 by decide), hg _ (show 4 + 2 < 17 by decide),
    hg _ (show 4 + 3 < 17 by decide), hg _ (show 8 < 17 by decide), hg _ (show 8 + 1 < 17 by decide),
    hg _ (show 8 + 2 < 17 by decide), hg _ (show 8 + 3 < 17 by decide), hg _ (show 12 < 17 by decide),
    hg _ (show 12 + 1 < 17 by decide), hg _ (show 12 + 2 < 17 by decide), hg _ (show 12 + 3 < 17 by decide)]

theorem ImageSetHdr.decode_take {S : Bytes} {n : ℕ} (hn : imageSetHdrPart1Size ≤ n) (hS : n ≤ S.length) :
    ImageSetHdr.decode (S.take n) = ImageSetHdr.decode S := by
  have h := ImageSetHdr.decode_append (b := S.take n) (S.drop n) (by rw [List.length_take]; omega)
  rwa [List.take_append_drop, eq_comm] at h

theorem ImageSetHdr.Correct.length_lt {h : ImageSetHdr} (hc : h.Correct) : h.length < 2 ^ 32 := by
  obtain ⟨⟨-, hn⟩, -, hl⟩ := hc
  simp only [ImageSetHdr.hashOffset, fwUpgradeMaxImagesNum, imageSetHdrPart1Size, imageHdrSize,
    fwUpgradeHashLen] at *
  omega

theorem ImageSetHdr.Correct.part1_le {h : ImageSetHdr} (hc : h.Correct) : imageSetHdrPart1Size ≤ h.length := by
  obtain ⟨-, -, hl⟩ := hc
  simp only [ImageSetHdr.hashOffset, imageSetHdrPart1Size, fwUpgradeHashLen] at *
  omega

/-- A first piece that is too short or has an incorrect part-1 header is rejected. -/
theorem receiveConfig_rejects {c : Cxt} (hn : c.configBuf = none)
    (h : c.buffer.length < imageSetHdrPart1Size ∨ ¬(ImageSetHdr.decode c.buffer).Correct) :
    ∃ e f, c.receiveConfig = (.error e, { c with format := f }) := by
  rw [Cxt.receiveConfig]
  split
  swap
  · rename_i b hb
    rw [hn] at hb
    cases hb
  simp only
  by_cases h₁ : c.buffer.length < imageSetHdrPart1Size
  · exact ⟨_, c.format, if_pos h₁⟩
  rw [if_neg h₁]
  by_cases h₂ : 0 < (ImageSetHdr.decode c.buffer).numImages ∧
      (ImageSetHdr.decode c.buffer).numImages ≤ fwUpgradeMaxImagesNum
  swap
  · exact ⟨_, c.format, if_pos h₂⟩
  rw [if_neg (not_not.mpr h₂)]
  by_cases h₃ : (ImageSetHdr.decode c.buffer).magic = 0 ∨ (ImageSetHdr.decode c.buffer).length = 0 ∨
      (ImageSetHdr.decode c.buffer).format = 0
  · exact ⟨_, c.format, if_pos h₃⟩
  rw [if_neg h₃]
  refine ⟨_, _, if_pos ?_⟩
  intro h₄
  rcases h with h | h
  · exact h₁ h
  · exact h ⟨h₂, h₃, h₄⟩

/-- What has been collected after a piece: with `pre` before it and `b` in the buffer. -/
theorem receiveConfig_collects {c : Cxt} {pre : Bytes}
    (hb : c.configBuf = if pre = [] then none else some pre) (hcount : pre ≠ [] → c.imageWrtCount = pre.length)
    (hlen : pre ≠ [] → imageSetHdrPart1Size ≤ pre.length ∧ pre.length < (ImageSetHdr.decode pre).length)
    (hf : pre ≠ [] → c.format = (ImageSetHdr.decode pre).format)
    (h17 : imageSetHdrPart1Size ≤ (pre ++ c.buffer).length)
    (hc : (ImageSetHdr.decode (pre ++ c.buffer)).Correct) :
    let hdr := ImageSetHdr.decode (pre ++ c.buffer)
    ((pre ++ c.buffer).length < hdr.length ∧ c.receiveConfig = (.ok none, { c with
      format := hdr.format, configBuf := some (pre ++ c.buffer), bufOffset := c.buffer.length
      imageWrtCount := (pre ++ c.buffer).length, state := .receiveData })) ∨
    (hdr.length ≤ (pre ++ c.buffer).length ∧ ∃ n d, c.receiveConfig =
      (.ok (some ((pre ++ c.buffer).take hdr.length)), d) ∧ d = { c with
        format := hdr.format, configBuf := some ((pre ++ c.buffer).take hdr.length)
        bufOffset := hdr.length - pre.length, imageWrtCount := n }) := by
  intro hdr
  have hlt := hc.length_lt
  by_cases hp : pre = []
  · subst hp
    have hbuf : ImageSetHdr.decode c.buffer = hdr := rfl
    obtain ⟨g₁, g₂, g₃⟩ := hc
    rw [Cxt.receiveConfig, hb, if_pos rfl]
    simp only [hbuf, List.nil_append] at *
    rw [if_neg (Nat.not_lt.mpr h17), if_neg (not_not.mpr g₁), if_neg g₂, if_neg (not_not.mpr g₃)]
    by_cases hl : c.buffer.length < hdr.length
    · refine .inl ⟨hl, ?_⟩
      rw [if_pos hl, List.take_of_length_le (Nat.le_of_lt hl)]
    · refine .inr ⟨Nat.not_lt.mp hl, c.imageWrtCount, _, if_neg hl, ?_⟩
      rw [List.length_take, Nat.min_eq_left (Nat.not_lt.mp hl)]
      rfl
  · obtain ⟨hp17, hpl⟩ := hlen hp
    have hdec : ImageSetHdr.decode pre = hdr := (ImageSetHdr.decode_append _ hp17).symm
    rw [hdec] at hpl
    have hsub : u32sub hdr.length pre.length = hdr.length - pre.length := u32sub_of_le hlt (Nat.le_of_lt hpl)
    rw [Cxt.receiveConfig, hb, if_neg hp]
    simp only [hdec, hcount hp, hsub, hf hp, List.length_append]
    by_cases hl : pre.length + c.buffer.length < hdr.length
    · have hmin : min c.buffer.length (hdr.length - pre.length) = c.buffer.length := by omega
      refine .inl ⟨hl, ?_⟩
      rw [hmin, if_pos hl, List.take_length]
    · have hmin : min c.buffer.length (hdr.length - pre.length) = hdr.length - pre.length := by omega
      have htake : (pre ++ c.buffer).take hdr.length = pre ++ c.buffer.take (hdr.length - pre.length) := by
        rw [List.take_append, List.take_of_length_le (Nat.le_of_lt hpl)]
      refine .inr ⟨by omega, pre.length + (hdr.length - pre.length), _, ?_, rfl⟩
      rw [hmin, if_neg (by omega), htake]

/-! ### Collecting, seen from the context -/

/-- What has been collected of the header is longer than its first part, shorter than the whole, and its
    first part is correct. -/
structure Cxt.Collected (c : Cxt) : Prop where
  pre : ∀ b, c.configBuf = some b → b ≠ [] ∧ c.imageWrtCount = b.length ∧
    c.format = (ImageSetHdr.decode b).format ∧
    (imageSetHdrPart1Size ≤ b.length ∧ b.length < (ImageSetHdr.decode b).length) ∧
    (ImageSetHdr.decode b).Correct

/-- The bytes of the header, with those in the buffer. -/
def Cxt.gathered (c : Cxt) : Bytes := c.configBuf.getD [] ++ c.buffer

/-- The header that the bytes begin with. -/
def Cxt.header (c : Cxt) : Bytes := c.gathered.take (ImageSetHdr.decode c.gathered).length

/-- The header is complete. -/
def Cxt.HeaderComplete (c : Cxt) : Prop :=
  imageSetHdrPart1Size ≤ c.gathered.length ∧ (ImageSetHdr.decode c.gathered).length ≤ c.gathered.length

/-- How a piece of the header is taken: it is refused, or more is to come, or the header is complete. -/
theorem receiveConfig_cases {c : Cxt} (h : c.Collected) :
    (∃ e f, c.receiveConfig = (.error e, { c with format := f })) ∨
    (∃ d, c.receiveConfig = (.ok none, d) ∧ d.Collected ∧ ∃ f b n, d = { c with
      format := f, configBuf := some b, bufOffset := c.buffer.length, imageWrtCount := n, state := .receiveData }) ∨
    (∃ d, c.receiveConfig = (.ok (some c.header), d) ∧ c.HeaderComplete ∧
      (ImageSetHdr.decode c.header).Correct ∧ ∃ b o n, d = { c with
        format := (ImageSetHdr.decode c.header).format, configBuf := some b, bufOffset := o
        imageWrtCount := n }) := by
  have hpre : ∃ pre, c.gathered = pre ++ c.buffer ∧ c.configBuf = if pre = [] then none else some pre := by
    rcases hb : c.configBuf with _ | b
    · exact ⟨[], by rw [Cxt.gathered, hb]; rfl, rfl⟩
    · exact ⟨b, by rw [Cxt.gathered, hb]; rfl, (if_neg (h.pre b hb).1).symm⟩
  obtain ⟨pre, hg, hb⟩ := hpre
  by_cases hrej : pre = [] ∧
      (c.buffer.length < imageSetHdrPart1Size ∨ ¬(ImageSetHdr.decode c.buffer).Correct)
  · exact .inl (receiveConfig_rejects (by rw [hb, if_pos hrej.1]) hrej.2)
  have hsome : ∀ hp : pre ≠ [], c.configBuf = some pre := fun hp => by rw [hb, if_neg hp]
  have hfull : imageSetHdrPart1Size ≤ (pre ++ c.buffer).length ∧ (ImageSetHdr.decode (pre ++ c.buffer)).Correct := by
    by_cases hp : pre = []
    · subst hp
      simp only [true_and, not_or, not_lt, not_not] at hrej
      exact hrej
    · obtain ⟨-, -, -, hl, hc⟩ := h.pre pre (hsome hp)
      rw [ImageSetHdr.decode_append _ hl.1, List.length_append]
      exact ⟨Nat.le_trans hl.1 (Nat.le_add_right _ _), hc⟩
  have hne : pre ++ c.buffer ≠ [] := by
    intro hnil
    rw [hnil] at hfull
    exact absurd hfull.1 (by decide)
  refine .inr ?_
  rcases receiveConfig_collects hb (fun hp => (h.pre pre (hsome hp)).2.1) (fun hp => (h.pre pre (hsome hp)).2.2.2.1)
    (fun hp => (h.pre pre (hsome hp)).2.2.1) hfull.1 hfull.2 with ⟨hlt, hrc⟩ | ⟨hle, n, d, hrc, hd⟩
  · refine .inl ⟨_, hrc, ⟨?_⟩, _, _, _, rfl⟩
    rintro b hbeq
    cases hbeq
    exact ⟨hne, rfl, rfl, ⟨hfull.1, hlt⟩, hfull.2⟩
  · have hdec : ImageSetHdr.decode c.header = ImageSetHdr.decode (pre ++ c.buffer) := by
      rw [Cxt.header, hg]
      exact ImageSetHdr.decode_take hfull.2.part1_le hle
    refine .inr ⟨d, ?_, ?_, ?_, ?_⟩
    · rw [hrc, Cxt.header, hg]
    · rw [Cxt.HeaderComplete, hg]
      exact ⟨hfull.1, hle⟩
    · rw [hdec]
      exact hfull.2
    · exact ⟨_, _, n, by rw [hdec]; exact hd⟩

/-- What a stream comes to when its first piece holds the part-1 header. -/
inductive HeaderSpec (env : Env) (s : Session) (S : Bytes) : HeaderOutcome → Prop
  | incorrect (h : ¬(ImageSetHdr.decode S).Correct) : HeaderSpec env s S .rejected
  | incomplete (h : (ImageSetHdr.decode S).Correct) (hl : S.length < (ImageSetHdr.decode S).length) :
    HeaderSpec env s S .incomplete
  | rejected (h : (ImageSetHdr.decode S).Correct) (hl : (ImageSetHdr.decode S).length ≤ S.length)
    (ha : ¬s.Acceptable env (S.take (ImageSetHdr.decode S).length)) : HeaderSpec env s S .rejected
  | accepted (h : (ImageSetHdr.decode S).Correct) (hl : (ImageSetHdr.decode S).length ≤ S.length)
    (ha : s.Acceptable env (S.take (ImageSetHdr.decode S).length)) :
    HeaderSpec env s S (.accepted
      ((imageHdrs (S.take (ImageSetHdr.decode S).length) (ImageSetHdr.decode S).numImages).map ImageHdr.adjust)
      (if (ImageSetHdr.decode S).format = formatPartialUpgrade then none
        else some (S.drop (ImageSetHdr.decode S).length)))

/-- The session with the piece `b` in its buffer. -/
def Session.buffered (t : Session) (b : Bytes) (cs : List Bytes) : Session where
  fu := t.fu
  cxt := { t.cxt with buffer := b, bufOffset := 0, state := .processConfigFile }
  script := { t.script with packets := cs.map .data }
  phase := t.phase
  verified := t.verified

theorem step_receiveData {env : Env} {s t : Session} {pre b : Bytes} {cs : List Bytes}
    (h : Collecting s t pre (b :: cs)) (hb : Chunk b) : t.step env = t.buffered b cs := by
  have hr : t.script.requests = [] := by rw [h.script]
  have hp : t.script.packets = .data b :: cs.map .data := by rw [h.script]; rfl
  have htake : b.take fwUpgradeBufSize = b := List.take_of_length_le hb.2
  rw [Session.step_process h.phase hr h.status, sessionSwitch, h.state]
  simp only [receiveData, hp, htake, if_neg hb.1, Session.setCxt, h.isFirst, if_true, Session.afterSwitch,
    Session.buffered]

theorem step_processConfigFile (env : Env) {s t : Session} {pre b : Bytes} {cs : List Bytes}
    (h : Collecting s t pre (b :: cs)) :
    (t.buffered b cs).step env =
      Session.afterSwitch ((fwUpgradeProcessConfigFile env >>= fun _ => pure true) (t.buffered b cs)) := by
  have hr : (t.buffered b cs).script.requests = [] := by
    show t.script.requests = []
    rw [h.script]
  exact Session.step_process h.phase hr h.status

theorem flatMap_bytes (cs : List Bytes) : (cs.map Packet.data).flatMap Packet.bytes = cs.flatten := by
  rw [List.flatMap_map, ← List.flatMap_id]
  rfl

theorem headerOutcome_process {t : Session} (hp : t.phase = .process) (hf : t.cxt.isFirst = true) :
    t.headerOutcome = none := by
  rw [Session.headerOutcome, hp]
  simp only [hf, if_true]

theorem Session.acceptable_congr (env : Env) {s t : Session} (b : Bytes) (hfu : t.fu = s.fu)
    (hi : t.cxt.trialFwdIdx = s.cxt.trialFwdIdx) (hm : t.cxt.trialMemSize = s.cxt.trialMemSize) :
    t.Acceptable env b ↔ s.Acceptable env b := by
  simp only [Session.Acceptable, Session.CanSet, hfu, hi, hm]

/-- After the header: the outcome shows the entries, and for an all-in-one file what is left. -/
theorem headerOutcome_nextStage (env : Env) {u : Session} (hp : u.phase = .process) :
    (Session.afterSwitch ((nextStage env >>= fun _ => pure true) u)).headerOutcome =
      some (.accepted u.cxt.imageHdr (if u.cxt.format = formatPartialUpgrade then none else some u.unread)) := by
  rw [Cmd.bind_apply, nextStage]
  by_cases hf : u.cxt.format = formatPartialUpgrade
  · rw [if_neg (not_not.mpr hf), if_pos hf]
    simp only [Cmd.pure_apply, Session.afterSwitch, Session.headerOutcome, Session.setCxt, hp, hf, if_true]
    rfl
  · rw [if_pos hf, if_neg hf]
    simp only [Cmd.pure_apply, Session.afterSwitch, Session.headerOutcome, Session.setCxt, hp, if_neg hf]
    rfl

section Collecting

variable {s t : Session} {pre b : Bytes} {cs : List Bytes}

/-- With no more pieces the header stays incomplete. -/
theorem headerResult_ended (env : Env) (h : Collecting s t pre []) (hp : pre ≠ []) :
    HeaderSpec env s pre .incomplete ∧ HeaderResult env t .incomplete := by
  have hr : t.script.requests = [] := by rw [h.script]
  have hpk : t.script.packets = [] := by rw [h.script]; rfl
  refine ⟨.incomplete (h.correct hp) (h.length hp).2, .later (headerOutcome_process h.phase h.isFirst) (.now ?_)⟩
  rw [Session.step_process h.phase hr h.status, sessionSwitch, h.state]
  simp only [receiveData, hpk]
  rfl

/-- A piece is received, then processed. -/
theorem headerResult_piece (env : Env) {o : HeaderOutcome} (h : Collecting s t pre (b :: cs)) (hb : Chunk b)
    (ho : HeaderResult env ((t.buffered b cs).step env) o) : HeaderResult env t o := by
  have hfirst : (t.buffered b cs).headerOutcome = none := headerOutcome_process h.phase h.isFirst
  refine .later (headerOutcome_process h.phase h.isFirst) ?_
  rw [step_receiveData h hb]
  exact .later hfirst ho

/-- A piece that does not complete the header is kept. -/
theorem Collecting.more (env : Env) (h : Collecting s t pre (b :: cs)) (hne : pre ++ b ≠ [])
    (h17 : imageSetHdrPart1Size ≤ (pre ++ b).length) (hc : (ImageSetHdr.decode (pre ++ b)).Correct)
    (hlt : (pre ++ b).length < (ImageSetHdr.decode (pre ++ b)).length)
    (hrc : (t.buffered b cs).cxt.receiveConfig = (.ok none, { (t.buffered b cs).cxt with
      format := (ImageSetHdr.decode (pre ++ b)).format, configBuf := some (pre ++ b), bufOffset := b.length
      imageWrtCount := (pre ++ b).length, state := .receiveData })) :
    Collecting s ((t.buffered b cs).step env) (pre ++ b) cs := by
  rw [step_processConfigFile env h, Cmd.bind_apply, fwUpgradeProcessConfigFile, hrc]
  constructor
  · exact h.fu
  · exact h.phase
  · show { t.script with packets := cs.map Packet.data } = _
    rw [h.script]
  · rfl
  · exact h.status
  · exact h.isFirst
  · exact h.trialFwdIdx
  · exact h.trialMemSize
  · exact (if_neg hne).symm
  · exact fun _ => rfl
  · exact fun _ => rfl
  · exact fun _ => ⟨h17, hlt⟩
  · exact fun _ => hc

/-- With the piece that completes the header, it is accepted or rejected. -/
theorem headerResult_complete (env : Env) {n : ℕ} {d : Cxt} (h : Collecting s t pre (b :: cs)) (hb : Chunk b)
    (h17 : imageSetHdrPart1Size ≤ (pre ++ b).length) (hc : (ImageSetHdr.decode (pre ++ b)).Correct)
    (hle : (ImageSetHdr.decode (pre ++ b)).length ≤ (pre ++ b).length)
    (hrc : (t.buffered b cs).cxt.receiveConfig =
      (.ok (some ((pre ++ b).take (ImageSetHdr.decode (pre ++ b)).length)), d))
    (hd : d = { (t.buffered b cs).cxt with
      format := (ImageSetHdr.decode (pre ++ b)).format
      configBuf := some ((pre ++ b).take (ImageSetHdr.decode (pre ++ b)).length)
      bufOffset := (ImageSetHdr.decode (pre ++ b)).length - pre.length, imageWrtCount := n }) :
    ∃ o, HeaderSpec env s (pre ++ (b :: cs).flatten) o ∧ HeaderResult env t o := by
  have hdec : ImageSetHdr.decode (pre ++ (b :: cs).flatten) = ImageSetHdr.decode (pre ++ b) := by
    rw [List.flatten_cons, ← List.append_assoc, ImageSetHdr.decode_append _ h17]
  have hsw := step_processConfigFile env h
  set hdr := ImageSetHdr.decode (pre ++ b) with hhdr
  have hpre : pre.length ≤ hdr.length := by
    by_cases hp : pre = []
    · simp [hp]
    · have := (h.length hp).2
      rw [← ImageSetHdr.decode_append b (h.length hp).1] at this
      exact Nat.le_of_lt this
  have htd : ImageSetHdr.decode ((pre ++ b).take hdr.length) = hdr := ImageSetHdr.decode_take hc.part1_le hle
  have htk : (pre ++ (b :: cs).flatten).take hdr.length = (pre ++ b).take hdr.length := by
    rw [List.flatten_cons, ← List.append_assoc, List.take_append_of_le_length hle]
  have hle' : hdr.length ≤ (pre ++ (b :: cs).flatten).length := by
    rw [List.flatten_cons, ← List.append_assoc, List.length_append]
    exact Nat.le_trans hle (Nat.le_add_right _ _)
  have hacc := Session.acceptable_congr env (s := s) (t := { t.buffered b cs with cxt := d })
    ((pre ++ b).take hdr.length) h.fu (by rw [hd]; exact h.trialFwdIdx) (by rw [hd]; exact h.trialMemSize)
  rcases processConfigFile_complete env hrc with ⟨hna, e, c, ws, hpc, -⟩ | ⟨ha, i, start, size, -, -, hpc⟩
  · refine ⟨.rejected, .rejected (by rwa [hdec]) (by rwa [hdec]) ?_, headerResult_piece env h hb (.now ?_)⟩
    · rw [hdec, htk]
      exact mt hacc.mpr hna
    · rw [hsw, Cmd.bind_error hpc]
      rfl
  · refine ⟨_, .accepted (by rwa [hdec]) (by rwa [hdec]) ?_, headerResult_piece env h hb (.now ?_)⟩
    · rw [hdec, htk]
      exact hacc.mp ha
    · rw [hsw, Cmd.bind_apply, hpc, ← Cmd.bind_apply, headerOutcome_nextStage env (by exact h.phase)]
      have hunread : ({ t.buffered b cs with cxt := d }.configured ((pre ++ b).take hdr.length) i start size).unread =
          (pre ++ (b :: cs).flatten).drop hdr.length := by
        rw [Session.unread]
        simp only [Session.configured, hd, Session.buffered, flatMap_bytes]
        rw [List.flatten_cons, ← List.append_assoc, List.drop_append_of_le_length hle, List.drop_append,
          List.drop_of_length_le hpre, List.nil_append]
      rw [hunread, hdec, htk]
      simp only [Session.configured, htd, hd]

end Collecting

/-- With the pieces `cs` to come after `pre`, the run comes to what the whole stream stands for. -/
theorem headerResult_collecting (env : Env) {s : Session} : ∀ {cs : List Bytes} {t : Session} {pre : Bytes},
    Collecting s t pre cs → (∀ c ∈ cs, Chunk c) →
    (pre = [] → ∃ b ∈ cs.head?, imageSetHdrPart1Size ≤ b.length) →
    ∃ o, HeaderSpec env s (pre ++ cs.flatten) o ∧ HeaderResult env t o
  | [], t, pre, h, _, h0 => by
    have hp : pre ≠ [] := by
      intro hp
      obtain ⟨b, hb, -⟩ := h0 hp
      cases hb
    rw [List.flatten_nil, List.append_nil]
    exact ⟨.incomplete, headerResult_ended env h hp⟩
  | b :: cs, t, pre, h, hcs, h0 => by
    have hb : Chunk b := hcs b List.mem_cons_self
    have hcs' : ∀ c ∈ cs, Chunk c := fun c hc => hcs c (List.mem_cons_of_mem _ hc)
    have h17 : imageSetHdrPart1Size ≤ (pre ++ b).length := by
      rw [List.length_append]
      by_cases hp : pre = []
      · obtain ⟨b', hb', hl⟩ := h0 hp
        cases hb'
        omega
      · exact Nat.le_trans (h.length hp).1 (Nat.le_add_right _ _)
    by_cases hc : (ImageSetHdr.decode (pre ++ b)).Correct
    swap
    · have hp : pre = [] := by
        by_contra hp
        exact hc (ImageSetHdr.decode_append b (h.length hp).1 ▸ h.correct hp)
      subst hp
      obtain ⟨e, c', hrej⟩ := receiveConfig_rejects (c := (t.buffered b cs).cxt)
        (h.configBuf.trans (if_pos rfl)) (.inr hc)
      refine ⟨.rejected, .incorrect ?_, headerResult_piece env h hb (.now ?_)⟩
      · rwa [List.flatten_cons, ← List.append_assoc, ImageSetHdr.decode_append _ h17]
      · rw [step_processConfigFile env h, Cmd.bind_apply, fwUpgradeProcessConfigFile, hrej]
        rfl
    have hrc := receiveConfig_collects (c := (t.buffered b cs).cxt) h.configBuf h.count h.length h.format h17 hc
    simp only [show (t.buffered b cs).cxt.buffer = b from rfl] at hrc
    rcases hrc with ⟨hlt, hrc⟩ | ⟨hle, n, d, hrc, hd⟩
    · have hne : pre ++ b ≠ [] := by simp [hb.1]
      obtain ⟨o, hspec, hres⟩ :=
        headerResult_collecting env (h.more env hne h17 hc hlt hrc) hcs' fun hp => absurd hp hne
      refine ⟨o, ?_, headerResult_piece env h hb hres⟩
      rwa [List.flatten_cons, ← List.append_assoc]
    · exact headerResult_complete env h hb h17 hc hle hrc hd

/-- A first piece shorter than the part-1 header: the file is rejected. -/
theorem headerResult_short (env : Env) (s : Session) {b : Bytes} (cs : List Bytes) (hb : Chunk b)
    (h : b.length < imageSetHdrPart1Size) : HeaderResult env (s.receiving (b :: cs)) .rejected := by
  have hcol := collecting_receiving s (b :: cs)
  obtain ⟨e, c, hrej⟩ := receiveConfig_rejects (c := ((s.receiving (b :: cs)).buffered b cs).cxt) rfl (.inl h)
  refine .later (headerOutcome_process hcol.phase hcol.isFirst) ?_
  rw [step_receiveData hcol hb]
  refine .later (headerOutcome_process hcol.phase hcol.isFirst) (.now ?_)
  rw [step_processConfigFile env hcol, Cmd.bind_apply, fwUpgradeProcessConfigFile, hrej]
  rfl

/-- A first piece with the part-1 header: what the whole stream stands for. -/
theorem headerResult_long (env : Env) (s : Session) {b : Bytes} {cs : List Bytes} (hcs : ∀ c ∈ b :: cs, Chunk c)
    (h : imageSetHdrPart1Size ≤ b.length) :
    ∃ o, HeaderSpec env s (b :: cs).flatten o ∧ HeaderResult env (s.receiving (b :: cs)) o := by
  obtain ⟨o, hspec, hres⟩ :=
    headerResult_collecting env (collecting_receiving s (b :: cs)) hcs fun _ => ⟨b, rfl, h⟩
  rw [List.nil_append] at hspec
  exact ⟨o, hspec, hres⟩

theorem HeaderSpec.unique {env : Env} {s : Session} {S : Bytes} {o o' : HeaderOutcome} (h : HeaderSpec env s S o)
    (h' : HeaderSpec env s S o') : o = o' := by
  cases h <;> cases h' <;> first | rfl | contradiction | omega

/-- The header of the stream `S` is rejected wherever the stream is cut: a part-1 field is incorrect, or
    the header is complete and does not pass. -/
def HeaderBad (env : Env) (s : Session) (S : Bytes) : Prop :=
  ¬(ImageSetHdr.decode S).Correct ∨
    (ImageSetHdr.decode S).length ≤ S.length ∧ ¬s.Acceptable env (S.take (ImageSetHdr.decode S).length)

theorem HeaderSpec.rejected_iff {env : Env} {s : Session} {S : Bytes} {o : HeaderOutcome}
    (h : HeaderSpec env s S o) : o = .rejected ↔ HeaderBad env s S := by
  cases h with
  | incorrect h => exact ⟨fun _ => .inl h, fun _ => rfl⟩
  | rejected h hl ha => exact ⟨fun _ => .inr ⟨hl, ha⟩, fun _ => rfl⟩
  | incomplete h hl =>
    refine ⟨fun hc => (by cases hc), ?_⟩
    rintro (hb | ⟨hl', -⟩)
    · exact absurd h hb
    · omega
  | accepted h hl ha =>
    refine ⟨fun hc => (by cases hc), ?_⟩
    rintro (hb | ⟨-, ha'⟩)
    · exact absurd h hb
    · exact absurd ha ha'

/-- One split begins with the part-1 header, the other cuts it. -/
theorem headerResult_mixed (env : Env) (s : Session) {b b' : Bytes} {cs : List Bytes} (cs' : List Bytes)
    (hcs : ∀ c ∈ b :: cs, Chunk c) (hb' : Chunk b') (h : imageSetHdrPart1Size ≤ b.length)
    (h' : b'.length < imageSetHdrPart1Size) :
    (∃ o, HeaderResult env (s.receiving (b :: cs)) o ∧ HeaderResult env (s.receiving (b' :: cs')) o) ↔
      HeaderBad env s (b :: cs).flatten := by
  obtain ⟨o, hspec, hres⟩ := headerResult_long env s hcs h
  have hrej := headerResult_short env s cs' hb' h'
  rw [← hspec.rejected_iff]
  constructor
  · rintro ⟨o₁, h₁, h₂⟩
    rw [hres.unique h₁, h₂.unique hrej]
  · rintro rfl
    exact ⟨_, hres, hrej⟩

/-- Two splits of a stream come to the same exactly when both or neither begin with a whole part-1 header,
    or the header is rejected anyway. -/
theorem header_chunks_agree_iff (env : Env) (s : Session) (cs cs' : List Bytes) (hcs : ∀ c ∈ cs, Chunk c)
    (hcs' : ∀ c ∈ cs', Chunk c) (hS : cs.flatten = cs'.flatten) :
    (∃ o, HeaderResult env (s.receiving cs) o ∧ HeaderResult env (s.receiving cs') o) ↔
      (∀ b ∈ cs.head?, ∀ b' ∈ cs'.head?, (imageSetHdrPart1Size ≤ b.length ↔ imageSetHdrPart1Size ≤ b'.length)) ∨
        HeaderBad env s cs.flatten := by
  rcases cs with _ | ⟨b, cs⟩
  · -- an empty stream has only one split
    have hnil : cs' = [] := by
      rcases cs' with _ | ⟨b', cs'⟩
      · rfl
      · rw [List.flatten_nil, List.flatten_cons, eq_comm, List.append_eq_nil_iff] at hS
        exact absurd hS.1 (hcs' b' List.mem_cons_self).1
    subst hnil
    refine ⟨fun _ => .inl (by simp), fun _ => ⟨.incomplete, ?_, ?_⟩⟩ <;>
      exact .later rfl (.now rfl)
  rcases cs' with _ | ⟨b', cs'⟩
  · rw [List.flatten_nil, List.flatten_cons, List.append_eq_nil_iff] at hS
    exact absurd hS.1 (hcs b List.mem_cons_self).1
  have hb := hcs b List.mem_cons_self
  have hb' := hcs' b' List.mem_cons_self
  simp only [List.head?_cons, Option.mem_some_iff, forall_eq']
  rcases Nat.lt_or_ge b.length imageSetHdrPart1Size with h | h <;>
    rcases Nat.lt_or_ge b'.length imageSetHdrPart1Size with h' | h'
  · refine ⟨fun _ => .inl ?_, fun _ => ⟨_, headerResult_short env s cs hb h, headerResult_short env s cs' hb' h'⟩⟩
    exact iff_of_false (Nat.not_le.mpr h) (Nat.not_le.mpr h')
  · have hmix := headerResult_mixed env s cs hcs' hb h' h
    rw [← hS] at hmix
    constructor
    · rintro ⟨o, ho, ho'⟩
      exact .inr (hmix.mp ⟨o, ho', ho⟩)
    · rintro (hc | hbad)
      · exact absurd (hc.mpr h') (Nat.not_le.mpr h)
      · obtain ⟨o, ho, ho'⟩ := hmix.mpr hbad
        exact ⟨o, ho', ho⟩
  · have hmix := headerResult_mixed env s cs' hcs hb' h h'
    constructor
    · intro hc
      exact .inr (hmix.mp hc)
    · rintro (hc | hbad)
      · exact absurd (hc.mp h) (Nat.not_le.mpr h')
      · exact hmix.mpr hbad
  · obtain ⟨o, hspec, hres⟩ := headerResult_long env s hcs h
    obtain ⟨o', hspec', hres'⟩ := headerResult_long env s hcs' h'
    rw [← hS] at hspec'
    cases hspec.unique hspec'
    exact ⟨fun _ => .inl (iff_of_true h h'), fun _ => ⟨o, hres, hres'⟩⟩

/-! ### A small device -/

/-- The 32 bytes of a hash value. -/
def hashValue (n : ℕ) : Bytes := (List.range 32).map fun i => UInt8.ofNat (n / 256 ^ (31 - i))

/-- A build for two FWDs, with the values of SHA-256 that `table` lists. -/
def smallEnv (table : List (Bytes × ℕ)) : Env where
  cfg := ⟨2, false, 0x10000⟩
  sha256 := fun b => hashValue ((table.lookup b).getD 0)
  pastEnd := fun _ => ⟨0, 0, 0, 0, 0, 0, []⟩
  heap := fun _ => 0

/-- Eight blocks of flash: a FWD of rank 1 in block 0, its APP in block 3, FS1 in block 4, FS2 in block 5.
    The SBL slots are at 0x200000, in use, and 0x210000. -/
def smallFu : Fu where
  dev :=
    { mem :=
        { flash := Memory.ofBlocks [Fwd.encode ⟨fwUpgradeMagicV1, 1, 1, fwdStatusValid, 3,
            [⟨appImgId, 3, 1, 1⟩, ⟨fs1ImgId, 4, 1, 1⟩, ⟨fs2ImgId, 5, 1, 1⟩]⟩ (List.replicate 18 0xFF)]
          rram := fun _ => 0
          fdt := ⟨fdtSignature, 3, fun i =>
            if i = 0 then ⟨fdeImgIdSbl, fdeImgRankCurrent, fdeImgFormatElf, 0x200000, fdeImgStateValid, 1, 0, 0⟩
            else if i = 1 then ⟨fdeImgIdSbl, fdeImgRankAged, fdeImgFormatElf, 0x210000, fdeImgStateValid, 0, 0, 0⟩
            else ⟨fdeImgIdApp, fdeImgRankCurrent, fdeImgFormatElf, 0, fdeImgStateValid, 1, 0, 0⟩⟩ }
      log := []
      densityInBlocks := 8
      rramOk := fun _ _ => true }
  handles := fun _ => ⟨0, 0, 0, 0, 0, 0, 0⟩

def smallImage : Bytes := [1, 2, 3]

/-- SHA-256 of `smallImage`. -/
def smallImageHash : ℕ := 0x039058c6f2c0cb492c533b0a4d14ef77cc0f78abccced5287d84a1a2011cfb81

/-- The entry of an APP image of three bytes. -/
def smallApp : ImageHdr := ⟨1, appImgId, 1, 4096, 3, 1, hashValue smallImageHash⟩

/-- SHA-256 of the header of an all-in-one file with `smallApp` only. -/
def smallAppHash : ℕ := 0xc17aac38b2fb5c8f5a75d47cb935395a256854e45767e1a776d085bf4b92cfde

def smallHeader : Bytes := headerPrefix fwUpgradeMagicV1 1 2 [smallApp] ++ hashValue smallAppHash

def smallAppEnv : Env :=
  smallEnv [(headerPrefix fwUpgradeMagicV1 1 2 [smallApp], smallAppHash), (smallImage, smallImageHash)]

/-- A session on the small device that has picked slot 1 and the last block. -/
def smallSession : Session where
  fu := smallFu
  cxt := { Cxt.init 0 with trialFwdIdx := 1, trialMemStart := 28672, trialMemSize := 4096 }
  script := ⟨[], [], []⟩
  phase := .process
  verified := []

theorem header_chunks_agree_small : ∃ o,
    HeaderResult smallAppEnv (smallSession.receiving [smallHeader]) o ∧
    HeaderResult smallAppEnv (smallSession.receiving [smallHeader.take 17, smallHeader.drop 17]) o :=
  (header_chunks_agree_iff smallAppEnv smallSession _ _ (by decide +kernel) (by decide +kernel)
    (by decide +kernel)).mpr (.inl (by decide +kernel))

/-- The same header, whole and with its first byte on its own: taken over and rejected. -/
theorem header_short_first_chunk :
    [smallHeader].flatten = [smallHeader.take 1, smallHeader.drop 1].flatten ∧
    (∀ c ∈ [smallHeader], Chunk c) ∧ (∀ c ∈ [smallHeader.take 1, smallHeader.drop 1], Chunk c) ∧
    HeaderResult smallAppEnv (smallSession.receiving [smallHeader]) (.accepted [smallApp] (some [])) ∧
    HeaderResult smallAppEnv (smallSession.receiving [smallHeader.take 1, smallHeader.drop 1]) .rejected ∧
    ¬∃ o, HeaderResult smallAppEnv (smallSession.receiving [smallHeader]) o ∧
      HeaderResult smallAppEnv (smallSession.receiving [smallHeader.take 1, smallHeader.drop 1]) o := by
  have hrej := headerResult_short smallAppEnv smallSession [smallHeader.drop 1]
    (show Chunk (smallHeader.take 1) by decide) (by decide)
  have hacc : HeaderResult smallAppEnv (smallSession.receiving [smallHeader]) (.accepted [smallApp] (some [])) :=
    ⟨2, by decide +kernel, by decide +kernel⟩
  refine ⟨by decide +kernel, by decide +kernel, by decide +kernel, hacc, hrej, ?_⟩
  rintro ⟨o, h, h'⟩
  cases hacc.unique h
  cases hrej.unique h'

end Qcc730.Upgrade
