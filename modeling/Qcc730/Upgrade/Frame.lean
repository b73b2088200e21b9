import Qcc730.Upgrade.Images

/-! What the rest of a session leaves alone.

    Only the reception of an image opens one and writes its bytes. Every other operation only adds writes to the
    log of the device, and where no image is open none is open afterwards. -/

namespace Qcc730.Upgrade
open Lib Flash

/-! ### The device only gets writes -/

/-- The device of `s'` is that of `s` after some writes. -/
def Fu.Extends (s s' : Fu) : Prop := ∃ ws, s'.dev = s.dev.writes ws

theorem Fu.Extends.refl (s : Fu) : s.Extends s := ⟨[], (Dev.writes_nil _).symm⟩

theorem Fu.Extends.of_dev {s s' : Fu} (h : s'.dev = s.dev) : s.Extends s' := ⟨[], by rw [h, Dev.writes_nil]⟩

theorem Fu.Extends.trans {s t u : Fu} (h : s.Extends t) (h' : t.Extends u) : s.Extends u := by
  obtain ⟨ws, hw⟩ := h
  obtain ⟨vs, hv⟩ := h'
  exact ⟨ws ++ vs, by rw [hv, hw, Dev.writes_append]⟩

theorem findPartition_extends (f id : ℕ) : (fwUpgradeFindPartition f id).Moves Fu.Extends :=
  fun s => .of_dev (findPartition_dev f id s)

theorem createPartition_extends (f id version start size : ℕ) :
    (fwUpgradeCreatePartition f id version start size).Moves Fu.Extends := by
  intro s
  rcases createPartition_cases f id version start size s with ⟨e, h⟩ | ⟨h, -, -, -, -, -, heq⟩
  · rw [h]
    exact .refl s
  · rw [heq]
    exact ⟨_, rfl⟩

theorem erasePartition_extends (h o n : ℕ) : (fwUpgradeErasePartition h o n).Moves Fu.Extends := by
  intro s
  rcases erasePartition_cases h o n s with ⟨r, heq, -⟩ | ⟨-, -, -, -, -, -, -, heq⟩
  · rw [heq]
    exact .refl s
  · rw [heq]
    exact ⟨_, rfl⟩

theorem writePartition_extends (h o : ℕ) (b : Bytes) : (fwUpgradeWritePartition h o b).Moves Fu.Extends := by
  intro s
  rcases writePartition_cases h o b s with ⟨e, heq⟩ | ⟨-, ⟨-, -, heq⟩ | ⟨-, -, heq⟩⟩
  · rw [heq]
    exact .refl s
  · rw [heq]
    exact ⟨_, rfl⟩
  · rw [heq]
    exact ⟨_, rfl⟩

theorem readPartition_extends (h o n : ℕ) : (fwUpgradeReadPartition h o n).Moves Fu.Extends :=
  fun s => .of_dev (by rw [readPartition_state])

theorem setFwdInfo_extends (f : ℕ) (info : FwdInfo) (v : ℕ) : (fwUpgradeSetFwdInfo f info v).Moves Fu.Extends := by
  intro s
  rw [fwUpgradeSetFwdInfo]
  split
  · exact .refl s
  · rw [drvFlashWrite]
    by_cases hin : s.dev.InFlash (f * 4096 + info.offset) (info.encode v).length
    · rw [if_pos hin]
      exact ⟨_, rfl⟩
    · rw [if_neg hin]
      exact .refl s

theorem setSblTrialFde_extends (i v : ℕ) : (fwUpgradeSetSblTrialFde i v).Moves Fu.Extends := by
  intro s
  rw [fwUpgradeSetSblTrialFde]
  simp only
  split
  · exact .refl s
  split
  · exact .refl s
  · exact ⟨_, rfl⟩

theorem eraseFwd_extends (f : ℕ) : (fwUpgradeEraseFwd f).Moves Fu.Extends := by
  intro s
  rcases eraseFwd_cases f s with ⟨e, heq⟩ | ⟨-, heq⟩
  · rw [heq]
    exact .refl s
  · rw [heq]
    exact ⟨_, rfl⟩

theorem rehash_state (h : ℕ) : ∀ (n o l : ℕ) (acc : Bytes) (s : Fu), (rehash h n o l acc s).2 = s
  | 0, _, _, _, _ => rfl
  | n + 1, o, l, acc, s => by
    rw [rehash]
    split
    · rfl
    · have hr := readPartition_state h o (min l fwUpgradeBufSize) s
      rcases hs : fwUpgradeReadPartition h o (min l fwUpgradeBufSize) s with ⟨e | b, s'⟩ <;> rw [hs] at hr
      · rw [Cmd.bind_error hs]
        exact hr
      · rw [Cmd.bind_ok hs, rehash_state]
        exact hr

/-- A resumed session opens the first entry with the id of its image. -/
theorem resumeService_cases (env : Env) (s : Session) :
    (∃ e s', resumeService env s = (.error e, s') ∧ s'.fu.dev = s.fu.dev) ∨
    ∃ k i en d,
      findEntry (s.fu.dev.mem.fwd s.cxt.trialFwdIdx) (s.cxt.hdrAt env s.cxt.imageIndex).imageId = some (i, en) ∧
      resumeService env s = (.ok (), { s with
        fu := s.fu.setHandle k (clientOf s.cxt.trialFwdIdx i en)
        cxt := { s.cxt with partitionHdl := some k, state := .resumeServer, digest := d } }) := by
  rw [resumeService, Cmd.bind_ok (Cmd.gets_apply _ _), Cmd.bind_ok (Cmd.gets_apply _ _)]
  rcases openPartition_cases s.cxt.trialFwdIdx (s.cxt.hdrAt env s.cxt.imageIndex).imageId .flashImageNotFound s with
    heq | ⟨k, i, en, -, -, -, hfind, heq⟩
  · exact .inl ⟨_, _, Cmd.bind_error heq, rfl⟩
  rw [Cmd.bind_ok heq, Cmd.bind_ok (Cmd.gets_apply _ _), Cmd.bind_ok (Cmd.gets_apply _ _)]
  set s₁ : Session := { s with
    fu := s.fu.setHandle k (clientOf s.cxt.trialFwdIdx i en), cxt := { s.cxt with partitionHdl := some k } } with hs₁
  have hre := rehash_state (s₁.cxt.partitionHdl.getD 0) s₁.cxt.imageWrtCount 0 s₁.cxt.imageWrtCount [] s₁.fu
  rcases hrr : rehash (s₁.cxt.partitionHdl.getD 0) s₁.cxt.imageWrtCount 0 s₁.cxt.imageWrtCount [] s₁.fu with ⟨r, fu'⟩
  rw [hrr] at hre
  have hatt : (Cmd.attempt (onFu (rehash (s₁.cxt.partitionHdl.getD 0) s₁.cxt.imageWrtCount 0 s₁.cxt.imageWrtCount [])) :
      Cmd Session FuStatus (Except FuStatus Bytes)) s₁ = (.ok r, s₁) := by
    rw [Cmd.attempt, onFu, Cmd.zoom, hrr]
    simp only at hre ⊢
    rw [hre]
  rw [Cmd.bind_ok hatt, Cmd.bind_ok (Cmd.modify_apply _ _)]
  rcases r with e | d
  · exact .inl ⟨_, _, rfl, rfl⟩
  · exact .inr ⟨k, i, en, d, hfind, rfl⟩

/-- The connection is opened again. -/
theorem resumeServer_cases (s : Session) : ∃ sc, (∃ e, resumeServer s = (.error e, { s with script := sc })) ∨
    resumeServer s = (.ok (), { s with script := sc, cxt := { s.cxt with state := .receiveData } }) := by
  rw [resumeServer, Cmd.bind_apply, connect]
  rcases hc : s.script.connects with _ | ⟨_ | _, cs⟩
  · exact ⟨s.script, .inr rfl⟩
  · exact ⟨{ s.script with connects := cs }, .inl ⟨_, rfl⟩⟩
  · exact ⟨{ s.script with connects := cs }, .inr rfl⟩

theorem copyBlocks_extends (src dst : ℕ) : ∀ (os : List ℕ) (buf : Bytes) (s : Fu),
    s.Extends (copyBlocks src dst os buf s).2
  | [], buf, s => .refl s
  | o :: os, buf, s => by
    rw [copyBlocks]
    have he := erasePartition_extends dst o 4096 s
    rcases hs : fwUpgradeErasePartition dst o 4096 s with ⟨e | u, s₁⟩ <;> rw [hs] at he
    · simp only
      exact he
    · simp only
      set b := ((fwUpgradeReadPartition src o 4096 s).1.toOption).getD buf
      have hw := writePartition_extends dst o b s₁
      rcases hs' : fwUpgradeWritePartition dst o b s₁ with ⟨e | u, s₂⟩ <;> rw [hs'] at hw
      · exact he.trans hw
      · exact (he.trans hw).trans (copyBlocks_extends src dst os b s₂)

theorem copyFs_extends (src dst : ℕ) : ∀ os : List ℕ, (copyFs src dst os).Moves Fu.Extends
  | [] => .pure .refl _
  | o :: os =>
    .bind .trans ((readPartition_extends src o 4096).orFail _) fun _ =>
      .bind .trans ((erasePartition_extends dst o 4096).orFail _) fun _ =>
        .bind .trans ((writePartition_extends dst o _).orFail _) fun _ => copyFs_extends src dst os

theorem processDuplicateFs_extends (active : ℕ) : (fwUpgradeProcessDuplicateFs active).Moves Fu.Extends := by
  intro s
  rw [fwUpgradeProcessDuplicateFs]
  have h₁ := findPartition_extends active fs1ImgId s
  rcases hs₁ : fwUpgradeFindPartition active fs1ImgId s with ⟨e | k₁, s₁⟩ <;> rw [hs₁] at h₁
  · exact h₁
  simp only
  have h₂ := findPartition_extends active fs2ImgId s₁
  rcases hs₂ : fwUpgradeFindPartition active fs2ImgId s₁ with ⟨e | k₂, s₂⟩ <;> rw [hs₂] at h₂
  · exact h₁.trans h₂
  · exact (h₁.trans h₂).trans (copyFs_extends k₁ k₂ _ s₂)

/-! ### No image is open -/

/-- The context while no image is open. -/
structure Cxt.Idle (c : Cxt) : Prop where
  lengths : ∀ h ∈ c.imageHdr, h.imageLength < 2 ^ 32
  buffer : c.buffer.length ≤ fwUpgradeBufSize
  processing : c.state = .processImage → c.buffer ≠ [] ∧ c.isFirst = false
  closed : c.imageWrtLength = 0

/-- From `s` to `s'` the device only got writes and no image was opened. -/
structure Aside (s s' : Session) : Prop where
  dev : s.fu.Extends s'.fu
  idle : s.cxt.Idle → s'.cxt.Idle

theorem Aside.refl (s : Session) : Aside s s := ⟨.refl _, id⟩

theorem Aside.trans {s t u : Session} (h : Aside s t) (h' : Aside t u) : Aside s u :=
  ⟨h.dev.trans h'.dev, fun hi => h'.idle (h.idle hi)⟩

/-- Changing what an idle context does not speak about. -/
theorem Aside.cxt {s : Session} {c : Cxt} (hh : c.imageHdr = s.cxt.imageHdr) (hb : c.buffer = s.cxt.buffer)
    (hl : c.imageWrtLength = s.cxt.imageWrtLength)
    (hs : c.state ≠ .processImage ∨ c.state = s.cxt.state ∧ c.isFirst = s.cxt.isFirst) :
    Aside s { s with cxt := c } := by
  refine ⟨.refl _, fun hi => ⟨by rw [hh]; exact hi.lengths, by rw [hb]; exact hi.buffer, ?_, hl.trans hi.closed⟩⟩
  intro hp
  rcases hs with hne | ⟨hst, hf⟩
  · exact absurd hp hne
  · rw [hb, hf]
    exact hi.processing (hst ▸ hp)

theorem Aside.fu {s : Session} {fu' : Fu} (h : s.fu.Extends fu') : Aside s { s with fu := fu' } := ⟨h, id⟩

theorem onFu_aside {α : Type} {c : Cmd Fu FuStatus α} (h : c.Moves Fu.Extends) : (onFu c).Moves Aside :=
  h.zoom fun _ _ => Aside.fu

theorem Session.setState_aside (s : Session) {t : State} (ht : t ≠ .processImage) : Aside s (s.setState t) :=
  .cxt rfl rfl rfl (.inl ht)

theorem Session.freePartitionHdl_aside (s : Session) : Aside s s.freePartitionHdl := by
  refine ⟨.of_dev s.freePartitionHdl_dev, fun hi => ?_⟩
  rw [Session.freePartitionHdl_cxt]
  exact ⟨hi.lengths, hi.buffer, hi.processing, hi.closed⟩

theorem moves_setState {t : State} (ht : t ≠ .processImage) :
    (Cmd.modify (fun s => s.setState t) : Cmd Session FuStatus Unit).Moves Aside :=
  fun s => s.setState_aside ht

theorem moves_freePartitionHdl : (Cmd.modify Session.freePartitionHdl : Cmd Session FuStatus Unit).Moves Aside :=
  Session.freePartitionHdl_aside

theorem openPartition_aside (f id : ℕ) (e : FuStatus) : (openPartition f id e).Moves Aside :=
  .bind .trans ((onFu_aside (findPartition_extends f id)).orFail e) fun _ =>
    .bind .trans (.modify fun _ => .cxt rfl rfl rfl (.inr ⟨rfl, rfl⟩)) fun _ => .gets .refl _

theorem locatePartition_aside (id : ℕ) (e : FuStatus) : (locatePartition id e).Moves Aside :=
  .bind .trans (.gets .refl _) fun _ => .bind .trans (openPartition_aside _ _ _) fun _ =>
    .bind .trans moves_freePartitionHdl fun _ => .pure .refl _

theorem create_aside (id version start size : ℕ) : (createPartition id version start size).Moves Aside :=
  .bind .trans (.gets .refl _) fun _ =>
    .bind .trans ((onFu_aside (createPartition_extends _ id version start size)).orFail _) fun _ =>
      .modify fun _ => .cxt rfl rfl rfl (.inr ⟨rfl, rfl⟩)

theorem erase_aside (offset nbytes : ℕ) : (erasePartition offset nbytes).Moves Aside := by
  refine .bind .trans (.gets .refl _) fun hdl => ?_
  cases hdl with
  | none => exact .fail .refl _
  | some h => exact (onFu_aside (erasePartition_extends h offset nbytes)).orFail _

theorem createHidden_aside (id : ℕ) (c : Client) : (createHidden id c).Moves Aside :=
  .bind .trans (create_aside _ _ _ _) fun _ => .modify fun s =>
    (show Aside s (s.setCxt fun c => { c with hiddenImagesCount := c.hiddenImagesCount + 1 }) from
      .cxt rfl rfl rfl (.inr ⟨rfl, rfl⟩)).trans (Session.freePartitionHdl_aside _)

/-! ### The states of the worker -/

theorem getTrialInfo_aside (env : Env) : (getTrialInfo env).Moves Aside :=
  .bind .trans ((onFu_aside fun s => .of_dev (selectTrialFwd_dev env.cfg s)).orFail _) fun _ =>
    .bind .trans (.modify fun _ => .cxt rfl rfl rfl (.inr ⟨rfl, rfl⟩)) fun _ =>
      .bind .trans (.ensure .refl _ _) fun _ => moves_setState (by decide)

theorem eraseFwd_aside (env : Env) : (eraseFwd env).Moves Aside :=
  .bind .trans (.gets .refl _) fun _ => .bind .trans ((onFu_aside (eraseFwd_extends _)).orFail _) fun _ =>
    moves_setState (by split <;> decide)

theorem eraseSecondFs_aside : eraseSecondFs.Moves Aside :=
  .bind .trans (.gets .refl _) fun _ => .bind .trans (openPartition_aside _ _ _) fun _ =>
    .bind .trans (erase_aside _ _) fun _ => .modify fun s =>
      s.freePartitionHdl_aside.trans (Session.setState_aside _ (by decide))

theorem prepareRamdump_aside : prepareRamdump.Moves Aside := by
  refine .bind .trans (.gets .refl _) fun active => .bind .trans (openPartition_aside _ _ _).attempt fun r => ?_
  cases r with
  | error e => exact .pure .refl _
  | ok c =>
    exact .bind .trans (.gets .refl _) fun _ =>
      .bind .trans ((onFu_aside (readPartition_extends _ _ _)).orFail _) fun _ =>
        .bind .trans (.when .refl (erase_aside _ _)) fun _ =>
          .bind .trans moves_freePartitionHdl fun _ => createHidden_aside _ _

theorem prepareUserdata_aside : prepareUserdata.Moves Aside := by
  refine .bind .trans (locatePartition_aside _ _).attempt fun r => ?_
  cases r with
  | error e => exact .pure .refl _
  | ok c => exact createHidden_aside _ _

theorem prepareFs_aside (env : Env) : (prepareFs env).Moves Aside :=
  .bind .trans (.when .refl (.bind .trans (locatePartition_aside _ _) fun _ => createHidden_aside _ _)) fun _ =>
    .bind .trans prepareRamdump_aside fun _ => .bind .trans prepareUserdata_aside fun _ => moves_setState (by decide)

theorem createFs1_aside (h : ImageHdr) : (createFs1 h).Moves Aside :=
  .bind .trans (locatePartition_aside _ _) fun _ => .bind .trans (.ensure .refl _ _) fun _ => create_aside _ _ _ _

theorem prepareConnect_aside (env : Env) : (prepareConnect env).Moves Aside := by
  refine .bind .trans (.gets .refl _) fun b => .ite (moves_setState (by decide)) ?_
  refine .bind .trans (.modify fun _ => .cxt rfl rfl rfl (.inr ⟨rfl, rfl⟩)) fun _ => ?_
  refine .bind .trans (.gets .refl _) fun h => .ite ?_ (.modify fun s => s.setState_aside (by split <;> decide))
  refine .bind .trans (createFs1_aside h) fun _ => .modify fun s => ?_
  exact s.freePartitionHdl_aside.trans (.cxt rfl rfl rfl (.inr ⟨rfl, rfl⟩))

theorem connect_aside : connect.Moves Aside := by
  intro s
  rw [connect]
  split <;> exact ⟨.refl _, id⟩

theorem connectServer_aside : connectServer.Moves Aside :=
  .bind .trans (.modify fun _ => .cxt rfl rfl rfl (.inr ⟨rfl, rfl⟩)) fun _ => .bind .trans connect_aside fun _ =>
    moves_setState (by decide)

theorem resumeServer_aside : resumeServer.Moves Aside :=
  .bind .trans connect_aside fun _ => moves_setState (by decide)

theorem resumeService_aside (env : Env) : (resumeService env).Moves Aside := by
  refine .bind .trans (.gets .refl _) fun trial => .bind .trans (.gets .refl _) fun h => ?_
  refine .bind .trans (openPartition_aside _ _ _) fun c => .bind .trans (.gets .refl _) fun hdl => ?_
  refine .bind .trans (.gets .refl _) fun count => ?_
  refine .bind .trans (onFu_aside fun s => .of_dev (by rw [rehash_state])).attempt fun r => ?_
  refine .bind .trans (moves_setState (by decide)) fun _ => ?_
  cases r with
  | ok b => exact .modify fun _ => .cxt rfl rfl rfl (.inr ⟨rfl, rfl⟩)
  | error e => exact .fail .refl _

theorem receiveData_aside : receiveData.Moves Aside := by
  intro s
  rw [receiveData]
  split
  · exact .refl s
  · exact ⟨.refl _, id⟩
  · simp only
    split
    · exact ⟨.refl _, id⟩
    · rename_i b ps _ hne
      refine ⟨.refl _, fun hi => ⟨hi.lengths, ?_, ?_, hi.closed⟩⟩
      · show (b.take fwUpgradeBufSize).length ≤ fwUpgradeBufSize
        rw [List.length_take]
        omega
      · show (if s.cxt.isFirst = true then State.processConfigFile else State.processImage) = _ → _ ≠ _ ∧ s.cxt.isFirst = _
        cases hf : s.cxt.isFirst with
        | true => simp
        | false => exact fun _ => ⟨hne, rfl⟩

/-! ### The header -/

/-- Collecting the header keeps the images and the buffer. -/
theorem Cxt.receiveConfig_keeps (c : Cxt) : c.receiveConfig.2.imageHdr = c.imageHdr ∧
    c.receiveConfig.2.buffer = c.buffer ∧ c.receiveConfig.2.imageWrtLength = c.imageWrtLength ∧
    c.receiveConfig.2.isFirst = c.isFirst ∧
    (c.receiveConfig.2.state = .receiveData ∨ c.receiveConfig.2.state = c.state) := by
  rw [Cxt.receiveConfig]
  cases c.configBuf with
  | none =>
    simp only
    split
    · exact ⟨rfl, rfl, rfl, rfl, .inr rfl⟩
    split
    · exact ⟨rfl, rfl, rfl, rfl, .inr rfl⟩
    split
    · exact ⟨rfl, rfl, rfl, rfl, .inr rfl⟩
    split
    · exact ⟨rfl, rfl, rfl, rfl, .inr rfl⟩
    split
    · exact ⟨rfl, rfl, rfl, rfl, .inl rfl⟩
    · exact ⟨rfl, rfl, rfl, rfl, .inr rfl⟩
  | some b =>
    simp only
    split
    · exact ⟨rfl, rfl, rfl, rfl, .inl rfl⟩
    · exact ⟨rfl, rfl, rfl, rfl, .inr rfl⟩

theorem Cxt.receiveConfig_idle {c : Cxt} (h : c.Idle) : c.receiveConfig.2.Idle := by
  obtain ⟨hh, hb, hl, hf, hs⟩ := c.receiveConfig_keeps
  refine ⟨by rw [hh]; exact h.lengths, by rw [hb]; exact h.buffer, fun hp => ?_, hl.trans h.closed⟩
  rcases hs with hst | hst
  · rw [hst] at hp
    cases hp
  · rw [hb, hf]
    exact h.processing (hst ▸ hp)

theorem nextStage_aside (env : Env) : (nextStage env).Moves Aside := by
  intro s
  rw [nextStage]
  split
  · refine ⟨.refl _, fun hi => ⟨hi.lengths, hi.buffer, ?_, hi.closed⟩⟩
    show (if s.cxt.buffer.length ≤ s.cxt.bufOffset then State.receiveData else State.processImage) = _ → _
    intro hst
    split at hst
    · cases hst
    · rename_i hlt
      exact ⟨fun he => hlt (by rw [show s.cxt.buffer = [] from he]; simp), rfl⟩
  · refine ⟨.of_dev (downloadFlags_dev env _ _ _), fun hi => ⟨hi.lengths, hi.buffer, ?_, hi.closed⟩⟩
    intro hst
    cases hst

theorem configured_idle {s : Session} (h : s.cxt.Idle) (hst : s.cxt.state ≠ .processImage) (b : Bytes)
    (i start size : ℕ) : (s.configured b i start size).cxt.Idle := by
  refine ⟨?_, h.buffer, fun hp => absurd hp hst, h.closed⟩
  intro x hx
  obtain ⟨y, hy, rfl⟩ := List.mem_map.mp hx
  rw [ImageHdr.adjust_imageLength]
  exact imageHdrs_length_lt hy

/-- The header only adds writes to the log and opens no image. -/
theorem processConfigFile_aside (env : Env) (s : Session) : s.fu.Extends (fwUpgradeProcessConfigFile env s).2.fu ∧
    (s.cxt.Idle → s.cxt.state = .processConfigFile → (fwUpgradeProcessConfigFile env s).1 = .ok () →
      (fwUpgradeProcessConfigFile env s).2.cxt.Idle) := by
  rw [fwUpgradeProcessConfigFile]
  have hidle : s.cxt.Idle → s.cxt.receiveConfig.2.Idle := Cxt.receiveConfig_idle
  have hstate : s.cxt.state = .processConfigFile → s.cxt.receiveConfig.2.state ≠ .processImage :=
    fun h => by rcases s.cxt.receiveConfig_keeps.2.2.2.2 with h' | h' <;> rw [h'] <;> simp [h]
  rcases hr : s.cxt.receiveConfig with ⟨e | (_ | b), c⟩ <;> rw [hr] at hidle hstate
  · exact ⟨.refl _, fun _ _ h => by cases h⟩
  · exact ⟨.refl _, fun hi _ _ => hidle hi⟩
  · simp only
    rcases parseConfig_cases env { s with cxt := c } b with ⟨-, e, c', ws, heq, -⟩ | ⟨-, i, start, size, -, -, heq⟩
    · rw [heq]
      exact ⟨⟨ws, rfl⟩, fun _ _ h => by cases h⟩
    · obtain ⟨s', hs'⟩ := nextStage_ok env ({ s with cxt := c }.configured b i start size)
      have ha := nextStage_aside env ({ s with cxt := c }.configured b i start size)
      rw [hs'] at ha
      rw [heq, hs']
      exact ⟨Fu.Extends.trans ⟨_, rfl⟩ ha.dev, fun hi hst _ => ha.idle (configured_idle (hidle hi) (hstate hst) b i start size)⟩

/-! ### Copies and the end -/

theorem duplicateLoop_aside : ∀ (hs : List (ℕ × ImageHdr)) (err : Option FuStatus) (buf : Bytes) (s : Session),
    Aside s (duplicateLoop hs err buf s).2
  | [], err, buf, s => .refl s
  | (i, h) :: hs, err, buf, s => by
    rw [duplicateLoop]
    split
    swap
    · exact duplicateLoop_aside hs err buf s
    have h₁ := findPartition_extends s.activeFwd h.imageId s.fu
    rcases hs₁ : fwUpgradeFindPartition s.activeFwd h.imageId s.fu with ⟨e | src, fu₁⟩ <;> rw [hs₁] at h₁
    · exact .fu h₁
    simp only
    have h₂ := createPartition_extends s.cxt.trialFwdIdx h.imageId h.version s.cxt.trialMemStart h.diskSize fu₁
    rcases hs₂ : fwUpgradeCreatePartition s.cxt.trialFwdIdx h.imageId h.version s.cxt.trialMemStart h.diskSize fu₁ with
      ⟨e | dst, fu₂⟩ <;> rw [hs₂] at h₂
    · exact .fu (h₁.trans h₂)
    · have h₃ := (h₁.trans h₂).trans (copyBlocks_extends src dst (blockOffsets h.diskSize) buf fu₂)
      refine Aside.trans ⟨h₃, fun hi => ?_⟩ (duplicateLoop_aside hs _ _ _)
      exact ⟨hi.lengths, hi.buffer, hi.processing, hi.closed⟩

theorem duplicateImages_aside (env : Env) : (duplicateImages env).Moves Aside := by
  intro s
  rw [duplicateImages]
  have h := duplicateLoop_aside ((List.range s.cxt.totalImages).map fun i => (i, s.cxt.hdrAt env i)) none
    ((List.range 4096).map env.heap) s
  rcases hs : duplicateLoop ((List.range s.cxt.totalImages).map fun i => (i, s.cxt.hdrAt env i)) none
    ((List.range 4096).map env.heap) s with ⟨_ | e, s'⟩ <;> rw [hs] at h
  · exact h.trans (s'.setState_aside (by decide))
  · exact h

theorem duplicateFs_aside : duplicateFs.Moves Aside :=
  .bind .trans (.when .refl (.bind .trans (.gets .refl _) fun _ => onFu_aside (processDuplicateFs_extends _))) fun _ =>
    moves_setState (by decide)

theorem validate_aside (s : Session) : Aside s s.validate := by
  rw [Session.validate]
  have h₁ := setFwdInfo_extends s.cxt.trialFwdIdx .status fwdStatusValid s.fu
  set fu₁ := (fwUpgradeSetFwdInfo s.cxt.trialFwdIdx .status fwdStatusValid s.fu).2
  have h₂ := findPartition_extends s.cxt.trialFwdIdx sblImgId fu₁
  rcases hs₂ : fwUpgradeFindPartition s.cxt.trialFwdIdx sblImgId fu₁ with ⟨e | k, fu₂⟩ <;> rw [hs₂] at h₂
  · simp only
    exact .fu (h₁.trans h₂)
  · simp only
    exact .fu ((h₁.trans h₂).trans (setSblTrialFde_extends _ _ fu₂))

/-- The switch of the worker in a state that receives no image. -/
theorem sessionSwitch_aside (env : Env) {s : Session} (hst : s.cxt.state ≠ .processImage) :
    s.fu.Extends (sessionSwitch env s).2.fu ∧
      ∀ b, (sessionSwitch env s).1 = .ok b → s.cxt.Idle → (sessionSwitch env s).2.cxt.Idle := by
  have hgo : ∀ {c : Cmd Session FuStatus Unit}, c.Moves Aside →
      s.fu.Extends ((c >>= fun _ => pure true : Cmd Session FuStatus Bool) s).2.fu ∧
        ∀ b, ((c >>= fun _ => pure true : Cmd Session FuStatus Bool) s).1 = .ok b → s.cxt.Idle →
          ((c >>= fun _ => pure true : Cmd Session FuStatus Bool) s).2.cxt.Idle := by
    intro c hc
    have hb : (c >>= fun _ => pure true : Cmd Session FuStatus Bool).Moves Aside :=
      .bind .trans hc fun _ => .pure .refl true
    have h := hb s
    exact ⟨h.dev, fun _ _ => h.idle⟩
  rw [sessionSwitch]
  cases hs : s.cxt.state with
  | notStart => exact hgo (moves_setState (by decide))
  | getTrialInfo => exact hgo (getTrialInfo_aside env)
  | eraseFwd => exact hgo (eraseFwd_aside env)
  | eraseFlash => exact ⟨.refl _, fun _ _ h => h⟩
  | eraseSecondFs => exact hgo eraseSecondFs_aside
  | prepareFs => exact hgo (prepareFs_aside env)
  | eraseImage => exact ⟨.refl _, fun _ _ h => h⟩
  | prepareConnect => exact hgo (prepareConnect_aside env)
  | connectServer => exact hgo connectServer_aside
  | resumeService => exact hgo (resumeService_aside env)
  | resumeServer => exact hgo resumeServer_aside
  | receiveData => exact ⟨(receiveData_aside s).dev, fun _ _ => (receiveData_aside s).idle⟩
  | disconnectServer => exact hgo (moves_setState (by decide))
  | processConfigFile =>
    obtain ⟨hd, hi⟩ := processConfigFile_aside env s
    simp only
    rcases hr : fwUpgradeProcessConfigFile env s with ⟨e | u, s'⟩ <;> rw [hr] at hd hi
    · rw [Cmd.bind_error hr]
      exact ⟨hd, fun b hb => by cases hb⟩
    · rw [Cmd.bind_ok hr]
      exact ⟨hd, fun _ _ hidle => hi hidle hs rfl⟩
  | processImage => exact absurd hs hst
  | duplicateImages => exact hgo (duplicateImages_aside env)
  | duplicateFs => exact hgo duplicateFs_aside
  | finish => exact ⟨.refl _, fun _ _ h => h⟩

end Qcc730.Upgrade
