import Qcc730.Lib.Reach
import Qcc730.Upgrade.Containment
import Qcc730.Upgrade.Frame

/-! Which entry of `fw_upgrade_image_hdr` the worker looks at.

    `image_index` moves in four places and is used as an index in five. A pass of the worker is taken with the
    indices it reads at; `Indexed` is what keeps them inside the array: while a server is talked to about an
    image, the index is one of an image. It fails after the last image, and after a resume from a state in which
    no image was being received. -/

namespace Qcc730.Upgrade
open Lib Flash

/-! ### The reads -/

/-- The entries that the passes of `fw_upgrade_process_receive_image` work on. -/
def receiveReads (env : Env) : ℕ → Session → List ℕ
  | 0, _ => []
  | n + 1, s =>
    if s.cxt.format ≠ formatPartialUpgrade ∧ s.cxt.buffer.length ≤ s.cxt.bufOffset then []
    else s.cxt.imageIndex ::
      match receivePass env s with
      | (.ok true, s') => receiveReads env n s'
      | _ => []

namespace Session

/-- The entries that the switch of `fw_upgrade_session_process` looks at, with `fw_upgrade_plugin_init` and
    `fw_upgrade_plugin_resume`, which take the name of the file from one. -/
def switchReads (env : Env) (s : Session) : List ℕ :=
  match s.cxt.state with
  | .prepareConnect =>
    if s.cxt.isFirst then [] else [nextDownload s.cxt.downloadFlag s.cxt.imageIndex s.cxt.totalImages]
  | .connectServer => if s.cxt.isFirst then [] else [s.cxt.imageIndex]
  | .resumeService => [s.cxt.imageIndex]
  | .resumeServer => if s.cxt.format = formatPartialUpgrade ∧ s.cxt.isFirst = false then [s.cxt.imageIndex] else []
  | .processImage => receiveReads env (s.cxt.buffer.length + s.cxt.totalImages + 2) s
  | _ => []

/-- What happens to a session: the worker makes a pass, or a suspended session is resumed. -/
inductive Turn where
  | pass
  | resume (script : Script)

def turn (env : Env) (s : Session) : Turn → Session
  | .pass => s.step env
  | .resume script => s.resume script

/-- The worker makes a pass through the switch, in the given state. -/
def Switches (s : Session) (t : State) : Prop :=
  s.phase = .process ∧ s.poll.cxt.sessionStatus = .running ∧ s.cxt.state = t

instance (s : Session) (t : State) : Decidable (s.Switches t) := inferInstanceAs (Decidable (_ ∧ _ ∧ _))

/-- The entries that a turn looks at. -/
def turnReads (env : Env) (s : Session) : Turn → List ℕ
  | .pass => if s.phase = .process ∧ s.poll.cxt.sessionStatus = .running then s.poll.switchReads env else []
  | .resume _ => []

/-- Every entry looked at is one of an image, in an array that is allocated. -/
def InRange (env : Env) (s : Session) (t : Turn) : Prop :=
  ∀ i ∈ s.turnReads env t, s.cxt.imageHdr ≠ [] ∧ i < s.cxt.totalImages

instance (env : Env) (s : Session) (t : Turn) : Decidable (s.InRange env t) := inferInstanceAs (Decidable (∀ i ∈ _, _))

/-- `PREPARE_CONNECT` after the header finds an image to download; a session is resumed before it was past
    `CONNECT_SERVER`, or with the entries allocated and an image not done. -/
def Sound (s : Session) : Turn → Prop
  | .pass => s.Switches .prepareConnect → s.cxt.isFirst = false →
      ∃ i < s.cxt.totalImages, s.cxt.imageIndex ≤ i ∧ s.cxt.downloadFlag i = true
  | .resume _ => s.cxt.sessionStatus = .suspend → s.cxt.state.ctorIdx < State.resumeService.ctorIdx ∨
      s.cxt.imageHdr ≠ [] ∧ s.cxt.imageIndex < s.cxt.totalImages

instance (s : Session) : ∀ t, Decidable (s.Sound t)
  | .pass => inferInstanceAs (Decidable (_ → _ → _))
  | .resume _ => inferInstanceAs (Decidable (_ → _ ∨ _))

end Session

/-! ### What keeps the index in range -/

/-- The states in which an image is received, or is about to be. -/
def State.receiving : List State := [.connectServer, .receiveData, .processImage]

/-- The states of a session that was resumed. -/
def State.resuming : List State := [.resumeService, .resumeServer]

/-- The states that the index matters in, now or later. -/
def State.indexing : List State := receiving ++ resuming ++ [.processConfigFile]

/-- The index is that of an image where it is used as one. -/
structure Cxt.Indexed (c : Cxt) : Prop where
  first : c.isFirst = true → c.imageIndex = 0 ∧ c.state ≠ .processImage ∧ c.Collected
  config : c.state = .processConfigFile → c.isFirst = true
  hdrs : c.isFirst = false → c.imageHdr ≠ []
  receiving : c.isFirst = false → c.state ∈ State.receiving → c.imageIndex < c.totalImages
  resuming : c.state ∈ State.resuming → c.imageHdr ≠ [] ∧ c.imageIndex < c.totalImages

/-- Between `s` and `s'` the images are the same and the same one is current. -/
structure Steady (s s' : Session) : Prop where
  isFirst : s'.cxt.isFirst = s.cxt.isFirst
  index : s'.cxt.imageIndex = s.cxt.imageIndex
  total : s'.cxt.totalImages = s.cxt.totalImages
  hdrs : s'.cxt.imageHdr = s.cxt.imageHdr
  format : s'.cxt.format = s.cxt.format
  state : s'.cxt.state = s.cxt.state

theorem Steady.refl (s : Session) : Steady s s := ⟨rfl, rfl, rfl, rfl, rfl, rfl⟩

theorem Steady.trans {s t u : Session} (h : Steady s t) (h' : Steady t u) : Steady s u :=
  ⟨h'.isFirst.trans h.isFirst, h'.index.trans h.index, h'.total.trans h.total, h'.hdrs.trans h.hdrs,
    h'.format.trans h.format, h'.state.trans h.state⟩

/-- Nor has anything of the header been collected. -/
structure Still (s s' : Session) : Prop extends Steady s s' where
  config : s'.cxt.configBuf = s.cxt.configBuf
  count : s'.cxt.imageWrtCount = s.cxt.imageWrtCount

theorem Still.refl (s : Session) : Still s s := ⟨.refl s, rfl, rfl⟩

theorem Still.trans {s t u : Session} (h : Still s t) (h' : Still t u) : Still s u :=
  ⟨h.toSteady.trans h'.toSteady, h'.config.trans h.config, h'.count.trans h.count⟩

theorem Still.of_cxt {s s' : Session} (h : s'.cxt = s.cxt) : Still s s' := by
  refine ⟨⟨?_, ?_, ?_, ?_, ?_, ?_⟩, ?_, ?_⟩ <;> rw [h]

/-- The images are the same and the same one is current; the state of the worker may be another one. -/
structure Near (s s' : Session) : Prop where
  isFirst : s'.cxt.isFirst = s.cxt.isFirst
  index : s'.cxt.imageIndex = s.cxt.imageIndex
  total : s'.cxt.totalImages = s.cxt.totalImages
  hdrs : s'.cxt.imageHdr = s.cxt.imageHdr
  collected : s.cxt.Collected → s'.cxt.Collected

/-- The same, and the other state is one that makes no use of the index. -/
structure Aloof (s s' : Session) : Prop extends Near s s' where
  state : s'.cxt.state = s.cxt.state ∨ s'.cxt.state ∉ State.indexing

theorem collected_congr {c c' : Cxt} (hb : c'.configBuf = c.configBuf) (hn : c'.imageWrtCount = c.imageWrtCount)
    (hf : c'.format = c.format) (h : c.Collected) : c'.Collected := by
  refine ⟨fun b hc => ?_⟩
  rw [hn, hf]
  exact h.pre b (hb ▸ hc)

theorem Still.near {s s' : Session} (h : Still s s') : Near s s' :=
  ⟨h.isFirst, h.index, h.total, h.hdrs, collected_congr h.config h.count h.format⟩

theorem Still.aloof {s s' : Session} (h : Still s s') : Aloof s s' := ⟨h.near, .inl h.state⟩

theorem Near.trans {s t u : Session} (h : Near s t) (h' : Near t u) : Near s u :=
  ⟨h'.isFirst.trans h.isFirst, h'.index.trans h.index, h'.total.trans h.total, h'.hdrs.trans h.hdrs,
    fun hc => h'.collected (h.collected hc)⟩

theorem Aloof.refl (s : Session) : Aloof s s := (Still.refl s).aloof

theorem Aloof.trans {s t u : Session} (h : Aloof s t) (h' : Aloof t u) : Aloof s u := by
  refine ⟨h.toNear.trans h'.toNear, ?_⟩
  rcases h'.state with hs | hs
  · rw [hs]
    exact h.state
  · exact .inr hs

theorem Near.setState (s : Session) (t : State) : Near s (s.setState t) :=
  ⟨rfl, rfl, rfl, rfl, collected_congr rfl rfl rfl⟩

theorem Aloof.setState (s : Session) {t : State} (ht : t ∉ State.indexing) : Aloof s (s.setState t) := ⟨.setState s t, .inr ht⟩

/-- The index stays in range when it was for the state that is entered. -/
theorem Cxt.Indexed.near {s s' : Session} (h : s.cxt.Indexed) (hn : Near s s')
    (hp : s.cxt.isFirst = true → s'.cxt.state ≠ .processImage) (hc : s'.cxt.state = .processConfigFile → s.cxt.isFirst = true)
    (hr : s.cxt.isFirst = false → s'.cxt.state ∈ State.receiving → s.cxt.imageIndex < s.cxt.totalImages)
    (hs : s'.cxt.state ∈ State.resuming → s.cxt.imageHdr ≠ [] ∧ s.cxt.imageIndex < s.cxt.totalImages) : s'.cxt.Indexed := by
  refine ⟨fun hf => ?_, fun hst => hn.isFirst.trans (hc hst), fun hf => ?_, fun hf hm => ?_, fun hm => ?_⟩
  · rw [hn.isFirst] at hf
    obtain ⟨h₁, -, h₃⟩ := h.first hf
    exact ⟨hn.index.trans h₁, hp hf, hn.collected h₃⟩
  · rw [hn.hdrs]
    exact h.hdrs (hn.isFirst ▸ hf)
  · rw [hn.index, hn.total]
    exact hr (hn.isFirst ▸ hf) hm
  · rw [hn.index, hn.total, hn.hdrs]
    exact hs hm

/-- An aloof change keeps the index in range. -/
theorem Cxt.Indexed.aloof {s s' : Session} (h : s.cxt.Indexed) (ha : Aloof s s') : s'.cxt.Indexed := by
  have hst : ∀ t ∈ State.indexing, s'.cxt.state = t → s.cxt.state = t := by
    rintro t ht rfl
    rcases ha.state with hs | hs
    · exact hs.symm
    · exact absurd ht hs
  refine h.near ha.toNear (fun hf hp => ?_) (fun hc => ?_) (fun hf hm => ?_) fun hm => ?_
  · exact (h.first hf).2.1 (hst _ (by decide) hp)
  · exact h.config (hst _ (by decide) hc)
  · exact h.receiving hf (hst _ (List.mem_append_left _ (List.mem_append_left _ hm)) rfl ▸ hm)
  · exact h.resuming (hst _ (List.mem_append_left _ (List.mem_append_right _ hm)) rfl ▸ hm)

/-! ### Operations that leave the index alone -/

theorem onFu_still {α : Type} (c : Cmd Fu FuStatus α) : (onFu c).Moves Still := fun _ => .of_cxt rfl

theorem freePartitionHdl_still (s : Session) : Still s s.freePartitionHdl := by
  rw [Session.freePartitionHdl]
  split
  · exact .refl s
  · exact ⟨⟨rfl, rfl, rfl, rfl, rfl, rfl⟩, rfl, rfl⟩

theorem openPartition_still (f id : ℕ) (e : FuStatus) : (openPartition f id e).Moves Still :=
  .bind .trans ((onFu_still _).orFail e) fun _ =>
    .bind .trans (.modify fun _ => ⟨⟨rfl, rfl, rfl, rfl, rfl, rfl⟩, rfl, rfl⟩) fun _ => .gets .refl _

theorem locatePartition_still (id : ℕ) (e : FuStatus) : (locatePartition id e).Moves Still :=
  .bind .trans (.gets .refl _) fun _ => .bind .trans (openPartition_still _ _ _) fun _ =>
    .bind .trans (.modify freePartitionHdl_still) fun _ => .pure .refl _

theorem create_still (id version start size : ℕ) : (createPartition id version start size).Moves Still :=
  .bind .trans (.gets .refl _) fun _ => .bind .trans ((onFu_still _).orFail _) fun _ =>
    .modify fun _ => ⟨⟨rfl, rfl, rfl, rfl, rfl, rfl⟩, rfl, rfl⟩

theorem erase_still (offset nbytes : ℕ) : (erasePartition offset nbytes).Moves Still := by
  refine .bind .trans (.gets .refl _) fun hdl => ?_
  cases hdl with
  | none => exact .fail .refl _
  | some h => exact (onFu_still _).orFail _

theorem write_still (offset : ℕ) (b : Bytes) : (writePartition offset b).Moves Still := by
  refine .bind .trans (.gets .refl _) fun hdl => ?_
  cases hdl with
  | none => exact .fail .refl _
  | some h => exact (onFu_still _).orFail _

theorem createHidden_still (id : ℕ) (c : Client) : (createHidden id c).Moves Still :=
  .bind .trans (create_still _ _ _ _) fun _ => .modify fun s =>
    (show Still s (s.setCxt fun c => { c with hiddenImagesCount := c.hiddenImagesCount + 1 }) from
      ⟨⟨rfl, rfl, rfl, rfl, rfl, rfl⟩, rfl, rfl⟩).trans (freePartitionHdl_still _)

theorem createFs1_still (h : ImageHdr) : (createFs1 h).Moves Still :=
  .bind .trans (locatePartition_still _ _) fun _ => .bind .trans (.ensure .refl _ _) fun _ => create_still _ _ _ _

theorem aloof_of_still {α : Type} {c : Cmd Session FuStatus α} (h : c.Moves Still) : c.Moves Aloof :=
  fun s => (h s).aloof

theorem moves_setState_aloof {t : State} (ht : t ∉ State.indexing) :
    (Cmd.modify (fun s => s.setState t) : Cmd Session FuStatus Unit).Moves Aloof := fun s => .setState s ht

theorem getTrialInfo_aloof (env : Env) : (getTrialInfo env).Moves Aloof :=
  .bind .trans (aloof_of_still ((onFu_still _).orFail _)) fun _ =>
    .bind .trans (aloof_of_still (.modify fun _ => ⟨⟨rfl, rfl, rfl, rfl, rfl, rfl⟩, rfl, rfl⟩)) fun _ =>
      .bind .trans (.ensure .refl _ _) fun _ => moves_setState_aloof (by decide)

theorem eraseFwd_aloof (env : Env) : (eraseFwd env).Moves Aloof :=
  .bind .trans (.gets .refl _) fun _ => .bind .trans (aloof_of_still ((onFu_still _).orFail _)) fun _ =>
    moves_setState_aloof (by split <;> decide)

theorem eraseSecondFs_aloof : eraseSecondFs.Moves Aloof :=
  .bind .trans (.gets .refl _) fun _ => .bind .trans (aloof_of_still (openPartition_still _ _ _)) fun _ =>
    .bind .trans (aloof_of_still (erase_still _ _)) fun _ => .modify fun s =>
      (freePartitionHdl_still s).aloof.trans (.setState _ (by decide))

theorem prepareRamdump_still : prepareRamdump.Moves Still := by
  refine .bind .trans (.gets .refl _) fun active => .bind .trans (openPartition_still _ _ _).attempt fun r => ?_
  cases r with
  | error e => exact .pure .refl _
  | ok c =>
    exact .bind .trans (.gets .refl _) fun _ => .bind .trans ((onFu_still _).orFail _) fun _ =>
      .bind .trans (.when .refl (erase_still _ _)) fun _ =>
        .bind .trans (.modify freePartitionHdl_still) fun _ => createHidden_still _ _

theorem prepareUserdata_still : prepareUserdata.Moves Still := by
  refine .bind .trans (locatePartition_still _ _).attempt fun r => ?_
  cases r with
  | error e => exact .pure .refl _
  | ok c => exact createHidden_still _ _

theorem prepareFs_aloof (env : Env) : (prepareFs env).Moves Aloof :=
  .bind .trans (.when .refl (aloof_of_still (.bind .trans (locatePartition_still _ _) fun _ => createHidden_still _ _)))
    fun _ => .bind .trans (aloof_of_still prepareRamdump_still) fun _ =>
      .bind .trans (aloof_of_still prepareUserdata_still) fun _ => moves_setState_aloof (by decide)

theorem duplicateLoop_aloof : ∀ (hs : List (ℕ × ImageHdr)) (err : Option FuStatus) (buf : Bytes) (s : Session),
    Still s (duplicateLoop hs err buf s).2
  | [], err, buf, s => .refl s
  | (i, h) :: hs, err, buf, s => by
    rw [duplicateLoop]
    split
    swap
    · exact duplicateLoop_aloof hs err buf s
    split
    · exact .of_cxt rfl
    split
    · exact .of_cxt rfl
    · refine Still.trans ?_ (duplicateLoop_aloof hs _ _ _)
      exact ⟨⟨rfl, rfl, rfl, rfl, rfl, rfl⟩, rfl, rfl⟩

theorem duplicateImages_aloof (env : Env) : (duplicateImages env).Moves Aloof := by
  intro s
  rw [duplicateImages]
  have h := duplicateLoop_aloof ((List.range s.cxt.totalImages).map fun i => (i, s.cxt.hdrAt env i)) none
    ((List.range 4096).map env.heap) s
  rcases hs : duplicateLoop ((List.range s.cxt.totalImages).map fun i => (i, s.cxt.hdrAt env i)) none
    ((List.range 4096).map env.heap) s with ⟨_ | e, s'⟩ <;> rw [hs] at h
  · exact h.aloof.trans (.setState s' (by decide))
  · exact h.aloof

theorem duplicateFs_aloof : duplicateFs.Moves Aloof :=
  .bind .trans (.when .refl (aloof_of_still (.bind .trans (.gets .refl _) fun _ => onFu_still _))) fun _ =>
    moves_setState_aloof (by decide)

/-! ### The header -/

/-- The index and the state are the same. -/
def Unmoved (s s' : Session) : Prop :=
  s'.cxt.isFirst = s.cxt.isFirst ∧ s'.cxt.imageIndex = s.cxt.imageIndex ∧ s'.cxt.state = s.cxt.state

theorem Unmoved.refl (s : Session) : Unmoved s s := ⟨rfl, rfl, rfl⟩

theorem Unmoved.trans {s t u : Session} (h : Unmoved s t) (h' : Unmoved t u) : Unmoved s u :=
  ⟨h'.1.trans h.1, h'.2.1.trans h.2.1, h'.2.2.trans h.2.2⟩

theorem checkImageEntries_unmoved (hs : List ImageHdr) : (checkImageEntries hs).Moves Unmoved := by
  intro s
  rw [checkImageEntries]
  split <;> exact ⟨rfl, rfl, rfl⟩

theorem checkSpace_unmoved (env : Env) (t : Tally) : (checkSpace env t).Moves Unmoved := by
  refine .bind .trans (.ensure .refl _ _) fun _ => .bind .trans (.ensure .refl _ _) fun _ =>
    .bind .trans (.ensure .refl _ _) fun _ => .bind .trans ?_ fun _ => .ensure .refl _ _
  intro s
  rw [selectSblSlot]
  split <;> exact ⟨rfl, rfl, rfl⟩

theorem setTrialInfo_unmoved (info : FwdInfo) (v : ℕ) : (setTrialInfo info v).Moves Unmoved :=
  .bind .trans (.gets .refl _) fun _ => Cmd.Moves.orFail (fun _ => ⟨rfl, rfl, rfl⟩) _

/-- A header that is refused leaves the index alone. -/
theorem parseConfig_error {env : Env} {b : Bytes} {s s' : Session} {e : FuStatus} (h : parseConfig env b s = (.error e, s')) :
    Unmoved s s' := by
  have htr : ∀ {α : Type} {c : Cmd Session FuStatus α}, c.Moves Unmoved →
      Cmd.Triple (Unmoved s) c (fun _ => Unmoved s) (fun _ => Unmoved s) := fun hc => hc.keeps fun hr hs => hs.trans hr
  have hp : Cmd.Triple (Unmoved s) (parseConfig env b) (fun _ _ => True) (fun _ => Unmoved s) := by
    refine .bind (htr (.ensure .refl _ _)) fun _ => .bind (htr (setTrialInfo_unmoved _ _)) fun _ => ?_
    refine .bind (htr (setTrialInfo_unmoved _ _)) fun _ => .bind (htr (.gets .refl _)) fun hidden => ?_
    refine .bind (htr (setTrialInfo_unmoved _ _)) fun _ => .bind (htr (checkImageEntries_unmoved _)) fun t => ?_
    refine .bind (htr (checkSpace_unmoved env t)) fun _ => .bind (htr (.modify fun _ => ⟨rfl, rfl, rfl⟩)) fun _ => ?_
    intro s₁ _
    obtain ⟨s₂, h₂⟩ := nextStage_ok env s₁
    rw [h₂]
    trivial
  exact hp.error (.refl s) h

theorem imageHdrs_ne_nil {b : Bytes} {n : ℕ} (h : 0 < n) : (imageHdrs b n).map ImageHdr.adjust ≠ [] := by
  intro hc
  have hlen := congrArg List.length hc
  rw [List.length_map, imageHdrs, List.length_map, List.length_range, List.length_nil] at hlen
  omega

/-- After the header the first image is the current one. -/
theorem nextStage_indexed (env : Env) {s : Session} (hne : s.cxt.imageHdr ≠ []) (hlt : s.cxt.imageIndex < s.cxt.totalImages) :
    (nextStage env s).2.cxt.Indexed := by
  have hst : ∀ {c : Cxt}, c.isFirst = false → c.imageHdr ≠ [] → c.imageIndex < c.totalImages →
      c.state ≠ .processConfigFile → c.Indexed := by
    intro c hf hne hlt hst
    refine ⟨fun hc => ?_, fun hc => absurd hc hst, fun _ => hne, fun _ _ => hlt, fun _ => ⟨hne, hlt⟩⟩
    rw [hf] at hc
    cases hc
  rw [nextStage]
  split
  · refine hst rfl hne hlt ?_
    show (if s.cxt.buffer.length ≤ s.cxt.bufOffset then State.receiveData else State.processImage) ≠ _
    split <;> decide
  · exact hst rfl hne hlt (show State.disconnectServer ≠ _ by decide)

theorem processConfigFile_indexed (env : Env) {s : Session} (h : s.cxt.Indexed) (hst : s.cxt.state = .processConfigFile) :
    (fwUpgradeProcessConfigFile env s).2.cxt.Indexed := by
  have hf := h.config hst
  obtain ⟨hidx, -, hcol⟩ := h.first hf
  have hno : ∀ {c : Cxt}, c.isFirst = true → c.imageIndex = 0 → c.Collected → c.state ∈ [State.processConfigFile, .receiveData] →
      c.Indexed := by
    intro c hf hidx hcol hst
    refine ⟨fun _ => ⟨hidx, ?_, hcol⟩, fun _ => hf, fun hc => ?_, fun hc => ?_, fun hm => ?_⟩
    · rintro hp
      rw [hp] at hst
      simp at hst
    · rw [hf] at hc
      cases hc
    · rw [hf] at hc
      cases hc
    · exfalso
      simp only [State.resuming, List.mem_cons, List.not_mem_nil, or_false] at hm hst
      rcases hst with hst | hst <;> rw [hst] at hm <;> simp at hm
  rcases receiveConfig_cases hcol with ⟨e, f, heq⟩ | ⟨d, heq, hd, f, b, n, hdc⟩ | ⟨d, heq, -, hcorrect, b, o, n, hdc⟩
  · rw [fwUpgradeProcessConfigFile, heq]
    exact hno hf hidx ⟨fun b hb => by cases hb⟩ (by simp [hst])
  · rw [fwUpgradeProcessConfigFile, heq]
    show d.Indexed
    refine hno ?_ ?_ hd ?_ <;> rw [hdc]
    · exact hf
    · exact hidx
    · simp
  · rw [fwUpgradeProcessConfigFile, heq]
    simp only
    rcases hp : parseConfig env s.cxt.header { s with cxt := d } with ⟨e | u, s'⟩
    · obtain ⟨h₁, h₂, h₃⟩ := parseConfig_error hp
      simp only
      refine hno ?_ ?_ ⟨fun b hb => by cases hb⟩ ?_
      · exact h₁.trans (by rw [hdc]; exact hf)
      · exact h₂.trans (by rw [hdc]; exact hidx)
      · show s'.cxt.state ∈ _
        rw [h₃, hdc]
        simp [hst]
    · simp only
      rcases parseConfig_cases env { s with cxt := d } s.cxt.header with ⟨-, e, c', ws, heq', -⟩ |
        ⟨-, i, start, size, -, -, heq'⟩
      · rw [hp] at heq'
        cases heq'
      rw [hp] at heq'
      have hn := nextStage_indexed env (s := ({ s with cxt := d }.configured s.cxt.header i start size))
        (imageHdrs_ne_nil hcorrect.1.1) ?_
      · rw [← heq'] at hn
        exact hn
      · show d.imageIndex < (ImageSetHdr.decode s.cxt.header).numImages
        rw [show d.imageIndex = 0 by rw [hdc]; exact hidx]
        exact hcorrect.1.1

/-! ### The images -/

theorem Still.steady {α : Type} {c : Cmd Session FuStatus α} (h : c.Moves Still) : c.Moves Steady := fun s => (h s).toSteady

theorem openImage_steady (h : ImageHdr) : (openImage h).Moves Steady :=
  .bind .trans (.modify fun _ => ⟨rfl, rfl, rfl, rfl, rfl, rfl⟩) fun _ => .ite (Still.steady (createFs1_still h))
    (.bind .trans (.gets .refl _) fun _ => .bind .trans (Still.steady (create_still _ _ _ _)) fun _ =>
      Still.steady (erase_still _ _))

theorem eraseAhead_steady (n : ℕ) : (eraseAhead n).Moves Steady :=
  .bind .trans (.gets .refl _) fun _ => .ite (Still.steady (erase_still _ _)) (.pure .refl _)

theorem writeImage_steady (n : ℕ) : (writeImage n).Moves Steady :=
  .bind .trans (.gets .refl _) fun _ => .bind .trans (.modify fun _ => ⟨rfl, rfl, rfl, rfl, rfl, rfl⟩) fun _ =>
    .bind .trans (eraseAhead_steady n) fun _ => .bind .trans (.gets .refl _) fun _ =>
      .bind .trans (Still.steady (write_still _ _)) fun _ => .modify fun _ => ⟨rfl, rfl, rfl, rfl, rfl, rfl⟩

theorem eraseNext_steady : eraseNext.Moves Steady :=
  .when .refl (.bind .trans (.gets .refl _) fun _ => Still.steady (erase_still _ _))

theorem verifyImageHash_steady (env : Env) (h : ImageHdr) : (verifyImageHash env h).Moves Steady := by
  intro s
  rw [verifyImageHash]
  split <;> exact ⟨rfl, rfl, rfl, rfl, rfl, rfl⟩

/-- From `s` to `s'` the current image is the same, or it has ended and the next one is current. -/
structure Onward (s s' : Session) : Prop where
  isFirst : s'.cxt.isFirst = s.cxt.isFirst
  total : s'.cxt.totalImages = s.cxt.totalImages
  hdrs : s'.cxt.imageHdr = s.cxt.imageHdr
  format : s'.cxt.format = s.cxt.format
  state : s'.cxt.state = s.cxt.state ∧ s'.cxt.imageIndex < s.cxt.totalImages ∨
    s'.cxt.state ∈ [State.disconnectServer, .duplicateFs]

theorem Onward.trans {s t u : Session} (h : Onward s t) (h' : Onward t u) : Onward s u := by
  refine ⟨h'.isFirst.trans h.isFirst, h'.total.trans h.total, h'.hdrs.trans h.hdrs, h'.format.trans h.format, ?_⟩
  rcases h'.state with ⟨hs, hi⟩ | hs
  · rw [h.total] at hi
    rcases h.state with ⟨hs', -⟩ | hs'
    · exact .inl ⟨hs.trans hs', hi⟩
    · exact .inr (hs ▸ hs')
  · exact .inr hs

theorem Steady.onward {s s' : Session} (h : Steady s s') (hi : s.cxt.imageIndex < s.cxt.totalImages) : Onward s s' :=
  ⟨h.isFirst, h.total, h.hdrs, h.format, .inl ⟨h.state, h.index ▸ hi⟩⟩

theorem Onward.steady {s t u : Session} (h : Onward s t) (h' : Steady t u) : Onward s u := by
  refine ⟨h'.isFirst.trans h.isFirst, h'.total.trans h.total, h'.hdrs.trans h.hdrs, h'.format.trans h.format, ?_⟩
  rw [h'.state, h'.index]
  exact h.state

/-- The end of an image: it is the last one of the list, or the index is that of the next one. -/
theorem closeImage_index (h : ImageHdr) (s : Session) : ∃ s', closeImage h s = (.ok (), s') ∧
    s'.cxt.isFirst = s.cxt.isFirst ∧ s'.cxt.totalImages = s.cxt.totalImages ∧ s'.cxt.imageHdr = s.cxt.imageHdr ∧
    s'.cxt.state = s.cxt.state ∧ s'.cxt.format = s.cxt.format := by
  have hk := freePartitionHdl_still s
  exact ⟨_, rfl, hk.isFirst, hk.total, hk.hdrs, hk.state, hk.format⟩

theorem finishImage_onward (env : Env) (h : ImageHdr) {s : Session} (hi : s.cxt.imageIndex < s.cxt.totalImages) :
    Onward s (finishImage env h s).2 ∧ ∀ s', finishImage env h s = (.ok false, s') → s.cxt.format ≠ formatPartialUpgrade →
      s'.cxt.state = s.cxt.state ∧ s'.cxt.imageIndex < s.cxt.totalImages := by
  have hv := verifyImageHash_steady env h s
  rw [finishImage]
  rcases hr : verifyImageHash env h s with ⟨e | u, s₁⟩ <;> rw [hr] at hv
  · rw [Cmd.bind_error hr]
    exact ⟨hv.onward hi, fun s' hc => by cases hc⟩
  obtain ⟨s₂, hcl, hf, ht, hh, hst, hfmt⟩ := closeImage_index h s₁
  rw [Cmd.bind_ok hr, Cmd.bind_ok hcl, Cmd.bind_ok (Cmd.gets_apply _ _)]
  have hfmt' : s₂.cxt.format = s.cxt.format := hfmt.trans hv.format
  have ht' : s₂.cxt.totalImages = s.cxt.totalImages := ht.trans hv.total
  by_cases hp : s₂.cxt.format = formatPartialUpgrade
  · rw [if_pos hp]
    refine ⟨⟨hf.trans hv.isFirst, ht', hh.trans hv.hdrs, hfmt', .inr (show State.disconnectServer ∈ _ by decide)⟩, ?_⟩
    intro s' _ hne
    exact absurd (hfmt' ▸ hp) hne
  rw [if_neg hp]
  by_cases hl : s₂.cxt.totalImages ≤ s₂.cxt.imageIndex
  · rw [if_pos hl]
    refine ⟨⟨hf.trans hv.isFirst, ht', hh.trans hv.hdrs, hfmt', .inr (show State.duplicateFs ∈ _ by decide)⟩, ?_⟩
    intro s' hc
    cases hc
  · rw [if_neg hl]
    have hend : s₂.cxt.state = s.cxt.state ∧ s₂.cxt.imageIndex < s.cxt.totalImages :=
      ⟨hst.trans hv.state, by omega⟩
    refine ⟨⟨hf.trans hv.isFirst, ht', hh.trans hv.hdrs, hfmt', .inl hend⟩, ?_⟩
    intro s' hc _
    cases hc
    exact hend

/-- What a pass of the loop leaves: the loop goes on only with an image to receive. -/
structure PassEnds (s : Session) (r : Except FuStatus Bool × Session) : Prop where
  onward : Onward s r.2
  goesOn : r.1 = .ok true → r.2.cxt.state = s.cxt.state ∧ r.2.cxt.imageIndex < s.cxt.totalImages

theorem PassEnds.of_steady {s t : Session} (h : Steady s t) {r : Except FuStatus Bool × Session} (hr : PassEnds t r)
    (hi : s.cxt.imageIndex < s.cxt.totalImages) : PassEnds s r := by
  refine ⟨(h.onward hi).trans hr.onward, fun hok => ?_⟩
  have := hr.goesOn hok
  rwa [h.state, h.total] at this

/-- A pass that stops. -/
theorem PassEnds.stop {s s' : Session} (h : Onward s s') {r : Except FuStatus Bool} (hr : r ≠ .ok true) : PassEnds s (r, s') :=
  ⟨h, fun hc => absurd hc hr⟩

theorem receivePiece_ends (env : Env) (h : ImageHdr) {s : Session} (hi : s.cxt.imageIndex < s.cxt.totalImages) :
    PassEnds s (receivePiece env h s) := by
  rw [receivePiece, Cmd.bind_ok (Cmd.gets_apply _ _)]
  rcases s.cxt.writeLen with e | n
  · exact .stop ((Steady.refl s).onward hi) (by simp)
  simp only
  rw [Cmd.bind_ok (Cmd.modify_apply _ _)]
  set s₁ := s.setCxt fun c => { c with bufOffset := if c.format = formatPartialUpgrade then 0 else c.bufOffset } with hs₁
  have h₁ : Steady s s₁ := ⟨rfl, rfl, rfl, rfl, rfl, rfl⟩
  refine PassEnds.of_steady h₁ ?_ hi
  have hw := writeImage_steady n s₁
  rcases hr : writeImage n s₁ with ⟨e | u, s₂⟩ <;> rw [hr] at hw
  · rw [Cmd.bind_error hr]
    exact .stop (hw.onward hi) (by simp)
  rw [Cmd.bind_ok hr]
  refine PassEnds.of_steady hw ?_ hi
  have hi₂ : s₂.cxt.imageIndex < s₂.cxt.totalImages := by
    rw [hw.index, hw.total]
    exact hi
  -- the image goes on, or ends here
  obtain ⟨honw, hmore⟩ : Onward s₂ (finishIfWritten env h s₂).2 ∧ ∀ s', finishIfWritten env h s₂ = (.ok false, s') →
      s₂.cxt.format ≠ formatPartialUpgrade → s'.cxt.state = s₂.cxt.state ∧ s'.cxt.imageIndex < s₂.cxt.totalImages := by
    rw [finishIfWritten]
    split
    · exact finishImage_onward env h hi₂
    · refine ⟨(Steady.refl s₂).onward hi₂, fun s' hc _ => ?_⟩
      cases hc
      exact ⟨rfl, hi₂⟩
  rcases hr₃ : finishIfWritten env h s₂ with ⟨e | last, s₃⟩ <;> rw [hr₃] at honw
  · rw [Cmd.bind_error hr₃]
    exact .stop honw (by simp)
  rw [Cmd.bind_ok hr₃]
  cases last with
  | true => exact .stop honw (by simp)
  | false =>
    simp only [Bool.false_eq_true, if_false]
    have he := eraseNext_steady s₃
    rcases hr₄ : eraseNext s₃ with ⟨e | u, s₄⟩ <;> rw [hr₄] at he
    · rw [Cmd.bind_error hr₄]
      exact .stop (honw.steady he) (by simp)
    rw [Cmd.bind_ok hr₄]
    refine ⟨honw.steady he, fun hgo => ?_⟩
    have hfmt : s₂.cxt.format ≠ formatPartialUpgrade := by
      rw [← honw.format, ← he.format]
      simpa using hgo
    obtain ⟨hs, hx⟩ := hmore s₃ hr₃ hfmt
    show s₄.cxt.state = _ ∧ s₄.cxt.imageIndex < _
    rw [he.state, he.index]
    exact ⟨hs, hx⟩

theorem receivePass_ends (env : Env) {s : Session} (hi : s.cxt.imageIndex < s.cxt.totalImages) :
    PassEnds s (receivePass env s) := by
  have hstay := (Steady.refl s).onward hi
  rw [receivePass, Cmd.bind_ok (Cmd.gets_apply _ _)]
  by_cases hend : s.cxt.format ≠ formatPartialUpgrade ∧ s.cxt.buffer.length ≤ s.cxt.bufOffset
  · rw [if_pos hend]
    exact .stop hstay (by simp)
  rw [if_neg hend]
  by_cases hopen : s.cxt.imageWrtLength = 0
  swap
  · rw [if_neg hopen]
    exact receivePiece_ends env _ hi
  rw [if_pos hopen]
  set h := s.cxt.hdrAt env s.cxt.imageIndex
  have ho := openImage_steady h s
  rcases hr : openImage h s with ⟨e | u, s₁⟩ <;> rw [hr] at ho
  · rw [Cmd.bind_error hr]
    exact .stop (ho.onward hi) (by simp)
  rw [Cmd.bind_ok hr]
  refine PassEnds.of_steady ho ?_ hi
  have hi₁ : s₁.cxt.imageIndex < s₁.cxt.totalImages := by
    rw [ho.index, ho.total]
    exact hi
  by_cases hz : s.cxt.format ≠ formatPartialUpgrade ∧ h.imageLength = 0
  · -- an image without bytes
    rw [if_pos hz]
    obtain ⟨s₂, hcl, hf, ht, hh, hst, hfmt⟩ := closeImage_index h s₁
    rw [Cmd.bind_ok hcl, Cmd.bind_ok (Cmd.gets_apply _ _)]
    by_cases hl : s₂.cxt.totalImages ≤ s₂.cxt.imageIndex
    · simp only [hl, decide_true, if_true]
      show PassEnds s₁ (.ok false, s₂.setState .duplicateFs)
      refine PassEnds.stop ?_ (by simp)
      exact ⟨hf, ht, hh, hfmt, .inr (show State.duplicateFs ∈ [State.disconnectServer, .duplicateFs] by decide)⟩
    · simp only [hl, decide_false, Bool.false_eq_true, if_false]
      have hend : s₂.cxt.state = s₁.cxt.state ∧ s₂.cxt.imageIndex < s₁.cxt.totalImages := ⟨hst, by omega⟩
      exact ⟨⟨hf, ht, hh, hfmt, .inl hend⟩, fun _ => hend⟩
  · rw [if_neg hz, Cmd.bind_ok (Cmd.modify_apply _ _)]
    have hd : Steady s₁ (s₁.setCxt fun c => { c with digest := [] }) := ⟨rfl, rfl, rfl, rfl, rfl, rfl⟩
    exact PassEnds.of_steady hd (receivePiece_ends env h hi₁) hi₁

/-- The loop: every pass works on an image, and what is left is an image to receive or the end of them. -/
theorem receiveLoop_ends (env : Env) : ∀ (n : ℕ) {s : Session}, s.cxt.imageIndex < s.cxt.totalImages →
    Onward s (receiveLoop env n s).2 ∧ ∀ i ∈ receiveReads env n s, i < s.cxt.totalImages
  | 0, s, hi => ⟨(Steady.refl s).onward hi, fun i hm => absurd hm List.not_mem_nil⟩
  | n + 1, s, hi => by
    have hp := receivePass_ends env hi
    rw [receiveLoop, receiveReads]
    rcases hr : receivePass env s with ⟨e | (_ | _), s₁⟩ <;> rw [hr] at hp
    · rw [Cmd.bind_error hr]
      refine ⟨hp.onward, fun i hm => ?_⟩
      split at hm
      · exact absurd hm List.not_mem_nil
      · rw [List.mem_singleton.mp hm]
        exact hi
    · rw [Cmd.bind_ok hr]
      refine ⟨hp.onward, fun i hm => ?_⟩
      split at hm
      · exact absurd hm List.not_mem_nil
      · rw [List.mem_singleton.mp hm]
        exact hi
    · rw [Cmd.bind_ok hr]
      have hi₁ := (hp.goesOn rfl).2
      rw [← hp.onward.total] at hi₁
      obtain ⟨h₁, h₂⟩ := receiveLoop_ends env n hi₁
      refine ⟨hp.onward.trans h₁, fun i hm => ?_⟩
      split at hm
      · exact absurd hm List.not_mem_nil
      · rcases List.mem_cons.mp hm with rfl | hm
        · exact hi
        · rw [← hp.onward.total]
          exact h₂ i hm

/-- `FW_UPGRADE_STATE_PROCESS_IMAGE_E`. -/
theorem processImage_indexed (env : Env) {s : Session} (h : s.cxt.Indexed) (hst : s.cxt.state = .processImage) :
    (processImage env s).2.cxt.Indexed := by
  have hf : s.cxt.isFirst = false := by
    by_contra hc
    exact (h.first (by simpa using hc)).2.1 hst
  have hi := h.receiving hf (by rw [hst]; decide)
  obtain ⟨ho, -⟩ := receiveLoop_ends env (s.cxt.buffer.length + s.cxt.totalImages + 2) hi
  have hnew : ∀ {s' : Session}, Onward s s' → s'.cxt.Indexed := by
    intro s' ho
    have hf' := ho.isFirst.trans hf
    refine ⟨fun hc => ?_, fun hc => ?_, fun _ => ho.hdrs ▸ h.hdrs hf, fun _ hm => ?_, fun hm => ?_⟩
    · rw [hf'] at hc
      cases hc
    · exfalso
      rcases ho.state with ⟨hs, -⟩ | hs
      · rw [hs, hst] at hc
        cases hc
      · rw [hc] at hs
        simp at hs
    · rw [ho.total]
      rcases ho.state with ⟨-, hi⟩ | hs
      · exact hi
      · exfalso
        simp only [List.mem_cons, List.not_mem_nil, or_false] at hs
        rcases hs with hs | hs <;> rw [hs] at hm <;> simp [State.receiving] at hm
    · exfalso
      rcases ho.state with ⟨hs, -⟩ | hs
      · rw [hs, hst] at hm
        simp [State.resuming] at hm
      · simp only [List.mem_cons, List.not_mem_nil, or_false] at hs
        rcases hs with hs | hs <;> rw [hs] at hm <;> simp [State.resuming] at hm
  rw [processImage]
  have ho' : Onward s (fwUpgradeProcessReceiveImage env s).2 := ho
  rcases hr : fwUpgradeProcessReceiveImage env s with ⟨e | u, s₁⟩ <;> rw [hr] at ho'
  · rw [Cmd.bind_error hr]
    exact hnew ho'
  rw [Cmd.bind_ok hr, Cmd.modify_apply]
  simp only
  by_cases hs₁ : s₁.cxt.state = .processImage
  · rw [if_pos hs₁]
    refine (hnew ho').near (.setState s₁ _) (fun _ => by show State.receiveData ≠ _; decide)
      (fun hc => absurd hc (show State.receiveData ≠ _ by decide)) (fun hf₁ _ => ?_) fun hm => absurd hm (show State.receiveData ∉ _ by decide)
    exact (hnew ho').receiving hf₁ (by rw [hs₁]; decide)
  · rw [if_neg hs₁]
    exact hnew ho'

/-! ### The other states that use the index -/

/-- `FW_UPGRADE_STATE_PREPARE_CONNECT_E`: a server is connected to only about an image of the list. -/
theorem prepareConnect_indexed (env : Env) {s : Session} (h : s.cxt.Indexed) (hst : s.cxt.state = .prepareConnect) :
    (prepareConnect env s).2.cxt.Indexed := by
  have hidle : ∀ {c : Cxt}, c.isFirst = false → c.imageHdr ≠ [] → c.state ∉ State.indexing → c.Indexed := by
    intro c hf hne hni
    refine ⟨fun hc => ?_, fun hc => absurd (by rw [hc]; decide) hni, fun _ => hne, fun _ hm => ?_, fun hm => ?_⟩
    · rw [hf] at hc
      cases hc
    · exact absurd (List.mem_append_left _ (List.mem_append_left _ hm)) hni
    · exact absurd (List.mem_append_left _ (List.mem_append_right _ hm)) hni
  rw [prepareConnect, Cmd.bind_ok (Cmd.gets_apply _ _)]
  cases hf : s.cxt.isFirst with
  | true =>
    rw [if_pos rfl, Cmd.modify_apply]
    refine h.near (.setState s _) (fun _ => ?_) (fun hc => ?_) (fun hc => ?_) fun hm => ?_
    · show State.connectServer ≠ _
      decide
    · exact absurd hc (show State.connectServer ≠ _ by decide)
    · rw [hf] at hc
      cases hc
    · exact absurd hm (show State.connectServer ∉ _ by decide)
  | false =>
    rw [if_neg (by decide), Cmd.bind_ok (Cmd.modify_apply _ _), Cmd.bind_ok (Cmd.gets_apply _ _)]
    set s₁ := s.setCxt fun c => { c with imageIndex := nextDownload c.downloadFlag c.imageIndex c.totalImages } with hs₁
    set x := s₁.cxt.hdrAt env s₁.cxt.imageIndex
    have hne : s₁.cxt.imageHdr ≠ [] := h.hdrs hf
    by_cases hz : x.imageId = fs1ImgId ∧ x.imageLength = 0
    · rw [if_pos hz]
      have hk := createFs1_still x s₁
      rcases hr : createFs1 x s₁ with ⟨e | u, s₂⟩ <;> rw [hr] at hk
      · rw [Cmd.bind_error hr]
        refine hidle (hk.isFirst.trans hf) (by rw [hk.hdrs]; exact hne) ?_
        rw [hk.state]
        show s.cxt.state ∉ _
        rw [hst]
        decide
      · rw [Cmd.bind_ok hr, Cmd.modify_apply]
        have hk' := hk.trans (freePartitionHdl_still s₂)
        refine hidle (hk'.isFirst.trans hf) ?_ ?_
        · show s₂.freePartitionHdl.cxt.imageHdr ≠ []
          rw [hk'.hdrs]
          exact hne
        · show s₂.freePartitionHdl.cxt.state ∉ _
          rw [hk'.state]
          show s.cxt.state ∉ _
          rw [hst]
          decide
    · rw [if_neg hz, Cmd.modify_apply]
      by_cases hl : s₁.cxt.totalImages ≤ s₁.cxt.imageIndex
      · simp only [if_pos hl]
        exact hidle hf hne (show State.duplicateImages ∉ _ by decide)
      · simp only [if_neg hl]
        refine ⟨fun hc => ?_, fun hc => ?_, fun _ => hne, fun _ _ => Nat.lt_of_not_le hl, fun hm => ?_⟩
        · rw [show (s₁.setState .connectServer).cxt.isFirst = false from hf] at hc
          cases hc
        · exact absurd hc (show State.connectServer ≠ _ by decide)
        · exact absurd hm (show State.connectServer ∉ _ by decide)

theorem connect_still : connect.Moves Still := by
  intro s
  rw [connect]
  split <;> exact .of_cxt rfl

/-- A server is connected to, and then talked to. -/
theorem talk_indexed {s : Session} (h : s.cxt.Indexed) (hlt : s.cxt.isFirst = false → s.cxt.imageIndex < s.cxt.totalImages) :
    ((connect >>= fun _ => Cmd.modify fun s => s.setState .receiveData : Cmd Session FuStatus Unit) s).2.cxt.Indexed := by
  have hk := connect_still s
  rcases hr : connect s with ⟨e | u, s₁⟩ <;> rw [hr] at hk
  · rw [Cmd.bind_error hr]
    exact h.aloof hk.aloof
  · rw [Cmd.bind_ok hr, Cmd.modify_apply]
    refine h.near (hk.near.trans (.setState s₁ _)) (fun _ => ?_) (fun hc => ?_) (fun hf _ => hlt hf) fun hm => ?_
    · show State.receiveData ≠ _
      decide
    · exact absurd hc (show State.receiveData ≠ _ by decide)
    · exact absurd hm (show State.receiveData ∉ _ by decide)

theorem connectServer_indexed {s : Session} (h : s.cxt.Indexed) (hst : s.cxt.state = .connectServer) :
    (connectServer s).2.cxt.Indexed := by
  rw [connectServer, Cmd.bind_ok (Cmd.modify_apply _ _)]
  have hk : Still s (s.setCxt fun c => { c with fileReadCount := 0 }) := ⟨⟨rfl, rfl, rfl, rfl, rfl, rfl⟩, rfl, rfl⟩
  exact talk_indexed (h.aloof hk.aloof) fun hf => h.receiving hf (by rw [hst]; decide)

theorem resumeServer_indexed {s : Session} (h : s.cxt.Indexed) (hst : s.cxt.state = .resumeServer) :
    (resumeServer s).2.cxt.Indexed :=
  talk_indexed h fun _ => (h.resuming (by rw [hst]; decide)).2

theorem resumeService_indexed (env : Env) {s : Session} (h : s.cxt.Indexed) (hst : s.cxt.state = .resumeService) :
    (resumeService env s).2.cxt.Indexed := by
  have hin := h.resuming (by rw [hst]; decide)
  obtain ⟨hn, hs⟩ : Near s (resumeService env s).2 ∧ (resumeService env s).2.cxt.state ∈ State.resuming := by
    rw [resumeService, Cmd.bind_ok (Cmd.gets_apply _ _), Cmd.bind_ok (Cmd.gets_apply _ _)]
    have hk := openPartition_still s.cxt.trialFwdIdx (s.cxt.hdrAt env s.cxt.imageIndex).imageId .flashImageNotFound s
    rcases hr : openPartition s.cxt.trialFwdIdx (s.cxt.hdrAt env s.cxt.imageIndex).imageId .flashImageNotFound s with
      ⟨e | c, s₁⟩ <;> rw [hr] at hk
    · rw [Cmd.bind_error hr]
      refine ⟨hk.near, ?_⟩
      rw [hk.state, hst]
      decide
    rw [Cmd.bind_ok hr, Cmd.bind_ok (Cmd.gets_apply _ _), Cmd.bind_ok (Cmd.gets_apply _ _)]
    have hn := fun s₂ : Session => fun hc : s₂.cxt = s₁.cxt => hk.near.trans ((Still.of_cxt hc).near.trans (.setState s₂ .resumeServer))
    rcases hre : (onFu (rehash (s₁.cxt.partitionHdl.getD 0) s₁.cxt.imageWrtCount 0 s₁.cxt.imageWrtCount []) s₁) with ⟨r, s₂⟩
    have hc₂ : s₂.cxt = s₁.cxt := by
      rw [onFu, Cmd.zoom] at hre
      exact congrArg (fun p => p.2.cxt) hre.symm
    rw [Cmd.bind_ok (show Cmd.attempt _ s₁ = (.ok r, s₂) by rw [Cmd.attempt, hre]), Cmd.bind_ok (Cmd.modify_apply _ _)]
    rcases r with e | b
    · exact ⟨hn s₂ hc₂, show State.resumeServer ∈ _ by decide⟩
    · refine ⟨(hn s₂ hc₂).trans ⟨rfl, rfl, rfl, rfl, collected_congr rfl rfl rfl⟩, show State.resumeServer ∈ _ by decide⟩
  refine h.near hn (fun _ hc => ?_) (fun hc => ?_) (fun _ hm => hin.2) fun _ => hin
  · rw [hc] at hs
    simp [State.resuming] at hs
  · rw [hc] at hs
    simp [State.resuming] at hs

theorem receiveData_indexed {s : Session} (h : s.cxt.Indexed) (hst : s.cxt.state = .receiveData) :
    (receiveData s).2.cxt.Indexed := by
  rw [receiveData]
  split
  · exact h
  · exact h
  simp only
  split
  · exact h
  rename_i b ps _ hne
  show Cxt.Indexed (Session.setCxt _ _).cxt
  refine h.near ⟨rfl, rfl, rfl, rfl, collected_congr rfl rfl rfl⟩ (fun hf => ?_) (fun hc => ?_)
    (fun hf _ => h.receiving hf (by rw [hst]; decide)) fun hm => ?_
  · show (if s.cxt.isFirst = true then State.processConfigFile else State.processImage) ≠ _
    rw [if_pos hf]
    decide
  · by_contra hn
    have hc' : (if s.cxt.isFirst = true then State.processConfigFile else State.processImage) = .processConfigFile := hc
    rw [if_neg hn] at hc'
    cases hc'
  · exfalso
    have hm' : (if s.cxt.isFirst = true then State.processConfigFile else State.processImage) ∈ State.resuming := hm
    split at hm' <;> simp [State.resuming] at hm'

/-! ### Every turn -/

theorem sessionSwitch_indexed (env : Env) {s : Session} (h : s.cxt.Indexed) : (sessionSwitch env s).2.cxt.Indexed := by
  have hgo : ∀ {c : Cmd Session FuStatus Unit}, (c s).2.cxt.Indexed →
      ((c >>= fun _ => pure true : Cmd Session FuStatus Bool) s).2.cxt.Indexed := by
    intro c hc
    rcases hr : c s with ⟨e | u, s'⟩ <;> rw [hr] at hc
    · rw [Cmd.bind_error hr]
      exact hc
    · rw [Cmd.bind_ok hr]
      exact hc
  rw [sessionSwitch]
  cases hst : s.cxt.state with
  | notStart => exact hgo (h.aloof (moves_setState_aloof (by decide) s))
  | getTrialInfo => exact hgo (h.aloof (getTrialInfo_aloof env s))
  | eraseFwd => exact hgo (h.aloof (eraseFwd_aloof env s))
  | eraseFlash => exact h
  | eraseSecondFs => exact hgo (h.aloof (eraseSecondFs_aloof s))
  | prepareFs => exact hgo (h.aloof (prepareFs_aloof env s))
  | eraseImage => exact h
  | prepareConnect => exact hgo (prepareConnect_indexed env h hst)
  | connectServer => exact hgo (connectServer_indexed h hst)
  | resumeService => exact hgo (resumeService_indexed env h hst)
  | resumeServer => exact hgo (resumeServer_indexed h hst)
  | receiveData => exact receiveData_indexed h hst
  | disconnectServer => exact hgo (h.aloof (moves_setState_aloof (by decide) s))
  | processConfigFile => exact hgo (processConfigFile_indexed env h hst)
  | processImage => exact hgo (processImage_indexed env h hst)
  | duplicateImages => exact hgo (h.aloof (duplicateImages_aloof env s))
  | duplicateFs => exact hgo (h.aloof (duplicateFs_aloof s))
  | finish => exact h

/-- The entries that the switch looks at are those of images, if there is one left to download. -/
theorem switchReads_inRange (env : Env) {s : Session} (h : s.cxt.Indexed)
    (hc : s.cxt.state = .prepareConnect → s.cxt.isFirst = false →
      ∃ i < s.cxt.totalImages, s.cxt.imageIndex ≤ i ∧ s.cxt.downloadFlag i = true) :
    ∀ i ∈ s.switchReads env, s.cxt.imageHdr ≠ [] ∧ i < s.cxt.totalImages := by
  intro i hi
  rw [Session.switchReads] at hi
  cases hst : s.cxt.state <;> simp only [hst] at hi
  case prepareConnect =>
    split at hi
    · exact absurd hi List.not_mem_nil
    rename_i hf
    rw [Bool.not_eq_true] at hf
    obtain ⟨j, hj, hle, hfl⟩ := hc hst hf
    rw [List.mem_singleton.mp hi]
    refine ⟨h.hdrs hf, Nat.lt_of_not_le fun hge => ?_⟩
    have := (nextDownload_spec s.cxt.downloadFlag s.cxt.imageIndex s.cxt.totalImages).2.2 j hle (by omega) hj
    rw [hfl] at this
    cases this
  case connectServer =>
    split at hi
    · exact absurd hi List.not_mem_nil
    rename_i hf
    rw [Bool.not_eq_true] at hf
    rw [List.mem_singleton.mp hi]
    exact ⟨h.hdrs hf, h.receiving hf (by rw [hst]; decide)⟩
  case resumeService =>
    rw [List.mem_singleton.mp hi]
    exact h.resuming (by rw [hst]; decide)
  case resumeServer =>
    split at hi
    · rw [List.mem_singleton.mp hi]
      exact h.resuming (by rw [hst]; decide)
    · exact absurd hi List.not_mem_nil
  case processImage =>
    have hf : s.cxt.isFirst = false := by
      by_contra hc'
      exact (h.first (by simpa using hc')).2.1 hst
    have hlt := h.receiving hf (by rw [hst]; decide)
    exact ⟨h.hdrs hf, (receiveLoop_ends env _ hlt).2 i hi⟩
  all_goals exact absurd hi List.not_mem_nil

/-- A session that can still make a pass, now or after a resume. -/
def Session.Usable (s : Session) : Prop := ∀ r, s.phase = .done r → s.cxt.sessionStatus = .suspend

theorem Cxt.Indexed.status {c : Cxt} (h : c.Indexed) (st : SessionStatus) :
    ({ c with sessionStatus := st } : Cxt).Indexed :=
  ⟨fun hf => ⟨(h.first hf).1, (h.first hf).2.1, ⟨(h.first hf).2.2.pre⟩⟩, h.config, h.hdrs, h.receiving, h.resuming⟩

theorem Session.poll_indexed {s : Session} (h : s.cxt.Indexed) : s.poll.cxt.Indexed := by
  obtain ⟨sc, st, heq⟩ := s.poll_eq
  rw [heq]
  exact h.status st

theorem Session.leave_indexed {s : Session} (h : s.cxt.Indexed) (r : Except FuStatus Unit) (hu : (s.leave r).Usable) :
    (s.leave r).cxt.Indexed := by
  rw [Session.leave] at hu ⊢
  split
  · have hk : Still s.freePartitionHdl { s.freePartitionHdl with phase := .done (.error .sessionSuspend) } := .of_cxt rfl
    exact h.aloof ((freePartitionHdl_still s).trans hk).aloof
  · rename_i hne
    rw [if_neg hne] at hu
    exact absurd (hu r rfl) (by simp [Session.fin, Session.setCxt])

theorem validate_still (s : Session) : Still s s.validate := by
  rw [Session.validate]
  split <;> exact .of_cxt rfl

theorem Session.finalize_indexed {s : Session} (h : s.cxt.Indexed) (r : Except FuStatus Unit) (hu : (s.finalize r).Usable) :
    (s.finalize r).cxt.Indexed := by
  rw [Session.finalize] at hu ⊢
  split
  · rename_i e he
    rw [he] at hu
    exact Session.leave_indexed (Session.poll_indexed h) _ hu
  · rename_i u he
    rw [he] at hu
    simp only at hu
    split
    · rename_i ha
      rw [if_pos ha] at hu
      exact absurd (hu _ rfl) (by simp [Session.fin, Session.setCxt])
    · rename_i ha
      rw [if_neg ha] at hu
      exact Session.leave_indexed (Session.poll_indexed (h.aloof (validate_still s).aloof)) _ hu

/-- The invariant of a session. -/
def Session.Indexes (s : Session) : Prop := s.Usable → s.cxt.Indexed

theorem Session.afterSwitch_cxt (r : Except FuStatus Bool × Session) : (afterSwitch r).cxt = r.2.cxt := by
  rcases r with ⟨e | (_ | _), s⟩ <;> rfl

theorem Session.step_indexes (env : Env) {s : Session} (h : s.Indexes) : (s.step env).Indexes := by
  intro hu
  rw [Session.step] at hu ⊢
  cases hph : s.phase with
  | process =>
    have hi : s.cxt.Indexed := h fun r hr => by
      rw [hph] at hr
      cases hr
    have hp := Session.poll_indexed hi
    simp only
    split
    · rw [Session.afterSwitch_cxt]
      exact sessionSwitch_indexed env hp
    · exact hp
  | finalize ret =>
    have hi : s.cxt.Indexed := h fun r hr => by
      rw [hph] at hr
      cases hr
    rw [hph] at hu
    exact Session.finalize_indexed (Session.poll_indexed hi) ret hu
  | done r =>
    rw [hph] at hu
    exact h hu

theorem Session.resume_indexes {s : Session} (h : s.Indexes) {script : Script} (hc : s.Sound (.resume script)) :
    (s.resume script).Indexes := by
  intro hu
  rw [Session.resume] at hu ⊢
  cases hph : s.phase with
  | process =>
    rw [hph] at hu
    exact h hu
  | finalize ret =>
    rw [hph] at hu
    exact h hu
  | done r =>
    rw [hph] at hu
    simp only at hu ⊢
    split
    swap
    · rename_i hne
      rw [if_neg hne] at hu
      exact h hu
    rename_i hs
    have hi : s.cxt.Indexed := h fun _ _ => hs
    set s' : Session := { s with
      phase := .process
      script
      cxt := { s.cxt with
        sessionStatus := .running
        state := if State.resumeService.ctorIdx ≤ s.cxt.state.ctorIdx then .resumeService else s.cxt.state } } with hs'
    have hn : Near s s' := ⟨rfl, rfl, rfl, rfl, collected_congr rfl rfl rfl⟩
    by_cases hst : State.resumeService.ctorIdx ≤ s.cxt.state.ctorIdx
    · have hin := (hc hs).resolve_left (Nat.not_lt.mpr hst)
      have hs₁ : s'.cxt.state = .resumeService := if_pos hst
      refine hi.near hn (fun _ => ?_) (fun hc' => ?_) (fun _ _ => hin.2) fun _ => hin
      · rw [hs₁]
        decide
      · rw [hs₁] at hc'
        cases hc'
    · have hs₁ : s'.cxt.state = s.cxt.state := if_neg hst
      exact hi.aloof ⟨hn, .inl hs₁⟩

theorem start_indexed (fu : Fu) (flags : ℕ) (script : Script) : (Session.start fu flags script).cxt.Indexed := by
  refine ⟨fun _ => ⟨rfl, ?_, ⟨fun b hb => ?_⟩⟩, fun _ => rfl, fun hc => ?_, fun hc => ?_, fun hm => ?_⟩
  · exact State.noConfusion
  · cases hb
  · cases hc
  · cases hc
  · exact absurd hm (show State.notStart ∉ _ by decide)

/-- In every run whose turns are sound, every entry of `fw_upgrade_image_hdr` that is looked at is that of an image. -/
theorem image_hdr_index_in_range (env : Env) (fu : Fu) (flags : ℕ) (script : Script) (l : List Session.Turn)
    (h : Along (Session.turn env) Session.Sound (.start fu flags script) l) :
    Along (Session.turn env) (Session.InRange env) (.start fu flags script) l := by
  refine Along.of_inv (I := Session.Indexes) (fun s t hi hs => ?_) (fun s t hi hs => ?_) (fun _ => start_indexed fu flags script) h
  · cases t with
    | pass => exact Session.step_indexes env hi
    | resume script => exact Session.resume_indexes hi hs
  · intro i hm
    cases t with
    | resume script => exact absurd hm List.not_mem_nil
    | pass =>
      rw [Session.turnReads] at hm
      split at hm
      swap
      · exact absurd hm List.not_mem_nil
      rename_i hrun
      have hx : s.cxt.Indexed := hi fun r hr => by
        rw [hrun.1] at hr
        cases hr
      obtain ⟨sc, st, hpoll⟩ := s.poll_eq
      have := switchReads_inRange env (Session.poll_indexed hx) (fun hst hf => ?_) i hm
      · rw [hpoll] at this
        exact this
      · rw [hpoll] at hst hf ⊢
        exact hs ⟨hrun.1, hrun.2, hst⟩ hf

theorem image_hdr_index_in_range_small : Along (Session.turn smallAppEnv) (Session.InRange smallAppEnv) (.start smallFu 0 smallScript)
    (List.replicate 12 .pass) :=
  image_hdr_index_in_range smallAppEnv smallFu 0 smallScript _ (by decide +kernel)

/-- SHA-256 of a blank block. -/
def blankHash : ℕ := 0xf47a8ec3e9aff2318d896942282ad4fe37d6391c82914f54a5da8a37de1300c6

/-- SHA-256 of the header of a partial upgrade with `blankApp` only. -/
def blankAppHash : ℕ := 0x88b01b761ca893aa59dbd0b64ae96028cd169283da250f4f47cc12f7b4a974fe

/-- The APP of the small device, which is a blank block. -/
def blankApp : ImageHdr := ⟨1, appImgId, 1, 4096, 4096, 1, hashValue blankHash⟩

def blankHeader : Bytes := headerPrefix fwUpgradeMagicV1 1 formatPartialUpgrade [blankApp] ++ hashValue blankAppHash

def blankEnv : Env :=
  smallEnv [(headerPrefix fwUpgradeMagicV1 1 formatPartialUpgrade [blankApp], blankAppHash), (List.replicate 4096 0xFF, blankHash)]

/-- A partial upgrade to what is there: when no image is left to download, the entry behind the last one is looked at.
    A session that is suspended before it has the header and resumed looks at an entry of an array that is not there. -/
theorem image_hdr_index_out_of_range :
    ¬Along (Session.turn blankEnv) (Session.InRange blankEnv) (.start smallFu 0 ⟨[.data blankHeader], [], []⟩)
      (List.replicate 11 .pass) ∧
    ¬Along (Session.turn smallAppEnv) (Session.InRange smallAppEnv)
      (.start smallFu 0 ⟨[.data smallHeader], [], List.replicate 7 none ++ [some .suspend]⟩)
      (List.replicate 9 .pass ++ [.resume smallScript, .pass]) := by
  constructor <;> decide +kernel

end Qcc730.Upgrade
