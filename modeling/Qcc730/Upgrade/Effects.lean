import Qcc730.Upgrade.Area

/-! What the operations of a session do.

    One lemma for each operation says how it can end and gives the session it ends in; the proofs about
    whole states and runs use these and do not look inside the operations. -/

namespace Qcc730.Upgrade
open Lib Flash

/-! ### Choosing the trial slot changes nothing but handles -/

theorem findPartition_dev (f id : ℕ) (s : Fu) : (fwUpgradeFindPartition f id s).2.dev = s.dev := by
  rcases findPartition_cases f id s with ⟨e, h⟩ | ⟨h, i, e, -, -, -, -, heq⟩
  · rw [h]
  · rw [heq, Fu.setHandle_dev]

theorem partitionEnd_dev (f id : ℕ) (s : Fu) : (partitionEnd f id s).2.dev = s.dev := by
  rw [partitionEnd]
  have h := findPartition_dev f id s
  rcases hf : fwUpgradeFindPartition f id s with ⟨e | k, s'⟩ <;> rw [hf] at h
  · exact h
  · simpa using h

theorem partitionEnd_ok (f id : ℕ) (s : Fu) : ∃ v s', partitionEnd f id s = (.ok v, s') := by
  rw [partitionEnd]
  split
  · exact ⟨_, _, rfl⟩
  · exact ⟨_, _, rfl⟩

theorem firstProgrammingImage_dev (s : Fu) :
    (fwUpgradeGetFirstProgrammingImageStartAddress s).2.dev = s.dev := by
  rw [fwUpgradeGetFirstProgrammingImageStartAddress, Cmd.bind_ok (Cmd.gets_apply _ _)]
  generalize fwUpgradeGetActiveFwd s.dev.mem.fdt = f
  obtain ⟨v₁, s₁, h₁⟩ := partitionEnd_ok f fs1ImgId s
  obtain ⟨v₂, s₂, h₂⟩ := partitionEnd_ok f fs2ImgId s₁
  obtain ⟨v₃, s₃, h₃⟩ := partitionEnd_ok f ramdumpImgId s₂
  obtain ⟨v₄, s₄, h₄⟩ := partitionEnd_ok f userdataImgId s₃
  rw [Cmd.bind_ok h₁, Cmd.bind_ok h₂, Cmd.bind_ok h₃, Cmd.bind_ok h₄]
  have d₁ := partitionEnd_dev f fs1ImgId s
  have d₂ := partitionEnd_dev f fs2ImgId s₁
  have d₃ := partitionEnd_dev f ramdumpImgId s₂
  have d₄ := partitionEnd_dev f userdataImgId s₃
  rw [h₁] at d₁
  rw [h₂] at d₂
  rw [h₃] at d₃
  rw [h₄] at d₄
  exact d₄.trans (d₃.trans (d₂.trans d₁))

theorem nextPartition_dev (h : ℕ) (s : Fu) : (fwUpgradeNextPartition h s).2.dev = s.dev := by
  rw [fwUpgradeNextPartition]
  split
  · rfl
  split
  · rfl
  split
  · rfl
  simp only
  split
  · rfl
  split
  · rfl
  · rfl

theorem imageSetEndLoop_dev : ∀ (n h a : ℕ) (s : Fu), (imageSetEndLoop n h a s).2.dev = s.dev
  | 0, h, a, s => rfl
  | n + 1, h, a, s => by
    have hd := nextPartition_dev h s
    rcases hn : fwUpgradeNextPartition h s with ⟨e | k, s'⟩ <;> rw [hn] at hd
    · simp only [imageSetEndLoop, hn]
      exact hd
    · simp only [imageSetEndLoop, hn]
      rw [imageSetEndLoop_dev n]
      exact hd

theorem firstPartition_dev (f : ℕ) (s : Fu) : (fwUpgradeFirstPartition f s).2.dev = s.dev := by
  rw [fwUpgradeFirstPartition]
  split
  · rfl
  split
  · rfl
  split
  · rfl
  split
  · rfl
  split
  · rfl
  · rfl

theorem imageSetEndAddr_dev (f : ℕ) (s : Fu) : (fwUpgradeGetImageSetEndAddr f s).2.dev = s.dev := by
  rw [fwUpgradeGetImageSetEndAddr]
  simp only
  split
  · have hd := firstPartition_dev f s
    rcases hn : fwUpgradeFirstPartition f s with ⟨e | k, s'⟩ <;> rw [hn] at hd
    · exact hd
    · simp only
      rw [imageSetEndLoop_dev]
      exact hd
  · rfl

/-- A sequence keeps what both of its commands keep. -/
theorem bind_dev {α β : Type} {c : Cmd Fu FuStatus α} {f : α → Cmd Fu FuStatus β} (hc : ∀ s, (c s).2.dev = s.dev)
    (hf : ∀ a s, (f a s).2.dev = s.dev) (s : Fu) : ((c >>= f) s).2.dev = s.dev := by
  rw [Cmd.bind_apply]
  have h := hc s
  rcases hs : c s with ⟨e | a, s'⟩ <;> rw [hs] at h
  · exact h
  · exact (hf a s').trans h

/-- The end of `fw_upgrade_select_trial_fwd` for two FWDs, over any values it has computed. -/
theorem regionOfTwo_dev (fwdIndex size startAddress : ℕ) (s : Fu) :
    ((if fwdIndex = 1 then do
        let endAddr ← fwUpgradeGetImageSetEndAddr 0
        if startAddress < endAddr then pure ⟨fwdIndex, endAddr, u32sub size (endAddr - startAddress)⟩
        else pure ⟨fwdIndex, startAddress, size⟩
      else pure ⟨fwdIndex, startAddress, size⟩ : Cmd Fu FuStatus TrialRegion) s).2.dev = s.dev := by
  by_cases h : fwdIndex = 1
  · rw [if_pos h]
    refine bind_dev (imageSetEndAddr_dev 0) (fun endAddr s => ?_) s
    by_cases h' : startAddress < endAddr
    · rw [if_pos h', Cmd.pure_apply]
    · rw [if_neg h', Cmd.pure_apply]
  · rw [if_neg h, Cmd.pure_apply]

theorem selectTrialFwd_dev (cfg : Config) (s : Fu) : (fwUpgradeSelectTrialFwd cfg s).2.dev = s.dev := by
  have hgets : ∀ {α : Type} (f : Fu → α) (s : Fu), ((Cmd.gets f : Cmd Fu FuStatus α) s).2.dev = s.dev :=
    fun _ _ => rfl
  rw [fwUpgradeSelectTrialFwd]
  by_cases h₁ : cfg.fwdSupportNum = 1
  · rw [if_pos h₁, Cmd.fail_apply]
  rw [if_neg h₁]
  refine bind_dev (hgets _) (fun memSize s => ?_) s
  refine bind_dev firstProgrammingImage_dev (fun imgStart s => ?_) s
  refine bind_dev (hgets _) (fun current s => ?_) s
  by_cases h₂ : cfg.fwdSupportNum = 2
  · rw [if_pos h₂]
    exact regionOfTwo_dev _ _ _ s
  · rw [if_neg h₂]
    exact bind_dev (imageSetEndAddr_dev 0) (fun endAddr s => rfl) s

theorem eraseFwd_cases (f : ℕ) (s : Fu) :
    (∃ e, fwUpgradeEraseFwd f s = (.error e, s)) ∨
    (f < fwUpgradeMaxFwd ∧ fwUpgradeEraseFwd f s = (.ok (), s.writes [.erase (f * 4096)])) := by
  have hone : eraseBlocks f 1 = [.erase (f * 4096)] := by simp [eraseBlocks]
  rw [fwUpgradeEraseFwd]
  split
  · exact .inl ⟨_, rfl⟩
  rename_i hlt
  rw [drvFlashErase, hone]
  split
  · rename_i heq
    split at heq
    · cases heq
      exact .inl ⟨_, rfl⟩
    · cases heq
  · rename_i heq
    split at heq
    · cases heq
    · cases heq
      exact .inr ⟨by omega, rfl⟩

/-! ### Partitions of a session -/

theorem openPartition_cases (f id : ℕ) (e : FuStatus) (s : Session) :
    openPartition f id e s = (.error e, s) ∨
    ∃ h i en, f < fwUpgradeMaxFwd ∧ s.fu.clientEntry? = some h ∧ s.fu.dev.InFlash (f * 4096) 512 ∧
      findEntry (s.fu.dev.mem.fwd f) id = some (i, en) ∧
      openPartition f id e s = (.ok (clientOf f i en),
        { s with fu := s.fu.setHandle h (clientOf f i en), cxt := { s.cxt with partitionHdl := some h } }) := by
  rcases findPartition_cases f id s.fu with ⟨e', h⟩ | ⟨h, i, en, hf, hc, hin, hfe, heq⟩
  · left
    rw [openPartition]
    simp only [Cmd.bind_apply, Cmd.orFail, onFu, Cmd.zoom, h]
  · refine .inr ⟨h, i, en, hf, hc, hin, hfe, ?_⟩
    rw [openPartition]
    simp only [Cmd.bind_apply, Cmd.orFail, onFu, Cmd.zoom, heq, Cmd.modify_apply, Cmd.gets_apply, Session.setCxt,
      Fu.setHandle_same]

theorem locatePartition_cases (id : ℕ) (e : FuStatus) (s : Session) :
    locatePartition id e s = (.error e, s) ∨
    ∃ h i en, s.activeFwd < fwUpgradeMaxFwd ∧ s.fu.clientEntry? = some h ∧
      s.fu.dev.InFlash (s.activeFwd * 4096) 512 ∧
      findEntry (s.fu.dev.mem.fwd s.activeFwd) id = some (i, en) ∧
      locatePartition id e s = (.ok (clientOf s.activeFwd i en),
        { s with
          fu := (s.fu.setHandle h (clientOf s.activeFwd i en)).freeHandle h
          cxt := { s.cxt with partitionHdl := none } }) := by
  rcases openPartition_cases s.activeFwd id e s with h | ⟨h, i, en, hf, hc, hin, hfe, heq⟩
  · left
    rw [locatePartition, Cmd.bind_ok (Cmd.gets_apply _ _), Cmd.bind_error h]
  · refine .inr ⟨h, i, en, hf, hc, hin, hfe, ?_⟩
    rw [locatePartition, Cmd.bind_ok (Cmd.gets_apply _ _), Cmd.bind_ok heq]
    rfl

theorem create_cases (id version start size : ℕ) (s : Session) :
    createPartition id version start size s = (.error .flashCreatePartition, s) ∨
    ∃ h, s.cxt.trialFwdIdx < fwUpgradeMaxFwd ∧ (id ≠ sblImgId → start % 4096 = 0 ∧ size % 4096 = 0) ∧
      s.fu.clientEntry? = some h ∧ freeEntry (s.fu.dev.mem.fwd s.cxt.trialFwdIdx) < maxFwImageEntries ∧
      createPartition id version start size s = (.ok (),
        { s with
          fu := (s.fu.writes (pages 16
            (s.cxt.trialFwdIdx * 4096 + 32 + freeEntry (s.fu.dev.mem.fwd s.cxt.trialFwdIdx) * 16)
            (newEntry id version start size).encode)).setHandle h
              ⟨1, s.cxt.trialFwdIdx, freeEntry (s.fu.dev.mem.fwd s.cxt.trialFwdIdx), id, version, start, size⟩
          cxt := { s.cxt with partitionHdl := some h } }) := by
  rcases createPartition_cases s.cxt.trialFwdIdx id version start size s.fu with ⟨e', h⟩ |
    ⟨h, hf, hal, hc, -, hfree, heq⟩
  · left
    rw [createPartition]
    simp only [Cmd.bind_apply, Cmd.gets_apply, Cmd.orFail, onFu, Cmd.zoom, h]
  · refine .inr ⟨h, hf, hal, hc, hfree, ?_⟩
    rw [createPartition]
    simp only [Cmd.bind_apply, Cmd.gets_apply, Cmd.orFail, onFu, Cmd.zoom, heq, Cmd.modify_apply, Session.setCxt]

theorem needDownload_dev (env : Env) (a : ℕ) (h : ImageHdr) (s : Fu) : (needDownload env a h s).2.dev = s.dev := by
  rw [needDownload]
  split
  · have hd := findPartition_dev a h.imageId s
    rcases hf : fwUpgradeFindPartition a h.imageId s with ⟨e | k, s'⟩ <;> rw [hf] at hd
    · exact hd
    · exact hd
  · rfl

theorem downloadFlags_dev (env : Env) (a : ℕ) : ∀ (hs : List ImageHdr) (s : Fu),
    (downloadFlags env a hs s).2.dev = s.dev
  | [], s => rfl
  | h :: hs, s => by
    rw [downloadFlags]
    exact (downloadFlags_dev env a hs _).trans (needDownload_dev env a h s)

theorem erasePartition_eq {s : Session} {h : ℕ} (hp : s.cxt.partitionHdl = some h) {offset nbytes : ℕ}
    {r : Except FuStatus Unit} {fu' : Fu} (heq : fwUpgradeErasePartition h offset nbytes s.fu = (r, fu')) :
    ∃ r', erasePartition offset nbytes s = (r', { s with fu := fu' }) ∧ (r' = .ok () ↔ r = .ok ()) := by
  rw [erasePartition, Cmd.bind_ok (Cmd.gets_apply _ _), hp]
  simp only [Cmd.orFail, onFu, Cmd.zoom, heq]
  rcases r with e | u
  · exact ⟨_, rfl, by simp⟩
  · exact ⟨_, rfl, by simp⟩

theorem writePartition_eq {s : Session} {h : ℕ} (hp : s.cxt.partitionHdl = some h) {offset : ℕ} {b : Bytes}
    {r : Except FuStatus Unit} {fu' : Fu} (heq : fwUpgradeWritePartition h offset b s.fu = (r, fu')) :
    ∃ r', writePartition offset b s = (r', { s with fu := fu' }) ∧ (r' = .ok () ↔ r = .ok ()) := by
  rw [writePartition, Cmd.bind_ok (Cmd.gets_apply _ _), hp]
  simp only [Cmd.orFail, onFu, Cmd.zoom, heq]
  rcases r with e | u
  · exact ⟨_, rfl, by simp⟩
  · exact ⟨_, rfl, by simp⟩

end Qcc730.Upgrade
