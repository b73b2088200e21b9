import Qcc730.Sbl.Loader

/-! What a failed load means for the next boot.

    `boot_sbl_select_validFwd` answers a load or hash error with `boot_sbl_update_fwd` and a software
    reset. The update is meant to take the failed FWD out of the next boot's choice. It never
    writes, so the next boot sees the same table and selects the same sector. -/

namespace Qcc730.Sbl
open Lib Flash

/-- The sector a boot selects first, if any: `boot_sbl_get_fwd_info`, then
    `boot_sbl_select_validFwd` with no error. -/
def selectedSector (sblRank : ℕ) (d : Dev) : Option ℕ :=
  let (i, info) := selectFirst sblRank (bootSblGetFwdInfo d SblInfo.zero)
  if i < maxFwdNum then some (info.bootFwd i) else none

/-- The slot after the one a boot selects, in the order trial, current, golden, is not valid. -/
def SblInfo.NoNextSlot (info : SblInfo) (sblRank : ℕ) : Prop :=
  (info.TrialUsable sblRank → ¬info.FwdTableIsValid indexCurrent) ∧
  (¬info.TrialUsable sblRank → info.FwdTableIsValid indexCurrent → ¬info.FwdTableIsValid indexGolden)

instance (info : SblInfo) (sblRank : ℕ) : Decidable (info.NoNextSlot sblRank) :=
  inferInstanceAs (Decidable (_ ∧ _))

/-! ### The table depends on flash only -/

theorem scanFwd_congr {d d' : Dev} (hf : d'.mem.flash = d.mem.flash)
    (hn : d'.densityInBlocks = d.densityInBlocks) : ∀ (ss : List ℕ) (info : SblInfo),
    scanFwd d' ss info = scanFwd d ss info
  | [], _ => rfl
  | s :: ss, info => by
    rw [scanFwd, scanFwd, drvFlashRead_congr _ _ _ hf hn]
    split
    · exact scanFwd_congr hf hn ss _
    · rfl

theorem selectedSector_congr {d d' : Dev} (sblRank : ℕ) (hf : d'.mem.flash = d.mem.flash)
    (hn : d'.densityInBlocks = d.densityInBlocks) :
    selectedSector sblRank d' = selectedSector sblRank d := by
  rw [selectedSector, selectedSector, bootSblGetFwdInfo, bootSblGetFwdInfo, scanFwd_congr hf hn]

/-! ### The first selection -/

/-- The slot in use after the first selection is the last to try exactly when the slot after it is
    not valid. -/
theorem selectFirst_lastImage {info : SblInfo} (sblRank : ℕ) (h0 : info.validFwd = 0) :
    (selectFirst sblRank info).2.LastImage ↔ info.NoNextSlot sblRank := by
  by_cases hu : info.TrialUsable sblRank
  · rw [selectFirst_trial hu]
    simp [SblInfo.LastImage, SblInfo.choose, SblInfo.NoNextSlot, hu, SblInfo.FwdTableIsValid]
  by_cases ht : info.FwdTableIsValid indexTrial
  · have h1 := info.revert_valid (show indexCurrent ≠ indexTrial by decide)
    have h2 := info.revert_valid (show indexGolden ≠ indexTrial by decide)
    have hv : info.revert.validFwd = indexTrial := rfl
    rw [(selectFirst_reverted ht hu).2]
    simp only [SblInfo.NoNextSlot, hu, SblInfo.LastImage, SblInfo.afterRevert, SblInfo.FwdTableIsValid] at *
    by_cases v1 : FwdIsValid (info.flashFwdTable indexCurrent)
    · simp_all
    · by_cases v2 : FwdIsValid (info.flashFwdTable indexGolden) <;> simp_all
  · simp only [SblInfo.NoNextSlot, hu]
    by_cases v1 : info.FwdTableIsValid indexCurrent
    · have hf : info.firstValid = indexCurrent := by simp [SblInfo.firstValid, ht, v1]
      rw [selectFirst_noTrial ht (by simp [hf]), hf]
      simp [SblInfo.LastImage, SblInfo.choose, SblInfo.FwdTableIsValid] at *
      simp [v1]
    · by_cases v2 : info.FwdTableIsValid indexGolden
      · have hf : info.firstValid = indexGolden := by simp [SblInfo.firstValid, ht, v1, v2]
        rw [selectFirst_noTrial ht (by simp [hf]), hf]
        simp [SblInfo.LastImage, SblInfo.choose, v1]
      · have hf : info.firstValid = maxFwdNum := by simp [SblInfo.firstValid, ht, v1, v2]
        rw [selectFirst_none hf]
        simp [SblInfo.LastImage, h0, v1]

/-! ### A load error and the boot after it -/

/-- After a load or hash error in the first round, the second round resets exactly when the chosen
    slot is not the last, and flash is as it was. -/
theorem loaderLoop_second_round (sblRank : ℕ) {f : Fault} (d : Dev) (hf : errorSblImageLoad ≤ f.code)
    (next : Option Fault) :
    ((bootSblGetFwdInfo d SblInfo.zero).NoNextSlot sblRank ∧
      (loaderLoop sblRank [some f, next] (Loader.start d)).1 ≠ .error .reset) ∨
    (¬(bootSblGetFwdInfo d SblInfo.zero).NoNextSlot sblRank ∧
      ∃ s', loaderLoop sblRank [some f, next] (Loader.start d) = (.error .reset, s') ∧
        s'.sbl.dev.mem.flash = d.mem.flash ∧ s'.sbl.dev.densityInBlocks = d.densityInBlocks) := by
  obtain ⟨ha, he, hflash, hdens⟩ := firstRound_agrees sblRank (some f) d
  set s := firstRound sblRank (some f) d with hs
  have hcode : faultBit (some f) ≠ 0 ∧ faultBit (some f) >>> errorSblImageLoad ≠ 0 := by
    cases f <;> simp_all [Fault.code, faultBit]
  have ha' := s.forceFull_agrees.trans ha
  have hlast := ha'.lastImage.trans (selectFirst_lastImage sblRank (bootSblGetFwdInfo_validFwd d))
  have hlt : s.forceFull.info.validFwd < maxFwdNum := by
    rw [ha'.validFwd]
    exact selectFirst_validFwd_lt sblRank (by simp [Loader.start])
  have herr : s.forceFull.info.errCode = faultBit (some f) := by rw [s.forceFull_errCode, he]
  rw [loaderLoop_start, if_neg (by rw [← hs, he]; exact hcode.1), ← hs, loaderLoop_cons,
    bootSblSelectValidFwd, if_pos (by rw [herr]; exact hcode.1)]
  by_cases hn : s.forceFull.info.LastImage
  · refine .inl ⟨hlast.mp hn, ?_⟩
    rw [selectNext_rollback hlt (.inl hn)]
    simp only [loaderLoop]
    split <;> simp
  · obtain ⟨s', hs', hdev⟩ := selectNext_reset hn (.inr ⟨by rw [herr]; exact hcode.2, hlt⟩)
    refine .inr ⟨mt hlast.mpr hn, _, by rw [hs'], ?_⟩
    simp only [hdev, s.forceFull_dev]
    exact ⟨hflash, hdens⟩

theorem loaderStart_second_round (pbl : PblShare) {f : Fault} {d : Dev} (hf : errorSblImageLoad ≤ f.code)
    (hfmt : (appFde d.mem.fdt).format = fdeImgFormatElf) (next : Option Fault) :
    ((bootSblGetFwdInfo d SblInfo.zero).NoNextSlot pbl.sblFdeContent.rank ∧
      (loaderStart pbl [some f, next] d).1 ≠ .error .reset) ∨
    (¬(bootSblGetFwdInfo d SblInfo.zero).NoNextSlot pbl.sblFdeContent.rank ∧
      ∃ s', loaderStart pbl [some f, next] d = (.error .reset, s') ∧
        s'.sbl.dev.mem.flash = d.mem.flash ∧ s'.sbl.dev.densityInBlocks = d.densityInBlocks) := by
  rw [loaderStart, if_pos hfmt, Cmd.bind_apply]
  rcases loaderLoop_second_round pbl.sblFdeContent.rank d hf next with
    ⟨hn, hne⟩ | ⟨hn, s', hs', hd⟩
  · refine .inl ⟨hn, ?_⟩
    rcases hl : loaderLoop pbl.sblFdeContent.rank [some f, next] (Loader.start d) with ⟨_ | booted, s'⟩
    · rw [hl] at hne
      exact hne
    · cases booted <;> simp [Cmd.bind_apply]
  · exact .inr ⟨hn, s', by rw [hs'], hd⟩

/-- The boot after a load or hash error does not go back to the failed sector exactly when there was
    no reset, that is when the slot after the selected one is not valid. In every other case the
    table is unchanged and the same sector is selected again. -/
theorem reset_selects_other_iff (pbl : PblShare) (f : Fault) (d : Dev) (hf : errorSblImageLoad ≤ f.code)
    (hfmt : (appFde d.mem.fdt).format = fdeImgFormatElf) :
    (∀ (next : Option Fault) (pbl' : PblShare) (s' : Loader),
      loaderStart pbl [some f, next] d = (.error .reset, s') →
      selectedSector pbl'.sblFdeContent.rank s'.sbl.dev ≠ selectedSector pbl.sblFdeContent.rank d) ↔
    (bootSblGetFwdInfo d SblInfo.zero).NoNextSlot pbl.sblFdeContent.rank := by
  constructor
  · intro h
    rcases loaderStart_second_round pbl hf hfmt none with ⟨hn, -⟩ | ⟨-, s', hs', hflash, hdens⟩
    · exact hn
    · exact absurd (selectedSector_congr _ hflash hdens) (h none pbl s' hs')
  · intro hn next pbl' s' hs'
    rcases loaderStart_second_round pbl hf hfmt next with ⟨-, hne⟩ | ⟨hn', -⟩
    · exact absurd (by rw [hs']) hne
    · exact absurd hn hn'

/-- A block that starts with a valid FWD of the given rank, with one APP entry. -/
def appFwdBlock (rank startBlock : ℕ) : Bytes :=
  Fwd.encode ⟨fwUpgradeMagicV1, 1, rank, fwdStatusValid, 1, [⟨appImgId, startBlock, 1, 1⟩]⟩
    (List.replicate 18 0xFF)

/-- An FDT with one APP entry that records sector 0 as booted. -/
def oneAppFdt : Fdt := ⟨fdtSignature, 1, fun _ => ⟨fdeImgIdApp, fdeImgRankCurrent, fdeImgFormatElf, 0, 1, 0, 0, 0⟩⟩

/-- A current FWD in sector 0, a golden one in sector 1. -/
def currentAndGolden : Dev where
  mem := ⟨Memory.ofBlocks [appFwdBlock 1 3, appFwdBlock 0 4], fun _ => 0, oneAppFdt⟩
  log := []
  densityInBlocks := 1024
  rramOk := fun _ _ => true

def currentSbl : PblShare := ⟨⟨fdeImgIdSbl, fdeImgRankCurrent, 0, 0x200000, 1, 0, 0, 0⟩, 1⟩

/-- A trial FWD in sector 0, a golden one in sector 1, and no current one: no reset. -/
def trialAndGolden : Dev :=
  { currentAndGolden with
    mem := { currentAndGolden.mem with
      flash := Memory.ofBlocks [appFwdBlock fwdRankTrial 3, appFwdBlock 0 4] } }

theorem reset_selects_other_trialAndGolden :
    (bootSblGetFwdInfo trialAndGolden SblInfo.zero).NoNextSlot currentSbl.sblFdeContent.rank ∧
    ∀ (next : Option Fault) (pbl' : PblShare) (s' : Loader),
      loaderStart currentSbl [some .hash, next] trialAndGolden = (.error .reset, s') →
      selectedSector pbl'.sblFdeContent.rank s'.sbl.dev ≠
        selectedSector currentSbl.sblFdeContent.rank trialAndGolden := by
  have hn : (bootSblGetFwdInfo trialAndGolden SblInfo.zero).NoNextSlot currentSbl.sblFdeContent.rank := by
    decide +kernel
  exact ⟨hn, (reset_selects_other_iff currentSbl .hash trialAndGolden (by decide) (by decide +kernel)).mpr hn⟩

/-- Two bootable FWDs, no SBL entry in the selected one, a load error, a reset, and the failed sector
    is selected again. -/
theorem load_error_reselects_current :
    (∀ i ∈ [indexCurrent, indexGolden],
      (bootSblGetFwdInfo currentAndGolden SblInfo.zero).FwdTableIsValid i ∧
      bootSblFindFwdImage (bootSblGetFwdInfo currentAndGolden SblInfo.zero) i appImgId ≠ maxFwImageEntries ∧
      bootSblFindFwdImage (bootSblGetFwdInfo currentAndGolden SblInfo.zero) i sblImgId = maxFwImageEntries) ∧
    ∃ s', loaderStart currentSbl [some (.load 0), none] currentAndGolden = (.error .reset, s') ∧
      selectedSector currentSbl.sblFdeContent.rank currentAndGolden = some 0 ∧
      selectedSector currentSbl.sblFdeContent.rank s'.sbl.dev = some 0 := by
  have h0 : selectedSector currentSbl.sblFdeContent.rank currentAndGolden = some 0 := by decide +kernel
  refine ⟨by decide +kernel, ?_⟩
  rcases loaderStart_second_round currentSbl (f := .load 0) (d := currentAndGolden)
    (by decide) (by decide +kernel) none with ⟨hn, -⟩ | ⟨-, s', hs', hflash, hdens⟩
  · exact absurd hn (by decide +kernel)
  · exact ⟨s', hs', h0, (selectedSector_congr _ hflash hdens).trans h0⟩

end Qcc730.Sbl
