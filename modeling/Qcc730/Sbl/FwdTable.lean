import Qcc730.Flash.Device

/-! The boot loader's view of the FWD table (`sbl_flash_fwd.c`, `boot_sbl_select_validFwd`).

    `boot_sbl_get_fwd_info` sorts the valid FWDs of the first three flash blocks into the fixed
    slots trial, current and golden of `g_sbl_info`. `boot_sbl_select_validFwd` then picks a slot:
    with no error the first valid one, after an error the next slot, unless it resets the chip.
    A software reset is the error of the commands below, since nothing after it runs. -/

namespace Qcc730.Sbl
open Lib Flash

@[simp] abbrev indexTrial : ℕ := 0
@[simp] abbrev indexCurrent : ℕ := 1
@[simp] abbrev indexGolden : ℕ := 2
@[simp] abbrev maxFwdNum : ℕ := 3

@[simp] abbrev errorSblNone : ℕ := 0
@[simp] abbrev errorSblLoadInit : ℕ := 1
@[simp] abbrev errorSblImageAuth : ℕ := 2
@[simp] abbrev errorSblImageLoad : ℕ := 3
@[simp] abbrev errorSblVerifyHash : ℕ := 4

/-- `boot_elf_load_type`. -/
inductive ElfLoadType where
  | full
  | ram
  | copy
  | max
  deriving DecidableEq, Repr

/-- `sbl_info_s`. -/
structure SblInfo where
  flashFwdTable : ℕ → Fwd
  bootFwd : ℕ → ℕ
  validFwd : ℕ
  validFwdMask : ℕ
  loadType : ElfLoadType
  otaSblExist : ℕ
  errCode : ℕ

/-- `g_sbl_info={0}`. -/
def SblInfo.zero : SblInfo where
  flashFwdTable := fun _ => Fwd.zero
  bootFwd := fun _ => 0
  validFwd := 0
  validFwdMask := 0
  loadType := .full
  otaSblExist := 0
  errCode := 0

/-- The signature and status checks of `boot_sbl_get_fwd_info` and `FWD_TABLE_IS_VALID`. -/
def FwdIsValid (f : Fwd) : Prop := f.signature = fwUpgradeMagicV1 ∧ f.status = fwdStatusValid

instance (f : Fwd) : Decidable (FwdIsValid f) := inferInstanceAs (Decidable (_ ∧ _))

/-- `FWD_TABLE_IS_VALID`. -/
def SblInfo.FwdTableIsValid (info : SblInfo) (type : ℕ) : Prop := FwdIsValid (info.flashFwdTable type)

instance (info : SblInfo) (type : ℕ) : Decidable (info.FwdTableIsValid type) :=
  inferInstanceAs (Decidable (FwdIsValid _))

/-- The slot that a rank is sorted into. -/
def slotOfRank (rank : ℕ) : ℕ :=
  if rank = 0 then indexGolden else if rank = fwdRankTrial then indexTrial else indexCurrent

/-- Bit of `valid_fwd_mask` of a slot: golden 0, current 1, trial 2. -/
def maskBit (slot : ℕ) : ℕ := 1 <<< (2 - slot)

/-- The body of the scan of `boot_sbl_get_fwd_info`. -/
def recordFwd (iSector : ℕ) (tempfwd : Fwd) (info : SblInfo) : SblInfo :=
  if FwdIsValid tempfwd then
    let slot := slotOfRank tempfwd.rank
    { info with
      flashFwdTable := Function.update info.flashFwdTable slot tempfwd
      validFwdMask := info.validFwdMask ||| maskBit slot
      bootFwd := Function.update info.bootFwd slot iSector }
  else info

/-- The scan over sectors; a failed read ends it. -/
def scanFwd (d : Dev) : List ℕ → SblInfo → SblInfo
  | [], info => info
  | iSector :: rest, info =>
    match (drvFlashRead (iSector * 4096) 512 (fun m => Fwd.decode m (iSector * 4096)) d).1 with
    | .ok tempfwd => scanFwd d rest (recordFwd iSector tempfwd info)
    | .error _ => info

/-- `boot_sbl_get_fwd_info`; its status only says whether some FWD was recorded and is printed. -/
def bootSblGetFwdInfo (d : Dev) (info : SblInfo) : SblInfo :=
  scanFwd d [0, 1, 2] { info with flashFwdTable := fun _ => Fwd.zero }

/-- `boot_sbl_find_fwd_image`. -/
def bootSblFindFwdImage (info : SblInfo) (fwdIdx imgId : ℕ) : ℕ :=
  (info.flashFwdTable fwdIdx).imageEntries.findIdx fun e => e.imageId = imgId

/-- `boot_sbl_prepare_set_fde`: the FDE, the load address and the load type for a slot. -/
def bootSblPrepareSetFde (info : SblInfo) (appFde : FdtEntry) (appLoadAddr index : ℕ) :
    SblInfo × FdtEntry × ℕ :=
  if info.FwdTableIsValid index then
    match (info.flashFwdTable index).imageEntries.find? fun e => e.imageId = appImgId with
    | some e =>
      let loadType := if appFde.addr ≠ info.bootFwd index then .full else .ram
      let rank :=
        if index = indexTrial then fdeImgRankTrial
        else if index = indexCurrent then fdeImgRankCurrent
        else if index = indexGolden then fdeImgRankGolden else appFde.rank
      ({ info with loadType },
        { appFde with
          addr := info.bootFwd index, state := fdeImgStateValid, rank, reserve0 := info.validFwdMask },
        u32 (e.startBlock * 4096))
    | none => (info, { appFde with reserve0 := info.validFwdMask }, appLoadAddr)
  else (info, appFde, appLoadAddr)

/-! ### Selection -/

/-- The software reset of `boot_sbl_sw_reset`. -/
inductive Reset where
  | reset
  deriving DecidableEq, Repr

/-- The boot loader's global state: the device and `g_sbl_info`. -/
structure SblState where
  dev : Dev
  info : SblInfo

/-- `boot_sbl_sw_reset`'s exception: there is no image left to fall back to. -/
def SblInfo.LastImage (info : SblInfo) : Prop :=
  info.validFwd = indexGolden ∨
  (info.validFwd = indexCurrent ∧ ¬info.FwdTableIsValid indexGolden) ∨
  (info.validFwd = indexTrial ∧ ¬info.FwdTableIsValid indexCurrent)

instance (info : SblInfo) : Decidable info.LastImage := inferInstanceAs (Decidable (_ ∨ _ ∨ _))

/-- `boot_sbl_sw_reset`. -/
def bootSblSwReset : Cmd SblState Reset Unit := Cmd.when (fun s => ¬s.info.LastImage) (Cmd.fail .reset)

/-- `boot_sbl_update_fwd`. The test of the read's status is the source's: the status is cleared
    only after a read that failed, which leaves the zeroed `flash_fwd` as it was. -/
def bootSblUpdateFwd (sector : ℕ) : Cmd Dev FlashStatus Unit := do
  match ← Cmd.attempt (drvFlashRead (sector * 4096) 512 fun m => Fwd.decode m (sector * 4096)) with
  | .error (_ : FlashStatus) =>
    let flashFwd := Fwd.zero
    if flashFwd.status ≠ 0 then
      drvFlashWrite (sector * 4096) ({ flashFwd with status := 0 }.encode (List.replicate 18 0))
    else pure ()
  | .ok _ => pure ()

/-- Mark a slot of the RAM table invalid. -/
def SblInfo.invalidate (info : SblInfo) (slot : ℕ) : SblInfo :=
  { info with
    flashFwdTable := Function.update info.flashFwdTable slot { info.flashFwdTable slot with status := 0 } }

/-- The first valid slot of the RAM table. -/
def SblInfo.firstValid (info : SblInfo) : ℕ :=
  if info.FwdTableIsValid indexTrial then indexTrial
  else if info.FwdTableIsValid indexCurrent then indexCurrent
  else if info.FwdTableIsValid indexGolden then indexGolden
  else maxFwdNum

/-- Slot `i` chosen, with `ota_sbl_exist` set to `ota`. -/
def SblInfo.choose (info : SblInfo) (i ota : ℕ) : SblInfo :=
  { info with validFwd := i, otaSblExist := ota }

/-- The slot used instead of a trial slot whose SBL was reverted; that slot again if there is no
    other. -/
def SblInfo.afterRevert (info : SblInfo) : ℕ :=
  if info.FwdTableIsValid indexCurrent then indexCurrent
  else if info.FwdTableIsValid indexGolden then indexGolden
  else info.validFwd

/-- `boot_sbl_select_validFwd` with no error pending. `sblRank` is `sbl_fde_content.rank`. -/
def selectFirst (sblRank : ℕ) (info : SblInfo) : ℕ × SblInfo :=
  if info.firstValid = maxFwdNum then (maxFwdNum, info)
  else
    let info := info.choose info.firstValid (bootSblFindFwdImage info info.firstValid sblImgId)
    if info.otaSblExist ≠ maxFwImageEntries ∧ sblRank = fdeImgRankCurrent ∧
        info.validFwd = indexTrial then
      -- the trial SBL failed and was reverted: its APP is not tried again
      let info := info.invalidate info.validFwd
      (info.afterRevert, { info with validFwd := info.afterRevert })
    else (info.validFwd, info)

/-- Change `g_sbl_info`. -/
def modifyInfo (f : SblInfo → SblInfo) : Cmd SblState Reset Unit :=
  Cmd.modify fun s => { s with info := f s.info }

/-- `boot_sbl_select_validFwd` with an error pending. -/
def selectNext : Cmd SblState Reset ℕ := do
  Cmd.when (fun s => s.info.otaSblExist ≠ maxFwImageEntries ∨ s.info.validFwd = indexGolden) (do
    modifyInfo fun info => { info with errCode := errorSblNone }
    bootSblSwReset)
  Cmd.when (fun s => s.info.errCode >>> errorSblImageLoad ≠ 0 ∧ s.info.validFwd < maxFwdNum) (do
    Cmd.modify fun s => { s with dev := (bootSblUpdateFwd (s.info.bootFwd s.info.validFwd) s.dev).2 }
    bootSblSwReset)
  Cmd.when (fun s => s.info.validFwd < maxFwdNum)
    (modifyInfo fun info => { info.invalidate info.validFwd with
      errCode := errorSblNone, validFwd := info.validFwd + 1 })
  Cmd.gets fun s => s.info.validFwd

/-- `boot_sbl_select_validFwd`. -/
def bootSblSelectValidFwd (sblRank : ℕ) : Cmd SblState Reset ℕ := fun s =>
  if s.info.errCode ≠ errorSblNone then selectNext s
  else
    let (i, info) := selectFirst sblRank s.info
    (.ok i, { s with info })

/-! ### The first selection -/

/-- The trial slot is valid and its SBL has not been reverted. -/
def SblInfo.TrialUsable (info : SblInfo) (sblRank : ℕ) : Prop :=
  info.FwdTableIsValid indexTrial ∧
    ¬(bootSblFindFwdImage info indexTrial sblImgId ≠ maxFwImageEntries ∧ sblRank = fdeImgRankCurrent)

instance (info : SblInfo) (sblRank : ℕ) : Decidable (info.TrialUsable sblRank) :=
  inferInstanceAs (Decidable (_ ∧ _))

theorem SblInfo.invalidate_valid {info : SblInfo} {i j : ℕ} (h : j ≠ i) :
    (info.invalidate i).FwdTableIsValid j ↔ info.FwdTableIsValid j := by
  simp [SblInfo.FwdTableIsValid, SblInfo.invalidate, Function.update_of_ne h]

theorem selectFirst_none {info : SblInfo} {sblRank : ℕ} (h : info.firstValid = maxFwdNum) :
    selectFirst sblRank info = (maxFwdNum, info) := if_pos h

theorem selectFirst_trial {info : SblInfo} {sblRank : ℕ} (h : info.TrialUsable sblRank) :
    selectFirst sblRank info =
      (indexTrial, info.choose indexTrial (bootSblFindFwdImage info indexTrial sblImgId)) := by
  have hf : info.firstValid = indexTrial := if_pos h.1
  rw [selectFirst, hf, if_neg (by decide)]
  exact if_neg fun h' => h.2 ⟨h'.1, h'.2.1⟩

/-- Without a valid trial slot, the first valid one is chosen and its own SBL entry looked up. -/
theorem selectFirst_noTrial {info : SblInfo} {sblRank : ℕ} (h : ¬info.FwdTableIsValid indexTrial)
    (hf : info.firstValid ≠ maxFwdNum) :
    selectFirst sblRank info =
      (info.firstValid, info.choose info.firstValid (bootSblFindFwdImage info info.firstValid sblImgId)) := by
  have hne : info.firstValid ≠ indexTrial := by
    rw [SblInfo.firstValid, if_neg h]
    split_ifs <;> simp
  rw [selectFirst, if_neg hf]
  exact if_neg fun h' => hne h'.2.2

/-- The table once the trial slot has been given up for its reverted SBL. -/
def SblInfo.revert (info : SblInfo) : SblInfo :=
  (info.choose indexTrial (bootSblFindFwdImage info indexTrial sblImgId)).invalidate indexTrial

theorem selectFirst_reverted {info : SblInfo} {sblRank : ℕ} (h : info.FwdTableIsValid indexTrial)
    (hu : ¬info.TrialUsable sblRank) :
    bootSblFindFwdImage info indexTrial sblImgId ≠ maxFwImageEntries ∧
    selectFirst sblRank info =
      (info.revert.afterRevert, { info.revert with validFwd := info.revert.afterRevert }) := by
  have hr : bootSblFindFwdImage info indexTrial sblImgId ≠ maxFwImageEntries ∧
      sblRank = fdeImgRankCurrent := by
    by_contra hr
    exact hu ⟨h, hr⟩
  have hf : info.firstValid = indexTrial := if_pos h
  refine ⟨hr.1, ?_⟩
  rw [selectFirst, hf, if_neg (by decide)]
  exact if_pos ⟨hr.1, hr.2, rfl⟩

theorem SblInfo.revert_valid (info : SblInfo) {j : ℕ} (h : j ≠ indexTrial) :
    info.revert.FwdTableIsValid j ↔ info.FwdTableIsValid j := SblInfo.invalidate_valid h

theorem selectFirst_errCode (sblRank : ℕ) (info : SblInfo) :
    (selectFirst sblRank info).2.errCode = info.errCode := by
  simp only [selectFirst]
  split_ifs <;> rfl

theorem SblInfo.firstValid_le (info : SblInfo) : info.firstValid ≤ maxFwdNum := by
  rw [SblInfo.firstValid]
  split_ifs <;> decide

theorem selectFirst_validFwd_lt {info : SblInfo} (sblRank : ℕ) (h : info.validFwd < maxFwdNum) :
    (selectFirst sblRank info).2.validFwd < maxFwdNum := by
  by_cases hn : info.firstValid = maxFwdNum
  · rw [selectFirst_none hn]
    exact h
  · have hf := lt_of_le_of_ne info.firstValid_le hn
    simp only [selectFirst, if_neg hn]
    split
    · simp only [SblInfo.afterRevert]
      split_ifs
      · decide
      · decide
      · exact hf
    · exact hf

/-! ### What selection does after an error -/

/-- `boot_sbl_update_fwd` never writes: a read that succeeds skips the update, and one that fails
    leaves a zero status. -/
theorem bootSblUpdateFwd_apply (sector : ℕ) (d : Dev) : bootSblUpdateFwd sector d = (.ok (), d) := by
  simp only [bootSblUpdateFwd, Cmd.bind_apply, Cmd.attempt, drvFlashRead]
  split
  · rfl
  · simp [Fwd.zero]

/-- The table after the slot in use has failed. -/
def SblInfo.rollback (info : SblInfo) : SblInfo :=
  { info.invalidate info.validFwd with errCode := errorSblNone, validFwd := info.validFwd + 1 }

/-- The pending error ends in a reset, if there is an image left: the booted FWD brought its own
    SBL, or the load was already under way. -/
def SblInfo.WantsReset (info : SblInfo) : Prop :=
  info.otaSblExist ≠ maxFwImageEntries ∨
    (info.errCode >>> errorSblImageLoad ≠ 0 ∧ info.validFwd < maxFwdNum)

instance (info : SblInfo) : Decidable info.WantsReset := inferInstanceAs (Decidable (_ ∨ _))

/-- Clearing the error does not change which image is the last. -/
theorem SblInfo.lastImage_clear (info : SblInfo) :
    { info with errCode := errorSblNone }.LastImage ↔ info.LastImage := Iff.rfl

theorem selectNext_reset {s : SblState} (hl : ¬s.info.LastImage) (hw : s.info.WantsReset) :
    ∃ s', selectNext s = (.error .reset, s') ∧ s'.dev = s.dev := by
  have hg : ¬s.info.validFwd = indexGolden := fun h => hl (.inl h)
  by_cases ho : s.info.otaSblExist = maxFwImageEntries
  · have hw' := hw.resolve_left (not_not.mpr ho)
    simp [selectNext, Cmd.bind_apply, Cmd.when, bootSblSwReset, bootSblUpdateFwd_apply, ho, hg, hw', hl]
  · simp [selectNext, Cmd.bind_apply, Cmd.when, bootSblSwReset, modifyInfo, ho, SblInfo.lastImage_clear, hl]

/-- With no reset the next slot is taken, whether or not it is valid. -/
theorem selectNext_rollback {s : SblState} (hv : s.info.validFwd < maxFwdNum)
    (h : s.info.LastImage ∨ ¬s.info.WantsReset) :
    selectNext s = (.ok (s.info.validFwd + 1), { s with info := s.info.rollback }) := by
  by_cases h1 : s.info.otaSblExist ≠ maxFwImageEntries ∨ s.info.validFwd = indexGolden
  · -- the error is cleared first, so the second test finds none
    have hl : s.info.LastImage := by
      rcases h with h | h
      · exact h
      · exact .inl (h1.resolve_left fun ho => h (.inl ho))
    simp only [selectNext, Cmd.bind_apply, Cmd.when, bootSblSwReset, modifyInfo, Cmd.modify_apply,
      if_pos h1, SblInfo.lastImage_clear, hl]
    simp [hv, SblInfo.rollback, SblInfo.invalidate]
  · by_cases h2 : s.info.errCode >>> errorSblImageLoad ≠ 0 ∧ s.info.validFwd < maxFwdNum
    · have hl : s.info.LastImage := h.resolve_right (not_not.mpr (.inr h2))
      simp only [selectNext, Cmd.bind_apply, Cmd.when, bootSblSwReset, modifyInfo, Cmd.modify_apply,
        if_neg h1, if_pos h2, bootSblUpdateFwd_apply, hl]
      simp [hv, SblInfo.rollback, SblInfo.invalidate]
    · simp only [selectNext, Cmd.bind_apply, Cmd.when, modifyInfo, if_neg h1, if_neg h2, if_pos hv,
        Cmd.modify_apply, Cmd.gets_apply]
      rfl

/-- Past the last slot nothing changes any more. -/
theorem selectNext_end {s : SblState} (hv : maxFwdNum ≤ s.info.validFwd)
    (ho : s.info.otaSblExist = maxFwImageEntries) : selectNext s = (.ok s.info.validFwd, s) := by
  have hg : ¬s.info.validFwd = indexGolden := fun h => by simp [h] at hv
  have hv' : ¬s.info.validFwd < maxFwdNum := not_lt.mpr hv
  simp [selectNext, Cmd.bind_apply, Cmd.when, ho, hg, hv']

end Qcc730.Sbl
