import Qcc730.Upgrade.Partition

/-! Which FWD is active, which is current, which is on trial (`fw_upgrade_mem.c`).

    The running application reads the FDT to learn which FWD was booted, and scans the FWDs to find
    the trial and the current one. `fw_upgrade_select_trial_fwd` picks the slot and the flash region
    of the next upgrade; `fw_upgrade_accept_trial_fwd` and `fw_upgrade_reject_trial_fwd` end a trial
    by programming rank and status bytes, which flash lets them do without erasing. -/

namespace Qcc730.Upgrade
open Lib Flash

/-- The build configuration. -/
structure Config where
  /-- `CONFIG_FW_UPGRADE_FWD_SUPPORT_NUM` -/
  fwdSupportNum : ℕ
  /-- `CONFIG_FW_UPGRADE_NO_FS` -/
  noFs : Bool
  /-- `SBL_MEM_SIZE` -/
  sblMemSize : ℕ

/-- `fw_upgrade_fwd_info_t`. -/
inductive FwdInfo where
  | magic
  | version
  | rank
  | status
  | totalImage
  deriving DecidableEq, Repr

def FwdInfo.offset : FwdInfo → ℕ
  | .magic => 0
  | .version => 4
  | .rank => 8
  | .status => 12
  | .totalImage => 13

/-- The bytes of a field value. -/
def FwdInfo.encode : FwdInfo → ℕ → Bytes
  | .status, v => [UInt8.ofNat v]
  | .totalImage, v => [UInt8.ofNat v]
  | _, v => le32 v

/-- The field of the FWD at address `a`. -/
def FwdInfo.decode (m : Memory) (a : ℕ) : FwdInfo → ℕ
  | .magic => m.word a
  | .version => m.word (a + 4)
  | .rank => m.word (a + 8)
  | .status => (m (a + 12)).toNat
  | .totalImage => (m (a + 13)).toNat

def FwdInfo.byteCnt : FwdInfo → ℕ
  | .status => 1
  | .totalImage => 1
  | _ => 4

/-- `fw_upgrade_get_fwd_info`. -/
def fwUpgradeGetFwdInfo (d : Dev) (fwdIdx : ℕ) (info : FwdInfo) : Except FuStatus ℕ :=
  if fwUpgradeMaxFwd ≤ fwdIdx then .error .invalidParam
  else match (drvFlashRead (fwdIdx * 4096 + info.offset) info.byteCnt
      (fun m => info.decode m (fwdIdx * 4096)) d).1 with
    | .error _ => .error .error
    | .ok v => .ok v

/-- `fw_upgrade_set_fwd_info`. -/
def fwUpgradeSetFwdInfo (fwdIdx : ℕ) (info : FwdInfo) (value : ℕ) : Cmd Fu FuStatus Unit := fun s =>
  if fwUpgradeMaxFwd ≤ fwdIdx then (.error .invalidParam, s)
  else match drvFlashWrite (fwdIdx * 4096 + info.offset) (info.encode value) s.dev with
    | (.error _, dev) => (.error .error, { s with dev })
    | (.ok _, dev) => (.ok (), { s with dev })

/-- `fw_upgrade_erase_fwd`. -/
def fwUpgradeEraseFwd (fwdIdx : ℕ) : Cmd Fu FuStatus Unit := fun s =>
  if fwUpgradeMaxFwd ≤ fwdIdx then (.error .invalidParam, s)
  else match drvFlashErase fwdIdx 1 s.dev with
    | (.error _, dev) => (.error .error, { s with dev })
    | (.ok _, dev) => (.ok (), { s with dev })

/-- The first APP entry of the FDT. -/
def appFdeIdx? (fdt : Fdt) : Option ℕ :=
  if fdt.Valid then fdt.findIdx? fun e => e.id == fdeImgIdApp else none

/-- `fw_upgrade_get_active_fwd(NULL, NULL)`. -/
def fwUpgradeGetActiveFwd (fdt : Fdt) : ℕ :=
  match appFdeIdx? fdt with
  | some i => (fdt.fde i).addr % 256
  | none => fwUpgradeInvalidFwd

@[simp] abbrev fwdBootTypeGolden : ℕ := 1
@[simp] abbrev fwdBootTypeCurrent : ℕ := 2
@[simp] abbrev fwdBootTypeTrial : ℕ := 4

/-- What `fw_upgrade_get_active_fwd` stores through `fwd_boot_type`, if anything. -/
def fwdBootType? (fdt : Fdt) : Option ℕ :=
  match appFdeIdx? fdt with
  | some i =>
    if (fdt.fde i).rank = fdeImgRankGolden then some fwdBootTypeGolden
    else if (fdt.fde i).rank = fdeImgRankCurrent then some fwdBootTypeCurrent
    else if (fdt.fde i).rank = fdeImgRankTrial then some fwdBootTypeTrial
    else none
  | none => none

/-! ### Scanning the FWDs -/

/-- The four fields that the scans read. -/
structure FwdHdr where
  magic : ℕ
  rank : ℕ
  status : ℕ
  imageNums : ℕ

def readFwdHdr (d : Dev) (i : ℕ) : Except FuStatus FwdHdr := do
  let magic ← fwUpgradeGetFwdInfo d i .magic
  let rank ← fwUpgradeGetFwdInfo d i .rank
  let status ← fwUpgradeGetFwdInfo d i .status
  let imageNums ← fwUpgradeGetFwdInfo d i .totalImage
  return ⟨magic, rank, status, imageNums⟩

/-- The scans' validity check. -/
def FwdHdr.Valid (h : FwdHdr) : Prop :=
  h.magic = fwUpgradeMagicV1 ∧ h.status = fwdStatusValid ∧ 0 < h.imageNums ∧ h.imageNums ≠ 0xFF

instance (h : FwdHdr) : Decidable h.Valid := inferInstanceAs (Decidable (_ ∧ _ ∧ _ ∧ _))

@[simp] abbrev fwdTrialUnused : ℕ := 0xFF

/-- The outputs of `fw_upgrade_get_trial_active_fwd_index`. -/
structure TrialActive where
  trial : ℕ
  current : ℕ
  rank : ℕ
  deriving DecidableEq, Repr

/-- The loop body: note a trial FWD, or a FWD of higher rank than any before. -/
def TrialActive.note (r : TrialActive) (i : ℕ) (h : FwdHdr) : TrialActive :=
  if h.Valid then
    if h.rank = fwdRankTrial then { r with trial := i }
    else if r.rank < h.rank then { r with rank := h.rank, current := i }
    else r
  else r

/-- The loop; a failed read leaves it with what was found so far. -/
def scanTrialActive (d : Dev) : List ℕ → TrialActive → TrialActive × Bool
  | [], r => (r, true)
  | i :: rest, r =>
    match readFwdHdr d i with
    | .error _ => (r, false)
    | .ok h => scanTrialActive d rest (r.note i h)

/-- `fw_upgrade_get_trial_active_fwd_index`: its outputs and whether it returns OK. -/
def fwUpgradeGetTrialActiveFwdIndex (cfg : Config) (d : Dev) : TrialActive × Bool :=
  let r : TrialActive := ⟨fwdTrialUnused, 0, 0⟩
  if cfg.fwdSupportNum = 1 then (r, false)
  else
    let (r, ok) :=
      if cfg.fwdSupportNum = 2 then scanTrialActive d [0, 1] r
      else match fwUpgradeGetFwdInfo d 0 .rank with
        | .error _ => (r, false)
        | .ok rank => scanTrialActive d [1, 2] { r with rank }
    (r, ok && r.trial != fwdTrialUnused)

/-- `fw_upgrade_get_current_index`. -/
def scanCurrent (d : Dev) : List ℕ → Option ℕ
  | [] => none
  | i :: rest =>
    match readFwdHdr d i with
    | .error _ => none
    | .ok h =>
      if h.Valid ∧ h.rank ≠ fwdRankTrial ∧ 0 < h.rank then some i else scanCurrent d rest

def fwUpgradeGetCurrentIndex (cfg : Config) (d : Dev) : Option ℕ :=
  scanCurrent d (List.range cfg.fwdSupportNum)

/-! ### The slot and region of the next upgrade -/

/-- End address of a partition of the active FWD, if it can be opened; the handle is given back. -/
def partitionEnd (fwdIdx id : ℕ) : Cmd Fu FuStatus (Option ℕ) := fun s =>
  match fwUpgradeFindPartition fwdIdx id s with
  | (.ok h, s') => (.ok (some (u32 ((s'.handles h).imgStart + (s'.handles h).imgSize))), s'.freeHandle h)
  | (.error _, s') => (.ok none, s')

/-- `fw_upgrade_get_first_programming_image_start_address`. -/
def fwUpgradeGetFirstProgrammingImageStartAddress : Cmd Fu FuStatus ℕ := do
  let current ← Cmd.gets fun s => fwUpgradeGetActiveFwd s.dev.mem.fdt
  let fs1 ← partitionEnd current fs1ImgId
  let fs2 ← partitionEnd current fs2ImgId
  let ramdump ← partitionEnd current ramdumpImgId
  let userdata ← partitionEnd current userdataImgId
  let imgStart := [fs1, fs2, ramdump, userdata].foldl (fun m e => max m (e.getD 0)) 0
  return max imgStart (fwUpgradeMaxFwd * 4096)

/-- The loop of `fw_upgrade_get_imageSet_end_addr`; `hdl` is the handle of the entry last looked at. -/
def imageSetEndLoop : ℕ → ℕ → ℕ → Cmd Fu FuStatus ℕ
  | 0, hdl, endAddr => fun s => (.ok endAddr, s.freeHandle hdl)
  | n + 1, hdl, endAddr => fun s =>
    match fwUpgradeNextPartition hdl s with
    | (.error _, s') => (.ok endAddr, s'.freeHandle hdl)
    | (.ok next, s') =>
      let c := s'.handles next
      let rtnAddr := u32 (c.imgStart + c.imgSize)
      imageSetEndLoop n next (if c.imgId ≠ sblImgId then max endAddr rtnAddr else endAddr)
        (s'.freeHandle hdl)

/-- `fw_upgrade_get_imageSet_end_addr`. -/
def fwUpgradeGetImageSetEndAddr (fwdNum : ℕ) : Cmd Fu FuStatus ℕ := fun s =>
  let magic := (fwUpgradeGetFwdInfo s.dev fwdNum .magic).toOption.getD 0
  if magic = fwUpgradeMagicV1 then
    match fwUpgradeFirstPartition fwdNum s with
    | (.error _, s') => (.error .error, s')
    | (.ok hdl, s') =>
      let c := s'.handles hdl
      imageSetEndLoop maxFwImageEntries hdl
        (if c.imgId ≠ sblImgId then u32 (c.imgStart + c.imgSize) else 0) s'
  else (.error .error, s)

/-- The outputs of `fw_upgrade_select_trial_fwd`. -/
structure TrialRegion where
  fwdIndex : ℕ
  startAddress : ℕ
  size : ℕ
  deriving DecidableEq, Repr

/-- `fw_upgrade_select_trial_fwd`. -/
def fwUpgradeSelectTrialFwd (cfg : Config) : Cmd Fu FuStatus TrialRegion := do
  if cfg.fwdSupportNum = 1 then Cmd.fail .error
  else
    let memSize ← Cmd.gets fun s => u32 (s.dev.densityInBlocks * 4096)
    let imgStart ← fwUpgradeGetFirstProgrammingImageStartAddress
    let current ← Cmd.gets fun s => (fwUpgradeGetTrialActiveFwdIndex cfg s.dev).1.current
    if cfg.fwdSupportNum = 2 then
      let fwdIndex := if current = 0 then 1 else 0
      let size := u32 (u32sub memSize imgStart / 4096 / 2 * 4096)
      let startAddress := u32 (imgStart + fwdIndex * size)
      if fwdIndex = 1 then
        let endAddr ← fwUpgradeGetImageSetEndAddr 0
        if startAddress < endAddr then return ⟨fwdIndex, endAddr, u32sub size (endAddr - startAddress)⟩
        else return ⟨fwdIndex, startAddress, size⟩
      else return ⟨fwdIndex, startAddress, size⟩
    else
      let fwdIndex := if current = 0 then 1 else if current = 1 then 2 else 1
      let endAddr ← fwUpgradeGetImageSetEndAddr 0
      let size := u32 (u32sub memSize endAddr / 4096 / (cfg.fwdSupportNum - 1) * 4096)
      return ⟨fwdIndex, u32 (endAddr + (fwdIndex - 1) * size), size⟩

/-! ### Ending a trial -/

/-- `fw_upgrade_accept_trial_fwd`. `uninit` is the value of the variable `fwd_boot_type` when
    `fw_upgrade_get_active_fwd` does not set it. -/
def fwUpgradeAcceptTrialFwd (cfg : Config) (uninit : ℕ) : Cmd Fu FuStatus Unit := do
  let (r, ok) ← Cmd.gets fun s => fwUpgradeGetTrialActiveFwdIndex cfg s.dev
  if ok then
    let bootType ← Cmd.gets fun s => (fwdBootType? s.dev.mem.fdt).getD uninit
    if bootType = fwdBootTypeTrial then
      fwUpgradeSetFwdInfo r.trial .rank (u32 (r.rank + 1))
      if cfg.fwdSupportNum = 2 ∨ (cfg.fwdSupportNum = 3 ∧ r.current ≠ 0) then
        fwUpgradeSetFwdInfo r.current .status 0
      else pure ()
    else Cmd.fail .error
  else Cmd.fail .error

/-- `fw_upgrade_reject_sbl_trial_fde`. -/
def fwUpgradeRejectSblTrialFde : Cmd Fu FuStatus Unit := fun s =>
  let fdt := s.dev.mem.fdt
  if ¬fdt.Valid then (.error .invalidFdt, s)
  else match fdt.findIdx? fun e => e.id == fdeImgIdSbl && e.rank == fdeImgRankTrial with
    | none => (.error .invalidFdt, s)
    | some i => (.ok (), s.writes [.fde i { fdt.fde i with
        rank := fdeImgRankAged, state := fdeImgStateInvalid }])

/-- `fw_upgrade_reject_trial_fwd`; the handle that finds the SBL entry is not given back. -/
def fwUpgradeRejectTrialFwd (cfg : Config) : Cmd Fu FuStatus Unit := do
  let (r, ok) ← Cmd.gets fun s => fwUpgradeGetTrialActiveFwdIndex cfg s.dev
  if ok then
    fwUpgradeSetFwdInfo r.trial .status 0
    fwUpgradeSetFwdInfo r.trial .rank 1
    match ← Cmd.attempt (fwUpgradeFindPartition r.trial sblImgId) with
    | .ok _ => fwUpgradeRejectSblTrialFde
    | .error .reachMaxImageEntry => pure ()
    | .error (e : FuStatus) => Cmd.fail e
  else Cmd.fail .error

/-- `fw_upgrade_select_sbl_trial_fde`: index, address and size of the SBL slot. -/
def fwUpgradeSelectSblTrialFde (cfg : Config) (fdt : Fdt) : Option (ℕ × ℕ × ℕ) :=
  if fdt.Valid then
    (fdt.findIdx? fun e => e.id == fdeImgIdSbl && e.rank == fdeImgRankAged).map fun i =>
      (i, (fdt.fde i).addr, cfg.sblMemSize)
  else none

/-- `fw_upgrade_set_sbl_trial_fde`. -/
def fwUpgradeSetSblTrialFde (sblTrialIdx version : ℕ) : Cmd Fu FuStatus Unit := fun s =>
  let fdt := s.dev.mem.fdt
  if ¬fdt.Valid then (.error .invalidFdt, s)
  else if fdt.numFde ≤ sblTrialIdx ∨ (fdt.fde sblTrialIdx).id ≠ fdeImgIdSbl ∨
      (fdt.fde sblTrialIdx).rank ≠ fdeImgRankAged then (.error .invalidParam, s)
  else (.ok (), s.writes [.fde sblTrialIdx { fdt.fde sblTrialIdx with
    rank := fdeImgRankTrial, state := fdeImgStateNew, version }])

end Qcc730.Upgrade
