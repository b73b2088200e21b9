import Qcc730.Upgrade.Header

/-! An upgrade session (`fw_upgrade.c`).

    The worker runs a state machine: pick the trial slot, erase its FWD, prepare the file systems,
    download and check the header, download the images, copy what did not change, finish. Each pass
    of its loop is one `Session.step`; the last step is `fw_upgrade_session_finalize`, which makes
    the trial FWD valid when everything went well.

    The outside world is a script: the packets the plugin delivers, whether it connects, and the
    cancel and suspend requests of other threads, which the worker sees when it next looks at the
    session status. Allocations succeed. File names and URLs are left out. -/

namespace Qcc730.Upgrade
open Lib Flash

/-- What a session runs in. -/
structure Env where
  cfg : Config
  sha256 : Bytes → Bytes
  /-- what the memory after the image entries reads as -/
  pastEnd : ℕ → ImageHdr
  /-- the content of a freshly allocated buffer -/
  heap : ℕ → UInt8

/-- `fw_upgrade_state_t`. -/
inductive State where
  | notStart
  | getTrialInfo
  | eraseFwd
  | eraseFlash
  | eraseSecondFs
  | prepareFs
  | eraseImage
  | prepareConnect
  | connectServer
  | resumeService
  | resumeServer
  | receiveData
  | disconnectServer
  | processConfigFile
  | processImage
  | duplicateImages
  | duplicateFs
  | finish
  deriving DecidableEq, Repr

/-- `fw_upgrade_session_status_t`. -/
inductive SessionStatus where
  | notStart
  | running
  | suspend
  | cancel
  deriving DecidableEq, Repr

@[simp] abbrev flagAutoReboot : ℕ := 1
@[simp] abbrev flagDuplicateActiveFs : ℕ := 2

/-- `fw_upgrade_context_t` and the array `fw_upgrade_image_hdr`. The buffer holds the `buf_len` bytes
    last received; the digest context is the bytes it has absorbed. -/
structure Cxt where
  state : State
  sessionStatus : SessionStatus
  flags : ℕ
  isFirst : Bool
  format : ℕ
  buffer : Bytes
  bufOffset : ℕ
  fileReadCount : ℕ
  imageIndex : ℕ
  imageWrtCount : ℕ
  imageWrtLength : ℕ
  totalImages : ℕ
  hiddenImagesCount : ℕ
  configBuf : Option Bytes
  downloadFlag : ℕ → Bool
  digest : Bytes
  partitionHdl : Option ℕ
  trialFwdIdx : ℕ
  trialMemStart : ℕ
  trialMemSize : ℕ
  trialSblIdx : ℕ
  trialSblStart : ℕ
  trialSblSize : ℕ
  imageHdr : List ImageHdr

/-- The context that `fw_upgrade_session_init` sets up. -/
def Cxt.init (flags : ℕ) : Cxt where
  state := .notStart
  sessionStatus := .running
  flags
  isFirst := true
  format := formatPartialUpgrade
  buffer := []
  bufOffset := 0
  fileReadCount := 0
  imageIndex := 0
  imageWrtCount := 0
  imageWrtLength := 0
  totalImages := 0
  hiddenImagesCount := 0
  configBuf := none
  downloadFlag := fun _ => true
  digest := []
  partitionHdl := none
  trialFwdIdx := 0
  trialMemStart := 0
  trialMemSize := 0
  trialSblIdx := 0
  trialSblStart := 0
  trialSblSize := 0
  imageHdr := []

/-- What the plugin's receive callback gives. -/
inductive Packet where
  | data (b : Bytes)
  | fail
  deriving DecidableEq, Repr

/-- A call of `fw_upgrade_session_cancel` or `fw_upgrade_session_suspend` by another thread. -/
inductive Request where
  | cancel
  | suspend
  deriving DecidableEq, Repr

/-- What the outside world does, in the order the session asks for it. Past the end of a list the
    plugin has no more data, connects, and nobody asks for anything. -/
structure Script where
  packets : List Packet
  connects : List Bool
  requests : List (Option Request)

/-- Where the worker is: in the loop of `fw_upgrade_session_process`, about to call
    `fw_upgrade_session_finalize`, or done; `ret` is what it returns. -/
inductive Phase where
  | process
  | finalize (ret : Except FuStatus Unit)
  | done (ret : Except FuStatus Unit)
  deriving DecidableEq

/-- The state of a session. `verified` records the images that passed `fw_upgrade_verify_image_hash`,
    by index and with the bytes received; no code reads it. -/
structure Session where
  fu : Fu
  cxt : Cxt
  script : Script
  phase : Phase
  verified : List (ℕ × Bytes)

def Session.start (fu : Fu) (flags : ℕ) (script : Script) : Session :=
  ⟨fu, Cxt.init flags, script, .process, []⟩

namespace Session

/-- Change the context. -/
def setCxt (s : Session) (f : Cxt → Cxt) : Session := { s with cxt := f s.cxt }

def setState (s : Session) (t : State) : Session := s.setCxt fun c => { c with state := t }

/-- The FWD that was booted. -/
def activeFwd (s : Session) : ℕ := fwUpgradeGetActiveFwd s.fu.dev.mem.fdt

/-- Give the open partition handle back. -/
def freePartitionHdl (s : Session) : Session :=
  match s.cxt.partitionHdl with
  | none => s
  | some h => { s with fu := s.fu.freeHandle h, cxt := { s.cxt with partitionHdl := none } }

end Session

/-- Run a command on the device and its handles. -/
def onFu {α : Type} (c : Cmd Fu FuStatus α) : Cmd Session FuStatus α :=
  Cmd.zoom Session.fu (fun s fu => { s with fu }) c

/-- Open a partition as the session's partition. -/
def openPartition (fwdIdx id : ℕ) (e : FuStatus) : Cmd Session FuStatus Client := do
  let h ← (onFu (fwUpgradeFindPartition fwdIdx id)).orFail e
  Cmd.modify fun s => s.setCxt fun c => { c with partitionHdl := some h }
  Cmd.gets fun s => s.fu.handles h

/-- Where a partition of the active FWD is; its handle is given back at once. -/
def locatePartition (id : ℕ) (e : FuStatus) : Cmd Session FuStatus Client := do
  let active ← Cmd.gets Session.activeFwd
  let c ← openPartition active id e
  Cmd.modify Session.freePartitionHdl
  return c

/-- Create a partition in the trial FWD and open it as the session's partition. -/
def createPartition (id version start size : ℕ) : Cmd Session FuStatus Unit := do
  let trial ← Cmd.gets fun s => s.cxt.trialFwdIdx
  let h ← (onFu (fwUpgradeCreatePartition trial id version start size)).orFail .flashCreatePartition
  Cmd.modify fun s => s.setCxt fun c => { c with partitionHdl := some h }

/-- Erase in the open partition. -/
def erasePartition (offset nbytes : ℕ) : Cmd Session FuStatus Unit := do
  let hdl ← Cmd.gets fun s => s.cxt.partitionHdl
  match hdl with
  | none => Cmd.fail .flashErasePartition
  | some h => (onFu (fwUpgradeErasePartition h offset nbytes)).orFail .flashErasePartition

/-- Write to the open partition. -/
def writePartition (offset : ℕ) (buf : Bytes) : Cmd Session FuStatus Unit := do
  let hdl ← Cmd.gets fun s => s.cxt.partitionHdl
  match hdl with
  | none => Cmd.fail .flashWritePartition
  | some h => (onFu (fwUpgradeWritePartition h offset buf)).orFail .flashWritePartition

/-- A partition of the trial FWD that is not downloaded: it takes over a place of the active FWD. -/
def createHidden (id : ℕ) (c : Client) : Cmd Session FuStatus Unit := do
  createPartition id c.imgVersion c.imgStart c.imgSize
  Cmd.modify fun s => (s.setCxt fun c => { c with hiddenImagesCount := c.hiddenImagesCount + 1 }).freePartitionHdl

/-! ### The states before the download -/

/-- `FW_UPGRADE_STATE_GET_TRIAL_INFO_E`. -/
def getTrialInfo (env : Env) : Cmd Session FuStatus Unit := do
  let r ← (onFu (fwUpgradeSelectTrialFwd env.cfg)).orFail .flashNotSupportFwUpgrade
  Cmd.modify fun s => s.setCxt fun c =>
    { c with trialFwdIdx := r.fwdIndex, trialMemStart := r.startAddress, trialMemSize := r.size }
  Cmd.ensure (fun s => s.activeFwd ≠ s.cxt.trialFwdIdx) .trialIsRunning
  Cmd.modify fun s => s.setState .eraseFwd

/-- `FW_UPGRADE_STATE_ERASE_FWD_E`. -/
def eraseFwd (env : Env) : Cmd Session FuStatus Unit := do
  let trial ← Cmd.gets fun s => s.cxt.trialFwdIdx
  (onFu (fwUpgradeEraseFwd trial)).orFail .flashEraseFail
  Cmd.modify fun s => s.setState (if env.cfg.noFs then .prepareFs else .eraseSecondFs)

/-- `FW_UPGRADE_STATE_ERASE_SECOND_FS_E`. -/
def eraseSecondFs : Cmd Session FuStatus Unit := do
  let active ← Cmd.gets Session.activeFwd
  let c ← openPartition active fs2ImgId .flashImageNotFound
  erasePartition 0 c.imgSize
  Cmd.modify fun s => s.freePartitionHdl.setState .prepareFs

/-- The trial's FS2 is the active FWD's FS1. -/
def prepareFs2 : Cmd Session FuStatus Unit := do
  let c ← locatePartition fs1ImgId .flashImageNotFound
  createHidden fs2ImgId c

/-- The RAMDUMP partition is erased if it holds anything, and taken over. -/
def prepareRamdump : Cmd Session FuStatus Unit := do
  let active ← Cmd.gets Session.activeFwd
  match ← Cmd.attempt (openPartition active ramdumpImgId .flashImageNotFound) with
  | .error (_ : FuStatus) => pure ()
  | .ok c =>
    let hdl ← Cmd.gets fun s => s.cxt.partitionHdl
    let magic ← (onFu (fwUpgradeReadPartition (hdl.getD 0) 0 4)).orFail .flashErasePartition
    Cmd.when (fun _ => wordAt magic 0 ≠ 0xFFFFFFFF) (erasePartition 0 c.imgSize)
    Cmd.modify Session.freePartitionHdl
    createHidden ramdumpImgId c

/-- The USERDATA partition is taken over. -/
def prepareUserdata : Cmd Session FuStatus Unit := do
  match ← Cmd.attempt (locatePartition userdataImgId .flashImageNotFound) with
  | .error (_ : FuStatus) => pure ()
  | .ok c => createHidden userdataImgId c

/-- `FW_UPGRADE_STATE_PREPARE_FS_E`. -/
def prepareFs (env : Env) : Cmd Session FuStatus Unit := do
  Cmd.when (fun _ => env.cfg.noFs = false) prepareFs2
  prepareRamdump
  prepareUserdata
  Cmd.modify fun s => s.setState .prepareConnect

/-- Entry `i` of the array of image headers. -/
def Cxt.hdrAt (c : Cxt) (env : Env) (i : ℕ) : ImageHdr := c.imageHdr.getD i (env.pastEnd i)

/-- The loop of `PREPARE_CONNECT` that skips images that need no download. -/
def nextDownload (flag : ℕ → Bool) (index total : ℕ) : ℕ :=
  ((List.range' index (total - index)).find? flag).getD (max index total)

/-- A place in the active FWD's FS2 for the trial's FS1. -/
def createFs1 (h : ImageHdr) : Cmd Session FuStatus Unit := do
  let c ← locatePartition fs2ImgId .flashImageNotFound
  Cmd.ensure (fun _ => h.diskSize ≤ c.imgSize) .incorrectImageLength
  createPartition h.imageId h.version c.imgStart c.imgSize

/-- `FW_UPGRADE_STATE_PREPARE_CONNECT_E`. -/
def prepareConnect (env : Env) : Cmd Session FuStatus Unit := do
  if ← Cmd.gets fun s => s.cxt.isFirst then
    Cmd.modify fun s => s.setState .connectServer
  else
    Cmd.modify fun s => s.setCxt fun c =>
      { c with imageIndex := nextDownload c.downloadFlag c.imageIndex c.totalImages }
    let h ← Cmd.gets fun s => s.cxt.hdrAt env s.cxt.imageIndex
    if h.imageId = fs1ImgId ∧ h.imageLength = 0 then
      createFs1 h
      Cmd.modify fun s => s.freePartitionHdl.setCxt fun c => { c with imageIndex := c.imageIndex + 1 }
    else
      Cmd.modify fun s => s.setState
        (if s.cxt.totalImages ≤ s.cxt.imageIndex then .duplicateImages else .connectServer)

/-! ### Talking to the server -/

/-- The plugin's answer to the next request for a connection. -/
def connect : Cmd Session FuStatus Unit := fun s =>
  match s.script.connects with
  | false :: cs => (.error .plugin, { s with script := { s.script with connects := cs } })
  | true :: cs => (.ok (), { s with script := { s.script with connects := cs } })
  | [] => (.ok (), s)

/-- `FW_UPGRADE_STATE_CONNECT_SERVER_E`. -/
def connectServer : Cmd Session FuStatus Unit := do
  Cmd.modify fun s => s.setCxt fun c => { c with fileReadCount := 0 }
  connect
  Cmd.modify fun s => s.setState .receiveData

/-- The bytes of the open partition that were written before a suspend, read back piece by piece. -/
def rehash (h : ℕ) : ℕ → ℕ → ℕ → Bytes → Cmd Fu FuStatus Bytes
  | 0, _, _, acc => pure acc
  | n + 1, offset, left, acc =>
    if left = 0 then pure acc
    else do
      let b ← fwUpgradeReadPartition h offset (min left fwUpgradeBufSize)
      rehash h n (offset + min left fwUpgradeBufSize) (left - min left fwUpgradeBufSize) (acc ++ b)

/-- `FW_UPGRADE_STATE_RESUME_SERVICE_E`: a failed read still moves on to the next state. -/
def resumeService (env : Env) : Cmd Session FuStatus Unit := do
  let trial ← Cmd.gets fun s => s.cxt.trialFwdIdx
  let h ← Cmd.gets fun s => s.cxt.hdrAt env s.cxt.imageIndex
  let _ ← openPartition trial h.imageId .flashImageNotFound
  let hdl ← Cmd.gets fun s => s.cxt.partitionHdl
  let count ← Cmd.gets fun s => s.cxt.imageWrtCount
  let r ← Cmd.attempt (onFu (rehash (hdl.getD 0) count 0 count []))
  Cmd.modify fun s => s.setState .resumeServer
  match r with
  | .ok b => Cmd.modify fun s => s.setCxt fun c => { c with digest := b }
  | .error (_ : FuStatus) => Cmd.fail .flashReadFail

/-- `FW_UPGRADE_STATE_RESUME_SERVER_E`. -/
def resumeServer : Cmd Session FuStatus Unit := do
  connect
  Cmd.modify fun s => s.setState .receiveData

/-- `FW_UPGRADE_STATE_RECEIVE_DATA_E`: whether there was anything to receive. -/
def receiveData : Cmd Session FuStatus Bool := fun s =>
  match s.script.packets with
  | [] => (.ok false, s)
  | .fail :: ps => (.error .plugin, { s with script := { s.script with packets := ps } })
  | .data b :: ps =>
    let s := { s with script := { s.script with packets := ps } }
    let received := b.take fwUpgradeBufSize
    if received = [] then (.ok false, s)
    else (.ok true, s.setCxt fun c => { c with
      buffer := received, bufOffset := 0,
      state := if c.isFirst then .processConfigFile else .processImage })

/-! ### The header -/

/-- The first part of `fw_upgrade_process_config_file`: collect the header. Gives the header once it is
    complete, `none` while more is to be received. -/
def Cxt.receiveConfig (c : Cxt) : Except FuStatus (Option Bytes) × Cxt :=
  match c.configBuf with
  | none =>
    let hdr := ImageSetHdr.decode c.buffer
    if c.buffer.length < imageSetHdrPart1Size then (.error .incorrectImageHdr, c)
    else if ¬(0 < hdr.numImages ∧ hdr.numImages ≤ fwUpgradeMaxImagesNum) then (.error .incorrectImageHdr, c)
    else if hdr.magic = 0 ∨ hdr.length = 0 ∨ hdr.format = 0 then (.error .incorrectImageHdr, c)
    else if hdr.length ≠ hdr.hashOffset + fwUpgradeHashLen then
      (.error .incorrectImageHdr, { c with format := hdr.format })
    else
      let b := c.buffer.take hdr.length
      let c := { c with format := hdr.format, configBuf := some b, bufOffset := b.length }
      if c.buffer.length < hdr.length then
        (.ok none, { c with imageWrtCount := c.buffer.length, state := .receiveData })
      else (.ok (some b), c)
  | some b =>
    let hdr := ImageSetHdr.decode b
    let len := min c.buffer.length (u32sub hdr.length c.imageWrtCount)
    let b := b ++ c.buffer.take len
    let c := { c with configBuf := some b, imageWrtCount := c.imageWrtCount + len, bufOffset := len }
    if c.imageWrtCount < hdr.length then (.ok none, { c with state := .receiveData })
    else (.ok (some b), c)

/-- `fw_upgrade_set_fwd_info` on the trial FWD. -/
def setTrialInfo (info : FwdInfo) (value : ℕ) : Cmd Session FuStatus Unit := do
  let trial ← Cmd.gets fun s => s.cxt.trialFwdIdx
  (onFu (fwUpgradeSetFwdInfo trial info value)).orFail .flashWriteFail

/-- Save the image entries and check them. -/
def checkImageEntries (hs : List ImageHdr) : Cmd Session FuStatus Tally := fun s =>
  let r := checkEntries Tally.zero hs
  let s := s.setCxt fun c => { c with totalImages := hs.length, imageHdr := r.2 }
  match r.1 with
  | none => (.error .incorrectImageHdr, s)
  | some t => (.ok t, s)

/-- Note where a new SBL would go. -/
def selectSblSlot (env : Env) : Cmd Session FuStatus Unit := fun s =>
  match fwUpgradeSelectSblTrialFde env.cfg s.fu.dev.mem.fdt with
  | none => (.error .sblNotSupportUpgrade, s)
  | some (i, start, size) =>
    (.ok (), s.setCxt fun c => { c with trialSblIdx := i, trialSblStart := start, trialSblSize := size })

/-- The checks that the images fit. -/
def checkSpace (env : Env) (t : Tally) : Cmd Session FuStatus Unit := do
  Cmd.ensure (fun _ => ¬(t.sblImageExist = true ∧ t.appImageExist = false)) .sblOnlyNotSupport
  Cmd.ensure (fun s => t.diskSize ≤ s.cxt.trialMemSize) .flashNotEnoughSpace
  Cmd.ensure (fun _ => t.len ≤ t.diskSize) .incorrectImageHdr
  selectSblSlot env
  Cmd.ensure (fun s => t.sblDiskSize ≤ s.cxt.trialSblSize) .sblNotEnoughSpace

/-- The offsets of a loop over blocks. -/
def blockOffsets (size : ℕ) : List ℕ := (List.range ((size + 4095) / 4096)).map (· * 4096)

/-- The bytes of a partition, read block by block; a block that cannot be read gives none. -/
def readBlocks (s : Fu) (h size : ℕ) : Bytes :=
  (blockOffsets size).flatMap fun offset => ((fwUpgradeReadPartition h offset 4096 s).1.toOption).getD []

/-- Whether an image of a partial upgrade differs from the active one. -/
def needDownload (env : Env) (active : ℕ) (h : ImageHdr) (s : Fu) : Bool × Fu :=
  if h.Counted then
    match fwUpgradeFindPartition active h.imageId s with
    | (.error _, s') => (true, s')
    | (.ok hdl, s') =>
      (env.sha256 (readBlocks s' hdl (s'.handles hdl).imgSize) ≠ h.hash, s'.freeHandle hdl)
  else (true, s)

/-- The loop that sets `download_flag`. -/
def downloadFlags (env : Env) (active : ℕ) : List ImageHdr → Fu → List Bool × Fu
  | [], s => ([], s)
  | h :: hs, s =>
    let (f, s) := needDownload env active h s
    let (fs, s) := downloadFlags env active hs s
    (f :: fs, s)

/-- After the header: an all-in-one file goes on with the images, a partial upgrade first compares
    them with the active ones. -/
def nextStage (env : Env) : Cmd Session FuStatus Unit := fun s =>
  if s.cxt.format ≠ formatPartialUpgrade then
    (.ok (), s.setCxt fun c => { c with
      isFirst := false
      state := if c.buffer.length ≤ c.bufOffset then .receiveData else .processImage })
  else
    let r := downloadFlags env s.activeFwd s.cxt.imageHdr s.fu
    (.ok (), { s with fu := r.2 }.setCxt fun c => { c with
      downloadFlag := fun i => r.1.getD i (c.downloadFlag i)
      isFirst := false
      state := .disconnectServer })

/-- The second part of `fw_upgrade_process_config_file`, on the complete header. -/
def parseConfig (env : Env) (b : Bytes) : Cmd Session FuStatus Unit := do
  let hdr := ImageSetHdr.decode b
  Cmd.ensure (fun _ => headerHashOk env.sha256 b) .incorrectImageChecksum
  setTrialInfo .magic hdr.magic
  setTrialInfo .version hdr.version
  let hidden ← Cmd.gets fun s => s.cxt.hiddenImagesCount
  setTrialInfo .totalImage ((hdr.numImages + hidden) % 256)
  let t ← checkImageEntries (imageHdrs b hdr.numImages)
  checkSpace env t
  Cmd.modify fun s => s.setCxt fun c => { c with fileReadCount := hdr.length, configBuf := none }
  nextStage env

/-- `fw_upgrade_process_config_file`. -/
def fwUpgradeProcessConfigFile (env : Env) : Cmd Session FuStatus Unit := fun s =>
  match s.cxt.receiveConfig with
  | (.error e, c) => (.error e, { s with cxt := { c with configBuf := none } })
  | (.ok none, c) => (.ok (), { s with cxt := c })
  | (.ok (some b), c) =>
    match parseConfig env b { s with cxt := c } with
    | (.error e, s') => (.error e, s'.setCxt fun c => { c with configBuf := none })
    | r => r

/-! ### The images -/

/-- How many `0xFF` bytes the hash of an image covers after its own: in a partial upgrade those that fill
    its disk size. -/
def Cxt.hashPad (c : Cxt) (h : ImageHdr) : ℕ :=
  if c.format = formatPartialUpgrade then u32sub h.diskSize h.imageLength else 0

/-- `fw_upgrade_verify_image_hash`. -/
def verifyImageHash (env : Env) (h : ImageHdr) : Cmd Session FuStatus Unit := fun s =>
  if h.hash = env.sha256 (s.cxt.digest ++ List.replicate (s.cxt.hashPad h) 0xFF) then
    (.ok (), { s with verified := (s.cxt.imageIndex, s.cxt.digest) :: s.verified })
  else (.error .incorrectImageChecksum, s)

/-- Start an image: create its partition and erase the first block. -/
def openImage (h : ImageHdr) : Cmd Session FuStatus Unit := do
  Cmd.modify fun s => s.setCxt fun c => { c with imageWrtCount := 0, imageWrtLength := h.imageLength }
  if h.imageId = fs1ImgId then createFs1 h
  else
    let start ← Cmd.gets fun s => if h.imageId = sblImgId then s.cxt.trialSblStart else s.cxt.trialMemStart
    createPartition h.imageId h.version start h.diskSize
    erasePartition 0 4096

/-- End an image: give its handle back and go to the next entry. -/
def closeImage (h : ImageHdr) : Cmd Session FuStatus Unit :=
  Cmd.modify fun s => s.freePartitionHdl.setCxt fun c => { c with
    trialMemStart := if h.imageId ≠ fs1ImgId ∧ h.imageId ≠ sblImgId then u32 (c.trialMemStart + h.diskSize)
      else c.trialMemStart
    imageIndex := c.imageIndex + 1
    imageWrtLength := 0 }

/-- Erase the blocks that a write enters. -/
def eraseAhead (writeLen : ℕ) : Cmd Session FuStatus Unit := do
  let count ← Cmd.gets fun s => s.cxt.imageWrtCount
  let endCount := u32 (count + writeLen)
  if count / 4096 ≠ u32sub endCount 1 / 4096 then
    let firstBlock := count / 4096 + 1
    let lastBlock := endCount / 4096 + (if endCount % 4096 ≠ 0 then 1 else 0)
    erasePartition (u32 (firstBlock * 4096)) (u32 (u32sub lastBlock firstBlock * 4096))
  else pure ()

/-- Write a piece of the buffer to the open partition and count it. -/
def writeImage (writeLen : ℕ) : Cmd Session FuStatus Unit := do
  let piece ← Cmd.gets fun s => (s.cxt.buffer.drop s.cxt.bufOffset).take writeLen
  Cmd.modify fun s => s.setCxt fun c => { c with digest := c.digest ++ piece }
  eraseAhead writeLen
  let count ← Cmd.gets fun s => s.cxt.imageWrtCount
  writePartition count piece
  Cmd.modify fun s => s.setCxt fun c => { c with
    bufOffset := c.bufOffset + writeLen
    fileReadCount := u32 (c.fileReadCount + writeLen)
    imageWrtCount := u32 (c.imageWrtCount + writeLen) }

/-- Erase the block that the next write starts in, when the last one ended a block. -/
def eraseNext : Cmd Session FuStatus Unit :=
  Cmd.when (fun s => s.cxt.imageWrtCount % 4096 = 0 ∧ 0 < s.cxt.imageWrtLength) do
    let count ← Cmd.gets fun s => s.cxt.imageWrtCount
    erasePartition count 4096

/-- How much of the buffer goes to the open partition. -/
def Cxt.writeLen (c : Cxt) : Except FuStatus ℕ :=
  let left := u32sub c.imageWrtLength c.imageWrtCount
  if c.format = formatPartialUpgrade then
    if left < c.buffer.length then .error .incorrectImageLength else .ok c.buffer.length
  else .ok (min (c.buffer.length - c.bufOffset) left)

/-- The end of an image: verify it and go on. Gives whether this was the last image of the file. -/
def finishImage (env : Env) (h : ImageHdr) : Cmd Session FuStatus Bool := do
  verifyImageHash env h
  closeImage h
  let c ← Cmd.gets fun s => s.cxt
  if c.format = formatPartialUpgrade then
    Cmd.modify fun s => s.setState .disconnectServer
    return false
  else if c.totalImages ≤ c.imageIndex then
    Cmd.modify fun s => s.setState .duplicateFs
    return true
  else return false

/-- The end of an image, when all of it has been written. -/
def finishIfWritten (env : Env) (h : ImageHdr) : Cmd Session FuStatus Bool := fun s =>
  if s.cxt.imageWrtLength ≤ s.cxt.imageWrtCount then finishImage env h s else (.ok false, s)

/-- The body of the loop of `fw_upgrade_process_receive_image` once the image's partition is open; gives
    whether the loop goes on. -/
def receivePiece (env : Env) (h : ImageHdr) : Cmd Session FuStatus Bool := do
  match ← Cmd.gets fun s => s.cxt.writeLen with
  | .error e => Cmd.fail e
  | .ok writeLen =>
    Cmd.modify fun s => s.setCxt fun c =>
      { c with bufOffset := if c.format = formatPartialUpgrade then 0 else c.bufOffset }
    writeImage writeLen
    let last ← finishIfWritten env h
    if last then return false
    else
      eraseNext
      Cmd.gets fun s => s.cxt.format ≠ formatPartialUpgrade

/-- The body of the loop of `fw_upgrade_process_receive_image`. An image without bytes in an all-in-one
    file ends as soon as its partition is created. -/
def receivePass (env : Env) : Cmd Session FuStatus Bool := do
  let c ← Cmd.gets fun s => s.cxt
  let h := c.hdrAt env c.imageIndex
  if c.format ≠ formatPartialUpgrade ∧ c.buffer.length ≤ c.bufOffset then return false
  else if c.imageWrtLength = 0 then
    openImage h
    if c.format ≠ formatPartialUpgrade ∧ h.imageLength = 0 then
      closeImage h
      if ← Cmd.gets fun s => decide (s.cxt.totalImages ≤ s.cxt.imageIndex) then
        Cmd.modify fun s => s.setState .duplicateFs
        return false
      else return true
    else
      Cmd.modify fun s => s.setCxt fun c => { c with digest := [] }
      receivePiece env h
  else receivePiece env h

/-- The loop; every pass that goes on uses up a byte of the buffer or an image. -/
def receiveLoop (env : Env) : ℕ → Cmd Session FuStatus Unit
  | 0 => pure ()
  | n + 1 => do
    if ← receivePass env then receiveLoop env n else pure ()

/-- `fw_upgrade_process_receive_image`. -/
def fwUpgradeProcessReceiveImage (env : Env) : Cmd Session FuStatus Unit := fun s =>
  receiveLoop env (s.cxt.buffer.length + s.cxt.totalImages + 2) s

/-- `FW_UPGRADE_STATE_PROCESS_IMAGE_E`. -/
def processImage (env : Env) : Cmd Session FuStatus Unit := do
  fwUpgradeProcessReceiveImage env
  Cmd.modify fun s => if s.cxt.state = .processImage then s.setState .receiveData else s

/-! ### Copies -/

/-- The inner loop of `fw_upgrade_process_duplicate_images`. A block that cannot be read is written with
    what the buffer last held. -/
def copyBlocks (src dst : ℕ) : List ℕ → Bytes → Fu → (Option FuStatus × Bytes) × Fu
  | [], buf, s => ((none, buf), s)
  | offset :: rest, buf, s =>
    let buf := ((fwUpgradeReadPartition src offset 4096 s).1.toOption).getD buf
    match fwUpgradeErasePartition dst offset 4096 s with
    | (.error _, s) => ((some .flashErasePartition, buf), s)
    | (.ok _, s) =>
      match fwUpgradeWritePartition dst offset buf s with
      | (.error _, s) => ((some .flashWritePartition, buf), s)
      | (.ok _, s) => copyBlocks src dst rest buf s

/-- The outer loop of `fw_upgrade_process_duplicate_images`. A failed copy does not end it; the last
    failure is what it returns. -/
def duplicateLoop : List (ℕ × ImageHdr) → Option FuStatus → Bytes → Session → Option FuStatus × Session
  | [], err, _, s => (err, s)
  | (i, h) :: rest, err, buf, s =>
    if s.cxt.downloadFlag i = false ∧ h.Counted then
      match fwUpgradeFindPartition s.activeFwd h.imageId s.fu with
      | (.error _, fu) => (some .incorrectImageHdr, { s with fu })
      | (.ok src, fu) =>
        match fwUpgradeCreatePartition s.cxt.trialFwdIdx h.imageId h.version s.cxt.trialMemStart h.diskSize fu with
        | (.error _, fu) => (some .flashCreatePartition, { s with fu := fu.freeHandle src })
        | (.ok dst, fu) =>
          let r := copyBlocks src dst (blockOffsets h.diskSize) buf fu
          let s := { s with fu := (r.2.freeHandle src).freeHandle dst }
          duplicateLoop rest (r.1.1 <|> err) r.1.2
            (s.setCxt fun c => { c with trialMemStart := u32 (c.trialMemStart + h.diskSize) })
    else duplicateLoop rest err buf s

/-- `FW_UPGRADE_STATE_DUPLICATE_IMAGES_E`. -/
def duplicateImages (env : Env) : Cmd Session FuStatus Unit := fun s =>
  let hs := (List.range s.cxt.totalImages).map fun i => (i, s.cxt.hdrAt env i)
  match duplicateLoop hs none ((List.range 4096).map env.heap) s with
  | (some e, s') => (.error e, s')
  | (none, s') => (.ok (), s'.setState .duplicateFs)

/-- The loop of `fw_upgrade_process_duplicate_fs`. -/
def copyFs (src dst : ℕ) : List ℕ → Cmd Fu FuStatus Unit
  | [] => pure ()
  | offset :: rest => do
    let buf ← (fwUpgradeReadPartition src offset 4096).orFail FuStatus.flashReadFail
    (fwUpgradeErasePartition dst offset 4096).orFail .flashErasePartition
    (fwUpgradeWritePartition dst offset buf).orFail .flashWritePartition
    copyFs src dst rest

/-- `fw_upgrade_process_duplicate_fs`: copy the active FS1 to the active FS2. -/
def fwUpgradeProcessDuplicateFs (active : ℕ) : Cmd Fu FuStatus Unit := fun s =>
  match fwUpgradeFindPartition active fs1ImgId s with
  | (.error _, s) => (.error .flashImageNotFound, s)
  | (.ok h₁, s) =>
    match fwUpgradeFindPartition active fs2ImgId s with
    | (.error _, s) => (.error .flashImageNotFound, s.freeHandle h₁)
    | (.ok h₂, s) =>
      let r := copyFs h₁ h₂ (blockOffsets (s.handles h₁).imgSize) s
      (r.1, (r.2.freeHandle h₁).freeHandle h₂)

/-- `FW_UPGRADE_STATE_DUPLICATE_FS_E`. -/
def duplicateFs : Cmd Session FuStatus Unit := do
  Cmd.when (fun s => s.cxt.flags / flagDuplicateActiveFs % 2 = 1) do
    let active ← Cmd.gets Session.activeFwd
    onFu (fwUpgradeProcessDuplicateFs active)
  Cmd.modify fun s => s.setState .finish

/-! ### The worker -/

/-- The switch of `fw_upgrade_session_process`: whether the loop goes on. -/
def sessionSwitch (env : Env) : Cmd Session FuStatus Bool := fun s =>
  let goOn (c : Cmd Session FuStatus Unit) : Except FuStatus Bool × Session := (c >>= fun _ => pure true) s
  match s.cxt.state with
  | .notStart => goOn (Cmd.modify fun s => s.setState .getTrialInfo)
  | .getTrialInfo => goOn (getTrialInfo env)
  | .eraseFwd => goOn (eraseFwd env)
  | .eraseSecondFs => goOn eraseSecondFs
  | .prepareFs => goOn (prepareFs env)
  | .prepareConnect => goOn (prepareConnect env)
  | .connectServer => goOn connectServer
  | .resumeService => goOn (resumeService env)
  | .resumeServer => goOn resumeServer
  | .receiveData => receiveData s
  | .processConfigFile => goOn (fwUpgradeProcessConfigFile env)
  | .processImage => goOn (processImage env)
  | .disconnectServer => goOn (Cmd.modify fun s => s.setState .prepareConnect)
  | .duplicateImages => goOn (duplicateImages env)
  | .duplicateFs => goOn duplicateFs
  | .finish => (.ok false, s)
  | .eraseFlash | .eraseImage => (.ok true, s)

namespace Session

/-- Let the next pending request take effect: cancel and suspend change the status of a running session. -/
def poll (s : Session) : Session :=
  match s.script.requests with
  | [] => s
  | r :: rs =>
    { s with
      script := { s.script with requests := rs }
      cxt := if s.cxt.sessionStatus = .running then
          match r with
          | none => s.cxt
          | some .cancel => { s.cxt with sessionStatus := .cancel }
          | some .suspend => { s.cxt with sessionStatus := .suspend }
        else s.cxt }

/-- `fw_upgrade_session_fin`. -/
def fin (s : Session) : Session :=
  s.freePartitionHdl.setCxt fun c =>
    { c with configBuf := none, imageHdr := [], sessionStatus := .notStart }

/-- What `fw_upgrade_session_finalize` takes as the result of the session. -/
def finalRet (s : Session) (ret : Except FuStatus Unit) : Except FuStatus Unit :=
  if s.cxt.sessionStatus = .cancel then .error .sessionCancelled
  else match ret with
    | .error e => .error e
    | .ok _ => if s.cxt.state ≠ .finish then .error .incomplete else .ok ()

/-- Make the trial FWD valid, and with it the new SBL if it has one; the handle that finds the SBL entry
    is not given back. -/
def validate (s : Session) : Session :=
  let fu := (fwUpgradeSetFwdInfo s.cxt.trialFwdIdx .status fwdStatusValid s.fu).2
  match fwUpgradeFindPartition s.cxt.trialFwdIdx sblImgId fu with
  | (.error _, fu) => { s with fu }
  | (.ok h, fu) => { s with fu := (fwUpgradeSetSblTrialFde s.cxt.trialSblIdx (fu.handles h).imgVersion fu).2 }

/-- The end of `fw_upgrade_session_finalize`: a suspended session is kept. -/
def leave (s : Session) (ret : Except FuStatus Unit) : Session :=
  if s.cxt.sessionStatus = .suspend then
    { s.freePartitionHdl with phase := .done (.error .sessionSuspend) }
  else { s.fin with phase := .done ret }

/-- `fw_upgrade_session_finalize`. -/
def finalize (s : Session) (ret : Except FuStatus Unit) : Session :=
  match s.finalRet ret with
  | .error e => s.poll.leave (.error e)
  | .ok _ =>
    if s.cxt.flags % 2 = flagAutoReboot then { s.validate.fin with phase := .done (.ok ()) }
    else s.validate.poll.leave (.ok ())

/-- The loop goes on, or ends with the result of the switch. -/
def afterSwitch : Except FuStatus Bool × Session → Session
  | (.ok true, s) => s
  | (.ok false, s) => { s with phase := .finalize (.ok ()) }
  | (.error e, s) => { s with phase := .finalize (.error e) }

/-- One pass of the worker. -/
def step (env : Env) (s : Session) : Session :=
  match s.phase with
  | .process =>
    let s := s.poll
    if s.cxt.sessionStatus = .running then afterSwitch (sessionSwitch env s)
    else { s with phase := .finalize (.ok ()) }
  | .finalize ret => s.poll.finalize ret
  | .done _ => s

/-- The first `n` passes of the worker. -/
def run (env : Env) (n : ℕ) (s : Session) : Session := (step env)^[n] s

/-- `fw_upgrade_session_resume`: a suspended session goes on in the loop. -/
def resume (s : Session) (script : Script) : Session :=
  match s.phase with
  | .done _ =>
    if s.cxt.sessionStatus = .suspend then
      { s with
        phase := .process
        script
        cxt := { s.cxt with
          sessionStatus := .running
          state := if State.resumeService.ctorIdx ≤ s.cxt.state.ctorIdx then .resumeService else s.cxt.state } }
    else s
  | _ => s

end Session

end Qcc730.Upgrade
