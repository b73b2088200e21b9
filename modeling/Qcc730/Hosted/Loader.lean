import Qcc730.Lib.Reach

/-! The image loader of the hosted second-stage boot loader.

    The host announces an image and its size, the loader asks for it chunk by chunk and writes each chunk to
    RRAM. One pass of the loop of `sys_loader` is one step. What a pass sees of the host is the message at the
    read index of the A2F ring, if there is one, and whether the F2A ring has room for an answer. A message
    is what the three message types make of the same buffer: the words behind the header are an image size, an
    offset or a flag, whichever type it is read as, and the bytes behind them are the data, which may be read
    past the end of the buffer. -/

namespace Qcc730.Hosted
open Lib

/-- `soft_id_t`, the two identifiers the loader tells apart. -/
def wlanImgId : ℕ := 2
def bdfId : ℕ := 4

/-- `a2f_dfu_msg_id_t`. -/
def a2fDfuReq : UInt16 := 1
def a2fDfuDataTransferCfm : UInt16 := 2
def a2fDfuDataTransferDoneRsp : UInt16 := 3

def hostCmdReset : ℕ := 0x7f
def hostCmdBoot : ℕ := 0x3f

def dfuBuffSize : ℕ := 0x400

/-- `RRAM_START` and the byte after `RRAM_END`. -/
def rramStart : ℕ := 0x200000
def rramEnd : ℕ := 0x380000

/-- `APP_IMAGE_START_ADDRESS` and `RAW_FILE_START_ADDRESS` of the linker script. -/
def appImageStart : ℕ := 0x21A400
def rawFileStart : ℕ := 0x36A000

/-- The BDF region starts here and ends with the RRAM. -/
def bdfStart : ℕ := 0x37A000

/-- A buffer of the A2F ring. -/
structure Msg where
  msgId : UInt16
  /-- the word after the header -/
  word1 : UInt32
  word2 : UInt32
  /-- the byte after the two words -/
  byte3 : UInt8
  /-- memory from the data of a transfer confirm on -/
  data : ℕ → UInt8

namespace Msg

/-- `a2f_dfu_start_req_t`. -/
def dfuImgsize (m : Msg) : ℕ := m.word1.toNat
def softIdBitmap (m : Msg) : ℕ := m.word2.toNat % 2 ^ 8

/-- `a2f_dfu_transfer_header_cfm_t`. -/
def elfOffset (m : Msg) : ℕ := m.word1.toNat
def programLen (m : Msg) : ℕ := m.word2.toNat
def softId (m : Msg) : ℕ := m.byte3.toNat

/-- `a2f_dfu_transfer_done_rsp_t`. -/
def moreResource (m : Msg) : ℕ := m.word1.toNat % 2 ^ 8

end Msg

/-- `sys_img_load_state_t`. -/
inductive LoadState where
  | waitForDfu
  | checkForDfuBitmap
  | requestProgram
  | waitForProgram
  | resourceTransferCompleted
  | resourceTransferConfirm
  | sendRebootCmd
  | resourceWaitForReboot
  deriving DecidableEq, Repr

/-- `sbl_func_status_t`, as far as `sys_loader` returns it. -/
inductive FuncStatus where
  | success
  | reset
  deriving DecidableEq, Repr

/-- `sys_loader_cntxt_t`. -/
structure LoaderCntxt where
  softidInProgress : ℕ
  startOffset : ℕ
  fileSize : ℕ
  progLen : ℕ
  runningOffset : ℕ
  totalPkts : ℕ
  currPktCount : ℕ
  softidDfuBitmap : ℕ
  softidDfuDoneBitmap : ℕ
  deriving DecidableEq, Repr

/-- `f2a_dfu_transfer_req_t`. -/
structure TransferReq where
  elfOffset : ℕ
  programLen : ℕ
  softId : ℕ
  deriving DecidableEq, Repr

/-- A chunk that was written: its place in the image, and the bytes. -/
structure Chunk where
  offset : ℕ
  payload : List UInt8
  deriving DecidableEq, Repr

structure Loader where
  state : LoadState
  cntxt : LoaderCntxt
  rram : ℕ → UInt8
  /-- the last request sent to the host -/
  request : Option TransferReq
  /-- the chunks of this image that were written, in order -/
  chunks : List Chunk
  /-- start and length of every write to RRAM -/
  writes : List (ℕ × ℕ)
  /-- what `sys_loader` returned -/
  result : Option FuncStatus

/-- What a pass of the loop finds. -/
structure Poll where
  /-- the message at the read index, unless the ring is empty -/
  a2f : Option Msg
  /-- the F2A ring has room -/
  room : Bool

/-- `rram_verify_address`. -/
def rramVerifyAddress (address length : ℕ) : Bool :=
  rramStart ≤ address ∧ address < rramEnd ∧ address % 4 = 0 ∧ length ≤ rramEnd - address

/-- The bytes that `rram_write_dxe` copies, whole blocks and the parts of blocks at the ends. -/
def rramBlocks (mem : ℕ → UInt8) (destination : ℕ) (source : ℕ → UInt8) (length : ℕ) : ℕ → UInt8 :=
  fun a => if destination ≤ a ∧ a < destination + length then source (a - destination) else mem a

namespace Loader

/-- After `init_config_table`. -/
def init (rram : ℕ → UInt8) : Loader :=
  { state := .waitForDfu
    cntxt := ⟨0, 0, 0, 0, 0, 0, 0, 0, 0⟩
    rram := rram
    request := none
    chunks := []
    writes := []
    result := none }

/-- WAIT_FOR_DFU, with `recieve_dfu_req`. A message of another type is left in the ring. -/
def waitForDfu (s : Loader) (p : Poll) : Loader :=
  match p.a2f with
  | none => s
  | some m =>
    if m.msgId = a2fDfuReq then
      let s := { s with
        state := .checkForDfuBitmap
        cntxt := { s.cntxt with softidDfuBitmap := m.softIdBitmap, fileSize := m.dfuImgsize } }
      if m.softIdBitmap = hostCmdReset then { s with result := some .reset }
      else if m.softIdBitmap = hostCmdBoot then { s with result := some .success }
      else s
    else s

/-- `total_pkts`, a 16-bit field. -/
def totalPktsOf (fileSize : ℕ) : ℕ :=
  let total := fileSize / dfuBuffSize % 2 ^ 16
  let total := if fileSize % dfuBuffSize ≠ 0 then (total + 1) % 2 ^ 16 else total
  if total = 0 then 1 else total

/-- CHECK_FOR_DFU_BITMAP. -/
def checkForDfuBitmap (s : Loader) (p : Poll) : Loader :=
  if p.room then
    if s.cntxt.softidDfuBitmap = 0 then { s with result := some .success }
    else
      let softId :=
        if s.cntxt.softidDfuBitmap.testBit 1 then wlanImgId
        else if s.cntxt.softidDfuBitmap.testBit 2 then bdfId
        else 0
      { s with
        state := .requestProgram
        cntxt := { s.cntxt with
          softidDfuDoneBitmap := 0
          totalPkts := totalPktsOf s.cntxt.fileSize
          currPktCount := 0
          startOffset := 0
          softidInProgress := softId
          progLen := dfuBuffSize }
        chunks := [] }
  else s

/-- REQUEST_PROGRAM, with `send_dfu_data_transfer_req`. -/
def requestProgram (s : Loader) (p : Poll) : Loader :=
  if s.cntxt.currPktCount ≤ s.cntxt.totalPkts then
    let progLen :=
      if s.cntxt.currPktCount + 1 = s.cntxt.totalPkts then
        if s.cntxt.fileSize % dfuBuffSize = 0 then dfuBuffSize else s.cntxt.fileSize % dfuBuffSize
      else dfuBuffSize
    let runningOffset := (s.cntxt.startOffset + s.cntxt.currPktCount * dfuBuffSize) % 2 ^ 32
    let s := { s with cntxt := { s.cntxt with progLen := progLen, runningOffset := runningOffset } }
    if p.room then
      { s with
        state := .waitForProgram
        request := some ⟨runningOffset, progLen, s.cntxt.softidInProgress⟩ }
    else s
  else { s with state := .resourceTransferCompleted }

/-- `data_len` of `recieve_dfu_data_transfer_confirm`: a message of another type is taken as one without data. -/
def dataLen (m : Msg) : ℕ := if m.msgId = a2fDfuDataTransferCfm then m.programLen else 0

/-- Where the image goes; `bdfAddr` is `__app_image_bdf_addr`. -/
def fileStart (bdfAddr : UInt32) (c : LoaderCntxt) : ℕ :=
  if c.softidInProgress = wlanImgId then appImageStart
  else if c.softidInProgress = bdfId then bdfAddr.toNat
  else 0

/-- Where the chunk goes. -/
def destination (bdfAddr : UInt32) (c : LoaderCntxt) : ℕ :=
  (fileStart bdfAddr c + (c.runningOffset + 2 ^ 32 - c.startOffset)) % 2 ^ 32

/-- The test before the write. -/
def inRange (c : LoaderCntxt) (dst : ℕ) : Bool :=
  ¬ ((c.softidInProgress = wlanImgId ∧ (dst < appImageStart ∨ rawFileStart < dst)) ∨
    (c.softidInProgress = bdfId ∧ (dst < bdfStart ∨ rramEnd < dst)))

/-- `boot_sbl_rram_write`; its error is printed and the loader goes on. -/
def rramWrite (s : Loader) (m : Msg) (dst length : ℕ) : Loader :=
  if rramVerifyAddress dst length then
    { s with
      rram := rramBlocks s.rram dst m.data length
      chunks := s.chunks ++ [⟨s.cntxt.runningOffset, (List.range length).map m.data⟩]
      writes := s.writes ++ [(dst, length)] }
  else s

/-- WAIT_FOR_PROGRAM, with `recieve_dfu_data_transfer_confirm`: its comparison of the confirm with the request has
    no effect. -/
def waitForProgram (bdfAddr : UInt32) (s : Loader) (p : Poll) : Loader :=
  match p.a2f with
  | none => s
  | some m =>
    let dst := destination bdfAddr s.cntxt
    if inRange s.cntxt dst then
      let s := s.rramWrite m dst (dataLen m)
      let count := (s.cntxt.currPktCount + 1) % 2 ^ 16
      { s with
        cntxt := { s.cntxt with currPktCount := count }
        state := if count < s.cntxt.totalPkts then .requestProgram else .resourceTransferCompleted }
    else s

/-- RESOURCE_TRANSFER_CONFIRM, with `recieve_dfu_transfer_done_rsp`. -/
def resourceTransferConfirm (s : Loader) (p : Poll) : Loader :=
  match p.a2f with
  | none => s
  | some m =>
    if m.msgId = a2fDfuDataTransferDoneRsp then
      { s with
        cntxt := { s.cntxt with
          softidDfuDoneBitmap := s.cntxt.softidDfuDoneBitmap ||| s.cntxt.softidInProgress }
        state :=
          if m.moreResource ≠ 0 then .waitForDfu
          else if wlanImgId ≤ s.cntxt.softidInProgress then .waitForDfu
          else .sendRebootCmd }
    else s

/-- One pass of the loop of `sys_loader`. -/
def step (bdfAddr : UInt32) (s : Loader) (p : Poll) : Loader :=
  if s.result.isSome then s
  else
    match s.state with
    | .waitForDfu => s.waitForDfu p
    | .checkForDfuBitmap => s.checkForDfuBitmap p
    | .requestProgram => s.requestProgram p
    | .waitForProgram => s.waitForProgram bdfAddr p
    | .resourceTransferCompleted => if p.room then { s with state := .resourceTransferConfirm } else s
    | .resourceTransferConfirm => s.resourceTransferConfirm p
    | .sendRebootCmd => if p.room then { s with state := .resourceWaitForReboot, result := some .success } else s
    | .resourceWaitForReboot => { s with state := .waitForDfu }

def Step (bdfAddr : UInt32) (s s' : Loader) : Prop := ∃ p, s' = s.step bdfAddr p

end Loader

end Qcc730.Hosted
