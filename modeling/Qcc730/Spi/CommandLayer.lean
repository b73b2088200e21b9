import Qcc730.Lib.Bytes
import Qcc730.Lib.Reach

/-! The SPI slave: the interrupt that stores the master's bytes in the intermediate ring, and the command layer task
    that reads them there (`qcspi_on_dwspi.c`).

    The interrupt takes bytes back: those of a no-operation, of a write, of a short read and of a whole IRW frame. All
    but the last move the write offset with an assignment to 16 bits before the remainder, of which `IR_MAX_SIZE` is a
    divisor. The IRW frame is taken back in one expression of type `int`, whose remainder is negative where the
    frame has passed the end of the ring or is shorter than eleven bytes. -/

namespace Qcc730.Spi
open Lib

/-! ### The intermediate ring -/

/-- `IR_MAX_SIZE` -/
abbrev irMaxSize : ℕ := 1024

/-- `IR_THRESH_DIFF` -/
abbrev irThreshDiff : ℕ := 600

/-- `CMD_FRAME_SIZE` -/
abbrev cmdFrameSize : ℕ := 7

/-- `IRW_DATA_SIZE` -/
abbrev irwDataSize : ℕ := 4

/-- The offsets of `g_spi_shared`, of type `uint16_t`, the bytes at `p_IR`, and the offsets at which these have been
    accessed. -/
structure IntermediateRing where
  bytes : Memory
  readOffset : ℕ
  writeOffset : ℕ
  irThreshold : ℕ
  touched : List ℕ

namespace IntermediateRing

variable (r : IntermediateRing)

/-- `RING_EMPTY` -/
def Empty : Prop := r.readOffset = r.writeOffset

instance : Decidable r.Empty := inferInstanceAs (Decidable (_ = _))

/-- `RING_LEVEL` -/
def level : ℕ :=
  if r.writeOffset < r.readOffset then irMaxSize + r.writeOffset - r.readOffset else r.writeOffset - r.readOffset

/-- The byte at the read offset. -/
def peek : UInt8 := r.bytes r.readOffset

/-- The byte at the read offset has been read. -/
def look : IntermediateRing := { r with touched := r.touched ++ [r.readOffset] }

/-- It is read, and the read offset moves on. -/
def pop : IntermediateRing := { r.look with readOffset := (r.readOffset + 1) % 65536 % irMaxSize }

/-- A byte is stored. -/
def push (value : UInt8) : IntermediateRing :=
  { r with
      bytes := Function.update r.bytes r.writeOffset value
      writeOffset := (r.writeOffset + 1) % 65536 % irMaxSize
      touched := r.touched ++ [r.writeOffset] }

/-- `write_offset -= k; write_offset %= IR_MAX_SIZE;` -/
def takeBack (k : ℕ) : IntermediateRing := { r with writeOffset := (r.writeOffset + 65536 - k) % 65536 % irMaxSize }

/-- `write_offset = (write_offset - (CMD_FRAME_SIZE + IRW_DATA_SIZE)) % IR_MAX_SIZE;` -/
def takeFrameBack : IntermediateRing :=
  { r with writeOffset := (((r.writeOffset : ℤ) - (cmdFrameSize + irwDataSize : ℕ)).tmod irMaxSize % 65536).toNat }

/-- `read_offset += k; read_offset %= IR_MAX_SIZE;` -/
def skip (k : ℕ) : IntermediateRing := { r with readOffset := (r.readOffset + k) % 65536 % irMaxSize }

def setThreshold (k : ℕ) : IntermediateRing :=
  { r with irThreshold :=
      if k < irThreshDiff then (r.readOffset + k) % irMaxSize else (r.readOffset + irThreshDiff) % irMaxSize }

end IntermediateRing

/-! ### The source -/

def cRdsr : UInt8 := 0x05
def cFread : UInt8 := 0x0B
def cWrite : UInt8 := 0x02
def cNop : UInt8 := 0x00
def cIrw : UInt8 := 0x82
def cMir : UInt8 := 0x83

/-- `SR_NRDY_MASK` -/
def srNrdyMask : BitVec 32 := 0x01000000

/-- `SR_RXOERR_MASK` -/
def srRxoerrMask : BitVec 32 := 0x08000000

/-- `struct command_s` -/
structure CommandS where
  command : UInt8
  address : ℕ
  rwDataLen : ℕ
  remRwDataLen : ℕ
  deriving DecidableEq, Repr

/-- The values of `state_isr`. -/
inductive IsrState where
  | cmd | len1 | len2 | addr1 | addr2 | addr3 | addr4 | readIsr | irwTrackIsr | writeTrackIsr
  deriving DecidableEq, Repr

/-- The values of `state` in the task; a command is a state too. -/
inductive TaskState where
  | init | cmd | len1 | len2 | addr1 | addr2 | addr3 | addr4 | dataWrite | irw | checkNextCmd
  | command (c : UInt8)
  deriving DecidableEq, Repr

/-- Where the task goes on. -/
inductive Point where
  /-- at the head of the loop -/
  | loop
  /-- behind the suspension at the head of the loop -/
  | switch
  /-- behind a suspension at the end of a case -/
  | next
  deriving DecidableEq, Repr

structure Isr where
  state : IsrState
  command : CommandS
  readInIsr : Bool
  writeCmd : Bool
  deriving DecidableEq, Repr

structure Task where
  state : TaskState
  command : CommandS
  busy : Bool
  point : Point
  asleep : Bool
  deriving DecidableEq, Repr

/-- The interrupt, the task and what they share. The memory that the master addresses holds none of it, and `sent` is
    what has gone to the transmit FIFO. -/
structure Slave where
  ring : IntermediateRing
  statusRegister : BitVec 32
  dataReadAddress : ℕ
  dataReadLen : ℕ
  dataReadRemLen : ℕ
  isTaskSuspended : Bool
  memory : Memory
  sent : Bytes
  isr : Isr
  task : Task

/-- `rem_rw_data_len--` -/
def dec16 (n : ℕ) : ℕ := (n + 65535) % 65536

namespace Slave

variable (s : Slave)

def setStatus (mask : BitVec 32) : Slave := { s with statusRegister := s.statusRegister ||| mask }

def clearStatus (mask : BitVec 32) : Slave := { s with statusRegister := s.statusRegister &&& ~~~mask }

/-- `SR_NRDY` is clear. -/
def Ready : Prop := s.statusRegister &&& srNrdyMask = 0

instance : Decidable s.Ready := inferInstanceAs (Decidable (_ = _))

def send (bytes : Bytes) : Slave := { s with sent := s.sent ++ bytes }

/-- `write_header_to_tx_fifo` -/
def writeHeaderToTxFifo : Slave := s.send [0xA5, 0xC7]

/-- `send_status_register` -/
def sendStatusRegister : Slave :=
  s.writeHeaderToTxFifo.send
    ([24, 16, 8, 0].map fun i => UInt8.ofNat (s.statusRegister.toNat / 2 ^ i))

/-- The `n` bytes from `address` on go to the transmit FIFO. -/
def sendMemory (address n : ℕ) : Slave := s.send ((List.range n).map fun i => s.memory (u32 (address + i)))

/-- `xTaskResumeFromISR` -/
def resume : Slave := { s with task := { s.task with asleep := false } }

/-! #### The interrupt -/

/-- The byte is stored, where the state is one that stores it; the ring is asserted not to be full. -/
def store (value : UInt8) : Option Slave :=
  if s.isr.writeCmd then some s
  else if s.isr.readInIsr then some s
  else if (s.ring.writeOffset + 1) % irMaxSize = s.ring.readOffset then none
  else some { s with ring := s.ring.push value }

/-- The commands FREAD and MIR. -/
def IsRead (c : UInt8) : Prop := c = cFread ∨ c = cMir

instance (c : UInt8) : Decidable (IsRead c) := inferInstanceAs (Decidable (_ ∨ _))

/-- The command byte. -/
def isrCmd (value : UInt8) : Slave :=
  let command := { s.isr.command with command := value }
  if value = cRdsr then { s with isr := { s.isr with command } }.resume
  else if value = cNop then { s with isr := { s.isr with command }, ring := s.ring.takeBack 1 }
  else if IsRead value ∨ value = cIrw then { s with isr := { s.isr with command, state := .len1 } }
  else if value = cWrite then
    { s with isr := { s.isr with command, state := .len1, writeCmd := true }, ring := s.ring.takeBack 1 }
  else { s with isr := { s.isr with command } }

/-- The second byte of the length. -/
def isrLen2 (value : UInt8) : Slave :=
  let len := s.isr.command.rwDataLen ||| value.toNat
  let command := { s.isr.command with rwDataLen := len, remRwDataLen := len }
  if IsRead command.command ∧ len ≤ 16 then
    { s with isr := { s.isr with command, state := .addr1, readInIsr := true }, ring := s.ring.takeBack 3 }
  else { s with isr := { s.isr with command, state := .addr1 } }

/-- The last byte of the address. -/
def isrAddr4 (value : UInt8) : Slave :=
  let command := { s.isr.command with address := s.isr.command.address ||| value.toNat }
  if command.command = cIrw then { s with isr := { s.isr with command, state := .irwTrackIsr } }
  else if command.command = cWrite then
    ({ s with isr := { s.isr with command, state := .writeTrackIsr } }.setStatus srNrdyMask).resume
  else if IsRead command.command ∧ s.isr.readInIsr then
    { s with isr := { s.isr with command, state := .readIsr, readInIsr := false } }
  else ({ s with isr := { s.isr with command, state := .cmd } }.setStatus srNrdyMask).resume

/-- A byte of the data of a write. -/
def isrWriteTrack (value : UInt8) : Slave :=
  let rem := dec16 s.isr.command.remRwDataLen
  let command := { s.isr.command with address := u32 (s.isr.command.address + 1), remRwDataLen := rem }
  let s := { s with memory := Function.update s.memory s.isr.command.address value }
  if rem = 0 then { s with isr := { s.isr with command, state := .cmd, writeCmd := false } }
  else { s with isr := { s.isr with command } }

/-- The end of an IRW frame. -/
def endIrw : Slave := if s.Ready then { s with ring := s.ring.takeFrameBack } else s

/-- A byte of the data of an IRW. -/
def isrIrwTrack : Slave :=
  let rem := dec16 s.isr.command.remRwDataLen
  let command := { s.isr.command with remRwDataLen := rem }
  if rem = 0 then { s with isr := { s.isr with command, state := .cmd } }.endIrw
  else { s with isr := { s.isr with command } }

/-- The byte behind a short read. -/
def isrRead : Slave :=
  let command := s.isr.command
  { s.writeHeaderToTxFifo.sendMemory command.address command.rwDataLen with
      isr := { s.isr with
        command := { command with address := u32 (command.address + command.rwDataLen) }
        state := .cmd } }

/-- The `switch` of the interrupt. -/
def track (value : UInt8) : Slave :=
  let command := s.isr.command
  match s.isr.state with
  | .cmd => s.isrCmd value
  | .len1 => { s with isr := { s.isr with command := { command with rwDataLen := value.toNat <<< 8 }, state := .len2 } }
  | .len2 => s.isrLen2 value
  | .addr1 =>
    { s with isr := { s.isr with command := { command with address := value.toNat <<< 24 }, state := .addr2 } }
  | .addr2 =>
    { s with isr := { s.isr with
        command := { command with address := command.address ||| value.toNat <<< 16 }, state := .addr3 } }
  | .addr3 =>
    { s with isr := { s.isr with
        command := { command with address := command.address ||| value.toNat <<< 8 }, state := .addr4 } }
  | .addr4 => s.isrAddr4 value
  | .writeTrackIsr => s.isrWriteTrack value
  | .irwTrackIsr => s.isrIrwTrack
  | .readIsr => s.isrRead

/-- One byte of the receive FIFO; no state follows where the ring is full. -/
def rxf (value : UInt8) : Option Slave := (s.store value).map fun s => s.track value

/-- The transmit FIFO is empty; `level` is its level. -/
def txe (level : ℕ) : Slave :=
  if s.dataReadAddress = 0 then s
  else
    let available := u32sub 0xFF (level % 256)
    let block := min (min s.dataReadRemLen available) 32
    let rem := s.dataReadRemLen - block
    let s := { s.sendMemory s.dataReadAddress block with
      dataReadAddress := u32 (s.dataReadAddress + block), dataReadRemLen := rem }
    if rem = 0 then { s with dataReadAddress := 0 }.clearStatus srNrdyMask else s

/-- The errors of the FIFOs: an overflow and an underflow of the receive FIFO. -/
def fifoError (rxo rxu : Bool) : Slave :=
  let s := if rxo then s.setStatus srRxoerrMask else s
  let s := if rxu then s.setStatus srNrdyMask else s
  if rxo ∨ rxu then (s.sendStatusRegister.clearStatus srRxoerrMask).clearStatus srNrdyMask else s

/-! #### The task -/

/-- `IS_TASK_SUSPENDED` -/
def setTaskSuspended (x : Bool) : Slave :=
  let s := { s with isTaskSuspended := x }
  if s.task.busy then s else s.clearStatus srNrdyMask

/-- `IS_TASK_SUSPENDED(true); vTaskSuspend(NULL);` -/
def suspend (point : Point) : Slave :=
  let s := s.setTaskSuspended true
  { s with task := { s.task with point, asleep := true } }

/-- The next iteration of the loop. -/
def goOn (state : TaskState) : Slave := { s with task := { s.task with state, point := .loop } }

/-- A byte of the ring becomes a part of the command. -/
def readInto (set : CommandS → ℕ → CommandS) (state : TaskState) : Slave :=
  let command := set s.task.command s.ring.peek.toNat
  { s with ring := s.ring.pop, task := { s.task with command } }.goOn state

/-- The command byte, which is asserted to be a command. -/
def taskCmd : Slave :=
  let c := s.ring.peek
  let s := { s with ring := s.ring.pop, task := { s.task with command := { s.task.command with command := c } } }
  if c = cNop then s.goOn .checkNextCmd
  else if c = cRdsr then s.goOn (.command cRdsr)
  else if IsRead c ∨ c = cWrite ∨ c = cIrw then s.goOn .len1
  else s.goOn .cmd

/-- One byte of the ring is written to the memory. -/
def copyByte : Slave :=
  let command := s.task.command
  { s with
      memory := Function.update s.memory command.address s.ring.peek
      ring := s.ring.pop
      task := { s.task with command :=
        { command with address := u32 (command.address + 1), remRwDataLen := dec16 command.remRwDataLen } } }

/-- `while (rem_rw_data_len != 0)` -/
def copyRest : ℕ → Slave → Slave
  | 0, s => s
  | n + 1, s => copyRest n s.copyByte

/-- `while (read_offset != IR_threshold)`, at most once round the ring. -/
def copyToThreshold : ℕ → Slave → Slave
  | 0, s => s
  | n + 1, s => if s.ring.readOffset = s.ring.irThreshold then s else copyToThreshold n s.copyByte

/-- What `C_WRITE` and `SM_DATA_WRITE` do with data that are not written yet. -/
def writeRest : Slave :=
  if s.ring.level ≥ s.task.command.remRwDataLen then
    let s := copyRest s.task.command.remRwDataLen s
    { s with task := { s.task with busy := false } }.goOn .checkNextCmd
  else
    ({ s with ring := s.ring.setThreshold s.task.command.remRwDataLen }.goOn .dataWrite).suspend .next

def taskDataWrite : Slave :=
  let s := copyToThreshold irMaxSize s
  if s.task.command.remRwDataLen = 0 then { s with task := { s.task with busy := false } }.goOn .checkNextCmd
  else s.writeRest

/-- `C_FREAD` and `C_MIR`; `level` is the level of the transmit FIFO. -/
def taskRead (level : ℕ) : Slave :=
  let s := { s with task := { s.task with busy := true } }
  let available := (0xFF + 256 - level % 256) % 256
  if available ≤ 2 + 6 then s.goOn s.task.state
  else
    let block := min s.task.command.rwDataLen (available - (2 + 6))
    let command := s.task.command
    let rem := (command.remRwDataLen + 65536 - block) % 65536
    let s := s.writeHeaderToTxFifo.sendMemory command.address block
    let command := { command with address := u32 (command.address + block), remRwDataLen := rem }
    let s := { s with task := { s.task with command } }
    if rem ≠ 0 then
      ({ s with
          dataReadAddress := command.address, dataReadLen := command.rwDataLen, dataReadRemLen := rem }.goOn
            .cmd).suspend .next
    else
      { s with
          dataReadAddress := 0, dataReadLen := 0, dataReadRemLen := 0,
          task := { s.task with busy := false } }.goOn .checkNextCmd

/-- `SM_IRW` -/
def taskIrw : Slave :=
  let rem := dec16 s.task.command.remRwDataLen
  let s := { s with task := { s.task with command := { s.task.command with remRwDataLen := rem } } }
  if rem = 0 then { s with ring := s.ring.skip s.task.command.rwDataLen }.goOn .checkNextCmd else s.goOn .irw

/-- `SM_CHECK_NEXT_CMD` -/
def taskCheckNextCmd : Slave :=
  if s.ring.level > 0 then
    if s.ring.peek = cRdsr then
      let s := s.sendStatusRegister
      { s with ring := s.ring.pop }.goOn .checkNextCmd
    else
      let s := { s with ring := s.ring.look }
      if s.ring.level ≥ cmdFrameSize then s.goOn .cmd else (s.goOn .checkNextCmd).suspend .next
  else (s.goOn .checkNextCmd).suspend .next

/-- The `switch` of the task. -/
def taskSwitch (level : ℕ) : Slave :=
  match s.task.state with
  | .init => (s.goOn .cmd).suspend .next
  | .cmd => s.taskCmd
  | .len1 => s.readInto (fun c b => { c with rwDataLen := b <<< 8 }) .len2
  | .len2 =>
    s.readInto (fun c b => { c with rwDataLen := c.rwDataLen ||| b, remRwDataLen := c.rwDataLen ||| b }) .addr1
  | .addr1 => s.readInto (fun c b => { c with address := b <<< 24 }) .addr2
  | .addr2 => s.readInto (fun c b => { c with address := c.address ||| b <<< 16 }) .addr3
  | .addr3 => s.readInto (fun c b => { c with address := c.address ||| b <<< 8 }) .addr4
  | .addr4 => s.readInto (fun c b => { c with address := c.address ||| b }) (.command s.task.command.command)
  | .dataWrite => s.taskDataWrite
  | .irw => s.taskIrw
  | .checkNextCmd => s.taskCheckNextCmd
  | .command c =>
    if IsRead c then s.taskRead level
    else if c = cWrite then { s with task := { s.task with busy := true } }.writeRest
    else if c = cIrw then s.goOn .irw
    else if c = cRdsr then
      if u32 (u32sub 0xFF level + 1) ≥ 2 + 6 then s.sendStatusRegister.goOn .checkNextCmd else s.goOn (.command cRdsr)
    else s.goOn (.command c)

/-- The states in which the loop does not wait for a byte. -/
def TakesNoByte : TaskState → Prop
  | .init => True
  | .checkNextCmd => True
  | .command c => IsRead c ∨ c = cRdsr
  | _ => False

instance : ∀ state, Decidable (TakesNoByte state)
  | .init | .checkNextCmd => inferInstanceAs (Decidable True)
  | .command c => inferInstanceAs (Decidable (IsRead c ∨ c = cRdsr))
  | .cmd | .len1 | .len2 | .addr1 | .addr2 | .addr3 | .addr4 | .dataWrite | .irw => inferInstanceAs (Decidable False)

/-- The task up to its next suspension or the end of the iteration, in one step. `C_WRITE`, `SM_CHECK_NEXT_CMD`, what
    follows the first loop of `SM_DATA_WRITE` and `IS_TASK_SUSPENDED` mask `ssi_rxf_intr`, and the other interrupts
    leave the ring alone. Elsewhere an iteration moves the read offset, which the interrupt does not write, and of what
    the interrupt writes it reads the write offset at most, once, and bytes that had come before. -/
def runTask (level : ℕ) : Slave :=
  if s.task.asleep then s
  else
    match s.task.point with
    | .loop =>
      if ¬TakesNoByte s.task.state ∧ s.ring.Empty then s.suspend .switch else s.taskSwitch level
    | .switch => (s.setTaskSuspended false).taskSwitch level
    | .next => (s.setTaskSuspended false).goOn s.task.state

end Slave

/-! ### Runs -/

inductive Action where
  | rxf (value : UInt8)
  | txe (level : ℕ)
  | fifoError (rxo rxu : Bool)
  | task (level : ℕ)
  deriving DecidableEq, Repr

namespace Slave

/-- One part of the interrupt, or of the task. -/
def step (s : Slave) : Action → Option Slave
  | .rxf value => s.rxf value
  | .txe level => some (s.txe level)
  | .fifoError rxo rxu => some (s.fifoError rxo rxu)
  | .task level => some (s.runTask level)

def act (s : Slave) (a : Action) : Slave := (s.step a).getD s

/-- Reset. -/
def start (bytes memory : Memory) : Slave where
  ring := ⟨bytes, 0, 0, 0, []⟩
  statusRegister := 0
  dataReadAddress := 0
  dataReadLen := 0
  dataReadRemLen := 0
  isTaskSuspended := false
  memory := memory
  sent := []
  isr := ⟨.cmd, ⟨0, 0, 0, 0⟩, false, false⟩
  task := ⟨.init, ⟨0, 0, 0, 0⟩, false, .loop, false⟩

end Slave

/-! ### The offsets -/

/-- The offsets are below `IR_MAX_SIZE`, and so is every offset at which the ring has been accessed. -/
structure IntermediateRing.InRing (r : IntermediateRing) : Prop where
  read : r.readOffset < irMaxSize
  write : r.writeOffset < irMaxSize
  touched : ∀ o ∈ r.touched, o < irMaxSize

namespace IntermediateRing

variable {r : IntermediateRing}

theorem InRing.look (h : r.InRing) : r.look.InRing where
  read := h.read
  write := h.write
  touched := fun o ho => (List.mem_append.mp ho).elim (h.touched o) fun ho => by
    rw [List.mem_singleton.mp ho]
    exact h.read

theorem InRing.pop (h : r.InRing) : r.pop.InRing where
  read := Nat.mod_lt _ (by decide)
  write := h.write
  touched := h.look.touched

theorem InRing.push (h : r.InRing) (value : UInt8) : (r.push value).InRing where
  read := h.read
  write := Nat.mod_lt _ (by decide)
  touched := fun o ho => (List.mem_append.mp ho).elim (h.touched o) fun ho => by
    rw [List.mem_singleton.mp ho]
    exact h.write

theorem InRing.takeBack (h : r.InRing) (k : ℕ) : (r.takeBack k).InRing where
  read := h.read
  write := by
    simp only [IntermediateRing.takeBack]
    exact Nat.mod_lt _ (by decide)
  touched := h.touched

theorem InRing.skip (h : r.InRing) (k : ℕ) : (r.skip k).InRing := ⟨Nat.mod_lt _ (by decide), h.write, h.touched⟩

theorem InRing.setThreshold (h : r.InRing) (k : ℕ) : (r.setThreshold k).InRing := ⟨h.read, h.write, h.touched⟩

/-- A frame taken back stays in the ring if and only if it does not pass the ring's end. -/
theorem inRing_takeFrameBack_iff (h : r.InRing) :
    r.takeFrameBack.InRing ↔ cmdFrameSize + irwDataSize ≤ r.writeOffset := by
  have hw : r.writeOffset < 1024 := h.write
  have hback : r.takeFrameBack.writeOffset = (((r.writeOffset : ℤ) - 11).tmod 1024 % 65536).toNat := rfl
  change _ ↔ 11 ≤ r.writeOffset
  rcases le_or_gt 11 r.writeOffset with hle | hlt
  · have htmod : ((r.writeOffset : ℤ) - 11).tmod 1024 = r.writeOffset - 11 :=
      Int.tmod_eq_of_lt (by omega) (by omega)
    rw [htmod] at hback
    refine iff_of_true ⟨h.read, ?_, h.touched⟩ hle
    rw [hback, irMaxSize]
    omega
  · have htmod : ((r.writeOffset : ℤ) - 11).tmod 1024 = r.writeOffset - 11 := by
      rw [← neg_neg ((r.writeOffset : ℤ) - 11), Int.neg_tmod, Int.tmod_eq_of_lt (by omega) (by omega)]
    rw [htmod] at hback
    refine iff_of_false (fun hin => ?_) (by omega)
    have hwrite : r.takeFrameBack.writeOffset < 1024 := hin.write
    omega

end IntermediateRing

namespace Slave

variable {s : Slave} {n level : ℕ} {value : UInt8}

@[simp] theorem ring_setStatus (mask : BitVec 32) : (s.setStatus mask).ring = s.ring := rfl

@[simp] theorem ring_clearStatus (mask : BitVec 32) : (s.clearStatus mask).ring = s.ring := rfl

@[simp] theorem ring_sendStatusRegister : s.sendStatusRegister.ring = s.ring := rfl

@[simp] theorem ring_sendMemory (address : ℕ) : (s.sendMemory address n).ring = s.ring := rfl

@[simp] theorem ring_writeHeaderToTxFifo : s.writeHeaderToTxFifo.ring = s.ring := rfl

@[simp] theorem ring_resume : s.resume.ring = s.ring := rfl

@[simp] theorem ring_goOn (state : TaskState) : (s.goOn state).ring = s.ring := rfl

@[simp] theorem ring_setTaskSuspended (x : Bool) : (s.setTaskSuspended x).ring = s.ring := by
  rw [setTaskSuspended]
  dsimp only
  split_ifs <;> rfl

@[simp] theorem ring_suspend (point : Point) : (s.suspend point).ring = s.ring := ring_setTaskSuspended true

theorem ring_txe : (s.txe level).ring = s.ring := by
  rw [txe]
  dsimp only
  split_ifs <;> rfl

theorem ring_fifoError (rxo rxu : Bool) : (s.fifoError rxo rxu).ring = s.ring := by
  cases rxo <;> cases rxu <;> rfl

/-! #### The interrupt -/

/-- The write offset behind the byte at hand. -/
def nextOffset (s : Slave) : ℕ :=
  if s.isr.writeCmd ∨ s.isr.readInIsr then s.ring.writeOffset else (s.ring.writeOffset + 1) % irMaxSize

/-- Where the byte is the last one of an IRW frame and `SR_NRDY` is clear, a whole frame lies before the write offset. -/
def FrameStays (s : Slave) : Action → Prop
  | .rxf _ => s.isr.state = .irwTrackIsr → dec16 s.isr.command.remRwDataLen = 0 → s.Ready →
    cmdFrameSize + irwDataSize ≤ s.nextOffset
  | _ => True

instance (s : Slave) : ∀ a, Decidable (s.FrameStays a)
  | .rxf _ => inferInstanceAs (Decidable (_ → _ → _ → _))
  | .txe _ | .fifoError _ _ | .task _ => inferInstanceAs (Decidable True)

theorem store_spec {t : Slave} (h : s.ring.InRing) (hs : s.store value = some t) :
    t.ring.InRing ∧ t.ring.writeOffset = s.nextOffset ∧ t.isr = s.isr ∧ t.statusRegister = s.statusRegister := by
  rw [store] at hs
  rw [nextOffset]
  split_ifs at hs with h₁ h₂ h₃
  · obtain rfl := Option.some.inj hs
    exact ⟨h, (if_pos (.inl h₁)).symm, rfl, rfl⟩
  · obtain rfl := Option.some.inj hs
    exact ⟨h, (if_pos (.inr h₂)).symm, rfl, rfl⟩
  · obtain rfl := Option.some.inj hs
    have hw : s.ring.writeOffset < 1024 := h.write
    refine ⟨h.push value, ?_, rfl, rfl⟩
    rw [if_neg (by simp [h₁, h₂]), IntermediateRing.push]
    dsimp only [irMaxSize]
    omega

theorem inRing_isrCmd (h : s.ring.InRing) : (s.isrCmd value).ring.InRing := by
  rw [isrCmd]
  dsimp only
  split_ifs
  · exact h
  · exact h.takeBack 1
  · exact h
  · exact h.takeBack 1
  · exact h

theorem inRing_isrLen2 (h : s.ring.InRing) : (s.isrLen2 value).ring.InRing := by
  rw [isrLen2]
  dsimp only
  split_ifs
  · exact h.takeBack 3
  · exact h

theorem ring_isrAddr4 : (s.isrAddr4 value).ring = s.ring := by
  rw [isrAddr4]
  dsimp only
  split_ifs <;> rfl

theorem ring_isrWriteTrack : (s.isrWriteTrack value).ring = s.ring := by
  rw [isrWriteTrack]
  dsimp only
  split_ifs <;> rfl

/-- The frame is taken back when its last byte has come. -/
theorem ring_isrIrwTrack : s.isrIrwTrack.ring =
    if dec16 s.isr.command.remRwDataLen = 0 ∧ s.Ready then s.ring.takeFrameBack else s.ring := by
  have hend : ∀ t : Slave, t.endIrw.ring = if t.Ready then t.ring.takeFrameBack else t.ring := fun t => by
    rw [endIrw]
    split_ifs <;> rfl
  rw [isrIrwTrack]
  dsimp only
  by_cases hrem : dec16 s.isr.command.remRwDataLen = 0
  · rw [if_pos hrem, hend]
    exact if_congr ⟨fun hready => ⟨hrem, hready⟩, And.right⟩ rfl rfl
  · rw [if_neg hrem, if_neg fun h => hrem h.1]

theorem inRing_track_iff (h : s.ring.InRing) : (s.track value).ring.InRing ↔
    (s.isr.state = .irwTrackIsr → dec16 s.isr.command.remRwDataLen = 0 → s.Ready →
      cmdFrameSize + irwDataSize ≤ s.ring.writeOffset) := by
  rw [track]
  cases hstate : s.isr.state <;> dsimp only
  case cmd => exact iff_of_true (inRing_isrCmd h) nofun
  case len2 => exact iff_of_true (inRing_isrLen2 h) nofun
  case addr4 => exact iff_of_true (by rw [ring_isrAddr4]; exact h) nofun
  case writeTrackIsr => exact iff_of_true (by rw [ring_isrWriteTrack]; exact h) nofun
  case irwTrackIsr =>
    rw [ring_isrIrwTrack]
    split_ifs with hback
    · rw [IntermediateRing.inRing_takeFrameBack_iff h]
      exact ⟨fun hle _ _ _ => hle, fun hle => hle rfl hback.1 hback.2⟩
    · exact iff_of_true h fun _ hrem hready => absurd ⟨hrem, hready⟩ hback
  all_goals exact iff_of_true h nofun

/-! #### The task -/

theorem inRing_readInto (h : s.ring.InRing) (set : CommandS → ℕ → CommandS) (state : TaskState) :
    (s.readInto set state).ring.InRing := h.pop

theorem inRing_copyRest (h : s.ring.InRing) : (copyRest n s).ring.InRing := by
  induction n generalizing s with
  | zero => exact h
  | succ n ih => exact ih h.pop

theorem inRing_copyToThreshold (h : s.ring.InRing) : (copyToThreshold n s).ring.InRing := by
  induction n generalizing s with
  | zero => exact h
  | succ n ih =>
    rw [copyToThreshold]
    split_ifs
    · exact h
    · exact ih h.pop

theorem inRing_writeRest (h : s.ring.InRing) : s.writeRest.ring.InRing := by
  rw [writeRest]
  dsimp only
  split_ifs
  · exact inRing_copyRest h
  · rw [ring_suspend]
    exact h.setThreshold _

theorem inRing_taskDataWrite (h : s.ring.InRing) : s.taskDataWrite.ring.InRing := by
  rw [taskDataWrite]
  dsimp only
  split_ifs
  · exact inRing_copyToThreshold h
  · exact inRing_writeRest (inRing_copyToThreshold h)

theorem ring_taskRead : (s.taskRead level).ring = s.ring := by
  rw [taskRead]
  dsimp only
  split_ifs
  · rfl
  · rw [ring_suspend]
    rfl
  · rfl

theorem inRing_taskCmd (h : s.ring.InRing) : s.taskCmd.ring.InRing := by
  rw [taskCmd]
  dsimp only
  split_ifs <;> exact h.pop

theorem inRing_taskIrw (h : s.ring.InRing) : s.taskIrw.ring.InRing := by
  rw [taskIrw]
  dsimp only
  generalize dec16 s.task.command.remRwDataLen = rem
  split_ifs
  · rw [ring_goOn]
    exact h.skip _
  · rw [ring_goOn]
    exact h

theorem inRing_taskCheckNextCmd (h : s.ring.InRing) : s.taskCheckNextCmd.ring.InRing := by
  rw [taskCheckNextCmd]
  dsimp only
  split_ifs
  · exact h.pop
  · exact h.look
  · rw [ring_suspend]
    exact h.look
  · rw [ring_suspend]
    exact h

theorem inRing_taskSwitch (h : s.ring.InRing) : (s.taskSwitch level).ring.InRing := by
  rw [taskSwitch]
  cases s.task.state <;> dsimp only
  case init =>
    rw [ring_suspend]
    exact h
  case cmd => exact inRing_taskCmd h
  case dataWrite => exact inRing_taskDataWrite h
  case irw => exact inRing_taskIrw h
  case checkNextCmd => exact inRing_taskCheckNextCmd h
  case command c =>
    split_ifs
    · rw [ring_taskRead]
      exact h
    · exact inRing_writeRest h
    all_goals exact h
  all_goals exact inRing_readInto h _ _

theorem inRing_runTask (h : s.ring.InRing) : (s.runTask level).ring.InRing := by
  rw [runTask]
  by_cases hasleep : s.task.asleep
  · rw [if_pos hasleep]
    exact h
  rw [if_neg hasleep]
  cases s.task.point <;> dsimp only
  case loop =>
    split_ifs
    · rw [ring_suspend]
      exact h
    · exact inRing_taskSwitch h
  case switch => exact inRing_taskSwitch (by rwa [ring_setTaskSuspended])
  case next =>
    rw [ring_goOn, ring_setTaskSuspended]
    exact h

/-- The loop up to the threshold ends at it. -/
theorem copyToThreshold_done (hr : s.ring.readOffset < irMaxSize) (ht : s.ring.irThreshold < irMaxSize)
    (hn : (s.ring.irThreshold + irMaxSize - s.ring.readOffset) % irMaxSize ≤ n) :
    (copyToThreshold n s).ring.readOffset = (copyToThreshold n s).ring.irThreshold := by
  rw [irMaxSize] at hr ht hn
  induction n generalizing s with
  | zero =>
    rw [copyToThreshold]
    omega
  | succ n ih =>
    rw [copyToThreshold]
    split_ifs with heq
    · exact heq
    · have hread : s.copyByte.ring.readOffset = (s.ring.readOffset + 1) % 65536 % 1024 := rfl
      have hthreshold : s.copyByte.ring.irThreshold = s.ring.irThreshold := rfl
      exact ih (by omega) (by omega) (by omega)

/-! ### Runs -/

/-- One step: the offsets stay in the ring if and only if the frame does. -/
theorem inRing_act_iff {a : Action} (h : s.ring.InRing) (hl : (s.step a).isSome) :
    (s.act a).ring.InRing ↔ s.FrameStays a := by
  cases a with
  | rxf value =>
    rw [step, rxf, Option.isSome_map] at hl
    obtain ⟨t, ht⟩ := Option.isSome_iff_exists.mp hl
    obtain ⟨hin, hwrite, hisr, hstatus⟩ := store_spec h ht
    rw [act, step, rxf, ht, Option.map_some, Option.getD_some, inRing_track_iff hin, hwrite, hisr, Ready, hstatus]
    rfl
  | txe level => exact iff_of_true (by rw [act, step, Option.getD_some, ring_txe]; exact h) trivial
  | fifoError rxo rxu => exact iff_of_true (by rw [act, step, Option.getD_some, ring_fifoError]; exact h) trivial
  | task level => exact iff_of_true (by rw [act, step, Option.getD_some]; exact inRing_runTask h) trivial

end Slave

/-- In every run that does not hit the assertion for a full ring: all states reached have their offsets in the ring,
    and all accesses were there, if and only if no IRW frame is taken back that passes the end of the ring or is
    shorter than eleven bytes at its beginning. -/
theorem offsets_in_ring_iff {bytes memory : Memory} {as : List Action}
    (hl : Along Slave.act (fun s a => (s.step a).isSome) (.start bytes memory) as) :
    Along Slave.act (fun s a => (s.act a).ring.InRing) (.start bytes memory) as ↔
      Along Slave.act Slave.FrameStays (.start bytes memory) as :=
  Along.iff (I := fun s => s.ring.InRing) (Q := Slave.FrameStays)
    (fun _ _ h hl hq => (Slave.inRing_act_iff h hl).mpr hq) (fun _ _ h hl => Slave.inRing_act_iff h hl)
    ⟨Nat.zero_lt_succ _, Nat.zero_lt_succ _, fun _ ho => absurd ho List.not_mem_nil⟩ hl

/-- The bytes of an IRW frame with `n` bytes of data. -/
def irwFrame (n : UInt8) : List Action := ([cIrw, 0, n, 0, 0, 0, 0] ++ List.replicate n.toNat 0).map .rxf

/-- A frame of four bytes of data from reset on. -/
theorem offsets_in_ring_frame : Along Slave.act (fun s a => (s.act a).ring.InRing)
    (.start (fun _ => 0) fun _ => 0) (irwFrame 4) :=
  (offsets_in_ring_iff (by decide)).mpr (by decide)

/-- A frame with one byte of data from reset on: three bytes are missing before the ring. -/
theorem short_frame_leaves_ring : ¬∀ (bytes memory : Memory) (as : List Action),
    Along Slave.act (fun s a => (s.step a).isSome) (.start bytes memory) as →
      Along Slave.act (fun s a => (s.act a).ring.InRing) (.start bytes memory) as := by
  intro h
  have hin := h (fun _ => 0) (fun _ => 0) (irwFrame 1) (by decide)
  exact absurd (hin.2.2.2.2.2.2.2.1.write) (by decide)

end Qcc730.Spi
