import Qcc730.Flash.Device
import Qcc730.Lib.Reach

/-! The flash driver below the page and block writes of `Flash.Device`: `drv_flash_write` and
    `drv_flash_erase` with the commands they put on the QSPI bus.

    A call is refused while the driver is not initialised or busy, and when its range fails the 32-bit
    checks. An accepted call goes through its loop: write enable, one command, wait until the chip is
    idle. Either wait may end in an error, which ends the call there; how each one ends is an input
    (`Chip`). The result of the command itself is not looked at.

    A write is split at page boundaries, so that the chip's page programs put together are one AND over
    the range. An erase goes over units of 4 KB, a bulk, or the whole chip; its range check multiplies
    before it compares, and a product of 2³² or more can come out inside the device. -/

namespace Qcc730.Flash
open Lib

/-- `FLASH_STATUS`, the values the two functions return. -/
inductive DrvStatus where
  | deviceDone
  | deviceFail
  | invalidParameter
  | deviceBusy
  deriving DecidableEq, Repr

/-- `flash_erase_type_t`; `other` is any value outside the enumeration. -/
inductive EraseType where
  | block
  | bulk
  | chip
  | other (v : ℕ)
  deriving DecidableEq, Repr

/-- `flash_config_data_t`: what the write and the erase read of it. -/
structure FlashConfig where
  erase4kbOpcode : UInt8
  bulkEraseSize4kb : UInt8
  bulkEraseOpcode : UInt8
  chipEraseOpcode : UInt8
  densityInBlocks : ℕ
  /-- the chip is smaller than the 32-bit address space -/
  density_lt : densityInBlocks * 4096 < 2 ^ 32

/-- An entry of `flash_device_config` with the given density: the other fields are alike in all. -/
def FlashConfig.entry (density : ℕ) (h : density * 4096 < 2 ^ 32) : FlashConfig where
  erase4kbOpcode := 0x20
  bulkEraseSize4kb := 16
  bulkEraseOpcode := 0xD8
  chipEraseOpcode := 0x60
  densityInBlocks := density
  density_lt := h

/-- The chip's size in bytes. -/
def FlashConfig.bytes (c : FlashConfig) : ℕ := c.densityInBlocks * 4096

/-- The bytes one erase command of the type erases; `none` for a type the chip does not have. -/
def FlashConfig.unit (c : FlashConfig) : EraseType → Option ℕ
  | .block => if c.erase4kbOpcode = 0 then none else some 4096
  | .bulk =>
    if c.bulkEraseSize4kb = 0 ∨ c.bulkEraseOpcode = 0 then none else some (c.bulkEraseSize4kb.toNat * 4096)
  | .chip => if c.chipEraseOpcode = 0 then none else some (c.densityInBlocks * 4096)
  | .other _ => none

/-- A command that changes the array. -/
inductive FlashCmd where
  /-- page program of `data` at `address` -/
  | pageWrite (address : ℕ) (data : Bytes)
  /-- erase of the `size` bytes at `address` -/
  | erase (address size : ℕ)
  deriving DecidableEq

/-- The addresses a command works on. -/
def FlashCmd.range : FlashCmd → Range
  | .pageWrite a d => ⟨a, d.length⟩
  | .erase a n => ⟨a, n⟩

/-- The array after a command: a page program can only clear bits. -/
def FlashCmd.app (m : Memory) : FlashCmd → Memory
  | .pageWrite a d => m.program a d
  | .erase a n => m.erase a n

/-- `flash_init_done`, `flash_context`, the array and the commands issued so far. -/
structure Driver where
  initDone : Bool
  /-- `flash_context.state`; 0 is idle -/
  state : ℕ
  config : FlashConfig
  flash : Memory
  issued : List FlashCmd

/-- `drv_qspi_run_cmd` of a command that changes the array. -/
def Driver.runCmd (d : Driver) (c : FlashCmd) : Driver :=
  { d with flash := c.app d.flash, issued := d.issued ++ [c] }

/-- How the waits of a call end: for each pass of its loop, whether the write enable and the command
    complete in time and without an error bit. -/
abbrev Chip := ℕ → Bool × Bool

/-- No wait fails. -/
def Chip.Completes (chip : Chip) : Prop := ∀ i, chip i = (true, true)

/-! ### Write -/

/-- How much of the page the next command takes. -/
def transferSize (address byteCnt : ℕ) : ℕ :=
  if address % 256 ≠ 0 then min (256 - address % 256) byteCnt else min 256 byteCnt

/-- The loop of `drv_flash_write` from pass `i` on; the fuel is at least the number of bytes left. With
    a callback the page program is left out (the non-blocking half is not compiled in). -/
def writeLoop (chip : Chip) (writeCb : Bool) : ℕ → ℕ → ℕ → Bytes → Driver → DrvStatus × Driver
  | 0, _, _, _, d => (.deviceDone, d)
  | _ + 1, _, _, [], d => (.deviceDone, d)
  | n + 1, i, address, b :: bs, d =>
    let size := transferSize address (b :: bs).length
    if (chip i).1 then
      let d := if writeCb then d else d.runCmd (.pageWrite address ((b :: bs).take size))
      if (chip i).2 then writeLoop chip writeCb n (i + 1) (u32 (address + size)) ((b :: bs).drop size) d
      else (.deviceFail, d)
    else (.deviceFail, d)

/-- The range check of `drv_flash_write`, with its 32-bit sums. -/
def FlashConfig.WriteOk (c : FlashConfig) (address byteCnt : ℕ) : Prop :=
  byteCnt ≠ 0 ∧ ¬u32 (address + byteCnt) < address ∧ ¬u32 (address + byteCnt) > u32 (c.densityInBlocks * 4096)

instance (c : FlashConfig) (a n : ℕ) : Decidable (c.WriteOk a n) :=
  inferInstanceAs (Decidable (_ ∧ _ ∧ _))

/-- `drv_flash_write`. -/
def Driver.write (chip : Chip) (address : ℕ) (buffer : Bytes) (writeCb : Bool) (d : Driver) : DrvStatus × Driver :=
  if !d.initDone then (.deviceFail, d)
  else if d.state ≠ 0 then (.deviceBusy, d)
  else if d.config.WriteOk address buffer.length then
    let r := writeLoop chip writeCb buffer.length 0 address buffer { d with state := 1 }
    (r.1, { r.2 with state := 0 })
  else (.invalidParameter, { d with state := 0 })

/-! ### Erase -/

/-- The loop of `drv_flash_erase` from pass `i` on. A chip erase carries no address. -/
def eraseLoop (chip : Chip) (type : EraseType) (size : ℕ) : ℕ → ℕ → ℕ → Driver → DrvStatus × Driver
  | 0, _, _, d => (.deviceDone, d)
  | cnt + 1, i, address, d =>
    if (chip i).1 then
      let d := d.runCmd (.erase (if type = .chip then 0 else address) size)
      if (chip i).2 then eraseLoop chip type size cnt (i + 1) (u32 (address + size)) d else (.deviceFail, d)
    else (.deviceFail, d)

/-- The range check of `drv_flash_erase` for units of `size` bytes, with its 32-bit sum and products. -/
def FlashConfig.EraseOk (c : FlashConfig) (size start cnt : ℕ) : Prop :=
  cnt ≠ 0 ∧ ¬u32 (u32 (start + cnt) * size) < u32 (start * size) ∧
    ¬u32 (u32 (start + cnt) * size) > u32 (c.densityInBlocks * 4096)

instance (c : FlashConfig) (size start cnt : ℕ) : Decidable (c.EraseOk size start cnt) :=
  inferInstanceAs (Decidable (_ ∧ _ ∧ _))

/-- `drv_flash_erase`. -/
def Driver.erase (chip : Chip) (type : EraseType) (start cnt : ℕ) (d : Driver) : DrvStatus × Driver :=
  if !d.initDone then (.deviceFail, d)
  else if d.state ≠ 0 then (.deviceBusy, d)
  else
    match d.config.unit type with
    | none => (.invalidParameter, { d with state := 0 })
    | some size =>
      if d.config.EraseOk size start cnt then
        let r := eraseLoop chip type size cnt 0 (u32 (start * size)) { d with state := 4 }
        (r.1, { r.2 with state := 0 })
      else (.invalidParameter, { d with state := 0 })

/-! ### Read -/

/-- The range check of `drv_flash_read` is the one of the write. -/
def FlashConfig.ReadOk (c : FlashConfig) (address byteCnt : ℕ) : Prop := c.WriteOk address byteCnt

instance (c : FlashConfig) (a n : ℕ) : Decidable (c.ReadOk a n) := inferInstanceAs (Decidable (c.WriteOk a n))

/-- `drv_flash_read`: the status and the bytes read. `done` tells whether the transfer completes; the driver
    is afterwards as it was. -/
def Driver.read (done : Bool) (address byteCnt : ℕ) (d : Driver) : DrvStatus × Bytes :=
  if !d.initDone then (.deviceFail, [])
  else if d.state ≠ 0 then (.deviceBusy, [])
  else if d.config.ReadOk address byteCnt then
    if done then (.deviceDone, d.flash.read address byteCnt) else (.deviceFail, [])
  else (.invalidParameter, [])

/-! ### What the write loop issues -/

/-- The bus commands of a write of `Flash.Device`. -/
def Write.flashCmds : Write → List FlashCmd
  | .erase a => [.erase a 4096]
  | .program a d => [.pageWrite a d]
  | _ => []

/-- The driver after the commands of `ws`. -/
def Driver.follow (d : Driver) (ws : List Write) : Driver := (ws.flatMap Write.flashCmds).foldl Driver.runCmd d

@[simp] theorem Driver.follow_nil (d : Driver) : d.follow [] = d := rfl

theorem Driver.follow_cons (d : Driver) (w : Write) (ws : List Write) :
    d.follow (w :: ws) = (w.flashCmds.foldl Driver.runCmd d).follow ws := by
  rw [follow, follow, List.flatMap_cons, List.foldl_append]

@[simp] theorem Driver.follow_program (d : Driver) (a : ℕ) (data : Bytes) (ws : List Write) :
    d.follow (.program a data :: ws) = (d.runCmd (.pageWrite a data)).follow ws := d.follow_cons _ _

theorem foldl_runCmd_issued (d : Driver) (cs : List FlashCmd) :
    (cs.foldl Driver.runCmd d).issued = d.issued ++ cs := by
  induction cs generalizing d with
  | nil => rw [List.foldl_nil, List.append_nil]
  | cons c cs ih => rw [List.foldl_cons, ih, Driver.runCmd, List.append_assoc, List.singleton_append]

theorem Driver.follow_issued (d : Driver) (ws : List Write) :
    (d.follow ws).issued = d.issued ++ ws.flatMap Write.flashCmds := foldl_runCmd_issued d _

/-- The array goes through the commands as the memory of `Flash.Device` goes through the writes. -/
theorem Driver.follow_flash (d : Driver) (ws : List Write) (m : Mem) (hm : m.flash = d.flash) :
    (d.follow ws).flash = (replay Mem.app m ws).flash := by
  induction ws generalizing d m with
  | nil => exact hm.symm
  | cons w ws ih =>
    rw [follow_cons, replay_cons]
    refine ih _ _ ?_
    cases w with
    | erase a => exact congrArg (fun f : Memory => f.erase a 4096) hm
    | program a data => exact congrArg (fun f : Memory => f.program a data) hm
    | rram a data => exact hm
    | fde i e => exact hm

theorem transferSize_le (a n : ℕ) : transferSize a n ≤ n := by
  rw [transferSize]
  split <;> exact min_le_right _ _

/-- A command never runs over the end of its page. -/
theorem transferSize_page (a n : ℕ) : a % 256 + transferSize a n ≤ 256 := by
  rw [transferSize]
  split <;> omega

theorem pages_cons (n a : ℕ) (b : UInt8) (bs : Bytes) :
    pages (n + 1) a (b :: bs) = .program a ((b :: bs).take (transferSize a (b :: bs).length)) ::
      pages n (a + transferSize a (b :: bs).length) ((b :: bs).drop (transferSize a (b :: bs).length)) := rfl

/-- Every page write is a program of bytes of one page. -/
theorem pages_page : ∀ (n a : ℕ) (bs : Bytes), ∀ w ∈ pages n a bs,
    ∃ x data, w = .program x data ∧ x % 256 + data.length ≤ 256
  | 0, _, _, w, hw => by simp [pages] at hw
  | _ + 1, _, [], w, hw => by simp [pages] at hw
  | n + 1, a, b :: bs, w, hw => by
    rw [pages_cons] at hw
    rcases List.mem_cons.mp hw with rfl | hw
    · refine ⟨_, _, rfl, ?_⟩
      have hp := transferSize_page a (b :: bs).length
      have hl : ((b :: bs).take (transferSize a (b :: bs).length)).length ≤ transferSize a (b :: bs).length :=
        List.length_take_le _ _
      omega
    · exact pages_page n _ _ w hw

/-- The blocking loop follows the page writes of the buffer, all of them when it is done. -/
theorem writeLoop_pages (chip : Chip) : ∀ (n i a : ℕ) (bs : Bytes) (d : Driver), a + bs.length < 2 ^ 32 →
    ∃ ws rest, pages n a bs = ws ++ rest ∧ (writeLoop chip false n i a bs d).2 = d.follow ws ∧
      ((writeLoop chip false n i a bs d).1 = .deviceDone → rest = []) ∧
      (chip.Completes → (writeLoop chip false n i a bs d).1 = .deviceDone)
  | 0, _, _, _, d, _ => ⟨[], [], rfl, rfl, fun _ => rfl, fun _ => rfl⟩
  | _ + 1, _, _, [], d, _ => ⟨[], [], rfl, rfl, fun _ => rfl, fun _ => rfl⟩
  | n + 1, i, a, b :: bs, d, ha => by
    set size := transferSize a (b :: bs).length with hsize
    have hle : size ≤ (b :: bs).length := transferSize_le _ _
    have hu : u32 (a + size) = a + size := u32_of_lt (by omega)
    have hpages := pages_cons n a b bs
    rw [← hsize] at hpages
    rw [writeLoop, hpages]
    simp only [← hsize, Bool.false_eq_true, if_false]
    by_cases h₁ : (chip i).1 = true
    · by_cases h₂ : (chip i).2 = true
      · obtain ⟨ws, rest, hw, hr, hd, hc⟩ := writeLoop_pages chip n (i + 1) (a + size) ((b :: bs).drop size)
          (d.runCmd (.pageWrite a ((b :: bs).take size))) (by rw [List.length_drop]; omega)
        rw [if_pos h₁, if_pos h₂, hu]
        exact ⟨_ :: ws, rest, by rw [hw, List.cons_append], by rw [hr, Driver.follow_program], hd, hc⟩
      · rw [if_pos h₁, if_neg h₂]
        refine ⟨[_], _, rfl, ?_, ?_, fun h => absurd (congrArg Prod.snd (h i)) h₂⟩
        · exact (Driver.follow_program d a _ []).symm
        · exact fun h => DrvStatus.noConfusion h
    · rw [if_neg h₁]
      refine ⟨[], _, rfl, rfl, ?_, fun h => absurd (congrArg Prod.fst (h i)) h₁⟩
      exact fun h => DrvStatus.noConfusion h

/-! ### Writing is one AND -/

/-- The range check lets through exactly the non-empty ranges inside the chip. -/
theorem FlashConfig.writeOk_iff (c : FlashConfig) {address byteCnt : ℕ} (ha : address < 2 ^ 32)
    (hn : byteCnt < 2 ^ 32) : c.WriteOk address byteCnt ↔ 0 < byteCnt ∧ address + byteCnt ≤ c.bytes := by
  have hd := c.density_lt
  simp only [WriteOk, bytes, u32]
  omega

/-- The driver is initialised and idle. -/
def Driver.Ready (d : Driver) : Prop := d.initDone = true ∧ d.state = 0

theorem Driver.Ready.idle {d : Driver} (h : d.Ready) : { d with state := 0 } = d := by
  obtain ⟨initDone, state, config, flash, issued⟩ := d
  obtain ⟨-, rfl⟩ := h
  rfl

/-- A write on a ready driver: the range check and the loop. -/
theorem Driver.Ready.write_eq {d : Driver} (h : d.Ready) (chip : Chip) (a : ℕ) (buf : Bytes) (cb : Bool) :
    d.write chip a buf cb =
      if d.config.WriteOk a buf.length then
        ((writeLoop chip cb buf.length 0 a buf { d with state := 1 }).1,
          { (writeLoop chip cb buf.length 0 a buf { d with state := 1 }).2 with state := 0 })
      else (.invalidParameter, d) := by
  rw [write, if_neg (by simp [h.1]), if_neg (by simp [h.2]), h.idle]

/-- An erase on a ready driver: the unit of the type, the range check and the loop. -/
theorem Driver.Ready.erase_eq {d : Driver} (h : d.Ready) (chip : Chip) (type : EraseType) (start cnt : ℕ) :
    d.erase chip type start cnt =
      match d.config.unit type with
      | none => (.invalidParameter, d)
      | some size =>
        if d.config.EraseOk size start cnt then
          ((eraseLoop chip type size cnt 0 (u32 (start * size)) { d with state := 4 }).1,
            { (eraseLoop chip type size cnt 0 (u32 (start * size)) { d with state := 4 }).2 with state := 0 })
        else (.invalidParameter, d) := by
  rw [erase, if_neg (by simp [h.1]), if_neg (by simp [h.2]), h.idle]

/-- A driver that is not ready refuses every write. -/
theorem Driver.write_not_ready {d : Driver} (h : ¬d.Ready) (chip : Chip) (a : ℕ) (buf : Bytes) (cb : Bool) :
    (d.write chip a buf cb).1 ≠ .deviceDone ∧ (d.write chip a buf cb).2 = d := by
  rw [write]
  by_cases hi : d.initDone = true
  · have hs : d.state ≠ 0 := fun hs => h ⟨hi, hs⟩
    rw [if_neg (by simp [hi]), if_pos hs]
    exact ⟨DrvStatus.noConfusion, rfl⟩
  · rw [if_pos (by simp [hi])]
    exact ⟨DrvStatus.noConfusion, rfl⟩

/-- A write that reports done has programmed the whole buffer, and the range lies in the chip. -/
theorem Driver.write_done {d d' : Driver} {chip : Chip} {a : ℕ} {buf : Bytes}
    (h : d.write chip a buf false = (.deviceDone, d')) (ha : a < 2 ^ 32) (hb : buf.length < 2 ^ 32) :
    0 < buf.length ∧ a + buf.length ≤ d.config.bytes ∧ d'.flash = d.flash.program a buf := by
  by_cases hd : d.Ready
  · rw [hd.write_eq] at h
    by_cases hok : d.config.WriteOk a buf.length
    · rw [if_pos hok, Prod.mk.injEq] at h
      obtain ⟨hpos, hin⟩ := (d.config.writeOk_iff ha hb).mp hok
      obtain ⟨ws, rest, hw, hf, hdone, -⟩ := writeLoop_pages chip buf.length 0 a buf { d with state := 1 }
        (lt_of_le_of_lt hin d.config.density_lt)
      rw [hdone h.1, List.append_nil] at hw
      have hflash := Driver.follow_flash { d with state := 1 } ws ⟨d.flash, fun _ => 0, ⟨0, 0, fun _ => .zero⟩⟩ rfl
      rw [show replay Mem.app _ ws = _ from hw ▸ replay_pages _ _ _ _ (le_refl _)] at hflash
      refine ⟨hpos, hin, ?_⟩
      rw [← h.2, hf]
      exact hflash
    · rw [if_neg hok, Prod.mk.injEq] at h
      exact DrvStatus.noConfusion h.1
  · exact absurd (congrArg Prod.fst h) (Driver.write_not_ready hd chip a buf false).1

/-- The page programs of a write put together are one AND of the data into the array. A blocking call
    issues page programs only, none of them across a page boundary. When it returns done the array is the
    old one AND the data on the range, and the old one elsewhere; it does return done when the driver is
    ready, the range lies in the chip and no wait fails. A range that does not lie in the chip is refused
    without a command. -/
theorem drv_flash_write_one_and (chip : Chip) (address : ℕ) (buffer : Bytes) (d : Driver)
    (ha : address < 2 ^ 32) (hb : buffer.length < 2 ^ 32) :
    (∃ cs, (d.write chip address buffer false).2.issued = d.issued ++ cs ∧
      ∀ c ∈ cs, ∃ a data, c = .pageWrite a data ∧ a % 256 + data.length ≤ 256) ∧
    ((d.write chip address buffer false).1 = .deviceDone → ∀ x, (d.write chip address buffer false).2.flash x =
      if address ≤ x ∧ x < address + buffer.length then d.flash x &&& buffer.getD (x - address) 0
      else d.flash x) ∧
    (d.Ready → 0 < buffer.length ∧ address + buffer.length ≤ d.config.bytes → chip.Completes →
      (d.write chip address buffer false).1 = .deviceDone) ∧
    (¬(0 < buffer.length ∧ address + buffer.length ≤ d.config.bytes) →
      (d.write chip address buffer false).1 ≠ .deviceDone ∧ (d.write chip address buffer false).2 = d) := by
  have hok := d.config.writeOk_iff ha hb
  have hdens := d.config.density_lt
  by_cases hd : d.Ready
  · by_cases hr : 0 < buffer.length ∧ address + buffer.length ≤ d.config.bytes
    · -- accepted: the loop follows the page writes
      have hlt : address + buffer.length < 2 ^ 32 := lt_of_le_of_lt hr.2 hdens
      obtain ⟨ws, rest, hw, hf, hdone, hc⟩ := writeLoop_pages chip buffer.length 0 address buffer
        { d with state := 1 } hlt
      have heq : d.write chip address buffer false =
          ((writeLoop chip false buffer.length 0 address buffer { d with state := 1 }).1,
            { (Driver.follow { d with state := 1 } ws) with state := 0 }) := by
        rw [hd.write_eq, if_pos (hok.mpr hr), hf]
      rw [heq]
      refine ⟨⟨ws.flatMap Write.flashCmds, Driver.follow_issued _ _, ?_⟩, fun h x => ?_, fun _ _ h => hc h,
        fun h => absurd hr h⟩
      · intro c hmem
        obtain ⟨w, hwm, hcw⟩ := List.mem_flatMap.mp hmem
        obtain ⟨a, data, rfl, hp⟩ := pages_page _ _ _ w (hw ▸ List.mem_append_left _ hwm)
        exact ⟨a, data, List.mem_singleton.mp hcw, hp⟩
      · obtain ⟨-, -, hflash⟩ := Driver.write_done (Prod.ext (congrArg Prod.fst heq |>.trans h) rfl) ha hb
        rw [heq] at hflash
        exact congrFun hflash x
    · have heq : d.write chip address buffer false = (.invalidParameter, d) := by
        rw [hd.write_eq, if_neg (mt hok.mp hr)]
      rw [heq]
      exact ⟨⟨[], (List.append_nil _).symm, fun c hc => absurd hc List.not_mem_nil⟩,
        fun h => DrvStatus.noConfusion h, fun _ h => absurd h hr, fun _ => ⟨DrvStatus.noConfusion, rfl⟩⟩
  · obtain ⟨hne, hsame⟩ := Driver.write_not_ready hd chip address buffer false
    rw [hsame]
    exact ⟨⟨[], (List.append_nil _).symm, fun c hc => absurd hc List.not_mem_nil⟩, fun h => absurd h hne,
      fun h => absurd h hd, fun _ => ⟨hne, rfl⟩⟩

/-- Three bytes around the page boundary at 256 of a small chip go in two commands. -/
theorem drv_flash_write_one_and_small :
    ((Driver.mk true 0 (.entry 1024 (by decide)) (fun _ => 0xFF) []).write (fun _ => (true, true)) 255 [1, 2, 3]
        false).2.issued = [.pageWrite 255 [1], .pageWrite 256 [2, 3]] ∧
    ((Driver.mk true 0 (.entry 1024 (by decide)) (fun _ => 0xFF) []).write (fun _ => (true, true)) 255 [1, 2, 3]
        false).1 = .deviceDone :=
  ⟨by decide, (drv_flash_write_one_and (fun _ => (true, true)) 255 [1, 2, 3]
    (Driver.mk true 0 (.entry 1024 (by decide)) (fun _ => 0xFF) []) (by decide) (by decide)).2.2.1
    ⟨rfl, rfl⟩ (by decide) fun _ => rfl⟩

/-! ### What the erase loop issues -/

/-- The erase commands of `cnt` units from `address` on. -/
def eraseCmds (type : EraseType) (size address cnt : ℕ) : List FlashCmd :=
  (List.range cnt).map fun i => .erase (if type = .chip then 0 else address + i * size) size

theorem eraseCmds_succ (type : EraseType) (size address cnt : ℕ) :
    eraseCmds type size address (cnt + 1) =
      .erase (if type = .chip then 0 else address) size :: eraseCmds type size (address + size) cnt := by
  rw [eraseCmds, List.range_succ_eq_map, List.map_cons, List.map_map, Nat.zero_mul, Nat.add_zero, eraseCmds]
  congr 1
  refine List.map_congr_left fun i _ => ?_
  simp only [Function.comp, Nat.succ_mul]
  rw [Nat.add_comm (i * size), Nat.add_assoc]

/-- The loop issues the erases from the first on, all of them when it is done. -/
theorem eraseLoop_cmds (chip : Chip) (type : EraseType) (size : ℕ) :
    ∀ (cnt i a : ℕ) (d : Driver), a + cnt * size < 2 ^ 32 →
    ∃ cs rest, eraseCmds type size a cnt = cs ++ rest ∧
      (eraseLoop chip type size cnt i a d).2 = cs.foldl Driver.runCmd d ∧
      ((eraseLoop chip type size cnt i a d).1 = .deviceDone → rest = []) ∧
      (eraseLoop chip type size cnt i a d).1 ≠ .invalidParameter ∧
      (chip.Completes → (eraseLoop chip type size cnt i a d).1 = .deviceDone)
  | 0, _, _, d, _ => ⟨[], [], rfl, rfl, fun _ => rfl, DrvStatus.noConfusion, fun _ => rfl⟩
  | cnt + 1, i, a, d, ha => by
    rw [Nat.succ_mul] at ha
    have hu : u32 (a + size) = a + size := u32_of_lt (by omega)
    rw [eraseLoop, eraseCmds_succ]
    by_cases h₁ : (chip i).1 = true
    · by_cases h₂ : (chip i).2 = true
      · obtain ⟨cs, rest, hc, hr, hd, hn, hok⟩ := eraseLoop_cmds chip type size cnt (i + 1) (a + size)
          (d.runCmd (.erase (if type = .chip then 0 else a) size)) (by omega)
        rw [if_pos h₁, if_pos h₂, hu]
        exact ⟨_ :: cs, rest, by rw [hc, List.cons_append], hr, hd, hn, hok⟩
      · rw [if_pos h₁, if_neg h₂]
        exact ⟨[_], _, rfl, rfl, fun h => DrvStatus.noConfusion h, DrvStatus.noConfusion,
          fun h => absurd (congrArg Prod.snd (h i)) h₂⟩
    · rw [if_neg h₁]
      exact ⟨[], _, rfl, rfl, fun h => DrvStatus.noConfusion h, DrvStatus.noConfusion,
        fun h => absurd (congrArg Prod.fst (h i)) h₁⟩

/-! ### Which erases are accepted -/

/-- The units `start .. start + cnt - 1` of the type all lie inside the chip. -/
def FlashConfig.InDevice (c : FlashConfig) (type : EraseType) (start cnt : ℕ) : Prop :=
  ∃ size, c.unit type = some size ∧ 0 < cnt ∧ (start + cnt) * size ≤ c.bytes

/-- The end of the range is 2³² or more, and its last 32 bits neither come before those of the start nor
    leave the chip. -/
def FlashConfig.EndWraps (c : FlashConfig) (type : EraseType) (start cnt : ℕ) : Prop :=
  ∃ size, c.unit type = some size ∧ 0 < cnt ∧ 2 ^ 32 ≤ (start + cnt) * size ∧
    start * size % 2 ^ 32 ≤ (start + cnt) * size % 2 ^ 32 ∧
    (start + cnt) * size % 2 ^ 32 ≤ c.bytes

/-- What an erase is to do: it is refused unless its units lie inside the chip; every command it issues
    stays in the units, and unless a wait fails they are erased, all of them and nothing else. -/
def Driver.ErasesExactly (d : Driver) (type : EraseType) (start cnt : ℕ) : Prop :=
  ∀ chip : Chip,
    ((d.erase chip type start cnt).1 ≠ .invalidParameter ↔ d.config.InDevice type start cnt) ∧
    ∀ size, d.config.unit type = some size → (d.erase chip type start cnt).1 ≠ .invalidParameter →
      ∃ cs, (d.erase chip type start cnt).2.issued = d.issued ++ cs ∧
        (∀ c ∈ cs, ∃ a, c = .erase a size ∧ c.range.Sub ⟨start * size, cnt * size⟩) ∧
        (chip.Completes → (d.erase chip type start cnt).1 = .deviceDone) ∧
        ((d.erase chip type start cnt).1 = .deviceDone →
          (∀ x, (∃ c ∈ cs, x ∈ c.range) ↔ x ∈ (⟨start * size, cnt * size⟩ : Range)) ∧
          (d.erase chip type start cnt).2.flash = d.flash.erase (start * size) (cnt * size))

theorem u32_mul_u32 (a b : ℕ) : u32 (u32 a * b) = a * b % 2 ^ 32 := by
  rw [u32, u32, Nat.mod_mul_mod]

/-- The range check accepts the units inside the chip, and those whose end wraps. -/
theorem FlashConfig.eraseOk_iff (c : FlashConfig) {type : EraseType} {size : ℕ} (hs : c.unit type = some size)
    (start cnt : ℕ) : c.EraseOk size start cnt ↔ c.InDevice type start cnt ∨ c.EndWraps type start cnt := by
  have hd : c.bytes < 2 ^ 32 := c.density_lt
  have hb : u32 (c.densityInBlocks * 4096) = c.bytes := u32_of_lt c.density_lt
  have hstart : start * size ≤ (start + cnt) * size := Nat.mul_le_mul_right _ (Nat.le_add_right _ _)
  have hin : c.InDevice type start cnt ↔ 0 < cnt ∧ (start + cnt) * size ≤ c.bytes := by
    simp only [InDevice, hs, Option.some.injEq, exists_eq_left']
  have hwr : c.EndWraps type start cnt ↔ 0 < cnt ∧ 2 ^ 32 ≤ (start + cnt) * size ∧
      start * size % 2 ^ 32 ≤ (start + cnt) * size % 2 ^ 32 ∧
      (start + cnt) * size % 2 ^ 32 ≤ c.bytes := by
    simp only [EndWraps, hs, Option.some.injEq, exists_eq_left']
  rw [hin, hwr, EraseOk, u32_mul_u32, hb, u32]
  generalize (start + cnt) * size = e at *
  generalize start * size = s at *
  omega

/-- The units of a chip erase inside the chip: all of it, once. -/
theorem eraseCmds_range {c : FlashConfig} {type : EraseType} {size start cnt : ℕ} (hs : c.unit type = some size)
    (hcnt : 0 < cnt) (hin : (start + cnt) * size ≤ c.bytes) :
    eraseCmds type size (start * size) cnt = eraseCmds .block size (start * size) cnt ∨
      size = 0 := by
  by_cases ht : type = .chip
  · subst ht
    rw [FlashConfig.unit] at hs
    split at hs
    · cases hs
    · have hsize : c.bytes = size := Option.some.inj hs
      rcases Nat.eq_zero_or_pos size with h0 | hpos
      · exact .inr h0
      · -- only the first unit fits
        have hone : start + cnt ≤ 1 := by
          by_contra hgt
          have := Nat.mul_le_mul_right size (show 2 ≤ start + cnt by omega)
          omega
        have hst : start = 0 := by omega
        have hct : cnt = 1 := by omega
        subst hst hct
        left
        simp [eraseCmds]
  · left
    simp only [eraseCmds, if_neg ht, reduceCtorEq, if_false]

theorem mem_eraseCmds {size a cnt : ℕ} {c : FlashCmd} (h : c ∈ eraseCmds .block size a cnt) :
    ∃ i < cnt, c = .erase (a + i * size) size := by
  obtain ⟨i, hi, rfl⟩ := List.mem_map.mp h
  exact ⟨i, List.mem_range.mp hi, by simp⟩

/-- The erased units together are one erased range. -/
theorem foldl_eraseCmds_flash (size a cnt : ℕ) (d : Driver) :
    ((eraseCmds .block size a cnt).foldl Driver.runCmd d).flash = d.flash.erase a (cnt * size) := by
  induction cnt generalizing a d with
  | zero => simp [eraseCmds]
  | succ n ih =>
    rw [eraseCmds_succ, List.foldl_cons, ih, if_neg (by decide), Nat.succ_mul, Nat.add_comm (n * size)]
    exact Memory.erase_erase _ _ _ _

/-- Erases of no bytes change nothing. -/
theorem foldl_erase_nothing (cs : List FlashCmd) (d : Driver) (h : ∀ cmd ∈ cs, ∃ a, cmd = .erase a 0) :
    (cs.foldl Driver.runCmd d).flash = d.flash := by
  induction cs generalizing d with
  | nil => rfl
  | cons cmd cs ih =>
    obtain ⟨a, rfl⟩ := h _ List.mem_cons_self
    rw [List.foldl_cons, ih _ fun c hc => h c (List.mem_cons_of_mem _ hc)]
    exact Memory.erase_zero _ _

/-- The erases of units inside the chip: each is one of the units, and together they erase the range. -/
theorem eraseCmds_covers {c : FlashConfig} {type : EraseType} {size start cnt : ℕ}
    (hs : c.unit type = some size) (hcnt : 0 < cnt) (hin : (start + cnt) * size ≤ c.bytes) :
    (∀ cmd ∈ eraseCmds type size (start * size) cnt, ∃ a, cmd = .erase a size ∧
      cmd.range.Sub ⟨start * size, cnt * size⟩) ∧
    (∀ x, x ∈ (⟨start * size, cnt * size⟩ : Range) → ∃ cmd ∈ eraseCmds type size (start * size) cnt, x ∈ cmd.range) ∧
    ∀ d : Driver, ((eraseCmds type size (start * size) cnt).foldl Driver.runCmd d).flash =
      d.flash.erase (start * size) (cnt * size) := by
  rcases eraseCmds_range hs hcnt hin with heq | rfl
  · rw [heq]
    refine ⟨fun cmd hc => ?_, fun x hx => ?_, fun d => foldl_eraseCmds_flash _ _ _ _⟩
    · obtain ⟨i, hi, rfl⟩ := mem_eraseCmds hc
      have hle := Nat.mul_le_mul_right size (show i + 1 ≤ cnt from hi)
      rw [Nat.succ_mul] at hle
      refine ⟨_, rfl, Range.sub_of_le ?_ ?_⟩
      · simp only [FlashCmd.range]; omega
      · simp only [FlashCmd.range]; omega
    · -- the unit of an address is its distance from the start in units
      obtain ⟨h₁, h₂⟩ := Range.mem_mk.mp hx
      have hpos : 0 < size := Nat.pos_of_ne_zero fun h0 => by simp only [h0, Nat.mul_zero] at h₁ h₂; omega
      have hi : (x - start * size) / size < cnt := (Nat.div_lt_iff_lt_mul hpos).mpr (by omega)
      refine ⟨_, List.mem_map.mpr ⟨(x - start * size) / size, List.mem_range.mpr hi, rfl⟩, ?_⟩
      have hdiv := Nat.div_add_mod' (x - start * size) size
      have hmod := Nat.mod_lt (x - start * size) hpos
      rw [if_neg (by decide), FlashCmd.range, Range.mem_mk]
      omega
  · refine ⟨fun cmd hc => ?_, fun x hx => ?_, fun d => ?_⟩
    · obtain ⟨i, _, rfl⟩ := List.mem_map.mp hc
      exact ⟨_, rfl, fun x hx => by simp only [FlashCmd.range, Range.mem_mk] at hx; omega⟩
    · rw [Range.mem_mk] at hx; omega
    · simp only [Nat.mul_zero, Memory.erase_zero]
      refine foldl_erase_nothing _ _ fun cmd hc => ?_
      obtain ⟨i, _, rfl⟩ := List.mem_map.mp hc
      exact ⟨_, rfl⟩

/-- A driver that is not ready refuses every erase. -/
theorem Driver.erase_not_ready {d : Driver} (h : ¬d.Ready) (chip : Chip) (type : EraseType) (start cnt : ℕ) :
    (d.erase chip type start cnt).1 ≠ .deviceDone := by
  rw [erase]
  by_cases hi : d.initDone = true
  · have hs : d.state ≠ 0 := fun hs => h ⟨hi, hs⟩
    rw [if_neg (by simp [hi]), if_pos hs]
    exact DrvStatus.noConfusion
  · rw [if_pos (by simp [hi])]
    exact DrvStatus.noConfusion

theorem eraseLoop_config (chip : Chip) (type : EraseType) (size : ℕ) : ∀ (cnt i a : ℕ) (d : Driver),
    (eraseLoop chip type size cnt i a d).2.config = d.config
  | 0, _, _, _ => rfl
  | cnt + 1, i, a, d => by
    rw [eraseLoop]
    by_cases h₁ : (chip i).1 = true
    · by_cases h₂ : (chip i).2 = true
      · rw [if_pos h₁, if_pos h₂]
        exact eraseLoop_config chip type size cnt (i + 1) _ _
      · rw [if_pos h₁, if_neg h₂]
        rfl
    · rw [if_neg h₁]

theorem Driver.erase_config (chip : Chip) (type : EraseType) (start cnt : ℕ) (d : Driver) :
    (d.erase chip type start cnt).2.config = d.config := by
  rw [erase]
  split
  · rfl
  split
  · rfl
  split
  · rfl
  split
  · exact eraseLoop_config chip type _ cnt 0 _ { d with state := 4 }
  · rfl

/-- A block erase that reports done has erased its blocks, where their end does not wrap. -/
theorem Driver.erase_done {d d' : Driver} {chip : Chip} {start cnt : ℕ}
    (h : d.erase chip .block start cnt = (.deviceDone, d')) (hend : (start + cnt) * 4096 < 2 ^ 32) :
    d'.flash = d.flash.erase (start * 4096) (cnt * 4096) := by
  by_cases hd : d.Ready
  · rw [hd.erase_eq] at h
    cases hs : d.config.unit .block with
    | none =>
      rw [hs] at h
      exact DrvStatus.noConfusion (congrArg Prod.fst h)
    | some size =>
      have hsize : size = 4096 := by
        rw [FlashConfig.unit] at hs
        split at hs
        · cases hs
        · exact (Option.some.inj hs).symm
      subst hsize
      rw [hs] at h
      by_cases hok : d.config.EraseOk 4096 start cnt
      · rw [Nat.add_mul] at hend
        have hu : u32 (start * 4096) = start * 4096 := u32_of_lt (Nat.lt_of_le_of_lt (Nat.le_add_right _ _) hend)
        simp only [if_pos hok, hu, Prod.mk.injEq] at h
        obtain ⟨cs, rest, hcs, hr, hdone, -⟩ := eraseLoop_cmds chip .block 4096 cnt 0 (start * 4096)
          { d with state := 4 } hend
        rw [hdone h.1, List.append_nil] at hcs
        rw [← h.2, hr, ← hcs]
        exact foldl_eraseCmds_flash _ _ _ _
      · simp only [if_neg hok, Prod.mk.injEq, reduceCtorEq, false_and] at h
  · exact absurd (congrArg Prod.fst h) (Driver.erase_not_ready hd chip .block start cnt)

/-- On a ready driver an erase erases exactly the requested units, if and only if the end of its range
    does not wrap to a 32-bit value that the check takes for one inside the chip. -/
theorem drv_flash_erase_exact_iff (d : Driver) (hd : d.Ready) (type : EraseType) (start cnt : ℕ) :
    d.ErasesExactly type start cnt ↔ ¬d.config.EndWraps type start cnt := by
  constructor
  · -- a wrapped range is accepted and is not inside the chip
    rintro h ⟨size, hs, hcnt, hwrap, hle, hlt⟩
    have hok : d.config.EraseOk size start cnt :=
      (d.config.eraseOk_iff hs start cnt).mpr (.inr ⟨size, hs, hcnt, hwrap, hle, hlt⟩)
    have hin : ¬d.config.InDevice type start cnt := by
      rintro ⟨size', hs', -, hend⟩
      rw [hs] at hs'
      obtain rfl := Option.some.inj hs'
      have := d.config.density_lt
      rw [FlashConfig.bytes] at hend
      omega
    obtain ⟨hacc, -⟩ := h fun _ => (false, false)
    refine hin (hacc.mp ?_)
    rw [hd.erase_eq, hs]
    simp only [if_pos hok]
    cases cnt with
    | zero => omega
    | succ n => exact DrvStatus.noConfusion
  · intro hnw chip
    cases hs : d.config.unit type with
    | none =>
      have heq : d.erase chip type start cnt = (.invalidParameter, d) := by rw [hd.erase_eq, hs]
      rw [heq]
      refine ⟨⟨fun h => absurd rfl h, ?_⟩, fun size h => by cases h⟩
      rintro ⟨size, hs', -⟩
      rw [hs] at hs'
      cases hs'
    | some size =>
      have hok : d.config.EraseOk size start cnt ↔ d.config.InDevice type start cnt := by
        rw [d.config.eraseOk_iff hs start cnt]
        exact ⟨fun h => h.resolve_right hnw, .inl⟩
      by_cases hin : d.config.InDevice type start cnt
      · obtain ⟨size', hs', hcnt, hend⟩ := id hin
        rw [hs] at hs'
        obtain rfl := Option.some.inj hs'
        have hdens : d.config.bytes < 2 ^ 32 := d.config.density_lt
        rw [Nat.add_mul] at hend
        have hu : u32 (start * size) = start * size := u32_of_lt (by omega)
        obtain ⟨cs, rest, hc, hr, hdone, hn, hcomp⟩ := eraseLoop_cmds chip type size cnt 0 (start * size)
          { d with state := 4 } (by omega)
        obtain ⟨hin₁, hin₂, hflash⟩ := eraseCmds_covers hs hcnt (by rw [Nat.add_mul]; exact hend)
        have heq : d.erase chip type start cnt =
            ((eraseLoop chip type size cnt 0 (start * size) { d with state := 4 }).1,
              { (cs.foldl Driver.runCmd { d with state := 4 }) with state := 0 }) := by
          rw [hd.erase_eq, hs]
          simp only [if_pos (hok.mpr hin), hu, hr]
        rw [heq]
        refine ⟨⟨fun _ => hin, fun _ => hn⟩, fun size' hs' _ => ?_⟩
        obtain rfl := Option.some.inj hs'
        refine ⟨cs, foldl_runCmd_issued _ _, fun c hmem => hin₁ c (hc ▸ List.mem_append_left _ hmem), hcomp, ?_⟩
        intro h
        rw [hdone h, List.append_nil] at hc
        rw [hc] at hin₁ hin₂ hflash
        refine ⟨fun x => ⟨?_, hin₂ x⟩, hflash _⟩
        rintro ⟨c, hmem, hx⟩
        obtain ⟨a, -, hsub⟩ := hin₁ c hmem
        exact hsub x hx
      · have heq : d.erase chip type start cnt = (.invalidParameter, d) := by
          rw [hd.erase_eq, hs]
          simp only [if_neg (mt hok.mp hin)]
        rw [heq]
        exact ⟨⟨fun h => absurd rfl h, fun h => absurd h hin⟩, fun _ _ h => absurd rfl h⟩

/-- A chip of 1024 blocks on a ready driver. -/
def smallDriver : Driver := ⟨true, 0, .entry 1024 (by decide), fun _ => 0, []⟩

/-- Three blocks in the middle of the chip. -/
theorem drv_flash_erase_exact_small : smallDriver.ErasesExactly .block 2 3 := by
  refine (drv_flash_erase_exact_iff smallDriver ⟨rfl, rfl⟩ .block 2 3).mpr ?_
  rintro ⟨size, hs, -, hwrap, -⟩
  have : size = 4096 := (Option.some.inj hs).symm
  omega

/-- Block 2²⁰ is far outside the chip: the request is accepted and erases block 0. -/
theorem block_past_the_end_erases_block_0 :
    ¬smallDriver.ErasesExactly .block 1048576 1 ∧
      (smallDriver.erase (fun _ => (true, true)) .block 1048576 1).1 = .deviceDone ∧
      (smallDriver.erase (fun _ => (true, true)) .block 1048576 1).2.issued = [.erase 0 4096] := by
  refine ⟨fun h => ?_, by decide, by decide⟩
  obtain ⟨size, hs, -, hend⟩ := (h fun _ => (true, true)).1.mp (by decide)
  have hsize : size = 4096 := (Option.some.inj hs).symm
  have hbytes : smallDriver.config.bytes = 4194304 := rfl
  omega

/-! ### The device model is what the driver does

    `Flash.Device` takes the commands of an accepted call to succeed. With a chip whose waits do not fail
    the driver then agrees with it, for the block numbers a caller can compute from 32-bit addresses. -/

section Device

variable {d : Driver} {dev : Dev} {chip : Chip}

theorem Driver.Ready.write_device (hd : d.Ready) (hn : dev.densityInBlocks = d.config.densityInBlocks)
    (hf : dev.mem.flash = d.flash) (hc : chip.Completes) {address : ℕ} {buffer : Bytes}
    (ha : address < 2 ^ 32) (hb : buffer.length < 2 ^ 32) :
    ((d.write chip address buffer false).1 = .deviceDone ↔ (drvFlashWrite address buffer dev).1 = .ok ()) ∧
      (d.write chip address buffer false).2.flash = (drvFlashWrite address buffer dev).2.mem.flash := by
  have hiff : dev.InFlash address buffer.length ↔ d.config.WriteOk address buffer.length := by
    simp only [Dev.InFlash, FlashConfig.WriteOk, hn, gt_iff_lt, not_lt]
  rw [hd.write_eq, drvFlashWrite]
  by_cases hok : d.config.WriteOk address buffer.length
  · rw [if_pos hok, if_pos (hiff.mpr hok)]
    have hin := (d.config.writeOk_iff ha hb).mp hok
    have hlt : address + buffer.length < 2 ^ 32 := lt_of_le_of_lt hin.2 d.config.density_lt
    obtain ⟨ws, rest, hw, hr, hdone, hcomp⟩ := writeLoop_pages chip buffer.length 0 address buffer
      { d with state := 1 } hlt
    rw [hdone (hcomp hc), List.append_nil] at hw
    refine ⟨⟨fun _ => rfl, fun _ => hcomp hc⟩, ?_⟩
    rw [hr, hw]
    exact Driver.follow_flash { d with state := 1 } ws dev.mem hf
  · rw [if_neg hok, if_neg (mt hiff.mp hok)]
    exact ⟨⟨fun h => DrvStatus.noConfusion h, fun h => by cases h⟩, hf.symm⟩

theorem Driver.Ready.erase_device (hd : d.Ready) (hn : dev.densityInBlocks = d.config.densityInBlocks)
    (hf : dev.mem.flash = d.flash) (hc : chip.Completes) (hop : d.config.erase4kbOpcode ≠ 0) {start cnt : ℕ}
    (hs : start < 1048576) (hcnt : cnt < 1048576) :
    ((d.erase chip .block start cnt).1 = .deviceDone ↔ (drvFlashErase start cnt dev).1 = .ok ()) ∧
      (d.erase chip .block start cnt).2.flash = (drvFlashErase start cnt dev).2.mem.flash := by
  have hunit : d.config.unit .block = some 4096 := if_neg hop
  have hu : u32 (start * 4096) = start * 4096 := u32_of_lt (by omega)
  have hiff : (cnt = 0 ∨ u32 ((start + cnt) * 4096) < u32 (start * 4096) ∨
      u32 ((start + cnt) * 4096) > u32 (dev.densityInBlocks * 4096)) ↔ ¬d.config.EraseOk 4096 start cnt := by
    rw [FlashConfig.EraseOk, u32_mul_u32, hn, u32, u32]
    omega
  rw [hd.erase_eq, hunit, drvFlashErase]
  by_cases hok : d.config.EraseOk 4096 start cnt
  · have hend : (start + cnt) * 4096 < 2 ^ 32 := by
      obtain ⟨h0, h₁, -⟩ := id hok
      rw [u32_mul_u32, u32] at h₁
      omega
    rw [if_neg (fun h => hiff.mp h hok)]
    simp only [if_pos hok, hu]
    have hsum : start * 4096 + cnt * 4096 < 2 ^ 32 := by rwa [← Nat.add_mul]
    obtain ⟨cs, rest, hcs, hr, hdone, -, hcomp⟩ := eraseLoop_cmds chip .block 4096 cnt 0 (start * 4096)
      { d with state := 4 } hsum
    rw [hdone (hcomp hc), List.append_nil] at hcs
    refine ⟨iff_of_true (hcomp hc) trivial, ?_⟩
    simp only [hr, ← hcs, Dev.writes_mem, replay_eraseBlocks, foldl_eraseCmds_flash, hf]
  · simp only [if_neg hok]
    rw [if_pos (hiff.mpr hok)]
    exact ⟨⟨fun h => DrvStatus.noConfusion h, fun h => by cases h⟩, hf.symm⟩

/-! ### Whole runs of the driver -/

/-- A blocking call that changes the array. -/
inductive Driver.Call where
  | write (address : ℕ) (buffer : Bytes)
  | erase (start cnt : ℕ)
  deriving DecidableEq, Repr

/-- The address and the length are of 32 bits, and the block numbers those of addresses of 32 bits. -/
def Driver.Call.Fits : Driver.Call → Prop
  | .write address buffer => address < 2 ^ 32 ∧ buffer.length < 2 ^ 32
  | .erase start cnt => start < 1048576 ∧ cnt < 1048576

instance : ∀ c : Driver.Call, Decidable c.Fits
  | .write _ _ | .erase _ _ => inferInstanceAs (Decidable (_ ∧ _))

def Driver.call (chip : Chip) (d : Driver) : Driver.Call → DrvStatus × Driver
  | .write address buffer => d.write chip address buffer false
  | .erase start cnt => d.erase chip .block start cnt

/-- The same call in `Flash.Device`. -/
def Dev.call (dev : Dev) : Driver.Call → Except FlashStatus Unit × Dev
  | .write address buffer => drvFlashWrite address buffer dev
  | .erase start cnt => drvFlashErase start cnt dev

/-- The driver is ready, its chip has block erases, and its array is the flash of the device. -/
structure Driver.Holds (d : Driver) (dev : Dev) : Prop where
  ready : d.Ready
  opcode : d.config.erase4kbOpcode ≠ 0
  density : dev.densityInBlocks = d.config.densityInBlocks
  flash : dev.mem.flash = d.flash

theorem foldl_runCmd_keeps (d : Driver) (cs : List FlashCmd) :
    (cs.foldl Driver.runCmd d).initDone = d.initDone ∧ (cs.foldl Driver.runCmd d).config = d.config := by
  induction cs generalizing d with
  | nil => exact ⟨rfl, rfl⟩
  | cons c cs ih => exact ih (d.runCmd c)

theorem writeLoop_foldl (chip : Chip) : ∀ (n i a : ℕ) (bs : Bytes) (d : Driver),
    ∃ cs : List FlashCmd, (writeLoop chip false n i a bs d).2 = cs.foldl Driver.runCmd d
  | 0, _, _, _, _ => ⟨[], rfl⟩
  | _ + 1, _, _, [], _ => ⟨[], rfl⟩
  | n + 1, i, a, b :: bs, d => by
    rw [writeLoop]
    by_cases h₁ : (chip i).1 = true
    · by_cases h₂ : (chip i).2 = true
      · simp only [if_pos h₁, if_pos h₂]
        obtain ⟨cs, hcs⟩ := writeLoop_foldl chip n (i + 1) _ _ (d.runCmd _)
        exact ⟨_ :: cs, hcs⟩
      · simp only [if_pos h₁, if_neg h₂]
        exact ⟨[_], rfl⟩
    · simp only [if_neg h₁]
      exact ⟨[], rfl⟩

theorem eraseLoop_foldl (chip : Chip) (type : EraseType) (size : ℕ) : ∀ (cnt i a : ℕ) (d : Driver),
    ∃ cs : List FlashCmd, (eraseLoop chip type size cnt i a d).2 = cs.foldl Driver.runCmd d
  | 0, _, _, _ => ⟨[], rfl⟩
  | cnt + 1, i, a, d => by
    rw [eraseLoop]
    by_cases h₁ : (chip i).1 = true
    · by_cases h₂ : (chip i).2 = true
      · simp only [if_pos h₁, if_pos h₂]
        obtain ⟨cs, hcs⟩ := eraseLoop_foldl chip type size cnt (i + 1) _ (d.runCmd _)
        exact ⟨_ :: cs, hcs⟩
      · simp only [if_pos h₁, if_neg h₂]
        exact ⟨[_], rfl⟩
    · simp only [if_neg h₁]
      exact ⟨[], rfl⟩

/-- However a call ends, the driver is ready again, with the same chip. -/
theorem Driver.Ready.call_keeps (hd : d.Ready) (chip : Chip) (c : Driver.Call) :
    (d.call chip c).2.Ready ∧ (d.call chip c).2.config = d.config := by
  cases c with
  | write address buffer =>
    rw [Driver.call, hd.write_eq]
    split_ifs
    · obtain ⟨cs, hcs⟩ := writeLoop_foldl chip buffer.length 0 address buffer { d with state := 1 }
      obtain ⟨hinit, hconfig⟩ := foldl_runCmd_keeps { d with state := 1 } cs
      simp only [hcs]
      exact ⟨⟨hinit.trans hd.1, rfl⟩, hconfig⟩
    · exact ⟨hd, rfl⟩
  | erase start cnt =>
    rw [Driver.call, hd.erase_eq]
    cases d.config.unit .block with
    | none => exact ⟨hd, rfl⟩
    | some size =>
      dsimp only
      split_ifs
      · obtain ⟨cs, hcs⟩ := eraseLoop_foldl chip .block size cnt 0 (u32 (start * size)) { d with state := 4 }
        obtain ⟨hinit, hconfig⟩ := foldl_runCmd_keeps { d with state := 4 } cs
        simp only [hcs]
        exact ⟨⟨hinit.trans hd.1, rfl⟩, hconfig⟩
      · exact ⟨hd, rfl⟩

theorem Dev.call_density (dev : Dev) (c : Driver.Call) : (dev.call c).2.densityInBlocks = dev.densityInBlocks := by
  cases c with
  | write address buffer =>
    rw [Dev.call, drvFlashWrite]
    split_ifs <;> rfl
  | erase start cnt =>
    rw [Dev.call, drvFlashErase]
    split_ifs <;> rfl

/-- One call: both accept it or both refuse it, and the array is the flash of the device again. -/
theorem Driver.Holds.call (h : d.Holds dev) (hc : chip.Completes) {c : Driver.Call} (hf : c.Fits) :
    ((d.call chip c).1 = .deviceDone ↔ (dev.call c).1 = .ok ()) ∧ (d.call chip c).2.Holds (dev.call c).2 := by
  obtain ⟨hready, hconfig⟩ := h.ready.call_keeps chip c
  have hagree : ((d.call chip c).1 = .deviceDone ↔ (dev.call c).1 = .ok ()) ∧
      (d.call chip c).2.flash = (dev.call c).2.mem.flash := by
    cases c with
    | write address buffer => exact h.ready.write_device h.density h.flash hc hf.1 hf.2
    | erase start cnt => exact h.ready.erase_device h.density h.flash hc h.opcode hf.1 hf.2
  refine ⟨hagree.1, hready, hconfig ▸ h.opcode, ?_, hagree.2.symm⟩
  rw [dev.call_density, h.density, hconfig]

/-- The driver and the device after a call of both. -/
def Driver.both (s : Driver × Dev) (a : Chip × Driver.Call) : Driver × Dev := ((s.1.call a.1 a.2).2, (s.2.call a.2).2)

/-- A call is done by the driver if and only if the device accepts it, and leaves the same bytes. -/
def Driver.Agrees (s : Driver × Dev) (a : Chip × Driver.Call) : Prop :=
  ((s.1.call a.1 a.2).1 = .deviceDone ↔ (s.2.call a.2).1 = .ok ()) ∧
    (s.1.call a.1 a.2).2.flash = (s.2.call a.2).2.mem.flash

/-- Over chips whose waits do not fail, every run of writes and erases of the driver goes as it goes in
    `Flash.Device`. -/
theorem driver_runs_as_device (h : d.Holds dev) {as : List (Chip × Driver.Call)}
    (has : ∀ a ∈ as, a.1.Completes ∧ a.2.Fits) : Along Driver.both Driver.Agrees (d, dev) as := by
  induction as generalizing d dev with
  | nil => exact trivial
  | cons a as ih =>
    obtain ⟨⟨hc, hf⟩, has⟩ := List.forall_mem_cons.mp has
    obtain ⟨hdone, hnext⟩ := h.call hc hf
    exact ⟨⟨hdone, hnext.flash.symm⟩, ih hnext has⟩

end Device

/-- Two blocks are erased, three bytes are written over a page boundary in them, and a write behind the chip is
    refused. -/
theorem driver_runs_as_device_small :
    Along Driver.both Driver.Agrees (smallDriver, ⟨⟨smallDriver.flash, fun _ => 0, ⟨0, 0, fun _ => .zero⟩⟩, [], 1024, fun _ _ => true⟩)
      [(fun _ => (true, true), .erase 2 2), (fun _ => (true, true), .write 8447 [1, 2, 3]),
        (fun _ => (true, true), .write 4194304 [1])] :=
  driver_runs_as_device ⟨⟨rfl, rfl⟩, by decide, rfl, rfl⟩ (by simp [Chip.Completes, Driver.Call.Fits])

end Qcc730.Flash
