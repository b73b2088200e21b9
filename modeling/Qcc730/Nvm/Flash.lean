import Qcc730.Flash.Driver

/-! The flash half of the NVM programmer: `flash_write` with the block check and erase before it.

    A write starts at a block. Every block it touches is read back, and the first one that is not blank has
    the whole range erased; the data then goes in by one `drv_flash_write`. The programmer's own bounds check
    counts one byte too many, so that a range that ends one byte behind the chip is left to the driver.

    `flash_init` copies the chip's density from the driver's configuration. -/

namespace Qcc730.Nvm
open Lib Flash

/-- What the functions return: `QAPI_ERR_BOUNDS`, or the status of the driver. -/
inductive FlashResult where
  | errBounds
  | drv (status : DrvStatus)
  deriving DecidableEq, Repr

/-- `QAPI_OK` and `FLASH_DEVICE_DONE`, both 0. -/
@[match_pattern] abbrev FlashResult.ok : FlashResult := .drv .deviceDone

/-- The result of a driver call, handed on. -/
def ofDrv (r : DrvStatus × Driver) : FlashResult × Driver := (.drv r.1, r.2)

@[simp] theorem ofDrv_fst (r : DrvStatus × Driver) : (ofDrv r).1 = .drv r.1 := rfl

@[simp] theorem ofDrv_snd (r : DrvStatus × Driver) : (ofDrv r).2 = r.2 := rfl

/-- How the driver's waits end in one `flash_write`: the transfers of the read of each block, the waits of
    the erase that may follow it, and those of the write. -/
structure Bus where
  reads : ℕ → ℕ → Bool
  erases : ℕ → Chip
  write : Chip

/-- `flash_verify_address`. -/
def FlashVerifyAddress (address length : ℕ) (d : Driver) : Prop :=
  address ≤ u32 (d.config.densityInBlocks * 4096) ∧ address % 4096 = 0 ∧
    u32 (u32sub (u32 (d.config.densityInBlocks * 4096)) address + 1) ≥ length

instance (a n : ℕ) (d : Driver) : Decidable (FlashVerifyAddress a n d) :=
  inferInstanceAs (Decidable (_ ∧ _ ∧ _))

/-- `flash_read`, which reads slice by slice up to the block boundaries; `reads` says which of the transfers
    complete, and the fuel is at least the number of bytes. -/
def flashRead (reads : ℕ → Bool) : ℕ → ℕ → ℕ → ℕ → Driver → DrvStatus × Bytes
  | 0, _, _, _, _ => (.deviceDone, [])
  | n + 1, i, address, byteCnt, d =>
    if byteCnt = 0 then (.deviceDone, [])
    else
      let readSize := if address % 4096 ≠ 0 then min (4096 - address % 4096) byteCnt else min 4096 byteCnt
      let r := d.read (reads i) address readSize
      if r.1 = .deviceDone then
        let q := flashRead reads n (i + 1) (u32 (address + readSize)) (byteCnt - readSize) d
        (q.1, r.2 ++ q.2)
      else r

/-- `comparative_buffer`. -/
def comparativeBuffer : Bytes := List.replicate 4096 0xFF

/-- The loop of `flash_partial_check_erase` from pass `i` on: a block that is not blank has the whole range
    erased. The fuel is `block_num`. -/
def checkErase (bus : Bus) (startBlock blockNum endOffset : ℕ) : ℕ → ℕ → ℕ → Driver → DrvStatus × Driver
  | 0, _, _, d => (.deviceDone, d)
  | n + 1, i, offset, d =>
    if offset < endOffset then
      let r := flashRead (bus.reads i) 4096 0 offset 4096 d
      if r.1 ≠ .deviceDone then (r.1, d)
      else if r.2 ≠ comparativeBuffer then
        let e := d.erase (bus.erases i) .block startBlock blockNum
        if e.1 ≠ .deviceDone then e
        else checkErase bus startBlock blockNum endOffset n (i + 1) (u32 (offset + 4096)) e.2
      else checkErase bus startBlock blockNum endOffset n (i + 1) (u32 (offset + 4096)) d
    else (.deviceDone, d)

/-- `block_num`: the blocks of the range, as the source counts them. -/
def blockNum (startAddr length : ℕ) : ℕ :=
  u32 (u32sub (u32sub (u32 (startAddr + length)) 1 / 4096) (startAddr / 4096) + 1)

/-- The loop of `flash_partial_check_erase` over `num` blocks, from the first block of the range. -/
def checkBlocks (bus : Bus) (startAddr num : ℕ) (d : Driver) : DrvStatus × Driver :=
  let startBlock := startAddr / 4096
  let offset := u32 (startBlock * 4096)
  let endOffset := u32 (offset + u32 (num * 4096))
  checkErase bus startBlock num endOffset num 0 offset d

/-- `flash_partial_check_erase`. -/
def flashPartialCheckErase (bus : Bus) (startAddr length : ℕ) (d : Driver) : FlashResult × Driver :=
  if FlashVerifyAddress startAddr length d then
    if blockNum startAddr length = 0 then (.ok, d)
    else ofDrv (checkBlocks bus startAddr (blockNum startAddr length) d)
  else (.errBounds, d)

/-- `flash_write`. -/
def flashWrite (bus : Bus) (destination : ℕ) (source : Bytes) (d : Driver) : FlashResult × Driver :=
  let r := flashPartialCheckErase bus destination source.length d
  if r.1 ≠ .ok then r else ofDrv (r.2.write bus.write destination source false)

/-! ### The bounds check -/

/-- The check lets a range end one byte behind the chip. -/
theorem flashVerifyAddress_iff (d : Driver) {address length : ℕ} :
    FlashVerifyAddress address length d ↔
      address ≤ d.config.bytes ∧ address % 4096 = 0 ∧ address + length ≤ d.config.bytes + 1 := by
  have hlt : d.config.bytes < 2 ^ 32 := d.config.density_lt
  have hmod : d.config.bytes % 4096 = 0 := Nat.mul_mod_left _ _
  have hb : u32 (d.config.densityInBlocks * 4096) = d.config.bytes := u32_of_lt d.config.density_lt
  rw [FlashVerifyAddress, hb]
  refine and_congr_right fun ha => and_congr_right fun _ => ?_
  rw [u32sub_of_le hlt ha, u32_of_lt (by omega)]
  omega

/-- Behind the check the result is a status of the driver. -/
theorem flashPartialCheckErase_drv (bus : Bus) {startAddr length : ℕ} {d : Driver}
    (hv : FlashVerifyAddress startAddr length d) :
    ∃ s, (flashPartialCheckErase bus startAddr length d).1 = .drv s := by
  rw [flashPartialCheckErase, if_pos hv]
  split
  · exact ⟨_, rfl⟩
  · exact ⟨_, rfl⟩

/-- `QAPI_ERR_BOUNDS` comes from the check alone, before anything is done. -/
theorem flashWrite_errBounds_iff (bus : Bus) (destination : ℕ) (source : Bytes) (d : Driver) :
    ((flashWrite bus destination source d).1 = .errBounds ∧ (flashWrite bus destination source d).2 = d) ↔
      ¬FlashVerifyAddress destination source.length d := by
  by_cases hv : FlashVerifyAddress destination source.length d
  · refine iff_of_false ?_ (not_not.mpr hv)
    rintro ⟨hne, -⟩
    obtain ⟨s, hs⟩ := flashPartialCheckErase_drv bus hv
    rw [flashWrite] at hne
    split at hne
    · rw [hs] at hne
      cases hne
    · cases hne
  · refine iff_of_true ?_ hv
    rw [flashWrite, flashPartialCheckErase, if_neg hv]
    exact ⟨rfl, rfl⟩

/-! ### The block check -/

theorem flashRead_nothing (reads : ℕ → Bool) (n i address : ℕ) (d : Driver) :
    flashRead reads n i address 0 d = (.deviceDone, []) := by
  cases n with
  | zero => rfl
  | succ n => rw [flashRead, if_pos rfl]

/-- An aligned block is read in one slice. -/
theorem flashRead_block (reads : ℕ → Bool) {offset : ℕ} (h : offset % 4096 = 0) (d : Driver) :
    flashRead reads 4096 0 offset 4096 d = d.read (reads 0) offset 4096 := by
  rw [flashRead, if_neg (by decide), if_neg (not_not.mpr h), min_self]
  dsimp only
  rw [Nat.sub_self, flashRead_nothing, List.append_nil]
  split
  · next hr => exact Prod.ext hr.symm rfl
  · rfl

/-- A read that reports done has read the array, and the range lies in the chip. -/
theorem Driver.read_done {d : Driver} {done : Bool} {address byteCnt : ℕ}
    (h : (d.read done address byteCnt).1 = .deviceDone) :
    (d.read done address byteCnt).2 = d.flash.read address byteCnt ∧ d.config.ReadOk address byteCnt := by
  simp only [Driver.read] at h ⊢
  split at h
  · cases h
  split at h
  · cases h
  split at h
  · split at h
    · next h₁ h₂ h₃ h₄ =>
      rw [if_neg h₁, if_neg h₂, if_pos h₃, if_pos h₄]
      exact ⟨rfl, h₃⟩
    · cases h
  · cases h

/-- What the slices of a read that reports done have read, by induction on the bytes left. -/
theorem flashRead_done (reads : ℕ → Bool) (d : Driver) : ∀ (n i address byteCnt : ℕ), byteCnt ≤ n →
    address < 2 ^ 32 → (flashRead reads n i address byteCnt d).1 = .deviceDone →
    (flashRead reads n i address byteCnt d).2 = d.flash.read address byteCnt ∧
      (0 < byteCnt → address + byteCnt ≤ d.config.bytes)
  | 0, i, address, byteCnt, hn, _, _ => by
    obtain rfl : byteCnt = 0 := Nat.le_zero.mp hn
    exact ⟨rfl, fun h => absurd h (lt_irrefl 0)⟩
  | n + 1, i, address, byteCnt, hn, ha, h => by
    by_cases h0 : byteCnt = 0
    · subst h0
      rw [flashRead_nothing]
      exact ⟨rfl, fun h => absurd h (lt_irrefl 0)⟩
    rw [flashRead, if_neg h0] at h ⊢
    dsimp only at h ⊢
    have hsize : ∃ k, k = (if address % 4096 ≠ 0 then min (4096 - address % 4096) byteCnt else min 4096 byteCnt) ∧
        0 < k ∧ k ≤ byteCnt ∧ k ≤ 4096 := ⟨_, rfl, by split <;> omega, by split <;> omega, by split <;> omega⟩
    obtain ⟨k, hk, hpos, hle, hmax⟩ := hsize
    rw [← hk] at h ⊢
    by_cases hr : (d.read (reads i) address k).1 = .deviceDone
    · rw [if_pos hr] at h ⊢
      obtain ⟨hread, hok⟩ := Driver.read_done hr
      have hin := ((d.config.writeOk_iff ha (by omega)).mp hok).2
      have hlt : address + k < 2 ^ 32 := lt_of_le_of_lt hin d.config.density_lt
      rw [u32_of_lt hlt] at h ⊢
      obtain ⟨hrest, hend⟩ := flashRead_done reads d n (i + 1) (address + k) (byteCnt - k) (by omega) hlt h
      refine ⟨?_, fun _ => ?_⟩
      · rw [hread, hrest, ← Memory.read_add, Nat.add_sub_cancel' hle]
      · by_cases hall : byteCnt = k
        · exact hall ▸ hin
        · have := hend (by omega)
          omega
    · rw [if_neg hr] at h
      exact absurd h hr

/-- A block that compares equal to the comparative buffer is blank. -/
theorem blank_of_read {m : Memory} {a : ℕ} (h : m.read a 4096 = comparativeBuffer) {x : ℕ} (hx : a ≤ x)
    (hx' : x < a + 4096) : m x = 0xFF := by
  have hi := m.getElem?_read a 4096 (x - a) (by omega)
  rw [h, comparativeBuffer, List.getElem?_replicate, if_pos (by omega), Nat.add_sub_cancel' hx] at hi
  exact (Option.some.inj hi).symm

/-- What a block check that reports done has done to the array: the range from `offset` on is blank, a blank
    byte stays blank, and outside the erased blocks `lo .. hi - 1` nothing changed. -/
structure Blanked (lo hi offset : ℕ) (d d' : Driver) : Prop where
  blank : ∀ x, offset ≤ x → x < hi → d'.flash x = 0xFF
  stays : ∀ x, d.flash x = 0xFF → d'.flash x = 0xFF
  frame : ∀ x, x < lo ∨ hi ≤ x → d'.flash x = d.flash x

/-- The check of the last `n` of the blocks, by induction on `n`. -/
theorem checkErase_done (bus : Bus) {start cnt hi : ℕ} (hhi : (start + cnt) * 4096 = hi) (hlt : hi < 2 ^ 32) :
    ∀ (n i offset : ℕ) (d : Driver), offset % 4096 = 0 → start * 4096 ≤ offset → offset + n * 4096 = hi →
      (checkErase bus start cnt hi n i offset d).1 = .deviceDone →
      Blanked (start * 4096) hi offset d (checkErase bus start cnt hi n i offset d).2
  | 0, _, offset, d, _, _, hn, _ => ⟨fun x h₁ h₂ => by omega, fun _ h => h, fun _ _ => rfl⟩
  | n + 1, i, offset, d, hal, hlo, hn, h => by
    have hoff : offset < hi := by omega
    have hu : u32 (offset + 4096) = offset + 4096 := u32_of_lt (by omega)
    simp only [checkErase, if_pos hoff, flashRead_block _ hal, hu] at h ⊢
    split at h
    · next hr => exact absurd h hr
    next hr =>
    rw [if_neg hr]
    have hread := (Driver.read_done (not_not.mp hr)).1
    split at h
    · next hne =>
      rw [if_pos hne]
      split at h
      · next he => exact absurd h he
      next he =>
      rw [if_neg he]
      -- the erase blanks the whole range, so that the later blocks compare equal
      have hflash := Driver.erase_done (Prod.ext (not_not.mp he) rfl) (hhi.trans_lt hlt)
      rw [Nat.add_mul] at hhi
      have ih := checkErase_done bus (by rw [Nat.add_mul]; exact hhi) hlt n (i + 1) (offset + 4096) _
        (by omega) (by omega) (by omega) h
      refine ⟨fun x h₁ h₂ => ih.stays x ?_, fun x hx => ih.stays x ?_, fun x hx => ?_⟩
      · rw [hflash]
        exact Memory.erase_in (by omega) (by omega)
      · rw [hflash, Memory.erase, hx, ite_self]
      · rw [ih.frame x hx, hflash]
        exact Memory.erase_out (by omega)
    · next heq =>
      rw [if_neg heq]
      have hblank := not_not.mp heq
      rw [hread] at hblank
      have ih := checkErase_done bus hhi hlt n (i + 1) (offset + 4096) d (by omega) (by omega) (by omega) h
      refine ⟨fun x h₁ h₂ => ?_, ih.stays, ih.frame⟩
      by_cases hx : x < offset + 4096
      · exact ih.stays x (blank_of_read hblank h₁ hx)
      · exact ih.blank x (by omega) h₂

/-- The check never changes the configuration. -/
theorem checkErase_config (bus : Bus) (start cnt hi : ℕ) : ∀ (n i offset : ℕ) (d : Driver),
    (checkErase bus start cnt hi n i offset d).2.config = d.config
  | 0, _, _, _ => rfl
  | n + 1, i, offset, d => by
    have he := Driver.erase_config (bus.erases i) .block start cnt d
    rw [checkErase]
    split
    · dsimp only
      split
      · rfl
      split
      · split
        · exact he
        · exact (checkErase_config bus start cnt hi n (i + 1) _ _).trans he
      · exact checkErase_config bus start cnt hi n (i + 1) _ d
    · rfl

theorem flashPartialCheckErase_config (bus : Bus) (startAddr length : ℕ) (d : Driver) :
    (flashPartialCheckErase bus startAddr length d).2.config = d.config := by
  rw [flashPartialCheckErase]
  split
  · split
    · rfl
    · rw [ofDrv_snd, checkBlocks]
      exact checkErase_config bus _ _ _ _ 0 _ d
  · rfl

/-! ### The write -/

/-- The end of the block that holds the last byte of the range. -/
def lastBlockEnd (destination length : ℕ) : ℕ := ((destination + length - 1) / 4096 + 1) * 4096

/-- The blocks of a range that starts at block `k` and lies below 2³², with none of the sums wrapping. -/
theorem blockNum_eq {k length : ℕ} (hpos : 0 < length) (hlt : k * 4096 + length < 2 ^ 32) :
    (k + blockNum (k * 4096) length) * 4096 = lastBlockEnd (k * 4096) length ∧ 0 < blockNum (k * 4096) length := by
  have hk : k * 4096 / 4096 = k := Nat.mul_div_cancel k (by decide)
  have hle : k ≤ (k * 4096 + length - 1) / 4096 := by omega
  have hq : (k * 4096 + length - 1) / 4096 < 1048576 := by omega
  have hnum : blockNum (k * 4096) length = (k * 4096 + length - 1) / 4096 - k + 1 := by
    rw [blockNum, hk, u32_of_lt hlt, u32sub_of_le hlt (by omega)]
    generalize (k * 4096 + length - 1) / 4096 = q at *
    rw [u32sub_of_le (by omega) hle, u32_of_lt (by omega)]
  rw [hnum, lastBlockEnd]
  generalize (k * 4096 + length - 1) / 4096 = q at *
  exact ⟨by rw [← Nat.add_assoc, Nat.add_sub_cancel' hle], Nat.succ_pos _⟩

/-- The loop with its offsets computed. -/
theorem checkBlocks_eq (bus : Bus) {startAddr start num hi : ℕ} (d : Driver) (hs : startAddr / 4096 = start)
    (ho : u32 (start * 4096) = startAddr) (hto : u32 (startAddr + u32 (num * 4096)) = hi) :
    checkBlocks bus startAddr num d = checkErase bus start num hi num 0 startAddr d := by
  subst hs
  have hend := (congrArg (fun o => u32 (o + u32 (num * 4096))) ho).trans hto
  exact congrArg₂ (fun e o => checkErase bus (startAddr / 4096) num e num 0 o d) hend ho

theorem checkBlocks_done {bus : Bus} {k n hi : ℕ} {d : Driver} (hend : (k + n) * 4096 = hi) (hhi : hi < 2 ^ 32)
    (h : (checkBlocks bus (k * 4096) n d).1 = .deviceDone) :
    Blanked (k * 4096) hi (k * 4096) d (checkBlocks bus (k * 4096) n d).2 := by
  have hsum : k * 4096 + n * 4096 = hi := (Nat.add_mul k n 4096).symm.trans hend
  have hn : u32 (n * 4096) = n * 4096 :=
    u32_of_lt (Nat.lt_of_le_of_lt (Nat.le.intro ((Nat.add_comm _ _).trans hsum)) hhi)
  have hto : u32 (k * 4096 + u32 (n * 4096)) = hi := by rw [hn, hsum, u32_of_lt hhi]
  have heq := checkBlocks_eq bus d (Nat.mul_div_cancel k (by decide))
    (u32_of_lt (Nat.lt_of_le_of_lt (Nat.le.intro hsum) hhi)) hto
  rw [heq] at h ⊢
  exact checkErase_done bus hend hhi n 0 (k * 4096) d (Nat.mul_mod_left _ _) (le_refl _) hsum h

/-- A check that passes on a range inside the chip leaves its blocks blank, and the others as they were. -/
theorem flashPartialCheckErase_ok {bus : Bus} {startAddr length : ℕ} {d : Driver}
    (h : (flashPartialCheckErase bus startAddr length d).1 = .ok) (hpos : 0 < length)
    (hin : startAddr + length ≤ d.config.bytes) :
    Blanked startAddr (lastBlockEnd startAddr length) startAddr d
      (flashPartialCheckErase bus startAddr length d).2 := by
  rw [flashPartialCheckErase] at h ⊢
  by_cases hv : FlashVerifyAddress startAddr length d
  · obtain ⟨-, hal, -⟩ := (flashVerifyAddress_iff d).mp hv
    have hlt : d.config.bytes < 2 ^ 32 := d.config.density_lt
    have hmod : d.config.bytes % 4096 = 0 := Nat.mul_mod_left _ _
    obtain ⟨k, rfl⟩ : ∃ k, startAddr = k * 4096 := ⟨startAddr / 4096, by omega⟩
    obtain ⟨hend, hnum⟩ := blockNum_eq (k := k) hpos (by omega)
    have hle : lastBlockEnd (k * 4096) length ≤ d.config.bytes := by rw [lastBlockEnd]; omega
    rw [if_pos hv, if_neg (Nat.ne_of_gt hnum)] at h ⊢
    rw [ofDrv_fst] at h
    rw [ofDrv_snd]
    exact checkBlocks_done hend (Nat.lt_of_le_of_lt hle hlt) (FlashResult.drv.inj h)
  · rw [if_neg hv] at h
    cases h

/-- What `flash_write` is to do: it refuses with `QAPI_ERR_BOUNDS`, changing nothing, exactly the ranges that
    do not start at a block or leave the chip; and when it returns `QAPI_OK` the range holds the data, the rest
    of the last block is blank, and everything else is as it was. -/
def WritesExactly (d : Driver) (destination : ℕ) (source : Bytes) : Prop :=
  ∀ bus : Bus,
    (((flashWrite bus destination source d).1 = .errBounds ∧ (flashWrite bus destination source d).2 = d) ↔
      destination % 4096 ≠ 0 ∨ d.config.bytes < destination + source.length) ∧
    ((flashWrite bus destination source d).1 = .ok → ∀ x, (flashWrite bus destination source d).2.flash x =
      if destination ≤ x ∧ x < destination + source.length then source.getD (x - destination) 0
      else if destination + source.length ≤ x ∧ x < lastBlockEnd destination source.length then 0xFF
      else d.flash x)

/-- A write that returns `QAPI_OK` has written the data over blank blocks. -/
theorem flashWrite_ok {bus : Bus} {destination : ℕ} {source : Bytes} {d : Driver}
    (h : (flashWrite bus destination source d).1 = .ok) (hd : destination < 2 ^ 32) (hpos : 0 < source.length)
    (hl : source.length < 2 ^ 32) (x : ℕ) :
    (flashWrite bus destination source d).2.flash x =
      if destination ≤ x ∧ x < destination + source.length then source.getD (x - destination) 0
      else if destination + source.length ≤ x ∧ x < lastBlockEnd destination source.length then 0xFF
      else d.flash x := by
  have hcheck : (flashPartialCheckErase bus destination source.length d).1 = .ok := by
    by_contra hne
    rw [flashWrite, if_pos hne] at h
    exact hne h
  rw [flashWrite, if_neg (not_not.mpr hcheck)] at h ⊢
  rw [ofDrv_fst] at h
  rw [ofDrv_snd]
  obtain ⟨-, hin, hflash⟩ := Driver.write_done (Prod.ext (FlashResult.drv.inj h) rfl) hd hl
  rw [flashPartialCheckErase_config] at hin
  have hb := flashPartialCheckErase_ok hcheck hpos hin
  have hlast : destination + source.length ≤ lastBlockEnd destination source.length := by rw [lastBlockEnd]; omega
  rw [hflash]
  by_cases hx : destination ≤ x ∧ x < destination + source.length
  · rw [if_pos hx]
    obtain ⟨i, rfl⟩ := Nat.exists_eq_add_of_le hx.1
    rw [Nat.add_sub_cancel_left]
    exact Memory.program_in (Nat.lt_of_add_lt_add_left hx.2) (hb.blank _ hx.1 (Nat.lt_of_lt_of_le hx.2 hlast))
  · rw [if_neg hx, Memory.program_out (by omega)]
    split
    · next hr => exact hb.blank x (by omega) hr.2
    · next hr => exact hb.frame x (by omega)

/-- A write that starts at a block and ends one byte behind the chip passes the programmer's check, and the
    driver refuses it with a status of its own; every other write is exact or refused. -/
theorem flash_write_exact_iff (d : Driver) (destination : ℕ) (source : Bytes) (hd : destination < 2 ^ 32)
    (hpos : 0 < source.length) (hl : source.length < 2 ^ 32) :
    WritesExactly d destination source ↔
      ¬(destination % 4096 = 0 ∧ destination + source.length = d.config.bytes + 1) := by
  have hiff : (∀ bus : Bus, ((flashWrite bus destination source d).1 = .errBounds ∧
      (flashWrite bus destination source d).2 = d) ↔ destination % 4096 ≠ 0 ∨
        d.config.bytes < destination + source.length) ↔
      ¬(destination % 4096 = 0 ∧ destination + source.length = d.config.bytes + 1) := by
    simp only [flashWrite_errBounds_iff, flashVerifyAddress_iff]
    refine ⟨fun h => ?_, fun h _ => by omega⟩
    have := h ⟨fun _ _ => true, fun _ _ => (true, true), fun _ => (true, true)⟩
    omega
  rw [← hiff]
  exact ⟨fun h bus => (h bus).1, fun h bus => ⟨h bus, fun hok x => flashWrite_ok hok hd hpos hl x⟩⟩

/-- One byte over a used chip is written exactly. -/
theorem flash_write_exact_one : WritesExactly smallDriver 0 [0x5A] :=
  (flash_write_exact_iff smallDriver 0 [0x5A] (by decide) (by decide) (by decide)).mpr (by decide)

/-- One byte behind the end of a 4 MB chip is not refused as out of bounds: the driver finds the read of the
    block invalid. -/
theorem flash_write_one_past_the_end :
    ¬WritesExactly smallDriver 4194304 [0x5A] ∧
      (flashWrite ⟨fun _ _ => true, fun _ _ => (true, true), fun _ => (true, true)⟩ 4194304 [0x5A] smallDriver).1 =
        .drv .invalidParameter := by
  refine ⟨fun h => ?_, by decide +kernel⟩
  have hb := (h ⟨fun _ _ => true, fun _ _ => (true, true), fun _ => (true, true)⟩).1.mpr (.inr (by decide))
  exact (flashWrite_errBounds_iff _ _ _ _).mp hb (by decide)

end Qcc730.Nvm
