import Qcc730.Lib.Reach
import Qcc730.Nvm.Rram

/-! The programmer's commands with the OTP device attached, and the read permission of the permissions row.

    `otp_rram_write` is to keep one bit of the row at 0x1A0030 at 0 for ever. It looks at the address a request
    starts at, while the write goes over the whole range; and it takes the offset of the bit, which is 2, for a
    mask, so that the bit it clears is bit 1. -/

namespace Qcc730.Nvm
open Lib

/-- `READ_PERMISSION_READ_WRITE_PERMISIONS_ADDRESS` -/
def readPermissionAddress : ℕ := 0x1A0030

/-- `READ_PERMISSION_READ_WRITE_PERMISIONS_OFFSET` -/
def readPermissionOffset : ℕ := 0x2

/-- `source[0] &= ~(READ_PERMISSION_READ_WRITE_PERMISIONS_OFFSET)` -/
def clearReadPermission : Bytes → Bytes
  | [] => []
  | b :: bs => (b &&& 0xFD) :: bs

/-- `otp_rram_write` -/
def otpRramWrite (destination : ℕ) (source : Bytes) (r : RramState) : RramResult × RramState :=
  if OtpRramVerifyAddress destination source.length then
    let source := if readPermissionAddress = destination then clearReadPermission source else source
    (.ok, rramWrite destination source r)
  else (.errBounds, r)

/-- The parameters of a command: those that the two OTP commands read. -/
structure JtagParam where
  offset : ℕ
  address : ℕ
  size : ℕ
  buffer : Memory

/-- The commands that write. -/
inductive JtagCommand where
  /-- `JTAG_COMMAND_PROGRAM` -/
  | program (p : JtagParam)
  /-- `JTAG_COMMAND_OTP_WRITE` -/
  | otpWrite (p : JtagParam)

/-- What `JTAG_Run` leaves in `JTAG_Param.Return`. The address is the parameter's where none is written. -/
structure JtagReturn where
  address : ℕ
  status : ℕ
  deriving DecidableEq

namespace JtagCommand

def param : JtagCommand → JtagParam
  | program p => p
  | otpWrite p => p

/-- The address that the command hands to `NVM_Write`. -/
def destination : JtagCommand → ℕ
  | program p => u32 (p.address + p.offset)
  | otpWrite p => u32 (p.address + p.offset + 0x1A0000)

/-- The data that the command hands to `NVM_Write`. -/
def source (c : JtagCommand) : Bytes := c.param.buffer.read 0 c.param.size

/-- The address that is left in the answer. -/
def returnAddress : JtagCommand → ℕ
  | c@(program _) => c.destination
  | otpWrite p => p.address

/-- The status for a result of `NVM_Write`. -/
def status : JtagCommand → RramResult → ℕ
  | _, .ok => 0
  | program _, .errBounds => 103
  | otpWrite _, .errBounds => 100

end JtagCommand

/-- `JTAG_Run` with the OTP device attached, for the commands that write. -/
def jtagRun (c : JtagCommand) (r : RramState) : JtagReturn × RramState :=
  let result := otpRramWrite c.destination c.source r
  (⟨c.returnAddress, c.status result.1⟩, result.2)

/-- Bit `b` of the byte at the protected address. -/
def lockBit (b : ℕ) (r : RramState) : Bool := (r.cells readPermissionAddress).toNat.testBit b

/-- The command is accepted, its range covers the protected address, and its data sets bit `b` there; bit 1 it
    sets only when the range starts before that address. -/
def JtagCommand.Sets (b : ℕ) (c : JtagCommand) : Prop :=
  OtpRramVerifyAddress c.destination c.param.size ∧ c.destination ≤ readPermissionAddress ∧
    readPermissionAddress < c.destination + c.param.size ∧
    (c.param.buffer (readPermissionAddress - c.destination)).toNat.testBit b = true ∧
    ¬(c.destination = readPermissionAddress ∧ b = 1)

theorem jtagRun_snd (c : JtagCommand) (r : RramState) :
    (jtagRun c r).2 = (otpRramWrite c.destination c.source r).2 := by
  simp only [jtagRun]

theorem clearReadPermission_length : ∀ bs : Bytes, (clearReadPermission bs).length = bs.length
  | [] => rfl
  | _ :: _ => rfl

/-- The guard changes the first byte only. -/
theorem clearReadPermission_getD {bs : Bytes} (h : 0 < bs.length) :
    (clearReadPermission bs).getD 0 0 = bs.getD 0 0 &&& 0xFD := by
  cases bs with
  | nil => exact absurd h (lt_irrefl 0)
  | cons b bs => rw [clearReadPermission, List.getD_cons_zero, List.getD_cons_zero]

/-- Of the first byte it clears bit 1. -/
theorem testBit_clear (x : UInt8) {b : ℕ} (hb : b < 8) :
    (x &&& 0xFD).toNat.testBit b = (x.toNat.testBit b && !decide (b = 1)) := by
  rw [UInt8.toNat_and, Nat.testBit_and]
  congr 1
  interval_cases b <;> rfl

/-- The bit after a command: as the data has it where the command covers the byte. -/
theorem lockBit_jtagRun {b : ℕ} (hb : b < 8) (c : JtagCommand) {r : RramState} (h0 : lockBit b r = false) :
    lockBit b (jtagRun c r).2 = false ↔ ¬c.Sets b := by
  have hlen : c.source.length = c.param.size := Memory.length_read _ _ _
  rw [jtagRun_snd, otpRramWrite, JtagCommand.Sets, hlen]
  by_cases hv : OtpRramVerifyAddress c.destination c.param.size
  swap
  · rw [if_neg hv]
    exact iff_of_true h0 fun h => hv h.1
  rw [if_pos hv]
  dsimp only
  set src := if readPermissionAddress = c.destination then clearReadPermission c.source else c.source with hsrc
  have hsl : src.length = c.param.size := by
    rw [hsrc]
    split
    · rw [clearReadPermission_length, hlen]
    · exact hlen
  have hcells := (rramWrite_wrote c.destination src r).1
  rw [lockBit] at h0 ⊢
  rw [hcells]
  by_cases hcov : c.destination ≤ readPermissionAddress ∧ readPermissionAddress < c.destination + c.param.size
  swap
  · rw [Memory.store_out (by omega)]
    exact iff_of_true h0 fun h => hcov ⟨h.2.1, h.2.2.1⟩
  obtain ⟨i, hi⟩ := Nat.exists_eq_add_of_le hcov.1
  have hlt : i < c.param.size := by omega
  have hget : c.source.getD i 0 = c.param.buffer i := by
    rw [JtagCommand.source, Memory.getD_read _ hlt, Nat.zero_add]
  rw [hi, Memory.store_in (by omega), Nat.add_sub_cancel_left]
  by_cases hstart : readPermissionAddress = c.destination
  · obtain rfl : i = 0 := by omega
    rw [hsrc, if_pos hstart, clearReadPermission_getD (by omega), hget, testBit_clear _ hb, Nat.add_zero]
    rw [Bool.and_eq_false_iff, Bool.not_eq_false', decide_eq_true_eq]
    refine ⟨fun h hs => ?_, fun h => ?_⟩
    · obtain ⟨-, -, -, hbit, hone⟩ := hs
      rcases h with h | h
      · exact Bool.false_ne_true (h.symm.trans hbit)
      · exact hone ⟨rfl, h⟩
    · by_contra hne
      push Not at hne
      exact h ⟨hv, le_refl _, by omega, Bool.eq_true_of_not_eq_false hne.1, fun hone => hne.2 hone.2⟩
  · rw [hsrc, if_neg hstart, hget]
    refine ⟨fun h hs => Bool.false_ne_true (h.symm.trans hs.2.2.2.1), fun h => ?_⟩
    by_contra hne
    exact h ⟨hv, by omega, by omega, Bool.eq_true_of_not_eq_false hne, fun hone => hstart (by omega)⟩

/-- In a run from an OTP whose bit `b` is 0 the bit is 0 after every command if and only if no command sets it.
    The protected bit is bit 2; the guard keeps requests off bit 1, where they start at the address. -/
theorem read_permission_kept_iff {b : ℕ} (hb : b < 8) (cs : List JtagCommand) {r : RramState}
    (h0 : lockBit b r = false) :
    Along (fun r c => (jtagRun c r).2) (fun r c => lockBit b (jtagRun c r).2 = false) r cs ↔
      Along (fun r c => (jtagRun c r).2) (fun _ c => ¬c.Sets b) r cs :=
  Along.iff (I := fun r => lockBit b r = false)
    (fun _ c hr (_ : True) hc => (lockBit_jtagRun hb c hr).mpr hc) (fun _ c hr _ => lockBit_jtagRun hb c hr) h0
    (along_true r cs)

/-- A blank OTP. -/
def blankOtp : RramState := ⟨fun _ => 0, []⟩

/-- A write to the key at offset 0x60 leaves the bit. -/
theorem read_permission_kept_key :
    Along (fun r c => (jtagRun c r).2) (fun r c => lockBit readPermissionOffset (jtagRun c r).2 = false) blankOtp
      [.otpWrite ⟨0x60, 0, 16, fun _ => 0xFF⟩] := by
  refine (read_permission_kept_iff (b := readPermissionOffset) (by decide) _ (by decide)).mpr ⟨?_, trivial⟩
  rintro ⟨-, hle, -⟩
  exact absurd hle (by decide)

/-- One byte 4 at the protected address sets bit 2 in spite of the guard; a range that begins a word before the
    address sets bit 1, which the guard is for. -/
theorem read_permission_set :
    lockBit readPermissionOffset blankOtp = false ∧
      lockBit readPermissionOffset (jtagRun (.program ⟨0, 0x1A0030, 1, fun _ => 4⟩) blankOtp).2 = true ∧
      lockBit 1 blankOtp = false ∧
      lockBit 1 (jtagRun (.otpWrite ⟨0x2C, 0, 8, fun i => if i = 4 then 2 else 0⟩) blankOtp).2 = true := by
  decide +kernel

end Qcc730.Nvm
