import Qcc730.Lib.Bits

/-! The OTP fields of the NVM programmer (`otp_field_list.yaml`), and writing one of them.

    A field of less than four bytes is merged into the word that it lies in. A wider one is sent as the bytes that
    the value's text spells: the length of the request is the field's, while the bytes are as many as there are, and
    where they are fewer the target writes what the buffer held before. The last two fields of the list share a
    byte. -/

namespace Qcc730.Nvm
open Lib

/-! ### The list of fields -/

inductive OtpName where
  | readPermissionHwEncryptionKey | writePermissionReadWritePermisions | writePermissionHwEncryptionKey
  | writePermissionPkHash | writePermissionOemSecureBoot | writePermissionAntiRollBack | writePermissionFirmware
  | writePermissionNpsConfig | hwEncryptionKey | pkHash | totalRotNum | modelId | secureBootEnforce | oemId
  | oemDebugDisable | disableQcRma | hashIntgChkDisable | rotIndex | m4AntiRollback | macAddresses
  | modulePartNumber | manufacturingYrWeek | bomConfiguration | bdfCalibrationFlag
  deriving DecidableEq, Repr

/-- `OTP_Field`: an address in bytes, an offset and a length in bits. -/
structure OtpField where
  name : OtpName
  address : ℕ
  offset : ℕ
  length : ℕ
  deriving DecidableEq, Repr

def modulePartNumber : OtpField := ⟨.modulePartNumber, 0x264, 0, 192⟩

def bdfCalibrationFlag : OtpField := ⟨.bdfCalibrationFlag, 0x274, 0, 8⟩

/-- `otp_field_list.yaml` -/
def otpFieldList : List OtpField :=
  [⟨.readPermissionHwEncryptionKey, 0x30, 4, 1⟩, ⟨.writePermissionReadWritePermisions, 0x30, 26, 1⟩,
    ⟨.writePermissionHwEncryptionKey, 0x30, 28, 1⟩, ⟨.writePermissionPkHash, 0x30, 29, 1⟩,
    ⟨.writePermissionOemSecureBoot, 0x30, 31, 1⟩, ⟨.writePermissionAntiRollBack, 0x34, 0, 1⟩,
    ⟨.writePermissionFirmware, 0x34, 3, 1⟩, ⟨.writePermissionNpsConfig, 0x34, 9, 1⟩,
    ⟨.hwEncryptionKey, 0x60, 0, 128⟩, ⟨.pkHash, 0x70, 0, 256⟩, ⟨.totalRotNum, 0xA0, 4, 4⟩,
    ⟨.modelId, 0xA0, 16, 16⟩, ⟨.secureBootEnforce, 0xA4, 0, 3⟩, ⟨.oemId, 0xA4, 8, 16⟩,
    ⟨.oemDebugDisable, 0xA4, 24, 8⟩, ⟨.disableQcRma, 0xA8, 0, 1⟩, ⟨.hashIntgChkDisable, 0xA8, 2, 1⟩,
    ⟨.rotIndex, 0xA8, 16, 8⟩, ⟨.m4AntiRollback, 0xB0, 0, 64⟩, ⟨.macAddresses, 0x1C0, 0, 48⟩,
    modulePartNumber, ⟨.manufacturingYrWeek, 0x260, 0, 16⟩, ⟨.bomConfiguration, 0x260, 16, 16⟩,
    bdfCalibrationFlag]

/-! ### Texts -/

abbrev Text := List Char

def isSpace (c : Char) : Bool := c.toNat = 32 ∨ (9 ≤ c.toNat ∧ c.toNat ≤ 13)

/-- White space outside ASCII. -/
def wideSpaces : List ℕ :=
  [0x85, 0xA0, 0x1680, 0x2000, 0x2001, 0x2002, 0x2003, 0x2004, 0x2005, 0x2006, 0x2007, 0x2008, 0x2009, 0x200A, 0x2028,
    0x2029, 0x202F, 0x205F, 0x3000]

/-- The digits 0 of the other scripts; the nine others follow each. -/
def decimalZeros : List ℕ :=
  [0x660, 0x6F0, 0x7C0, 0x966, 0x9E6, 0xA66, 0xAE6, 0xB66, 0xBE6, 0xC66, 0xCE6, 0xD66, 0xDE6, 0xE50, 0xED0, 0xF20,
    0x1040, 0x1090, 0x17E0, 0x1810, 0x1946, 0x19D0, 0x1A80, 0x1A90, 0x1B50, 0x1BB0, 0x1C40, 0x1C50, 0xA620, 0xA8D0,
    0xA900, 0xA9D0, 0xA9F0, 0xAA50, 0xABF0, 0xFF10, 0x104A0, 0x10D30, 0x11066, 0x110F0, 0x11136, 0x111D0, 0x112F0,
    0x11450, 0x114D0, 0x11650, 0x116C0, 0x11730, 0x118E0, 0x11950, 0x11C50, 0x11D50, 0x11DA0, 0x16A60, 0x16AC0,
    0x16B50, 0x1D7CE, 0x1D7D8, 0x1D7E2, 0x1D7EC, 0x1D7F6, 0x1E140, 0x1E2F0, 0x1E950, 0x1FBF0]

/-- What `int` takes a character for. -/
def toAscii (c : Char) : Char :=
  if c.toNat < 127 then c
  else if c.toNat ∈ wideSpaces then ' '
  else
    match decimalZeros.find? fun z => z ≤ c.toNat ∧ c.toNat < z + 10 with
    | some z => Nat.digitChar (c.toNat - z)
    | none => '?'

def hexDigit (c : Char) : Option ℕ :=
  if 48 ≤ c.toNat ∧ c.toNat ≤ 57 then some (c.toNat - 48)
  else if 65 ≤ c.toNat ∧ c.toNat ≤ 70 then some (c.toNat - 55)
  else if 97 ≤ c.toNat ∧ c.toNat ≤ 102 then some (c.toNat - 87)
  else none

/-- Digits behind the value `acc`; one `_` may stand before each. -/
def hexDigits (acc : ℕ) : Text → Option ℕ
  | [] => some acc
  | '_' :: c :: cs => (hexDigit c).bind fun d => hexDigits (16 * acc + d) cs
  | c :: cs => (hexDigit c).bind fun d => hexDigits (16 * acc + d) cs

/-- A number without sign, which may begin with `0x`. -/
def hexNumber : Text → Option ℕ
  | '0' :: 'x' :: c :: cs => hexDigits 0 (c :: cs)
  | '0' :: 'X' :: c :: cs => hexDigits 0 (c :: cs)
  | c :: cs => (hexDigit c).bind fun d => hexDigits d cs
  | [] => none

/-- `int(value, 16)` -/
def intBase16 (value : Text) : Option ℤ :=
  match (((value.map toAscii).dropWhile isSpace).reverse.dropWhile isSpace).reverse with
  | '-' :: cs => (hexNumber cs).map fun n => -(n : ℤ)
  | '+' :: cs => (hexNumber cs).map fun n => (n : ℤ)
  | cs => (hexNumber cs).map fun n => (n : ℤ)

/-- `bytes.fromhex`: pairs of digits, and space between them. -/
def fromHex : Text → Option Bytes
  | [] => some []
  | [c] => if isSpace c then some [] else none
  | c :: d :: cs =>
    if isSpace c then fromHex (d :: cs)
    else (hexDigit c).bind fun hi => (hexDigit d).bind fun lo => (fromHex cs).map (UInt8.ofNat (16 * hi + lo) :: ·)

/-- `reverse_bytes`: the pairs of each eight characters in reverse order. -/
def reverseBytes (hexStr : Text) : Text :=
  let hexStr := if ['0', 'x'].isPrefixOf hexStr then hexStr.drop 2 else hexStr
  (hexStr.toChunks 8).flatMap fun chunk => (chunk.toChunks 2).reverse.flatten

/-- `f'{n:02x}'` -/
def hex02 (n : ℕ) : Text :=
  let digits := Nat.toDigits 16 n
  List.replicate (2 - digits.length) '0' ++ digits

/-! ### The tool and the target -/

/-- The OTP, and the buffer of `JTAG_Param`. -/
structure OtpTool where
  otp : Memory
  buffer : Memory

inductive OtpValue where
  | num (n : ℕ)
  | bytes (b : Bytes)
  deriving DecidableEq

/-- What `write_otp_field` returns from without a write. -/
inductive Refusal where
  /-- The part number is there, the write is skipped. -/
  | alreadyExists
  /-- The value should not be greater than the mask. -/
  | tooGreat
  /-- The length of the value should be even. -/
  | oddLength
  /-- An exception. -/
  | raised
  deriving DecidableEq, Repr

namespace OtpField

variable (f : OtpField)

/-- `math.ceil(field.length/8)` -/
def size : ℕ := (f.length + 7) / 8

/-- The bytes that `read_otp_field` returns. -/
def readOtpField (otp : Memory) : Bytes := otp.read f.address (if f.size < 4 then 4 else f.size)

/-- The value that `read_otp_field` finds in them. -/
def value (otp : Memory) : OtpValue :=
  if f.length < 48 then .num (getBits (leNum (f.readOtpField otp)) f.offset f.length)
  else .bytes (f.readOtpField otp)

/-- The bytes up to the last one that is not 0 end with a 3, the mark of a part number. -/
def PartNumberExists (otp : Memory) : Prop :=
  ((f.readOtpField otp).reverse.dropWhile (· = 0)).head? = some 3

instance (otp : Memory) : Decidable (f.PartNumberExists otp) := inferInstanceAs (Decidable (_ = _))

/-- A part number is its characters' codes and the mark. -/
def text (value : Text) : Text :=
  if f.name = .modulePartNumber then '0' :: 'x' :: value.flatMap (fun c => hex02 c.toNat) ++ ['0', '3'] else value

/-- The bytes of a value for a wide field. The hash of the key is turned over for one version of the PBL. -/
def toBytes (pblVersion : ℕ) (value : Text) : Except Refusal Bytes :=
  let value := (f.text value).drop 2
  if value.length % 2 ≠ 0 then .error .oddLength
  else
    match fromHex value with
    | none => .error .raised
    | some bytesValue =>
      if f.name = .pkHash ∧ pblVersion = 0x10020001 then
        match fromHex (reverseBytes value) with
        | none => .error .raised
        | some bytesValue => .ok bytesValue
      else .ok bytesValue

/-- `JTAG_COMMAND_OTP_WRITE`: the bytes go to the buffer, and the target writes `size` bytes of it. -/
def send (size : ℕ) (bytesValue : Bytes) (s : OtpTool) : OtpTool :=
  let buffer := s.buffer.store 0 bytesValue
  ⟨s.otp.store f.address (buffer.read 0 size), buffer⟩

/-- `check_pbl_version`, for the hash only: the version is read into the buffer. -/
def checkPblVersion (pblVersion : ℕ) (s : OtpTool) : OtpTool :=
  if f.name = .pkHash then { s with buffer := s.buffer.store 0 (le32 pblVersion) } else s

/-- `write_otp_field`, for a target that writes what it is asked to. -/
def writeOtpField (pblVersion : ℕ) (value : Text) (s : OtpTool) : Except Refusal OtpTool :=
  if f.name = .modulePartNumber ∧ f.PartNumberExists s.otp then .error .alreadyExists
  else if f.size < 4 then
    match intBase16 (f.text value) with
    | none => .error .raised
    | some n =>
      if n > 2 ^ f.length - 1 then .error .tooGreat
      else
        let intValue := setBits (leNum (f.readOtpField s.otp)) f.offset f.length n
        if intValue < 2 ^ 32 then .ok (f.send 4 (leBytes 4 intValue) s) else .error .raised
  else
    match f.toBytes pblVersion value with
    | .error x => .error x
    | .ok bytesValue => .ok (f.send f.size bytesValue (f.checkPblVersion pblVersion s))

/-! ### What is to hold of a write -/

/-- The bits of the field. -/
def bits : Range := ⟨8 * f.address + f.offset, f.length⟩

/-- What a value is in the field, if it fits: a number, or bytes with zeros behind them. -/
def stored (pblVersion : ℕ) (value : Text) : Option OtpValue :=
  if f.size < 4 then
    match intBase16 (f.text value) with
    | none => none
    | some n => if 0 ≤ n ∧ n ≤ 2 ^ f.length - 1 then some (.num n.toNat) else none
  else
    match f.toBytes pblVersion value with
    | .error _ => none
    | .ok b => if b.length ≤ f.size then some (.bytes (b ++ List.replicate (f.size - b.length) 0)) else none

/-- A write that succeeds is of a value that fits. The value is read back, and all other bits, and the other
    fields, are as before. -/
def WritesAlone (pblVersion : ℕ) (value : Text) (s : OtpTool) : Prop :=
  ∀ s', f.writeOtpField pblVersion value s = .ok s' →
    f.stored pblVersion value = some (f.value s'.otp) ∧
      (∀ b, b ∉ f.bits → s'.otp.bit b = s.otp.bit b) ∧
      ∀ g ∈ otpFieldList, g ≠ f → g.value s'.otp = g.value s.otp

/-- A narrow field: the number is not negative, and the calibration flag has it already. A wide field: the bytes are
    not too many, the buffer is 0 behind them, and of a part number byte 16 is what the calibration flag is. -/
def Alone (pblVersion : ℕ) (value : Text) (s : OtpTool) : Prop :=
  if f.name = .modulePartNumber ∧ f.PartNumberExists s.otp then True
  else if f.size < 4 then
    ∀ n, intBase16 (f.text value) = some n → n ≤ 2 ^ f.length - 1 →
      0 ≤ n ∧ (f = bdfCalibrationFlag → f.value s.otp = .num n.toNat)
  else
    ∀ b, f.toBytes pblVersion value = .ok b →
      b.length ≤ f.size ∧ (∀ i, b.length ≤ i → i < f.size → (f.checkPblVersion pblVersion s).buffer i = 0) ∧
        (f = modulePartNumber → s.otp bdfCalibrationFlag.address = b.getD 16 0)

/-! ### The layout of the list -/

/-- A narrow field lies in one word, a wide one is whole bytes. -/
def Laid : Prop :=
  (f.size < 4 ∧ f.length < 48 ∧ f.offset + f.length ≤ 32) ∨
    (4 ≤ f.size ∧ 48 ≤ f.length ∧ f.offset = 0 ∧ f.length = 8 * f.size)

instance : Decidable f.Laid := inferInstanceAs (Decidable (_ ∨ _))

/-- The bits of one lie behind those of the other. -/
def Apart (g : OtpField) : Prop :=
  f.bits.start + f.bits.size ≤ g.bits.start ∨ g.bits.start + g.bits.size ≤ f.bits.start

instance (g : OtpField) : Decidable (f.Apart g) := inferInstanceAs (Decidable (_ ∨ _))

theorem otpFieldList_laid : ∀ f ∈ otpFieldList, f.Laid := by decide

/-- Only the part number and the calibration flag overlap. -/
theorem otpFieldList_apart : ∀ f ∈ otpFieldList, ∀ g ∈ otpFieldList, g ≠ f →
    f.Apart g ∨ (f = modulePartNumber ∧ g = bdfCalibrationFlag) ∨ (f = bdfCalibrationFlag ∧ g = modulePartNumber) := by
  decide

variable {f}

theorem Apart.not_mem {g : OtpField} (h : f.Apart g) {b : ℕ} (hb : b ∈ g.bits) : b ∉ f.bits := by
  rw [Range.mem_def] at hb ⊢
  rw [Apart] at h
  omega

/-! ### The value of a field -/

theorem value_narrow (hlen : f.length < 48) (hsize : f.size < 4) (m : Memory) :
    f.value m = .num (getBits (leNum (m.read f.address 4)) f.offset f.length) := by
  rw [value, if_pos hlen, readOtpField, if_pos hsize]

theorem value_wide (hlen : 48 ≤ f.length) (hsize : 4 ≤ f.size) (m : Memory) :
    f.value m = .bytes (m.read f.address f.size) := by
  rw [value, if_neg (Nat.not_lt.mpr hlen), readOtpField, if_neg (Nat.not_lt.mpr hsize)]

/-- The value is the field's bits. -/
theorem value_eq_iff (hf : f.Laid) {m m' : Memory} :
    f.value m = f.value m' ↔ ∀ b ∈ f.bits, m.bit b = m'.bit b := by
  rcases hf with ⟨hsize, hlen, hfit⟩ | ⟨hsize, hlen, hoff, hbytes⟩
  · have hbit : ∀ (m : Memory) {j : ℕ}, j < f.length →
        (getBits (leNum (m.read f.address 4)) f.offset f.length).testBit j =
          m.bit (8 * f.address + f.offset + j) := fun m j hj => by
      rw [testBit_getBits, decide_eq_true hj, Bool.true_and, Memory.testBit_leNum_read m _ (by omega), Nat.add_assoc]
    rw [value_narrow hlen hsize, value_narrow hlen hsize, OtpValue.num.injEq]
    constructor
    · intro h b hb
      obtain ⟨hb₁, hb₂⟩ := Range.mem_def.mp hb
      dsimp only [bits] at hb₁ hb₂
      have hj := congrArg (Nat.testBit · (b - (8 * f.address + f.offset))) h
      rwa [hbit m (by omega), hbit m' (by omega), Nat.add_sub_cancel' hb₁] at hj
    · intro h
      refine Nat.eq_of_testBit_eq fun j => ?_
      by_cases hj : j < f.length
      · rw [hbit m hj, hbit m' hj]
        exact h _ (Range.mem_def.mpr (by dsimp only [bits]; omega))
      · rw [testBit_getBits, testBit_getBits, decide_eq_false hj, Bool.false_and, Bool.false_and]
  · rw [value_wide hlen hsize, value_wide hlen hsize, OtpValue.bytes.injEq]
    constructor
    · intro h b hb
      obtain ⟨hb₁, hb₂⟩ := Range.mem_def.mp hb
      dsimp only [bits] at hb₁ hb₂
      have hi : b / 8 - f.address < f.size := by omega
      have hbyte := congrArg (·.getD (b / 8 - f.address) 0) h
      rw [Memory.getD_read m hi, Memory.getD_read m' hi, Nat.add_sub_cancel' (by omega)] at hbyte
      rw [Memory.bit, Memory.bit, hbyte]
    · intro h
      refine Memory.read_congr fun i hi => Memory.byte_eq_of_bits fun j hj => ?_
      exact h _ (Range.mem_def.mpr (by dsimp only [bits]; omega))

/-! ### What a write does -/

/-- A write of the buffer's bytes. -/
theorem send_otp (size : ℕ) (b : Bytes) (s : OtpTool) :
    (f.send size b s).otp = s.otp.store f.address ((s.buffer.store 0 b).read 0 size) := rfl

theorem send_leBytes (n : ℕ) (s : OtpTool) :
    (f.send 4 (leBytes 4 n) s).otp = s.otp.store f.address (leBytes 4 n) := by
  have h := Memory.read_store s.buffer 0 (leBytes 4 n)
  rw [length_leBytes] at h
  rw [send_otp, h]

/-- The bits of a narrow field become those of the number, and no others change. -/
theorem bit_sendNarrow (hfit : f.offset + f.length ≤ 32) (hsize : f.size < 4) (n : ℤ) (s : OtpTool) (b : ℕ) :
    (f.send 4 (leBytes 4 (setBits (leNum (f.readOtpField s.otp)) f.offset f.length n)) s).otp.bit b =
      if b ∈ f.bits then (n % 2 ^ f.length).toNat.testBit (b - f.bits.start) else s.otp.bit b := by
  rw [send_leBytes, Memory.bit_store_leBytes, readOtpField, if_pos hsize]
  split
  · rename_i hword
    rw [testBit_setBits, Memory.testBit_leNum_read _ _ (by omega), Nat.add_sub_cancel' hword.1]
    have hiff : (f.offset ≤ b - 8 * f.address ∧ b - 8 * f.address < f.offset + f.length) ↔ b ∈ f.bits := by
      rw [Range.mem_def]
      dsimp only [bits]
      omega
    rw [if_congr hiff rfl rfl, Nat.sub_sub]
    rfl
  · rename_i hword
    rw [if_neg]
    rw [Range.mem_def]
    dsimp only [bits]
    omega

/-- The word that is sent fits in 32 bits. -/
theorem setBits_lt (hfit : f.offset + f.length ≤ 32) (hsize : f.size < 4) (n : ℤ) (otp : Memory) :
    setBits (leNum (f.readOtpField otp)) f.offset f.length n < 2 ^ 32 := by
  refine Nat.lt_pow_two_of_testBit _ fun j hj => ?_
  have hj8 := testBit_leNum (f.readOtpField otp) (Nat.mod_lt j (by decide : 0 < 8)) (j / 8)
  rw [Nat.div_add_mod] at hj8
  rw [testBit_setBits, if_neg (by omega), hj8, readOtpField, if_pos hsize, List.getD_eq_default]
  · exact Nat.zero_testBit _
  · rw [Memory.read, List.length_map, List.length_range]
    omega

theorem value_sendNarrow (hfit : f.offset + f.length ≤ 32) (hlen : f.length < 48) (hsize : f.size < 4) (n : ℤ)
    (s : OtpTool) :
    f.value (f.send 4 (leBytes 4 (setBits (leNum (f.readOtpField s.otp)) f.offset f.length n)) s).otp =
      .num (n % 2 ^ f.length).toNat := by
  have hlt := setBits_lt hfit hsize n s.otp
  generalize hw : setBits (leNum (f.readOtpField s.otp)) f.offset f.length n = w at hlt ⊢
  have hread := Memory.read_store s.otp f.address (leBytes 4 w)
  rw [length_leBytes] at hread
  rw [value_narrow hlen hsize, send_leBytes, hread, leNum_leBytes 4 hlt, ← hw, getBits_setBits]

/-- A wide field becomes the bytes and what the buffer has behind them. -/
theorem value_sendWide (hlen : 48 ≤ f.length) (hsize : 4 ≤ f.size) (b : Bytes) (s : OtpTool) :
    f.value (f.send f.size b s).otp = .bytes ((s.buffer.store 0 b).read 0 f.size) := by
  have hread := Memory.read_store s.otp f.address ((s.buffer.store 0 b).read 0 f.size)
  rw [Memory.length_read] at hread
  rw [value_wide hlen hsize, send_otp, hread]

theorem bit_sendWide (hoff : f.offset = 0) (hbytes : f.length = 8 * f.size) (b : Bytes) (s : OtpTool) {i : ℕ}
    (hi : i ∉ f.bits) : (f.send f.size b s).otp.bit i = s.otp.bit i := by
  rw [send_otp]
  refine Memory.bit_store_out _ ?_
  rw [Range.mem_def] at hi
  dsimp only [bits] at hi
  rw [Memory.length_read]
  omega

theorem writeOtpField_narrow_iff {pblVersion : ℕ} {value : Text} {s s' : OtpTool}
    (hskip : ¬(f.name = .modulePartNumber ∧ f.PartNumberExists s.otp)) (hfit : f.offset + f.length ≤ 32)
    (hsize : f.size < 4) :
    f.writeOtpField pblVersion value s = .ok s' ↔ ∃ n, intBase16 (f.text value) = some n ∧ n ≤ 2 ^ f.length - 1 ∧
      s' = f.send 4 (leBytes 4 (setBits (leNum (f.readOtpField s.otp)) f.offset f.length n)) s := by
  rw [writeOtpField, if_neg hskip, if_pos hsize]
  cases intBase16 (f.text value) with
  | none => exact iff_of_false nofun (by rintro ⟨n, ⟨⟩, -⟩)
  | some n =>
    simp only [setBits_lt hfit hsize, if_true, Option.some.injEq, exists_eq_left', gt_iff_lt]
    by_cases hn : 2 ^ f.length - 1 < n
    · rw [if_pos hn]
      exact iff_of_false nofun fun h => absurd h.1 (Int.not_le.mpr hn)
    · rw [if_neg hn, and_iff_right (Int.not_lt.mp hn), Except.ok.injEq, eq_comm]

theorem writeOtpField_wide_iff {pblVersion : ℕ} {value : Text} {s s' : OtpTool}
    (hskip : ¬(f.name = .modulePartNumber ∧ f.PartNumberExists s.otp)) (hsize : 4 ≤ f.size) :
    f.writeOtpField pblVersion value s = .ok s' ↔ ∃ b, f.toBytes pblVersion value = .ok b ∧
      s' = f.send f.size b (f.checkPblVersion pblVersion s) := by
  rw [writeOtpField, if_neg hskip, if_neg (Nat.not_lt.mpr hsize)]
  cases f.toBytes pblVersion value with
  | error x => exact iff_of_false nofun (by rintro ⟨b, ⟨⟩, -⟩)
  | ok b => simp only [Except.ok.injEq, exists_eq_left', eq_comm]

@[simp] theorem checkPblVersion_otp (pblVersion : ℕ) (s : OtpTool) :
    (f.checkPblVersion pblVersion s).otp = s.otp := by
  rw [checkPblVersion]
  split
  · rfl
  · rfl

/-! ### The other fields -/

/-- Where only the field's bits change, the fields that lie apart do not. -/
theorem value_of_apart {g : OtpField} (hg : g ∈ otpFieldList) (hapart : f.Apart g) {m m' : Memory}
    (hout : ∀ b, b ∉ f.bits → m'.bit b = m.bit b) : g.value m' = g.value m :=
  (value_eq_iff (otpFieldList_laid g hg)).mpr fun b hb => hout b (hapart.not_mem hb)

theorem bdf_value_eq_iff {m m' : Memory} :
    bdfCalibrationFlag.value m' = bdfCalibrationFlag.value m ↔
      m' bdfCalibrationFlag.address = m bdfCalibrationFlag.address := by
  rw [value_eq_iff (by decide)]
  constructor
  · intro h
    refine Memory.byte_eq_of_bits fun j hj => h _ (Range.mem_def.mpr ⟨?_, ?_⟩)
    · exact Nat.le_add_right _ _
    · exact Nat.add_lt_add_left hj _
  · intro h b hb
    obtain ⟨h₁, h₂⟩ := Range.mem_def.mp hb
    have hdiv : b / 8 = bdfCalibrationFlag.address := by
      dsimp only [bits, bdfCalibrationFlag] at h₁ h₂ ⊢
      omega
    rw [Memory.bit, Memory.bit, hdiv, h]

/-- Where at most the flag's bits change, the part number stays if and only if the flag does. -/
theorem part_number_eq_iff {m m' : Memory} (hout : ∀ b, b ∉ bdfCalibrationFlag.bits → m'.bit b = m.bit b) :
    modulePartNumber.value m' = modulePartNumber.value m ↔
      bdfCalibrationFlag.value m' = bdfCalibrationFlag.value m := by
  rw [value_eq_iff (by decide), value_eq_iff (by decide)]
  constructor
  · intro h b hb
    refine h b ?_
    obtain ⟨h₁, h₂⟩ := Range.mem_def.mp hb
    dsimp only [bits, bdfCalibrationFlag] at h₁ h₂
    exact Range.mem_def.mpr (by dsimp only [bits, modulePartNumber]; omega)
  · intro h b _
    by_cases hb : b ∈ bdfCalibrationFlag.bits
    · exact h b hb
    · exact hout b hb

/-- The other fields stay if and only if the one that overlaps does. -/
theorem others_iff (hf : f ∈ otpFieldList) {m m' : Memory} (hout : ∀ b, b ∉ f.bits → m'.bit b = m.bit b) :
    (∀ g ∈ otpFieldList, g ≠ f → g.value m' = g.value m) ↔
      (f = modulePartNumber → bdfCalibrationFlag.value m' = bdfCalibrationFlag.value m) ∧
        (f = bdfCalibrationFlag → modulePartNumber.value m' = modulePartNumber.value m) := by
  constructor
  · intro h
    refine ⟨?_, ?_⟩
    · rintro rfl
      exact h _ (by decide) (by decide)
    · rintro rfl
      exact h _ (by decide) (by decide)
  · rintro ⟨hmod, hbdf⟩ g hg hne
    rcases otpFieldList_apart f hf g hg hne with hapart | ⟨rfl, rfl⟩ | ⟨rfl, rfl⟩
    · exact value_of_apart hg hapart hout
    · exact hmod rfl
    · exact hbdf rfl

/-! ### When a write leaves the rest alone -/

/-- Byte 16 of a part number is the byte of the flag. -/
theorem sendWide_flag {b : Bytes} {s : OtpTool}
    (hzeros : ∀ i, b.length ≤ i → i < modulePartNumber.size → s.buffer i = 0) :
    (modulePartNumber.send modulePartNumber.size b s).otp bdfCalibrationFlag.address = b.getD 16 0 := by
  have haddress : bdfCalibrationFlag.address = modulePartNumber.address + 16 := rfl
  rw [send_otp, haddress, Memory.store_in (by rw [Memory.length_read]; decide), Memory.getD_read _ (by decide)]
  by_cases hlt : 16 < b.length
  · exact Memory.store_in (a := 0) hlt
  · rw [Memory.store_out (.inr (by omega)), hzeros _ (by omega) (by decide), List.getD_eq_default _ _ (by omega)]

theorem writesAlone_narrow {pblVersion : ℕ} {value : Text} {s : OtpTool} (hf : f ∈ otpFieldList)
    (hskip : ¬(f.name = .modulePartNumber ∧ f.PartNumberExists s.otp)) (hsize : f.size < 4) (hlen : f.length < 48)
    (hfit : f.offset + f.length ≤ 32) :
    f.WritesAlone pblVersion value s ↔ f.Alone pblVersion value s := by
  rw [WritesAlone, Alone, if_neg hskip, if_pos hsize]
  simp only [writeOtpField_narrow_iff hskip hfit hsize]
  have hstored : ∀ n, intBase16 (f.text value) = some n → n ≤ 2 ^ f.length - 1 →
      (f.stored pblVersion value = some (.num (n % 2 ^ f.length).toNat) ↔ 0 ≤ n) := fun n hn hle => by
    rw [stored, if_pos hsize, hn]
    by_cases hneg : 0 ≤ n
    · rw [Int.emod_eq_of_lt hneg (by omega)]
      exact iff_of_true (if_pos ⟨hneg, hle⟩) hneg
    · refine iff_of_false (fun h => ?_) hneg
      dsimp only at h
      rw [if_neg fun h' => hneg h'.1] at h
      cases h
  have hnot : f ≠ modulePartNumber := by
    rintro rfl
    exact absurd hsize (by decide)
  constructor
  · intro h n hn hle
    obtain ⟨hst, hout, hothers⟩ := h _ ⟨n, hn, hle, rfl⟩
    rw [value_sendNarrow hfit hlen hsize, hstored n hn hle] at hst
    refine ⟨hst, ?_⟩
    rintro rfl
    have hbdf := (part_number_eq_iff hout).mp (((others_iff hf hout).mp hothers).2 rfl)
    rw [value_sendNarrow hfit hlen hsize, Int.emod_eq_of_lt hst (by omega)] at hbdf
    exact hbdf.symm
  · rintro h s' ⟨n, hn, hle, rfl⟩
    obtain ⟨hneg, hflag⟩ := h n hn hle
    have hout : ∀ b, b ∉ f.bits →
        (f.send 4 (leBytes 4 (setBits (leNum (f.readOtpField s.otp)) f.offset f.length n)) s).otp.bit b =
          s.otp.bit b := fun b hb => by rw [bit_sendNarrow hfit hsize, if_neg hb]
    refine ⟨?_, hout, ?_⟩
    · rw [value_sendNarrow hfit hlen hsize]
      exact (hstored n hn hle).mpr hneg
    · refine (others_iff hf hout).mpr ⟨fun hmod => absurd hmod hnot, ?_⟩
      rintro rfl
      rw [part_number_eq_iff hout, value_sendNarrow hfit hlen hsize, Int.emod_eq_of_lt hneg (by omega)]
      exact (hflag rfl).symm

theorem writesAlone_wide {pblVersion : ℕ} {value : Text} {s : OtpTool} (hf : f ∈ otpFieldList)
    (hskip : ¬(f.name = .modulePartNumber ∧ f.PartNumberExists s.otp)) (hsize : 4 ≤ f.size) (hlen : 48 ≤ f.length)
    (hoff : f.offset = 0) (hbytes : f.length = 8 * f.size) :
    f.WritesAlone pblVersion value s ↔ f.Alone pblVersion value s := by
  rw [WritesAlone, Alone, if_neg hskip, if_neg (Nat.not_lt.mpr hsize)]
  simp only [writeOtpField_wide_iff hskip hsize]
  have hstored : ∀ b, f.toBytes pblVersion value = .ok b →
      (f.stored pblVersion value =
          some (.bytes (((f.checkPblVersion pblVersion s).buffer.store 0 b).read 0 f.size)) ↔
        b.length ≤ f.size ∧ ∀ i, b.length ≤ i → i < f.size → (f.checkPblVersion pblVersion s).buffer i = 0) :=
      fun b hb => by
    rw [stored, if_neg (Nat.not_lt.mpr hsize), hb]
    by_cases hle : b.length ≤ f.size
    · have hzeros := @Memory.read_eq_zeros_iff (f.checkPblVersion pblVersion s).buffer b.length (f.size - b.length)
      rw [Nat.add_sub_cancel' hle] at hzeros
      dsimp only
      rw [if_pos hle, Memory.read_store_zero _ hle, Option.some.injEq, OtpValue.bytes.injEq,
        List.append_cancel_left_eq, eq_comm, hzeros, and_iff_right hle]
    · refine iff_of_false (fun h => ?_) fun h => hle h.1
      dsimp only at h
      rw [if_neg hle] at h
      cases h
  have hnot : f ≠ bdfCalibrationFlag := by
    rintro rfl
    exact absurd hsize (by decide)
  have hout : ∀ b i, i ∉ f.bits → (f.send f.size b (f.checkPblVersion pblVersion s)).otp.bit i = s.otp.bit i :=
    fun b i hi => by rw [bit_sendWide hoff hbytes b _ hi, checkPblVersion_otp]
  -- byte 16 of a part number is the byte of the flag
  have hflag : ∀ b, f = modulePartNumber → b.length ≤ f.size →
      (∀ i, b.length ≤ i → i < f.size → (f.checkPblVersion pblVersion s).buffer i = 0) →
      (f.send f.size b (f.checkPblVersion pblVersion s)).otp bdfCalibrationFlag.address = b.getD 16 0 := by
    rintro b rfl hle hzeros
    exact sendWide_flag hzeros
  constructor
  · intro h b hb
    obtain ⟨hst, -, hothers⟩ := h _ ⟨b, hb, rfl⟩
    rw [value_sendWide hlen hsize, hstored b hb] at hst
    refine ⟨hst.1, hst.2, fun hmod => ?_⟩
    have hbdf := ((others_iff hf (hout b)).mp hothers).1 hmod
    rw [bdf_value_eq_iff, hflag b hmod hst.1 hst.2] at hbdf
    exact hbdf.symm
  · rintro h s' ⟨b, hb, rfl⟩
    obtain ⟨hle, hzeros, hmod⟩ := h b hb
    refine ⟨?_, hout b, (others_iff hf (hout b)).mpr ⟨fun heq => ?_, fun hbdf => absurd hbdf hnot⟩⟩
    · rw [value_sendWide hlen hsize]
      exact (hstored b hb).mpr ⟨hle, hzeros⟩
    · rw [bdf_value_eq_iff, hflag b heq hle hzeros]
      exact (hmod heq).symm

end OtpField

/-- For a field of the list, a write leaves the rest alone if and only if `Alone` holds. -/
theorem otp_field_alone_iff {f : OtpField} (hf : f ∈ otpFieldList) (pblVersion : ℕ) (value : Text) (s : OtpTool) :
    f.WritesAlone pblVersion value s ↔ f.Alone pblVersion value s := by
  by_cases hskip : f.name = .modulePartNumber ∧ f.PartNumberExists s.otp
  · rw [OtpField.Alone, if_pos hskip, iff_true]
    intro s' hs'
    rw [OtpField.writeOtpField, if_pos hskip] at hs'
    cases hs'
  · rcases OtpField.otpFieldList_laid f hf with ⟨hsize, hlen, hfit⟩ | ⟨hsize, hlen, hoff, hbytes⟩
    · exact OtpField.writesAlone_narrow hf hskip hsize hlen hfit
    · exact OtpField.writesAlone_wide hf hskip hsize hlen hoff hbytes

/-- A blank OTP, and a buffer that was used before. -/
def usedTool : OtpTool := ⟨fun _ => 0, fun _ => 0xFF⟩

/-- A narrow field takes a number that fits. -/
theorem otp_field_alone_rot_index :
    (⟨.rotIndex, 0xA8, 16, 8⟩ : OtpField).WritesAlone 0 ['0', 'x', '5'] usedTool := by
  refine (otp_field_alone_iff (by decide) 0 ['0', 'x', '5'] usedTool).mpr ?_
  rw [OtpField.Alone, if_neg (by decide), if_pos (by decide)]
  intro n hn _
  have hfive : intBase16 ['0', 'x', '5'] = some 5 := by decide
  obtain rfl := Option.some.inj (hn.symm.trans hfive)
  exact ⟨by decide, fun h => absurd h (by decide)⟩

/-- One byte for the key: the fifteen others come from the buffer. -/
theorem otp_field_left_over :
    (⟨.hwEncryptionKey, 0x60, 0, 128⟩ : OtpField) ∈ otpFieldList ∧
      ¬(⟨.hwEncryptionKey, 0x60, 0, 128⟩ : OtpField).WritesAlone 0 ['0', 'x', '0', '0'] usedTool := by
  refine ⟨by decide, fun h => ?_⟩
  rw [OtpField.writesAlone_wide (by decide) (by decide) (by decide) (by decide) (by decide) (by decide),
    OtpField.Alone, if_neg (by decide), if_neg (by decide)] at h
  have hbytes : (⟨.hwEncryptionKey, 0x60, 0, 128⟩ : OtpField).toBytes 0 ['0', 'x', '0', '0'] = .ok [0] := by decide
  exact absurd ((h _ hbytes).2.1 1 (by decide) (by decide)) (by decide)

end Qcc730.Nvm
