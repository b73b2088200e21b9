import Qcc730.HexFile.Regions
import Qcc730.Nvm.OtpField

/-! The text of a hex file: `write_hex` and `__parse_file`.

    A block is written in lines that end at the multiples of 64 KB, each a record with the low 16 bits of its address.
    The high bits stand in an extended address record before, which a file of type I8HEX has none of. The parser
    reads the extended segment address and the extended linear address with one multiplier. -/

namespace Qcc730.Hex
open Lib Lib.Segment
open Nvm (Text hexDigit hexDigits hexNumber intBase16 fromHex isSpace toAscii wideSpaces)

/-! ### The source -/

/-- `RECORD_GROUP_...` -/
inductive RecordGroup where
  | data | endOfFile | extendedAddress | startAddress
  deriving DecidableEq, Repr

/-- `FILE_TYPE_...` -/
def FileType.number : FileType → ℕ
  | .i8hex => 8
  | .i16hex => 16
  | .i32hex => 32

/-- `PARSE_MAP` -/
def parseMap : ℤ → Option (FileType × RecordGroup)
  | 0 => some (.i8hex, .data)
  | 1 => some (.i8hex, .endOfFile)
  | 2 => some (.i16hex, .extendedAddress)
  | 3 => some (.i16hex, .startAddress)
  | 4 => some (.i32hex, .extendedAddress)
  | 5 => some (.i32hex, .startAddress)
  | _ => none

/-- `WRITE_MAP` -/
def writeMap : FileType → RecordGroup → Option ℕ
  | .i16hex, .extendedAddress => some 2
  | .i16hex, .startAddress => some 3
  | .i32hex, .extendedAddress => some 4
  | .i32hex, .startAddress => some 5
  | _, _ => none

/-- The arguments of `__write_line`. -/
structure Record where
  command : ℕ
  address : ℤ
  data : Bytes
  deriving DecidableEq, Repr

/-- `struct.pack` of one unsigned number of `k` bytes, the high byte first. -/
def packBE (k : ℕ) (n : ℤ) : Except HexError Bytes :=
  if 0 ≤ n ∧ n < 256 ^ k then .ok (leBytes k n.toNat).reverse else .error .structError

def upperDigit (n : ℕ) : Char := Char.ofNat (if n < 10 then 48 + n else 55 + n)

/-- `{:02X}` of each byte. -/
def hexText (bytes : Bytes) : Text := bytes.flatMap fun b => [upperDigit (b.toNat / 16), upperDigit (b.toNat % 16)]

def byteSum (bytes : Bytes) : ℕ := (bytes.map UInt8.toNat).sum

namespace Record

variable (r : Record)

/-- What `struct.pack` takes as a byte, two bytes and a byte. -/
def Fits : Prop := r.data.length ≤ 255 ∧ 0 ≤ r.address ∧ r.address ≤ 65535 ∧ r.command ≤ 255

instance : Decidable r.Fits := inferInstanceAs (Decidable (_ ∧ _))

/-- The packed length, address and command, and the data. -/
def packed : Bytes :=
  UInt8.ofNat r.data.length :: ((leBytes 2 r.address.toNat).reverse ++ UInt8.ofNat r.command :: r.data)

def checksum : UInt8 := UInt8.ofNat ((256 - byteSum r.packed % 256) % 256)

def lineData : Bytes := r.packed ++ [r.checksum]

def line : Text := ':' :: hexText r.lineData

end Record

/-- `__write_line` -/
def writeLine (r : Record) : Except HexError Text := if r.Fits then .ok (r.line ++ ['\n']) else .error .structError

/-- The record of an extended address. -/
def extendedRecord (fileType : FileType) (extAddr : ℤ) : Except HexError Record :=
  match writeMap fileType .extendedAddress with
  | none => .error .keyError
  | some command =>
    match packBE 2 extAddr with
    | .error x => .error x
    | .ok data => .ok ⟨command, 0, data⟩

/-- The lines of a block from `address` on, whose bytes there are `rest`: the records or the exceptions that
    making them raises, and the extended address behind. Each line has a byte at least if `lineLength` is
    positive; without fuel the loop has not ended. -/
def blockRecords (fileType : FileType) (lineLength : ℕ) :
    ℕ → ℤ → Bytes → ℤ → Option (List (Except HexError Record) × ℤ)
  | _, _, [], cur => some ([], cur)
  | 0, _, _ :: _, _ => none
  | fuel + 1, address, b :: rest, cur =>
    let extAddr := address / 65536
    let low := address % 65536
    let lineLen := min lineLength (65536 - low).toNat
    let ext := if extAddr ≠ cur ∧ fileType ≠ .i8hex then [extendedRecord fileType extAddr] else []
    let cur := if extAddr ≠ cur ∧ fileType ≠ .i8hex then extAddr else cur
    match blockRecords fileType lineLength fuel (address + lineLen) ((b :: rest).drop lineLen) cur with
    | none => none
    | some (records, cur) => some (ext ++ .ok ⟨0, low, (b :: rest).take lineLen⟩ :: records, cur)

def blocksRecords (fileType : FileType) (lineLength : ℕ) :
    List HexBlock → ℤ → Option (List (Except HexError Record))
  | [], _ => some []
  | block :: blocks, cur =>
    match blockRecords fileType lineLength block.data.length block.start block.data cur with
    | none => none
    | some (records, cur) => (blocksRecords fileType lineLength blocks cur).map (records ++ ·)

/-- The record of the start value. -/
def startRecord (fileType : FileType) (start : ℤ) : Except HexError Record :=
  match writeMap fileType .startAddress with
  | none => .error .keyError
  | some command =>
    match packBE 4 start with
    | .error x => .error x
    | .ok data => .ok ⟨command, 0, data⟩

/-- The lines are written one after the other until one of them raises. -/
def writeLines : List (Except HexError Record) → Except HexError Text
  | [] => .ok []
  | .error x :: _ => .error x
  | .ok r :: records =>
    match writeLine r with
    | .error x => .error x
    | .ok line =>
      match writeLines records with
      | .error x => .error x
      | .ok text => .ok (line ++ text)

namespace HexFile

/-- `remove_start` -/
def removeStart (h : HexFile) : HexFile := { h with start := some (-1) }

/-- The file type that the file is written with. -/
def writtenType (h : HexFile) : FileType :=
  if h.fileType = .i8hex ∧ h.endAddress > 0x10000 then .i32hex else h.fileType

def records (h : HexFile) (lineLength : ℕ) : Option (List (Except HexError Record)) :=
  (blocksRecords h.writtenType lineLength h.blocks (-1)).map fun records =>
    records ++ (match h.start with
      | none => []
      | some start => [startRecord h.writtenType start]) ++ [.ok ⟨1, 0, []⟩]

/-- `write_hex`: the text of the file, if the call returns. -/
def writeHex (h : HexFile) (lineLength : ℕ) : Option (Except HexError Text) := (h.records lineLength).map writeLines

end HexFile

/-- What `__parse_file` knows of the lines so far. -/
structure Parsed where
  fileType : FileType
  start : Option ℤ
  endReached : Bool
  extAddr : ℤ
  lineData : List HexBlock
  deriving DecidableEq, Repr

/-- `readlines`; `line` is the line so far. -/
def readLines (line : Text) : Text → List Text
  | [] => [line]
  | c :: cs => if c = '\n' ∨ c = '\r' then line :: readLines [] cs else readLines (line ++ [c]) cs

/-- What `str.strip` removes. -/
def isStripped (c : Char) : Bool := isSpace c ∨ (28 ≤ c.toNat ∧ c.toNat ≤ 31) ∨ c.toNat ∈ wideSpaces

def strip (line : Text) : Text := ((line.dropWhile isStripped).reverse.dropWhile isStripped).reverse

/-- What is read of a record: the length, the address, the command, and the text of the data. -/
structure Fields where
  length : ℤ
  address : ℤ
  command : ℤ
  data : Text
  deriving DecidableEq, Repr

def readFields (line : Text) : Except HexError Fields :=
  if line.head? ≠ some ':' then .error (.exception "Invalid start of line")
  else
    match fromHex (line.drop 1) with
    | none => .error .valueError
    | some bytes =>
      if byteSum bytes % 0x100 ≠ 0 then .error (.exception "Invalid Checksum")
      else
        match intBase16 ((line.drop 1).take 2), intBase16 ((line.drop 3).take 4), intBase16 ((line.drop 7).take 2) with
        | some length, some address, some command =>
          let data := (line.take (line.length - 2)).drop 9
          if length * 2 ≠ data.length then .error (.exception "Invalid line length")
          else .ok ⟨length, address, command, data⟩
        | _, _, _ => .error .valueError

namespace Parsed

variable (p : Parsed) (type : FileType)

/-- The file type is raised to that of a record. -/
def withType : Parsed := if type.number > p.fileType.number then { p with fileType := type } else p

@[simp] theorem withType_start : (p.withType type).start = p.start := by rw [withType]; split_ifs <;> rfl

@[simp] theorem withType_endReached : (p.withType type).endReached = p.endReached := by
  rw [withType]
  split_ifs <;> rfl

@[simp] theorem withType_extAddr : (p.withType type).extAddr = p.extAddr := by rw [withType]; split_ifs <;> rfl

@[simp] theorem withType_lineData : (p.withType type).lineData = p.lineData := by rw [withType]; split_ifs <;> rfl

/-- The command of a record. -/
def process (p : Parsed) (f : Fields) : Except HexError Parsed :=
  match parseMap f.command with
  | none => .error .keyError
  | some (type, group) =>
    let p := p.withType type
    match group with
    | .data =>
      match fromHex f.data with
      | none => .error .valueError
      | some data => .ok { p with lineData := p.lineData ++ [⟨p.extAddr + f.address, data, .bytearray⟩] }
    | .endOfFile => .ok { p with endReached := true }
    | .extendedAddress =>
      if f.length ≠ 2 then .error (.exception "Invalid line")
      else
        match intBase16 f.data with
        | none => .error .valueError
        | some n => .ok { p with extAddr := n * 0x10000 }
    | .startAddress =>
      if f.length ≠ 4 then .error (.exception "Invalid line")
      else if p.start ≠ none then .error (.exception "Duplicate start address record")
      else
        match intBase16 f.data with
        | none => .error .valueError
        | some n => .ok { p with start := some n }

def parseLine (p : Parsed) (line : Text) : Except HexError Parsed :=
  if p.endReached then .error (.exception "Line after End Of File record")
  else
    match readFields line with
    | .error x => .error x
    | .ok f => p.process f

def parseLines (p : Parsed) : List Text → Except HexError Parsed
  | [] => .ok p
  | line :: lines =>
    match p.parseLine line with
    | .error x => .error x
    | .ok p => p.parseLines lines

end Parsed

/-- The loop over the sorted lines; `blocks` is what there is of the list. -/
def mergeLines : ℤ → List HexBlock → List HexBlock → Except HexError (List HexBlock)
  | _, blocks, [] => .ok blocks
  | nextAddr, blocks, line :: lines =>
    if line.start < nextAddr then .error (.exception "Duplicate address")
    else if line.start = nextAddr then
      match blocks.getLast? with
      | none => .error .indexError
      | some last =>
        mergeLines (nextAddr + line.data.length) (blocks.dropLast ++ [{ last with data := last.data ++ line.data }]) lines
    else mergeLines (line.start + line.data.length) (blocks ++ [line]) lines

/-- `__parse_file` -/
def parseFile (text : Text) : Except HexError HexFile :=
  let lines := ((readLines [] text).map strip).filter (· ≠ [])
  match Parsed.parseLines ⟨.i8hex, none, false, 0, []⟩ lines with
  | .error x => .error x
  | .ok p =>
    if !p.endReached then .error (.exception "No End Of File record found")
    else
      match mergeLines (-1) [] (sort p.lineData) with
      | .error x => .error x
      | .ok blocks => .ok ⟨blocks, p.fileType, p.start⟩

/-! ### Digits -/

variable {r : Record} {bs cs : Bytes} {n : ℕ}

/-- The number whose bytes are given, the high one first. -/
def beNum (bytes : Bytes) : ℕ := leNum bytes.reverse

theorem upperDigit_spec : ∀ n < 16, hexDigit (upperDigit n) = some n ∧ isStripped (upperDigit n) = false ∧
    ∀ c ∈ ['\n', '\r', '_', 'x', 'X', '-', '+'], upperDigit n ≠ c := by
  have h : ∀ n < 16, hexDigit (upperDigit n) = some n ∧ isStripped (upperDigit n) = false ∧
      upperDigit n ∉ ['\n', '\r', '_', 'x', 'X', '-', '+'] := by decide
  intro n hn
  obtain ⟨hdigit, hstripped, hne⟩ := h n hn
  exact ⟨hdigit, hstripped, fun c hc he => hne (he ▸ hc)⟩

theorem isSpace_upperDigit (h : n < 16) : isSpace (upperDigit n) = false := by
  have hs := (upperDigit_spec n h).2.1
  rw [isStripped, decide_eq_false_iff_not, not_or] at hs
  exact Bool.eq_false_iff.mpr hs.1

theorem hexText_cons (b : UInt8) :
    hexText (b :: bs) = upperDigit (b.toNat / 16) :: upperDigit (b.toNat % 16) :: hexText bs := rfl

@[simp] theorem length_hexText : (hexText bs).length = 2 * bs.length := by
  induction bs with
  | nil => rfl
  | cons b bs ih =>
    rw [hexText_cons, List.length_cons, List.length_cons, ih, List.length_cons]
    omega

theorem hexText_drop (k : ℕ) : (hexText bs).drop (2 * k) = hexText (bs.drop k) := by
  induction k generalizing bs with
  | zero => rfl
  | succ k ih =>
    cases bs with
    | nil => simp [hexText]
    | cons b bs => exact ih

theorem hexText_take (k : ℕ) : (hexText bs).take (2 * k) = hexText (bs.take k) := by
  induction k generalizing bs with
  | zero => rfl
  | succ k ih =>
    cases bs with
    | nil => simp [hexText]
    | cons b bs =>
      rw [hexText_cons, Nat.mul_succ, List.take_succ_cons, List.take_succ_cons, ih]
      rfl

theorem mem_hexText {c : Char} (h : c ∈ hexText bs) : ∃ n < 16, c = upperDigit n := by
  obtain ⟨b, -, hc⟩ := List.mem_flatMap.mp h
  have := b.toNat_lt
  rcases List.mem_cons.mp hc with rfl | hc
  · exact ⟨_, by omega, rfl⟩
  · exact ⟨_, by omega, List.mem_singleton.mp hc⟩

theorem fromHex_hexText : fromHex (hexText bs) = some bs := by
  induction bs with
  | nil => rfl
  | cons b bs ih =>
    have hb := b.toNat_lt
    have hi : b.toNat / 16 < 16 := by omega
    have lo : b.toNat % 16 < 16 := by omega
    rw [hexText_cons, fromHex, if_neg (by rw [isSpace_upperDigit hi]; decide), (upperDigit_spec _ hi).1,
      (upperDigit_spec _ lo).1, ih]
    simp only [Option.bind_some, Option.map_some, Nat.div_add_mod, UInt8.ofNat_toNat]

theorem beNum_cons (b : UInt8) : beNum (b :: bs) = 2 ^ (8 * bs.length) * b.toNat + beNum bs := by
  have happ : ∀ l : Bytes, leNum (l ++ [b]) = 2 ^ (8 * l.length) * b.toNat + leNum l := by
    intro l
    induction l with
    | nil => simp [leNum]
    | cons c l ih =>
      rw [List.cons_append, leNum, ih, leNum, List.length_cons, Nat.mul_succ, pow_add]
      ring
  rw [beNum, List.reverse_cons, happ, List.length_reverse]
  rfl

theorem hexDigits_upperDigit (acc : ℕ) (h : n < 16) (text : Text) :
    hexDigits acc (upperDigit n :: text) = hexDigits (16 * acc + n) text := by
  have hne : upperDigit n ≠ '_' := (upperDigit_spec n h).2.2 _ (by decide)
  have hd := (upperDigit_spec n h).1
  cases text with
  | nil => simp [hexDigits, hd]
  | cons c text => simp [hexDigits, hd, hne]

theorem hexDigits_hexText (acc : ℕ) : hexDigits acc (hexText bs) = some (2 ^ (8 * bs.length) * acc + beNum bs) := by
  induction bs generalizing acc with
  | nil => simp [hexText, hexDigits, beNum, leNum]
  | cons b bs ih =>
    have := b.toNat_lt
    rw [hexText_cons, hexDigits_upperDigit _ (by omega), hexDigits_upperDigit _ (by omega), ih, beNum_cons]
    have hb : 16 * (16 * acc + b.toNat / 16) + b.toNat % 16 = 256 * acc + b.toNat := by omega
    rw [hb, List.length_cons, Nat.mul_succ, pow_add]
    congr 1
    ring

theorem dropWhile_of_none {f : Char → Bool} {text : Text} (h : ∀ c ∈ text, f c = false) : text.dropWhile f = text := by
  cases text with
  | nil => rfl
  | cons c text => rw [List.dropWhile_cons_of_neg (Bool.eq_false_iff.mp (h c (List.mem_cons_self ..)))]

theorem hexNumber_cons {c d : Char} {text : Text} (hx : d ≠ 'x') (hX : d ≠ 'X') :
    hexNumber (c :: d :: text) = (hexDigit c).bind fun n => hexDigits n (d :: text) := by
  unfold hexNumber
  split
  · exact absurd (List.cons.inj (List.cons.inj ‹_›).2).1 hx
  · exact absurd (List.cons.inj (List.cons.inj ‹_›).2).1 hX
  · obtain ⟨rfl, rfl⟩ := List.cons.inj ‹_›
    rfl
  · exact absurd ‹_› (List.cons_ne_nil _ _)

theorem hexNumber_hexText (h : bs ≠ []) : hexNumber (hexText bs) = some (beNum bs) := by
  obtain ⟨b, bs, rfl⟩ := List.exists_cons_of_ne_nil h
  have hb := b.toNat_lt
  have hi : b.toNat / 16 < 16 := by omega
  have lo : b.toNat % 16 < 16 := by omega
  have hne := (upperDigit_spec _ lo).2.2
  have htext := @hexDigits_hexText (b :: bs) 0
  rw [hexText_cons, hexDigits_upperDigit _ hi] at htext
  rw [hexText_cons, hexNumber_cons (hne _ (by decide)) (hne _ (by decide)), (upperDigit_spec _ hi).1, Option.bind_some]
  simpa using htext

theorem toAscii_upperDigit (h : n < 16) : toAscii (upperDigit n) = upperDigit n := by
  have hlt : ∀ n < 16, (upperDigit n).toNat < 127 := by decide
  rw [toAscii, if_pos (hlt n h)]

theorem map_toAscii_hexText : (hexText bs).map toAscii = hexText bs := by
  refine (List.map_congr_left fun c hc => ?_).trans (List.map_id _)
  obtain ⟨n, hn, rfl⟩ := mem_hexText hc
  exact toAscii_upperDigit hn

theorem intBase16_hexText (h : bs ≠ []) : intBase16 (hexText bs) = some (beNum bs : ℤ) := by
  have hnone : ∀ c ∈ hexText bs, isSpace c = false := fun c hc => by
    obtain ⟨n, hn, rfl⟩ := mem_hexText hc
    exact isSpace_upperDigit hn
  have hsign : ∀ c ∈ hexText bs, c ≠ '-' ∧ c ≠ '+' := fun c hc => by
    obtain ⟨n, hn, rfl⟩ := mem_hexText hc
    exact ⟨(upperDigit_spec n hn).2.2 _ (by decide), (upperDigit_spec n hn).2.2 _ (by decide)⟩
  rw [intBase16, map_toAscii_hexText, dropWhile_of_none hnone,
    dropWhile_of_none fun c hc => hnone c (List.mem_reverse.mp hc), List.reverse_reverse]
  split
  · rename_i heq
    exact absurd rfl (hsign '-' (heq ▸ List.mem_cons_self ..)).1
  · rename_i heq
    exact absurd rfl (hsign '+' (heq ▸ List.mem_cons_self ..)).2
  · rw [hexNumber_hexText h]
    rfl

theorem beNum_packBE {k : ℕ} {n : ℤ} (h : packBE k n = .ok bs) : (beNum bs : ℤ) = n ∧ bs.length = k := by
  rw [packBE] at h
  split_ifs at h with hn
  obtain rfl := Except.ok.inj h
  have hlt : n.toNat < 2 ^ (8 * k) := by
    rw [pow_mul]
    have : ((256 ^ k : ℕ) : ℤ) = 256 ^ k := by push_cast; rfl
    have : n.toNat < 256 ^ k := by omega
    exact this
  rw [beNum, List.reverse_reverse, leNum_leBytes k hlt, List.length_reverse, length_leBytes]
  exact ⟨by omega, rfl⟩

/-! ### One line -/

theorem byteSum_append : byteSum (bs ++ cs) = byteSum bs + byteSum cs := by
  rw [byteSum, List.map_append, List.sum_append]
  rfl

theorem byteSum_lineData : byteSum r.lineData % 256 = 0 := by
  have hc : byteSum [r.checksum] = (256 - byteSum r.packed % 256) % 256 := by simp [byteSum, Record.checksum]
  rw [Record.lineData, byteSum_append, hc]
  omega

theorem lineData_eq : r.lineData = UInt8.ofNat r.data.length ::
    ((leBytes 2 r.address.toNat).reverse ++ UInt8.ofNat r.command :: (r.data ++ [r.checksum])) := by
  rw [Record.lineData, Record.packed, List.cons_append, List.append_assoc, List.cons_append]

/-- The parser reads the fields of a line as they were written. -/
theorem readFields_line (h : r.Fits) : readFields r.line = .ok ⟨r.data.length, r.address, r.command, hexText r.data⟩ := by
  obtain ⟨hlen, hlow, hhigh, hcmd⟩ := h
  have hdrop : r.line.drop 1 = hexText r.lineData := rfl
  have hl : r.line.length = 2 * (r.data.length + 4) + 3 := by
    simp only [Record.line, List.length_cons, length_hexText, lineData_eq, List.length_append, List.length_reverse,
      length_leBytes, List.length_nil]
    omega
  have hlength : (r.line.drop 1).take 2 = hexText [UInt8.ofNat r.data.length] := by
    rw [Record.line, lineData_eq]
    rfl
  have haddress : (r.line.drop 3).take 4 = hexText (leBytes 2 r.address.toNat).reverse := by
    rw [Record.line, lineData_eq]
    rfl
  have hcommand : (r.line.drop 7).take 2 = hexText [UInt8.ofNat r.command] := by
    rw [Record.line, lineData_eq]
    rfl
  have hdata : (r.line.take (r.line.length - 2)).drop 9 = hexText r.data := by
    rw [hl, show 2 * (r.data.length + 4) + 3 - 2 = 2 * (r.data.length + 4) + 1 by omega, Record.line,
      List.take_succ_cons, hexText_take, List.drop_succ_cons, show 8 = 2 * 4 from rfl, hexText_drop, lineData_eq]
    simp [leBytes]
  have hnum : (beNum (leBytes 2 r.address.toNat).reverse : ℤ) = r.address := by
    rw [beNum, List.reverse_reverse, leNum_leBytes _ (by omega)]
    omega
  have hbyte : ∀ n < 256, beNum [UInt8.ofNat n] = n := fun n hn => by
    simp [beNum, leNum, Nat.mod_eq_of_lt hn]
  rw [readFields, if_neg (by simp [Record.line]), hlength, haddress, hcommand, hdata, hdrop, fromHex_hexText,
    intBase16_hexText (by simp), intBase16_hexText (by simp [leBytes]), intBase16_hexText (by simp), hnum,
    hbyte _ (by omega), hbyte _ (by omega)]
  dsimp only
  rw [if_neg (by rw [byteSum_lineData]; exact not_not.mpr rfl), if_neg]
  rw [length_hexText]
  push_cast
  omega

/-! ### All lines -/

theorem readLines_line {line rest : Text} (h : ∀ c ∈ rest, c ≠ '\n' ∧ c ≠ '\r') (text : Text) :
    readLines line (rest ++ '\n' :: text) = (line ++ rest) :: readLines [] text := by
  induction rest generalizing line with
  | nil => simp [readLines]
  | cons c rest ih =>
    obtain ⟨hn, hr⟩ := h c (List.mem_cons_self ..)
    rw [List.cons_append, readLines, if_neg (by simp [hn, hr]), ih fun d hd => h d (List.mem_cons_of_mem _ hd),
      List.append_assoc]
    rfl

theorem mem_line {c : Char} (h : c ∈ r.line) : isStripped c = false ∧ c ≠ '\n' ∧ c ≠ '\r' := by
  rcases List.mem_cons.mp h with rfl | h
  · decide
  · obtain ⟨n, hn, rfl⟩ := mem_hexText h
    exact ⟨(upperDigit_spec n hn).2.1, (upperDigit_spec n hn).2.2 _ (by decide), (upperDigit_spec n hn).2.2 _ (by decide)⟩

theorem strip_line : strip r.line = r.line := by
  rw [strip, dropWhile_of_none fun c hc => (mem_line hc).1,
    dropWhile_of_none fun c hc => (mem_line (List.mem_reverse.mp hc)).1, List.reverse_reverse]

/-- The parser's lines are the lines that were written. -/
theorem lines_of_text (rs : List Record) :
    ((readLines [] (rs.flatMap fun r => r.line ++ ['\n'])).map strip).filter (· ≠ []) = rs.map Record.line := by
  induction rs with
  | nil => rfl
  | cons r rs ih =>
    rw [List.flatMap_cons, List.append_assoc, List.singleton_append, readLines_line (fun c hc => (mem_line hc).2),
      List.nil_append, List.map_cons, strip_line, List.filter_cons_of_pos (by simp [Record.line]), ih, List.map_cons]

/-- The call has written every line, and each record fits. -/
theorem writeLines_ok_iff {rs : List (Except HexError Record)} {text : Text} :
    writeLines rs = .ok text ↔ ∃ qs : List Record, rs = qs.map .ok ∧ (∀ q ∈ qs, q.Fits) ∧
      text = qs.flatMap fun q => q.line ++ ['\n'] := by
  induction rs generalizing text with
  | nil =>
    constructor
    · rintro h
      exact ⟨[], rfl, by simp, (Except.ok.inj h).symm⟩
    · rintro ⟨qs, hqs, -, rfl⟩
      rw [List.map_eq_nil_iff.mp hqs.symm]
      rfl
  | cons r rs ih =>
    cases r with
    | error x =>
      refine ⟨fun h => by simp [writeLines] at h, ?_⟩
      rintro ⟨_ | ⟨q, qs⟩, hqs, -⟩ <;> simp at hqs
    | ok r =>
      constructor
      · intro h
        rw [writeLines, writeLine] at h
        split_ifs at h with hr
        · dsimp only at h
          cases hrest : writeLines rs with
          | error x => rw [hrest] at h; cases h
          | ok rest =>
            rw [hrest] at h
            obtain ⟨qs, rfl, hfits, rfl⟩ := ih.mp hrest
            refine ⟨r :: qs, rfl, ?_, (Except.ok.inj h).symm⟩
            rintro q (_ | ⟨_, hq⟩)
            · exact hr
            · exact hfits q hq
      · rintro ⟨_ | ⟨q, qs⟩, hqs, hfits, rfl⟩
        · cases hqs
        · obtain ⟨hq, rfl⟩ := List.cons.inj hqs
          obtain rfl := Except.ok.inj hq
          rw [writeLines, writeLine, if_pos (hfits r (List.mem_cons_self ..)),
            ih.mpr ⟨qs, rfl, fun q hq => hfits q (List.mem_cons_of_mem _ hq), rfl⟩]
          rfl

end Qcc730.Hex
