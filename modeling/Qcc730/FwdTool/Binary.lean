import Qcc730.FwdTool.Descriptor

/-! `tables_to_binary` and `from_binary`.

    A table is packed as a header of 32 bytes and 16 bytes for each entry, and filled up with 0xFF to the alignment.
    The header is unpacked into six values, but `from_binary` takes them from the indices 0, 4, 8, 12, 13 and 14,
    the last three being offsets in the header. Index 8 raises, so no table is ever read. -/

namespace Qcc730.FwdTool
open Lib

/-! ### Packing -/

/-- Format `I`. -/
def packI (n : ℤ) : Except PyError Bytes :=
  if 0 ≤ n ∧ n < 2 ^ 32 then .ok (le32 n.toNat) else .error .structError

/-- Format `B`. -/
def packB (n : ℤ) : Except PyError Bytes :=
  if 0 ≤ n ∧ n < 256 then .ok [UInt8.ofNat n.toNat] else .error .structError

/-- Format `18s`: cut off, or filled up with zeros. -/
def pack18s (b : Bytes) : Bytes := b.take 18 ++ List.replicate (18 - b.length) 0

def Entry.toBinary (e : Entry) : Except PyError Bytes :=
  match e.startBlock with
  | none => .error .structError
  | some start => do
    return (← packI e.imageId) ++ (← packI start) ++ (← packI e.getSizeInBlock) ++ (← packI e.reserved)

/-- A text is encoded in UTF-8. -/
def Reserved.encode : Reserved → Bytes
  | .str s => s.toUTF8.toList
  | .bytes b => b

def Table.toBinary (t : Table) : Except PyError Bytes := do
  let header := (← packI t.signature) ++ (← packI t.version) ++ (← packI t.rank) ++ (← packB t.status) ++
    (← packB t.numImages) ++ pack18s t.reserved.encode
  t.entries.foldlM (fun data e => do return data ++ (← e.toBinary)) header

/-- `data`, a table and its padding. -/
def Table.append (align : ℕ) (data : Bytes) (t : Table) : Except PyError Bytes := do
  let b ← t.toBinary
  return data ++ b ++ (List.replicate align 0xFF).drop b.length

def Descriptor.tablesToBinary (fd : Descriptor) (tableList : List Table) : Except PyError Bytes :=
  tableList.foldlM (Table.append fd.tableAlignSize) []

/-! ### Unpacking -/

inductive Value where
  | int (n : ℤ)
  | bytes (b : Bytes)

namespace Value

/-- What a byte is in the text of a byte string with the given quotes. -/
def byteStr (quote : Char) (b : UInt8) : String :=
  let c := Char.ofNat b.toNat
  if c = quote ∨ b = 92 then "\\" ++ c.toString
  else if b = 9 then "\\t"
  else if b = 10 then "\\n"
  else if b = 13 then "\\r"
  else if 32 ≤ b ∧ b < 127 then c.toString
  else "\\x" ++ (Nat.digitChar (b.toNat / 16)).toString ++ (Nat.digitChar (b.toNat % 16)).toString

/-- `str`, with double quotes around bytes that have single ones only. -/
def str : Value → String
  | .int n => toString n
  | .bytes b =>
    let quote := Char.ofNat (if 39 ∈ b ∧ 34 ∉ b then 34 else 39)
    "b" ++ quote.toString ++ String.join (b.map (byteStr quote)) ++ quote.toString

/-- A field for a number. -/
def toInt : Value → Except PyError ℤ
  | .int n => .ok n
  | .bytes _ => .error .typeError

end Value

/-- Format `<IIIBB18s`. -/
def unpackHeader (b : Bytes) : Except PyError (List Value) :=
  if b.length = 32 then
    .ok [.int (wordAt b 0), .int (wordAt b 4), .int (wordAt b 8), .int (b.getD 12 0).toNat, .int (b.getD 13 0).toNat,
      .bytes (b.drop 14)]
  else .error .structError

/-- The item of a tuple. -/
def item (values : List Value) (i : ℕ) : Except PyError Value :=
  match values[i]? with
  | some v => .ok v
  | none => .error .indexError

/-- `Firmware_Descriptor_Entry.from_binary`, for an entry with the block size. -/
def Entry.fromBinary (blockSize : ℕ) (hpos : 0 < blockSize) (data : Bytes) : Except PyError Entry :=
  if data.length = 16 then
    .ok {
      imageId := wordAt data 0
      startBlock := some (wordAt data 4)
      sizeInKb := toFloat (toFloat (toFloat (wordAt data 8) * toFloat blockSize) / 1024)
      blockSize
      reserved := wordAt data 12
      blockSize_pos := hpos }
  else .error .structError

/-- The entries from `offset` on. -/
def readEntries (blockSize : ℕ) (hpos : 0 < blockSize) (data : Bytes) : ℕ → ℕ → Except PyError (List Entry)
  | _, 0 => .ok []
  | offset, count + 1 => do
    let entry ← Entry.fromBinary blockSize hpos ((data.drop offset).take 16)
    return entry :: (← readEntries blockSize hpos data (offset + 16) count)

/-- `Firmware_Descriptor_Table.from_binary`, for a table with the block size. -/
def Table.fromBinary (blockSize : ℕ) (hpos : 0 < blockSize) (data : Bytes) : Except PyError Table := do
  let allBytes ← unpackHeader (data.take 32)
  let signature ← (← item allBytes 0).toInt
  let version ← (← item allBytes 4).toInt
  let rank ← (← item allBytes 8).toInt
  let status ← (← item allBytes 12).toInt
  let numImages ← (← item allBytes 13).toInt
  let reserved := Reserved.str (← item allBytes 14).str
  let entries ← readEntries blockSize hpos data 32 numImages.toNat
  return { signature, version, rank, status, numImages, reserved, entries }

/-- The signature of a valid table, the bytes `FWDT`. -/
def fwdTableSignature : ℤ := 0x54445746

/-- The loop of `Firmware_Descriptor.from_binary`. -/
def readTables (align blockSize : ℕ) (halign : 0 < align) (hpos : 0 < blockSize) (data : Bytes) :
    Except PyError (List Table) :=
  if _ : 32 < data.length then
    match Table.fromBinary blockSize hpos data with
    | .error x => .error x
    | .ok fdt =>
      match readTables align blockSize halign hpos (data.drop align) with
      | .error x => .error x
      | .ok tables => .ok (if fdt.signature = fwdTableSignature then fdt :: tables else tables)
  else .ok []
termination_by data.length
decreasing_by
  rw [List.length_drop]
  omega

/-- `Firmware_Descriptor.from_binary`: the object is initialised, so both sizes are 4096 whatever they were. -/
def Descriptor.fromBinary (data : Bytes) : Except PyError Descriptor := do
  let tables ← readTables 4096 4096 (by decide) (by decide) data
  return { tableAlignSize := 4096, blockSize := 4096, tables, blockSize_pos := by decide }

/-! ### What is to come back -/

/-- The fields that the tables have. -/
structure Entry.Same (e c : Entry) : Prop where
  imageId : e.imageId = c.imageId
  startBlock : e.startBlock = c.startBlock
  sizeInBlock : e.getSizeInBlock = c.getSizeInBlock
  reserved : e.reserved = c.reserved

structure Table.Same (t u : Table) : Prop where
  signature : t.signature = u.signature
  version : t.version = u.version
  rank : t.rank = u.rank
  status : t.status = u.status
  reserved : t.reserved.encode = u.reserved.encode
  entries : List.Forall₂ Entry.Same t.entries u.entries

/-- The tables are packed, and what they are packed into is read as the same tables. -/
def Descriptor.RoundTrips (fd : Descriptor) (ts : List Table) : Prop :=
  ∃ data fd', fd.tablesToBinary ts = .ok data ∧ fromBinary data = .ok fd' ∧ List.Forall₂ Table.Same ts fd'.tables

/-- Start and size are whole blocks, and the numbers fit their formats. -/
structure Entry.InRange (e : Entry) : Prop where
  imageId : 0 ≤ e.imageId ∧ e.imageId < 2 ^ 32
  startBlock : ∃ s, e.startBlock = some s ∧ 0 ≤ s ∧ s < 2 ^ 32
  size : e.sizeInKb * 1024 = e.getSizeInBlock * e.blockSize
  sizeInBlock : 0 ≤ e.getSizeInBlock ∧ e.getSizeInBlock < 2 ^ 32
  reserved : 0 ≤ e.reserved ∧ e.reserved < 2 ^ 32

/-- A table with the signature whose entries fit into the alignment. -/
structure Table.InRange (align : ℕ) (t : Table) : Prop where
  signature : t.signature = fwdTableSignature
  version : 0 ≤ t.version ∧ t.version < 2 ^ 32
  rank : 0 ≤ t.rank ∧ t.rank < 2 ^ 32
  status : 0 ≤ t.status ∧ t.status < 256
  numImages : t.numImages = t.entries.length ∧ t.entries.length < 256
  reserved : t.reserved.encode.length = 18
  capacity : 32 + 16 * t.entries.length ≤ align
  entries : ∀ e ∈ t.entries, e.InRange

/-! ### What the encoder makes -/

theorem packI_ok {n : ℤ} (h : 0 ≤ n ∧ n < 2 ^ 32) : packI n = .ok (le32 n.toNat) := if_pos h

theorem packB_ok {n : ℤ} (h : 0 ≤ n ∧ n < 256) : packB n = .ok [UInt8.ofNat n.toNat] := if_pos h

@[simp] theorem length_pack18s (b : Bytes) : (pack18s b).length = 18 := by
  rw [pack18s, List.length_append, List.length_take, List.length_replicate]
  omega

theorem Entry.toBinary_ok {e : Entry} (h : e.InRange) : ∃ b, e.toBinary = .ok b ∧ b.length = 16 := by
  obtain ⟨s, hs, hrange⟩ := h.startBlock
  refine ⟨le32 e.imageId.toNat ++ le32 s.toNat ++ le32 e.getSizeInBlock.toNat ++ le32 e.reserved.toNat, ?_, rfl⟩
  rw [toBinary, hs]
  simp only [packI_ok h.imageId, packI_ok hrange, packI_ok h.sizeInBlock, packI_ok h.reserved]
  rfl

theorem entries_toBinary_ok {es : List Entry} (h : ∀ e ∈ es, e.InRange) (data : Bytes) :
    ∃ b, es.foldlM (fun data e => do return data ++ (← e.toBinary)) data = (.ok b : Except PyError Bytes) ∧
      b.length = data.length + 16 * es.length := by
  induction es generalizing data with
  | nil => exact ⟨data, rfl, rfl⟩
  | cons e es ih =>
    obtain ⟨x, hx, hlen⟩ := Entry.toBinary_ok (h e List.mem_cons_self)
    obtain ⟨b, hb, hblen⟩ := ih (fun c hc => h c (List.mem_cons_of_mem _ hc)) (data ++ x)
    refine ⟨b, ?_, ?_⟩
    · rw [List.foldlM_cons, hx]
      exact hb
    · rw [hblen, List.length_append, hlen, List.length_cons]
      omega

theorem Table.toBinary_ok {align : ℕ} {t : Table} (h : t.InRange align) :
    ∃ b, t.toBinary = .ok b ∧ b.length = 32 + 16 * t.entries.length := by
  have hsig : 0 ≤ t.signature ∧ t.signature < 2 ^ 32 := by
    rw [h.signature]
    decide
  have hnum : 0 ≤ t.numImages ∧ t.numImages < 256 := by
    have := h.numImages
    omega
  obtain ⟨b, hb, hlen⟩ := entries_toBinary_ok h.entries (le32 t.signature.toNat ++ le32 t.version.toNat ++
    le32 t.rank.toNat ++ [UInt8.ofNat t.status.toNat] ++ [UInt8.ofNat t.numImages.toNat] ++
    pack18s t.reserved.encode)
  refine ⟨b, ?_, ?_⟩
  · rw [toBinary, packI_ok hsig, packI_ok h.version, packI_ok h.rank, packB_ok h.status, packB_ok hnum]
    exact hb
  · simp only [hlen, List.length_append, length_le32, List.length_singleton, length_pack18s]

/-- A table in range takes as many bytes as the alignment. -/
theorem Table.append_ok {align : ℕ} {t : Table} (h : t.InRange align) (data : Bytes) :
    ∃ b, t.append align data = .ok b ∧ b.length = data.length + align := by
  obtain ⟨x, hx, hlen⟩ := toBinary_ok h
  refine ⟨data ++ x ++ (List.replicate align 0xFF).drop x.length, by rw [append, hx]; rfl, ?_⟩
  have hcap := h.capacity
  rw [List.length_append, List.length_append, List.length_drop, List.length_replicate]
  omega

/-- Tables in range are packed, each at its multiple of the alignment. -/
theorem append_all_ok {align : ℕ} {ts : List Table} (h : ∀ t ∈ ts, t.InRange align) (data : Bytes) :
    ∃ b, ts.foldlM (Table.append align) data = .ok b ∧ b.length = data.length + ts.length * align := by
  induction ts generalizing data with
  | nil => exact ⟨data, rfl, by rw [List.length_nil, Nat.zero_mul, Nat.add_zero]⟩
  | cons t ts ih =>
    obtain ⟨x, hx, hlen⟩ := Table.append_ok (h t List.mem_cons_self) data
    obtain ⟨b, hb, hblen⟩ := ih (fun u hu => h u (List.mem_cons_of_mem _ hu)) x
    refine ⟨b, ?_, ?_⟩
    · rw [List.foldlM_cons, hx]
      exact hb
    · rw [hblen, hlen, List.length_cons, Nat.succ_mul, Nat.add_assoc, Nat.add_comm align]

/-! ### What the decoder reads -/

/-- Behind 32 bytes the tuple has no item 8. -/
theorem Table.fromBinary_raises {blockSize : ℕ} {hpos : 0 < blockSize} {data : Bytes} (h : 32 ≤ data.length) :
    Table.fromBinary blockSize hpos data = .error .indexError := by
  have hlen : (data.take 32).length = 32 := List.length_take_of_le h
  rw [fromBinary, unpackHeader, if_pos hlen]
  rfl

theorem readTables_raises {align blockSize : ℕ} {halign : 0 < align} {hpos : 0 < blockSize} {data : Bytes}
    (h : 32 < data.length) : readTables align blockSize halign hpos data = .error .indexError := by
  rw [readTables, dif_pos h, Table.fromBinary_raises h.le]

theorem readTables_short {align blockSize : ℕ} {halign : 0 < align} {hpos : 0 < blockSize} {data : Bytes}
    (h : ¬32 < data.length) : readTables align blockSize halign hpos data = .ok [] := by
  rw [readTables, dif_neg h]

namespace Descriptor

/-- What is read has no tables. -/
theorem fromBinary_tables {data : Bytes} {fd : Descriptor} (h : fromBinary data = .ok fd) : fd.tables = [] := by
  by_cases hlen : 32 < data.length
  · rw [fromBinary, readTables_raises hlen] at h
    cases h
  · rw [fromBinary, readTables_short hlen] at h
    cases h
    rfl

/-- Reading back two tables in range, or one with room for an entry, raises. -/
theorem fromBinary_tablesToBinary_raises {fd : Descriptor} {ts : List Table}
    (hts : ∀ t ∈ ts, t.InRange fd.tableAlignSize) (hlong : 32 < ts.length * fd.tableAlignSize) :
    ∃ data, fd.tablesToBinary ts = .ok data ∧ fromBinary data = .error .indexError := by
  obtain ⟨data, hdata, hlen⟩ := append_all_ok hts []
  rw [List.length_nil, Nat.zero_add] at hlen
  refine ⟨data, hdata, ?_⟩
  rw [fromBinary, readTables_raises (hlen ▸ hlong)]
  rfl

/-- No tables but none at all come back. -/
theorem tables_round_trip_iff (fd : Descriptor) (ts : List Table) : fd.RoundTrips ts ↔ ts = [] := by
  constructor
  · rintro ⟨data, fd', -, hread, hsame⟩
    rw [fromBinary_tables hread] at hsame
    exact List.forall₂_nil_right_iff.mp hsame
  · rintro rfl
    refine ⟨[], ⟨4096, 4096, [], by decide⟩, rfl, ?_, .nil⟩
    rw [fromBinary, readTables_short (by decide)]
    rfl

/-- A table without partitions. -/
def emptyTable : Table := ⟨fwdTableSignature, 1, 1, 0, 0, .bytes (List.replicate 18 0), []⟩

theorem emptyTable_inRange : emptyTable.InRange 4096 :=
  ⟨rfl, by decide, by decide, by decide, by decide, rfl, by decide, by rintro e ⟨⟩⟩

/-- It is in range, and reading it back raises. -/
theorem empty_table_lost :
    emptyTable.InRange 4096 ∧ ¬RoundTrips ⟨4096, 4096, [], by decide⟩ [emptyTable] := by
  refine ⟨emptyTable_inRange, ?_⟩
  rintro ⟨data, fd', -, hread, hsame⟩
  rw [fromBinary_tables hread] at hsame
  cases hsame

end Descriptor

end Qcc730.FwdTool
