import Qcc730.Upgrade.Reception

/-! The tool that makes upgrade files (`gen_fw_upgrade_img.py`).

    It reads a descriptor in XML: a header element and one element for each partition, with the name of
    its file and a size in KB. The files are hashed, for a partial upgrade with `0xFF` bytes up to the next
    4096, and the header is packed; in an all-in-one file the files follow it. Numbers are Python's, so
    packing one that does not fit in 32 bits raises an exception. The output is a file of its own. -/

namespace Qcc730.Upgrade.Generator
open Lib Flash

/-- The name of a file of the current folder, in UTF-8. It has no `/`: `./temp_file` would be another name of
    the tool's temporary file. The text of an XML attribute has no NUL character. -/
structure FileName where
  bytes : Bytes
  noNul : (0 : UInt8) ∉ bytes
  deriving DecidableEq

/-- No file. -/
def FileName.empty : FileName := ⟨[], List.not_mem_nil⟩

/-- `temp_file`, which the tool uses itself. -/
def tempFile : FileName := ⟨[116, 101, 109, 112, 95, 102, 105, 108, 101], by decide⟩

/-- The files of the current folder. -/
abbrev Dir := FileName → Option Bytes

/-- The attributes of a `<partition>` element. -/
structure Partition where
  filename : FileName
  signature : ℤ
  imageId : ℤ
  ver : ℤ
  sizeInKb : ℤ
  hashType : ℤ

/-- The elements of a descriptor. -/
inductive Child where
  | header (signature version format : ℤ)
  | partition (p : Partition)

structure Xml where
  root : String
  children : List Child

/-! ### Entries -/

/-- `Fw_Upgrade_Img_Descriptor_Entry`. -/
structure Entry where
  signature : ℤ
  imageId : ℤ
  ver : ℤ
  filename : FileName
  diskSize : ℤ
  imageLen : ℤ
  hashType : ℤ
  hash : Bytes
  deriving DecidableEq

namespace Entry

/-- `from_xml`: zeros are reported, but the result is 1 all the same. -/
def fromXml (p : Partition) : Entry where
  signature := p.signature
  imageId := p.imageId
  ver := p.ver
  filename := p.filename
  diskSize := p.sizeInKb * 1024
  imageLen := 0
  hashType := p.hashType
  hash := List.replicate 32 0

def updateImageLen (e : Entry) (imageLen : ℤ) : Entry :=
  { e with imageLen, diskSize := if e.diskSize < imageLen then imageLen else e.diskSize }

def updateDiskSize (e : Entry) (diskSize : ℤ) : Entry :=
  { e with diskSize := if e.diskSize < diskSize then diskSize else e.diskSize }

def updateHash (sha256 : Bytes → Bytes) (e : Entry) (data : Bytes) : Entry := { e with hash := sha256 data }

def clearFilename (e : Entry) : Entry := { e with filename := .empty }

end Entry

/-- The format `I` of `struct`. -/
def packI (v : ℤ) : Option Bytes := if 0 ≤ v ∧ v < 2 ^ 32 then some (le32 v.toNat) else none

/-- The format `B` of `struct`. -/
def packB (v : ℕ) : Option Bytes := if v < 256 then some [UInt8.ofNat v] else none

/-- The format `128s` of `struct`: cut off or filled with zeros. -/
def pack128s (b : Bytes) : Bytes := b.take 128 ++ List.replicate (128 - b.length) 0

/-- `to_binary` of an entry. -/
def Entry.toBinary (e : Entry) : Option Bytes := do
  let signature ← packI e.signature
  let imageId ← packI e.imageId
  let ver ← packI e.ver
  let diskSize ← packI e.diskSize
  let imageLen ← packI e.imageLen
  let hashType ← packI e.hashType
  return signature ++ imageId ++ ver ++ pack128s e.filename.bytes ++ diskSize ++ imageLen ++ hashType ++ e.hash

/-! ### The descriptor -/

/-- `Fw_Upgrade_Img_Descriptor`; `num_images` is the number of entries. -/
structure Descriptor where
  signature : ℤ
  version : ℤ
  format : ℤ
  imageLen : ℤ
  entries : List Entry
  hash : Bytes
  deriving DecidableEq

namespace Descriptor

def init : Descriptor := ⟨0, 0, 1, 0, [], List.replicate 32 0⟩

def addEntry (d : Descriptor) (e : Entry) : Descriptor := { d with entries := d.entries ++ [e] }

/-- The loop of `from_xml_file`. -/
def addChild (d : Descriptor) : Child → Descriptor
  | .header signature version format => { d with signature, version, format }
  | .partition p => d.addEntry (.fromXml p)

/-- `from_xml_file`. -/
def fromXmlFile (xml : Xml) : Option Descriptor :=
  if xml.root ≠ "fw_upgrade_img_descriptor" then none else some (xml.children.foldl addChild init)

/-- `check_parameters`. -/
def CheckParameters (d : Descriptor) : Prop :=
  d.version ≠ 0 ∧ d.format ≠ 0 ∧ d.signature ≠ 0 ∧ d.entries.length ≠ 0

instance (d : Descriptor) : Decidable d.CheckParameters := inferInstanceAs (Decidable (_ ∧ _ ∧ _ ∧ _))

/-- The packed header without its hash. -/
def packed (d : Descriptor) : Option Bytes := do
  let signature ← packI d.signature
  let version ← packI d.version
  let format ← packI d.format
  let imageLen ← packI d.imageLen
  let numImages ← packB d.entries.length
  let entries ← d.entries.mapM Entry.toBinary
  return signature ++ version ++ format ++ imageLen ++ numImages ++ entries.flatten

/-- `to_binary`. -/
def toBinary (d : Descriptor) : Option Bytes := d.packed.map (· ++ d.hash)

/-- `update_hash`. -/
def updateHash (sha256 : Bytes → Bytes) (d : Descriptor) : Option Descriptor :=
  d.packed.map fun b => { d with hash := sha256 b }

end Descriptor

/-! ### The files -/

/-- How many bytes bring `size` to a multiple of 4096. -/
def fill (size : ℕ) : ℕ := if size % 4096 ≠ 0 then 4096 - size % 4096 else 0

/-- What is read from the file `f`: if it is the temporary file, opening that has emptied it. -/
def readBack (name : FileName) (f : Bytes) : Bytes := if name = tempFile then [] else f

/-- One entry of a partial upgrade with its file `f`. -/
def Entry.padded (sha256 : Bytes → Bytes) (e : Entry) (f : Bytes) : Entry :=
  let totalData := (readBack e.filename f ++ List.replicate (fill f.length) 0xFF).take (f.length + fill f.length)
  ((e.updateHash sha256 totalData).updateImageLen f.length).updateDiskSize ↑(f.length + fill f.length)

/-- One entry of an all-in-one file with its file `f`. -/
def Entry.appended (sha256 : Bytes → Bytes) (e : Entry) (f : Bytes) : Entry :=
  ((e.updateImageLen f.length).updateHash sha256 f).clearFilename

/-- The loop for a partial upgrade. The temporary file is deleted after each entry. -/
def padEntries (sha256 : Bytes → Bytes) : List Entry → Dir → Option (List Entry)
  | [], _ => some []
  | e :: es, dir =>
    if e.filename.bytes = [] then (padEntries sha256 es dir).map (e :: ·)
    else match dir e.filename with
      | none => none
      | some f => (padEntries sha256 es (Function.update dir tempFile none)).map (e.padded sha256 f :: ·)

/-- The loop for an all-in-one file: the entries, and what is put on the output. -/
def appendEntries (sha256 : Bytes → Bytes) (dir : Dir) : List Entry → Option (List Entry × Bytes)
  | [] => some ([], [])
  | e :: es =>
    if e.filename.bytes = [] then (appendEntries sha256 dir es).map fun r => (e :: r.1, r.2)
    else match dir e.filename with
      | none => none
      | some f => (appendEntries sha256 dir es).map fun r => (e.appended sha256 f :: r.1, f ++ r.2)

/-- The loop of either format. -/
def readEntries (sha256 : Bytes → Bytes) (format : ℤ) (es : List Entry) (dir : Dir) : Option (List Entry × Bytes) :=
  if format = 1 then (padEntries sha256 es dir).map (·, []) else appendEntries sha256 dir es

/-- What a run of the tool makes. -/
structure Output where
  descriptor : Descriptor
  file : Bytes
  deriving DecidableEq

/-- `gen_whole_disk_binary`: the header is written twice, the second time over the first. -/
def genWholeDiskBinary (sha256 : Bytes → Bytes) (d : Descriptor) (dir : Dir) : Option Output := do
  let first ← d.toBinary
  let r ← readEntries sha256 d.format d.entries dir
  let d ← Descriptor.updateHash sha256 { d with imageLen := d.imageLen + first.length, entries := r.1 }
  let header ← d.toBinary
  return ⟨d, header ++ (first ++ r.2).drop header.length⟩

/-- A run of the tool that reports success. -/
def generate (sha256 : Bytes → Bytes) (xml : Xml) (dir : Dir) : Option Output := do
  let d ← Descriptor.fromXmlFile xml
  if d.CheckParameters then genWholeDiskBinary sha256 d dir else none

end Qcc730.Upgrade.Generator
