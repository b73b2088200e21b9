import Qcc730.Lib.Bytes
import Qcc730.Lib.Float

/-! The objects of the tool that makes firmware descriptor tables (`gen_fwd_table.py`).

    Integers are Python's. A size in KB is a `float`: its product with 1024 and the quotient by the block size are
    rounded to 53 bits. -/

namespace Qcc730.FwdTool
open Lib

inductive PyError where
  | assertion (message : String)
  | typeError
  | indexError
  | structError
  deriving DecidableEq, Repr

/-- `int` or `float`. -/
inductive Number where
  | int (n : ℤ)
  | float (x : ℚ)

/-- A `float` of Python. -/
def toFloat (x : ℚ) : ℚ := roundBits 53 x

theorem toFloat_pos {x : ℚ} (h : 0 < x) : 0 < toFloat x := roundBits_pos (by decide) h

/-- `Firmware_Descriptor_Entry`. The constructor refuses a block size that is not positive. -/
structure Entry where
  imageId : ℤ
  startBlock : Option ℤ
  sizeInKb : ℚ
  blockSize : ℕ
  reserved : ℤ
  blockSize_pos : 0 < blockSize

namespace Entry

def getSizeInBlock (e : Entry) : ℤ := ⌈toFloat (toFloat (e.sizeInKb * 1024) / toFloat e.blockSize)⌉

/-- The entry and the integer that the test has found. -/
def updateStartBlock (e : Entry) : Number → Except PyError (Entry × ℤ)
  | .int start => .ok ({ e with startBlock := some start }, start)
  | .float _ => .error (.assertion "The input start block isn't an integer")

theorem getSizeInBlock_pos {e : Entry} (h : 0 < e.sizeInKb) : 0 < e.getSizeInBlock := by
  have hblock : (0 : ℚ) < e.blockSize := Nat.cast_pos.mpr e.blockSize_pos
  exact Int.ceil_pos.mpr (toFloat_pos (div_pos (toFloat_pos (by linarith)) (toFloat_pos hblock)))

end Entry

/-- The reserved bytes of a table's header: a text until they are packed. -/
inductive Reserved where
  | str (s : String)
  | bytes (b : Bytes)
  deriving DecidableEq

/-- `Firmware_Descriptor_Table`. -/
structure Table where
  signature : ℤ
  version : ℤ
  rank : ℤ
  status : ℤ
  numImages : ℤ
  reserved : Reserved
  entries : List Entry

/-- `Firmware_Descriptor`. -/
structure Descriptor where
  tableAlignSize : ℕ
  blockSize : ℕ
  tables : List Table
  blockSize_pos : 0 < blockSize

/-- The partitions of all tables in order. -/
def Descriptor.entries (fd : Descriptor) : List Entry := fd.tables.flatMap Table.entries

end Qcc730.FwdTool
