import Qcc730.Lib.Bytes

/-! The two descriptor tables of the device.

    A firmware descriptor (FWD) heads each of the first three flash blocks: a 512-byte record with
    signature, rank and status, and thirty image entries. The firmware descriptor table (FDT) of
    RRAM has one entry for each SBL slot and one for the application; it is what the boot loader
    and the running application use to tell each other which FWD was booted.

    FWDs are read from flash bytes, because the upgrader programs them byte by byte over an erased
    block. The FDT is only ever replaced entry by entry and is kept as a table of entries. -/

namespace Qcc730.Flash
open Lib

/-- `FW_UPGRADE_MAGIC_V1`, the bytes "FWDT". -/
@[simp] abbrev fwUpgradeMagicV1 : ℕ := 0x54445746

@[simp] abbrev fwdRankTrial : ℕ := 0xFFFFFFFF
@[simp] abbrev fwdStatusValid : ℕ := 1
@[simp] abbrev fwdImageUnused : ℕ := 0xFFFFFFFF

@[simp] abbrev sblImgId : ℕ := 1
@[simp] abbrev fs1ImgId : ℕ := 5
@[simp] abbrev appImgId : ℕ := 10
@[simp] abbrev ramdumpImgId : ℕ := 99
@[simp] abbrev userdataImgId : ℕ := 101
@[simp] abbrev fs2ImgId : ℕ := 128

@[simp] abbrev maxFwImageEntries : ℕ := 30

/-- An image entry of a FWD (`image_entry`, 16 bytes). -/
structure ImageEntry where
  imageId : ℕ
  startBlock : ℕ
  totalBlocks : ℕ
  imgVersion : ℕ
  deriving DecidableEq, Repr

/-- A firmware descriptor (`fwd`, 512 bytes). -/
structure Fwd where
  signature : ℕ
  version : ℕ
  rank : ℕ
  status : ℕ
  totalImages : ℕ
  imageEntries : List ImageEntry
  deriving DecidableEq, Repr

/-- The image entry stored at address `a`. -/
def ImageEntry.decode (m : Memory) (a : ℕ) : ImageEntry :=
  ⟨m.word a, m.word (a + 4), m.word (a + 8), m.word (a + 12)⟩

/-- The FWD stored at address `a`. -/
def Fwd.decode (m : Memory) (a : ℕ) : Fwd where
  signature := m.word a
  version := m.word (a + 4)
  rank := m.word (a + 8)
  status := (m (a + 12)).toNat
  totalImages := (m (a + 13)).toNat
  imageEntries := (List.range maxFwImageEntries).map fun i => ImageEntry.decode m (a + 32 + 16 * i)

/-- A zeroed FWD (`memset(&fwd, 0, sizeof(fwd))`). -/
def Fwd.zero : Fwd := ⟨0, 0, 0, 0, 0, List.replicate maxFwImageEntries ⟨0, 0, 0, 0⟩⟩

/-- The bytes of an image entry. -/
def ImageEntry.encode (e : ImageEntry) : Bytes :=
  le32 e.imageId ++ le32 e.startBlock ++ le32 e.totalBlocks ++ le32 e.imgVersion

/-- The bytes of a FWD whose reserved bytes are `reserved`. -/
def Fwd.encode (f : Fwd) (reserved : Bytes) : Bytes :=
  le32 f.signature ++ le32 f.version ++ le32 f.rank ++ [UInt8.ofNat f.status, UInt8.ofNat f.totalImages] ++
    reserved ++ f.imageEntries.flatMap ImageEntry.encode

@[simp] theorem ImageEntry.length_encode (e : ImageEntry) : e.encode.length = 16 := rfl

@[simp] theorem Fwd.length_decode (m : Memory) (a : ℕ) :
    (Fwd.decode m a).imageEntries.length = maxFwImageEntries := by simp [Fwd.decode]

theorem ImageEntry.decode_congr {m m' : Memory} {a : ℕ} (h : ∀ i < 16, m (a + i) = m' (a + i)) :
    ImageEntry.decode m a = ImageEntry.decode m' a := by
  have hw : ∀ o, o ≤ 12 → m.word (a + o) = m'.word (a + o) := by
    intro o ho
    apply Memory.word_congr
    intro i hi
    simpa [Nat.add_assoc] using h (o + i) (by omega)
  rw [decode, decode, hw 4 (by decide), hw 8 (by decide), hw 12 (by decide)]
  have h0 := hw 0 (by decide)
  rw [Nat.add_zero] at h0
  rw [h0]

/-- Equal bytes give equal FWDs. -/
theorem Fwd.decode_congr {m m' : Memory} {a : ℕ} (h : ∀ i < 512, m (a + i) = m' (a + i)) :
    Fwd.decode m a = Fwd.decode m' a := by
  have hw : ∀ o, o ≤ 8 → m.word (a + o) = m'.word (a + o) := by
    intro o ho
    apply Memory.word_congr
    intro i hi
    simpa [Nat.add_assoc] using h (o + i) (by omega)
  have h0 := hw 0 (by decide)
  rw [Nat.add_zero] at h0
  simp only [decode, h0, hw 4 (by decide), hw 8 (by decide), h 12 (by decide), h 13 (by decide)]
  congr 1
  apply List.map_congr_left
  intro i hi
  apply ImageEntry.decode_congr
  intro j hj
  have hi' : i < 30 := List.mem_range.mp hi
  simpa [Nat.add_assoc] using h (32 + 16 * i + j) (by omega)

/-! ### The RRAM firmware descriptor table -/

@[simp] abbrev fdtSignature : ℕ := 0x54445746
@[simp] abbrev fdtMaxEntry : ℕ := 31

@[simp] abbrev fdeImgIdSbl : ℕ := 0
@[simp] abbrev fdeImgIdApp : ℕ := 2

@[simp] abbrev fdeImgRankAged : ℕ := 0
@[simp] abbrev fdeImgRankGolden : ℕ := 1
@[simp] abbrev fdeImgRankCurrent : ℕ := 2
@[simp] abbrev fdeImgRankTrial : ℕ := 3

@[simp] abbrev fdeImgStateInvalid : ℕ := 0
@[simp] abbrev fdeImgStateValid : ℕ := 1
@[simp] abbrev fdeImgStateNew : ℕ := 3
@[simp] abbrev fdeImgStateVerifyPending : ℕ := 4

@[simp] abbrev fdeImgFormatElf : ℕ := 0

/-- An entry of the FDT (`fdt_entry`); of `reserve` only the first two bytes are ever used. -/
structure FdtEntry where
  id : ℕ
  rank : ℕ
  format : ℕ
  addr : ℕ
  state : ℕ
  version : ℕ
  reserve0 : ℕ
  reserve1 : ℕ
  deriving DecidableEq, Repr

def FdtEntry.zero : FdtEntry := ⟨0, 0, 0, 0, 0, 0, 0, 0⟩

/-- The FDT: a header and its entries. -/
structure Fdt where
  signature : ℕ
  numFde : ℕ
  fde : ℕ → FdtEntry

/-- The header checks every reader of the FDT makes. -/
def Fdt.Valid (t : Fdt) : Prop := t.signature = fdtSignature ∧ t.numFde ≠ 0 ∧ t.numFde ≤ fdtMaxEntry

instance (t : Fdt) : Decidable t.Valid :=
  inferInstanceAs (Decidable (t.signature = fdtSignature ∧ t.numFde ≠ 0 ∧ t.numFde ≤ fdtMaxEntry))

/-- The first entry that satisfies `p`. -/
def Fdt.findIdx? (t : Fdt) (p : FdtEntry → Bool) : Option ℕ :=
  (List.range t.numFde).find? fun i => p (t.fde i)

end Qcc730.Flash
