import Qcc730.Upgrade.Trial

/-! The header of an upgrade file.

    A part-1 header of 17 bytes, one image entry of 184 bytes for each image, and a SHA-256 over
    both. In a partial upgrade this is the configuration file and each image is a file of its own;
    in an all-in-one file the images follow the header. `fw_upgrade_process_config_file` checks the
    entries in one pass that also rounds their disk sizes up to whole blocks and adds them up, in
    32-bit arithmetic. -/

namespace Qcc730.Upgrade
open Lib Flash

@[simp] abbrev fwUpgradeBufSize : ℕ := 2048
@[simp] abbrev fwUpgradeHashLen : ℕ := 32
@[simp] abbrev fwUpgradeMaxImagesNum : ℕ := 30
@[simp] abbrev formatPartialUpgrade : ℕ := 1

@[simp] abbrev imageSetHdrPart1Size : ℕ := 17
@[simp] abbrev imageHdrSize : ℕ := 184

/-- `fw_upgrade_imageSet_hdr_part1_t`. -/
structure ImageSetHdr where
  magic : ℕ
  version : ℕ
  format : ℕ
  length : ℕ
  numImages : ℕ
  deriving DecidableEq, Repr

def ImageSetHdr.decode (b : Bytes) : ImageSetHdr :=
  ⟨wordAt b 0, wordAt b 4, wordAt b 8, wordAt b 12, (b.getD 16 0).toNat⟩

/-- `fw_upgrade_image_hdr_t` without the file name. -/
structure ImageHdr where
  magic : ℕ
  imageId : ℕ
  version : ℕ
  diskSize : ℕ
  imageLength : ℕ
  hashType : ℕ
  hash : Bytes
  deriving DecidableEq, Repr

def ImageHdr.decode (b : Bytes) (o : ℕ) : ImageHdr where
  magic := wordAt b o
  imageId := wordAt b (o + 4)
  version := wordAt b (o + 8)
  diskSize := wordAt b (o + 140)
  imageLength := wordAt b (o + 144)
  hashType := wordAt b (o + 148)
  hash := (b.drop (o + 152)).take fwUpgradeHashLen

/-- The image entries of a header of `n` images. -/
def imageHdrs (b : Bytes) (n : ℕ) : List ImageHdr :=
  (List.range n).map fun i => ImageHdr.decode b (imageSetHdrPart1Size + i * imageHdrSize)

/-- The bytes of an image entry with an empty file name. -/
def ImageHdr.encode (h : ImageHdr) : Bytes :=
  le32 h.magic ++ le32 h.imageId ++ le32 h.version ++ List.replicate 128 0 ++ le32 h.diskSize ++
    le32 h.imageLength ++ le32 h.hashType ++ h.hash

/-- The bytes of a header before its hash. -/
def headerPrefix (magic version format : ℕ) (hs : List ImageHdr) : Bytes :=
  le32 magic ++ le32 version ++ le32 format ++
    le32 (imageSetHdrPart1Size + hs.length * imageHdrSize + fwUpgradeHashLen) ++ [UInt8.ofNat hs.length] ++
    hs.flatMap ImageHdr.encode

/-- Where the header's hash stands. -/
def ImageSetHdr.hashOffset (h : ImageSetHdr) : ℕ := imageSetHdrPart1Size + h.numImages * imageHdrSize

/-- The hash at the end of the header is that of what precedes it. -/
def headerHashOk (sha256 : Bytes → Bytes) (b : Bytes) : Prop :=
  (b.drop (ImageSetHdr.decode b).hashOffset).take fwUpgradeHashLen =
    sha256 (b.take (ImageSetHdr.decode b).hashOffset)

instance (sha256 : Bytes → Bytes) (b : Bytes) : Decidable (headerHashOk sha256 b) :=
  inferInstanceAs (Decidable (_ = _))

/-! ### The checks on image entries -/

/-- What makes the pass over the entries fail. -/
def ImageHdr.Incorrect (h : ImageHdr) : Prop :=
  h.imageId = 0 ∨ h.magic = 0 ∨ h.hashType = 0 ∨ h.diskSize = 0 ∨ h.diskSize < h.imageLength

instance (h : ImageHdr) : Decidable h.Incorrect := inferInstanceAs (Decidable (_ ∨ _ ∨ _ ∨ _ ∨ _))

/-- A disk size aligned with the block size, as the code computes it. -/
def alignDiskSize (n : ℕ) : ℕ := (if n % 4096 ≠ 0 then u32 (n + 4096) else n) / 4096 * 4096

/-- An entry with its disk size adjusted; the SBL's is kept. -/
def ImageHdr.adjust (h : ImageHdr) : ImageHdr :=
  if h.imageId ≠ sblImgId then { h with diskSize := alignDiskSize h.diskSize } else h

/-- Images that the pass counts: FS1 and FS2 have their place already and the SBL is in RRAM. -/
def ImageHdr.Counted (h : ImageHdr) : Prop :=
  h.imageId ≠ fs1ImgId ∧ h.imageId ≠ fs2ImgId ∧ h.imageId ≠ sblImgId

instance (h : ImageHdr) : Decidable h.Counted := inferInstanceAs (Decidable (_ ∧ _ ∧ _))

/-- The variables of the pass. -/
structure Tally where
  len : ℕ
  diskSize : ℕ
  sblImageExist : Bool
  appImageExist : Bool
  sblDiskSize : ℕ

def Tally.zero : Tally := ⟨0, 0, false, false, 0⟩

def Tally.add (t : Tally) (h : ImageHdr) : Tally where
  len := if h.Counted then u32 (t.len + h.imageLength) else t.len
  diskSize := if h.Counted then u32 (t.diskSize + h.diskSize) else t.diskSize
  sblImageExist := h.imageId == sblImgId || t.sblImageExist
  appImageExist := h.imageId == appImgId || t.appImageExist
  sblDiskSize := if h.imageId = sblImgId then h.diskSize else t.sblDiskSize

/-- The pass over the entries: the tally if all are correct, and the entries as it leaves them. -/
def checkEntries : Tally → List ImageHdr → Option Tally × List ImageHdr
  | t, [] => (some t, [])
  | t, h :: hs =>
    if h.Incorrect then (none, h :: hs)
    else if h.imageId = sblImgId ∧ h.adjust.diskSize < h.imageLength then (none, h.adjust :: hs)
    else
      let r := checkEntries (t.add h.adjust) hs
      (r.1, h.adjust :: r.2)

/-! ### What the pass computes -/

/-- A disk size in whole blocks. -/
def blockCeil (n : ℕ) : ℕ := (n + 4095) / 4096 * 4096

theorem le_blockCeil (n : ℕ) : n ≤ blockCeil n := by
  rw [blockCeil]; omega

theorem blockCeil_mod (n : ℕ) : blockCeil n % 4096 = 0 := Nat.mul_mod_left _ _

/-- Short of 4 GB the code rounds up. -/
theorem alignDiskSize_eq {n : ℕ} (h : blockCeil n < 2 ^ 32) : alignDiskSize n = blockCeil n := by
  simp only [alignDiskSize, blockCeil, u32] at *
  split <;> omega

@[simp] theorem ImageHdr.adjust_imageId (h : ImageHdr) : h.adjust.imageId = h.imageId := by
  simp only [ImageHdr.adjust]; split <;> rfl

@[simp] theorem ImageHdr.adjust_imageLength (h : ImageHdr) : h.adjust.imageLength = h.imageLength := by
  simp only [ImageHdr.adjust]; split <;> rfl

@[simp] theorem ImageHdr.adjust_hash (h : ImageHdr) : h.adjust.hash = h.hash := by
  simp only [ImageHdr.adjust]; split <;> rfl

@[simp] theorem ImageHdr.adjust_version (h : ImageHdr) : h.adjust.version = h.version := by
  simp only [ImageHdr.adjust]; split <;> rfl

theorem ImageHdr.adjust_diskSize {h : ImageHdr} (hid : h.imageId ≠ sblImgId) :
    h.adjust.diskSize = alignDiskSize h.diskSize := by
  simp only [ImageHdr.adjust, if_pos hid]

theorem ImageHdr.adjust_sbl {h : ImageHdr} (hid : h.imageId = sblImgId) : h.adjust = h := by
  simp only [ImageHdr.adjust, hid, ne_eq, not_true_eq_false, if_false]

/-- A pass that succeeds leaves every entry adjusted, and every entry was correct. -/
theorem checkEntries_ok : ∀ {hs hs' : List ImageHdr} {t t' : Tally},
    checkEntries t hs = (some t', hs') →
      hs' = hs.map ImageHdr.adjust ∧ t' = (hs.map ImageHdr.adjust).foldl Tally.add t ∧
      ∀ h ∈ hs, ¬h.Incorrect
  | [], _, _, _, heq => by cases heq; simp
  | h :: hs, hs', t, t', heq => by
    rw [checkEntries] at heq
    split at heq
    · cases heq
    rename_i hc
    split at heq
    · cases heq
    rcases hr : checkEntries (t.add h.adjust) hs with ⟨r, rs⟩
    simp only [hr, Prod.mk.injEq] at heq
    obtain ⟨rfl, rfl⟩ := heq
    obtain ⟨rfl, rfl, hall⟩ := checkEntries_ok hr
    refine ⟨rfl, rfl, ?_⟩
    intro x hx
    rcases List.mem_cons.mp hx with rfl | hx
    · exact hc
    · exact hall x hx

/-- Correct entries pass. -/
theorem checkEntries_of_correct : ∀ {hs : List ImageHdr} (t : Tally), (∀ h ∈ hs, ¬h.Incorrect) →
    checkEntries t hs = (some ((hs.map ImageHdr.adjust).foldl Tally.add t), hs.map ImageHdr.adjust)
  | [], _, _ => rfl
  | h :: hs, t, hall => by
    have hh : ¬h.Incorrect := hall h List.mem_cons_self
    have hsbl : ¬(h.imageId = sblImgId ∧ h.adjust.diskSize < h.imageLength) := by
      rintro ⟨hid, hlt⟩
      rw [ImageHdr.adjust_sbl hid] at hlt
      exact hh (.inr (.inr (.inr (.inr hlt))))
    rw [checkEntries, if_neg hh, if_neg hsbl,
      checkEntries_of_correct _ fun x hx => hall x (List.mem_cons_of_mem _ hx)]
    rfl

end Qcc730.Upgrade
