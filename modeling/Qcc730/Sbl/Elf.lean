import Qcc730.Sbl.FwdTable

/-! The ELF loader of the boot loader (`boot_elf_loader.c`, `boot_elf_mem.c`), as far as RRAM goes.

    An image is addressed by a virtual flash address. Its `PT_LOAD` segments are copied to RAM or
    RRAM, whichever window the destination lies in; a copy between windows that no operation covers
    is silently skipped. RAM does not survive a reset, so only the RRAM bytes are kept. They are
    stored one at a time here: a power loss may come between any two. -/

namespace Qcc730.Sbl
open Lib Flash

/-- `APP_IMAGE_FLASH_ADDRESS`. -/
@[simp] abbrev appImageFlashAddress : ℕ := 0xA00000

@[simp] abbrev frnRamEnd : ℕ := 0x9FFFF

/-- `BL_ELF_MEM_SET_REGION_CHECK`: the range lies in a window. -/
def inWindow (start stop a bytes : ℕ) : Bool := start ≤ a && u32 (a + bytes) ≤ stop

def inRam (a bytes : ℕ) : Bool := inWindow 0 frnRamEnd a bytes
def inRram (a bytes : ℕ) : Bool := inWindow 0x200000 0x37FFFF a bytes
def inFlashWindow (a bytes : ℕ) : Bool := inWindow 0x9FFFFF 0xE00000 a bytes

/-- The bytes at a virtual source address, if an operation of `elf_mem_op` reads from there. -/
def elfSource (m : Mem) (src bytes : ℕ) : Option Bytes :=
  if inRram src bytes then some (m.rram.read src bytes)
  else if inFlashWindow src bytes then some (m.flash.read (u32sub src appImageFlashAddress) bytes)
  else none

/-- `rram_verify_address`. -/
def rramVerifyAddress (address length : ℕ) : Bool :=
  0x200000 ≤ address && address ≤ 0x37FFFF && address % 4 == 0 && length ≤ 0x37FFFF - address + 1

/-- `rram_write_dxe` of a buffer whose address passes the check; otherwise nothing is written. -/
def rramWriteDxe (destination : ℕ) (source : Bytes) : List Write :=
  if rramVerifyAddress destination source.length then
    source.mapIdx fun i b => .rram (destination + i) [b]
  else []

/-- The loop of `bl_elf_flash_read_to_rram_dxe`: 2048 bytes at a time. -/
def elfFlashReadToRramDxe : ℕ → ℕ → Bytes → List Write
  | 0, _, _ => []
  | _ + 1, _, [] => []
  | n + 1, data, b :: bs =>
    rramWriteDxe data ((b :: bs).take 2048) ++
      elfFlashReadToRramDxe n (data + 2048) ((b :: bs).drop 2048)

/-- `boot_elf_mem_read`: the RRAM writes of a copy. -/
def bootElfMemRead (m : Mem) (address data bytes : ℕ) : List Write :=
  if inRram data bytes then
    if inRram address bytes then rramWriteDxe data (m.rram.read address bytes)
    else match elfSource m address bytes with
      | some bs => elfFlashReadToRramDxe bytes data bs
      | none => []
  else []

/-- `boot_elf_mem_set` to zero: the RRAM writes. -/
def bootElfMemSet (address bytes : ℕ) : List Write :=
  if inRam address bytes then []
  else if inRram address bytes then rramWriteDxe address (List.replicate bytes 0)
  else []

/-- `boot_elf32_phdr`, the fields the loader reads. -/
structure Phdr where
  pType : ℕ
  pOffset : ℕ
  pVaddr : ℕ
  pPaddr : ℕ
  pFilesz : ℕ
  pMemsz : ℕ
  deriving DecidableEq, Repr

/-- The program header at offset `o` of a buffer. -/
def Phdr.decode (b : Bytes) (o : ℕ) : Phdr :=
  ⟨wordAt b o, wordAt b (o + 4), wordAt b (o + 8), wordAt b (o + 12), wordAt b (o + 16), wordAt b (o + 20)⟩

def halfAt (b : Bytes) (o : ℕ) : ℕ := (b.getD o 0).toNat + 256 * (b.getD (o + 1) 0).toNat

/-- `boot_elf_load_init`: the program headers of the image at `elfAddr`, as read into the zeroed
    `prog_hdrs`. -/
def progHdrs (m : Mem) (elfAddr : ℕ) : List Phdr :=
  let elfHdr := (elfSource m elfAddr 52).getD []
  let ePhnum := halfAt elfHdr 44
  let b := (elfSource m (u32 (elfAddr + wordAt elfHdr 28)) (ePhnum * halfAt elfHdr 42)).getD []
  (List.range ePhnum).map fun i => Phdr.decode b (32 * i)

/-- Bytes of the file part to copy. -/
def Phdr.bytesToRead (hdr : Phdr) (offset bytesToLoad : ℕ) : ℕ :=
  if hdr.pFilesz ≤ offset then 0
  else if hdr.pFilesz - offset ≤ bytesToLoad then hdr.pFilesz - offset
  else bytesToLoad

/-- Bytes of the zero-initialised part to set. -/
def Phdr.bytesToSet (hdr : Phdr) (bytesToRead bytesToLoad : ℕ) : ℕ :=
  if bytesToLoad ≤ bytesToRead then 0
  else if u32sub hdr.pMemsz hdr.pFilesz ≤ bytesToLoad - bytesToRead then u32sub hdr.pMemsz hdr.pFilesz
  else bytesToLoad - bytesToRead

/-- `boot_elf_load_generic_segment`. -/
def bootElfLoadGenericSegment (m : Mem) (elfAddr : ℕ) (hdr : Phdr) (offset destAddr bytesToLoad : ℕ) :
    List Write :=
  let toRead := hdr.bytesToRead offset bytesToLoad
  let toSet := hdr.bytesToSet toRead bytesToLoad
  (if hdr.pMemsz ≠ 0 ∧ hdr.pFilesz ≠ 0 ∧ hdr.pFilesz ≤ hdr.pMemsz ∧ toRead ≠ 0 then
      bootElfMemRead m (u32 (u32 (elfAddr + hdr.pOffset) + offset)) destAddr toRead
    else []) ++
  (if hdr.pFilesz < hdr.pMemsz ∧ destAddr ≤ u32 (destAddr + hdr.pFilesz) ∧ toSet ≠ 0 then
      bootElfMemSet (u32 (destAddr + toRead)) toSet
    else [])

/-- The segment loop of `boot_elf_load_image`. -/
def loadSegments (elfAddr : ℕ) (type : ElfLoadType) : List Phdr → Mem → List Write
  | [], _ => []
  | hdr :: rest, m =>
    let ws :=
      if hdr.pType = 1 then
        if type ≠ .copy then
          if (type = .ram ∧ hdr.pVaddr < frnRamEnd) ∨ type = .full then
            bootElfLoadGenericSegment m elfAddr hdr 0 hdr.pVaddr hdr.pMemsz
          else []
        else bootElfLoadGenericSegment m elfAddr hdr 0 hdr.pPaddr hdr.pFilesz
      else []
    ws ++ loadSegments elfAddr type rest (replay Mem.app m ws)

/-- `boot_elf_load_image` of the image at `elfAddr`: the RRAM writes of a load that is not cut
    short. -/
def bootElfLoadImage (m : Mem) (elfAddr : ℕ) (type : ElfLoadType) : List Write :=
  loadSegments elfAddr type (progHdrs m elfAddr) m

/-! ### Loads write RRAM only -/

theorem rramWriteDxe_rram {dst : ℕ} {b : Bytes} {w : Write} (hw : w ∈ rramWriteDxe dst b) :
    ∃ a d, w = .rram a d := by
  rw [rramWriteDxe] at hw
  split at hw
  · obtain ⟨i, hi, rfl⟩ := List.mem_mapIdx.mp hw
    exact ⟨_, _, rfl⟩
  · simp at hw

theorem elfFlashReadToRramDxe_rram : ∀ {n dst : ℕ} {b : Bytes} {w : Write},
    w ∈ elfFlashReadToRramDxe n dst b → ∃ a d, w = .rram a d
  | 0, _, _, _, hw => by simp [elfFlashReadToRramDxe] at hw
  | _ + 1, _, [], _, hw => by simp [elfFlashReadToRramDxe] at hw
  | _ + 1, _, _ :: _, _, hw => by
    rw [elfFlashReadToRramDxe] at hw
    rcases List.mem_append.mp hw with hw | hw
    · exact rramWriteDxe_rram hw
    · exact elfFlashReadToRramDxe_rram hw

theorem bootElfMemRead_rram {m : Mem} {src dst n : ℕ} {w : Write} (hw : w ∈ bootElfMemRead m src dst n) :
    ∃ a d, w = .rram a d := by
  rw [bootElfMemRead] at hw
  split at hw
  · split at hw
    · exact rramWriteDxe_rram hw
    · split at hw
      · exact elfFlashReadToRramDxe_rram hw
      · simp at hw
  · simp at hw

theorem bootElfMemSet_rram {dst n : ℕ} {w : Write} (hw : w ∈ bootElfMemSet dst n) :
    ∃ a d, w = .rram a d := by
  rw [bootElfMemSet] at hw
  split at hw
  · simp at hw
  · split at hw
    · exact rramWriteDxe_rram hw
    · simp at hw

theorem bootElfLoadGenericSegment_rram {m : Mem} {elfAddr o dst n : ℕ} {hdr : Phdr} {w : Write}
    (hw : w ∈ bootElfLoadGenericSegment m elfAddr hdr o dst n) : ∃ a d, w = .rram a d := by
  rw [bootElfLoadGenericSegment] at hw
  rcases List.mem_append.mp hw with hw | hw
  · split at hw
    · exact bootElfMemRead_rram hw
    · simp at hw
  · split at hw
    · exact bootElfMemSet_rram hw
    · simp at hw

theorem loadSegments_rram {elfAddr : ℕ} {type : ElfLoadType} : ∀ {hs : List Phdr} {m : Mem} {w : Write},
    w ∈ loadSegments elfAddr type hs m → ∃ a d, w = .rram a d
  | [], _, _, hw => by simp [loadSegments] at hw
  | hdr :: rest, m, w, hw => by
    rw [loadSegments] at hw
    rcases List.mem_append.mp hw with hw | hw
    · split at hw
      · split at hw
        · split at hw
          · exact bootElfLoadGenericSegment_rram hw
          · simp at hw
        · exact bootElfLoadGenericSegment_rram hw
      · simp at hw
    · exact loadSegments_rram hw

/-- Every write of a load is to RRAM. -/
theorem bootElfLoadImage_rram {m : Mem} {elfAddr : ℕ} {type : ElfLoadType} {w : Write}
    (hw : w ∈ bootElfLoadImage m elfAddr type) : ∃ a d, w = .rram a d := loadSegments_rram hw

end Qcc730.Sbl
