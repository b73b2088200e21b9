import Qcc730.Sbl.Copies

/-! Loading an ELF image into RAM and RRAM (`boot_elf_load_image`).

    Every selected `PT_LOAD` segment is at most two jobs: copy its file part, and set the rest of it to
    zero. A job is dispatched through a table of windows; one that no entry covers is skipped without an
    error, as is the file part of a segment that is larger in the file than in memory. `BOOT_ELF_LOAD_COPY`
    takes the file parts only, and takes them to the physical addresses. -/

namespace Qcc730.Sbl
open Lib Flash

namespace Load

/-! ### The loader on the memories -/

/-- `bl_elf_rram_read_to_rram_dxe`. -/
def blElfRramReadToRramDxe (address data bytes : ℕ) : Cmd Boot BlError Unit := fun s =>
  match Dxe.rramWriteDxe s.rram data (s.rram.read address bytes) with
  | .ok rram => (.ok (), { s with rram })
  | .error e => (.error e, s)

/-- `boot_elf_mem_read` with the table `elf_mem_op`. -/
def bootElfMemRead (address data bytes : ℕ) : Cmd Boot BlError Unit :=
  if inRram address bytes ∧ inRam data bytes then blElfRramReadToRam address data bytes
  else if inRram address bytes ∧ inRram data bytes then blElfRramReadToRramDxe address data bytes
  else if inFlashWindow address bytes ∧ inRam data bytes then blElfFlashReadToRam address data bytes
  else if inFlashWindow address bytes ∧ inRram data bytes then blElfFlashReadToRramDxe address data bytes
  else pure ()

/-- `bl_elf_rram_set_ram`. -/
def blElfRramSetRam (address : ℕ) (value : UInt8) (bytes : ℕ) : Cmd Boot BlError Unit :=
  Cmd.modify fun s => { s with ram := s.ram.store address (List.replicate bytes value) }

/-- `bl_elf_rram_set_rram_dxe`. -/
def blElfRramSetRramDxe (address : ℕ) (value : UInt8) (bytes : ℕ) : Cmd Boot BlError Unit := fun s =>
  match Dxe.rramMemsetDxe s.rram address value bytes with
  | .ok rram => (.ok (), { s with rram })
  | .error e => (.error e, s)

/-- `boot_elf_mem_set` with the table `elf_mem_op`: the two entries for flash have the windows of the first
    two. -/
def bootElfMemSet (address : ℕ) (value : UInt8) (bytes : ℕ) : Cmd Boot BlError Unit :=
  if inRam address bytes then blElfRramSetRam address value bytes
  else if inRram address bytes then blElfRramSetRramDxe address value bytes
  else pure ()

/-- The file part of a segment in `boot_elf_load_generic_segment`. -/
def readFile (elfAddr : ℕ) (hdr : Phdr) (offset destAddr toRead : ℕ) : Cmd Boot BlError Unit :=
  if hdr.pMemsz ≠ 0 ∧ hdr.pFilesz ≠ 0 ∧ hdr.pFilesz ≤ hdr.pMemsz ∧ toRead ≠ 0 then
    bootElfMemRead (u32 (u32 (elfAddr + hdr.pOffset) + offset)) destAddr toRead
  else pure ()

/-- Its zero-initialised part. -/
def setZero (hdr : Phdr) (destAddr toRead toSet : ℕ) : Cmd Boot BlError Unit :=
  if hdr.pFilesz < hdr.pMemsz ∧ destAddr ≤ u32 (destAddr + hdr.pFilesz) ∧ toSet ≠ 0 then
    bootElfMemSet (u32 (destAddr + toRead)) 0 toSet
  else pure ()

/-- `boot_elf_load_generic_segment`. -/
def bootElfLoadGenericSegment (elfAddr : ℕ) (hdr : Phdr) (offset destAddr bytesToLoad : ℕ) :
    Cmd Boot BlError Unit := do
  let toRead := hdr.bytesToRead offset bytesToLoad
  let toSet := hdr.bytesToSet toRead bytesToLoad
  readFile elfAddr hdr offset destAddr toRead
  setZero hdr destAddr toRead toSet

/-- One header of `boot_elf_load_image`. -/
def bootElfLoadHeader (elfAddr : ℕ) (type : ElfLoadType) (hdr : Phdr) : Cmd Boot BlError Unit :=
  if hdr.pType = 1 then
    if type ≠ .copy then
      if (type = .ram ∧ hdr.pVaddr < frnRamEnd) ∨ type = .full then
        bootElfLoadGenericSegment elfAddr hdr 0 hdr.pVaddr hdr.pMemsz
      else pure ()
    else bootElfLoadGenericSegment elfAddr hdr 0 hdr.pPaddr hdr.pFilesz
  else pure ()

/-- `boot_elf_load_image`: the first error ends it. -/
def bootElfLoadImage (elfAddr : ℕ) (type : ElfLoadType) : List Phdr → Cmd Boot BlError Unit
  | [] => if elfAddr = 0 then Cmd.fail .elfNullPtr else pure ()
  | hdr :: rest =>
    if elfAddr = 0 then Cmd.fail .elfNullPtr
    else do
      bootElfLoadHeader elfAddr type hdr
      bootElfLoadImage elfAddr type rest

end Load

/-! ### Jobs -/

/-- A copy or a fill. -/
inductive Job where
  | copy (src dst n : ℕ)
  | zero (dst n : ℕ)
  deriving DecidableEq

namespace Job

/-- The addresses a job is to write. -/
def target : Job → Range
  | .copy _ dst n => ⟨dst, n⟩
  | .zero dst n => ⟨dst, n⟩

/-- The addresses a job reads. -/
def source : Job → Range
  | .copy src _ n => ⟨src, n⟩
  | .zero _ _ => ⟨0, 0⟩

/-- A window of the table covers the job. -/
def Covered : Job → Prop
  | .copy src dst n => (inRram src n ∨ inFlashWindow src n) ∧ (inRam dst n ∨ inRram dst n)
  | .zero dst n => inRam dst n ∨ inRram dst n

def run : Job → Cmd Boot BlError Unit
  | .copy src dst n => Load.bootElfMemRead src dst n
  | .zero dst n => Load.bootElfMemSet dst 0 n

/-- Ends below 2³², and none of the copy routines' faults: no chunk past the end, no unaligned pieces. -/
def Plain : Job → Prop
  | .copy src dst n => 0 < n ∧ src + n < 2 ^ 32 ∧ dst + n < 2 ^ 32 ∧
      (inRram src n → inRam dst n → n ≤ 2048) ∧ (inFlashWindow src n → inRram dst n → dst % 4 = 0)
  | .zero dst n => 0 < n ∧ dst + n < 2 ^ 32

end Job

/-- The loadable byte at an address. -/
def Boot.byte (s : Boot) (x : ℕ) : UInt8 := if x < 0x200000 then s.ram x else s.rram x

/-- The byte of the image at an address: in RRAM, or in flash behind its virtual address. -/
def Boot.imageByte (s : Boot) (x : ℕ) : UInt8 := if x < 0xA00000 then s.rram x else s.flash (x - 0xA00000)

/-- What a job is to leave at an address of its target. -/
def Job.value (s : Boot) : Job → ℕ → UInt8
  | .copy src dst _, x => s.imageByte (src + (x - dst))
  | .zero _ _, _ => 0

/-- Run jobs until the first error. -/
def runJobs : List Job → Cmd Boot BlError Unit
  | [] => pure ()
  | j :: js => do
    j.run
    runJobs js

/-! ### One job -/

theorem inRam_iff {a n : ℕ} (h : a + n < 2 ^ 32) : inRam a n = true ↔ a + n ≤ frnRamEnd := by
  simp only [inRam, inWindow, u32_of_lt h, Bool.and_eq_true, decide_eq_true_eq, frnRamEnd]
  omega

theorem inRram_iff {a n : ℕ} (h : a + n < 2 ^ 32) : inRram a n = true ↔ 0x200000 ≤ a ∧ a + n ≤ 0x37FFFF := by
  simp only [inRram, inWindow, u32_of_lt h, Bool.and_eq_true, decide_eq_true_eq]

theorem inFlashWindow_iff {a n : ℕ} (h : a + n < 2 ^ 32) :
    inFlashWindow a n = true ↔ 0x9FFFFF ≤ a ∧ a + n ≤ 0xE00000 := by
  simp only [inFlashWindow, inWindow, u32_of_lt h, Bool.and_eq_true, decide_eq_true_eq]

/-- What a job leaves: its target filled in, everything else as it was. -/
def Job.Leaves (j : Job) (s s' : Boot) : Prop :=
  s'.flash = s.flash ∧ ∀ x, s'.byte x = if x ∈ j.target then j.value s x else s.byte x

/-- A store to RAM, as loadable bytes. -/
theorem leaves_ram {j : Job} {s : Boot} {dst n : ℕ} {b : Bytes} (ht : j.target = ⟨dst, n⟩) (hb : b.length = n)
    (hr : dst + n ≤ frnRamEnd) (hv : ∀ i < n, b.getD i 0 = j.value s (dst + i)) :
    j.Leaves s { s with ram := s.ram.store dst b } := by
  simp only [frnRamEnd] at hr
  refine ⟨rfl, fun x => ?_⟩
  rw [ht]
  by_cases hx : x ∈ (⟨dst, n⟩ : Range)
  · obtain ⟨h₁, h₂⟩ := Range.mem_mk.mp hx
    rw [if_pos hx, Boot.byte, if_pos (by omega)]
    have hi := hv (x - dst) (by omega)
    rw [Nat.add_sub_cancel' h₁] at hi
    rw [← hi]
    exact if_pos ⟨h₁, by omega⟩
  · rw [Range.mem_mk] at hx
    rw [if_neg (by rwa [Range.mem_mk]), Boot.byte, Boot.byte]
    simp only
    rw [Memory.store_out (by omega)]

/-- A store to RRAM, as loadable bytes. -/
theorem leaves_rram {j : Job} {s : Boot} {dst n : ℕ} {b : Bytes} (ht : j.target = ⟨dst, n⟩) (hb : b.length = n)
    (hr : 0x200000 ≤ dst) (hv : ∀ i < n, b.getD i 0 = j.value s (dst + i)) :
    j.Leaves s { s with rram := s.rram.store dst b } := by
  refine ⟨rfl, fun x => ?_⟩
  rw [ht]
  by_cases hx : x ∈ (⟨dst, n⟩ : Range)
  · obtain ⟨h₁, h₂⟩ := Range.mem_mk.mp hx
    rw [if_pos hx, Boot.byte, if_neg (by omega)]
    have hi := hv (x - dst) (by omega)
    rw [Nat.add_sub_cancel' h₁] at hi
    rw [← hi]
    exact if_pos ⟨h₁, by omega⟩
  · rw [Range.mem_mk] at hx
    rw [if_neg (by rwa [Range.mem_mk]), Boot.byte, Boot.byte]
    simp only
    rw [Memory.store_out (by omega)]

/-- The bytes read from RRAM are bytes of the image. -/
theorem rram_value {s : Boot} {src dst n i : ℕ} (hs : src + n ≤ 0x37FFFF) (hi : i < n) :
    (s.rram.read src n).getD i 0 = (Job.copy src dst n).value s (dst + i) := by
  rw [Memory.getD_read _ hi, Job.value, Nat.add_sub_cancel_left, Boot.imageByte, if_pos (by omega)]

/-- The bytes read from flash are bytes of the image. -/
theorem flash_value {s : Boot} {src dst n i : ℕ} (hs : 0xA00000 ≤ src) (hlt : src < 2 ^ 32) (hi : i < n) :
    (s.flash.read (u32sub src appImageFlashAddress) n).getD i 0 = (Job.copy src dst n).value s (dst + i) := by
  rw [Memory.getD_read _ hi, Job.value, Nat.add_sub_cancel_left, Boot.imageByte, if_neg (by omega),
    u32sub_of_le hlt hs, show src - appImageFlashAddress + i = src + i - 0xA00000 by
      rw [appImageFlashAddress]; omega]

/-- A transfer through the DMA engine that returns no error has stored its data. -/
theorem rramWriteDxe_stored {m m' : Memory} {a : ℕ} {b : Bytes} (h : Dxe.rramWriteDxe m a b = .ok m') :
    m' = m.store a b := by
  rw [Dxe.rramWriteDxe_eq] at h
  split at h
  · exact (Except.ok.inj h).symm
  · cases h

theorem rramMemsetDxe_stored {m m' : Memory} {a n : ℕ} {v : UInt8} (h : Dxe.rramMemsetDxe m a v n = .ok m') :
    m' = m.store a (List.replicate n v) := by
  rw [Dxe.rramMemsetDxe_eq] at h
  split at h
  · exact (Except.ok.inj h).symm
  · cases h

/-- A copy within RRAM. -/
theorem rramToRram_leaves {src dst n : ℕ} {s s' : Boot} (hs : src + n ≤ 0x37FFFF) (hd : 0x200000 ≤ dst)
    (h : Load.blElfRramReadToRramDxe src dst n s = (.ok (), s')) : (Job.copy src dst n).Leaves s s' := by
  rw [Load.blElfRramReadToRramDxe] at h
  rcases hw : Dxe.rramWriteDxe s.rram dst (s.rram.read src n) with e | m'
  · rw [hw] at h
    cases congrArg Prod.fst h
  · rw [hw] at h
    cases h
    rw [rramWriteDxe_stored hw]
    exact leaves_rram rfl (Memory.length_read _ _ _) hd fun i hi => rram_value hs hi

/-- A flash read at the one address before the flash window's base cannot succeed. -/
theorem flash_source_start {s s' : Boot} {put : ℕ → Bytes → Boot → Boot}
    (hput : ∀ a b s, Boot.SameFlash s (put a b s)) {src dst n : ℕ} (hn : 0 < n) (hb : n < 2 ^ 32)
    (hs : 0x9FFFFF ≤ src) (h : flashCopy put src dst n s = (.ok (), s')) : 0xA00000 ≤ src := by
  by_contra hlt
  obtain rfl : src = 0x9FFFFF := by omega
  rw [flashCopy_eq, copyPieces_ok_iff hput] at h
  have hbase : u32sub 0x9FFFFF appImageFlashAddress = 4294967295 := by decide
  rw [hbase] at h
  -- the first piece would start at the last address of all
  cases ht : chunks n with
  | nil =>
    have := chunks_tiles n
    rw [ht] at this
    cases this
    omega
  | cons c cs =>
    obtain ⟨o, k⟩ := c
    have htiles := chunks_tiles n
    rw [ht] at htiles
    cases htiles with
    | cons hk hle _ =>
      have hread := h.1 0 k (by rw [ht]; exact List.mem_cons_self)
      rw [Nat.add_zero, u32_of_lt (by decide)] at hread
      have hwrap := hread.2.1
      rw [u32] at hwrap
      omega

/-- A copy job that returns no error. -/
theorem Job.copy_spec {src dst n : ℕ} {s s' : Boot} (hp : (Job.copy src dst n).Plain)
    (h : Load.bootElfMemRead src dst n s = (.ok (), s')) :
    ((Job.copy src dst n).Covered → (Job.copy src dst n).Leaves s s') ∧
      (¬(Job.copy src dst n).Covered → s' = s) := by
  obtain ⟨hn, hse, hde, hover, halign⟩ := hp
  have hnlt : n < 2 ^ 32 := by omega
  rw [Load.bootElfMemRead] at h
  by_cases hrr : inRram src n ∧ inRam dst n
  · -- at most one chunk
    rw [if_pos hrr] at h
    refine ⟨fun _ => ?_, fun hc => absurd ⟨.inl hrr.1, .inl hrr.2⟩ hc⟩
    rw [(rramToRam_one_copy_iff s).mpr (.inl (hover hrr.1 hrr.2)) s' h]
    have h₁ := (inRram_iff hse).mp hrr.1
    exact leaves_ram rfl (Memory.length_read _ _ _) ((inRam_iff hde).mp hrr.2) fun i hi => rram_value h₁.2 hi
  rw [if_neg hrr] at h
  by_cases hrd : inRram src n ∧ inRram dst n
  · rw [if_pos hrd] at h
    refine ⟨fun _ => ?_, fun hc => absurd ⟨.inl hrd.1, .inr hrd.2⟩ hc⟩
    exact rramToRram_leaves ((inRram_iff hse).mp hrd.1).2 ((inRram_iff hde).mp hrd.2).1 h
  rw [if_neg hrd] at h
  by_cases hfr : inFlashWindow src n ∧ inRam dst n
  · rw [if_pos hfr] at h
    refine ⟨fun _ => ?_, fun hc => absurd ⟨.inr hfr.1, .inl hfr.2⟩ hc⟩
    have hstart := flash_source_start Boot.putRam_sameFlash hn hnlt ((inFlashWindow_iff hse).mp hfr.1).1 h
    rw [flashToRam_one_copy s hnlt s' h]
    exact leaves_ram rfl (Memory.length_read _ _ _) ((inRam_iff hde).mp hfr.2)
      fun i hi => flash_value hstart (by omega) hi
  rw [if_neg hfr] at h
  by_cases hfd : inFlashWindow src n ∧ inRram dst n
  · rw [if_pos hfd] at h
    refine ⟨fun _ => ?_, fun hc => absurd ⟨.inr hfd.1, .inr hfd.2⟩ hc⟩
    have hstart := flash_source_start Boot.putRram_sameFlash hn hnlt ((inFlashWindow_iff hse).mp hfd.1).1 h
    have hd := (inRram_iff hde).mp hfd.2
    have hal := halign hfd.1 hfd.2
    -- every piece starts at a multiple of four inside RRAM
    have hland : s.PiecesLand (u32sub src appImageFlashAddress) dst n := by
      refine .inr fun o k hm => .inl ?_
      have hmem := (chunks_tiles n).mem hm
      have hmul := chunks_aligned n o k hm
      simp only [rramVerifyAddress, Bool.and_eq_true, decide_eq_true_eq, beq_iff_eq]
      omega
    rw [(flashToRram_one_copy_iff s hnlt).mpr hland s' h]
    exact leaves_rram rfl (Memory.length_read _ _ _) hd.1 fun i hi => flash_value hstart (by omega) hi
  · rw [if_neg hfd] at h
    cases h
    refine ⟨fun hc => ?_, fun _ => rfl⟩
    rcases hc.1 with h₁ | h₁
    · rcases hc.2 with h₂ | h₂
      · exact absurd ⟨h₁, h₂⟩ hrr
      · exact absurd ⟨h₁, h₂⟩ hrd
    · rcases hc.2 with h₂ | h₂
      · exact absurd ⟨h₁, h₂⟩ hfr
      · exact absurd ⟨h₁, h₂⟩ hfd

/-- A fill job that returns no error. -/
theorem Job.zero_spec {dst n : ℕ} {s s' : Boot} (hp : (Job.zero dst n).Plain)
    (h : Load.bootElfMemSet dst 0 n s = (.ok (), s')) :
    ((Job.zero dst n).Covered → (Job.zero dst n).Leaves s s') ∧ (¬(Job.zero dst n).Covered → s' = s) := by
  have hv : ∀ i < n, (List.replicate n (0 : UInt8)).getD i 0 = 0 := by
    intro i hi
    simp [hi]
  rw [Load.bootElfMemSet] at h
  by_cases hr : inRam dst n
  · rw [if_pos hr] at h
    refine ⟨fun _ => ?_, fun hc => absurd (.inl hr) hc⟩
    cases h
    exact leaves_ram rfl (List.length_replicate ..) ((inRam_iff hp.2).mp hr) hv
  rw [if_neg hr] at h
  by_cases hd : inRram dst n
  · rw [if_pos hd, Load.blElfRramSetRramDxe] at h
    refine ⟨fun _ => ?_, fun hc => absurd (.inr hd) hc⟩
    rcases hw : Dxe.rramMemsetDxe s.rram dst 0 n with e | m'
    · rw [hw] at h
      cases congrArg Prod.fst h
    · rw [hw] at h
      cases h
      rw [rramMemsetDxe_stored hw]
      exact leaves_rram rfl (List.length_replicate ..) ((inRram_iff hp.2).mp hd).1 hv
  · rw [if_neg hd] at h
    cases h
    exact ⟨fun hc => hc.elim (absurd · hr) (absurd · hd), fun _ => rfl⟩

theorem Job.run_spec {j : Job} {s s' : Boot} (hp : j.Plain) (h : j.run s = (.ok (), s')) :
    (j.Covered → j.Leaves s s') ∧ (¬j.Covered → s' = s) := by
  cases j with
  | copy src dst n => exact Job.copy_spec hp h
  | zero dst n => exact Job.zero_spec hp h

/-! ### All jobs -/

/-- The jobs do not get in each other's way: covered jobs write different addresses, and none of them
    writes what one of them reads. -/
structure Apart (js : List Job) : Prop where
  targets : js.Pairwise fun i j => i.Covered → j.Covered → i.target.Disj j.target
  sources : ∀ i ∈ js, ∀ j ∈ js, i.Covered → j.Covered → i.source.Disj j.target

theorem Apart.tail {j : Job} {js : List Job} (h : Apart (j :: js)) : Apart js :=
  ⟨(List.pairwise_cons.mp h.targets).2,
    fun i hi k hk => h.sources i (List.mem_cons_of_mem _ hi) k (List.mem_cons_of_mem _ hk)⟩

/-- A job reads the same image bytes after another one whose target it does not read. -/
theorem Job.value_congr {i j : Job} {s s' : Boot} (hp : i.Plain) (hc : i.Covered) (hl : j.Leaves s s')
    (hd : i.source.Disj j.target) {x : ℕ} (hx : x ∈ i.target) : i.value s' x = i.value s x := by
  cases i with
  | zero dst n => rfl
  | copy src dst n =>
    obtain ⟨h₁, h₂⟩ := Range.mem_mk.mp hx
    have hsrc : src + (x - dst) ∈ (⟨src, n⟩ : Range) := Range.mem_mk.mpr (by omega)
    rw [Job.value, Job.value, Boot.imageByte, Boot.imageByte]
    by_cases hlow : src + (x - dst) < 0xA00000
    · -- a byte below the flash addresses is one of RRAM
      have hrram : 0x200000 ≤ src := by
        rcases hc.1 with h | h
        · exact ((inRram_iff hp.2.1).mp h).1
        · have := ((inFlashWindow_iff hp.2.1).mp h).1
          omega
      have hsame := hl.2 (src + (x - dst))
      rw [if_neg (hd _ hsrc), Boot.byte, Boot.byte, if_neg (by omega), if_neg (by omega)] at hsame
      rw [if_pos hlow, if_pos hlow, hsame]
    · rw [if_neg hlow, if_neg hlow, hl.1]

/-- Jobs that are apart: each covered one has filled its target from the image as it was at the start, and
    every other byte is unchanged. -/
theorem runJobs_spec : ∀ (js : List Job) (s s' : Boot), (∀ j ∈ js, j.Plain) → Apart js →
    runJobs js s = (.ok (), s') →
    (∀ j ∈ js, j.Covered → ∀ x ∈ j.target, s'.byte x = j.value s x) ∧
    (∀ x, (∀ j ∈ js, j.Covered → x ∉ j.target) → s'.byte x = s.byte x) ∧ s'.flash = s.flash
  | [], s, s', _, _, h => by
    cases h
    exact ⟨fun _ hj => absurd hj List.not_mem_nil, fun _ _ => rfl, rfl⟩
  | j :: js, s, s', hp, ha, h => by
    obtain ⟨_, s₁, h₁, h₂⟩ := Cmd.bind_eq_ok h
    obtain ⟨hcov, hskip⟩ := Job.run_spec (hp j List.mem_cons_self) h₁
    obtain ⟨hfill, hrest, hflash⟩ := runJobs_spec js s₁ s' (fun i hi => hp i (List.mem_cons_of_mem _ hi)) ha.tail h₂
    by_cases hc : j.Covered
    · have hl := hcov hc
      have hdisj : ∀ i ∈ js, i.Covered → j.target.Disj i.target := fun i hi hci =>
        (List.pairwise_cons.mp ha.targets).1 i hi hc hci
      refine ⟨fun i hi hci x hx => ?_, fun x hx => ?_, hflash.trans hl.1⟩
      · rcases List.mem_cons.mp hi with rfl | hi
        · rw [hrest x fun k hk hck hxk => hdisj k hk hck x hx hxk, hl.2, if_pos hx]
        · rw [hfill i hi hci x hx]
          exact Job.value_congr (hp i (List.mem_cons_of_mem _ hi)) hci hl
            (ha.sources i (List.mem_cons_of_mem _ hi) j List.mem_cons_self hci hc) hx
      · rw [hrest x fun k hk hck => hx k (List.mem_cons_of_mem _ hk) hck, hl.2,
          if_neg (hx j List.mem_cons_self hc)]
    · obtain rfl := hskip hc
      refine ⟨fun i hi hci x hx => ?_, fun x hx => ?_, hflash⟩
      · rcases List.mem_cons.mp hi with rfl | hi
        · exact absurd hci hc
        · exact hfill i hi hci x hx
      · exact hrest x fun k hk hck => hx k (List.mem_cons_of_mem _ hk) hck

/-! ### The jobs of an image -/

namespace Phdr

/-- The headers that a load type takes. -/
def Selected (type : ElfLoadType) (h : Phdr) : Prop :=
  h.pType = 1 ∧ (type = .copy ∨ (type = .ram ∧ h.pVaddr < frnRamEnd) ∨ type = .full)

instance (type : ElfLoadType) (h : Phdr) : Decidable (h.Selected type) := inferInstanceAs (Decidable (_ ∧ _))

/-- Where a load type takes a segment. -/
def dest (type : ElfLoadType) (h : Phdr) : ℕ := if type = .copy then h.pPaddr else h.pVaddr

/-- The file part of a segment. -/
def filePart (elfAddr : ℕ) (type : ElfLoadType) (h : Phdr) : Job :=
  .copy (elfAddr + h.pOffset) (h.dest type) h.pFilesz

/-- The part of a segment that is not in the file. -/
def zeroPart (type : ElfLoadType) (h : Phdr) : Job :=
  .zero (h.dest type + h.pFilesz) (h.pMemsz - h.pFilesz)

/-- The jobs of a header; a copy leaves the zeros out. -/
def jobs (elfAddr : ℕ) (type : ElfLoadType) (h : Phdr) : List Job :=
  if h.Selected type then
    (if h.pFilesz ≠ 0 ∧ h.pFilesz ≤ h.pMemsz then [h.filePart elfAddr type] else []) ++
      (if type ≠ .copy ∧ h.pFilesz < h.pMemsz then [h.zeroPart type] else [])
  else []

end Phdr

theorem runJobs_append (is js : List Job) (s : Boot) :
    runJobs (is ++ js) s = (runJobs is >>= fun _ => runJobs js) s := by
  induction is generalizing s with
  | nil => rw [List.nil_append, runJobs, Cmd.bind_ok (Cmd.pure_apply () s)]
  | cons i is ih =>
    rw [List.cons_append, runJobs, runJobs]
    rcases hi : i.run s with ⟨e | u, s₁⟩
    · rw [Cmd.bind_error hi, Cmd.bind_error (Cmd.bind_error hi)]
    · rw [Cmd.bind_ok hi, ih, Cmd.bind_apply, Cmd.bind_apply, Cmd.bind_ok hi]

/-- Zero or one job, as the code branches. -/
theorem runJobs_ite {p : Prop} [Decidable p] (j : Job) (s : Boot) :
    runJobs (if p then [j] else []) s = (if p then j.run else pure ()) s := by
  by_cases hp : p
  · rw [if_pos hp, if_pos hp, runJobs, Cmd.bind_apply]
    rcases j.run s with ⟨e | u, s'⟩ <;> rfl
  · rw [if_neg hp, if_neg hp, runJobs]

section Segment

variable {elfAddr dst load : ℕ} {h : Phdr} {zeros : Prop} [Decidable zeros]

/-- The file part is read as the header says. -/
theorem bytesToRead_eq (hload : load = if zeros then h.pMemsz else h.pFilesz) (hle : h.pFilesz ≤ h.pMemsz) :
    h.bytesToRead 0 load = h.pFilesz := by
  have hbig : h.pFilesz ≤ load := by
    rw [hload]
    split
    · exact hle
    · exact le_refl _
  rw [Phdr.bytesToRead, Nat.sub_zero, if_pos hbig]
  by_cases h0 : h.pFilesz = 0
  · rw [if_pos (by omega), h0]
  · rw [if_neg (by omega)]

theorem readFile_eq (hload : load = if zeros then h.pMemsz else h.pFilesz)
    (hfile : h.pFilesz ≠ 0 ∧ h.pFilesz ≤ h.pMemsz → (Job.copy (elfAddr + h.pOffset) dst h.pFilesz).Plain) :
    Load.readFile elfAddr h 0 dst (h.bytesToRead 0 load) =
      if h.pFilesz ≠ 0 ∧ h.pFilesz ≤ h.pMemsz then (Job.copy (elfAddr + h.pOffset) dst h.pFilesz).run
      else pure () := by
  rw [Load.readFile]
  by_cases hc : h.pFilesz ≠ 0 ∧ h.pFilesz ≤ h.pMemsz
  · have hlt := (hfile hc).2.1
    rw [if_pos hc, bytesToRead_eq hload hc.2, if_pos ⟨by omega, hc.1, hc.2, hc.1⟩, Nat.add_zero,
      u32_of_lt (u32_lt _), u32_of_lt (by omega)]
    rfl
  · rw [if_neg hc, if_neg (by tauto)]

theorem setZero_eq (hload : load = if zeros then h.pMemsz else h.pFilesz)
    (hzero : zeros ∧ h.pFilesz < h.pMemsz → (Job.zero (dst + h.pFilesz) (h.pMemsz - h.pFilesz)).Plain) :
    Load.setZero h dst (h.bytesToRead 0 load) (h.bytesToSet (h.bytesToRead 0 load) load) =
      if zeros ∧ h.pFilesz < h.pMemsz then (Job.zero (dst + h.pFilesz) (h.pMemsz - h.pFilesz)).run
      else pure () := by
  rw [Load.setZero]
  by_cases hlt : h.pFilesz < h.pMemsz
  · rw [bytesToRead_eq hload hlt.le]
    by_cases hz : zeros
    · have hend := (hzero ⟨hz, hlt⟩).2
      have hset : h.bytesToSet h.pFilesz load = h.pMemsz - h.pFilesz := by
        rw [Phdr.bytesToSet, hload, if_pos hz, if_neg (by omega), u32sub_of_le (by omega) hlt.le,
          if_pos (le_refl _)]
      have hu : u32 (dst + h.pFilesz) = dst + h.pFilesz := u32_of_lt (by omega)
      rw [hset, hu, if_pos ⟨hlt, by omega, by omega⟩, if_pos ⟨hz, hlt⟩]
      rfl
    · have hset : h.bytesToSet h.pFilesz load = 0 := by
        rw [Phdr.bytesToSet, hload, if_neg hz, if_pos (le_refl _)]
      rw [hset, if_neg (fun hc => hc.2.2 rfl), if_neg (fun hc => hz hc.1)]
  · rw [if_neg fun hc => hlt hc.1, if_neg fun hc => hlt hc.2]

/-- A segment is loaded by its two jobs. -/
theorem genericSegment_jobs (hload : load = if zeros then h.pMemsz else h.pFilesz)
    (hfile : h.pFilesz ≠ 0 ∧ h.pFilesz ≤ h.pMemsz → (Job.copy (elfAddr + h.pOffset) dst h.pFilesz).Plain)
    (hzero : zeros ∧ h.pFilesz < h.pMemsz → (Job.zero (dst + h.pFilesz) (h.pMemsz - h.pFilesz)).Plain) (s : Boot) :
    Load.bootElfLoadGenericSegment elfAddr h 0 dst load s =
      runJobs ((if h.pFilesz ≠ 0 ∧ h.pFilesz ≤ h.pMemsz then [.copy (elfAddr + h.pOffset) dst h.pFilesz] else []) ++
        (if zeros ∧ h.pFilesz < h.pMemsz then [.zero (dst + h.pFilesz) (h.pMemsz - h.pFilesz)] else [])) s := by
  rw [runJobs_append, Load.bootElfLoadGenericSegment, readFile_eq hload hfile, setZero_eq hload hzero, Cmd.bind_apply, Cmd.bind_apply, runJobs_ite]
  simp only [runJobs_ite]

end Segment

/-- A header is loaded by its jobs. -/
theorem loadHeader_jobs {elfAddr : ℕ} {type : ElfLoadType} {h : Phdr} (hp : ∀ j ∈ h.jobs elfAddr type, j.Plain)
    (s : Boot) : Load.bootElfLoadHeader elfAddr type h s = runJobs (h.jobs elfAddr type) s := by
  by_cases hsel : h.Selected type
  · -- the two parts of a selected header are jobs of it
    have hfile : h.pFilesz ≠ 0 ∧ h.pFilesz ≤ h.pMemsz → (h.filePart elfAddr type).Plain := by
      intro hc
      refine hp _ ?_
      rw [Phdr.jobs, if_pos hsel, if_pos hc]
      exact List.mem_append_left _ (List.mem_singleton.mpr rfl)
    have hzero : type ≠ .copy ∧ h.pFilesz < h.pMemsz → (h.zeroPart type).Plain := by
      intro hc
      refine hp _ ?_
      rw [Phdr.jobs, if_pos hsel, if_pos hc]
      exact List.mem_append_right _ (List.mem_singleton.mpr rfl)
    rw [Load.bootElfLoadHeader, if_pos hsel.1, Phdr.jobs, if_pos hsel]
    by_cases hcopy : type = .copy
    · rw [if_neg (not_not.mpr hcopy)]
      have hdest : h.dest type = h.pPaddr := if_pos hcopy
      rw [Phdr.filePart, hdest] at hfile
      rw [Phdr.zeroPart, hdest] at hzero
      rw [Phdr.filePart, Phdr.zeroPart, hdest]
      exact genericSegment_jobs (by rw [if_neg (not_not.mpr hcopy)]) hfile hzero s
    · have hdest : h.dest type = h.pVaddr := if_neg hcopy
      rw [if_pos hcopy, if_pos (hsel.2.resolve_left hcopy)]
      rw [Phdr.filePart, hdest] at hfile
      rw [Phdr.zeroPart, hdest] at hzero
      rw [Phdr.filePart, Phdr.zeroPart, hdest]
      exact genericSegment_jobs (by rw [if_pos hcopy]) hfile hzero s
  · rw [Phdr.jobs, if_neg hsel, Load.bootElfLoadHeader, runJobs]
    by_cases ht : h.pType = 1
    · have hno : ¬(type = .copy ∨ (type = .ram ∧ h.pVaddr < frnRamEnd) ∨ type = .full) := fun hc => hsel ⟨ht, hc⟩
      rw [if_pos ht, if_pos fun hc => hno (.inl hc), if_neg fun hc => hno (.inr hc)]
    · rw [if_neg ht]

/-- The jobs of an image, in the order of its headers. -/
def imageJobs (elfAddr : ℕ) (type : ElfLoadType) (hdrs : List Phdr) : List Job :=
  hdrs.flatMap fun h => h.jobs elfAddr type

theorem loadImage_jobs {elfAddr : ℕ} {type : ElfLoadType} (he : elfAddr ≠ 0) : ∀ (hdrs : List Phdr),
    (∀ j ∈ imageJobs elfAddr type hdrs, j.Plain) → ∀ s : Boot,
    Load.bootElfLoadImage elfAddr type hdrs s = runJobs (imageJobs elfAddr type hdrs) s
  | [], _, s => by
    rw [Load.bootElfLoadImage, if_neg he]
    rfl
  | h :: hdrs, hp, s => by
    have hcons : imageJobs elfAddr type (h :: hdrs) = h.jobs elfAddr type ++ imageJobs elfAddr type hdrs :=
      List.flatMap_cons
    rw [hcons] at hp
    rw [Load.bootElfLoadImage, if_neg he, hcons, runJobs_append, Cmd.bind_apply, Cmd.bind_apply,
      loadHeader_jobs fun j hj => hp j (List.mem_append_left _ hj)]
    rcases runJobs (h.jobs elfAddr type) s with ⟨e | u, s₁⟩
    · rfl
    · exact loadImage_jobs he hdrs (fun j hj => hp j (List.mem_append_right _ hj)) s₁

/-! ### What a load leaves -/

/-- A load of an image whose jobs are plain and apart. When it returns no error, the file part of every
    selected segment that is no larger than the segment and that the windows cover is in its place, the
    rest of the segment is zero where a window covers it, and every byte outside these parts is as it was:
    a part that no window covers is skipped. -/
theorem elf_load_complete (s s' : Boot) (elfAddr : ℕ) (type : ElfLoadType) (hdrs : List Phdr)
    (hp : ∀ j ∈ imageJobs elfAddr type hdrs, j.Plain) (ha : Apart (imageJobs elfAddr type hdrs))
    (h : Load.bootElfLoadImage elfAddr type hdrs s = (.ok (), s')) :
    (∀ hdr ∈ hdrs, hdr.Selected type →
      (hdr.pFilesz ≤ hdr.pMemsz → (hdr.filePart elfAddr type).Covered → ∀ i < hdr.pFilesz,
        s'.byte (hdr.dest type + i) = s.imageByte (elfAddr + hdr.pOffset + i)) ∧
      (type ≠ .copy → (hdr.zeroPart type).Covered → ∀ i, hdr.pFilesz ≤ i → i < hdr.pMemsz →
        s'.byte (hdr.dest type + i) = 0)) ∧
    (∀ x, (∀ j ∈ imageJobs elfAddr type hdrs, j.Covered → x ∉ j.target) → s'.byte x = s.byte x) ∧
    s'.flash = s.flash := by
  have he : elfAddr ≠ 0 := by
    rintro rfl
    cases hdrs with
    | nil => cases congrArg Prod.fst h
    | cons hdr hdrs => cases congrArg Prod.fst h
  rw [loadImage_jobs he hdrs hp] at h
  obtain ⟨hfill, hrest, hflash⟩ := runJobs_spec _ s s' hp ha h
  refine ⟨fun hdr hm hsel => ⟨fun hle hcov i hi => ?_, fun hcopy hcov i h₁ h₂ => ?_⟩, hrest, hflash⟩
  · have hj : hdr.filePart elfAddr type ∈ imageJobs elfAddr type hdrs := by
      refine List.mem_flatMap.mpr ⟨hdr, hm, ?_⟩
      rw [Phdr.jobs, if_pos hsel, if_pos ⟨by omega, hle⟩]
      exact List.mem_append_left _ (List.mem_singleton.mpr rfl)
    have hx : hdr.dest type + i ∈ (hdr.filePart elfAddr type).target := ⟨Nat.le_add_right _ _, Nat.add_lt_add_left hi _⟩
    rw [hfill _ hj hcov _ hx, Phdr.filePart, Job.value, Nat.add_sub_cancel_left]
  · have hj : hdr.zeroPart type ∈ imageJobs elfAddr type hdrs := by
      refine List.mem_flatMap.mpr ⟨hdr, hm, ?_⟩
      rw [Phdr.jobs, if_pos hsel, if_pos (⟨hcopy, by omega⟩ : type ≠ .copy ∧ hdr.pFilesz < hdr.pMemsz)]
      exact List.mem_append_right _ (List.mem_singleton.mpr rfl)
    have hx : hdr.dest type + i ∈ (hdr.zeroPart type).target := by
      rw [Phdr.zeroPart, Job.target, Range.mem_mk]
      omega
    rw [hfill _ hj hcov _ hx]
    rfl

/-- A segment of four bytes in flash and eight in RAM. -/
def smallHdr : Phdr := ⟨1, 0x1000, 0x2000, 0x2000, 4, 8⟩

theorem smallHdr_jobs : imageJobs 0xA00000 .full [smallHdr] = [.copy 0xA01000 0x2000 4, .zero 0x2004 4] := by decide

theorem smallHdr_plain : ∀ j ∈ imageJobs 0xA00000 .full [smallHdr], j.Plain := by
  rw [smallHdr_jobs]
  intro j hj
  simp only [List.mem_cons, List.not_mem_nil, or_false] at hj
  rcases hj with rfl | rfl
  · exact ⟨by decide, by decide, by decide, fun h => absurd h (by decide), fun _ h => absurd h (by decide)⟩
  · exact ⟨by decide, by decide⟩

theorem smallHdr_apart : Apart (imageJobs 0xA00000 .full [smallHdr]) := by
  rw [smallHdr_jobs]
  refine ⟨List.pairwise_pair.mpr fun _ _ => Range.disj_of_le (by decide), ?_⟩
  intro i hi j hj _ _
  simp only [List.mem_cons, List.not_mem_nil, or_false] at hi hj
  rcases hi with rfl | rfl
  · rcases hj with rfl | rfl
    · exact (Range.disj_of_le (by decide)).symm
    · exact (Range.disj_of_le (by decide)).symm
  · rcases hj with rfl | rfl
    · exact Range.disj_of_le (by decide)
    · exact Range.disj_of_le (by decide)

/-- The small segment is loaded: four bytes of flash, four zeros, and the byte after them as it was. -/
theorem elf_load_complete_small :
    (Load.bootElfLoadImage 0xA00000 .full [smallHdr] smallBoot).1 = .ok () ∧
    (∀ i < 4, (Load.bootElfLoadImage 0xA00000 .full [smallHdr] smallBoot).2.byte (0x2000 + i) =
      smallBoot.imageByte (0xA00000 + 0x1000 + i)) ∧
    (Load.bootElfLoadImage 0xA00000 .full [smallHdr] smallBoot).2.byte 0x2008 = smallBoot.byte 0x2008 := by
  have hok : (Load.bootElfLoadImage 0xA00000 .full [smallHdr] smallBoot).1 = .ok () := by decide
  rcases hc : Load.bootElfLoadImage 0xA00000 .full [smallHdr] smallBoot with ⟨r, s'⟩
  rw [hc] at hok
  obtain rfl : r = .ok () := hok
  obtain ⟨hseg, hrest, -⟩ := elf_load_complete smallBoot s' 0xA00000 .full [smallHdr] smallHdr_plain
    smallHdr_apart hc
  refine ⟨rfl, (hseg smallHdr List.mem_cons_self (by decide)).1 (by decide) ?_, hrest 0x2008 ?_⟩
  · exact ⟨.inr (by decide), .inl (by decide)⟩
  · rw [smallHdr_jobs]
    intro j hj _
    simp only [List.mem_cons, List.not_mem_nil, or_false] at hj
    rcases hj with rfl | rfl <;> decide

/-- Every selected segment is inside RAM or RRAM and loaded at its virtual address. -/
def Boot.LoadsAll (s : Boot) (elfAddr : ℕ) (type : ElfLoadType) (hdrs : List Phdr) : Prop :=
  ∀ s', Load.bootElfLoadImage elfAddr type hdrs s = (.ok (), s') → ∀ hdr ∈ hdrs, hdr.Selected type →
    (hdr.pVaddr + hdr.pMemsz ≤ 0xA0000 ∨ 0x200000 ≤ hdr.pVaddr ∧ hdr.pVaddr + hdr.pMemsz ≤ 0x380000) ∧
    (∀ i < hdr.pFilesz, s'.byte (hdr.pVaddr + i) = s.imageByte (elfAddr + hdr.pOffset + i)) ∧
    ∀ i, hdr.pFilesz ≤ i → i < hdr.pMemsz → s'.byte (hdr.pVaddr + i) = 0

/-- A full load skips a segment outside RAM and RRAM without an error; a copy takes a segment to its
    physical address and not to its virtual one. -/
theorem outside_skipped_and_copy_to_paddr :
    ¬smallBoot.LoadsAll 0xA00000 .full [⟨1, 0x1000, 0x10000000, 0x10000000, 4, 8⟩] ∧
    ¬smallBoot.LoadsAll 0xA00000 .copy [⟨1, 0x1000, 0x2000, 0x4000, 4, 4⟩] := by
  constructor
  · intro h
    have hok : (Load.bootElfLoadImage 0xA00000 .full [⟨1, 0x1000, 0x10000000, 0x10000000, 4, 8⟩] smallBoot).1 =
        .ok () := by decide
    rcases hc : Load.bootElfLoadImage 0xA00000 .full [⟨1, 0x1000, 0x10000000, 0x10000000, 4, 8⟩] smallBoot
      with ⟨r, s'⟩
    rw [hc] at hok
    obtain rfl : r = .ok () := hok
    have hin := (h s' hc _ List.mem_cons_self (by decide)).1
    exact absurd hin (by decide)
  · intro h
    have hok : (Load.bootElfLoadImage 0xA00000 .copy [⟨1, 0x1000, 0x2000, 0x4000, 4, 4⟩] smallBoot).1 =
        .ok () := by decide
    have hkept : (Load.bootElfLoadImage 0xA00000 .copy [⟨1, 0x1000, 0x2000, 0x4000, 4, 4⟩] smallBoot).2.byte 0x2000 =
        0 := by decide
    rcases hc : Load.bootElfLoadImage 0xA00000 .copy [⟨1, 0x1000, 0x2000, 0x4000, 4, 4⟩] smallBoot with ⟨r, s'⟩
    rw [hc] at hok hkept
    obtain rfl : r = .ok () := hok
    have hbyte : s'.byte 0x2000 = 2 := (h s' hc _ List.mem_cons_self (by decide)).2.1 0 (by decide)
    rw [show s'.byte 0x2000 = 0 from hkept] at hbyte
    exact absurd hbyte (by decide)

end Qcc730.Sbl
