import Qcc730.Flash.Descriptor
import Qcc730.Lib.Trace
import Qcc730.Lib.Cmd

/-! The non-volatile memories of the device and the drivers that change them.

    `drv_flash_write` programs page by page and `drv_flash_erase` erases block by block, so each
    page and each block is one write of the log: a power loss can fall between any two of them.
    The drivers' bounds checks are the source's, with its 32-bit arithmetic. Flash commands whose
    parameters pass the checks are taken to succeed. -/

namespace Qcc730.Flash
open Lib

/-- Flash, RRAM image bytes, and the FDT of RRAM. -/
structure Mem where
  flash : Memory
  rram : Memory
  fdt : Fdt

/-- One indivisible write to non-volatile memory. -/
inductive Write where
  /-- erase the 4 KB flash block at `addr` -/
  | erase (addr : ℕ)
  /-- program bytes inside one flash page -/
  | program (addr : ℕ) (data : Bytes)
  /-- store bytes in RRAM -/
  | rram (addr : ℕ) (data : Bytes)
  /-- replace an entry of the FDT -/
  | fde (idx : ℕ) (entry : FdtEntry)
  deriving DecidableEq

/-- The flash addresses a write may change. -/
def Write.flashRange : Write → Range
  | .erase a => ⟨a, 4096⟩
  | .program a d => ⟨a, d.length⟩
  | _ => ⟨0, 0⟩

/-- The RRAM image addresses a write may change. -/
def Write.rramRange : Write → Range
  | .rram a d => ⟨a, d.length⟩
  | _ => ⟨0, 0⟩

/-- The memory after one write. -/
def Mem.app (m : Mem) : Write → Mem
  | .erase a => { m with flash := m.flash.erase a 4096 }
  | .program a d => { m with flash := m.flash.program a d }
  | .rram a d => { m with rram := m.rram.store a d }
  | .fde i e => { m with fdt := { m.fdt with fde := Function.update m.fdt.fde i e } }

theorem Mem.app_flash_out {m : Mem} {w : Write} {x : ℕ} (h : x ∉ w.flashRange) :
    (m.app w).flash x = m.flash x := by
  cases w with
  | erase a => exact Memory.erase_out (by rw [Write.flashRange, Range.mem_mk] at h; omega)
  | program a d => exact Memory.program_out (by rw [Write.flashRange, Range.mem_mk] at h; omega)
  | rram a d => rfl
  | fde i e => rfl

theorem Mem.app_rram_out {m : Mem} {w : Write} {x : ℕ} (h : x ∉ w.rramRange) :
    (m.app w).rram x = m.rram x := by
  cases w with
  | rram a d => exact Memory.store_out (by rw [Write.rramRange, Range.mem_mk] at h; omega)
  | erase a => rfl
  | program a d => rfl
  | fde i e => rfl

/-- A flash byte outside the range of every write is the same after them. -/
theorem Mem.replay_flash_out {m : Mem} {ws : List Write} {x : ℕ} (h : ∀ w ∈ ws, x ∉ w.flashRange) :
    (replay Mem.app m ws).flash x = m.flash x :=
  replay_frame Mem.app (fun t => t.flash x) fun w hw _ => Mem.app_flash_out (h w hw)

theorem Mem.replay_rram_out {m : Mem} {ws : List Write} {x : ℕ} (h : ∀ w ∈ ws, x ∉ w.rramRange) :
    (replay Mem.app m ws).rram x = m.rram x :=
  replay_frame Mem.app (fun t => t.rram x) fun w hw _ => Mem.app_rram_out (h w hw)

/-- Writes that are not to the FDT leave it alone. -/
theorem Mem.replay_fdt {m : Mem} {ws : List Write} (h : ∀ w ∈ ws, ∀ i e, w ≠ .fde i e) :
    (replay Mem.app m ws).fdt = m.fdt := by
  refine replay_frame Mem.app (fun t => t.fdt) ?_
  intro w hw t
  cases w with
  | fde i e => exact absurd rfl (h _ hw i e)
  | erase a => rfl
  | program a d => rfl
  | rram a d => rfl

/-- The FWD of flash block `sector`. -/
def Mem.fwd (m : Mem) (sector : ℕ) : Fwd := Fwd.decode m.flash (sector * 4096)

theorem Mem.fwd_congr {m m' : Mem} {s : ℕ}
    (h : ∀ x ∈ (⟨s * 4096, 512⟩ : Range), m.flash x = m'.flash x) : m.fwd s = m'.fwd s :=
  Fwd.decode_congr fun i hi => h _ (Range.mem_mk.mpr (by omega))

/-- The device: its memories, the log of writes made to them, the flash size in blocks and the
    address check of the RRAM driver (`rram_address_range_check`). -/
structure Dev where
  mem : Mem
  log : List Write
  densityInBlocks : ℕ
  rramOk : ℕ → ℕ → Bool

/-- Make the writes `ws`. -/
def Dev.writes (d : Dev) (ws : List Write) : Dev :=
  { d with mem := replay Mem.app d.mem ws, log := d.log ++ ws }

@[simp] theorem Dev.writes_mem (d : Dev) (ws : List Write) :
    (d.writes ws).mem = replay Mem.app d.mem ws := rfl

@[simp] theorem Dev.writes_log (d : Dev) (ws : List Write) : (d.writes ws).log = d.log ++ ws := rfl

@[simp] theorem Dev.writes_density (d : Dev) (ws : List Write) :
    (d.writes ws).densityInBlocks = d.densityInBlocks := rfl

@[simp] theorem Dev.writes_rramOk (d : Dev) (ws : List Write) : (d.writes ws).rramOk = d.rramOk := rfl

theorem Dev.writes_nil (d : Dev) : d.writes [] = d := by simp [Dev.writes]

theorem Dev.writes_append (d : Dev) (ws vs : List Write) :
    d.writes (ws ++ vs) = (d.writes ws).writes vs := by
  simp [Dev.writes, replay_append, List.append_assoc]

/-! ### The flash driver -/

inductive FlashStatus where
  | invalidParameter
  | deviceFail
  deriving DecidableEq, Repr

/-- `drv_flash_read`/`drv_flash_write`: the range must be non-empty, not wrap and lie in the device. -/
def Dev.InFlash (d : Dev) (address byteCnt : ℕ) : Prop :=
  byteCnt ≠ 0 ∧ ¬u32 (address + byteCnt) < address ∧
    u32 (address + byteCnt) ≤ u32 (d.densityInBlocks * 4096)

instance (d : Dev) (a n : ℕ) : Decidable (d.InFlash a n) :=
  inferInstanceAs (Decidable (_ ∧ _ ∧ _))

/-- `drv_flash_read`: what the caller reads off the transferred bytes is given by `dst`. -/
def drvFlashRead {α : Type} (address byteCnt : ℕ) (dst : Memory → α) : Cmd Dev FlashStatus α := fun d =>
  if d.InFlash address byteCnt then (.ok (dst d.mem.flash), d) else (.error .invalidParameter, d)

theorem drvFlashRead_congr {α : Type} {d d' : Dev} (a n : ℕ) (dst : Memory → α)
    (hf : d'.mem.flash = d.mem.flash) (hn : d'.densityInBlocks = d.densityInBlocks) :
    (drvFlashRead a n dst d').1 = (drvFlashRead a n dst d).1 := by
  have hi : d'.InFlash a n ↔ d.InFlash a n := by simp only [Dev.InFlash, hn]
  by_cases h : d.InFlash a n
  · rw [drvFlashRead, drvFlashRead, if_pos h, if_pos (hi.mpr h), hf]
  · rw [drvFlashRead, drvFlashRead, if_neg h, if_neg (mt hi.mp h)]

/-- The page loop of `drv_flash_write`; the fuel is the number of bytes left. -/
def pages : ℕ → ℕ → Bytes → List Write
  | 0, _, _ => []
  | _ + 1, _, [] => []
  | n + 1, a, b :: bs =>
    let byteCnt := (b :: bs).length
    let transferSize := if a % 256 ≠ 0 then min (256 - a % 256) byteCnt else min 256 byteCnt
    .program a ((b :: bs).take transferSize) :: pages n (a + transferSize) ((b :: bs).drop transferSize)

/-- `drv_flash_write`. -/
def drvFlashWrite (address : ℕ) (buffer : Bytes) : Cmd Dev FlashStatus Unit := fun d =>
  if d.InFlash address buffer.length then (.ok (), d.writes (pages buffer.length address buffer))
  else (.error .invalidParameter, d)

/-- The block loop of `drv_flash_erase`. -/
def eraseBlocks (start cnt : ℕ) : List Write :=
  (List.range cnt).map fun i => .erase (start * 4096 + i * 4096)

/-- `drv_flash_erase` with `FLASH_BLOCK_ERASE_E`. -/
def drvFlashErase (start cnt : ℕ) : Cmd Dev FlashStatus Unit := fun d =>
  if cnt = 0 ∨ u32 ((start + cnt) * 4096) < u32 (start * 4096) ∨
      u32 ((start + cnt) * 4096) > u32 (d.densityInBlocks * 4096) then
    (.error .invalidParameter, d)
  else (.ok (), d.writes (eraseBlocks start cnt))

/-- `nt_rram_write`: data outside the checked range is refused, otherwise the bytes are stored. -/
def ntRramWrite (dst : ℕ) (wdata : Bytes) : Cmd Dev FlashStatus Unit := fun d =>
  if wdata.length = 0 then (.error .invalidParameter, d)
  else if d.rramOk dst wdata.length then (.ok (), d.writes [.rram dst wdata])
  else (.error .deviceFail, d)

/-- `nt_rram_read`. -/
def ntRramRead (address length : ℕ) : Cmd Dev FlashStatus Bytes := fun d =>
  if length = 0 then (.error .invalidParameter, d)
  else if d.rramOk address length then (.ok (d.mem.rram.read address length), d)
  else (.error .deviceFail, d)

/-! ### What the drivers write -/

/-- Every page write stays in the range of the call. -/
theorem pages_sub : ∀ (n a : ℕ) (bs : Bytes), ∀ w ∈ pages n a bs,
    w.flashRange.Sub ⟨a, bs.length⟩ ∧ w.rramRange = ⟨0, 0⟩ ∧ ∀ i e, w ≠ .fde i e
  | 0, _, _, w, hw => by simp [pages] at hw
  | _ + 1, _, [], w, hw => by simp [pages] at hw
  | n + 1, a, b :: bs, w, hw => by
    rw [pages] at hw
    set k := if a % 256 ≠ 0 then min (256 - a % 256) (b :: bs).length else min 256 (b :: bs).length
      with hk
    have hkl : k ≤ (b :: bs).length := by rw [hk]; split <;> omega
    rcases List.mem_cons.mp hw with rfl | hw
    · refine ⟨Range.sub_of_le (le_refl _) ?_, rfl, by simp⟩
      simp only [Write.flashRange, List.length_take]; omega
    · obtain ⟨h₁, h₂⟩ := pages_sub n (a + k) ((b :: bs).drop k) w hw
      refine ⟨h₁.trans (Range.sub_of_le (by simp) ?_), h₂⟩
      simp only [List.length_drop]; omega

/-- The pages together program the whole buffer. -/
theorem replay_pages : ∀ (n a : ℕ) (bs : Bytes) (m : Mem), bs.length ≤ n →
    replay Mem.app m (pages n a bs) = { m with flash := m.flash.program a bs }
  | 0, a, bs, m, h => by
    have hb : bs = [] := List.length_eq_zero_iff.mp (by omega)
    subst hb
    simp [pages]
  | n + 1, a, [], m, _ => by simp [pages]
  | n + 1, a, b :: bs, m, h => by
    rw [pages]
    set k := if a % 256 ≠ 0 then min (256 - a % 256) (b :: bs).length else min 256 (b :: bs).length
      with hk
    have hl : (b :: bs).length = bs.length + 1 := rfl
    have hkl : k ≤ (b :: bs).length ∧ 0 < k := by
      rw [hk]; split <;> constructor <;> omega
    rw [replay_cons, replay_pages n _ _ _ (by simp only [List.length_drop]; omega)]
    simp only [Mem.app, Memory.program_take_drop _ _ _ _ hkl.1]

theorem eraseBlocks_sub {start cnt : ℕ} {w : Write} (hw : w ∈ eraseBlocks start cnt) :
    w.flashRange.Sub ⟨start * 4096, cnt * 4096⟩ ∧ w.rramRange = ⟨0, 0⟩ ∧ ∀ i e, w ≠ .fde i e := by
  obtain ⟨i, hi, rfl⟩ := List.mem_map.mp hw
  have hi' : i < cnt := List.mem_range.mp hi
  exact ⟨Range.sub_of_le (by simp [Write.flashRange]) (by simp only [Write.flashRange]; omega), rfl, by simp⟩

theorem eraseBlocks_succ (start cnt : ℕ) :
    eraseBlocks start (cnt + 1) = eraseBlocks start cnt ++ [.erase (start * 4096 + cnt * 4096)] := by
  simp [eraseBlocks, List.range_succ]

/-- The erased blocks together are one erased range. -/
theorem replay_eraseBlocks (start cnt : ℕ) (m : Mem) :
    replay Mem.app m (eraseBlocks start cnt) =
      { m with flash := m.flash.erase (start * 4096) (cnt * 4096) } := by
  induction cnt with
  | zero => simp only [eraseBlocks, List.range_zero, List.map_nil, replay_nil, Nat.zero_mul, Memory.erase_zero]
  | succ n ih =>
    rw [eraseBlocks_succ, replay_append, ih, replay_cons, replay_nil]
    simp only [Mem.app, Memory.erase_erase, Nat.succ_mul]

end Qcc730.Flash
