import Qcc730.Rram.Write

/-! Calibration data in RRAM (`nt_caldata_write`, `nt_get_caldata` in `nt_mem.c`).

    Both add the offset to a pointer to 32-bit words, so they go to the address `4 * offset` bytes after the
    start of the calibration area, and both compare a 32-bit sum with the length of the area. -/

namespace Qcc730.Rram
open Lib

/-- `_ln_CAL_Data_length` -/
@[simp] abbrev calDataLength : ℕ := 12288

/-- The section `.cal_data`: where the linker puts it in `RRAM_RW`. -/
structure CalArea where
  /-- `_ln_CAL_Start_Addr` -/
  start : ℕ
  aligned : start % 16 = 0
  low : 0x21A400 ≤ start
  high : start + calDataLength ≤ 0x250000

/-- `cal_address + offset`, on a `uint32_t *`. -/
def CalArea.address (c : CalArea) (offset : ℕ) : ℕ := u32 (c.start + 4 * offset)

/-- The test of both functions on a buffer that is not `NULL`. -/
def CalAccepted (offset length : ℕ) : Prop := length ≠ 0 ∧ u32 (length + offset) ≤ calDataLength

instance (o n : ℕ) : Decidable (CalAccepted o n) := inferInstanceAs (Decidable (_ ∧ _))

/-- `nt_caldata_write`; `src` is the address of `wcal`. -/
def ntCaldataWrite (c : CalArea) (engine : ℕ → Attempt) (src : ℕ) (wcal : Bytes) (offset : ℕ) :
    Cmd RramState Errno Unit :=
  if src ≠ 0 ∧ CalAccepted offset wcal.length then ntRramWrite engine (c.address offset) src wcal
  else Cmd.fail .eperm

/-- `nt_get_caldata`; `dst` is the address of `rcal`. -/
def ntGetCaldata (c : CalArea) (cells : Memory) (dst offset length : ℕ) : Except Errno Bytes :=
  if dst ≠ 0 ∧ CalAccepted offset length then ntRramRead cells (c.address offset) length
  else .error .eperm

/-- Calibration data at this offset and of this length is written and read byte by byte, inside the area, and is
    read as it was written. -/
def CalExact (c : CalArea) (offset n : ℕ) : Prop :=
  (∀ (engine : ℕ → Attempt) (s : RramState) (src : ℕ) (wcal : Bytes), wcal.length = n →
    (ntCaldataWrite c engine src wcal offset s).1 = .ok () →
    (ntCaldataWrite c engine src wcal offset s).2.cells = s.cells.store (c.start + offset) wcal ∧
      offset + n ≤ calDataLength ∧
      ∀ dst ≠ 0, ntGetCaldata c (ntCaldataWrite c engine src wcal offset s).2.cells dst offset n = .ok wcal) ∧
  ∀ (m : Memory) (dst : ℕ) (b : Bytes), ntGetCaldata c m dst offset n = .ok b →
    b = m.read (c.start + offset) n ∧ offset + n ≤ calDataLength

theorem ntRramRead_main (m : Memory) {a l : ℕ} (h0 : l ≠ 0) (h₁ : 0x200000 ≤ a) (h₂ : a + l < 0x380000) :
    ntRramRead m a l = .ok (m.read a l) := by
  rw [ntRramRead, if_neg h0, if_pos (check_main m .readLocked h₁ h₂)]

/-- At offset 0 the pointer arithmetic makes no difference. -/
theorem calExact_zero (c : CalArea) (n : ℕ) (hn : n < 2 ^ 32) : CalExact c 0 n := by
  have hlow := c.low
  have hhigh := c.high
  have haddr : c.address 0 = c.start := u32_of_lt (by omega)
  have hin : CalAccepted 0 n → n ≤ calDataLength := by
    rintro ⟨-, h⟩
    rw [Nat.add_zero, u32_of_lt hn] at h
    exact h
  constructor
  · rintro engine s src wcal rfl hok
    rw [ntCaldataWrite, haddr] at hok ⊢
    by_cases hacc : src ≠ 0 ∧ CalAccepted 0 wcal.length
    · have hle := hin hacc.2
      rw [if_pos hacc] at hok ⊢
      have hkept : WindowsKept s.cells s.buff c.start src wcal := windowsKept_main _ _ _ (by omega) (by omega)
      have hcells := ntRramWrite_cells (by omega) hok
      rw [(written_exact _ _ _ _ _).mpr hkept] at hcells
      refine ⟨hcells, by rw [Nat.zero_add]; exact hle, fun dst hdst => ?_⟩
      rw [ntGetCaldata, if_pos ⟨hdst, hacc.2⟩, haddr, hcells, ntRramRead_main _ hacc.2.1 (by omega) (by omega),
        Memory.read_store]
    · rw [if_neg hacc] at hok
      exact absurd hok (by simp)
  · intro m dst b hget
    rw [ntGetCaldata, haddr] at hget
    by_cases hacc : dst ≠ 0 ∧ CalAccepted 0 n
    · have hle := hin hacc.2
      rw [if_pos hacc, ntRramRead_main _ hacc.2.1 (by omega) (by omega)] at hget
      exact ⟨(Except.ok.inj hget).symm, by rw [Nat.zero_add]; exact hle⟩
    · rw [if_neg hacc] at hget
      exact absurd hget (by simp)

/-- An accepted offset leads into main RRAM, four times as far as it says; the sums may have wrapped around. -/
theorem ntGetCaldata_ok (c : CalArea) (m : Memory) {dst offset n : ℕ} (ho : offset < 65536) (hn : n < 2 ^ 32)
    (hdst : dst ≠ 0) (hacc : CalAccepted offset n) :
    ntGetCaldata c m dst offset n = .ok (m.read (c.start + 4 * offset) n) := by
  have hlow := c.low
  have hhigh : c.start + calDataLength ≤ 0x250000 := c.high
  have haddr : c.address offset = c.start + 4 * offset := u32_of_lt (by omega)
  have hsum : u32 (n + offset) ≤ calDataLength := hacc.2
  have hcheck : rramAddressRangeCheck m (c.start + 4 * offset) n .readLocked = true := by
    refine check_main_ends m .readLocked (mainChk_iff.mpr (by omega)) (mainChk_iff.mpr ?_)
    rcases Nat.lt_or_ge (n + offset) (2 ^ 32) with hw | hw
    · rw [u32_of_lt hw] at hsum
      rw [u32_of_lt (by omega)]
      omega
    · -- both sums wrap around once
      have hwrap : u32 (n + offset) = n + offset - 2 ^ 32 := by
        simp only [u32]
        omega
      have hend : u32 (c.start + 4 * offset + n) = c.start + 4 * offset + n - 2 ^ 32 := by
        simp only [u32]
        omega
      rw [hend]
      omega
  rw [ntGetCaldata, if_pos ⟨hdst, hacc⟩, haddr, ntRramRead, if_neg hacc.1, if_pos hcheck]

/-- Calibration data is accessed by bytes, inside its area, exactly at offset 0. -/
theorem caldata_exact_iff (c : CalArea) (offset n : ℕ) (ho : offset < 65536) (hn : n < 2 ^ 32) :
    CalExact c offset n ↔ (CalAccepted offset n → offset = 0) := by
  constructor
  · rintro ⟨-, hread⟩ hacc
    by_contra hne
    -- a memory with a single 1, at the address the offset stands for
    set m : Memory := fun x => if x = c.start + offset then 1 else 0
    obtain ⟨heq, -⟩ := hread m 1 _ (ntGetCaldata_ok c m ho hn (by decide) hacc)
    have h0 : 0 < n := Nat.pos_of_ne_zero hacc.1
    have hfirst := congrArg (fun b : Bytes => b.getD 0 0) heq
    rw [Memory.getD_read m h0, Memory.getD_read m h0, Nat.add_zero, Nat.add_zero] at hfirst
    have hread : m (c.start + 4 * offset) = 0 := if_neg (by omega)
    have hmeant : m (c.start + offset) = 1 := if_pos rfl
    rw [hread, hmeant] at hfirst
    exact absurd hfirst (by decide)
  · intro hzero
    by_cases hacc : CalAccepted offset n
    · rw [hzero hacc]
      exact calExact_zero c n hn
    · constructor
      · rintro engine s src wcal rfl hok
        rw [ntCaldataWrite, if_neg fun h => hacc h.2] at hok
        exact absurd hok (by simp)
      · intro m dst b hget
        rw [ntGetCaldata, if_neg fun h => hacc h.2] at hget
        exact absurd hget (by simp)

/-- The calibration area of an image whose vectors and regulatory data take 32 KB. -/
def smallCalArea : CalArea := ⟨0x222400, by decide, by decide, by decide⟩

/-- The whole area is accessed as it should be. -/
theorem caldata_exact_whole : CalExact smallCalArea 0 calDataLength :=
  (caldata_exact_iff smallCalArea 0 calDataLength (by decide) (by decide)).mpr fun _ => rfl

/-- One byte at offset 1 is read and written three bytes further on. -/
theorem caldata_offset_scaled : ¬CalExact smallCalArea 1 1 := by
  rintro ⟨-, hread⟩
  have hget : ntGetCaldata smallCalArea (fun x => if x = 0x222401 then 1 else 0) 1 1 1 = .ok [0] := by decide +kernel
  obtain ⟨hb, -⟩ := hread _ 1 _ hget
  exact absurd hb (by decide)

end Qcc730.Rram
