import Qcc730.Lib.Bytes

/-! The RRAM half of the NVM programmer: `nvm_rram_write`, `rram_erase`, and the OTP functions beside them.

    The DMA engine takes whole rows of 16 bytes. `rram_write` puts a row that the range covers in part through
    a buffer, reading it first; the full blocks and the whole rows of the last block go as they are. The sibling
    in `nt_mem.c` leaves the transfer of the whole rows out when there are none. Here it is issued with length 0.

    An erase writes 0xFF in slices of 4 KB, after a first row that brings it to a row boundary. -/

namespace Qcc730.Nvm
open Lib

/-- The memory behind the DMA engine and the transfers issued to it, each with destination and length. -/
structure RramState where
  cells : Memory
  transfers : List Range

/-- What the functions return. -/
inductive RramResult where
  | ok
  | errBounds
  deriving DecidableEq, Repr

/-- `RRAM_WRITE_BLOCK_MAX_SIZE` -/
def rramWriteBlockMaxSize : ℕ := 0x3FF0

/-- `rram_block_write`: one transfer. Its wait for the done bit is taken to end, and it then returns 0. A
    transfer of length 0 stores nothing. -/
def rramBlockWrite (destination : ℕ) (source : Bytes) (r : RramState) : RramState :=
  ⟨r.cells.store destination source, r.transfers ++ [⟨destination, source.length⟩]⟩

/-- The loop of `rram_write_unaligned`: data over the row from `offset` on, and how many bytes of it. -/
def fillRow (buffer : Bytes) (offset : ℕ) : Bytes → Bytes × ℕ
  | [] => (buffer, 0)
  | b :: bs =>
    if offset < 16 then
      let f := fillRow (buffer.set offset b) (offset + 1) bs
      (f.1, f.2 + 1)
    else (buffer, 0)

/-- `rram_write_unaligned`: the row of `destination` with data put over it, and how many bytes were taken. -/
def rramWriteUnaligned (destination : ℕ) (source : Bytes) (r : RramState) : ℕ × RramState :=
  let offset := destination % 16
  let row := destination - offset
  let f := fillRow (r.cells.read row 16) offset source
  (f.2, rramBlockWrite row f.1 r)

/-- The loop of `rram_write` over the full blocks, of `size` bytes each. -/
def fullBlocks (size : ℕ) : ℕ → ℕ → Bytes → RramState → RramState
  | 0, _, _, r => r
  | n + 1, dst, src, r => fullBlocks size n (dst + size) (src.drop size) (rramBlockWrite dst (src.take size) r)

/-- The rest of `rram_write`: its whole rows, then the row that is only begun. -/
def partialBlock (dst : ℕ) (src : Bytes) (r : RramState) : RramState :=
  let unaligned := src.length % 16
  let aligned := src.length - unaligned
  let r := rramBlockWrite dst (src.take aligned) r
  if unaligned ≠ 0 then
    let dst := dst + aligned
    rramBlockWrite dst (src.drop aligned ++ r.cells.read (dst + unaligned) (16 - unaligned)) r
  else r

/-- `rram_write` from a row boundary on. -/
def writeRows (dst : ℕ) (src : Bytes) (r : RramState) : RramState :=
  let n := src.length / rramWriteBlockMaxSize
  let r := fullBlocks rramWriteBlockMaxSize n dst src r
  if src.length % rramWriteBlockMaxSize ≠ 0 then
    partialBlock (dst + n * rramWriteBlockMaxSize) (src.drop (n * rramWriteBlockMaxSize)) r
  else r

/-- `rram_write`. It returns the status of `rram_block_write`. -/
def rramWrite (destination : ℕ) (source : Bytes) (r : RramState) : RramState :=
  if destination % 16 ≠ 0 then
    let u := rramWriteUnaligned destination source r
    writeRows (destination + u.1) (source.drop u.1) u.2
  else writeRows destination source r

/-- The loop of `rram_erase`, in slices of the erase buffer; the fuel is at least the length. -/
def eraseSlices : ℕ → ℕ → ℕ → RramState → RramState
  | 0, _, _, r => r
  | n + 1, dstAddr, length, r =>
    if length ≠ 0 then
      let eraseLength := if 4096 ≤ length then 4096 else length
      eraseSlices n (dstAddr + eraseLength) (length - eraseLength)
        (rramWrite dstAddr (List.replicate eraseLength 0xFF) r)
    else r

/-- The address check with the bounds of a region. -/
def VerifyAddress (first last address length : ℕ) : Prop :=
  first ≤ address ∧ address ≤ last ∧ address % 4 = 0 ∧ last - address + 1 ≥ length

instance (f l a n : ℕ) : Decidable (VerifyAddress f l a n) := inferInstanceAs (Decidable (_ ∧ _ ∧ _ ∧ _))

/-- `nvm_rram_verify_address` -/
def NvmRramVerifyAddress (address length : ℕ) : Prop := VerifyAddress 0x200000 0x37FFFF address length

/-- `otp_rram_verify_address` -/
def OtpRramVerifyAddress (address length : ℕ) : Prop := VerifyAddress 0x1A0000 0x1A0FFF address length

/-- `rram_verify_erase_address`: the boot loader at the start of RRAM is never erased. -/
def RramVerifyEraseAddress (address length : ℕ) : Prop := VerifyAddress 0x208000 0x37FFFF address length

instance (a n : ℕ) : Decidable (NvmRramVerifyAddress a n) := inferInstanceAs (Decidable (VerifyAddress _ _ _ _))
instance (a n : ℕ) : Decidable (OtpRramVerifyAddress a n) := inferInstanceAs (Decidable (VerifyAddress _ _ _ _))
instance (a n : ℕ) : Decidable (RramVerifyEraseAddress a n) := inferInstanceAs (Decidable (VerifyAddress _ _ _ _))

/-- `nvm_rram_write` -/
def nvmRramWrite (destination : ℕ) (source : Bytes) (r : RramState) : RramResult × RramState :=
  if NvmRramVerifyAddress destination source.length then (.ok, rramWrite destination source r)
  else (.errBounds, r)

/-- `nvm_rram_read` -/
def nvmRramRead (address length : ℕ) (r : RramState) : RramResult × Bytes :=
  if NvmRramVerifyAddress address length then (.ok, r.cells.read address length) else (.errBounds, [])

/-- `otp_rram_read` -/
def otpRramRead (address length : ℕ) (r : RramState) : RramResult × Bytes :=
  if OtpRramVerifyAddress address length then (.ok, r.cells.read address length) else (.errBounds, [])

/-- `rram_erase` -/
def rramErase (address length : ℕ) (r : RramState) : RramResult × RramState :=
  if RramVerifyEraseAddress address length then
    if address % 16 ≠ 0 then
      let u := rramWriteUnaligned address (List.replicate (if 16 ≤ length then 16 else length) 0xFF) r
      (.ok, eraseSlices length (address + u.1) (length - u.1) u.2)
    else (.ok, eraseSlices length address length r)
  else (.errBounds, r)

/-! ### One transfer -/

/-- A transfer that the engine is built for: whole rows, at least one, and no more than a descriptor takes. -/
def WholeRows (t : Range) : Prop := t.start % 16 = 0 ∧ t.size % 16 = 0 ∧ 0 < t.size ∧ t.size ≤ rramWriteBlockMaxSize

instance (t : Range) : Decidable (WholeRows t) := inferInstanceAs (Decidable (_ ∧ _ ∧ _ ∧ _))

/-- From `r` to `r'` exactly `src` was stored at `dst`, and the transfers issued are all of whole rows if and
    only if `P` holds. -/
def Wrote (r r' : RramState) (dst : ℕ) (src : Bytes) (P : Prop) : Prop :=
  r'.cells = r.cells.store dst src ∧
    ∃ ts, r'.transfers = r.transfers ++ ts ∧ ((∀ t ∈ ts, WholeRows t) ↔ P)

theorem Wrote.nothing (r : RramState) (dst : ℕ) : Wrote r r dst [] True :=
  ⟨(Memory.store_nil _ _).symm, [], (List.append_nil _).symm, by simp⟩

theorem Wrote.congr {r r' : RramState} {dst : ℕ} {src : Bytes} {P Q : Prop} (h : Wrote r r' dst src P)
    (hpq : P ↔ Q) : Wrote r r' dst src Q := by
  obtain ⟨hc, ts, ht, hp⟩ := h
  exact ⟨hc, ts, ht, hp.trans hpq⟩

/-- Two writes one behind the other. -/
theorem Wrote.append {r r' r'' : RramState} {dst n : ℕ} {a b : Bytes} {P Q : Prop} (h : Wrote r r' dst a P)
    (hn : a.length = n) (h' : Wrote r' r'' (dst + n) b Q) : Wrote r r'' dst (a ++ b) (P ∧ Q) := by
  obtain ⟨hc, ts, ht, hp⟩ := h
  obtain ⟨hc', ts', ht', hq⟩ := h'
  refine ⟨by rw [hc', hc, ← hn, Memory.store_append], ts ++ ts', by rw [ht', ht, List.append_assoc], ?_⟩
  rw [List.forall_mem_append, hp, hq]

theorem rramBlockWrite_wrote (dst : ℕ) (src : Bytes) (r : RramState) :
    Wrote r (rramBlockWrite dst src r) dst src (WholeRows ⟨dst, src.length⟩) :=
  ⟨rfl, [⟨dst, src.length⟩], rfl, by simp⟩

/-! ### A row covered in part -/

theorem oneRow_le : 16 ≤ rramWriteBlockMaxSize := by decide

theorem fillRow_length (src : Bytes) : ∀ (buffer : Bytes) (offset : ℕ),
    (fillRow buffer offset src).1.length = buffer.length := by
  induction src with
  | nil => exact fun _ _ => rfl
  | cons b bs ih =>
    intro buffer offset
    rw [fillRow]
    split
    · exact (ih _ _).trans List.length_set
    · rfl

theorem fillRow_count (src : Bytes) : ∀ (buffer : Bytes) (offset : ℕ),
    (fillRow buffer offset src).2 = min (16 - offset) src.length := by
  induction src with
  | nil => exact fun _ _ => (Nat.min_zero _).symm
  | cons b bs ih =>
    intro buffer offset
    have hrest := ih (buffer.set offset b) (offset + 1)
    rw [fillRow, List.length_cons]
    split
    · dsimp only
      omega
    · dsimp only
      omega

theorem store_set (m : Memory) (a i : ℕ) (d : Bytes) (b : UInt8) (hi : i < d.length) :
    m.store a (d.set i b) = (m.store a d).store (a + i) [b] := by
  funext x
  by_cases hx : x = a + i
  · subst hx
    have h₁ := Memory.store_in (m := m) (a := a) (d := d.set i b) (i := i) (by rwa [List.length_set])
    have h₂ := Memory.store_in (m := m.store a d) (a := a + i) (d := [b]) (i := 0) (by simp)
    rw [Nat.add_zero] at h₂
    rw [h₁, h₂]
    simp [List.getD, hi]
  · rw [Memory.store_out (a := a + i) (d := [b]) (by simp only [List.length_singleton]; omega)]
    simp only [Memory.store, List.length_set]
    split
    · rw [List.getD, List.getD, List.getElem?_set_ne (by omega)]
    · rfl

/-- The patched row stored is the row stored and then the data. -/
theorem store_fillRow (m : Memory) (row : ℕ) (src : Bytes) : ∀ (buffer : Bytes) (offset : ℕ), buffer.length = 16 →
    m.store row (fillRow buffer offset src).1 =
      (m.store row buffer).store (row + offset) (src.take (fillRow buffer offset src).2) := by
  induction src with
  | nil => exact fun _ _ _ => by rw [List.take_nil, Memory.store_nil, fillRow]
  | cons b bs ih =>
    intro buffer offset hlen
    rw [fillRow]
    split
    · rw [ih _ _ (List.length_set.trans hlen), store_set _ _ _ _ _ (by omega), List.take_succ_cons]
      exact Memory.store_append _ (row + offset) [b] _
    · rw [List.take_zero, Memory.store_nil]

/-- The row of an unaligned destination takes the first bytes, in one transfer of a row. -/
theorem rramWriteUnaligned_wrote (dst : ℕ) (src : Bytes) (r : RramState) :
    (rramWriteUnaligned dst src r).1 = min (16 - dst % 16) src.length ∧
      Wrote r (rramWriteUnaligned dst src r).2 dst (src.take (rramWriteUnaligned dst src r).1) True := by
  have hrow : dst - dst % 16 + dst % 16 = dst := Nat.sub_add_cancel (Nat.mod_le _ _)
  have hlen := Memory.length_read r.cells (dst - dst % 16) 16
  refine ⟨fillRow_count _ _ _, ?_⟩
  have hstore := store_fillRow r.cells (dst - dst % 16) src (r.cells.read (dst - dst % 16) 16) (dst % 16) hlen
  rw [hrow, Memory.store_read] at hstore
  refine ⟨hstore, [_], rfl, iff_of_true ?_ trivial⟩
  intro t ht
  rw [List.mem_singleton.mp ht, WholeRows, fillRow_length, hlen]
  exact ⟨Nat.sub_mod_eq_zero_of_mod_eq (Nat.mod_mod _ _).symm, Nat.mod_self 16, Nat.succ_pos _, oneRow_le⟩

/-! ### Rows -/

/-- A rest of less than a row: its transfer of whole rows is empty. -/
def Thin (n : ℕ) : Prop := 0 < n ∧ n < 16

instance (n : ℕ) : Decidable (Thin n) := inferInstanceAs (Decidable (_ ∧ _))

theorem fullBlocks_wrote {size : ℕ} (hsize : size % 16 = 0) (hpos : 0 < size) (hmax : size ≤ rramWriteBlockMaxSize) :
    ∀ (n dst : ℕ) (src : Bytes) (r : RramState), dst % 16 = 0 → n * size ≤ src.length →
      Wrote r (fullBlocks size n dst src r) dst (src.take (n * size)) True
  | 0, dst, src, r, _, _ => by
    rw [Nat.zero_mul, List.take_zero]
    exact Wrote.nothing r dst
  | n + 1, dst, src, r, hdst, hlen => by
    rw [Nat.succ_mul, Nat.add_comm (n * size)] at hlen ⊢
    have htake : (src.take size).length = size := by
      rw [List.length_take]
      omega
    have hrest := fullBlocks_wrote hsize hpos hmax n (dst + size) (src.drop size)
      (rramBlockWrite dst (src.take size) r) (by omega) (by rw [List.length_drop]; omega)
    have hfirst := rramBlockWrite_wrote dst (src.take size) r
    rw [htake] at hfirst
    rw [fullBlocks, List.take_add]
    refine (hfirst.append htake hrest).congr (iff_of_true ⟨?_, trivial⟩ trivial)
    exact ⟨hdst, hsize, hpos, hmax⟩

theorem partialBlock_wrote (dst : ℕ) (src : Bytes) (r : RramState) (hdst : dst % 16 = 0) (hpos : 0 < src.length)
    (hlt : src.length < rramWriteBlockMaxSize) : Wrote r (partialBlock dst src r) dst src (¬Thin src.length) := by
  have hmax : 16 ≤ rramWriteBlockMaxSize := by decide
  have hmod : src.length % 16 < 16 := Nat.mod_lt _ (by decide)
  set k := src.length - src.length % 16 with hk
  have htake : (src.take k).length = k := by rw [List.length_take]; omega
  have hdrop : (src.drop k).length = src.length % 16 := by rw [List.length_drop]; omega
  have hfirst := rramBlockWrite_wrote dst (src.take k) r
  rw [htake] at hfirst
  have hwhole : WholeRows ⟨dst, k⟩ ↔ ¬Thin src.length := by
    simp only [WholeRows, Thin]
    omega
  rw [partialBlock]
  simp only [← hk]
  by_cases h0 : src.length % 16 = 0
  · rw [if_neg (not_not.mpr h0)]
    rw [List.take_of_length_le (by omega)] at hfirst ⊢
    exact hfirst.congr hwhole
  · rw [if_pos h0]
    set r₁ := rramBlockWrite dst (src.take k) r with hr₁
    obtain ⟨hc, ts, ht, hp⟩ := rramBlockWrite_wrote (dst + k)
      (src.drop k ++ r₁.cells.read (dst + k + src.length % 16) (16 - src.length % 16)) r₁
    -- the bytes behind the data are written back as they were read
    have hkeep : Memory.store r₁.cells (dst + k)
        (src.drop k ++ r₁.cells.read (dst + k + src.length % 16) (16 - src.length % 16)) =
          r₁.cells.store (dst + k) (src.drop k) := by
      rw [← Memory.store_append, hdrop]
      refine Memory.store_of_eq fun i hi => ?_
      rw [Memory.length_read] at hi
      rw [Memory.getD_read _ hi, Memory.store_out (.inr (by omega))]
    have hlast : Wrote r₁ (rramBlockWrite (dst + k)
        (src.drop k ++ r₁.cells.read (dst + k + src.length % 16) (16 - src.length % 16)) r₁) (dst + k) (src.drop k)
        True := by
      refine ⟨hc.trans hkeep, ts, ht, hp.trans (iff_of_true ?_ trivial)⟩
      rw [WholeRows, List.length_append, Memory.length_read, hdrop]
      exact ⟨by simp only; omega, by simp only; omega, by simp only; omega, by simp only; omega⟩
    have hboth := hfirst.append htake hlast
    rw [List.take_append_drop] at hboth
    exact hboth.congr ((and_iff_left trivial).trans hwhole)

theorem writeRows_wrote (dst : ℕ) (src : Bytes) (r : RramState) (hdst : dst % 16 = 0) :
    Wrote r (writeRows dst src r) dst src (¬Thin (src.length % rramWriteBlockMaxSize)) := by
  have hmax : rramWriteBlockMaxSize % 16 = 0 ∧ 0 < rramWriteBlockMaxSize := by decide
  set k := src.length / rramWriteBlockMaxSize * rramWriteBlockMaxSize with hk
  have hsum : k + src.length % rramWriteBlockMaxSize = src.length := Nat.div_add_mod' _ _
  have hk16 : k % 16 = 0 := by rw [hk, Nat.mul_mod, hmax.1, Nat.mul_zero, Nat.zero_mod]
  have hfull := fullBlocks_wrote hmax.1 hmax.2 (le_refl _) (src.length / rramWriteBlockMaxSize) dst src r hdst
    (by omega)
  rw [← hk] at hfull
  have htake : (src.take k).length = k := by rw [List.length_take]; omega
  have hdrop : (src.drop k).length = src.length % rramWriteBlockMaxSize := by rw [List.length_drop]; omega
  rw [writeRows]
  simp only [← hk]
  by_cases h0 : src.length % rramWriteBlockMaxSize = 0
  · rw [if_neg (not_not.mpr h0), h0]
    rw [List.take_of_length_le (by omega)] at hfull
    exact hfull.congr (iff_of_true trivial fun h => absurd h.1 (lt_irrefl 0))
  · have hlt := Nat.mod_lt src.length hmax.2
    rw [if_pos h0]
    have hpart := partialBlock_wrote (dst + k) (src.drop k)
      (fullBlocks rramWriteBlockMaxSize (src.length / rramWriteBlockMaxSize) dst src r) (by omega) (by omega) (by omega)
    have hboth := hfull.append htake hpart
    rw [List.take_append_drop, hdrop] at hboth
    exact hboth.congr (and_iff_right trivial)

/-- How many bytes of a range of `length` bytes from `dst` lie in the row that it only begins. -/
def headLength (dst length : ℕ) : ℕ := if dst % 16 ≠ 0 then min (16 - dst % 16) length else 0

/-- `rram_write` is exact, and its transfers are whole rows unless less than a row is left at its end. -/
theorem rramWrite_wrote (dst : ℕ) (src : Bytes) (r : RramState) :
    Wrote r (rramWrite dst src r) dst src
      (¬Thin ((src.length - headLength dst src.length) % rramWriteBlockMaxSize)) := by
  rw [rramWrite, headLength]
  by_cases h0 : dst % 16 = 0
  · rw [if_neg (not_not.mpr h0), if_neg (not_not.mpr h0), Nat.sub_zero]
    exact writeRows_wrote dst src r h0
  · rw [if_pos h0, if_pos h0]
    obtain ⟨hn, hhead⟩ := rramWriteUnaligned_wrote dst src r
    dsimp only
    rw [hn] at hhead ⊢
    set n := min (16 - dst % 16) src.length with hmin
    have htake : (src.take n).length = n := by rw [List.length_take]; omega
    by_cases hall : src.length ≤ n
    · -- the data ends in its first row, and nothing is left
      rw [List.drop_eq_nil_of_le hall, Nat.sub_eq_zero_of_le hall, Nat.zero_mod]
      rw [List.take_of_length_le hall] at hhead
      refine Wrote.congr (P := True) ?_ (iff_of_true trivial fun h => absurd h.1 (lt_irrefl 0))
      exact hhead
    · have hrest := writeRows_wrote (dst + n) (src.drop n) (rramWriteUnaligned dst src r).2 (by omega)
      have hboth := hhead.append htake hrest
      rw [List.take_append_drop, List.length_drop] at hboth
      exact hboth.congr (and_iff_right trivial)

/-! ### Erasing -/

theorem eraseSlices_nothing (n dst : ℕ) (r : RramState) : eraseSlices n dst 0 r = r := by
  cases n with
  | zero => rfl
  | succ n => rw [eraseSlices, if_neg (by simp)]

/-- The slices from a row boundary on: only the last one can leave less than a row. -/
theorem eraseSlices_wrote : ∀ (n dst length : ℕ) (r : RramState), dst % 16 = 0 → length ≤ n →
    Wrote r (eraseSlices n dst length r) dst (List.replicate length 0xFF) (¬Thin (length % 4096))
  | 0, dst, length, r, _, hn => by
    obtain rfl : length = 0 := Nat.le_zero.mp hn
    exact (Wrote.nothing r dst).congr (iff_of_true trivial (by decide))
  | n + 1, dst, length, r, hdst, hn => by
    rw [eraseSlices]
    by_cases h0 : length = 0
    · subst h0
      rw [if_neg (by simp)]
      exact (Wrote.nothing r dst).congr (iff_of_true trivial (by decide))
    · rw [if_pos h0]
      dsimp only
      have hhead : ∀ k, headLength dst k = 0 := fun k => if_neg (not_not.mpr hdst)
      have hmax : rramWriteBlockMaxSize = 16368 := rfl
      have hfirst := fun k => rramWrite_wrote dst (List.replicate k (0xFF : UInt8)) r
      simp only [List.length_replicate, hhead, Nat.sub_zero] at hfirst
      by_cases hbig : 4096 ≤ length
      · rw [if_pos hbig]
        have hrest := eraseSlices_wrote n (dst + 4096) (length - 4096)
          (rramWrite dst (List.replicate 4096 0xFF) r) (by omega) (by omega)
        have hboth := (hfirst 4096).append List.length_replicate hrest
        rw [List.replicate_append_replicate, Nat.add_sub_cancel' hbig] at hboth
        refine hboth.congr ((and_iff_right ?_).trans ?_)
        · simp only [hmax, Thin]
          omega
        · rw [Nat.mod_eq_sub_mod hbig]
      · rw [if_neg hbig, Nat.sub_self]
        rw [eraseSlices_nothing]
        refine (hfirst length).congr ?_
        rw [hmax, Nat.mod_eq_of_lt (by omega), Nat.mod_eq_of_lt (by omega)]

/-! ### Requests -/

/-- A call of the two functions that change RRAM. -/
inductive RramRequest where
  /-- `nvm_rram_write` -/
  | write (destination : ℕ) (source : Bytes)
  /-- `rram_erase` -/
  | erase (address length : ℕ)

namespace RramRequest

def run : RramRequest → RramState → RramResult × RramState
  | write d s, r => nvmRramWrite d s r
  | erase a n, r => rramErase a n r

/-- Where the range begins. -/
def start : RramRequest → ℕ
  | write d _ => d
  | erase a _ => a

/-- What the range is to hold. -/
def data : RramRequest → Bytes
  | write _ s => s
  | erase _ n => List.replicate n 0xFF

/-- The address check of the call lets the range through. -/
def Accepted : RramRequest → Prop
  | write d s => NvmRramVerifyAddress d s.length
  | erase a n => RramVerifyEraseAddress a n

/-- How many bytes are left for the last transfers, behind the row that the range begins and the full blocks or
    slices. -/
def rest : RramRequest → ℕ
  | write d s => (s.length - headLength d s.length) % rramWriteBlockMaxSize
  | erase a n => (n - headLength a n) % 4096

/-- An accepted call replaces exactly its range, with transfers of whole rows. -/
def Exact (q : RramRequest) (r : RramState) : Prop :=
  q.Accepted → (q.run r).1 = .ok ∧ (q.run r).2.cells = r.cells.store q.start q.data ∧
    ∃ ts, (q.run r).2.transfers = r.transfers ++ ts ∧ ∀ t ∈ ts, WholeRows t

end RramRequest

theorem rramErase_wrote (address length : ℕ) (r : RramState) (h : RramVerifyEraseAddress address length) :
    Wrote r (rramErase address length r).2 address (List.replicate length 0xFF)
      (¬Thin ((length - headLength address length) % 4096)) := by
  rw [rramErase, if_pos h, headLength]
  by_cases h0 : address % 16 = 0
  · rw [if_neg (not_not.mpr h0), if_neg (not_not.mpr h0), Nat.sub_zero]
    exact eraseSlices_wrote length address length r h0 (le_refl _)
  · rw [if_pos h0, if_pos h0]
    dsimp only
    obtain ⟨hn, hhead⟩ := rramWriteUnaligned_wrote address
      (List.replicate (if 16 ≤ length then 16 else length) 0xFF) r
    rw [List.length_replicate] at hn
    have hcount : min (16 - address % 16) (if 16 ≤ length then 16 else length) = min (16 - address % 16) length := by
      split <;> omega
    rw [hcount] at hn
    rw [hn] at hhead ⊢
    set k := min (16 - address % 16) length with hk
    have hle : k ≤ if 16 ≤ length then 16 else length := by split <;> omega
    rw [List.take_replicate, min_eq_left hle] at hhead
    by_cases hall : length ≤ k
    · have hkl : k = length := le_antisymm (min_le_right _ _) hall
      rw [hkl] at hhead ⊢
      rw [Nat.sub_self]
      rw [eraseSlices_nothing]
      exact hhead.congr (iff_of_true trivial (by decide))
    · have hrest := eraseSlices_wrote length (address + k) (length - k) (rramWriteUnaligned address
        (List.replicate (if 16 ≤ length then 16 else length) 0xFF) r).2 (by omega) (by omega)
      have hboth := hhead.append List.length_replicate hrest
      rw [List.replicate_append_replicate, Nat.add_sub_cancel' (by omega)] at hboth
      exact hboth.congr (and_iff_right trivial)

theorem RramRequest.run_wrote (q : RramRequest) (r : RramState) (h : q.Accepted) :
    (q.run r).1 = .ok ∧ Wrote r (q.run r).2 q.start q.data (¬Thin q.rest) := by
  cases q with
  | write d s =>
    have hrun : run (write d s) r = (.ok, rramWrite d s r) := if_pos h
    rw [hrun]
    exact ⟨rfl, rramWrite_wrote d s r⟩
  | erase a n =>
    refine ⟨?_, rramErase_wrote a n r h⟩
    have hv : RramVerifyEraseAddress a n := h
    rw [run, rramErase, if_pos hv]
    split <;> rfl

/-- Every accepted write and erase replaces exactly its range. All its transfers are of whole rows if and only
    if not less than a row is left for the last of them: the whole rows before that rest are then none, and a
    transfer of length 0 is issued. -/
theorem nvm_rram_exact_iff (q : RramRequest) (r : RramState) : q.Exact r ↔ (q.Accepted → ¬Thin q.rest) := by
  refine forall_congr' fun h => ?_
  obtain ⟨hok, hcells, ts, ht, hp⟩ := q.run_wrote r h
  rw [← hp]
  constructor
  · rintro ⟨-, -, ts', ht', hall⟩
    rw [ht, List.append_cancel_left_eq] at ht'
    exact ht' ▸ hall
  · exact fun hall => ⟨hok, hcells, ts, ht, hall⟩

/-- One byte at the start of RRAM: the transfer of its whole rows is empty. -/
theorem nvm_rram_write_empty_transfer :
    ¬(RramRequest.write 0x200000 [0x5A]).Exact ⟨fun _ => 0xFF, []⟩ ∧
      (nvmRramWrite 0x200000 [0x5A] ⟨fun _ => 0xFF, []⟩).2.transfers = [⟨0x200000, 0⟩, ⟨0x200000, 16⟩] := by
  have htransfers : (nvmRramWrite 0x200000 [0x5A] ⟨fun _ => 0xFF, []⟩).2.transfers =
      [⟨0x200000, 0⟩, ⟨0x200000, 16⟩] := by decide +kernel
  refine ⟨fun h => ?_, htransfers⟩
  obtain ⟨-, -, ts, ht, hall⟩ := h (show NvmRramVerifyAddress _ _ by decide)
  rw [RramRequest.run, htransfers, List.nil_append] at ht
  exact absurd (hall ⟨0x200000, 0⟩ (ht ▸ List.mem_cons_self)) (by decide)

end Qcc730.Nvm
