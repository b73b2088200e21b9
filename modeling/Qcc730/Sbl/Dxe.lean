import Qcc730.Sbl.Elf

/-! Writing RRAM through the DMA engine (`nt_bl_rram_dxe.c`).

    The engine moves whole blocks of 16 bytes to 16-byte addresses, at most `0x3FF0` bytes at a time.
    `rram_write_dxe` and `rram_memset_dxe` cut a request into such transfers: an unaligned head and tail
    are merged with the bytes around them. Put together the transfers are one store of the data. -/

namespace Qcc730.Sbl
open Lib Flash

/-- `bl_error_type`, the values of the loader's memory functions; `hang` is a loop that never ends. -/
inductive BlError where
  | rramDxeInvalidAddr
  | rramDxeInvalidBlockAddr
  | rramRead
  | elfMemRead
  | elfMemInvalParam
  | elfNullPtr
  | elfInvalParam
  | hang
  deriving DecidableEq, Repr

namespace Dxe

/-- `rram_block_write_dxe`: one transfer. -/
def rramBlockWriteDxe (m : Memory) (destination : ℕ) (source : Bytes) : Except BlError Memory :=
  if destination % 16 ≠ 0 then .error .rramDxeInvalidBlockAddr
  else if source.length % 16 ≠ 0 then .error .rramDxeInvalidBlockAddr
  else .ok (m.store destination source)

/-- The bytes of the block at `destination` that `rram_write_unaligned_dxe` replaces. -/
def headLength (destination length : ℕ) : ℕ := min (16 - destination % 16) length

/-- `rram_write_unaligned_dxe`: the block of `destination` with the first bytes of `source` in it. -/
def rramWriteUnalignedDxe (m : Memory) (destination : ℕ) (source : Bytes) : Except BlError Memory :=
  let offset := destination % 16
  let written := headLength destination source.length
  rramBlockWriteDxe m (destination - offset)
    (m.read (destination - offset) offset ++ source.take written ++
      m.read (destination + written) (16 - offset - written))

/-- The loop over the `n` full blocks. -/
def fullBlocks : ℕ → Memory → ℕ → Bytes → Except BlError Memory
  | 0, m, _, _ => .ok m
  | n + 1, m, dst, src =>
    match rramBlockWriteDxe m dst (src.take 0x3FF0) with
    | .error e => .error e
    | .ok m => fullBlocks n m (dst + 0x3FF0) (src.drop 0x3FF0)

/-- The partial block: its whole 16-byte units, then the rest of it merged with what follows. -/
def partialBlock (m : Memory) (dst : ℕ) (src : Bytes) : Except BlError Memory :=
  let aligned := src.length - src.length % 16
  let rest := src.length % 16
  match rramBlockWriteDxe m dst (src.take aligned) with
  | .error e => .error e
  | .ok m =>
    if rest ≠ 0 then
      rramBlockWriteDxe m (dst + aligned) (src.drop aligned ++ m.read (dst + aligned + rest) (16 - rest))
    else .ok m

/-- `rram_write_dxe` past the head. -/
def alignedBlocks (m : Memory) (dst : ℕ) (src : Bytes) : Except BlError Memory :=
  let full := src.length / 0x3FF0
  match fullBlocks full m dst src with
  | .error e => .error e
  | .ok m =>
    if src.length % 0x3FF0 ≠ 0 then partialBlock m (dst + full * 0x3FF0) (src.drop (full * 0x3FF0)) else .ok m

/-- `rram_write_dxe`. -/
def rramWriteDxe (m : Memory) (destination : ℕ) (source : Bytes) : Except BlError Memory :=
  if rramVerifyAddress destination source.length then
    if destination % 16 ≠ 0 then
      let written := headLength destination source.length
      match rramWriteUnalignedDxe m destination source with
      | .error e => .error e
      | .ok m =>
        if source.length ≤ written then .ok m
        else alignedBlocks m (destination + written) (source.drop written)
    else alignedBlocks m destination source
  else .error .rramDxeInvalidAddr

/-- The loop of `rram_memset_dxe`, 4096 bytes at a time; the fuel is at least the number of passes. -/
def setLoop (value : UInt8) : ℕ → Memory → ℕ → ℕ → Except BlError Memory
  | 0, m, _, _ => .ok m
  | n + 1, m, dst, length =>
    if length = 0 then .ok m
    else match rramWriteDxe m dst (List.replicate (min 4096 length) value) with
      | .error e => .error e
      | .ok m => setLoop value n m (dst + min 4096 length) (length - min 4096 length)

/-- `rram_memset_dxe`. -/
def rramMemsetDxe (m : Memory) (address : ℕ) (value : UInt8) (length : ℕ) : Except BlError Memory :=
  if rramVerifyAddress address length then
    if address % 16 ≠ 0 then
      let written := headLength address (min 16 length)
      match rramWriteUnalignedDxe m address (List.replicate (min 16 length) value) with
      | .error e => .error e
      | .ok m =>
        if length ≤ written then .ok m
        else setLoop value length m (address + written) (length - written)
    else setLoop value length m address length
  else .error .rramDxeInvalidAddr

/-! ### The transfers put together -/

theorem headLength_le (a n : ℕ) : headLength a n ≤ n := min_le_right _ _

theorem headLength_fits (a n : ℕ) : a % 16 + headLength a n ≤ 16 := by
  have := Nat.mod_lt a (show 0 < 16 by decide)
  rw [headLength]
  omega

/-- The head block stores the first bytes of the data. -/
theorem rramWriteUnalignedDxe_eq (m : Memory) (a : ℕ) (src : Bytes) :
    rramWriteUnalignedDxe m a src = .ok (m.store a (src.take (headLength a src.length))) := by
  have hle := headLength_le a src.length
  have hfit := headLength_fits a src.length
  have hmod := Nat.mod_le a 16
  rw [rramWriteUnalignedDxe, rramBlockWriteDxe]
  set k := headLength a src.length with hk
  have hlen : (src.take k).length = k := by rw [List.length_take]; omega
  rw [if_neg (by omega), if_neg (by simp only [List.length_append, Memory.length_read, hlen]; omega)]
  -- the bytes before and after the data are stored as they were
  congr 1
  have hpre : a - a % 16 + (m.read (a - a % 16) (a % 16)).length = a := by rw [Memory.length_read]; omega
  rw [List.append_assoc, ← Memory.store_append, Memory.store_read, hpre, ← Memory.store_append]
  refine Memory.store_of_eq fun i hi => ?_
  rw [Memory.length_read] at hi
  rw [hlen, Memory.store_out (by omega), Memory.getD_read m hi]

theorem rramBlockWriteDxe_ok {m : Memory} {a : ℕ} {src : Bytes} (ha : a % 16 = 0) (hs : src.length % 16 = 0) :
    rramBlockWriteDxe m a src = .ok (m.store a src) := by
  rw [rramBlockWriteDxe, if_neg (by omega), if_neg (by omega)]

theorem fullBlocks_eq (n : ℕ) (m : Memory) (a : ℕ) (src : Bytes) (ha : a % 16 = 0) (hl : n * 0x3FF0 ≤ src.length) :
    fullBlocks n m a src = .ok (m.store a (src.take (n * 0x3FF0))) := by
  induction n generalizing m a src with
  | zero => rw [fullBlocks, Nat.zero_mul, List.take_zero, Memory.store_nil]
  | succ n ih =>
    have hlen : (src.take 0x3FF0).length = 0x3FF0 := by rw [List.length_take]; omega
    have hfirst : rramBlockWriteDxe m a (src.take 0x3FF0) = .ok (m.store a (src.take 0x3FF0)) :=
      rramBlockWriteDxe_ok ha (by rw [hlen])
    have hstore := Memory.store_append m a (src.take 0x3FF0) ((src.drop 0x3FF0).take (n * 0x3FF0))
    rw [hlen, ← List.take_add] at hstore
    have hmul : (n + 1) * 0x3FF0 = 0x3FF0 + n * 0x3FF0 := by omega
    rw [fullBlocks, hfirst, hmul, ← hstore]
    rw [hmul] at hl
    have hdrop : n * 0x3FF0 ≤ (src.drop 0x3FF0).length := by
      rw [List.length_drop]
      exact Nat.le_sub_of_add_le' hl
    have hnext : (a + 0x3FF0) % 16 = 0 := by omega
    exact ih _ _ _ hnext hdrop

theorem partialBlock_eq (m : Memory) {a : ℕ} (ha : a % 16 = 0) (src : Bytes) :
    partialBlock m a src = .ok (m.store a src) := by
  have hlen : (src.take (src.length - src.length % 16)).length = src.length - src.length % 16 := by
    rw [List.length_take]; omega
  have hrest : (src.drop (src.length - src.length % 16)).length = src.length % 16 := by
    rw [List.length_drop]; omega
  rw [partialBlock, rramBlockWriteDxe_ok ha (by omega)]
  simp only
  by_cases h0 : src.length % 16 = 0
  · rw [if_neg (not_not.mpr h0), h0, Nat.sub_zero, List.take_length]
  · rw [if_pos h0, rramBlockWriteDxe_ok (by omega)
      (by rw [List.length_append, hrest, Memory.length_read]; omega)]
    congr 1
    set k := src.length - src.length % 16 with hk
    have hnext : ∀ d : Memory, (m.store a (src.take k)).store (a + k) (src.drop k) = m.store a src := by
      intro _
      have := Memory.store_append m a (src.take k) (src.drop k)
      rwa [hlen, List.take_append_drop] at this
    rw [← Memory.store_append, hnext m, hrest]
    refine Memory.store_of_eq fun i hi => ?_
    rw [Memory.length_read] at hi
    rw [Memory.getD_read _ hi, Memory.store_out (by omega), Memory.store_out (by rw [hlen]; omega)]

theorem alignedBlocks_eq (m : Memory) {a : ℕ} (ha : a % 16 = 0) (src : Bytes) :
    alignedBlocks m a src = .ok (m.store a src) := by
  have hle : src.length / 0x3FF0 * 0x3FF0 ≤ src.length := Nat.div_mul_le_self _ _
  rw [alignedBlocks, fullBlocks_eq _ _ _ _ ha hle]
  simp only
  by_cases h0 : src.length % 0x3FF0 = 0
  · rw [if_neg (not_not.mpr h0), List.take_of_length_le (by omega)]
  · rw [if_pos h0, partialBlock_eq _ (by omega)]
    congr 1
    set k := src.length / 0x3FF0 * 0x3FF0 with hk
    have hlen : (src.take k).length = k := by rw [List.length_take]; omega
    have := Memory.store_append m a (src.take k) (src.drop k)
    rwa [hlen, List.take_append_drop] at this

/-- `rram_write_dxe` stores the data, if the address passes the check. -/
theorem rramWriteDxe_eq (m : Memory) (a : ℕ) (src : Bytes) :
    rramWriteDxe m a src =
      if rramVerifyAddress a src.length then .ok (m.store a src) else .error .rramDxeInvalidAddr := by
  rw [rramWriteDxe]
  by_cases hv : rramVerifyAddress a src.length = true
  · rw [if_pos hv, if_pos hv]
    by_cases ha : a % 16 = 0
    · rw [if_neg (not_not.mpr ha), alignedBlocks_eq m ha]
    · rw [if_pos ha]
      simp only [rramWriteUnalignedDxe_eq]
      have hle := headLength_le a src.length
      set k := headLength a src.length with hk
      by_cases hl : src.length ≤ k
      · rw [if_pos hl, List.take_of_length_le hl]
      · have hlen : (src.take k).length = k := by rw [List.length_take]; omega
        have hal : (a + k) % 16 = 0 := by
          have hmod := Nat.mod_lt a (show 0 < 16 by decide)
          rw [headLength] at hk
          omega
        rw [if_neg hl, alignedBlocks_eq _ hal]
        congr 1
        have := Memory.store_append m a (src.take k) (src.drop k)
        rwa [hlen, List.take_append_drop] at this
  · rw [if_neg hv, if_neg hv]

theorem verify_aligned {a n : ℕ} (h : rramVerifyAddress a n = true) : a % 4 = 0 := by
  simp only [rramVerifyAddress, Bool.and_eq_true, decide_eq_true_eq, beq_iff_eq] at h
  omega

/-- Part of a range that passes the check passes it too. -/
theorem verify_part {a n k j : ℕ} (h : rramVerifyAddress a n = true) (hk : (a + k) % 4 = 0) (hj : 0 < j)
    (hjk : k + j ≤ n) : rramVerifyAddress (a + k) j = true := by
  simp only [rramVerifyAddress, Bool.and_eq_true, decide_eq_true_eq, beq_iff_eq] at h ⊢
  omega

theorem setLoop_eq (v : UInt8) : ∀ (n : ℕ) (m : Memory) (a len : ℕ), len ≤ n →
    (0 < len → rramVerifyAddress a len = true) →
    setLoop v n m a len = .ok (m.store a (List.replicate len v))
  | 0, m, a, len, hn, _ => by
    obtain rfl : len = 0 := by omega
    rw [setLoop, List.replicate_zero, Memory.store_nil]
  | n + 1, m, a, len, hn, hv => by
    rw [setLoop]
    by_cases h0 : len = 0
    · rw [if_pos h0, h0, List.replicate_zero, Memory.store_nil]
    · have hvl := hv (by omega)
      have ha := verify_aligned hvl
      have hfirst : rramVerifyAddress a (min 4096 len) = true :=
        verify_part (k := 0) hvl (by simpa using ha) (by omega) (by omega)
      rw [if_neg h0, rramWriteDxe_eq, List.length_replicate, if_pos hfirst]
      simp only
      rw [setLoop_eq v n _ _ _ (by omega) fun h => verify_part hvl (by omega) h (by omega)]
      congr 1
      have := Memory.store_append m a (List.replicate (min 4096 len) v) (List.replicate (len - min 4096 len) v)
      rw [List.length_replicate, List.replicate_append_replicate] at this
      rw [this]
      congr 2
      omega

/-- `rram_memset_dxe` sets the range, if the address passes the check. -/
theorem rramMemsetDxe_eq (m : Memory) (a : ℕ) (v : UInt8) (len : ℕ) :
    rramMemsetDxe m a v len =
      if rramVerifyAddress a len then .ok (m.store a (List.replicate len v))
      else .error .rramDxeInvalidAddr := by
  rw [rramMemsetDxe]
  by_cases hv : rramVerifyAddress a len = true
  · have ha4 := verify_aligned hv
    rw [if_pos hv, if_pos hv]
    by_cases ha : a % 16 = 0
    · rw [if_neg (not_not.mpr ha), setLoop_eq v _ _ _ _ (le_refl _) fun _ => hv]
    · rw [if_pos ha]
      simp only [rramWriteUnalignedDxe_eq, List.length_replicate]
      have hk : headLength a (min 16 len) = min (16 - a % 16) len := by
        rw [headLength]
        omega
      rw [hk]
      set k := min (16 - a % 16) len with hkdef
      have htake : (List.replicate (min 16 len) v).take k = List.replicate k v := by
        rw [List.take_replicate]
        congr 1
        omega
      rw [htake]
      by_cases hl : len ≤ k
      · obtain hkl : k = len := by omega
        rw [if_pos hl, hkl]
      · rw [if_neg hl, setLoop_eq v _ _ _ _ (by omega) fun h => verify_part hv (by omega) h (by omega)]
        congr 1
        have := Memory.store_append m a (List.replicate k v) (List.replicate (len - k) v)
        rw [List.length_replicate, List.replicate_append_replicate] at this
        rw [this]
        congr 2
        omega
  · rw [if_neg hv, if_neg hv]

end Dxe

end Qcc730.Sbl
