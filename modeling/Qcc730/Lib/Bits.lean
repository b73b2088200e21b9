import Qcc730.Lib.Bytes
import Mathlib.Data.Nat.Bitwise

/-! The bits of a memory, and fields of them.

    Bit `b` of a memory is bit `b % 8` of byte `b / 8`. Bytes read as a little-endian number have their bits in the
    same order, so a field of bits is the same in the memory and in a number read from it. -/

namespace Qcc730.Lib

/-! ### Little-endian numbers -/

/-- The number whose bytes are given, the low one first. -/
def leNum : Bytes → ℕ
  | [] => 0
  | b :: bs => 2 ^ 8 * leNum bs + b.toNat

/-- The `k` low bytes of a number, the lowest first. -/
def leBytes : ℕ → ℕ → Bytes
  | 0, _ => []
  | k + 1, n => UInt8.ofNat n :: leBytes k (n / 2 ^ 8)

@[simp] theorem length_leBytes (k n : ℕ) : (leBytes k n).length = k := by
  induction k generalizing n with
  | zero => rfl
  | succ k ih => rw [leBytes, List.length_cons, ih]

/-- Bit `j` of byte `i` is bit `8 * i + j` of the number. -/
theorem testBit_leNum (bs : Bytes) {j : ℕ} (hj : j < 8) (i : ℕ) :
    (leNum bs).testBit (8 * i + j) = (bs.getD i 0).toNat.testBit j := by
  induction bs generalizing i with
  | nil => simp only [leNum, Nat.zero_testBit, List.getD_nil, UInt8.toNat_zero]
  | cons b bs ih =>
    rw [leNum, Nat.testBit_two_pow_mul_add _ b.toNat_lt]
    cases i with
    | zero =>
      rw [if_pos (by omega), Nat.mul_zero, Nat.zero_add]
      rfl
    | succ i =>
      rw [if_neg (by omega), List.getD_cons_succ, ← ih]
      congr 1
      omega

theorem testBit_leBytes {k i j : ℕ} (hi : i < k) (hj : j < 8) (n : ℕ) :
    ((leBytes k n).getD i 0).toNat.testBit j = n.testBit (8 * i + j) := by
  induction k generalizing n i with
  | zero => omega
  | succ k ih =>
    rw [leBytes]
    cases i with
    | zero =>
      rw [List.getD_cons_zero, UInt8.toNat_ofNat', Nat.testBit_mod_two_pow, decide_eq_true hj, Bool.true_and,
        Nat.mul_zero, Nat.zero_add]
    | succ i =>
      rw [List.getD_cons_succ, ih (by omega), Nat.testBit_div_two_pow]
      congr 1
      omega

theorem leNum_leBytes (k : ℕ) {n : ℕ} (h : n < 2 ^ (8 * k)) : leNum (leBytes k n) = n := by
  induction k generalizing n with
  | zero => exact (Nat.lt_one_iff.mp h).symm
  | succ k ih =>
    have hlt : n / 2 ^ 8 < 2 ^ (8 * k) := by
      rw [Nat.div_lt_iff_lt_mul (by decide), ← pow_add]
      exact h
    rw [leBytes, leNum, ih hlt, UInt8.toNat_ofNat', Nat.div_add_mod]

/-! ### The bits of a memory -/

namespace Memory

/-- Bit `b` of the memory. -/
def bit (m : Memory) (b : ℕ) : Bool := (m (b / 8)).toNat.testBit (b % 8)

theorem bit_byte (m : Memory) (a : ℕ) {j : ℕ} (hj : j < 8) : m.bit (8 * a + j) = (m a).toNat.testBit j := by
  have hdiv : (8 * a + j) / 8 = a := by omega
  have hmod : (8 * a + j) % 8 = j := by omega
  rw [bit, hdiv, hmod]

/-- A byte is its eight bits. -/
theorem byte_eq_of_bits {m m' : Memory} {a : ℕ} (h : ∀ j < 8, m.bit (8 * a + j) = m'.bit (8 * a + j)) :
    m a = m' a := by
  refine UInt8.toNat_inj.mp (Nat.eq_of_testBit_eq fun j => ?_)
  by_cases hj : j < 8
  · rw [← bit_byte m a hj, ← bit_byte m' a hj, h j hj]
  · have hlt : ∀ b : UInt8, b.toNat.testBit j = false := fun b =>
      Nat.testBit_lt_two_pow (b.toNat_lt.trans_le (Nat.pow_le_pow_right two_pos (by omega)))
    rw [hlt, hlt]

/-- A number read from the memory has the bits that are there. -/
theorem testBit_leNum_read (m : Memory) (a : ℕ) {n i : ℕ} (hi : i < 8 * n) :
    (leNum (m.read a n)).testBit i = m.bit (8 * a + i) := by
  have h := testBit_leNum (m.read a n) (Nat.mod_lt i (by decide : 0 < 8)) (i / 8)
  rw [Nat.div_add_mod, getD_read m (by omega)] at h
  have hdiv : (8 * a + i) / 8 = a + i / 8 := by omega
  have hmod : (8 * a + i) % 8 = i % 8 := by omega
  rw [h, bit, hdiv, hmod]

/-- A number stored as `n` bytes at `a` gives the memory its bits, and no others. -/
theorem bit_store_leBytes (m : Memory) (a n x b : ℕ) :
    (m.store a (leBytes n x)).bit b =
      if 8 * a ≤ b ∧ b < 8 * a + 8 * n then x.testBit (b - 8 * a) else m.bit b := by
  split
  · rename_i h
    have hin : b / 8 = a + (b / 8 - a) := by omega
    rw [bit, hin, store_in (by rw [length_leBytes]; omega),
      testBit_leBytes (by omega) (Nat.mod_lt b (by decide)) x]
    congr 1
    omega
  · rename_i h
    rw [bit, store_out (by rw [length_leBytes]; omega)]
    rfl

/-- Behind the bytes that were stored is what was there. -/
theorem read_store_zero (m : Memory) {b : Bytes} {n : ℕ} (h : b.length ≤ n) :
    (m.store 0 b).read 0 n = b ++ m.read b.length (n - b.length) := by
  obtain ⟨k, rfl⟩ := Nat.exists_eq_add_of_le h
  rw [read_add, read_store, Nat.zero_add, Nat.add_sub_cancel_left]
  congr 1
  exact read_congr fun i _ => store_out (.inr (by omega))

theorem read_eq_zeros_iff {m : Memory} {a n : ℕ} :
    m.read a n = List.replicate n 0 ↔ ∀ i, a ≤ i → i < a + n → m i = 0 := by
  rw [List.eq_replicate_iff, Memory.read, List.length_map, List.length_range, and_iff_right rfl, List.forall_mem_map]
  constructor
  · intro h i hle hlt
    have hi := h (i - a) (List.mem_range.mpr (by omega))
    rwa [Nat.add_sub_cancel' hle] at hi
  · intro h i hi
    exact h _ (Nat.le_add_right a i) (Nat.add_lt_add_left (List.mem_range.mp hi) a)

/-- A store leaves the bits of other bytes. -/
theorem bit_store_out (m : Memory) {a b : ℕ} {d : Bytes} (h : b < 8 * a ∨ 8 * (a + d.length) ≤ b) :
    (m.store a d).bit b = m.bit b := by
  rw [bit, store_out (by omega)]
  rfl

end Memory

/-! ### Fields of a number -/

/-- `i` with `length` bits from `offset` on replaced by the low bits of `value`. Of a negative value the infinitely
    many high bits are cut off. -/
def setBits (i offset length : ℕ) (value : ℤ) : ℕ :=
  i.ldiff ((2 ^ length - 1) <<< offset) ||| ((value % 2 ^ length).toNat <<< offset)

/-- The field of `length` bits from `offset` on. -/
def getBits (i offset length : ℕ) : ℕ := (i &&& ((2 ^ length - 1) <<< offset)) >>> offset

theorem testBit_mask (offset length j : ℕ) :
    ((2 ^ length - 1) <<< offset).testBit j = decide (offset ≤ j ∧ j < offset + length) := by
  rw [Nat.testBit_shiftLeft, Nat.testBit_two_pow_sub_one, Bool.eq_iff_iff]
  simp only [Bool.and_eq_true, decide_eq_true_eq, ge_iff_le]
  omega

theorem testBit_getBits (i offset length j : ℕ) :
    (getBits i offset length).testBit j = (decide (j < length) && i.testBit (offset + j)) := by
  rw [getBits, Nat.testBit_shiftRight, Nat.testBit_and, testBit_mask, Bool.and_comm]
  congr 2
  simp only [eq_iff_iff]
  omega

theorem lowBits_lt (value : ℤ) (length : ℕ) : (value % 2 ^ length).toNat < 2 ^ length := by
  have hmod := Int.emod_lt_of_pos value (pow_pos two_pos length : (0 : ℤ) < 2 ^ length)
  have hcast : ((2 ^ length : ℕ) : ℤ) = 2 ^ length := Nat.cast_pow 2 length
  omega

theorem testBit_setBits (i offset length j : ℕ) (value : ℤ) :
    (setBits i offset length value).testBit j =
      if offset ≤ j ∧ j < offset + length then (value % 2 ^ length).toNat.testBit (j - offset) else i.testBit j := by
  rw [setBits, Nat.testBit_or, Nat.testBit_ldiff, testBit_mask, Nat.testBit_shiftLeft]
  split
  · rename_i h
    rw [decide_eq_true h, Bool.not_true, Bool.and_false, Bool.false_or, decide_eq_true (by omega), Bool.true_and]
  · rename_i h
    rw [decide_eq_false h, Bool.not_false, Bool.and_true, Bool.or_eq_left_iff_imp]
    intro hbit
    rw [Bool.and_eq_true, decide_eq_true_eq] at hbit
    have hhigh := Nat.testBit_lt_two_pow
      ((lowBits_lt value length).trans_le (Nat.pow_le_pow_right two_pos (by omega : length ≤ j - offset)))
    rw [hhigh] at hbit
    exact absurd hbit.2 Bool.false_ne_true

/-- What was put into a field is read from it. -/
theorem getBits_setBits (i offset length : ℕ) (value : ℤ) :
    getBits (setBits i offset length value) offset length = (value % 2 ^ length).toNat := by
  refine Nat.eq_of_testBit_eq fun j => ?_
  rw [testBit_getBits, testBit_setBits]
  by_cases hj : j < length
  · rw [decide_eq_true hj, Bool.true_and, if_pos (by omega), Nat.add_sub_cancel_left]
  · have hhigh := Nat.testBit_lt_two_pow
      ((lowBits_lt value length).trans_le (Nat.pow_le_pow_right two_pos (Nat.le_of_not_lt hj)))
    rw [decide_eq_false hj, Bool.false_and, hhigh]

end Qcc730.Lib
