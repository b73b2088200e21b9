import Mathlib.Tactic

/-! Byte-addressed memories: ranges, little-endian words, and the three ways a byte changes.

    A memory is a total function from addresses to bytes, so that a device's size is a matter of
    the driver's bounds check and not of the memory. NOR flash distinguishes *erasing* (a range
    goes to `0xFF`) from *programming* (bits can only be cleared: the new byte is the AND of old
    and data); RRAM is plainly *stored*. The lemmas say what each does inside and outside its
    range, and how words are read back. -/

namespace Qcc730.Lib

abbrev Bytes := List UInt8

abbrev Memory := ℕ → UInt8

/-- Unsigned 32-bit truncation, applied wherever the C code adds, subtracts or multiplies. -/
def u32 (x : ℕ) : ℕ := x % 2 ^ 32

/-- Unsigned 32-bit subtraction. -/
def u32sub (a b : ℕ) : ℕ := u32 (a + 2 ^ 32 - b)

theorem u32_lt (x : ℕ) : u32 x < 2 ^ 32 := Nat.mod_lt _ (by decide)

theorem u32_of_lt {x : ℕ} (h : x < 2 ^ 32) : u32 x = x := Nat.mod_eq_of_lt h

theorem u32sub_of_le {a b : ℕ} (ha : a < 2 ^ 32) (h : b ≤ a) : u32sub a b = a - b := by
  simp only [u32sub, u32]; omega

/-! ### Ranges -/

/-- The address range `[start, start + size)`. -/
structure Range where
  start : ℕ
  size : ℕ
  deriving DecidableEq, Repr

namespace Range

instance : Membership ℕ Range := ⟨fun r x => r.start ≤ x ∧ x < r.start + r.size⟩

theorem mem_def {r : Range} {x : ℕ} : x ∈ r ↔ r.start ≤ x ∧ x < r.start + r.size := Iff.rfl

theorem mem_mk {a n x : ℕ} : x ∈ (⟨a, n⟩ : Range) ↔ a ≤ x ∧ x < a + n := Iff.rfl

instance (r : Range) (x : ℕ) : Decidable (x ∈ r) :=
  inferInstanceAs (Decidable (r.start ≤ x ∧ x < r.start + r.size))

/-- Every address of `r` is an address of `q`. -/
def Sub (r q : Range) : Prop := ∀ x ∈ r, x ∈ q

/-- No address in common. -/
def Disj (r q : Range) : Prop := ∀ x ∈ r, x ∉ q

theorem Sub.trans {p q r : Range} (h : p.Sub q) (h' : q.Sub r) : p.Sub r :=
  fun x hx => h' x (h x hx)

theorem Disj.symm {r q : Range} (h : r.Disj q) : q.Disj r := fun x hq hr => h x hr hq

theorem Disj.mono {r q r' q' : Range} (h : r.Disj q) (hr : r'.Sub r) (hq : q'.Sub q) : r'.Disj q' :=
  fun x hx hx' => h x (hr x hx) (hq x hx')

theorem sub_of_le {r q : Range} (h₁ : q.start ≤ r.start) (h₂ : r.start + r.size ≤ q.start + q.size) :
    r.Sub q := by
  intro x hx
  rw [mem_def] at hx ⊢
  omega

theorem disj_of_le {r q : Range} (h : r.start + r.size ≤ q.start) : r.Disj q := by
  intro x hx hx'
  rw [mem_def] at hx hx'
  omega

end Range

/-! ### Reading and writing -/

namespace Memory

/-- The `n` bytes from address `a` on. -/
def read (m : Memory) (a n : ℕ) : Bytes := (List.range n).map fun i => m (a + i)

/-- The range `[a, a + n)` erased to `0xFF`. -/
def erase (m : Memory) (a n : ℕ) : Memory := fun x => if a ≤ x ∧ x < a + n then 0xFF else m x

/-- `d` programmed at `a`: bits are only cleared. -/
def program (m : Memory) (a : ℕ) (d : Bytes) : Memory :=
  fun x => if a ≤ x ∧ x < a + d.length then m x &&& d.getD (x - a) 0 else m x

/-- `d` stored at `a`. -/
def store (m : Memory) (a : ℕ) (d : Bytes) : Memory :=
  fun x => if a ≤ x ∧ x < a + d.length then d.getD (x - a) 0 else m x

/-- The little-endian 32-bit word at `a`. -/
def word (m : Memory) (a : ℕ) : ℕ :=
  (m a).toNat + 256 * (m (a + 1)).toNat + 65536 * (m (a + 2)).toNat + 16777216 * (m (a + 3)).toNat

/-- A memory of 4 KB blocks that start with the given bytes and are erased otherwise. -/
def ofBlocks (blocks : List Bytes) : Memory := fun x => (blocks.getD (x / 4096) []).getD (x % 4096) 0xFF

@[simp] theorem length_read (m : Memory) (a n : ℕ) : (m.read a n).length = n := by simp [read]

theorem getElem?_read (m : Memory) (a n i : ℕ) (h : i < n) : (m.read a n)[i]? = some (m (a + i)) := by
  simp [read, h]

theorem read_congr {m m' : Memory} {a n : ℕ} (h : ∀ i < n, m (a + i) = m' (a + i)) :
    m.read a n = m'.read a n := by
  apply List.map_congr_left
  intro i hi
  exact h i (List.mem_range.mp hi)

theorem read_add (m : Memory) (a n k : ℕ) : m.read a (n + k) = m.read a n ++ m.read (a + n) k := by
  simp only [read, List.range_add, List.map_append, List.map_map]
  congr 1
  apply List.map_congr_left
  intro i _
  simp only [Function.comp]
  congr 1; omega

theorem word_congr {m m' : Memory} {a : ℕ} (h : ∀ i < 4, m (a + i) = m' (a + i)) :
    m.word a = m'.word a := by
  have h0 := h 0 (by decide)
  rw [Nat.add_zero] at h0
  rw [word, word, h0, h 1 (by decide), h 2 (by decide), h 3 (by decide)]

theorem word_lt (m : Memory) (a : ℕ) : m.word a < 2 ^ 32 := by
  have h0 := (m a).toNat_lt
  have h1 := (m (a + 1)).toNat_lt
  have h2 := (m (a + 2)).toNat_lt
  have h3 := (m (a + 3)).toNat_lt
  simp only [word]; omega

/-- A word of all ones has bytes of all ones. -/
theorem word_ff {m : Memory} {a : ℕ} (h : m.word a = 0xFFFFFFFF) : ∀ i < 4, m (a + i) = 0xFF := by
  have h0 := (m a).toNat_lt
  have h1 := (m (a + 1)).toNat_lt
  have h2 := (m (a + 2)).toNat_lt
  have h3 := (m (a + 3)).toNat_lt
  rw [word] at h
  intro i hi
  apply UInt8.toNat_inj.mp
  show (m (a + i)).toNat = 255
  have hcases : i = 0 ∨ i = 1 ∨ i = 2 ∨ i = 3 := by omega
  rcases hcases with rfl | rfl | rfl | rfl
  · rw [Nat.add_zero]
    omega
  · omega
  · omega
  · omega

theorem erase_in {m : Memory} {a n x : ℕ} (h : a ≤ x) (h' : x < a + n) : m.erase a n x = 0xFF :=
  if_pos ⟨h, h'⟩

theorem erase_out {m : Memory} {a n x : ℕ} (h : x < a ∨ a + n ≤ x) : m.erase a n x = m x :=
  if_neg (by omega)

theorem program_out {m : Memory} {a x : ℕ} {d : Bytes} (h : x < a ∨ a + d.length ≤ x) :
    m.program a d x = m x := if_neg (by omega)

/-- Two adjacent erased ranges are one. -/
theorem erase_erase (m : Memory) (a n k : ℕ) :
    (m.erase a n).erase (a + n) k = m.erase a (n + k) := by
  funext x
  by_cases hx : a ≤ x ∧ x < a + (n + k)
  · rw [erase_in (n := n + k) hx.1 hx.2]
    by_cases hx' : a + n ≤ x
    · exact erase_in hx' (by omega)
    · rw [erase_out (by omega), erase_in hx.1 (by omega)]
  · rw [erase_out (by omega), erase_out (by omega), erase_out (by omega)]

@[simp] theorem erase_zero (m : Memory) (a : ℕ) : m.erase a 0 = m :=
  funext fun _ => erase_out (by omega)

@[simp] theorem program_nil (m : Memory) (a : ℕ) : m.program a [] = m :=
  funext fun _ => program_out (by simp only [List.length_nil]; omega)

/-- Programming a buffer in two pieces. -/
theorem program_take_drop (m : Memory) (a k : ℕ) (d : Bytes) (hk : k ≤ d.length) :
    (m.program a (d.take k)).program (a + k) (d.drop k) = m.program a d := by
  funext x
  have ht : (d.take k).length = k := by simp [hk]
  have hd : (d.drop k).length = d.length - k := List.length_drop
  -- a byte lies in the first piece, in the second, or outside the buffer
  by_cases hx : a ≤ x ∧ x < a + d.length
  · rw [program, program, program, if_pos hx, ht, hd]
    simp only [List.getD_eq_getElem?_getD, List.getElem?_take, List.getElem?_drop]
    by_cases hx' : x < a + k
    · rw [if_neg (by omega), if_pos (by omega), if_pos (by omega)]
    · rw [if_pos (by omega), if_neg (by omega)]
      congr 3; omega
  · rw [program_out (by omega), program_out (by omega), program_out (by omega)]

theorem store_in {m : Memory} {a i : ℕ} {d : Bytes} (h : i < d.length) :
    m.store a d (a + i) = d.getD i 0 := by
  rw [store, if_pos ⟨by omega, by omega⟩, Nat.add_sub_cancel_left]

theorem store_out {m : Memory} {a x : ℕ} {d : Bytes} (h : x < a ∨ a + d.length ≤ x) :
    m.store a d x = m x := if_neg (by omega)

@[simp] theorem store_nil (m : Memory) (a : ℕ) : m.store a [] = m :=
  funext fun _ => store_out (by simp only [List.length_nil]; omega)

/-- Two adjacent stores are one. -/
theorem store_append (m : Memory) (a : ℕ) (d e : Bytes) :
    (m.store a d).store (a + d.length) e = m.store a (d ++ e) := by
  funext x
  by_cases hx : a + d.length ≤ x ∧ x < a + d.length + e.length
  · rw [store, if_pos hx, store, if_pos ⟨by omega, by rw [List.length_append]; omega⟩]
    simp only [List.getD_eq_getElem?_getD]
    rw [List.getElem?_append_right (by omega)]
    congr 2; omega
  · rw [store, if_neg hx]
    by_cases hx' : a ≤ x ∧ x < a + d.length
    · rw [store, if_pos hx', store, if_pos ⟨hx'.1, by rw [List.length_append]; omega⟩]
      simp only [List.getD_eq_getElem?_getD]
      rw [List.getElem?_append_left (by omega)]
    · rw [store, if_neg hx', store, if_neg (by rw [List.length_append]; omega)]

/-- Two stores at one place, the second no shorter than the first. -/
theorem store_store (m : Memory) (a : ℕ) {b b' : Bytes} (h : b.length ≤ b'.length) :
    (m.store a b).store a b' = m.store a b' := by
  funext x
  by_cases hx : a ≤ x ∧ x < a + b'.length
  · rw [store, if_pos hx, store, if_pos hx]
  · rw [store_out (by omega), store_out (by omega), store_out (by omega)]

/-- A store of the bytes that are there. -/
theorem store_of_eq {m : Memory} {a : ℕ} {d : Bytes} (h : ∀ i < d.length, m (a + i) = d.getD i 0) :
    m.store a d = m := by
  funext x
  by_cases hx : a ≤ x ∧ x < a + d.length
  · have := h (x - a) (by omega)
    rw [Nat.add_sub_cancel' hx.1] at this
    rw [store, if_pos hx, this]
  · rw [store, if_neg hx]

theorem getD_read (m : Memory) {a n i : ℕ} (h : i < n) : (m.read a n).getD i 0 = m (a + i) := by
  rw [List.getD_eq_getElem?_getD, getElem?_read m a n i h, Option.getD_some]

theorem store_read (m : Memory) (a n : ℕ) : m.store a (m.read a n) = m :=
  store_of_eq fun i hi => (getD_read m (by simpa using hi)).symm

theorem and_ff (b : UInt8) : 0xFF &&& b = b := by
  rw [← UInt8.toBitVec_inj, UInt8.toBitVec_and]
  exact BitVec.allOnes_and

/-- Programming an erased byte gives exactly the data. -/
theorem program_in {m : Memory} {a i : ℕ} {d : Bytes} (h : i < d.length) (he : m (a + i) = 0xFF) :
    m.program a d (a + i) = d.getD i 0 := by
  rw [program, if_pos ⟨by omega, by omega⟩, he, and_ff, Nat.add_sub_cancel_left]

/-- Programming an erased range gives exactly the data. -/
theorem read_program {m : Memory} {a : ℕ} {d : Bytes} (he : ∀ i < d.length, m (a + i) = 0xFF) :
    (m.program a d).read a d.length = d := by
  apply List.ext_getElem?
  intro i
  by_cases hi : i < d.length
  · rw [getElem?_read _ _ _ _ hi, program_in hi (he i hi), List.getElem?_eq_getElem hi]
    simp [hi]
  · rw [List.getElem?_eq_none (by simpa using hi), List.getElem?_eq_none (by simpa using hi)]

theorem read_store (m : Memory) (a : ℕ) (d : Bytes) : (m.store a d).read a d.length = d := by
  apply List.ext_getElem?
  intro i
  by_cases hi : i < d.length
  · rw [getElem?_read _ _ _ _ hi, store_in hi, List.getElem?_eq_getElem hi]
    simp [hi]
  · rw [List.getElem?_eq_none (by simpa using hi), List.getElem?_eq_none (by simpa using hi)]

end Memory

/-! ### Little-endian words as bytes -/

/-- The four little-endian bytes of a 32-bit word. -/
def le32 (x : ℕ) : Bytes :=
  [UInt8.ofNat x, UInt8.ofNat (x / 256), UInt8.ofNat (x / 65536), UInt8.ofNat (x / 16777216)]

@[simp] theorem length_le32 (x : ℕ) : (le32 x).length = 4 := rfl

/-- The little-endian 32-bit word at offset `o` of a byte string (bytes past its end read 0). -/
def wordAt (b : Bytes) (o : ℕ) : ℕ :=
  (b.getD o 0).toNat + 256 * (b.getD (o + 1) 0).toNat + 65536 * (b.getD (o + 2) 0).toNat +
    16777216 * (b.getD (o + 3) 0).toNat

theorem wordAt_lt (b : Bytes) (o : ℕ) : wordAt b o < 2 ^ 32 := by
  have h0 := (b.getD o 0).toNat_lt
  have h1 := (b.getD (o + 1) 0).toNat_lt
  have h2 := (b.getD (o + 2) 0).toNat_lt
  have h3 := (b.getD (o + 3) 0).toNat_lt
  simp only [wordAt]; omega

theorem wordAt_le32 {x : ℕ} (h : x < 2 ^ 32) : wordAt (le32 x) 0 = x := by
  simp only [wordAt, le32, List.getD_cons_zero, List.getD_cons_succ, UInt8.toNat_ofNat', Nat.zero_add]
  omega

/-- A word of a string is the first word of what is left from there on. -/
theorem wordAt_drop (b : Bytes) (o k : ℕ) : wordAt (b.drop o) k = wordAt b (o + k) := by
  simp only [wordAt, List.getD_eq_getElem?_getD, List.getElem?_drop, Nat.add_assoc]

theorem wordAt_skip {a : Bytes} {n : ℕ} (h : a.length = n) (b : Bytes) (k : ℕ) :
    wordAt (a ++ b) (n + k) = wordAt b k := by
  rw [← wordAt_drop, List.drop_left' h]

theorem wordAt_le32_append {x : ℕ} (h : x < 2 ^ 32) (b : Bytes) : wordAt (le32 x ++ b) 0 = x :=
  wordAt_le32 h

/-- A word whose four bytes are those of `le32 x`. -/
theorem word_of_le32 {m : Memory} {a x : ℕ} (hx : x < 2 ^ 32)
    (h : ∀ i < 4, m (a + i) = (le32 x).getD i 0) : m.word a = x := by
  have h0 := h 0 (by decide)
  rw [Nat.add_zero] at h0
  rw [Memory.word, h0, h 1 (by decide), h 2 (by decide), h 3 (by decide)]
  exact wordAt_le32 hx

end Qcc730.Lib
