import Mathlib.Tactic

/-! A counter in two words.

    A counter of `2 * w` bits is read one word of `w` bits after the other. It may go on between the two, so the words
    may not belong together. -/

namespace Qcc730.Lib

variable {w c lo hi : ℕ}

def lowWord (w c : ℕ) : ℕ := c % 2 ^ w

def highWord (w c : ℕ) : ℕ := c / 2 ^ w % 2 ^ w

/-- The value of two words. -/
def joinWords (w hi lo : ℕ) : ℕ := hi <<< w ||| lo

theorem lowWord_lt : lowWord w c < 2 ^ w := Nat.mod_lt _ (Nat.two_pow_pos w)

theorem joinWords_eq (h : lo < 2 ^ w) : joinWords w hi lo = hi * 2 ^ w + lo := by
  rw [joinWords, ← Nat.shiftLeft_add_eq_or_of_lt h, Nat.shiftLeft_eq]

theorem highWord_eq (h : c < 2 ^ (2 * w)) : highWord w c = c / 2 ^ w := by
  refine Nat.mod_eq_of_lt ((Nat.div_lt_iff_lt_mul (Nat.two_pow_pos w)).mpr ?_)
  rwa [← Nat.pow_add, ← Nat.two_mul]

theorem joinWords_words (h : c < 2 ^ (2 * w)) : joinWords w (highWord w c) (lowWord w c) = c := by
  rw [joinWords_eq lowWord_lt, highWord_eq h, lowWord, Nat.div_add_mod']

/-! ### Reading -/

/-- Which word is read first. -/
inductive WordOrder where
  | highFirst
  | lowFirst

/-- Two reads of a register: the counter at the first one, and how far it goes to the second one. It does not pass a
    whole word in between, and does not wrap. -/
structure Reading (w : ℕ) where
  before : ℕ
  advance : ℕ
  short : advance < 2 ^ w
  fits : before + advance < 2 ^ (2 * w)

namespace Reading

variable {r r' : Reading w}

/-- The counter at the second read. -/
def after (r : Reading w) : ℕ := r.before + r.advance

theorem before_le_after : r.before ≤ r.after := Nat.le_add_right ..

/-- The high word that is read. -/
def high (r : Reading w) : WordOrder → ℕ
  | .highFirst => highWord w r.before
  | .lowFirst => highWord w r.after

/-- The low word that is read. -/
def low (r : Reading w) : WordOrder → ℕ
  | .highFirst => lowWord w r.after
  | .lowFirst => lowWord w r.before

/-- What is read. -/
def read (r : Reading w) (o : WordOrder) : ℕ := joinWords w (r.high o) (r.low o)

/-- The value read is one of the counter's in between. -/
def Untorn (r : Reading w) (x : ℕ) : Prop := r.before ≤ x ∧ x ≤ r.after

/-- The low word rolls over in between. -/
def Straddles (r : Reading w) : Prop := r.before / 2 ^ w ≠ r.after / 2 ^ w

instance : Decidable r.Straddles := inferInstanceAs (Decidable (_ ≠ _))

/-- The high word goes on by one at most. -/
theorem high_le : r.after / 2 ^ w ≤ r.before / 2 ^ w + 1 := by
  have hlt : r.after < r.before + 2 ^ w := Nat.add_lt_add_left r.short _
  have hdiv := Nat.div_le_div_right (c := 2 ^ w) hlt.le
  rwa [Nat.add_div_right _ (Nat.two_pow_pos w)] at hdiv

theorem before_lt : r.before < 2 ^ (2 * w) := before_le_after.trans_lt r.fits

theorem after_lt : r.after < 2 ^ (2 * w) := r.fits

theorem read_highFirst : r.read .highFirst = r.before / 2 ^ w * 2 ^ w + r.after % 2 ^ w := by
  rw [read, high, low, joinWords_eq lowWord_lt, highWord_eq before_lt, lowWord]

theorem read_lowFirst : r.read .lowFirst = r.after / 2 ^ w * 2 ^ w + r.before % 2 ^ w := by
  rw [read, high, low, joinWords_eq lowWord_lt, highWord_eq after_lt, lowWord]

/-- What is read is a value of the counter in between, unless the low word rolls over: then it is a whole high word too
    early, or too late. -/
theorem untorn_iff (o : WordOrder) : r.Untorn (r.read o) ↔ ¬ r.Straddles := by
  have hb := Nat.div_add_mod' r.before (2 ^ w)
  have ha := Nat.div_add_mod' r.after (2 ^ w)
  have hle : r.before ≤ r.after := before_le_after
  have hshort : r.after < r.before + 2 ^ w := Nat.add_lt_add_left r.short _
  rw [Straddles, not_not]
  constructor
  · intro huntorn
    by_contra hne
    have hsucc : r.after / 2 ^ w = r.before / 2 ^ w + 1 :=
      Nat.le_antisymm high_le (Nat.lt_of_le_of_ne (Nat.div_le_div_right hle) hne)
    rw [hsucc, Nat.add_mul, Nat.one_mul] at ha
    obtain ⟨hlow, hhigh⟩ := huntorn
    cases o with
    | highFirst =>
      rw [read_highFirst] at hlow
      omega
    | lowFirst =>
      rw [read_lowFirst, hsucc, Nat.add_mul, Nat.one_mul] at hhigh
      omega
  · intro heq
    cases o with
    | highFirst =>
      rw [Untorn, read_highFirst, heq, ha]
      exact ⟨hle, le_rfl⟩
    | lowFirst =>
      rw [Untorn, read_lowFirst, ← heq, hb]
      exact ⟨le_rfl, hle⟩

/-- Reads one after the other. -/
def Successive (rs : List (Reading w)) : Prop := rs.Pairwise fun r r' => r.after ≤ r'.before

/-- Values that are not torn never go backwards. -/
theorem Successive.never_back {f : Reading w → ℕ} {rs : List (Reading w)} (h : Successive rs)
    (hf : ∀ r ∈ rs, r.Untorn (f r)) : (rs.map f).Pairwise (· ≤ ·) :=
  List.pairwise_map.mpr (h.imp_of_mem fun {r r'} hr hr' hle => (hf r hr).2.trans (hle.trans (hf r' hr').1))

end Reading

/-! ### Reading the high word again -/

/-- The high word, the low word and the high word once more, and if it is another one the low word, too. The counter is
    `c₀`, `c₁`, `c₂` and `c₃` then. -/
def readAgain (w c₀ c₁ c₂ c₃ : ℕ) : ℕ :=
  joinWords w (highWord w c₂) (if highWord w c₂ ≠ highWord w c₀ then lowWord w c₃ else lowWord w c₁)

/-- That value is not torn. -/
theorem readAgain_untorn {c₀ c₁ c₂ c₃ : ℕ} (h₁ : c₀ ≤ c₁) (h₂ : c₁ ≤ c₂) (h₃ : c₂ ≤ c₃) (hshort : c₃ < c₀ + 2 ^ w)
    (hfits : c₃ < 2 ^ (2 * w)) : c₀ ≤ readAgain w c₀ c₁ c₂ c₃ ∧ readAgain w c₀ c₁ c₂ c₃ ≤ c₃ := by
  have hd₀ := Nat.div_add_mod' c₀ (2 ^ w)
  have hd₂ := Nat.div_le_div_right (c := 2 ^ w) (h₁.trans h₂)
  rw [readAgain, highWord_eq (h₃.trans_lt hfits), highWord_eq ((h₁.trans (h₂.trans h₃)).trans_lt hfits)]
  split
  · rename_i hne
    -- the low word has rolled over already, and does not do it again
    have hsame : c₃ / 2 ^ w = c₂ / 2 ^ w := by
      have hlast := Nat.div_le_div_right (c := 2 ^ w) hshort.le
      rw [Nat.add_div_right _ (Nat.two_pow_pos w)] at hlast
      have hle := Nat.div_le_div_right (c := 2 ^ w) h₃
      omega
    rw [joinWords_eq lowWord_lt, ← hsame, lowWord, Nat.div_add_mod']
    exact ⟨h₁.trans (h₂.trans h₃), le_rfl⟩
  · rename_i heq
    have hsame : c₁ / 2 ^ w = c₂ / 2 ^ w :=
      Nat.le_antisymm (Nat.div_le_div_right h₂) (not_not.mp heq ▸ Nat.div_le_div_right h₁)
    rw [joinWords_eq lowWord_lt, ← hsame, lowWord, Nat.div_add_mod']
    exact ⟨h₁, h₂.trans h₃⟩

end Qcc730.Lib
