import Mathlib
import Qcc730.Qat.Parser

/-! Numbers and byte strings in the text of a parameter.

    The console and the AT commands read an integer digit by digit in 32-bit arithmetic, and a byte string two digits
    at a time into a buffer of the caller's. Both recognise a digit after bit 5 of the character was set, and both take
    `0x` or `0X` off first. -/

namespace Qcc730.Qat.Numbers

/-- What holds of the numbers below 256 as bytes holds of every byte. -/
theorem forall_byte {P : UInt8 → Prop} (h : ∀ n < 256, P (UInt8.ofNat n)) (c : UInt8) : P c := by
  have := h c.toNat c.toNat_lt
  rwa [UInt8.ofNat_toNat] at this

/-! ### Digits -/

/-- `QCLI_Hex_Nibble_To_Int`, `QAT_Hex_Nibble_To_Int`. -/
def hexNibbleToInt (nibble : UInt8) : Option UInt8 := hexDigit (nibble ||| 0x20)

/-- A control character that becomes a decimal digit with bit 5 set. -/
def isControlDigit (c : UInt8) : Bool := 0x10 ≤ c ∧ c ≤ 0x19

/-- What the digit functions say of each byte. -/
theorem hexNibble_table : ∀ c : UInt8,
    hexNibbleToInt c = (if isControlDigit c then some (c - 0x10) else hexDigit c) ∧
    (isControlDigit c = true → hexDigit c = none) ∧ (hexDigit c).all (·.toNat < 16) = true :=
  forall_byte (by decide +kernel)

/-- The source reads a hexadecimal digit for what it is, and the control digits as the digits 0 to 9. -/
theorem hexNibbleToInt_eq (c : UInt8) :
    hexNibbleToInt c = if isControlDigit c then some (c - 0x10) else hexDigit c :=
  (hexNibble_table c).1

theorem hexDigit_control {c : UInt8} (h : isControlDigit c = true) : hexDigit c = none := (hexNibble_table c).2.1 h

theorem hexNibbleToInt_of_digit {c v : UInt8} (h : hexDigit c = some v) : hexNibbleToInt c = some v := by
  rw [hexNibbleToInt_eq]
  split
  · rename_i hc
    rw [hexDigit_control hc] at h
    cases h
  · exact h

/-! ### Integers -/

def minus : UInt8 := 0x2D
def zero : UInt8 := 0x30

/-- What the loop of `QCLI_String_To_Integer` takes a character for; `none` ends it. -/
def digitIn (base : ℕ) (c : UInt8) : Option ℕ := ((hexNibbleToInt c).map UInt8.toNat).filter (· < base)

/-- `Number` after the digits, if it had no upper end. -/
def valueFrom (base n : ℕ) (ds : List UInt8) : ℕ := ds.foldl (fun n c => n * base + (digitIn base c).getD 0) n

/-- The lower 32 bits do not fall from one digit to the next; this is how the source looks for an overflow. -/
def Rises (base : ℕ) : ℕ → List UInt8 → Prop
  | _, [] => True
  | n, c :: cs =>
    n % 2 ^ 32 ≤ (n * base + (digitIn base c).getD 0) % 2 ^ 32 ∧ Rises base (n * base + (digitIn base c).getD 0) cs

instance : ∀ base n ds, Decidable (Rises base n ds)
  | _, _, [] => inferInstanceAs (Decidable True)
  | base, n, c :: cs =>
    @instDecidableAnd _ _ _ (instDecidableRises base (n * base + (digitIn base c).getD 0) cs)

/-- Every character is taken for a digit. -/
def AllDigits (base : ℕ) (ds : List UInt8) : Prop := ∀ c ∈ ds, (digitIn base c).isSome

instance (base : ℕ) (ds : List UInt8) : Decidable (AllDigits base ds) := List.decidableBAll ..

/-- The loop, by the value of the digits. -/
theorem digitsToInteger_eq (base n : ℕ) (ds : List UInt8) :
    digitsToInteger base ds (n % 2 ^ 32) =
      if AllDigits base ds ∧ Rises base n ds then some (valueFrom base n ds % 2 ^ 32) else none := by
  induction ds generalizing n with
  | nil => simp [digitsToInteger, AllDigits, Rises, valueFrom]
  | cons c cs ih =>
    have hall : AllDigits base (c :: cs) ↔ (digitIn base c).isSome ∧ AllDigits base cs := by
      simp only [AllDigits, List.forall_mem_cons]
    rw [digitsToInteger]
    simp only [hall]
    cases hc : hexDigit (c ||| 0x20) with
    | none => simp [digitIn, hexNibbleToInt, hc]
    | some v =>
      by_cases hv : v.toNat < base
      · have hdigit : digitIn base c = some v.toNat := by simp [digitIn, hexNibbleToInt, hc, hv]
        have hnext : (n % 2 ^ 32 * base + v.toNat) % 2 ^ 32 = (n * base + v.toNat) % 2 ^ 32 := by
          simp [Nat.add_mod, Nat.mul_mod]
        simp only [if_pos hv, hnext, Rises, hdigit, Option.getD_some, Option.isSome_some, true_and, ih]
        by_cases hle : n % 2 ^ 32 ≤ (n * base + v.toNat) % 2 ^ 32
        · simp only [hle, if_true, true_and, valueFrom, List.foldl_cons, hdigit, Option.getD_some]
        · simp only [hle, false_and, and_false, if_false]
      · have hdigit : digitIn base c = none := by simp [digitIn, hexNibbleToInt, hc, not_lt.mp hv]
        simp [hv, hdigit]

/-- A value that fits in 32 bits never falls. -/
theorem rises_of_lt {base : ℕ} (hbase : 0 < base) {n : ℕ} {ds : List UInt8} (h : valueFrom base n ds < 2 ^ 32) :
    Rises base n ds := by
  have hle : ∀ n (ds : List UInt8), n ≤ valueFrom base n ds := by
    intro n ds
    induction ds generalizing n with
    | nil => exact le_rfl
    | cons c cs ih => exact le_trans (le_trans (Nat.le_mul_of_pos_right n hbase) (Nat.le_add_right ..)) (ih _)
  induction ds generalizing n with
  | nil => trivial
  | cons c cs ih =>
    have hnext : n * base + (digitIn base c).getD 0 < 2 ^ 32 := (hle _ cs).trans_lt h
    have hn : n ≤ n * base + (digitIn base c).getD 0 :=
      le_trans (Nat.le_mul_of_pos_right n hbase) (Nat.le_add_right ..)
    refine ⟨?_, ih h⟩
    rw [Nat.mod_eq_of_lt hnext, Nat.mod_eq_of_lt (hn.trans_lt hnext)]
    exact hn

/-- The digits of a number, and its value. -/
def numeral (base : ℕ) (ds : List UInt8) : Option ℕ :=
  if ds ≠ [] ∧ ∀ c ∈ ds, ∃ v ∈ hexDigit c, v.toNat < base then
    some (ds.foldl (fun n c => n * base + ((hexDigit c).getD 0).toNat) 0)
  else none

/-- What an integer parameter means: an optional minus, then decimal digits, or `0x` and hexadecimal digits, and a
    value that fits. An unsigned hexadecimal number gives the 32-bit integer with these bits. -/
inductive Denotes : List UInt8 → ℤ → Prop where
  | decimal {ds : List UInt8} {n : ℕ} (h : numeral 10 ds = some n) (hn : n < 2 ^ 31) : Denotes ds n
  | negative {ds : List UInt8} {n : ℕ} (h : numeral 10 ds = some n) (hn : n < 2 ^ 31) : Denotes (minus :: ds) (-n)
  | hex {x : UInt8} {ds : List UInt8} {n : ℕ} (hx : x = 0x78 ∨ x = 0x58) (h : numeral 16 ds = some n)
      (hn : n < 2 ^ 32) :
    Denotes (zero :: x :: ds) (Int.bmod n (2 ^ 32))
  | negativeHex {x : UInt8} {ds : List UInt8} {n : ℕ} (hx : x = 0x78 ∨ x = 0x58) (h : numeral 16 ds = some n)
    (hn : n < 2 ^ 31) : Denotes (minus :: zero :: x :: ds) (-n)

/-- What `QCLI_String_To_Integer` returns, and `Output`. -/
def qcliStringToInteger (string : List UInt8) : Bool × ℤ :=
  match stringToInteger string with
  | some n => (true, n)
  | none => (false, 0)

/-- The integer is parsed exactly. -/
def ParsedExactly (string : List UInt8) : Prop :=
  (∃ n, Denotes string n ∧ qcliStringToInteger string = (true, n)) ∨
    (∀ n, ¬ Denotes string n) ∧ qcliStringToInteger string = (false, 0)

/-! ### The parts of the text -/

def isNegative (string : List UInt8) : Bool := string.head? = some minus

def unsigned (string : List UInt8) : List UInt8 := if isNegative string then string.tail else string

/-- The text starts with `0x` or `0X`. -/
def isHex (string : List UInt8) : Bool := string.head? = some zero ∧ string[1]?.map (· ||| 0x20) = some lowerX

def base (string : List UInt8) : ℕ := if isHex (unsigned string) then 16 else 10

def digits (string : List UInt8) : List UInt8 :=
  if isHex (unsigned string) then (unsigned string).drop 2 else unsigned string

/-- Only an unsigned hexadecimal number may have all of 32 bits. -/
def isSigned (string : List UInt8) : Bool := !isHex (unsigned string) || isNegative string

/-- The integer that is made of `Number`. -/
def output (string : List UInt8) (number : ℕ) : ℤ :=
  if isNegative string then -(number : ℤ) else Int.bmod number (2 ^ 32)

theorem output_eq {string : List UInt8} {n : ℕ} (hn : n < 2 ^ 32) :
    output string n =
      if isNegative string then -(n : ℤ) else if 2 ^ 31 ≤ n then (n : ℤ) - 2 ^ 32 else n := by
  rw [output, Int.bmod_def]
  split
  · rfl
  · have hmod : (n : ℤ) % ((2 ^ 32 : ℕ) : ℤ) = n := Int.emod_eq_of_lt (by omega) (by omega)
    rw [hmod]
    split
    all_goals split
    all_goals omega

/-- The integer that is read, by the parts of the text. -/
theorem stringToInteger_eq (string : List UInt8) :
    stringToInteger string =
      if AllDigits (base string) (digits string) ∧ Rises (base string) 0 (digits string) ∧
          ¬ (isSigned string ∧ 2 ^ 31 ≤ valueFrom (base string) 0 (digits string) % 2 ^ 32) then
        some (output string (valueFrom (base string) 0 (digits string) % 2 ^ 32))
      else none := by
  have hneg : string.head? = some 0x2D ↔ isNegative string = true := by
    rw [isNegative, decide_eq_true_iff]
    rfl
  have hhex : ∀ b : List UInt8, (b.head? = some 0x30 ∧ b[1]?.map (· ||| 0x20) = some lowerX) ↔ isHex b = true := by
    simp [isHex, zero]
  have hunsigned : (if isNegative string = true then string.tail else string) = unsigned string := rfl
  have hbase : (if isHex (unsigned string) = true then 16 else 10) = base string := rfl
  have hdigits : (if isHex (unsigned string) = true then (unsigned string).drop 2 else unsigned string) =
      digits string :=
    rfl
  have hsigned : ¬ isHex (unsigned string) = true ∨ isNegative string = true ↔ isSigned string = true := by
    simp [isSigned]
  have hloop := digitsToInteger_eq (base string) 0 (digits string)
  rw [Nat.zero_mod] at hloop
  simp only [stringToInteger, hneg, hunsigned, hhex, hbase, hdigits, hsigned]
  by_cases hread : AllDigits (base string) (digits string) ∧ Rises (base string) 0 (digits string)
  · have hlt := Nat.mod_lt (valueFrom (base string) 0 (digits string)) (by decide : 2 ^ 32 > 0)
    rw [hloop, if_pos hread, output_eq hlt]
    simp only [hread.1, hread.2, true_and, ite_not]
    split
    · rfl
    · split
      · rfl
      · split
        all_goals rfl
  · rw [hloop, if_neg hread, if_neg fun h => hread ⟨h.1, h.2.1⟩]

/-- What the digits of a number have in common with what the source takes them for. -/
theorem numeral_eq_some {b n : ℕ} {ds : List UInt8} :
    numeral b ds = some n ↔
      ds ≠ [] ∧ AllDigits b ds ∧ (∀ c ∈ ds, (hexDigit c).isSome) ∧ n = valueFrom b 0 ds := by
  have hdigit : ∀ {c v}, hexDigit c = some v → digitIn b c = if v.toNat < b then some v.toNat else none := by
    intro c v hv
    simp [digitIn, hexNibbleToInt_of_digit hv, Option.filter]
  have hall : (∀ c ∈ ds, ∃ v ∈ hexDigit c, v.toNat < b) ↔ AllDigits b ds ∧ ∀ c ∈ ds, (hexDigit c).isSome := by
    constructor
    · intro h
      refine ⟨fun c hc => ?_, fun c hc => ?_⟩
      · obtain ⟨v, hv, hlt⟩ := h c hc
        rw [hdigit hv, if_pos hlt]
        rfl
      · obtain ⟨v, hv, -⟩ := h c hc
        rw [Option.isSome_iff_exists]
        exact ⟨v, hv⟩
    · rintro ⟨hdigits, hreal⟩ c hc
      obtain ⟨v, hv⟩ := Option.isSome_iff_exists.mp (hreal c hc)
      refine ⟨v, hv, ?_⟩
      by_contra hlt
      have := hdigits c hc
      rw [hdigit hv, if_neg hlt] at this
      cases this
  have hvalue : (∀ c ∈ ds, ∃ v ∈ hexDigit c, v.toNat < b) →
      ds.foldl (fun n c => n * b + ((hexDigit c).getD 0).toNat) 0 = valueFrom b 0 ds := by
    intro h
    refine List.foldl_ext _ _ _ fun n c hc => ?_
    obtain ⟨v, hv, hlt⟩ := h c hc
    rw [hdigit hv, if_pos hlt, Option.mem_def.mp hv]
    rfl
  rw [numeral]
  split
  · rename_i h
    rw [hvalue h.2, Option.some.injEq, eq_comm]
    exact ⟨fun hn => ⟨h.1, (hall.mp h.2).1, (hall.mp h.2).2, hn⟩, fun h => h.2.2.2⟩
  · rename_i h
    refine ⟨nofun, fun ⟨hne, hdigits, hreal, _⟩ => absurd ⟨hne, hall.mpr ⟨hdigits, hreal⟩⟩ h⟩

theorem isHex_of_start {x : UInt8} (ds : List UInt8) (hx : x = 0x78 ∨ x = 0x58) : isHex (zero :: x :: ds) = true := by
  obtain rfl | rfl := hx
  all_goals
    simp only [isHex, List.head?_cons, List.getElem?_cons_succ, List.getElem?_cons_zero, Option.map_some, true_and]
    decide

theorem isHex_cases {string : List UInt8} (h : isHex string = true) :
    ∃ x ds, string = zero :: x :: ds ∧ (x = 0x78 ∨ x = 0x58) := by
  match string with
  | [] | [_] => simp [isHex] at h
  | c :: x :: ds =>
    simp only [isHex, List.head?_cons, Option.some.injEq, List.getElem?_cons_succ, List.getElem?_cons_zero,
      Option.map_some, decide_eq_true_eq] at h
    refine ⟨x, ds, by rw [h.1], ?_⟩
    have hfolds : ∀ x : UInt8, x ||| 0x20 = lowerX → x = 0x78 ∨ x = 0x58 := forall_byte (by decide +kernel)
    exact hfolds x h.2

/-- A decimal digit starts neither a negative nor, as the second character, a hexadecimal number. -/
theorem isNegative_numeral {n : ℕ} {ds : List UInt8} (h : numeral 10 ds = some n) :
    isNegative ds = false ∧ isHex ds = false := by
  have hplain : ∀ c ∈ ds, c ≠ minus ∧ c ||| 0x20 ≠ lowerX := by
    intro c hc
    have hdigit : ∀ c, (digitIn 10 c).isSome → c ≠ minus ∧ c ||| 0x20 ≠ lowerX := forall_byte (by decide +kernel)
    exact hdigit c ((numeral_eq_some.mp h).2.1 c hc)
  constructor
  · rw [isNegative, decide_eq_false_iff_not]
    intro hhead
    exact (hplain _ (List.mem_of_mem_head? hhead)).1 rfl
  · rw [isHex, decide_eq_false_iff_not]
    rintro ⟨-, hsecond⟩
    obtain ⟨c, hc, hx⟩ := Option.map_eq_some_iff.mp hsecond
    exact (hplain c (List.mem_of_getElem? hc)).2 hx

theorem bmod_of_lt {n : ℕ} (hn : n < 2 ^ 31) : Int.bmod n (2 ^ 32) = n := by
  rw [Int.bmod_def]
  omega

/-- What a text means, by its parts. -/
theorem denotes_iff (string : List UInt8) (v : ℤ) :
    Denotes string v ↔
      ∃ n, numeral (base string) (digits string) = some n ∧ n < (if isSigned string then 2 ^ 31 else 2 ^ 32) ∧
        v = output string n := by
  constructor
  · intro h
    cases h with
    | @decimal ds n hn hlt =>
      obtain ⟨hneg, hhex⟩ := isNegative_numeral hn
      refine ⟨n, by simpa [base, digits, unsigned, hneg, hhex] using hn,
        by simpa [isSigned, unsigned, hneg, hhex] using hlt, ?_⟩
      simp only [output, hneg, Bool.false_eq_true, if_false, bmod_of_lt hlt]
    | @negative ds n hn hlt =>
      obtain ⟨-, hhex⟩ := isNegative_numeral hn
      have hneg : isNegative (minus :: ds) = true := by simp [isNegative]
      refine ⟨n, by simpa [base, digits, unsigned, hneg, hhex] using hn,
        by simpa [isSigned, unsigned, hneg, hhex] using hlt, ?_⟩
      simp only [output, hneg, if_true]
    | @hex x ds n hx hn hlt =>
      have hneg : isNegative (zero :: x :: ds) = false := by simp [isNegative, zero, minus]
      have hhex := isHex_of_start ds hx
      refine ⟨n, by simpa [base, digits, unsigned, hneg, hhex] using hn,
        by simpa [isSigned, unsigned, hneg, hhex] using hlt, ?_⟩
      simp only [output, hneg, Bool.false_eq_true, if_false]
    | @negativeHex x ds n hx hn hlt =>
      have hneg : isNegative (minus :: zero :: x :: ds) = true := by simp [isNegative]
      have hhex := isHex_of_start ds hx
      refine ⟨n, by simpa [base, digits, unsigned, hneg, hhex] using hn,
        by simpa [isSigned, unsigned, hneg, hhex] using hlt, ?_⟩
      simp only [output, hneg, if_true]
  · rintro ⟨n, hn, hlt, rfl⟩
    cases hneg : isNegative string with
    | false =>
      have hunsigned : unsigned string = string := by simp [unsigned, hneg]
      cases hhex : isHex string with
      | false =>
        simp only [base, digits, hunsigned, hhex, Bool.false_eq_true, if_false] at hn
        simp only [isSigned, hunsigned, hhex, Bool.not_false, Bool.true_or, if_true] at hlt
        simp only [output, hneg, Bool.false_eq_true, if_false, bmod_of_lt hlt]
        exact .decimal hn hlt
      | true =>
        obtain ⟨x, ds, rfl, hx⟩ := isHex_cases hhex
        simp only [base, digits, hunsigned, hhex, if_true] at hn
        simp only [isSigned, hunsigned, hhex, hneg, Bool.not_true, Bool.or_self, Bool.false_eq_true, if_false] at hlt
        simp only [output, hneg, Bool.false_eq_true, if_false]
        exact .hex hx hn hlt
    | true =>
      obtain ⟨rest, rfl⟩ : ∃ rest, string = minus :: rest := by
        cases string with
        | nil => simp [isNegative] at hneg
        | cons c rest =>
          simp only [isNegative, List.head?_cons, Option.some.injEq, decide_eq_true_eq] at hneg
          exact ⟨rest, by rw [hneg]⟩
      have hunsigned : unsigned (minus :: rest) = rest := by simp [unsigned, hneg]
      simp only [isSigned, hneg, Bool.or_true, if_true] at hlt
      simp only [output, hneg, if_true]
      cases hhex : isHex rest with
      | false =>
        simp only [base, digits, hunsigned, hhex, Bool.false_eq_true, if_false] at hn
        exact .negative hn hlt
      | true =>
        obtain ⟨x, ds, rfl, hx⟩ := isHex_cases hhex
        simp only [base, digits, hunsigned, hhex, if_true] at hn
        exact .negativeHex hx hn hlt

/-- When the integer is parsed exactly: there is a digit, and either a character is refused, an overflow shows, or every
    character is a digit and the value fits in 32 bits. -/
def ExactWhen (string : List UInt8) : Prop :=
  digits string ≠ [] ∧
    (¬ AllDigits (base string) (digits string) ∨ ¬ Rises (base string) 0 (digits string) ∨
      (isSigned string ∧ 2 ^ 31 ≤ valueFrom (base string) 0 (digits string) % 2 ^ 32) ∨
      ((∀ c ∈ digits string, (hexDigit c).isSome) ∧ valueFrom (base string) 0 (digits string) < 2 ^ 32))

theorem parsed_exactly_iff (string : List UInt8) : ParsedExactly string ↔ ExactWhen string := by
  have hbase : 0 < base string := by
    rw [base]
    split
    all_goals decide
  have hcode := stringToInteger_eq string
  have hspec := denotes_iff string
  simp only [numeral_eq_some] at hspec
  rw [ExactWhen]
  generalize hV : valueFrom (base string) 0 (digits string) = V at hcode hspec ⊢
  have hrises : V < 2 ^ 32 → Rises (base string) 0 (digits string) := fun h => rises_of_lt hbase (by rwa [hV])
  have hbound : (if isSigned string then 2 ^ 31 else 2 ^ 32) ≤ 2 ^ 32 := by
    split
    all_goals decide
  constructor
  · intro hexact
    have hmeans : ∀ v, stringToInteger string = some v → ∃ n, Denotes string n := by
      intro v hv
      obtain ⟨n, hn, -⟩ | ⟨-, hret⟩ := hexact
      · exact ⟨n, hn⟩
      · simp [qcliStringToInteger, hv] at hret
    have hne : digits string ≠ [] := by
      intro hnil
      -- the source returns 0 for no digits
      have hzero : V = 0 := by
        rw [← hV, hnil]
        rfl
      rw [hnil, hzero, if_pos ⟨nofun, trivial, by omega⟩] at hcode
      obtain ⟨n, hn⟩ := hmeans _ hcode
      obtain ⟨_, ⟨hne, -⟩, -⟩ := (hspec n).mp hn
      exact hne hnil
    refine ⟨hne, ?_⟩
    by_contra hnot
    simp only [not_or, not_not] at hnot
    obtain ⟨hall, hr, hs, hbig⟩ := hnot
    rw [if_pos ⟨hall, hr, hs⟩] at hcode
    obtain ⟨n, hn⟩ := hmeans _ hcode
    obtain ⟨m, ⟨-, -, hreal, rfl⟩, hlt, -⟩ := (hspec n).mp hn
    exact hbig ⟨hreal, hlt.trans_le hbound⟩
  · rintro ⟨hne, hwhen⟩
    by_cases hmeans : AllDigits (base string) (digits string) ∧ (∀ c ∈ digits string, (hexDigit c).isSome) ∧
        V < if isSigned string then 2 ^ 31 else 2 ^ 32
    · obtain ⟨hall, hreal, hlt⟩ := hmeans
      have hlt32 := hlt.trans_le hbound
      have hs : ¬ (isSigned string ∧ 2 ^ 31 ≤ V % 2 ^ 32) := by
        rintro ⟨hs, hge⟩
        rw [if_pos hs] at hlt
        rw [Nat.mod_eq_of_lt hlt32] at hge
        omega
      refine .inl ⟨output string V, (hspec _).mpr ⟨V, ⟨hne, hall, hreal, rfl⟩, hlt, rfl⟩, ?_⟩
      rw [qcliStringToInteger, hcode, if_pos ⟨hall, hrises hlt32, hs⟩, Nat.mod_eq_of_lt hlt32]
    · refine .inr ⟨fun n hn => ?_, ?_⟩
      · obtain ⟨m, ⟨-, hall, hreal, rfl⟩, hlt, -⟩ := (hspec n).mp hn
        exact hmeans ⟨hall, hreal, hlt⟩
      · have hread : ¬ (AllDigits (base string) (digits string) ∧ Rises (base string) 0 (digits string) ∧
            ¬ (isSigned string ∧ 2 ^ 31 ≤ V % 2 ^ 32)) := by
          rintro ⟨hall, hr, hs⟩
          obtain h | h | h | ⟨hreal, hlt⟩ := hwhen
          · exact h hall
          · exact h hr
          · exact hs h
          · refine hmeans ⟨hall, hreal, ?_⟩
            rw [Nat.mod_eq_of_lt hlt] at hs
            split
            · rename_i hsigned
              exact not_le.mp fun hge => hs ⟨hsigned, hge⟩
            · exact hlt
        rw [qcliStringToInteger, hcode, if_neg hread]

/-- The text 5000000000 is taken for the number that its lower 32 bits make. -/
theorem overflow_accepted :
    qcliStringToInteger [0x35, 0x30, 0x30, 0x30, 0x30, 0x30, 0x30, 0x30, 0x30, 0x30] = (true, 705032704) ∧
    ¬ ParsedExactly [0x35, 0x30, 0x30, 0x30, 0x30, 0x30, 0x30, 0x30, 0x30, 0x30] := by
  obtain ⟨hread, hfive⟩ : qcliStringToInteger [0x35, 0x30, 0x30, 0x30, 0x30, 0x30, 0x30, 0x30, 0x30, 0x30] =
      (true, 705032704) ∧
      numeral 10 [0x35, 0x30, 0x30, 0x30, 0x30, 0x30, 0x30, 0x30, 0x30, 0x30] = some 5000000000 := by
    decide +kernel
  refine ⟨hread, ?_⟩
  rintro (⟨v, hv, -⟩ | ⟨-, hret⟩)
  · obtain ⟨n, hn, hlt, -⟩ := (denotes_iff _ v).mp hv
    obtain rfl := Option.some.inj (hn.symm.trans hfive)
    exact absurd hlt (by decide)
  · rw [hread] at hret
    cases hret

/-! ### Byte strings -/

/-- The loop of `QCLI_Hex_String_To_Array` and `QAT_Hex_String_To_Array` with room for so many bytes: the result, and
    the bytes that were stored. -/
def hexLoop : ℕ → List UInt8 → Bool × List UInt8
  | room + 1, c :: d :: string =>
    match hexNibbleToInt c, hexNibbleToInt d with
    | some high, some low => ((hexLoop room string).1, (high <<< 4 ||| low) :: (hexLoop room string).2)
    | _, _ => (false, [])
  | _ + 1, [_] => (false, [])
  | _, _ => (true, [])

/-- What they return, with `OutputSize` and the buffer afterwards. -/
structure HexArray where
  result : Bool
  outputSize : ℕ
  output : List UInt8
  deriving DecidableEq, Repr

/-- The text behind the prefix. -/
def hexText (string : List UInt8) : List UInt8 := if isHex string then string.drop 2 else string

def hexStringToArray (string : List UInt8) (outputSize : ℕ) : HexArray :=
  let (result, stored) := hexLoop outputSize (hexText string)
  ⟨result, if result then stored.length else outputSize, stored ++ List.replicate (outputSize - stored.length) 0⟩

/-- `QCLI_Hex_String_To_Array` -/
def qcliHexStringToArray (string : List UInt8) (outputSize : ℕ) : HexArray := hexStringToArray string outputSize

/-- `QAT_Hex_String_To_Array`, the same code. -/
def qatHexStringToArray (string : List UInt8) (outputSize : ℕ) : HexArray := hexStringToArray string outputSize

/-- The hexadecimal text of bytes, in digits of either case. -/
def IsHexText : List UInt8 → List UInt8 → Prop
  | [], [] => True
  | b :: bs, c :: d :: text => hexDigit c = some (b >>> 4) ∧ hexDigit d = some (b &&& 0xF) ∧ IsHexText bs text
  | _, _ => False

instance : ∀ b text, Decidable (IsHexText b text)
  | [], [] => inferInstanceAs (Decidable True)
  | _ :: bs, _ :: _ :: text =>
    @instDecidableAnd _ _ _ (@instDecidableAnd _ _ _ (instDecidableIsHexText bs text))
  | [], _ :: _ | _ :: _, [] | _ :: _, [_] => inferInstanceAs (Decidable False)

/-- With or without a prefix. -/
def IsTextOf (b string : List UInt8) : Prop :=
  IsHexText b string ∨ ∃ x text, string = zero :: x :: text ∧ (x = 0x78 ∨ x = 0x58) ∧ IsHexText b text

/-- The text of bytes for which there is room gives these; and what is accepted is the text of the bytes stored. -/
def DecodedBy (f : List UInt8 → ℕ → HexArray) (string : List UInt8) (outputSize : ℕ) : Prop :=
  (∀ b, b.length ≤ outputSize → IsTextOf b string →
    f string outputSize = ⟨true, b.length, b ++ List.replicate (outputSize - b.length) 0⟩) ∧
  ((f string outputSize).result = true →
    IsHexText ((f string outputSize).output.take (f string outputSize).outputSize) (hexText string))

/-- The text fits and no control character stands for a digit in it; or, as far as there is room, it has an odd number
    of characters or one that is refused. -/
def DecodedWhen (string : List UInt8) (outputSize : ℕ) : Prop :=
  ((hexText string).length ≤ 2 * outputSize ∧ ∀ c ∈ hexText string, isControlDigit c = false) ∨
    ((hexText string).take (2 * outputSize)).length % 2 = 1 ∨
    ∃ c ∈ (hexText string).take (2 * outputSize), hexNibbleToInt c = none

/-! ### The loop over the text -/

/-- The two halves of a byte. -/
theorem halves (b : UInt8) : b >>> 4 <<< 4 ||| b &&& 0xF = b := by
  revert b
  exact forall_byte (by decide +kernel)

theorem hexDigit_lt {c v : UInt8} (h : hexDigit c = some v) : v.toNat < 16 := by
  simpa [h] using (hexNibble_table c).2.2

theorem halves_of_digits {c d high low : UInt8} (hc : hexDigit c = some high) (hd : hexDigit d = some low) :
    (high <<< 4 ||| low) >>> 4 = high ∧ (high <<< 4 ||| low) &&& 0xF = low := by
  have hpair : ∀ a < 16, ∀ b < 16, (UInt8.ofNat a <<< 4 ||| UInt8.ofNat b) >>> 4 = UInt8.ofNat a ∧
      (UInt8.ofNat a <<< 4 ||| UInt8.ofNat b) &&& 0xF = UInt8.ofNat b := by decide +kernel
  simpa using hpair high.toNat (hexDigit_lt hc) low.toNat (hexDigit_lt hd)

theorem hexLoop_of_text {n : ℕ} {b text : List UInt8} (h : IsHexText b text) (hn : b.length ≤ n) :
    hexLoop n text = (true, b) := by
  induction b generalizing n text with
  | nil =>
    match text, h with
    | [], _ => cases n <;> rfl
  | cons b bs ih =>
    match text, h with
    | c :: d :: text, ⟨hc, hd, htext⟩ =>
      cases n with
      | zero => simp at hn
      | succ n =>
        have hrest := ih htext (Nat.le_of_succ_le_succ hn)
        simp only [hexLoop, hexNibbleToInt_of_digit hc, hexNibbleToInt_of_digit hd, hrest, halves]

/-- What the loop accepts: whole pairs of characters that it takes for digits. -/
theorem hexLoop_true_iff (n : ℕ) (text : List UInt8) :
    (hexLoop n text).1 = true ↔
      (text.take (2 * n)).length % 2 = 0 ∧ ∀ c ∈ text.take (2 * n), hexNibbleToInt c ≠ none := by
  induction n generalizing text with
  | zero => simp [hexLoop]
  | succ n ih =>
    match text with
    | [] => simp [hexLoop]
    | [c] => simp [hexLoop, Nat.mul_add]
    | c :: d :: text =>
      have htake : (c :: d :: text).take (2 * (n + 1)) = c :: d :: text.take (2 * n) := by rw [Nat.mul_succ]; rfl
      rw [htake]
      cases hc : hexNibbleToInt c with
      | none => simp [hexLoop, hc]
      | some high =>
        cases hd : hexNibbleToInt d with
        | none => simp [hexLoop, hc, hd]
        | some low =>
          have heven : ((text.take (2 * n)).length + 1 + 1) % 2 = (text.take (2 * n)).length % 2 := by omega
          simp only [hexLoop, hc, hd, ih, List.length_cons, heven, List.forall_mem_cons, ne_eq, reduceCtorEq,
            not_false_eq_true, true_and]

/-- Real digits are stored as what they say. -/
theorem text_of_hexLoop {n : ℕ} {text : List UInt8} (h : (hexLoop n text).1 = true) (hlen : text.length ≤ 2 * n)
    (hdigit : ∀ c ∈ text, isControlDigit c = false) : IsHexText (hexLoop n text).2 text := by
  have hreal : ∀ {c v}, isControlDigit c = false → hexNibbleToInt c = some v → hexDigit c = some v := by
    intro c v hc hv
    rwa [hexNibbleToInt_eq, hc] at hv
  induction n generalizing text with
  | zero =>
    obtain rfl := List.length_eq_zero_iff.mp (Nat.le_zero.mp hlen)
    trivial
  | succ n ih =>
    match text with
    | [] => trivial
    | [c] => simp [hexLoop] at h
    | c :: d :: text =>
      cases hc : hexNibbleToInt c with
      | none => simp [hexLoop, hc] at h
      | some high =>
        cases hd : hexNibbleToInt d with
        | none => simp [hexLoop, hc, hd] at h
        | some low =>
          simp only [hexLoop, hc, hd] at h ⊢
          simp only [List.forall_mem_cons] at hdigit
          have hc' := hreal hdigit.1 hc
          have hd' := hreal hdigit.2.1 hd
          obtain ⟨hhigh, hlow⟩ := halves_of_digits hc' hd'
          refine ⟨hhigh.symm ▸ hc', hlow.symm ▸ hd', ih h ?_ hdigit.2.2⟩
          simp only [List.length_cons] at hlen
          omega

theorem IsHexText.chars {b text : List UInt8} (h : IsHexText b text) :
    text.length = 2 * b.length ∧ ∀ c ∈ text, isControlDigit c = false := by
  have hplain : ∀ {c v}, hexDigit c = some v → isControlDigit c = false := by
    intro c v hc
    by_contra hcontrol
    rw [hexDigit_control (by simpa using hcontrol)] at hc
    cases hc
  induction b generalizing text with
  | nil =>
    match text, h with
    | [], _ => simp
  | cons b bs ih =>
    match text, h with
    | c :: d :: text, ⟨hc, hd, htext⟩ =>
      obtain ⟨hlen, hrest⟩ := ih htext
      refine ⟨by simp only [List.length_cons, hlen]; omega, ?_⟩
      simp only [List.forall_mem_cons]
      exact ⟨hplain hc, hplain hd, hrest⟩

theorem length_hexLoop_le (n : ℕ) (text : List UInt8) : (hexLoop n text).2.length ≤ n := by
  induction n generalizing text with
  | zero => simp [hexLoop]
  | succ n ih =>
    match text with
    | [] => simp [hexLoop]
    | [c] => simp [hexLoop]
    | c :: d :: text =>
      rw [hexLoop]
      split
      · exact Nat.succ_le_succ (ih text)
      · exact Nat.zero_le _

theorem isHex_text {b text : List UInt8} (h : IsHexText b text) : isHex text = false := by
  rw [Bool.eq_false_iff]
  intro hhex
  obtain ⟨x, rest, rfl, hx⟩ := isHex_cases hhex
  match b, h with
  | b :: bs, ⟨_, hd, _⟩ =>
    obtain rfl | rfl := hx
    all_goals
      revert hd
      rw [show hexDigit _ = none by decide]
      exact nofun

theorem hexText_of_isTextOf {b string : List UInt8} (h : IsTextOf b string) : IsHexText b (hexText string) := by
  obtain h | ⟨x, text, rfl, hx, h⟩ := h
  · rwa [hexText, isHex_text h, if_neg Bool.false_ne_true]
  · rwa [hexText, if_pos (isHex_of_start text hx)]

theorem decodedBy_iff (string : List UInt8) (outputSize : ℕ) :
    DecodedBy hexStringToArray string outputSize ↔ DecodedWhen string outputSize := by
  have hresult : (hexStringToArray string outputSize).result = (hexLoop outputSize (hexText string)).1 := rfl
  have hstored : (hexLoop outputSize (hexText string)).1 = true →
      (hexStringToArray string outputSize).output.take (hexStringToArray string outputSize).outputSize =
        (hexLoop outputSize (hexText string)).2 := by
    intro h
    simp only [hexStringToArray, h, if_true, List.take_left']
  constructor
  · rintro ⟨-, haccept⟩
    rw [hresult] at haccept
    by_cases hodd : ((hexText string).take (2 * outputSize)).length % 2 = 1
    · exact .inr (.inl hodd)
    by_cases hrefused : ∃ c ∈ (hexText string).take (2 * outputSize), hexNibbleToInt c = none
    · exact .inr (.inr hrefused)
    have htrue : (hexLoop outputSize (hexText string)).1 = true :=
      (hexLoop_true_iff ..).mpr ⟨by omega, fun c hc hnone => hrefused ⟨c, hc, hnone⟩⟩
    have htext := haccept htrue
    rw [hstored htrue] at htext
    obtain ⟨hlen, hplain⟩ := htext.chars
    have := length_hexLoop_le outputSize (hexText string)
    exact .inl ⟨by omega, hplain⟩
  · intro hwhen
    refine ⟨fun b hb htext => ?_, fun htrue => ?_⟩
    · have hloop := hexLoop_of_text (hexText_of_isTextOf htext) hb
      simp only [hexStringToArray, hloop, if_true]
    · rw [hresult] at htrue
      rw [hstored htrue]
      obtain ⟨heven, hread⟩ := (hexLoop_true_iff ..).mp htrue
      obtain ⟨hlen, hplain⟩ | hodd | ⟨c, hc, hnone⟩ := hwhen
      · exact text_of_hexLoop htrue hlen hplain
      · omega
      · exact absurd hnone (hread c hc)

/-- Both functions decode faithfully under the same condition. -/
theorem hex_decoded_iff (string : List UInt8) (outputSize : ℕ) :
    (DecodedBy qcliHexStringToArray string outputSize ↔ DecodedWhen string outputSize) ∧
    (DecodedBy qatHexStringToArray string outputSize ↔ DecodedWhen string outputSize) :=
  ⟨decodedBy_iff string outputSize, decodedBy_iff string outputSize⟩

/-- A text of three bytes is cut off at the two there is room for, and a control character is taken for a digit. -/
theorem hex_not_decoded :
    ¬ DecodedBy qatHexStringToArray [0x30, 0x31, 0x30, 0x32, 0x30, 0x33] 2 ∧
    ¬ DecodedBy qcliHexStringToArray [0x30, 0x31, 0x30, 0x32, 0x30, 0x33] 2 ∧
    ¬ DecodedBy qatHexStringToArray [0x30, 0x11] 2 := by
  have hcut : ∀ string ∈ [[0x30, 0x31, 0x30, 0x32, 0x30, 0x33], [0x30, 0x11]],
      (hexStringToArray string 2).result = true ∧
      ¬ IsHexText ((hexStringToArray string 2).output.take (hexStringToArray string 2).outputSize) (hexText string) := by
    decide +kernel
  have hnot : ∀ string ∈ [[0x30, 0x31, 0x30, 0x32, 0x30, 0x33], [0x30, 0x11]],
      ¬ DecodedBy hexStringToArray string 2 := fun string hmem h => (hcut string hmem).2 (h.2 (hcut string hmem).1)
  exact ⟨hnot _ (by simp), hnot _ (by simp), hnot _ (by simp)⟩

end Qcc730.Qat.Numbers
