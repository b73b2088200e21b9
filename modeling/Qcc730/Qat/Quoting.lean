import Qcc730.Lib.Reads
import Qcc730.Qat.Parser

/-! Strings in double quotes, as a host writes them for the console and for AT commands. -/

namespace Qcc730.Qat

open Lib

/-- A character that is written with a backslash in front of it. -/
def isEscaped (c : UInt8) : Bool := c == backslash || c == quote

/-- The string with its backslashes and quotes escaped. -/
def escaped (f : List UInt8) : List UInt8 := f.flatMap fun c => if isEscaped c then [backslash, c] else [c]

/-- The string in double quotes. -/
def quoted (f : List UInt8) : List UInt8 := quote :: escaped f ++ [quote]

variable {string : ℕ → UInt8} {f : List UInt8} {c : UInt8} {i : ℕ}

theorem escaped_cons : escaped (c :: f) = (if isEscaped c then [backslash, c] else [c]) ++ escaped f := rfl

theorem escaped_cons_pos (h : isEscaped c = true) : escaped (c :: f) = backslash :: c :: escaped f := by
  rw [escaped_cons, if_pos h]
  rfl

theorem escaped_cons_neg (h : isEscaped c = false) : escaped (c :: f) = c :: escaped f := by
  rw [escaped_cons, if_neg (by rw [h]; exact Bool.false_ne_true)]
  rfl

theorem isEscaped_iff : isEscaped c = true ↔ c = backslash ∨ c = quote := by simp [isEscaped]

/-- Every escape is one byte more. -/
theorem length_escaped : (escaped f).length = f.length + f.countP isEscaped := by
  induction f with
  | nil => rfl
  | cons c f ih =>
    cases h : isEscaped c with
    | true =>
      rw [escaped_cons_pos h, List.countP_cons_of_pos h]
      simp only [List.length_cons, ih]
      omega
    | false =>
      rw [escaped_cons_neg h, List.countP_cons_of_neg (by rw [h]; exact Bool.false_ne_true)]
      simp only [List.length_cons, ih]
      omega

/-- A string with a zero byte behind it is read back. -/
theorem cString_of_reads {fuel : ℕ} (h : Reads string i (f ++ [nul])) (hn : nul ∉ f) (hf : f.length < fuel) :
    cString string fuel i = f := by
  induction fuel generalizing f i with
  | zero => exact absurd hf (Nat.not_lt_zero _)
  | succ fuel ih =>
    cases f with
    | nil => rw [cString, if_pos h.head]
    | cons c f =>
      have hc : string i = c := h.head
      have hne : c ≠ nul := fun h0 => hn (by rw [h0]; exact List.mem_cons_self)
      rw [cString, hc, if_neg hne, ih h.tail (fun h0 => hn (List.mem_cons_of_mem _ h0)) (Nat.lt_of_succ_lt_succ hf)]

/-- Blanks are skipped. -/
theorem skipSpaces_of_reads {fuel n : ℕ} (h : Reads string i (List.replicate n space ++ [c])) (hc : c ≠ space)
    (hf : n < fuel) : skipSpaces string fuel i = i + n := by
  induction fuel generalizing n i with
  | zero => exact absurd hf (Nat.not_lt_zero _)
  | succ fuel ih =>
    cases n with
    | zero =>
      have hi : string i = c := h.head
      rw [skipSpaces, hi, if_neg hc, Nat.add_zero]
    | succ n =>
      have hi : string i = space := h.head
      rw [skipSpaces, if_pos hi, ih (n := n) h.tail (Nat.lt_of_succ_lt_succ hf)]
      omega

/-! ### Strings that have been read -/

/-- The strings stand, with a zero byte behind each, where the parameters start, and all in front of `i`. -/
def Holds (string : ℕ → UInt8) (i : ℕ) (params : List (ℕ × Option ℤ)) (done : List (List UInt8)) : Prop :=
  List.Forall₂ (fun p f => Reads string p.1 (f ++ [nul]) ∧ p.1 + f.length < i) params done

namespace Holds

variable {params : List (ℕ × Option ℤ)} {done : List (List UInt8)} {string' : ℕ → UInt8} {j start : ℕ} {v : Option ℤ}

/-- What happens at `i` and behind it does not matter. -/
theorem congr (h : Holds string i params done) (hij : i ≤ j) (hsame : ∀ k < i, string' k = string k) :
    Holds string' j params done := by
  refine h.imp ?_
  rintro p f ⟨hf, hlt⟩
  refine ⟨hf.congr fun k _ hk => hsame k ?_, by omega⟩
  simp only [List.length_append, List.length_cons, List.length_nil] at hk
  omega

theorem snoc (h : Holds string i params done) (hf : Reads string start (f ++ [nul])) (hlt : start + f.length < i) :
    Holds string i (params ++ [(start, v)]) (done ++ [f]) :=
  List.rel_append h (.cons ⟨hf, hlt⟩ .nil)

/-- The parameters are these strings. -/
theorem strings (h : Holds string i params done) (hn : ∀ f ∈ done, nul ∉ f) {fuel : ℕ} (hi : i ≤ fuel) :
    params.map (fun p => cString string fuel p.1) = done := by
  rw [← List.forall₂_eq_eq_eq, List.forall₂_map_left_iff]
  refine List.forall₂_iff_get.mpr ⟨h.length_eq, fun k hk hk' => ?_⟩
  obtain ⟨hf, hlt⟩ := (List.forall₂_iff_get.mp h).2 k hk hk'
  exact cString_of_reads hf (hn _ (List.get_mem _ _)) (by omega)

end Holds

end Qcc730.Qat
