import Qcc730.Qat.Quoting

/-! What the loops over a line do to the buffer.

    The parser stands in front of what is left of the line. Zero bytes go behind what has been read, escapes make
    the line shorter and leave a zero byte where it ended before, and nothing is stored behind the line. -/

namespace Qcc730.Qat

open Lib

variable {b b' b'' : Input} {p : ParamScan} {s : NameScan} {i j : ℕ} {c d : UInt8} {t u name : List UInt8} {fuel : ℕ}

/-! ### The bytes that change -/

/-- Only bytes between `i` and the end of the line have changed, and there are zero bytes where it was longer. -/
structure Frame (b b' : Input) (i : ℕ) : Prop where
  below : ∀ j < i, b'.string j = b.string j
  length : b'.length ≤ b.length
  behind : ∀ j, b'.length ≤ j → b'.string j = if j < b.length then nul else b.string j

namespace Frame

theorem refl (b : Input) (i : ℕ) : Frame b b i :=
  ⟨fun _ _ => rfl, le_rfl, fun j hj => by rw [if_neg (by omega)]⟩

theorem trans (h : Frame b b' i) (h' : Frame b' b'' j) (hij : i ≤ j) : Frame b b'' i := by
  refine ⟨fun k hk => by rw [h'.below k (by omega), h.below k hk], h'.length.trans h.length, fun k hk => ?_⟩
  have hl := h.length
  rw [h'.behind k hk]
  split
  next hlt => rw [if_pos (by omega)]
  next hge => exact h.behind k (by omega)

theorem set (hij : i ≤ j) (hj : j < b.length) : Frame b (b.set j c) i := by
  refine ⟨fun k hk => Function.update_of_ne (by omega) _ _, le_rfl, fun k hk => ?_⟩
  have hk' : b.length ≤ k := hk
  rw [if_neg (by omega)]
  exact Function.update_of_ne (by omega) _ _

theorem mono (h : Frame b b' j) (hij : i ≤ j) : Frame b b' i := ⟨fun k hk => h.below k (by omega), h.length, h.behind⟩

end Frame

/-! ### The end of the line -/

/-- The parser stands in front of the end `t` of the line. -/
structure Ahead (b : Input) (i : ℕ) (t : List UInt8) : Prop where
  reads : Reads b.string i t
  length : b.length = i + t.length
  fits : b.length ≤ maximumCommandStringLength

namespace Ahead

theorem lt (h : Ahead b i (c :: t)) : i < b.length := by
  have hl := h.length
  rw [List.length_cons] at hl
  omega

theorem next (h : Ahead b i (c :: t)) : Ahead b (i + 1) t := by
  have hl := h.length
  rw [List.length_cons] at hl
  exact ⟨h.reads.tail, by omega, h.fits⟩

/-- Behind the first part of what is left. -/
theorem drop (h : Ahead b i (t ++ u)) : Ahead b (i + t.length) u := by
  have hl := h.length
  rw [List.length_append] at hl
  exact ⟨(Reads.append_iff.mp h.reads).2, by omega, h.fits⟩

theorem set (h : Ahead b i t) (hj : j < i) : Ahead (b.set j c) i t :=
  ⟨h.reads.update (.inl hj), h.length, h.fits⟩

/-- Another byte at the index. -/
theorem replace (h : Ahead b i (c :: t)) : Ahead (b.set i d) i (d :: t) :=
  ⟨⟨Function.update_self _ _ _, h.reads.tail.update (.inl (Nat.lt_succ_self i))⟩, h.length, h.fits⟩

/-- An escaped backslash or quote. -/
theorem escape (h : Ahead p.input p.index (backslash :: c :: t)) (hc : isEscaped c = true) :
    ∃ b, p.escape = { p with input := b } ∧ b.string p.index = c ∧ Frame p.input b p.index ∧
      Ahead b (p.index + 1) t := by
  have hl := h.length
  have hf := h.fits
  simp only [List.length_cons] at hl
  have hlt : p.index + 1 < p.input.length := by omega
  have hnext : p.input.string (p.index + 1) = c := h.next.reads.head
  have hcount : p.input.length - p.index - 1 = t.length + 1 := by omega
  have hlast : p.input.length - 1 = p.index + (t.length + 1) := by omega
  have hstr : ∀ j, ((p.input.move p.index (p.index + 1) (t.length + 1)).set (p.index + (t.length + 1)) nul).string j =
      if j = p.index + (t.length + 1) then nul
      else if p.index ≤ j ∧ j < p.index + (t.length + 1) then p.input.string (j + 1) else p.input.string j := by
    intro j
    simp only [Input.set, Input.move, Function.update_apply]
    split
    next => rfl
    next =>
      split
      next hij => congr 1; omega
      next => rfl
  refine ⟨_, by simp only [ParamScan.escape]; rw [if_pos hlt, hnext, if_pos (isEscaped_iff.mp hc)], ?_,
    ⟨fun j hj => ?_, ?_, fun j hj => ?_⟩, ⟨?_, ?_, ?_⟩⟩
  · simp only [hcount, hlast]
    rw [hstr, if_neg (by omega), if_pos (by omega), hnext]
  · simp only [hcount, hlast]
    rw [hstr, if_neg (by omega), if_neg (by omega)]
  · simp only [Input.set, Input.move]
    omega
  · have hj' : p.input.length - 1 ≤ j := hj
    simp only [hcount, hlast]
    rw [hstr]
    by_cases he : j = p.index + (t.length + 1)
    · rw [if_pos he, if_pos (by omega)]
    · rw [if_neg he, if_neg (by omega), if_neg (by omega)]
  · simp only [hcount, hlast]
    refine h.next.next.reads.move fun k hk => ?_
    rw [hstr, if_neg (by omega), if_pos (by omega)]
    congr 1
    omega
  · simp only [Input.set, Input.move]
    omega
  · simp only [Input.set, Input.move]
    omega

end Ahead

/-! ### The end of a parameter -/

/-- A closing quote: the next character goes as well. -/
theorem finish_quote (h : Ahead p.input p.index (quote :: c :: u)) (start : ℕ) :
    ∃ b : Input, p.finish start = { p with
        input := b, insideQuotes := !p.insideQuotes, index := p.index + 2, subCommand := p.subCommand || c == semicolon,
        params := p.params ++ [(start, stringToInteger (b.cString start))] } ∧
      b.string p.index = nul ∧ Frame p.input b p.index ∧ Ahead b (p.index + 2) u := by
  have hq : p.input.string p.index = quote := h.reads.head
  have hnext : Ahead (p.input.set p.index nul) (p.index + 1) (c :: u) := h.next.set (Nat.lt_succ_self _)
  have hc : (p.input.set p.index nul).string (p.index + 1) = c := hnext.reads.head
  have hlt : p.index + 1 < (p.input.set p.index nul).length := hnext.lt
  have hframe : Frame p.input (p.input.set p.index nul) p.index := Frame.set le_rfl h.lt
  have hat : ∀ (b : Input) (d : UInt8), b.string p.index = nul → (b.set (p.index + 1) d).string p.index = nul :=
    fun b d hb => (Function.update_of_ne (by omega) _ _).trans hb
  by_cases hcomma : (!p.insideQuotes) = false ∧ c = comma
  · obtain ⟨hin, rfl⟩ := hcomma
    have hclose : p.closeQuote = { p with
        insideQuotes := !p.insideQuotes, input := (p.input.set p.index nul).set (p.index + 1) nul,
        index := p.index + 1 } := by
      simp only [ParamScan.closeQuote]
      rw [if_pos hq, if_pos ⟨hin, hlt, hc⟩]
    have hnul : ((p.input.set p.index nul).set (p.index + 1) nul).string (p.index + 1) = nul :=
      Function.update_self _ _ _
    have hlt' : p.index + 1 < ((p.input.set p.index nul).set (p.index + 1) nul).length := hlt
    refine ⟨((p.input.set p.index nul).set (p.index + 1) nul).set (p.index + 1) nul, ?_,
      hat _ _ (hat _ _ (Function.update_self _ _ _)),
      (hframe.trans (Frame.set (Nat.le_succ _) hlt) le_rfl).trans (Frame.set (Nat.le_succ _) hlt') le_rfl,
      hnext.replace.next.set (Nat.lt_succ_self _)⟩
    simp only [ParamScan.finish, hclose]
    rw [if_pos hlt', hnul]
    rfl
  · have hclose : p.closeQuote = { p with
        insideQuotes := !p.insideQuotes, input := p.input.set p.index nul, index := p.index + 1 } := by
      simp only [ParamScan.closeQuote]
      rw [if_pos hq, if_neg (fun hx => hcomma ⟨hx.1, hc ▸ hx.2.2⟩)]
    refine ⟨(p.input.set p.index nul).set (p.index + 1) nul, ?_, hat _ _ (Function.update_self _ _ _),
      hframe.trans (Frame.set (Nat.le_succ _) hlt) le_rfl, hnext.next.set (Nat.lt_succ_self _)⟩
    simp only [ParamScan.finish, hclose]
    rw [if_pos hlt, hc]

/-- A closing quote at the end of the line. -/
theorem finish_end (h : Ahead p.input p.index [quote]) (start : ℕ) :
    ∃ (b : Input) (sub : Bool), p.finish start = { p with
        input := b, insideQuotes := !p.insideQuotes, index := p.index + 1, subCommand := sub,
        params := p.params ++ [(start, stringToInteger (b.cString start))] } ∧
      b.string p.index = nul ∧ Frame p.input b p.index ∧ Ahead b (p.index + 1) [] := by
  have hq : p.input.string p.index = quote := h.reads.head
  have hnext : Ahead (p.input.set p.index nul) (p.index + 1) [] := h.next.set (Nat.lt_succ_self _)
  have hge : ¬ p.index + 1 < (p.input.set p.index nul).length := by
    have hl := hnext.length
    rw [List.length_nil] at hl
    omega
  have hclose : p.closeQuote = { p with
      insideQuotes := !p.insideQuotes, input := p.input.set p.index nul, index := p.index + 1 } := by
    simp only [ParamScan.closeQuote]
    rw [if_pos hq, if_neg (fun hc => hge hc.2.1)]
  refine ⟨p.input.set p.index nul, p.subCommand || (p.input.set p.index nul).string (p.index + 1) == semicolon, ?_,
    Function.update_self _ _ _, Frame.set le_rfl h.lt, hnext⟩
  simp only [ParamScan.finish, hclose]
  rw [if_neg hge]

/-- Another character than a quote. -/
theorem finish_stop (h : Ahead p.input p.index (c :: u)) (hc : c ≠ quote) (start : ℕ) :
    ∃ b : Input, p.finish start = { p with
        input := b, index := p.index + 1, subCommand := p.subCommand || c == semicolon,
        params := p.params ++ [(start, stringToInteger (b.cString start))] } ∧
      b.string p.index = nul ∧ Frame p.input b p.index ∧ Ahead b (p.index + 1) u := by
  have hi : p.input.string p.index = c := h.reads.head
  have hclose : p.closeQuote = p := by
    simp only [ParamScan.closeQuote]
    rw [if_neg (by rw [hi]; exact hc)]
  refine ⟨p.input.set p.index nul, ?_, Function.update_self _ _ _, Frame.set le_rfl h.lt,
    h.next.set (Nat.lt_succ_self _)⟩
  simp only [ParamScan.finish, hclose]
  rw [if_pos h.lt, hi]

/-! ### The name -/

/-- The characters of the name. -/
theorem scanName_chars (hs : Ahead s.input s.index (name ++ t)) (hname : ∀ c ∈ name, isNameChar c = true)
    (fuel : ℕ) :
    scanName (fuel + name.length) s = scanName fuel { s with
      isExec := s.isExec || !name.isEmpty, stop := s.stop + name.length, index := s.index + name.length } := by
  induction name generalizing s with
  | nil => simp
  | cons c name ih =>
    have hi : s.input.string s.index = c := hs.reads.head
    have hc := hname c List.mem_cons_self
    have hne : ∀ d, isNameChar d = false → c ≠ d := by
      rintro d hd rfl
      rw [hc] at hd
      cases hd
    have hskip : s.input.skipSpaces s.index = s.index :=
      skipSpaces_of_reads (n := 0) ⟨hi, trivial⟩ (hne _ (by decide)) (Nat.succ_pos _)
    have hrun := ih (s := { s with isExec := true, stop := s.stop + 1, index := s.index + 1 }) hs.next
      fun d hd => hname d (List.mem_cons_of_mem _ hd)
    have hstep : scanName (fuel + (c :: name).length) s =
        scanName (fuel + name.length) { s with isExec := true, stop := s.stop + 1, index := s.index + 1 } := by
      rw [List.length_cons, ← Nat.add_assoc, scanName]
      rw [if_pos ⟨hs.lt, by rw [hi]; exact hne _ (by decide)⟩]
      simp only [hskip, hi]
      rw [if_neg (hne _ (by decide)), if_neg (hne _ (by decide)), if_pos hc]
    have h1 : s.stop + 1 + name.length = s.stop + (c :: name).length := by rw [List.length_cons]; omega
    have h2 : s.index + 1 + name.length = s.index + (c :: name).length := by rw [List.length_cons]; omega
    rw [hstep, hrun]
    simp only [Bool.true_or, h1, h2, List.isEmpty_cons, Bool.not_false, Bool.or_true]

/-- The loop over the name, up to the equals sign. -/
theorem scanName_equals (hs : Ahead s.input s.index (name ++ equals :: t)) (hname : ∀ c ∈ name, isNameChar c = true)
    (hf : name.length < fuel) :
    scanName fuel s = NameScan.atEquals { s with stop := s.stop + name.length } (s.index + name.length) := by
  obtain ⟨k, rfl⟩ : ∃ k, fuel = k + 1 + name.length := ⟨fuel - 1 - name.length, by omega⟩
  have hdrop := hs.drop
  have hi : s.input.string (s.index + name.length) = equals := hdrop.reads.head
  have hskip : s.input.skipSpaces (s.index + name.length) = s.index + name.length :=
    skipSpaces_of_reads (n := 0) ⟨hi, trivial⟩ (by decide) (Nat.succ_pos _)
  rw [scanName_chars hs hname, scanName, if_pos ⟨hdrop.lt, by simp only [hi]; decide⟩]
  simp only [hskip, hi, if_true]
  rfl

end Qcc730.Qat
