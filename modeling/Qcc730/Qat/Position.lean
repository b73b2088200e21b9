import Qcc730.Qat.Answers

/-! Sub-commands at the end of a line.

    What the parser makes of them depends on the bytes from the first plus sign to the zero byte behind the line, but
    not on where in the buffer they stand. Two lines that end alike are followed side by side. The escape `\xhh` leaves
    a line that is longer than what is left of it, but then a zero byte is its last. -/

namespace Qcc730.Qat

variable {b b' : Input} {p p' : ParamScan} {d lo top i j n dst src : ℕ} {c : UInt8} {fuel m : ℕ}

/-- From `lo` on and below `top`, `b'` holds what `b` holds, `d` bytes further on. -/
structure Alike (d lo top : ℕ) (b b' : Input) : Prop where
  length : b'.length = b.length + d
  string : ∀ j, lo ≤ j → j < top → b'.string (j + d) = b.string j

namespace Alike

theorem set (h : Alike d lo top b b') (i : ℕ) (c : UInt8) : Alike d lo top (b.set i c) (b'.set (i + d) c) := by
  refine ⟨h.length, fun j hlo hj => ?_⟩
  simp only [Input.set, Function.update_apply, Nat.add_right_cancel_iff, h.string j hlo hj]

theorem move (h : Alike d lo top b b') (hlo : lo ≤ dst) (hle : dst ≤ src) (hend : src + n ≤ top) :
    Alike d lo top (b.move dst src n) (b'.move (dst + d) (src + d) n) := by
  refine ⟨h.length, fun j hj hj' => ?_⟩
  simp only [Input.move]
  by_cases hin : dst ≤ j ∧ j < dst + n
  · have hat : src + d + (j + d - (dst + d)) = src + (j - dst) + d := by omega
    rw [if_pos hin, if_pos (by omega), hat, h.string _ (by omega) (by omega)]
  · rw [if_neg hin, if_neg (by omega), h.string j hj hj']

theorem shorten (h : Alike d lo top b b') (hn : n ≤ b.length) :
    Alike d lo top { b with length := b.length - n } { b' with length := b'.length - n } := by
  refine ⟨?_, h.string⟩
  have := h.length
  show b'.length - n = b.length - n + d
  omega

/-- A string that ends below `top`. -/
theorem cString (h : Alike d lo top b b') (hlo : lo ≤ i) (hij : i ≤ j) (hj : j < top) (hnul : b.string j = nul) :
    b'.cString (i + d) = b.cString i := by
  have key : ∀ fuel i, lo ≤ i → i ≤ j → Qat.cString b'.string fuel (i + d) = Qat.cString b.string fuel i := by
    intro fuel
    induction fuel with
    | zero => exact fun _ _ _ => rfl
    | succ fuel ih =>
      intro i hlo hij
      rw [Qat.cString, Qat.cString, h.string i hlo (by omega)]
      by_cases hi : b.string i = nul
      · rw [if_pos hi, if_pos hi]
      · have hne : i ≠ j := fun h0 => hi (h0 ▸ hnul)
        rw [if_neg hi, if_neg hi, Nat.add_right_comm, ih (i + 1) (by omega) (by omega)]
  exact key _ i hlo hij

end Alike

/-- There is a zero byte behind the line, or one at its end and two bytes behind it that are below `top`. -/
def Input.Closed (top : ℕ) (b : Input) : Prop :=
  b.length < top ∧ b.string b.length = nul ∨
    b.length + 1 < top ∧ 0 < b.length ∧ b.string (b.length - 1) = nul

theorem Input.Closed.lt_top (h : b.Closed top) : b.length < top := by
  rcases h with ⟨hlt, -⟩ | ⟨hlt, -⟩ <;> omega

theorem Input.Closed.zero (h : b.Closed top) (i : ℕ) : (b.set i nul).Closed top := by
  have hset : ∀ j, b.string j = nul → (b.set i nul).string j = nul := by
    intro j hj
    simp only [Input.set, Function.update_apply, hj, ite_self]
  exact h.imp (fun hc => ⟨hc.1, hset _ hc.2⟩) fun hc => ⟨hc.1, hc.2.1, hset _ hc.2.2⟩

/-- Where the strings of the line end at the latest. -/
theorem Input.Closed.last (h : b.Closed top) (hi : i < b.length) :
    ∃ j, i ≤ j ∧ j < top ∧ j ≤ b.length ∧ b.string j = nul := by
  rcases h with ⟨hlt, hnul⟩ | ⟨hlt, -, hnul⟩
  · exact ⟨_, hi.le, hlt, le_rfl, hnul⟩
  · exact ⟨_, by omega, by omega, Nat.sub_le _ _, hnul⟩

/-- The parser does the same in two buffers. -/
structure Beside (d lo top : ℕ) (p p' : ParamScan) : Prop where
  input : Alike d lo top p.input p'.input
  index : p'.index = p.index + d
  insideQuotes : p'.insideQuotes = p.insideQuotes
  params : p'.params = p.params.map fun x => (x.1 + d, x.2)
  result : p'.result = p.result
  abort : p'.abort = p.abort
  subCommand : p'.subCommand = p.subCommand
  closed : p.input.Closed top
  lo_le : lo ≤ p.index
  starts : ∀ x ∈ p.params, lo ≤ x.1 ∧ x.1 < p.index ∧ x.1 < p.input.length

/-- The loop over the parameters is over at the end of the line. -/
theorem scanParams_past (h : ¬p.index < p.input.length) (fuel : ℕ) : scanParams fuel p = p := by
  cases fuel with
  | zero => rfl
  | succ fuel =>
    rw [scanParams, if_neg]
    exact fun hc => h hc.2.1

namespace Beside

theorem lt_iff (h : Beside d lo top p p') : p'.index < p'.input.length ↔ p.index < p.input.length := by
  have := h.index
  have := h.input.length
  omega

theorem string (h : Beside d lo top p p') (hj : p.index + j < top) :
    p'.input.string (p'.index + j) = p.input.string (p.index + j) := by
  have hlo := h.lo_le
  rw [h.index, Nat.add_right_comm]
  exact h.input.string _ (by omega) hj

/-- The index moves on. -/
theorem skip (h : Beside d lo top p p') (n : ℕ) :
    Beside d lo top { p with index := p.index + n } { p' with index := p'.index + n } := by
  refine ⟨h.input, ?_, h.insideQuotes, h.params, h.result, h.abort, h.subCommand, h.closed,
    h.lo_le.trans (Nat.le_add_right _ _), fun x hx => ?_⟩
  · show p'.index + n = p.index + n + d
    rw [h.index, Nat.add_right_comm]
  · obtain ⟨h₁, h₂, h₃⟩ := h.starts x hx
    exact ⟨h₁, Nat.lt_add_right n h₂, h₃⟩

/-- A zero byte goes to the index. -/
theorem zero (h : Beside d lo top p p') :
    Beside d lo top { p with input := p.input.set p.index nul } { p' with input := p'.input.set p'.index nul } := by
  refine ⟨?_, h.index, h.insideQuotes, h.params, h.result, h.abort, h.subCommand, h.closed.zero _, h.lo_le, h.starts⟩
  simp only [h.index]
  exact h.input.set _ _

/-- A failed escape, with or without a byte stored at the index. -/
theorem fail (h : Beside d lo top p p') (a : Bool) :
    Beside d lo top { p with result := false, abort := a } { p' with result := false, abort := a } :=
  ⟨h.input, h.index, h.insideQuotes, h.params, rfl, rfl, h.subCommand, h.closed, h.lo_le, h.starts⟩

/-- Another state of the quotes. -/
theorem quotes (h : Beside d lo top p p') (q : Bool) :
    Beside d lo top { p with insideQuotes := q } { p' with insideQuotes := q } :=
  ⟨h.input, h.index, rfl, h.params, h.result, h.abort, h.subCommand, h.closed, h.lo_le, h.starts⟩

/-- Another buffer, of a line that still has the byte at the index. -/
theorem reline (h : Beside d lo top p p') (hin : Alike d lo top b b') (hlt : p.index < b.length)
    (hc : b.Closed top) :
    Beside d lo top { p with input := b } { p' with input := b' } :=
  ⟨hin, h.index, h.insideQuotes, h.params, h.result, h.abort, h.subCommand, hc, h.lo_le,
    fun x hx => ⟨(h.starts x hx).1, (h.starts x hx).2.1, (h.starts x hx).2.1.trans hlt⟩⟩

/-- An escaped backslash or quote loses the backslash. -/
theorem unescape (h : Beside d lo top p p') (hlt : p.index + 1 < p.input.length) (n : ℕ)
    (hn : n = p.input.length - p.index - 1) :
    Beside d lo top
      { p with input := { (p.input.move p.index (p.index + 1) n).set (p.input.length - 1) nul with
        length := p.input.length - 1 } }
      { p' with input := { (p'.input.move p'.index (p'.index + 1) n).set (p'.input.length - 1) nul with
        length := p'.input.length - 1 } } := by
  have htop := h.closed.lt_top
  have hlen := h.input.length
  have hat : p'.input.length - 1 = p.input.length - 1 + d := by omega
  have hmove : Alike d lo top (p.input.move p.index (p.index + 1) n)
      (p'.input.move (p.index + d) (p.index + 1 + d) n) := h.input.move h.lo_le (Nat.le_succ _) (by omega)
  rw [Nat.add_right_comm, ← h.index] at hmove
  have hin := (hmove.set (p.input.length - 1) nul).shorten (n := 1) (by show 1 ≤ p.input.length; omega)
  rw [← hat] at hin
  refine h.reline hin (by show p.index < p.input.length - 1; omega) (.inl ⟨?_, ?_⟩)
  · show p.input.length - 1 < top
    omega
  · exact Function.update_self _ _ _

/-- Two hexadecimal digits and what stands in front of them become one byte. -/
theorem unhex (h : Beside d lo top p p') (hlt : p.index + 3 < p.input.length) (c : UInt8) (n : ℕ)
    (hn : n = p.input.length - p.index - 4) :
    Beside d lo top
      { p with input := { ((p.input.set p.index c).move (p.index + 1) (p.index + 4) n).set (p.input.length - 3) nul with
        length := p.input.length - 2 } }
      { p' with input := {
        ((p'.input.set p'.index c).move (p'.index + 1) (p'.index + 4) n).set (p'.input.length - 3) nul with
        length := p'.input.length - 2 } } := by
  have htop := h.closed.lt_top
  have hlen := h.input.length
  have hlo := h.lo_le
  have hat : p'.input.length - 3 = p.input.length - 3 + d := by omega
  have hmove : Alike d lo top ((p.input.set p.index c).move (p.index + 1) (p.index + 4) n)
      ((p'.input.set (p.index + d) c).move (p.index + 1 + d) (p.index + 4 + d) n) :=
    (h.input.set p.index c).move (by omega) (by omega) (by omega)
  rw [Nat.add_right_comm, Nat.add_right_comm _ 4, ← h.index] at hmove
  have hin := (hmove.set (p.input.length - 3) nul).shorten (n := 2) (by show 2 ≤ p.input.length; omega)
  rw [← hat] at hin
  refine h.reline hin (by show p.index < p.input.length - 2; omega) (.inr ⟨?_, ?_, ?_⟩)
  · show p.input.length - 2 + 1 < top
    omega
  · show 0 < p.input.length - 2
    omega
  · have hlast : p.input.length - 2 - 1 = p.input.length - 3 := by omega
    show (Input.set _ (p.input.length - 3) nul).string (p.input.length - 2 - 1) = nul
    rw [hlast]
    exact Function.update_self _ _ _

/-- A byte goes to the index of a line that has more behind it. -/
theorem store (h : Beside d lo top p p') (hlt : p.index + 1 < p.input.length) (c : UInt8) :
    Beside d lo top { p with input := p.input.set p.index c } { p' with input := p'.input.set p'.index c } := by
  have hset : ∀ j, p.index < j → (p.input.set p.index c).string j = p.input.string j :=
    fun j hj => Function.update_of_ne (by omega) _ _
  have hin := h.input.set p.index c
  rw [← h.index] at hin
  refine h.reline hin (by show p.index < p.input.length; omega) ?_
  refine h.closed.imp (fun hc => ⟨hc.1, ?_⟩) fun hc => ⟨hc.1, hc.2.1, ?_⟩
  · exact (hset _ (by show p.index < p.input.length; omega)).trans hc.2
  · exact (hset _ (by show p.index < p.input.length - 1; omega)).trans hc.2.2

/-- What an escape leaves. -/
structure Escaped (d lo top : ℕ) (p q q' : ParamScan) : Prop where
  beside : Beside d lo top q q'
  index : q.index = p.index
  params : q.params = p.params
  lt : p.index < q.input.length
  le : q.input.length ≤ p.input.length

theorem escape (h : Beside d lo top p p') (hlt : p.index < p.input.length) :
    Escaped d lo top p p.escape p'.escape := by
  have hindex := h.index
  have hlen := h.input.length
  have htop := h.closed.lt_top
  have hcount : ∀ k, p'.input.length - p'.index - k = p.input.length - p.index - k := fun k => by omega
  have hmore : ∀ k, p'.index + k < p'.input.length ↔ p.index + k < p.input.length := fun k => by omega
  have hfail : Escaped d lo top p { p with result := false } { p' with result := false } := by
    have hf := h.fail p.abort
    have ha : ({ p' with result := false, abort := p.abort } : ParamScan) = { p' with result := false } := by
      rw [← h.abort]
    rw [ha] at hf
    exact ⟨hf, rfl, rfl, hlt, le_rfl⟩
  simp only [ParamScan.escape]
  by_cases h₁ : p.index + 1 < p.input.length
  swap
  · rw [if_neg h₁, if_neg ((hmore 1).not.mpr h₁)]
    exact hfail
  rw [if_pos h₁, if_pos ((hmore 1).mpr h₁), h.string (j := 1) (by omega)]
  by_cases hc : p.input.string (p.index + 1) = backslash ∨ p.input.string (p.index + 1) = quote
  · rw [if_pos hc, if_pos hc, hcount]
    refine ⟨h.unescape h₁ _ rfl, rfl, rfl, ?_, ?_⟩
    · show p.index < p.input.length - 1
      omega
    · exact Nat.sub_le _ _
  rw [if_neg hc, if_neg hc]
  by_cases hx : p.input.string (p.index + 1) = lowerX
  swap
  · rw [if_neg hx, if_neg hx]
    exact hfail
  rw [if_pos hx, if_pos hx]
  by_cases h₃ : p.index + 3 < p.input.length
  swap
  · rw [if_neg h₃, if_neg ((hmore 3).not.mpr h₃)]
    exact hfail
  rw [if_pos h₃, if_pos ((hmore 3).mpr h₃), h.string (j := 2) (by omega), h.string (j := 3) (by omega), hcount]
  rcases hexDigit (p.input.string (p.index + 2)) with _ | hi
  · exact ⟨(h.store h₁ nul).fail true, rfl, rfl, hlt, le_rfl⟩
  rcases hexDigit (p.input.string (p.index + 3)) with _ | lo'
  · exact ⟨(h.store h₁ (hi <<< 4)).fail true, rfl, rfl, hlt, le_rfl⟩
  · refine ⟨h.unhex h₃ _ _ rfl, rfl, rfl, ?_, ?_⟩
    · show p.index < p.input.length - 2
      omega
    · exact Nat.sub_le _ _

/-- What the loop to the end of a parameter leaves, of a line that still has the byte `n`. -/
structure Scanned (d lo top n : ℕ) (p q q' : ParamScan) : Prop where
  beside : Beside d lo top q q'
  params : q.params = p.params
  index : p.index ≤ q.index
  le : q.index ≤ q.input.length
  lt : n < q.input.length
  length : q.input.length ≤ p.input.length

/-- The loop to the end of a parameter. -/
theorem scanParam (h : Beside d lo top p p') (hle : p.index ≤ p.input.length)
    (hf : p.input.length - p.index ≤ fuel) (hf' : p.input.length - p.index ≤ m) (hn : n ≤ p.index)
    (hlt : n < p.input.length) : Scanned d lo top n p (Qat.scanParam fuel p) (Qat.scanParam m p') := by
  have hstop : ∀ {q : ParamScan} (k : ℕ), ¬q.index < q.input.length → Qat.scanParam k q = q := by
    intro q k hq
    cases k with
    | zero => rfl
    | succ k =>
      rw [Qat.scanParam, if_neg]
      exact fun hc => hq hc.2.1
  induction fuel generalizing p p' m with
  | zero =>
    rw [hstop 0 (by omega), hstop m (by rw [h.lt_iff]; omega)]
    exact ⟨h, rfl, le_rfl, hle, hlt, le_rfl⟩
  | succ fuel ih =>
    by_cases hin : p.index < p.input.length
    swap
    · rw [hstop _ hin, hstop _ (by rw [h.lt_iff]; exact hin)]
      exact ⟨h, rfl, le_rfl, hle, hlt, le_rfl⟩
    obtain ⟨m, rfl⟩ : ∃ k, m = k + 1 := ⟨m - 1, by omega⟩
    have htop := h.closed.lt_top
    have hbyte : p'.input.string p'.index = p.input.string p.index := h.string (j := 0) (by omega)
    simp only [Qat.scanParam, hbyte, h.result, h.insideQuotes, h.lt_iff]
    by_cases hc : p.result = true ∧ p.index < p.input.length ∧ p.input.string p.index ≠ quote ∧
        (p.insideQuotes = true ∨ p.input.string p.index ≠ comma) ∧ p.input.string p.index ≠ semicolon ∧
        p.input.string p.index ≠ closeBrace
    swap
    · rw [if_neg hc, if_neg hc]
      exact ⟨h, rfl, le_rfl, hle, hlt, le_rfl⟩
    rw [if_pos hc, if_pos hc]
    obtain ⟨q, q', hq, hq', he⟩ : ∃ q q', (if p.input.string p.index = backslash then p.escape else p) = q ∧
        (if p.input.string p.index = backslash then p'.escape else p') = q' ∧ Escaped d lo top p q q' := by
      by_cases hb : p.input.string p.index = backslash
      · exact ⟨_, _, if_pos hb, if_pos hb, h.escape hin⟩
      · exact ⟨_, _, if_neg hb, if_neg hb, h, rfl, rfl, hin, le_rfl⟩
    have hqlt := he.lt
    have hqle := he.le
    have hqi := he.index
    have habort := he.beside.abort
    rw [hq, hq']
    by_cases ha : q.abort = true
    · rw [if_pos ha, if_pos (habort.trans ha)]
      exact ⟨he.beside, he.params, hqi.ge, by omega, by omega, hqle⟩
    rw [if_neg ha, if_neg (by rw [habort]; exact ha)]
    have hrest := ih (m := m) (he.beside.skip 1) (by show q.index + 1 ≤ q.input.length; omega)
      (by show q.input.length - (q.index + 1) ≤ fuel; omega) (by show q.input.length - (q.index + 1) ≤ m; omega)
      (by show n ≤ q.index + 1; omega) (by show n < q.input.length; omega)
    have hnext : q.index + 1 ≤ _ := hrest.index
    exact ⟨hrest.beside, hrest.params.trans he.params, by omega, hrest.le, hrest.lt, hrest.length.trans hqle⟩

/-- A closing quote, which is in front of the zero byte behind the line or at most the byte in front of `top`. -/
theorem closeQuote (h : Beside d lo top p p') (hle : p.index ≤ p.input.length) :
    Beside d lo top p.closeQuote p'.closeQuote ∧ p.closeQuote.params = p.params ∧ p.index ≤ p.closeQuote.index ∧
      p.closeQuote.index < top ∧ p.closeQuote.input.length = p.input.length := by
  have htop := h.closed.lt_top
  have hbyte : p'.input.string p'.index = p.input.string p.index := h.string (j := 0) (by omega)
  simp only [ParamScan.closeQuote, hbyte]
  by_cases hq : p.input.string p.index = quote
  swap
  · rw [if_neg hq, if_neg hq]
    exact ⟨h, rfl, le_rfl, by omega, rfl⟩
  rw [if_pos hq, if_pos hq]
  have hnext : p.index + 1 < top := by
    rcases h.closed with ⟨hlt, hnul⟩ | ⟨hlt, -, -⟩
    · have hne : p.index ≠ p.input.length := by
        intro h0
        rw [h0, hnul] at hq
        exact absurd hq (by decide)
      omega
    · omega
  have hset := (h.zero.skip 1).quotes (!p.insideQuotes)
  have hless := hset.lt_iff
  have hat := hset.string (j := 0) hnext
  simp only [Nat.add_zero] at hless hat
  simp only [h.insideQuotes, hless, hat]
  by_cases hc : (!p.insideQuotes) = false ∧ p.index + 1 < (p.input.set p.index nul).length ∧
      (p.input.set p.index nul).string (p.index + 1) = comma
  · rw [if_pos hc, if_pos hc]
    exact ⟨hset.zero, rfl, Nat.le_succ _, hnext, rfl⟩
  · rw [if_neg hc, if_neg hc]
    exact ⟨hset, rfl, Nat.le_succ _, hnext, rfl⟩

theorem sub (h : Beside d lo top p p') (x : Bool) :
    Beside d lo top { p with subCommand := x } { p' with subCommand := x } :=
  ⟨h.input, h.index, h.insideQuotes, h.params, h.result, h.abort, rfl, h.closed, h.lo_le, h.starts⟩

/-- A parameter that starts at `n` is taken down. -/
theorem param (h : Beside d lo top p p') (hlo : lo ≤ n) (hn : n < p.index) (hlt : n < p.input.length) :
    Beside d lo top { p with params := p.params ++ [(n, stringToInteger (p.input.cString n))] }
      { p' with params := p'.params ++ [(n + d, stringToInteger (p'.input.cString (n + d)))] } := by
  obtain ⟨j, hnj, hj, -, hnul⟩ := h.closed.last hlt
  refine ⟨h.input, h.index, h.insideQuotes, ?_, h.result, h.abort, h.subCommand, h.closed, h.lo_le, fun x hx => ?_⟩
  · simp only [h.params, h.input.cString hlo hnj hj hnul, List.map_append, List.map_cons, List.map_nil]
  · rcases List.mem_append.mp hx with hx | hx
    · exact h.starts x hx
    · obtain rfl := List.mem_singleton.mp hx
      exact ⟨hlo, hn, hlt⟩

/-- The parameter that starts at `n` is cut off and converted. -/
theorem finish (h : Beside d lo top p p') (hle : p.index ≤ p.input.length) (hlo : lo ≤ n) (hn : n ≤ p.index)
    (hlt : n < p.input.length) :
    Beside d lo top (p.finish n) (p'.finish (n + d)) ∧ (p.finish n).input.length = p.input.length ∧
      (p.index < (p.finish n).index ∨ p.input.length ≤ (p.finish n).index) := by
  obtain ⟨hq, -, hindex, htop, hlength⟩ := h.closeQuote hle
  have hbyte : p'.closeQuote.input.string p'.closeQuote.index = p.closeQuote.input.string p.closeQuote.index :=
    hq.string (j := 0) htop
  have hsub := hq.sub (p.closeQuote.subCommand || p.closeQuote.input.string p.closeQuote.index == semicolon)
  simp only [ParamScan.finish, hbyte, hq.subCommand, hq.lt_iff]
  by_cases hin : p.closeQuote.index < p.closeQuote.input.length
  · rw [if_pos hin, if_pos hin]
    refine ⟨(hsub.zero.skip 1).param hlo ?_ ?_, hlength, .inl ?_⟩
    · show n < p.closeQuote.index + 1
      omega
    · show n < p.closeQuote.input.length
      omega
    · show p.index < p.closeQuote.index + 1
      omega
  · rw [if_neg hin, if_neg hin]
    refine ⟨hsub.param hlo ?_ ?_, hlength, .inr ?_⟩
    · show n < p.closeQuote.index
      omega
    · show n < p.closeQuote.input.length
      omega
    · show p.input.length ≤ p.closeQuote.index
      omega

/-- The parsers behind the quote that may open a parameter. -/
theorem opened (h : Beside d lo top p p') (hin : p.index < p.input.length) :
    ∃ q q', (if p.input.string p.index = quote then { p with insideQuotes := true, index := p.index + 1 } else p) = q ∧
      (if p.input.string p.index = quote then { p' with insideQuotes := true, index := p'.index + 1 } else p') = q' ∧
      Beside d lo top q q' ∧ q.index ≤ q.input.length ∧ q.input.length = p.input.length ∧
      (q = p ∨ p.index < q.index) := by
  by_cases hquote : p.input.string p.index = quote
  · exact ⟨_, _, if_pos hquote, if_pos hquote, (h.skip 1).quotes true, hin, rfl, .inr (Nat.lt_succ_self _)⟩
  · exact ⟨_, _, if_neg hquote, if_neg hquote, h, hin.le, rfl, .inl rfl⟩

/-- The loop over the parameters. -/
theorem scanParams (h : Beside d lo top p p') (hf : p.input.length - p.index ≤ fuel)
    (hf' : p.input.length - p.index ≤ m) :
    Beside d lo top (Qat.scanParams fuel p) (Qat.scanParams m p') ∧
      (Qat.scanParams fuel p).input.length ≤ p.input.length ∧ p.index ≤ (Qat.scanParams fuel p).index := by
  induction fuel generalizing p p' m with
  | zero =>
    rw [scanParams_past (by omega) 0, scanParams_past (by rw [h.lt_iff]; omega) m]
    exact ⟨h, le_rfl, le_rfl⟩
  | succ fuel ih =>
    by_cases hin : p.index < p.input.length
    swap
    · rw [scanParams_past hin, scanParams_past (by rw [h.lt_iff]; exact hin)]
      exact ⟨h, le_rfl, le_rfl⟩
    obtain ⟨m, rfl⟩ : ∃ k, m = k + 1 := ⟨m - 1, by omega⟩
    have htop := h.closed.lt_top
    have hbyte : p'.input.string p'.index = p.input.string p.index := h.string (j := 0) (by omega)
    have hcount : p'.params.length = p.params.length := by rw [h.params, List.length_map]
    have hgo : (p'.result = true ∧ p'.index < p'.input.length ∧ p'.params.length ≤ maximumNumberOfParameters ∧
        p.input.string p.index ≠ semicolon) ↔ (p.result = true ∧ p.index < p.input.length ∧
        p.params.length ≤ maximumNumberOfParameters ∧ p.input.string p.index ≠ semicolon) := by
      rw [h.result, h.lt_iff, hcount]
    simp only [Qat.scanParams, hbyte]
    by_cases hc : p.result = true ∧ p.index < p.input.length ∧ p.params.length ≤ maximumNumberOfParameters ∧
        p.input.string p.index ≠ semicolon
    swap
    · rw [if_neg hc, if_neg (hgo.not.mpr hc)]
      exact ⟨h, le_rfl, le_rfl⟩
    rw [if_pos hc, if_pos (hgo.mpr hc)]
    by_cases hskip : p.input.string p.index = space ∨ p.input.string p.index = openBrace ∨
        p.input.string p.index = comma ∨ p.input.string p.index = closeBrace
    · rw [if_pos hskip, if_pos hskip]
      obtain ⟨h₁, h₂, h₃⟩ := ih (m := m) (h.skip 1)
        (by show p.input.length - (p.index + 1) ≤ fuel; omega) (by show p.input.length - (p.index + 1) ≤ m; omega)
      exact ⟨h₁, h₂, (Nat.le_succ _).trans h₃⟩
    rw [if_neg hskip, if_neg hskip]
    obtain ⟨q, q', hq, hq', hb, hql, hqk, hqp⟩ := h.opened hin
    have hqi : p.index ≤ q.index := hqp.elim (fun heq => (congrArg ParamScan.index heq).ge) Nat.le_of_lt
    rw [hq, hq']
    have hfirst : q'.input.string q'.index = q.input.string q.index :=
      hb.string (j := 0) (by have := hb.closed.lt_top; omega)
    simp only [hfirst, hb.lt_iff]
    by_cases hstart : q.index < q.input.length ∧ q.input.string q.index ≠ semicolon ∧
        q.input.string q.index ≠ comma
    swap
    · rw [if_neg hstart, if_neg hstart]
      have hmoved : p.index < q.index := by
        refine hqp.resolve_left ?_
        rintro rfl
        exact hstart ⟨hin, hc.2.2.2, fun h0 => hskip (.inr (.inr (.inl h0)))⟩
      obtain ⟨h₁, h₂, h₃⟩ := ih (m := m) hb (by omega) (by omega)
      exact ⟨h₁, by omega, by omega⟩
    rw [if_pos hstart, if_pos hstart]
    have hlonger := hb.input.length
    have hscan : Scanned d lo top q.index q (Qat.scanParam q.input.length q) (Qat.scanParam q'.input.length q') :=
      hb.scanParam hql (by omega) (by omega) le_rfl hstart.1
    have habort := hscan.beside.abort
    have h₁ := hscan.index
    have h₂ := hscan.le
    have h₃ := hscan.lt
    have h₄ := hscan.length
    obtain ⟨hfin, hlen, hnext⟩ := hscan.beside.finish (n := q.index) h₂ hb.lo_le h₁ h₃
    rw [← hb.index] at hfin
    have hsub := hfin.subCommand
    generalize Qat.scanParam q.input.length q = t at *
    generalize Qat.scanParam q'.input.length q' = t' at *
    by_cases ha : t.abort = true
    · rw [if_pos ha, if_pos (habort.trans ha)]
      exact ⟨hscan.beside, by omega, by omega⟩
    rw [if_neg ha, if_neg (fun h0 => ha (habort.symm.trans h0))]
    by_cases hlast : (t.finish q.index).subCommand = true
    · rw [if_pos hlast, if_pos (hsub.trans hlast)]
      exact ⟨hfin, by omega, by omega⟩
    rw [if_neg hlast, if_neg (fun h0 => hlast (hsub.symm.trans h0))]
    obtain ⟨h₁, h₂, h₃⟩ := ih (m := m) hfin (by omega) (by omega)
    exact ⟨h₁, by omega, by omega⟩

end Beside

/-! ### The name -/

/-- Blanks in front of a zero byte below `top`. -/
theorem Alike.skipSpaces (h : Alike d lo top b b') (hlo : lo ≤ i) (hij : i ≤ j) (hj : j < top)
    (hnul : b.string j = nul) :
    b'.skipSpaces (i + d) = b.skipSpaces i + d ∧ i ≤ b.skipSpaces i ∧ b.skipSpaces i ≤ j := by
  have key : ∀ fuel i, lo ≤ i → i ≤ j →
      Qat.skipSpaces b'.string fuel (i + d) = Qat.skipSpaces b.string fuel i + d ∧
        i ≤ Qat.skipSpaces b.string fuel i ∧ Qat.skipSpaces b.string fuel i ≤ j := by
    intro fuel
    induction fuel with
    | zero => exact fun i _ hij => ⟨rfl, le_rfl, hij⟩
    | succ fuel ih =>
      intro i hlo hij
      rw [Qat.skipSpaces, Qat.skipSpaces, h.string i hlo (by omega)]
      by_cases hi : b.string i = space
      · have hne : i ≠ j := by
          rintro rfl
          rw [hnul] at hi
          exact absurd hi (by decide)
        obtain ⟨h₁, h₂, h₃⟩ := ih (i + 1) (by omega) (by omega)
        rw [if_pos hi, if_pos hi, Nat.add_right_comm, h₁]
        exact ⟨rfl, by omega, h₃⟩
      · rw [if_neg hi, if_neg hi]
        exact ⟨rfl, le_rfl, hij⟩
  exact key _ i hlo hij

/-- The parser is at the same place of a name in two buffers. -/
structure Abreast (d lo top : ℕ) (s s' : NameScan) : Prop where
  input : Alike d lo top s.input s'.input
  index : s'.index = s.index + d
  start : s'.start = s.start + d
  stop : s'.stop = s.stop + d
  isExec : s'.isExec = s.isExec
  eq : s'.eq = s.eq
  qu : s'.qu = s.qu
  ar : s'.ar = s.ar
  result : s'.result = s.result
  closed : s.input.Closed top
  lo_le : lo ≤ s.start
  start_lt : s.start < s.stop
  stop_le : s.stop ≤ s.index
  lt : s.start < s.input.length

namespace Abreast

variable {s s' : NameScan}

theorem zero (h : Abreast d lo top s s') :
    Alike d lo top (s.input.set s.stop nul) (s'.input.set s'.stop nul) := by
  rw [h.stop]
  exact h.input.set _ _

theorem atEquals (h : Abreast d lo top s s') (hi : s.index ≤ i) :
    Abreast d lo top (s.atEquals i) (s'.atEquals (i + d)) := by
  have hindex : ∀ k, i + d + k = i + k + d := fun k => Nat.add_right_comm i d k
  have hstop : ∀ k, s.stop ≤ i + k := fun k => h.stop_le.trans (hi.trans (Nat.le_add_right _ _))
  have hzero := h.zero
  have hclosed := h.closed.zero s.stop
  have hless : i + d + 1 < (s'.input.set s'.stop nul).length ↔ i + 1 < (s.input.set s.stop nul).length := by
    rw [hzero.length]
    omega
  simp only [NameScan.atEquals]
  by_cases hlt : i + 1 < (s.input.set s.stop nul).length
  swap
  · rw [if_neg hlt, if_neg (hless.not.mpr hlt)]
    exact ⟨hzero, hindex 1, h.start, h.stop, rfl, rfl, h.qu, h.ar, rfl, hclosed, h.lo_le, h.start_lt, hstop 1, h.lt⟩
  have hlo := h.lo_le
  have hstart := h.start_lt
  have hbyte : (s'.input.set s'.stop nul).string (i + d + 1) = (s.input.set s.stop nul).string (i + 1) := by
    rw [hindex 1]
    exact hzero.string _ (by have := hstop 1; omega) (hlt.trans hclosed.lt_top)
  rw [if_pos hlt, if_pos (hless.mpr hlt), hbyte]
  by_cases hc : (s.input.set s.stop nul).string (i + 1) = question
  · rw [if_pos hc, if_pos hc]
    exact ⟨hzero, hindex 2, h.start, h.stop, rfl, rfl, rfl, h.ar, h.result, hclosed, h.lo_le, h.start_lt, hstop 2, h.lt⟩
  · rw [if_neg hc, if_neg hc]
    exact ⟨hzero, hindex 1, h.start, h.stop, rfl, rfl, h.qu, rfl, h.result, hclosed, h.lo_le, h.start_lt, hstop 1, h.lt⟩

theorem atQuestion (h : Abreast d lo top s s') (hi : s.index ≤ i) (hlt : i + 1 < top) :
    Abreast d lo top (s.atQuestion i) (s'.atQuestion (i + d)) := by
  have hindex : i + d + 1 = i + 1 + d := Nat.add_right_comm i d 1
  have hstop : s.stop ≤ i + 1 := h.stop_le.trans (hi.trans (Nat.le_succ _))
  have hlo := h.lo_le
  have hstart := h.start_lt
  have hbyte : s'.input.string (i + d + 1) = s.input.string (i + 1) := by
    rw [hindex]
    exact h.input.string _ (by omega) hlt
  simp only [NameScan.atQuestion]
  rw [hbyte]
  by_cases hc : s.input.string (i + 1) ≠ semicolon ∧ s.input.string (i + 1) ≠ cr ∧ s.input.string (i + 1) ≠ nul
  · rw [if_pos hc, if_pos hc]
    exact ⟨h.input, hindex, h.start, h.stop, h.isExec, h.eq, h.qu, h.ar, rfl, h.closed, hlo, hstart, hstop, h.lt⟩
  · rw [if_neg hc, if_neg hc]
    exact ⟨h.zero, hindex, h.start, h.stop, rfl, h.eq, rfl, h.ar, h.result, h.closed.zero _, hlo, hstart, hstop, h.lt⟩

end Abreast

theorem atEquals_ends (s : NameScan) (i : ℕ) :
    (s.atEquals i).input.length = s.input.length ∧ (s.atEquals i).start = s.start ∧ (s.atEquals i).isExec = false := by
  simp only [NameScan.atEquals]
  split
  next =>
    split
    next => exact ⟨rfl, rfl, rfl⟩
    next => exact ⟨rfl, rfl, rfl⟩
  next => exact ⟨rfl, rfl, rfl⟩

theorem atQuestion_ends (s : NameScan) (i : ℕ) :
    (s.atQuestion i).input.length = s.input.length ∧ (s.atQuestion i).start = s.start ∧
      ((s.atQuestion i).result = true → (s.atQuestion i).isExec = false) := by
  simp only [NameScan.atQuestion]
  split
  next => exact ⟨rfl, rfl, fun hr => absurd hr Bool.false_ne_true⟩
  next => exact ⟨rfl, rfl, fun _ => rfl⟩

/-- What the loop over a name leaves: a name without anything behind it ends with the line or in front of a
    semicolon. -/
structure Named (d lo top : ℕ) (s q q' : NameScan) : Prop where
  abreast : Abreast d lo top q q'
  length : q.input.length = s.input.length
  start : q.start = s.start
  ends : q.result = true → q.isExec = true → q.input.length ≤ q.index ∨ q.input.string q.index = semicolon

theorem scanName_past {q : NameScan} (hq : ¬q.index < q.input.length) (fuel : ℕ) : Qat.scanName fuel q = q := by
  cases fuel with
  | zero => rfl
  | succ fuel =>
    rw [Qat.scanName, if_neg]
    exact fun hc => hq hc.1

theorem Abreast.lt_iff {s s' : NameScan} (h : Abreast d lo top s s') :
    s'.index < s'.input.length ↔ s.index < s.input.length := by
  rw [h.index, h.input.length]
  omega

theorem Abreast.scanName {s s' : NameScan} (h : Abreast d lo top s s') (hf : s.input.length - s.index ≤ fuel)
    (hf' : s.input.length - s.index ≤ m) : Named d lo top s (Qat.scanName fuel s) (Qat.scanName m s') := by
  induction fuel generalizing s s' m with
  | zero =>
    rw [scanName_past (by omega) 0, scanName_past (by rw [h.lt_iff]; omega) m]
    exact ⟨h, rfl, rfl, fun _ _ => .inl (by omega)⟩
  | succ fuel ih =>
    by_cases hin : s.index < s.input.length
    swap
    · rw [scanName_past hin, scanName_past (by rw [h.lt_iff]; exact hin)]
      exact ⟨h, rfl, rfl, fun _ _ => .inl (not_lt.mp hin)⟩
    obtain ⟨m, rfl⟩ : ∃ k, m = k + 1 := ⟨m - 1, by omega⟩
    have htop := h.closed.lt_top
    have hlo := h.lo_le
    have hstart := h.start_lt
    have hstop_le := h.stop_le
    have hbyte : s'.input.string s'.index = s.input.string s.index := by
      rw [h.index]
      exact h.input.string _ (by omega) (by omega)
    simp only [Qat.scanName, hbyte, h.lt_iff]
    by_cases hc : s.index < s.input.length ∧ s.input.string s.index ≠ semicolon
    swap
    · rw [if_neg hc, if_neg hc]
      exact ⟨h, rfl, rfl, fun _ _ => .inr (by_contra fun h0 => hc ⟨hin, h0⟩)⟩
    rw [if_pos hc, if_pos hc]
    obtain ⟨j, hij, hj, hjl, hnul⟩ := h.closed.last hin
    obtain ⟨hskip, hle, hlej⟩ := h.input.skipSpaces (i := s.index) (by omega) hij hj hnul
    rw [← h.index] at hskip
    have hat : s'.input.string (s'.input.skipSpaces s'.index) = s.input.string (s.input.skipSpaces s.index) := by
      rw [hskip]
      exact h.input.string _ (by omega) (by omega)
    rw [hat, hskip]
    generalize s.input.skipSpaces s.index = i at hle hlej
    have hi : i + d + 1 = i + 1 + d := Nat.add_right_comm i d 1
    by_cases heq : s.input.string i = equals
    · rw [if_pos heq, if_pos heq]
      obtain ⟨hlength, hsame, hexec⟩ := atEquals_ends s i
      refine ⟨h.atEquals hle, hlength, hsame, fun _ hx => ?_⟩
      rw [hexec] at hx
      cases hx
    rw [if_neg heq, if_neg heq]
    by_cases hq : s.input.string i = question
    · have hne : i ≠ j := by
        rintro rfl
        rw [hnul] at hq
        exact absurd hq (by decide)
      rw [if_pos hq, if_pos hq]
      obtain ⟨hlength, hsame, hexec⟩ := atQuestion_ends s i
      refine ⟨h.atQuestion hle (by omega), hlength, hsame, fun hr hx => ?_⟩
      rw [hexec hr] at hx
      cases hx
    rw [if_neg hq, if_neg hq]
    by_cases hname : isNameChar (s.input.string i) = true
    · rw [if_pos hname, if_pos hname]
      have hstep : Abreast d lo top { s with isExec := true, stop := s.stop + 1, index := i + 1 }
          { s' with isExec := true, stop := s'.stop + 1, index := i + d + 1 } := by
        refine ⟨h.input, hi, h.start, ?_, rfl, h.eq, h.qu, h.ar, h.result, h.closed, hlo, Nat.lt_succ_of_lt hstart,
          Nat.succ_le_succ (hstop_le.trans hle), h.lt⟩
        show s'.stop + 1 = s.stop + 1 + d
        rw [h.stop, Nat.add_right_comm]
      have hrest := ih (m := m) hstep (by show s.input.length - (i + 1) ≤ fuel; omega)
        (by show s.input.length - (i + 1) ≤ m; omega)
      exact ⟨hrest.abreast, hrest.length, hrest.start, hrest.ends⟩
    · rw [if_neg hname, if_neg hname]
      exact ⟨⟨h.input, rfl, h.start, h.stop, rfl, h.eq, h.qu, h.ar, rfl, h.closed, hlo, hstart, hstop_le.trans hle,
        h.lt⟩, rfl, rfl, fun hr => absurd hr Bool.false_ne_true⟩

/-! ### A sub-command -/

/-- What the parser leaves of a sub-command: the line goes on where it is still closed. -/
structure Level (d lo top i : ℕ) (b : Input) (e e' : Extend) : Prop where
  events : e'.events = e.events
  result : e'.result = e.result
  input : Alike d lo top e.input e'.input
  index : e'.index = e.index + d
  lt : i < e.index
  length : e.input.length ≤ b.length
  closed : e.input.Closed top ∨ e.input.length ≤ e.index

theorem Level.execute {command : Command} {op : Option OpType} {ps ps' : List (ℕ × Option ℤ)}
    {input input' : Input} (status : Bool) (hin : Alike d lo top input input')
    (hps : ps'.map (fun p => (⟨input'.cString p.1, p.2⟩ : Parameter)) =
      ps.map fun p => ⟨input.cString p.1, p.2⟩) (hlt : i < n) (hlength : input.length ≤ b.length)
    (hclosed : input.Closed top ∨ input.length ≤ n) :
    Level d lo top i b (Qat.execute command op input n ps status)
      (Qat.execute command op input' (n + d) ps' status) := by
  cases op with
  | none => exact ⟨rfl, rfl, hin, rfl, hlt, hlength, hclosed⟩
  | some op =>
    simp only [Qat.execute, hps]
    split
    next => exact ⟨rfl, rfl, hin, rfl, hlt, hlength, hclosed⟩
    next => exact ⟨rfl, rfl, hin, rfl, hlt, hlength, hclosed⟩

/-- The parameters that are passed. -/
theorem Beside.passed (h : Beside d lo top p p') :
    p'.params.map (fun x => (⟨p'.input.cString x.1, x.2⟩ : Parameter)) =
      p.params.map fun x => ⟨p.input.cString x.1, x.2⟩ := by
  rw [h.params, List.map_map]
  refine List.map_congr_left fun x hx => ?_
  obtain ⟨hlo, -, hlt⟩ := h.starts x hx
  obtain ⟨j, hij, hj, -, hnul⟩ := h.closed.last hlt
  show (⟨p'.input.cString (x.1 + d), x.2⟩ : Parameter) = ⟨p.input.cString x.1, x.2⟩
  rw [h.input.cString hlo hij hj hnul]

/-- A name that is put back in front of its end. -/
theorem Named.restored (groups : List (List Command)) {s q q' : NameScan} (h : Named d lo top s q q')
    (hr : q.result = true) :
    Alike d lo top q.restored q'.restored ∧ q'.command groups = q.command groups ∧
      q.restored.length = q.input.length ∧ (q.restored.Closed top ∨ q.restored.length ≤ q.index) := by
  have hab := h.abreast
  have hlt := hab.lt
  simp only [NameScan.restored, NameScan.command, NameScan.cut, hab.isExec, hab.start, hab.stop]
  cases hx : q.isExec with
  | false =>
    obtain ⟨j, hij, hj, -, hnul⟩ := hab.closed.last hlt
    simp only [Bool.false_eq_true, if_false]
    refine ⟨hab.input, ?_, trivial, .inl hab.closed⟩
    rw [hab.input.cString hab.lo_le hij hj hnul]
  | true =>
    have hcut := hab.input.set q.stop nul
    have hclosed := hab.closed.zero q.stop
    obtain ⟨j, hij, hj, -, hnul⟩ := hclosed.last (i := q.start) hlt
    simp only [if_true]
    refine ⟨hcut.set q.stop semicolon, ?_, rfl, ?_⟩
    · rw [hcut.cString hab.lo_le hij hj hnul]
    · by_contra hopen
      obtain ⟨hnot, hbefore⟩ := not_or.mp hopen
      have hindex : q.index < q.input.length := not_le.mp hbefore
      have hstop := hab.stop_le
      have hend := (h.ends hr hx).resolve_left (not_le.mpr hindex)
      have hset : ∀ j, q.stop ≠ j → ((q.input.set q.stop nul).set q.stop semicolon).string j = q.input.string j :=
        fun j hj => (Function.update_of_ne hj.symm _ _).trans (Function.update_of_ne hj.symm _ _)
      refine hnot (hab.closed.imp (fun hc => ⟨hc.1, ?_⟩) fun hc => ⟨hc.1, hc.2.1, ?_⟩)
      · exact (hset _ (by show q.stop ≠ q.input.length; omega)).trans hc.2
      · -- the semicolon at the index is not the zero byte at the end of the line
        have hne : q.index ≠ q.input.length - 1 := by
          intro h0
          rw [h0, hc.2.2] at hend
          exact absurd hend (by decide)
        exact (hset _ (by show q.stop ≠ q.input.length - 1; omega)).trans hc.2.2

/-- A sub-command at the index `i`, and the same one `d` bytes further on. -/
theorem processAtExtendCommand_level (groups : List (List Command)) (h : Alike d lo top b b') (hc : b.Closed top)
    (hlo : lo ≤ i) (hi : i < b.length) (status : Bool) :
    Level d lo top i b (processAtExtendCommand groups b i status)
      (processAtExtendCommand groups b' (i + d) status) := by
  have hlen := h.length
  have hname : Named d lo top ⟨b, i + 1, i, i + 1, false, false, false, false, true⟩ (nameScan b i)
      (nameScan b' (i + d)) := by
    refine Abreast.scanName ⟨h, ?_, rfl, ?_, rfl, rfl, rfl, rfl, rfl, hc, hlo, Nat.lt_succ_self _, le_rfl, hi⟩ ?_ ?_
    · exact Nat.add_right_comm i d 1
    · exact Nat.add_right_comm i d 1
    · exact Nat.sub_le _ _
    · show b.length - (i + 1) ≤ b'.length
      omega
  rw [processAtExtendCommand_eq, processAtExtendCommand_eq]
  have hrestored := hname.restored groups
  have hstart : (nameScan b i).start = i := hname.start
  have hlength : (nameScan b i).input.length = b.length := hname.length
  have hab := hname.abreast
  generalize nameScan b i = s at *
  generalize nameScan b' (i + d) = s' at *
  have hlt : i < s.index := hstart ▸ hab.start_lt.trans_le hab.stop_le
  dsimp only
  rw [hab.result]
  by_cases hr : s.result = true
  swap
  · rw [if_neg hr, if_neg hr]
    exact ⟨rfl, rfl, hab.input, hab.index, hlt, hlength.le, .inl hab.closed⟩
  obtain ⟨hin, hcommand, hsame, hclosed⟩ := hrestored hr
  rw [if_pos hr, if_pos hr, hcommand]
  have hle : s.restored.length ≤ b.length := (hsame.trans hlength).le
  cases s.command groups with
  | none => exact ⟨rfl, rfl, hin, hab.index, hlt, hle, hclosed⟩
  | some command =>
    dsimp only
    rw [hab.ar, hab.eq, hab.qu, hab.index]
    by_cases har : s.ar = true
    swap
    · rw [if_neg har, if_neg har]
      exact Level.execute status hin rfl hlt hle hclosed
    rw [if_pos har, if_pos har]
    rcases hclosed with hc | hpast
    · have hb : Beside d lo top s.params s'.params := by
        refine ⟨hin, hab.index, rfl, rfl, rfl, rfl, rfl, hc, hlo.trans hlt.le, fun x hx => ?_⟩
        cases hx
      have hlonger := hin.length
      obtain ⟨ht, htl, hti⟩ : Beside d lo top (scanParams s.restored.length s.params)
          (scanParams s'.restored.length s'.params) ∧ _ :=
        hb.scanParams (Nat.sub_le _ _) ((Nat.sub_le _ _).trans (by show s.restored.length ≤ _; omega))
      have hti' : i < (scanParams s.restored.length s.params).index := hlt.trans_le hti
      have htl' : (scanParams s.restored.length s.params).input.length ≤ b.length := htl.trans hle
      generalize scanParams s.restored.length s.params = t at *
      generalize scanParams s'.restored.length s'.params = t' at *
      rw [ht.abort, ht.result, ht.insideQuotes]
      by_cases ha : t.abort = true
      · rw [if_pos ha, if_pos ha]
        exact ⟨rfl, rfl, ht.input, ht.index, hti', htl', .inl ht.closed⟩
      rw [if_neg ha, if_neg ha]
      by_cases hbad : t.result = false ∨ t.insideQuotes = true
      · rw [if_pos hbad, if_pos hbad]
        exact ⟨rfl, rfl, ht.input, ht.index, hti', htl', .inl ht.closed⟩
      · rw [if_neg hbad, if_neg hbad, ht.index]
        exact Level.execute status ht.input ht.passed hti' htl' (.inl ht.closed)
    · have hpast' : ¬s'.params.index < s'.params.input.length := by
        have hlonger := hin.length
        have hindex := hab.index
        show ¬s'.index < s'.restored.length
        omega
      rw [scanParams_past (p := s.params) (not_lt.mpr hpast), scanParams_past hpast']
      simp only [NameScan.params, Bool.false_eq_true, if_false, Bool.true_eq_false, or_false, hab.index]
      exact Level.execute status hin rfl hlt hle (.inr hpast)

/-! ### A line -/

/-- Sub-commands at the end of a line cause the same, wherever in the buffer they stand. -/
theorem processCommands_position (groups : List (List Command)) (h : Alike d lo top b b')
    (hc : b.Closed top ∨ b.length ≤ i) (hlo : lo ≤ i) (hf : b.length - i ≤ fuel) (hf' : b.length - i ≤ m)
    (statuses : List Bool) : (processCommands groups m b' (i + d) statuses).events =
      (processCommands groups fuel b i statuses).events := by
  have hstop : ∀ {b : Input} {i : ℕ} (k : ℕ) (statuses : List Bool), ¬i < b.length →
      processCommands groups k b i statuses = ⟨b, false, []⟩ := by
    intro b i k statuses hi
    cases k with
    | zero => rfl
    | succ k => rw [processCommands, if_neg hi]
  have hless : ∀ {b b' : Input} {i : ℕ}, Alike d lo top b b' → (i + d < b'.length ↔ i < b.length) := by
    intro b b' i h
    rw [h.length]
    omega
  induction fuel generalizing b b' i m statuses with
  | zero => rw [hstop 0 statuses (by omega), hstop m statuses (by rw [hless h]; omega)]
  | succ fuel ih =>
    by_cases hi : i < b.length
    swap
    · rw [hstop _ statuses hi, hstop _ statuses (by rw [hless h]; exact hi)]
    obtain ⟨m, rfl⟩ : ∃ k, m = k + 1 := ⟨m - 1, by omega⟩
    have hc := hc.resolve_right (not_le.mpr hi)
    rw [processCommands, processCommands, if_pos hi, if_pos ((hless h).mpr hi), h.string i hlo (hi.trans hc.lt_top)]
    by_cases hskip : b.string i = space ∨ b.string i = semicolon
    · rw [if_pos hskip, if_pos hskip, Nat.add_right_comm]
      exact ih h (.inl hc) (by omega) (by omega) (by omega) statuses
    rw [if_neg hskip, if_neg hskip]
    by_cases hplus : b.string i = plus
    swap
    · rw [if_neg hplus, if_neg hplus]
    rw [if_pos hplus, if_pos hplus]
    have hlevel := processAtExtendCommand_level groups h hc hlo hi (statuses.headD true)
    generalize processAtExtendCommand groups b i (statuses.headD true) = e at hlevel
    generalize processAtExtendCommand groups b' (i + d) (statuses.headD true) = e' at hlevel
    have hlt := hlevel.lt
    have hlen := hlevel.length
    dsimp only
    rw [hlevel.result]
    by_cases hr : e.result = true
    · rw [if_pos hr, if_pos hr, hlevel.index]
      simp only [hlevel.events]
      rw [ih hlevel.input hlevel.closed (by omega) (by omega) (by omega)]
    · rw [if_neg hr, if_neg hr]
      exact hlevel.events

end Qcc730.Qat
