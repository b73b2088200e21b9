import Qcc730.Qat.Quoting

/-! How the console splits a line into parameters.

    Unlike the parser of the AT commands, this one looks for the zero byte behind the line, and uses the length of
    the line only to take escapes out of it. The bytes behind an escape are moved down by one, the length goes down
    by one, but no zero byte is stored where the line ends now: the last byte of the line stays there and is read
    once more. -/

namespace Qcc730.Console

open Lib
open Qat (nul cr space quote backslash isEscaped escaped quoted)

/-- `QCLI_MAXIMUM_QCLI_COMMAND_STRING_LENGTH`; the buffer has one byte more. -/
def maximumCommandStringLength : ℕ := 256
def maximumNumberOfParameters : ℕ := 17

/-- The locals of the loops of `Process_Command`; the length in `input` is the local `Input_Length`. -/
structure Scan where
  input : Qat.Input
  index : ℕ
  insideQuotes : Bool
  /-- the parameters so far: where each starts, and its value as a number -/
  params : List (ℕ × Option ℤ)
  result : Bool

/-- The string that starts at `i`. -/
def Scan.cString (s : Scan) (i : ℕ) : List UInt8 := Qat.cString s.input.string (maximumCommandStringLength + 1) i

/-- An escape at the index: `\\` and `\"` lose the backslash. -/
def Scan.escape (s : Scan) : Scan :=
  let b := s.input
  if s.index + 1 < b.length then
    let c := b.string (s.index + 1)
    if c = backslash ∨ c = quote then
      { s with input := { b.move s.index (s.index + 1) (b.length - s.index - 1) with length := b.length - 1 } }
    else { s with result := false }
  else { s with result := false }

/-- The loop to the end of a parameter. -/
def scanParam : ℕ → Scan → Scan
  | 0, s => s
  | fuel + 1, s =>
    let c := s.input.string s.index
    if s.result ∧ c ≠ nul ∧ c ≠ quote ∧ (s.insideQuotes ∨ c ≠ space) then
      let s := if c = backslash then s.escape else s
      scanParam fuel { s with index := s.index + 1 }
    else s

/-- The parameter that starts at `start` is cut off and converted. -/
def Scan.finish (s : Scan) (start : ℕ) : Scan :=
  let c := s.input.string s.index
  let s := if c = quote then { s with insideQuotes := !s.insideQuotes } else s
  let s := if c ≠ nul then { s with input := s.input.set s.index nul, index := s.index + 1 } else s
  { s with params := s.params ++ [(start, Qat.stringToInteger (s.cString start))] }

/-- The loop over the parameters. -/
def scanParams : ℕ → Scan → Scan
  | 0, s => s
  | fuel + 1, s =>
    if s.result ∧ s.input.string s.index ≠ nul ∧ s.params.length ≤ maximumNumberOfParameters then
      let s := { s with index := Qat.skipSpaces s.input.string (maximumCommandStringLength + 1) s.index }
      let s := if s.input.string s.index = quote then { s with insideQuotes := true, index := s.index + 1 } else s
      if s.input.string s.index ≠ nul then
        scanParams fuel ((scanParam (maximumCommandStringLength + 1) s).finish s.index)
      else scanParams fuel s
    else s

/-- What the command is looked up with: whether the line could be split, and the parameters. -/
structure Split where
  result : Bool
  parameters : List Qat.Parameter
  deriving DecidableEq

/-- `Process_Command`, up to the search for the command. -/
def processCommand (b : Qat.Input) : Split :=
  let s := scanParams (maximumCommandStringLength + 1) ⟨b, 0, false, [], true⟩
  ⟨s.result && !s.insideQuotes, s.params.map fun p => ⟨s.cString p.1, p.2⟩⟩

/-- The buffer of the console, and the lines that have been split so far. -/
structure ConsoleInput where
  input : Qat.Input
  commands : List Split

/-- `QCLI_Initialize` -/
def ConsoleInput.init : ConsoleInput := ⟨.empty, []⟩

/-- A character of `QCLI_Process_Input_Data`. -/
def inputChar (s : ConsoleInput) (c : UInt8) : ConsoleInput :=
  if c = cr then ⟨.empty, s.commands ++ [processCommand s.input]⟩
  else if s.input.length < maximumCommandStringLength then
    { s with input := { s.input.set s.input.length c with length := s.input.length + 1 } }
  else s

/-- `QCLI_Process_Input_Data` -/
def processInputData (s : ConsoleInput) (buffer : List UInt8) : ConsoleInput := buffer.foldl inputChar s

/-! ### The body of a string -/

variable {s : Scan} {f t u : List UInt8} {e fuel n : ℕ}

/-- The parser stands in front of `t`; `e` more quotes have been left behind the line by the escapes so far. -/
structure Standing (s : Scan) (t : List UInt8) (e : ℕ) : Prop where
  reads : Reads s.input.string s.index (t ++ (List.replicate e quote ++ [nul]))
  length : s.input.length = s.index + t.length
  fits : s.index + t.length + e ≤ maximumCommandStringLength

/-- A character that is just read. -/
theorem Standing.next {c : UInt8} (h : Standing s (c :: t) e) : Standing { s with index := s.index + 1 } t e := by
  have hl := h.length
  have hf := h.fits
  rw [List.length_cons] at hl hf
  exact ⟨h.reads.tail, by simp only; omega, by simp only; omega⟩

/-- An escape: one character less to read, one quote more behind the line. -/
theorem Standing.escape {c : UInt8} (h : Standing s (backslash :: c :: t) e) (hc : isEscaped c = true)
    (ht : t.getLast? = some quote) :
    ∃ b, s.escape = { s with input := b } ∧ b.string s.index = c ∧ (∀ j < s.index, b.string j = s.input.string j) ∧
      Standing { s with input := b, index := s.index + 1 } t (e + 1) := by
  have hl := h.length
  have hf := h.fits
  simp only [List.length_cons] at hl hf
  have hlt : s.index + 1 < s.input.length := by omega
  have hnext : s.input.string (s.index + 1) = c := h.reads.tail.head
  have hesc : c = backslash ∨ c = quote := Qat.isEscaped_iff.mp hc
  have hcount : s.input.length - s.index - 1 = t.length + 1 := by omega
  -- what stands behind the index, and the last byte of the line
  have hrest : Reads s.input.string (s.index + 1) ((c :: t) ++ (List.replicate e quote ++ [nul])) := h.reads.tail
  obtain ⟨hbody, hbehind⟩ := Reads.append_iff.mp hrest
  have hlast : s.input.string (s.index + 1 + t.length) = quote := by
    have hq : (c :: t).getLast (List.cons_ne_nil c t) = quote := by
      have hsome : (c :: t).getLast? = some quote := by rw [List.getLast?_cons, ht]; rfl
      rw [List.getLast?_eq_getLast_of_ne_nil (List.cons_ne_nil c t)] at hsome
      exact Option.some.inj hsome
    rw [hbody.getLast, hq]
  have hin : ∀ j, s.index ≤ j → j < s.index + (t.length + 1) →
      (s.input.move s.index (s.index + 1) (t.length + 1)).string j = s.input.string (j + 1) := by
    intro j hj hj'
    simp only [Qat.Input.move]
    rw [if_pos ⟨hj, hj'⟩]
    congr 1
    omega
  have hout : ∀ j, j < s.index ∨ s.index + (t.length + 1) ≤ j →
      (s.input.move s.index (s.index + 1) (t.length + 1)).string j = s.input.string j := by
    intro j hj
    simp only [Qat.Input.move]
    rw [if_neg (by omega)]
  refine ⟨_, by simp only [Scan.escape]; rw [if_pos hlt, hnext, if_pos hesc], ?_, ?_, ⟨?_, ?_, ?_⟩⟩
  · simp only [hcount]
    rw [hin _ le_rfl (by omega), hnext]
  · intro j hj
    simp only [hcount]
    exact hout j (.inl hj)
  · simp only [hcount, List.replicate_succ, List.cons_append]
    refine Reads.append_iff.mpr ⟨hbody.tail.move fun k hk => ?_, ?_, hbehind.move fun k _ => ?_⟩
    · rw [hin _ (by omega) (by omega)]
      congr 1
      omega
    · rw [hout _ (by omega), ← hlast]
    · rw [hout _ (by omega)]
      congr 1
  · simp only
    omega
  · simp only
    omega

/-- The body of a string in quotes is read without its escapes. -/
theorem scanParam_escaped (h : Standing s (escaped f ++ quote :: u) e) (hr : s.result = true)
    (hq : s.insideQuotes = true) (hn : nul ∉ f) (hu : (quote :: u).getLast? = some quote) (hf : f.length < fuel) :
    ∃ b, scanParam fuel s = { s with input := b, index := s.index + f.length } ∧
      Standing { s with input := b, index := s.index + f.length } (quote :: u) (e + f.countP isEscaped) ∧
      Reads b.string s.index f ∧ ∀ j < s.index, b.string j = s.input.string j := by
  induction f generalizing s e fuel with
  | nil =>
    obtain ⟨fuel, rfl⟩ : ∃ k, fuel = k + 1 := ⟨fuel - 1, by simp at hf; omega⟩
    have hi : s.input.string s.index = quote := h.reads.head
    refine ⟨s.input, ?_, h, trivial, fun _ _ => rfl⟩
    simp only [scanParam]
    rw [if_neg (fun hc => hc.2.2.1 hi)]
    rfl
  | cons c f ih =>
    obtain ⟨fuel, rfl⟩ : ∃ k, fuel = k + 1 := ⟨fuel - 1, by simp at hf; omega⟩
    have hn' : nul ∉ f := fun h0 => hn (List.mem_cons_of_mem _ h0)
    have hf' : f.length < fuel := by rw [List.length_cons] at hf; omega
    cases hc : isEscaped c with
    | true =>
      rw [Qat.escaped_cons_pos hc] at h
      have hi : s.input.string s.index = backslash := h.reads.head
      have hlast : (escaped f ++ quote :: u).getLast? = some quote := by
        rw [List.getLast?_append, hu]
        rfl
      obtain ⟨b, hb, hat, hbelow, hs⟩ := h.escape hc hlast
      obtain ⟨b', hb', hs', hreads, hsame⟩ := ih hs hr hq hn' hf'
      simp only at hb' hs' hreads hsame
      have hadd : s.index + 1 + f.length = s.index + (f.length + 1) := by omega
      have hcount : e + 1 + f.countP isEscaped = e + (c :: f).countP isEscaped := by
        rw [List.countP_cons_of_pos hc]
        omega
      rw [hadd] at hb' hs'
      rw [hcount] at hs'
      refine ⟨b', ?_, hs', ⟨(hsame _ (Nat.lt_succ_self _)).trans hat, hreads⟩, fun j hj => ?_⟩
      · rw [List.length_cons, ← hb']
        simp only [scanParam]
        rw [if_pos ⟨hr, by rw [hi]; decide, by rw [hi]; decide, .inl hq⟩, if_pos hi, hb]
      · rw [hsame j (by omega), hbelow j hj]
    | false =>
      rw [Qat.escaped_cons_neg hc] at h
      have hi : s.input.string s.index = c := h.reads.head
      have hne : c ≠ backslash ∧ c ≠ quote := by
        constructor <;> rintro rfl <;> exact absurd hc (by decide)
      have h0 : c ≠ nul := fun h0 => hn (by rw [h0]; exact List.mem_cons_self)
      obtain ⟨b, hb, hs, hreads, hsame⟩ := ih h.next hr hq hn' hf'
      simp only at hb hs hreads hsame
      have hadd : s.index + 1 + f.length = s.index + (f.length + 1) := by omega
      rw [hadd] at hb hs
      rw [List.countP_cons_of_neg (by rw [hc]; exact Bool.false_ne_true)]
      refine ⟨b, ?_, hs, ⟨(hsame _ (Nat.lt_succ_self _)).trans hi, hreads⟩, fun j hj => hsame j (by omega)⟩
      rw [List.length_cons, ← hb]
      simp only [scanParam]
      rw [if_pos ⟨hr, by rw [hi]; exact h0, by rw [hi]; exact hne.2, .inl hq⟩, if_neg (by rw [hi]; exact hne.1)]

/-! ### A string -/

/-- Between two parameters: `t` is still to be read, and the strings so far stand in front of the index. -/
structure Between (s : Scan) (t : List UInt8) (e : ℕ) (done : List (List UInt8)) : Prop where
  standing : Standing s t e
  result : s.result = true
  outside : s.insideQuotes = false
  params : Qat.Holds s.input.string s.index s.params done

/-- The first character of a string in quotes, or the closing quote, is not the zero byte. -/
theorem Standing.ne_nul (h : Standing s (escaped f ++ quote :: u) e) (hn : nul ∉ f) :
    s.input.string s.index ≠ nul := by
  cases f with
  | nil =>
    have hi : s.input.string s.index = quote := h.reads.head
    rw [hi]
    decide
  | cons c f =>
    cases hc : isEscaped c with
    | true =>
      rw [Qat.escaped_cons_pos hc] at h
      have hi : s.input.string s.index = backslash := h.reads.head
      rw [hi]
      decide
    | false =>
      rw [Qat.escaped_cons_neg hc] at h
      have hi : s.input.string s.index = c := h.reads.head
      rw [hi]
      exact fun h0 => hn (by rw [h0]; exact List.mem_cons_self)

/-- Blanks are skipped, and a quote behind them. -/
theorem Standing.open (h : Standing s (List.replicate n space ++ (quote :: t)) e) :
    s.input.string s.index ≠ nul ∧
      Qat.skipSpaces s.input.string (maximumCommandStringLength + 1) s.index = s.index + n ∧
      s.input.string (s.index + n) = quote ∧
      Standing { s with insideQuotes := true, index := s.index + n + 1 } t e := by
  have hl := h.length
  have hf := h.fits
  simp only [List.length_append, List.length_replicate, List.length_cons] at hl hf
  have hreads := h.reads
  rw [List.append_assoc, List.cons_append] at hreads
  obtain ⟨hblank, hrest⟩ := Reads.append_iff.mp hreads
  rw [List.length_replicate] at hrest
  refine ⟨?_, ?_, hrest.head, ⟨hrest.tail, by simp only; omega, by simp only; omega⟩⟩
  · cases n with
    | zero =>
      have hi : s.input.string s.index = quote := hrest.head
      rw [hi]
      decide
    | succ n =>
      have hi : s.input.string s.index = space := hblank.head
      rw [hi]
      decide
  · refine Qat.skipSpaces_of_reads (c := quote) (Reads.append_iff.mpr ⟨hblank, ?_⟩) (by decide) (by omega)
    rw [List.length_replicate]
    exact ⟨hrest.head, trivial⟩

/-- One string in quotes, with blanks in front of it. -/
theorem Between.field {done : List (List UInt8)}
    (h : Between s (List.replicate n space ++ quoted f ++ u) e done) (hd : done.length ≤ maximumNumberOfParameters)
    (hn : nul ∉ f) (hu : u = [] ∨ u.getLast? = some quote) (fuel : ℕ) :
    ∃ s', scanParams (fuel + 1) s = scanParams fuel s' ∧
      Between s' u (e + f.countP isEscaped) (done ++ [f]) := by
  have hs := h.standing
  have htext : List.replicate n space ++ quoted f ++ u =
      List.replicate n space ++ (quote :: (escaped f ++ quote :: u)) := by simp [quoted]
  rw [htext] at hs
  have hlast : (quote :: u).getLast? = some quote := by
    rcases hu with rfl | hu
    · rfl
    · rw [List.getLast?_cons, hu]
      rfl
  obtain ⟨h0, hskip, hquote, hopen⟩ := hs.open
  have hp : s.params.length ≤ maximumNumberOfParameters := by rw [h.params.length_eq]; exact hd
  have hfuel : f.length < maximumCommandStringLength + 1 := by
    have hf := hopen.fits
    rw [List.length_append, Qat.length_escaped] at hf
    omega
  obtain ⟨b, hb, hclose, hreads, hbelow⟩ := scanParam_escaped hopen h.result rfl hn hlast hfuel
  simp only at hb hclose hreads hbelow
  have hat : b.string (s.index + n + 1 + f.length) = quote := hclose.reads.head
  have hnext := hclose.next
  have hround : scanParams (fuel + 1) s = scanParams fuel
      (Scan.finish { s with input := b, index := s.index + n + 1 + f.length, insideQuotes := true }
        (s.index + n + 1)) := by
    simp only [scanParams]
    rw [if_pos ⟨h.result, h0, hp⟩]
    simp only [hskip, hquote, if_true]
    rw [if_pos (hopen.ne_nul hn), hb]
  have hfinish : Scan.finish { s with input := b, index := s.index + n + 1 + f.length, insideQuotes := true }
      (s.index + n + 1) =
      { s with
        input := b.set (s.index + n + 1 + f.length) nul
        index := s.index + n + 1 + f.length + 1
        insideQuotes := false
        params := s.params ++ [(s.index + n + 1, Qat.stringToInteger (Qat.cString
          (b.set (s.index + n + 1 + f.length) nul).string (maximumCommandStringLength + 1) (s.index + n + 1)))] } := by
    simp only [Scan.finish, Scan.cString, hat, if_true, Bool.not_true]
    rw [if_pos (by decide)]
  rw [hfinish] at hround
  refine ⟨_, hround, ⟨⟨?_, ?_, ?_⟩, h.result, rfl, ?_⟩⟩
  · exact hnext.reads.update (.inl (Nat.lt_succ_self _))
  · exact hnext.length
  · exact hnext.fits
  · refine Qat.Holds.snoc (h.params.congr (by simp only; omega) fun k hk => ?_) ?_ ?_
    · simp only [Qat.Input.set]
      rw [Function.update_of_ne (by omega), hbelow k (by omega)]
    · refine Reads.append_iff.mpr ⟨hreads.update (.inr le_rfl), ?_, trivial⟩
      simp only [Qat.Input.set]
      exact Function.update_self _ _ _
    · simp only
      omega

/-! ### A line -/

/-- The line for some strings, each with a number of blanks in front of it. -/
def line : List (ℕ × List UInt8) → List UInt8
  | [] => []
  | p :: ps => List.replicate p.1 space ++ quoted p.2 ++ line ps

variable {ps : List (ℕ × List UInt8)} {b : Qat.Input} {before : List UInt8}

/-- How many characters of the strings are escaped. -/
def escapes (ps : List (ℕ × List UInt8)) : ℕ := (ps.map fun p => p.2.countP isEscaped).sum

theorem escapes_eq_zero_iff : escapes ps = 0 ↔ ∀ p ∈ ps, backslash ∉ p.2 ∧ quote ∉ p.2 := by
  simp only [escapes, List.sum_eq_zero_iff, List.forall_mem_map, List.countP_eq_zero, Qat.isEscaped_iff, not_or]
  refine forall₂_congr fun p _ => ⟨fun h => ⟨fun hb => (h _ hb).1 rfl, fun hq => (h _ hq).2 rfl⟩, ?_⟩
  rintro ⟨hb, hq⟩ c hc
  exact ⟨fun h => hb (h ▸ hc), fun h => hq (h ▸ hc)⟩

theorem line_last (ps : List (ℕ × List UInt8)) : line ps = [] ∨ (line ps).getLast? = some quote := by
  induction ps with
  | nil => exact .inl rfl
  | cons p ps ih =>
    right
    rcases ih with h | h
    · rw [line, h, List.append_nil, quoted, ← List.append_assoc]
      exact List.getLast?_concat
    · rw [line, List.getLast?_append, h]
      rfl

theorem Between.fields {done : List (List UInt8)} (h : Between s (line ps) e done)
    (hd : done.length + ps.length ≤ maximumNumberOfParameters) (hn : ∀ p ∈ ps, nul ∉ p.2) (fuel : ℕ) :
    ∃ s', scanParams (fuel + ps.length) s = scanParams fuel s' ∧
      Between s' [] (e + escapes ps) (done ++ ps.map Prod.snd) := by
  induction ps generalizing s e done with
  | nil => exact ⟨s, rfl, by simpa [line, escapes] using h⟩
  | cons p ps ih =>
    rw [List.length_cons] at hd
    obtain ⟨s₁, hstep, hb₁⟩ := h.field (by omega) (hn p List.mem_cons_self) (line_last ps) (fuel + ps.length)
    obtain ⟨s', hrun, hb'⟩ := ih hb₁ (by rw [List.length_append]; simp only [List.length_cons, List.length_nil]; omega)
      fun q hq => hn q (List.mem_cons_of_mem _ hq)
    refine ⟨s', by rw [List.length_cons, ← Nat.add_assoc, hstep, hrun], ?_⟩
    have hsum : e + escapes (p :: ps) = e + p.2.countP isEscaped + escapes ps := by
      simp only [escapes, List.map_cons, List.sum_cons]
      omega
    have hdone : done ++ (p :: ps).map Prod.snd = done ++ [p.2] ++ ps.map Prod.snd := by simp
    rw [hsum, hdone]
    exact hb'

theorem scanParam_params (fuel : ℕ) (s : Scan) : (scanParam fuel s).params = s.params := by
  induction fuel generalizing s with
  | zero => rfl
  | succ fuel ih =>
    simp only [scanParam]
    split
    · rw [ih]
      simp only [Scan.escape]
      split_ifs <;> rfl
    · rfl

theorem finish_length (s : Scan) (start : ℕ) : (s.finish start).params.length = s.params.length + 1 := by
  simp only [Scan.finish]
  split_ifs <;> simp

/-- No parameter is taken back. -/
theorem length_le_scanParams (fuel : ℕ) (s : Scan) : s.params.length ≤ (scanParams fuel s).params.length := by
  induction fuel generalizing s with
  | zero => exact le_rfl
  | succ fuel ih =>
    simp only [scanParams]
    split
    next =>
      -- blanks and a quote are skipped
      obtain ⟨q, hq⟩ : ∃ q : Scan, (if s.input.string
          (Qat.skipSpaces s.input.string (maximumCommandStringLength + 1) s.index) = quote then
            { s with
              insideQuotes := true
              index := Qat.skipSpaces s.input.string (maximumCommandStringLength + 1) s.index + 1 }
          else { s with index := Qat.skipSpaces s.input.string (maximumCommandStringLength + 1) s.index }) = q :=
        ⟨_, rfl⟩
      have hparams : q.params = s.params := by
        rw [← hq]
        split <;> rfl
      simp only [hq]
      rw [← hparams]
      split
      next =>
        refine le_trans ?_ (ih _)
        rw [finish_length, scanParam_params]
        exact Nat.le_succ _
      next => exact ih q
    next => exact le_rfl

/-- Quotes behind the line are taken for an open quote, or for one more parameter. -/
theorem Between.extra {done : List (List UInt8)} (h : Between s [] (e + 1) done)
    (hd : done.length ≤ maximumNumberOfParameters) (fuel : ℕ) :
    (scanParams (fuel + 2) s).insideQuotes = true ∨ done.length < (scanParams (fuel + 2) s).params.length := by
  have hreads := h.standing.reads
  simp only [List.replicate_succ, List.nil_append, List.cons_append] at hreads
  have hquote : s.input.string s.index = quote := hreads.head
  have hskip : Qat.skipSpaces s.input.string (maximumCommandStringLength + 1) s.index = s.index :=
    Qat.skipSpaces_of_reads (n := 0) ⟨hquote, trivial⟩ (by decide) (Nat.succ_pos _)
  have hround : scanParams (fuel + 2) s =
      if s.input.string (s.index + 1) ≠ nul then
        scanParams (fuel + 1) ((scanParam (maximumCommandStringLength + 1)
          { s with insideQuotes := true, index := s.index + 1 }).finish (s.index + 1))
      else scanParams (fuel + 1) { s with insideQuotes := true, index := s.index + 1 } := by
    rw [scanParams, if_pos ⟨h.result, by rw [hquote]; decide, by rw [h.params.length_eq]; exact hd⟩]
    simp only [hskip, hquote, if_true]
  rw [hround]
  by_cases h0 : s.input.string (s.index + 1) = nul
  · left
    rw [if_neg (fun hc => hc h0), scanParams, if_neg (fun hc => hc.2.1 h0)]
  · right
    rw [if_pos h0]
    refine lt_of_lt_of_le ?_ (length_le_scanParams _ _)
    rw [finish_length, scanParam_params, h.params.length_eq]
    exact Nat.lt_succ_self _

/-- The line is split into the strings exactly if none of them has an escape. -/
theorem processCommand_iff (hlen : ps.length ≤ maximumNumberOfParameters) (hn : ∀ p ∈ ps, nul ∉ p.2)
    (hfit : (line ps).length ≤ maximumCommandStringLength) (hreads : Reads b.string 0 (line ps ++ [nul]))
    (hl : b.length = (line ps).length) :
    ((processCommand b).result = true ∧ (processCommand b).parameters.map (·.stringValue) = ps.map Prod.snd) ↔
      escapes ps = 0 := by
  have hstart : Between ⟨b, 0, false, [], true⟩ (line ps) 0 [] :=
    ⟨⟨by simpa using hreads, by simpa using hl, by simpa using hfit⟩, rfl, rfl, .nil⟩
  obtain ⟨k, hk⟩ : ∃ k, maximumCommandStringLength + 1 = k + 2 + ps.length :=
    ⟨maximumCommandStringLength - 1 - ps.length, by
      simp only [maximumCommandStringLength, maximumNumberOfParameters] at *
      omega⟩
  obtain ⟨s, hrun, hs⟩ := hstart.fields (by simpa using hlen) hn (k + 2)
  rw [Nat.zero_add, List.nil_append] at hs
  simp only [processCommand]
  rw [hk, hrun]
  constructor
  · rintro ⟨hresult, hstrings⟩
    by_contra hne
    obtain ⟨e, he⟩ : ∃ e, escapes ps = e + 1 := ⟨escapes ps - 1, by omega⟩
    rw [he] at hs
    have hlength := congrArg List.length hstrings
    simp only [List.length_map] at hlength
    rcases hs.extra (by simpa using hlen) k with hin | hmore
    · simp [hin] at hresult
    · rw [List.length_map] at hmore
      omega
  · intro hzero
    rw [hzero] at hs
    have hend : s.input.string s.index = nul := hs.standing.reads.head
    have hstop : scanParams (k + 2) s = s := by
      rw [scanParams, if_neg (fun hc => hc.2.1 hend)]
    rw [hstop]
    refine ⟨by rw [hs.result, hs.outside]; rfl, ?_⟩
    have hfits := hs.standing.fits
    rw [List.map_map]
    have hnul : ∀ f ∈ ps.map Prod.snd, nul ∉ f := fun f hf => by
      obtain ⟨p, hp, rfl⟩ := List.mem_map.mp hf
      exact hn p hp
    refine hs.params.strings hnul ?_
    simp only [List.length_nil] at hfits
    omega

/-! ### The input -/

/-- Characters that do not end the line are appended to it as long as they fit. -/
theorem inputChars {s : ConsoleInput} (hcr : cr ∉ t) (hl : s.input.length + t.length ≤ maximumCommandStringLength) :
    ∃ b : Qat.Input, t.foldl inputChar s = { s with input := b } ∧ b.length = s.input.length + t.length ∧
      Reads b.string s.input.length t ∧
      ∀ j, j < s.input.length ∨ s.input.length + t.length ≤ j → b.string j = s.input.string j := by
  induction t generalizing s with
  | nil => exact ⟨s.input, rfl, rfl, trivial, fun _ _ => rfl⟩
  | cons c t ih =>
    rw [List.length_cons] at hl
    have hc : c ≠ cr := fun h => hcr (h ▸ List.mem_cons_self)
    have hstep : inputChar s c =
        { s with input := { s.input.set s.input.length c with length := s.input.length + 1 } } := by
      rw [inputChar, if_neg hc, if_pos (by omega)]
    obtain ⟨b, hb, hlen, hreads, hsame⟩ := ih (s := inputChar s c) (fun h => hcr (List.mem_cons_of_mem _ h))
      (by rw [hstep]; simp only; omega)
    rw [hstep] at hb hlen hreads hsame
    simp only [Qat.Input.set] at hb hlen hreads hsame
    refine ⟨b, ?_, ?_, ⟨?_, hreads⟩, fun j hj => ?_⟩
    · rw [List.foldl_cons, hstep]
      exact hb
    · rw [hlen, List.length_cons]
      omega
    · rw [hsame _ (.inl (Nat.lt_succ_self _)), Function.update_self]
    · rw [List.length_cons] at hj
      rw [hsame j (by omega), Function.update_of_ne (by omega)]

/-- After an end of line the buffer is empty. -/
theorem input_of_before (hb : before = [] ∨ before.getLast? = some cr) :
    (processInputData .init before).input = .empty := by
  rcases hb with rfl | hb
  · rfl
  · obtain ⟨front, rfl⟩ : ∃ front, before = front ++ [cr] := by
      rw [List.getLast?_eq_some_iff] at hb
      exact hb
    rw [processInputData, List.foldl_append]
    simp [inputChar]

theorem cr_not_mem_line (hcr : ∀ p ∈ ps, cr ∉ p.2) : cr ∉ line ps := by
  induction ps with
  | nil => exact List.not_mem_nil
  | cons p ps ih =>
    have hp := hcr p List.mem_cons_self
    have hesc : cr ∉ escaped p.2 := by
      simp only [escaped, List.mem_flatMap, not_exists, not_and]
      intro c hc hmem
      split at hmem
      · simp only [List.mem_cons, List.not_mem_nil, or_false] at hmem
        rcases hmem with h | rfl
        · exact absurd h (by decide)
        · exact hp hc
      · simp only [List.mem_cons, List.not_mem_nil, or_false] at hmem
        exact hp (hmem ▸ hc)
    simp only [line, quoted, List.mem_append, List.mem_replicate, List.mem_cons, List.not_mem_nil, or_false, not_or]
    refine ⟨⟨fun h => absurd h.2 (by decide), ⟨by decide, hesc⟩, by decide⟩, ih fun q hq => ?_⟩
    exact hcr q (List.mem_cons_of_mem _ hq)

/-- After the input so far, the line for the strings is split into exactly these. -/
def Survive (before : List UInt8) (ps : List (ℕ × List UInt8)) : Prop :=
  ∃ parameters, (processInputData .init (before ++ line ps ++ [cr])).commands =
      (processInputData .init before).commands ++ [⟨true, parameters⟩] ∧
    parameters.map (·.stringValue) = ps.map Prod.snd

/-- Strings in quotes are split into what they are exactly if none has a backslash or a quote in it: a line that is
    one byte shorter after an escape does not end where it ends. -/
theorem survive_iff (hlen : ps.length ≤ maximumNumberOfParameters) (hf : ∀ p ∈ ps, nul ∉ p.2 ∧ cr ∉ p.2)
    (hfit : (line ps).length ≤ maximumCommandStringLength) (hb : before = [] ∨ before.getLast? = some cr) :
    Survive before ps ↔ ∀ p ∈ ps, backslash ∉ p.2 ∧ quote ∉ p.2 := by
  have hempty := input_of_before hb
  obtain ⟨b, hrun, hl, hreads, hsame⟩ := inputChars (s := processInputData .init before) (t := line ps)
    (cr_not_mem_line fun p hp => (hf p hp).2) (by rw [hempty]; simpa [Qat.Input.empty] using hfit)
  rw [hempty] at hl hreads hsame
  simp only [Qat.Input.empty, Nat.zero_add] at hl hreads hsame
  have hcommands : (processInputData .init (before ++ line ps ++ [cr])).commands =
      (processInputData .init before).commands ++ [processCommand b] := by
    rw [processInputData, List.foldl_append, List.foldl_append]
    rw [processInputData] at hrun
    rw [hrun]
    simp [inputChar, processInputData]
  rw [← escapes_eq_zero_iff, ← processCommand_iff hlen (fun p hp => (hf p hp).1) hfit
    (Reads.append_iff.mpr ⟨hreads, hsame _ (.inr (by omega)), trivial⟩) hl, Survive, hcommands]
  constructor
  · rintro ⟨parameters, h, hstrings⟩
    have hsplit : processCommand b = ⟨true, parameters⟩ := by simpa using h
    rw [hsplit]
    exact ⟨rfl, hstrings⟩
  · rintro ⟨hresult, hstrings⟩
    refine ⟨(processCommand b).parameters, ?_, hstrings⟩
    rw [← hresult]

/-- `"ab" "c d"` -/
theorem survive_two :
    Survive [] [(0, [0x61, 0x62]), (1, [0x63, 0x20, 0x64])] ↔
      ∀ p ∈ [((0 : ℕ), ([0x61, 0x62] : List UInt8)), (1, [0x63, 0x20, 0x64])], backslash ∉ p.2 ∧ quote ∉ p.2 :=
  survive_iff (by decide) (by decide) (by decide) (.inl rfl)

/-- `"a\"b"` leaves a quote behind the line, which opens a string that does not end. -/
theorem escape_not_terminated :
    ¬ ∀ (before : List UInt8) (ps : List (ℕ × List UInt8)), ps.length ≤ maximumNumberOfParameters →
      (∀ p ∈ ps, p.2 ≠ [] ∧ nul ∉ p.2 ∧ cr ∉ p.2) → (line ps).length ≤ maximumCommandStringLength →
      (before = [] ∨ before.getLast? = some cr) → Survive before ps := by
  intro h
  obtain ⟨parameters, hcommands, -⟩ :=
    h [] [(0, [0x61, quote, 0x62])] (by decide) (by decide) (by decide) (.inl rfl)
  have hresults := congrArg (List.map Split.result) hcommands
  have hfalse : (processInputData .init ([] ++ line [(0, [0x61, quote, 0x62])] ++ [cr])).commands.map Split.result =
      [false] := by decide +kernel
  rw [hfalse] at hresults
  simp [processInputData, ConsoleInput.init] at hresults

end Qcc730.Console
