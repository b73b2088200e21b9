import Mathlib.Tactic
import Qcc730.Qat.Parser

/-! Whether the lines of an AT session influence each other.

    The parser takes the byte behind the line for a terminator, and clears as much of the buffer as the line is
    long when it is done. Both go together as long as the buffer is zero behind the line all the time. Two
    stores break this: the semicolon that goes back behind a name, when the name is the end of the line, and the
    escape `\xhh`, which takes three bytes out of the line and two off its length. -/

namespace Qcc730.Qat

/-! ### Lines -/

/-- The bytes up to an end-of-line character, and what the command functions return that are called for them. -/
structure Line where
  chars : List UInt8
  status : List Bool
  complete : cr ∉ chars

/-- `QAT_Process_Input_Data` for a line. -/
def processLine (groups : List (List Command)) (b : Input) (l : Line) : Input × List Event :=
  endOfLine groups (l.chars.foldl inputChar b) l.status

/-- The buffer after some lines. -/
def processLines (groups : List (List Command)) (b : Input) (ls : List Line) : Input :=
  ls.foldl (fun b l => (processLine groups b l).1) b

/-- The line as it stands in an empty buffer after all corrections. -/
def Line.text (l : Line) : List UInt8 := (l.chars.foldl inputChar .empty).text

/-- A text that starts with an escape `\xhh`. -/
def hexEscape (t : List UInt8) : Bool :=
  t[0]? == some backslash && t[1]? == some lowerX && (t[2]?.bind hexDigit).isSome && (t[3]?.bind hexDigit).isSome

/-- A text that is a plus sign and a name. -/
def bareName (t : List UInt8) : Bool :=
  t[0]? == some plus && t.tail != [] && t.tail.all isNameChar

/-- A text without `\xhh` that does not end in a plus sign and a name. -/
def Plain (text : List UInt8) : Prop := ∀ t ∈ text.tails, hexEscape t = false ∧ bareName t = false

instance (text : List UInt8) : Decidable (Plain text) := inferInstanceAs (Decidable (∀ t ∈ text.tails, _))

/-! ### The rest of a line -/

/-- The rest of the line from `i` on. -/
def Input.rest (b : Input) (i : ℕ) : List UInt8 := (List.range' i (b.length - i)).map b.string

/-- Nothing is left behind the line. -/
def Input.Clean (b : Input) : Prop := ∀ i, b.length ≤ i → b.string i = nul

variable {b b' : Input} {i j : ℕ} {c : UInt8} {line : List UInt8}

theorem Input.text_eq_rest (b : Input) : b.text = b.rest 0 := by
  simp [Input.text, Input.rest, List.range_eq_range']

theorem Input.rest_cons (hi : i < b.length) : b.rest i = b.string i :: b.rest (i + 1) := by
  obtain ⟨n, hn⟩ : ∃ n, b.length - i = n + 1 := ⟨b.length - i - 1, by omega⟩
  have hn' : b.length - (i + 1) = n := by omega
  simp [Input.rest, hn, hn', List.range'_succ]

theorem Input.rest_nil (hi : b.length ≤ i) : b.rest i = [] := by
  simp [Input.rest, Nat.sub_eq_zero_of_le hi]

theorem Input.rest_congr (hl : b'.length = b.length) (h : ∀ j, i ≤ j → b'.string j = b.string j) :
    b'.rest i = b.rest i := by
  simp only [Input.rest, hl]
  refine List.map_congr_left fun j hj => h j ?_
  simp only [List.mem_range'_1] at hj
  exact hj.1

@[simp] theorem Input.set_length : (b.set i c).length = b.length := rfl

theorem Input.set_string : (b.set i c).string j = if j = i then c else b.string j := by
  simp [Input.set, Function.update_apply]

theorem Input.rest_set (hj : j < i) : (b.set j c).rest i = b.rest i := by
  refine Input.rest_congr rfl fun k hk => ?_
  rw [Input.set_string, if_neg (by omega)]

theorem Input.Clean.set (h : b.Clean) (hi : i < b.length) : (b.set i c).Clean := by
  intro k hk
  rw [Input.set_length] at hk
  rw [Input.set_string, if_neg (by omega)]
  exact h k hk

theorem Input.Clean.lt_of_ne (h : b.Clean) (hi : b.string i ≠ nul) : i < b.length := by
  by_contra hc
  exact hi (h i (by omega))

/-- The parser stands at `i`: nothing is left behind the line, and what is still to be read are the last bytes of
    the line as it came in. -/
structure Tidy (line : List UInt8) (b : Input) (i : ℕ) : Prop where
  clean : b.Clean
  index : i ≤ b.length
  rest : b.rest i <:+ line

theorem Tidy.succ (h : Tidy line b i) (hi : i < b.length) : Tidy line b (i + 1) := by
  refine ⟨h.clean, hi, List.IsSuffix.trans ?_ h.rest⟩
  rw [Input.rest_cons hi]
  exact List.suffix_cons _ _

theorem Tidy.set (h : Tidy line b i) (hj : j < i) : Tidy line (b.set j c) i := by
  refine ⟨h.clean.set (lt_of_lt_of_le hj h.index), h.index, ?_⟩
  rw [Input.rest_set hj]
  exact h.rest

theorem Tidy.skip (h : Tidy line b i) (fuel : ℕ) :
    Tidy line b (Qat.skipSpaces b.string fuel i) ∧ i ≤ Qat.skipSpaces b.string fuel i := by
  induction fuel generalizing i with
  | zero => exact ⟨h, le_rfl⟩
  | succ fuel ih =>
    simp only [Qat.skipSpaces]
    split
    next hc =>
      obtain ⟨ht, hle⟩ := ih (h.succ (h.clean.lt_of_ne (by rw [hc]; decide)))
      exact ⟨ht, by omega⟩
    next => exact ⟨h, le_rfl⟩

theorem Tidy.skipSpaces (h : Tidy line b i) : Tidy line b (b.skipSpaces i) := (h.skip _).1

theorem Tidy.le_skipSpaces (h : Tidy line b i) : i ≤ b.skipSpaces i := (h.skip _).2

/-! ### The name -/

/-- The name is being read: it starts at a plus sign and has not been cut off. Without blanks in it, it is all
    there is up to the index. -/
structure Naming (line : List UInt8) (b : Input) (s : NameScan) : Prop where
  input : s.input = b
  tidy : Tidy line b s.index
  begin : Tidy line b s.start
  sign : b.string s.start = plus
  order : s.start < s.stop
  stop : s.stop ≤ s.index
  exec : s.isExec = true → s.start + 1 < s.stop
  name : s.stop = s.index → ∀ j, s.start < j → j < s.stop → isNameChar (b.string j) = true

/-- How the loop over the name ends. -/
inductive NameEnd (line : List UInt8) (b : Input) (r : NameScan) : Prop where
  | failed (result : r.result = false) (clean : r.input.Clean)
  | whole (naming : Naming line b r) (ends : b.length ≤ r.index ∨ b.string r.index = semicolon)
  | cut (exec : r.isExec = false) (tidy : Tidy line r.input r.index)

variable {s : NameScan}

/-- One more character of the name. -/
theorem Naming.next (h : Naming line b s) (hi : s.index ≤ i) (ht : Tidy line b i)
    (hc : isNameChar (b.string i) = true) :
    Naming line b { s with isExec := true, stop := s.stop + 1, index := i + 1 } := by
  have hlt : i < b.length := ht.clean.lt_of_ne (by rintro h0; rw [h0] at hc; revert hc; decide)
  have ho := h.order
  have hs := h.stop
  refine ⟨h.input, ht.succ hlt, h.begin, h.sign, by simp only; omega, by simp only; omega,
    fun _ => by simp only; omega, fun he j hj hj' => ?_⟩
  simp only at he hj hj'
  -- no blank was skipped, so the new character is the next one
  have hsi : s.stop = i := by omega
  rcases Nat.lt_succ_iff_lt_or_eq.mp hj' with hlt | rfl
  · exact h.name (by omega) j hj hlt
  · rw [hsi]
    exact hc

theorem NameEnd.atEquals (h : Naming line b s) (hi : s.index ≤ i) (ht : Tidy line b i) (hc : b.string i = equals) :
    NameEnd line b (s.atEquals i) := by
  have hlt : i < b.length := ht.clean.lt_of_ne (by rw [hc]; decide)
  have hs : s.stop < i + 1 := by have := h.stop; omega
  have hset : Tidy line (s.input.set s.stop nul) (i + 1) := by rw [h.input]; exact (ht.succ hlt).set hs
  simp only [NameScan.atEquals]
  split
  next hl =>
    split
    · exact .cut rfl (hset.succ hl)
    · exact .cut rfl hset
  next => exact .failed rfl hset.clean

theorem NameEnd.atQuestion (h : Naming line b s) (hi : s.index ≤ i) (ht : Tidy line b i)
    (hc : b.string i = question) : NameEnd line b (s.atQuestion i) := by
  have hlt : i < b.length := ht.clean.lt_of_ne (by rw [hc]; decide)
  have hs : s.stop < i + 1 := by have := h.stop; omega
  simp only [NameScan.atQuestion]
  split
  · exact .failed rfl (by rw [h.input]; exact ht.clean)
  · exact .cut rfl (by rw [h.input]; exact (ht.succ hlt).set hs)

theorem scanName_end (fuel : ℕ) (h : Naming line b s) (hf : b.length ≤ fuel + s.index) :
    NameEnd line b (scanName fuel s) := by
  induction fuel generalizing s with
  | zero =>
    rw [Nat.zero_add] at hf
    exact .whole h (.inl hf)
  | succ fuel ih =>
    have hin := h.input
    have ht := h.tidy.skipSpaces
    have hle := h.tidy.le_skipSpaces
    simp only [scanName, hin]
    split
    next =>
      split
      next hc => exact .atEquals h hle ht hc
      next =>
        split
        next hc => exact .atQuestion h hle ht hc
        next =>
          split
          next hc =>
            have hn := h.next hle ht hc
            rw [hin] at hn
            exact ih hn (by simp only; omega)
          next => exact .failed rfl ht.clean
    next hend =>
      refine .whole h ?_
      by_contra hc
      push Not at hc
      exact hend hc

/-- A name that ends with a plain line has something behind it. -/
theorem Naming.lt_length (h : Naming line b s) (hp : Plain line) (he : s.isExec = true) (hs : s.stop = s.index) :
    s.index < b.length := by
  by_contra hl
  have hx := h.exec he
  have hb := h.begin.index
  have hi := h.tidy.index
  have hlt : s.start < b.length := by omega
  have hrest := Input.rest_cons hlt
  have hbare : bareName (b.rest s.start) = true := by
    rw [hrest, h.sign]
    have hne : b.rest (s.start + 1) ≠ [] := by
      rw [Input.rest_cons (by omega)]
      exact List.cons_ne_nil _ _
    have hall : (b.rest (s.start + 1)).all isNameChar = true := by
      simp only [Input.rest, List.all_map, List.all_eq_true, List.mem_range'_1]
      intro j hj
      exact h.name hs j (by omega) (by omega)
    simp [bareName, hne, hall]
  have hf := (hp _ ((List.mem_tails _ _).mpr h.begin.rest)).2
  rw [hbare] at hf
  cases hf

/-- The semicolon behind the name changes nothing that is still to be read. -/
theorem Naming.putBack (h : Naming line b s) (hp : Plain line) (he : s.isExec = true)
    (hend : b.length ≤ s.index ∨ b.string s.index = semicolon) :
    Tidy line ((b.set s.stop nul).set s.stop semicolon) s.index := by
  rcases Nat.lt_or_eq_of_le h.stop with hlt | heq
  · exact (h.tidy.set hlt).set hlt
  · have hl := h.lt_length hp he heq
    have hsame : (b.set s.stop nul).set s.stop semicolon = b := by
      rcases hend with hle | hsemi
      · omega
      · simp only [Input.set, Function.update_idem]
        rw [heq, ← hsemi, Function.update_eq_self]
    rw [hsame]
    exact h.tidy

/-! ### The parameters -/

variable {p : ParamScan}

/-- The parser is in a state to go on, unless something was wrong; nothing is left behind the line either way. -/
structure Reading (line : List UInt8) (p : ParamScan) : Prop where
  clean : p.input.Clean
  tidy : p.result = true → Tidy line p.input p.index

/-- An escaped backslash or quote: the line is one byte shorter, and the byte at `i` has been read. -/
theorem Tidy.unescape (h : Tidy line b i) (hi : i + 1 < b.length) :
    Tidy line { (b.move i (i + 1) (b.length - i - 1)).set (b.length - 1) nul with length := b.length - 1 }
      (i + 1) := by
  have hstr : ∀ j, i ≤ j → ((b.move i (i + 1) (b.length - i - 1)).set (b.length - 1) nul).string j =
      b.string (j + 1) := by
    intro j hj
    rw [Input.set_string]
    by_cases he : j = b.length - 1
    · rw [if_pos he, h.clean (j + 1) (by omega)]
    · rw [if_neg he]
      simp only [Input.move]
      split
      next => congr 1; omega
      next hn => rw [h.clean j (by omega), h.clean (j + 1) (by omega)]
  have hrest : Input.rest { (b.move i (i + 1) (b.length - i - 1)).set (b.length - 1) nul with
      length := b.length - 1 } (i + 1) = b.rest (i + 1 + 1) := by
    have hlen : b.length - 1 - (i + 1) = b.length - (i + 1 + 1) := by omega
    simp only [Input.rest, hlen, List.range'_eq_map_range, List.map_map]
    refine List.map_congr_left fun j _ => ?_
    simp only [Function.comp_apply]
    rw [hstr _ (by omega)]
    congr 1
    omega
  refine ⟨fun j hj => ?_, by simp only; omega, ?_⟩
  · simp only at hj ⊢
    rw [hstr j (by omega)]
    exact h.clean _ (by omega)
  · rw [hrest]
    exact ((h.succ (by omega)).succ hi).rest

/-- A plain line has no escape `\xhh`. -/
theorem Tidy.not_hexEscape (h : Tidy line b i) (hp : Plain line) (hi : i + 3 < b.length)
    (hb : b.string i = backslash) (hx : b.string (i + 1) = lowerX) :
    hexDigit (b.string (i + 2)) = none ∨ hexDigit (b.string (i + 3)) = none := by
  have hf := (hp _ ((List.mem_tails _ _).mpr h.rest)).1
  rw [Input.rest_cons (by omega), Input.rest_cons (i := i + 1) (by omega), Input.rest_cons (i := i + 1 + 1) (by omega),
    Input.rest_cons (i := i + 1 + 1 + 1) hi, hb, hx] at hf
  by_contra hc
  push Not at hc
  simp [hexEscape, Option.isSome_iff_ne_none, hc.1, hc.2] at hf

theorem escape_reading (h : Tidy line p.input p.index) (hp : Plain line) (hi : p.index < p.input.length)
    (hb : p.input.string p.index = backslash) (ha : p.abort = false) :
    p.escape.index = p.index ∧ p.escape.input.Clean ∧
      (p.escape.result = true → p.escape.abort = false ∧ Tidy line p.escape.input (p.index + 1)) := by
  simp only [ParamScan.escape]
  split
  next hl =>
    split
    next => exact ⟨rfl, (h.unescape hl).clean, fun _ => ⟨ha, h.unescape hl⟩⟩
    next =>
      split
      next hx =>
        split
        next h3 =>
          rcases h.not_hexEscape hp h3 hb hx with hn | hn
          · rw [hn]
            exact ⟨rfl, h.clean.set hi, fun hf => by cases hf⟩
          · rw [hn]
            cases hexDigit (p.input.string (p.index + 2)) with
            | none => exact ⟨rfl, h.clean.set hi, fun hf => by cases hf⟩
            | some v => exact ⟨rfl, h.clean.set hi, fun hf => by cases hf⟩
        next => exact ⟨rfl, h.clean, fun hf => by cases hf⟩
      next => exact ⟨rfl, h.clean, fun hf => by cases hf⟩
  next => exact ⟨rfl, h.clean, fun hf => by cases hf⟩

theorem scanParam_reading (hp : Plain line) (fuel : ℕ) (h : Reading line p) (ha : p.abort = false) :
    Reading line (scanParam fuel p) := by
  induction fuel generalizing p with
  | zero => exact h
  | succ fuel ih =>
    simp only [scanParam]
    split
    next hc =>
      have ht := h.tidy hc.1
      by_cases hb : p.input.string p.index = backslash
      · obtain ⟨hx, hcl, hr⟩ := escape_reading ht hp hc.2.1 hb ha
        simp only [if_pos hb]
        split
        next hab => exact ⟨hcl, fun hf => absurd (hr hf).1 (by simp [hab])⟩
        next hab => exact ih ⟨hcl, fun hf => by simp only [hx]; exact (hr hf).2⟩ (by simpa using hab)
      · simp only [if_neg hb, ha, Bool.false_eq_true, if_false]
        exact ih ⟨h.clean, fun _ => ht.succ hc.2.1⟩ rfl
    next => exact h

/-- A closing quote and a comma behind it are overwritten; what is behind the index is still to be read. -/
theorem closeQuote_rest (h : Reading line p) :
    p.closeQuote.input.Clean ∧ p.closeQuote.result = p.result ∧
      (p.result = true → p.closeQuote.index ≤ p.closeQuote.input.length ∧
        p.closeQuote.input.rest (p.closeQuote.index + 1) <:+ line) := by
  have hsucc : ∀ {b : Input} {i : ℕ}, Tidy line b i → b.rest (i + 1) <:+ line := by
    intro b i ht
    rcases Nat.lt_or_ge i b.length with hlt | hge
    · exact (ht.succ hlt).rest
    · rw [Input.rest_nil (by omega)]
      exact List.nil_suffix
  simp only [ParamScan.closeQuote]
  split
  next hq =>
    have hlt : p.index < p.input.length := h.clean.lt_of_ne (by rw [hq]; decide)
    have hset := fun hr => ((h.tidy hr).succ hlt).set (c := nul) (Nat.lt_succ_self p.index)
    split
    next hc =>
      refine ⟨(h.clean.set hlt).set hc.2.1, rfl, fun hr => ⟨(hset hr).index, ?_⟩⟩
      simp only
      rw [Input.rest_set (Nat.lt_succ_self _)]
      exact hsucc (hset hr)
    next => exact ⟨h.clean.set hlt, rfl, fun hr => ⟨(hset hr).index, hsucc (hset hr)⟩⟩
  next => exact ⟨h.clean, rfl, fun hr => ⟨(h.tidy hr).index, hsucc (h.tidy hr)⟩⟩

theorem finish_reading (h : Reading line p) (start : ℕ) : Reading line (p.finish start) := by
  obtain ⟨hcl, hres, hrest⟩ := closeQuote_rest h
  simp only [ParamScan.finish]
  split
  next hlt =>
    refine ⟨hcl.set hlt, fun hr => ?_⟩
    obtain ⟨-, hsuf⟩ := hrest (by simpa [hres] using hr)
    refine ⟨hcl.set hlt, hlt, ?_⟩
    simp only
    rw [Input.rest_set (Nat.lt_succ_self _)]
    exact hsuf
  next hge =>
    refine ⟨hcl, fun hr => ?_⟩
    obtain ⟨hle, -⟩ := hrest (by simpa [hres] using hr)
    refine ⟨hcl, hle, ?_⟩
    rw [Input.rest_nil (by simpa using hge)]
    exact List.nil_suffix

@[simp] theorem finish_abort (start : ℕ) : (p.finish start).abort = p.abort := by
  simp only [ParamScan.finish, ParamScan.closeQuote]
  split_ifs <;> rfl

theorem scanParams_reading (hp : Plain line) (fuel : ℕ) (h : Reading line p) (ha : p.abort = false) :
    Reading line (scanParams fuel p) := by
  induction fuel generalizing p with
  | zero => exact h
  | succ fuel ih =>
    simp only [scanParams]
    split
    next hc =>
      have hsucc : Reading line { p with index := p.index + 1 } :=
        ⟨h.clean, fun hr => (h.tidy hr).succ hc.2.1⟩
      split
      next => exact ih hsucc ha
      next =>
        -- a quote at the start is skipped
        obtain ⟨q, hq⟩ : ∃ q, (if p.input.string p.index = quote then
            { p with insideQuotes := true, index := p.index + 1 } else p) = q := ⟨_, rfl⟩
        have hq' : Reading line q ∧ q.abort = false := by
          rw [← hq]
          split
          · exact ⟨⟨hsucc.clean, hsucc.tidy⟩, ha⟩
          · exact ⟨h, ha⟩
        simp only [hq]
        obtain ⟨hq', ha'⟩ := hq'
        split
        next =>
          have ht := scanParam_reading hp q.input.length hq' ha'
          split
          next => exact ht
          next hab =>
            split
            next => exact finish_reading ht _
            next => exact ih (finish_reading ht _) (by simpa using hab)
        next => exact ih hq' ha'
    next => exact h

theorem Tidy.scanParams (h : Tidy line b i) (hp : Plain line) :
    Reading line (scanParams b.length ⟨b, i, false, [], true, false, false⟩) :=
  scanParams_reading hp b.length ⟨h.clean, fun _ => h⟩ rfl

/-! ### A line -/

theorem execute_input (command : Command) (op : Option OpType) (b : Input) (i : ℕ) (ps : List (ℕ × Option ℤ))
    (status : Bool) : (execute command op b i ps status).input = b ∧
      (execute command op b i ps status).index = i := by
  cases op with
  | none => exact ⟨rfl, rfl⟩
  | some op =>
    simp only [execute]
    split <;> exact ⟨rfl, rfl⟩

/-- What `Process_AT_Extend_Command` leaves can be read on, or the line is given up. -/
def Extend.Good (line : List UInt8) (e : Extend) : Prop :=
  e.input.Clean ∧ (e.result = true → Tidy line e.input e.index)

theorem execute_good (h : Tidy line b i) (command : Command) (op : Option OpType) (ps : List (ℕ × Option ℤ))
    (status : Bool) : (execute command op b i ps status).Good line := by
  obtain ⟨hin, hix⟩ := execute_input command op b i ps status
  rw [Extend.Good, hin, hix]
  exact ⟨h.clean, fun _ => h⟩

/-- The buffer when the name has been looked up. -/
theorem NameEnd.tidy {r : NameScan} (h : NameEnd line b r) (hp : Plain line) (hr : r.result = true) :
    Tidy line (if r.isExec = true then ((if r.isExec = true then r.input.set r.stop nul else r.input).set r.stop
      semicolon) else (if r.isExec = true then r.input.set r.stop nul else r.input)) r.index := by
  cases h with
  | failed hf _ => simp [hf] at hr
  | cut he ht => simpa [he] using ht
  | whole hn hend =>
    rw [hn.input]
    by_cases he : r.isExec = true
    · simp only [if_pos he]
      exact hn.putBack hp he hend
    · simp only [if_neg he]
      exact hn.tidy

theorem processAtExtendCommand_good (groups : List (List Command)) (hp : Plain line) (h : Tidy line b i)
    (hi : i < b.length) (hc : b.string i = plus) (status : Bool) :
    (processAtExtendCommand groups b i status).Good line := by
  have hend : NameEnd line b (scanName b.length ⟨b, i + 1, i, i + 1, false, false, false, false, true⟩) := by
    refine scanName_end b.length ⟨rfl, h.succ hi, h, hc, by simp, by simp, by simp, ?_⟩ (by simp only; omega)
    intro _ j hj hj'
    simp only at hj hj'
    omega
  simp only [processAtExtendCommand]
  generalize scanName b.length ⟨b, i + 1, i, i + 1, false, false, false, false, true⟩ = r at hend
  split
  next hr =>
    have ht := hend.tidy hp hr
    generalize (if r.isExec = true then ((if r.isExec = true then r.input.set r.stop nul else r.input).set r.stop
      semicolon) else (if r.isExec = true then r.input.set r.stop nul else r.input)) = input at ht ⊢
    split
    next => exact ⟨ht.clean, fun hf => by cases hf⟩
    next command _ =>
      split
      next =>
        have hps := ht.scanParams hp
        split
        next => exact ⟨hps.clean, fun hf => by cases hf⟩
        next =>
          split
          next => exact ⟨hps.clean, fun hf => by cases hf⟩
          next hok => exact execute_good (hps.tidy (by simpa using (not_or.mp hok).1)) _ _ _ _
      next => exact execute_good ht _ _ _ _
  next hr =>
    refine ⟨?_, fun hf => by cases hf⟩
    cases hend with
    | failed _ hcl => exact hcl
    | cut _ ht => exact ht.clean
    | whole hn _ => rw [hn.input]; exact hn.tidy.clean

theorem processCommands_clean (groups : List (List Command)) (hp : Plain line) (fuel : ℕ) (h : Tidy line b i)
    (status : List Bool) : (processCommands groups fuel b i status).input.Clean := by
  induction fuel generalizing b i status with
  | zero => exact h.clean
  | succ fuel ih =>
    simp only [processCommands]
    split
    next hi =>
      split
      next => exact ih (h.succ hi) status
      next =>
        split
        next hc =>
          have hg := processAtExtendCommand_good groups hp h hi hc (status.headD true)
          split
          next hr => exact ih (hg.2 hr) status.tail
          next => exact hg.1
        next => exact h.clean
    next => exact h.clean

theorem processCommand_clean (groups : List (List Command)) (h : b.Clean) (hp : Plain b.text) (status : List Bool) :
    (processCommand groups b status).1.Clean := by
  have h0 : Tidy b.text b 0 := ⟨h, Nat.zero_le _, by rw [Input.text_eq_rest]⟩
  have hs := h0.skipSpaces
  simp only [processCommand]
  split
  next hc => exact processCommands_clean groups hp _ ((hs.succ (by omega)).succ hc.1).skipSpaces status
  next => exact h

theorem inputChar_clean (h : b.Clean) (c : UInt8) : (inputChar b c).Clean := by
  simp only [inputChar]
  split_ifs with _ hl _ hm
  · intro j hj
    simp only at hj ⊢
    rw [Input.set_string]
    split
    · rfl
    · exact h j (by omega)
  · exact h
  · intro j hj
    simp only at hj ⊢
    rw [Input.set_string, if_neg (by omega)]
    exact h j (by omega)
  · exact h
  · exact h

theorem foldl_inputChar_clean (chars : List UInt8) (h : b.Clean) : (chars.foldl inputChar b).Clean := by
  induction chars generalizing b with
  | nil => exact h
  | cons c cs ih => exact ih (inputChar_clean h c)

theorem endOfLine_empty (groups : List (List Command)) (h : b.Clean) (hp : Plain b.text) (status : List Bool) :
    (endOfLine groups b status).1 = .empty := by
  have hcl := processCommand_clean groups h hp status
  simp only [endOfLine]
  generalize (processCommand groups b status).1 = r at hcl
  have hz : (fun i => if i < r.length then nul else r.string i) = fun _ => nul := by
    funext j
    split
    · rfl
    · exact hcl j (by omega)
  rw [hz]
  rfl

/-- A plain line leaves the empty buffer behind that it has found. -/
theorem processLine_empty (groups : List (List Command)) (l : Line) (hp : Plain l.text) :
    (processLine groups .empty l).1 = .empty :=
  endOfLine_empty groups (foldl_inputChar_clean l.chars fun _ _ => rfl) hp l.status

theorem processLines_empty (groups : List (List Command)) (ls : List Line) (hp : ∀ l ∈ ls, Plain l.text) :
    processLines groups .empty ls = .empty := by
  induction ls with
  | nil => rfl
  | cons l ls ih =>
    rw [processLines, List.foldl_cons, processLine_empty groups l (hp l List.mem_cons_self)]
    exact ih fun l' hl' => hp l' (List.mem_cons_of_mem _ hl')

/-! ### Two histories -/

/-- After any two histories of plain lines a line has the same effect: the same commands are found, with the same
    operations and parameters. The buffer is empty then. -/
theorem lines_independent (groups : List (List Command)) (ls ls' : List Line) (h : ∀ l ∈ ls, Plain l.text)
    (h' : ∀ l ∈ ls', Plain l.text) (next : Line) :
    (processLine groups (processLines groups .empty ls) next).2 =
        (processLine groups (processLines groups .empty ls') next).2 ∧
      processLines groups .empty ls = .empty ∧ processLines groups .empty ls' = .empty := by
  have he := processLines_empty groups ls h
  have he' := processLines_empty groups ls' h'
  exact ⟨by rw [he, he'], he, he'⟩

/-- The commands `+X` with parameters and `+ABC` without. -/
def sampleGroups : List (List Command) := [[⟨[0x2B, 0x58], 8⟩, ⟨[0x2B, 0x41, 0x42, 0x43], 4⟩]]

/-- The line `AT+X=1`. -/
def setLine : Line := ⟨[0x41, 0x54, 0x2B, 0x58, 0x3D, 0x31], [], by decide⟩

/-- The line `AT+ABC`. -/
def execLine : Line := ⟨[0x41, 0x54, 0x2B, 0x41, 0x42, 0x43], [], by decide⟩

/-- The line `AT+X="a\"b";+ABC;`. -/
def quotedLine : Line :=
  ⟨[0x41, 0x54, 0x2B, 0x58, 0x3D, 0x22, 0x61, 0x5C, 0x22, 0x62, 0x22, 0x3B, 0x2B, 0x41, 0x42, 0x43, 0x3B], [],
    by decide⟩

theorem lines_independent_quoted :
    (∀ l ∈ [quotedLine, setLine], Plain l.text) ∧
      (processLine sampleGroups (processLines sampleGroups .empty [quotedLine, setLine]) setLine).2 =
        [.call ⟨[0x2B, 0x58], 8⟩ .execWParam [⟨[0x31], some 1⟩]] := by
  have hp : ∀ l ∈ [quotedLine, setLine], Plain l.text := by decide +kernel
  refine ⟨hp, ?_⟩
  rw [(lines_independent sampleGroups [quotedLine, setLine] [] hp (by simp) setLine).1]
  decide +kernel

/-- A line that is a name leaves a semicolon behind, and the parameter of the next line gets it. -/
theorem lines_dependent :
    (processLine sampleGroups (processLines sampleGroups .empty []) setLine).2 =
        [.call ⟨[0x2B, 0x58], 8⟩ .execWParam [⟨[0x31], some 1⟩]] ∧
      (processLine sampleGroups (processLines sampleGroups .empty [execLine]) setLine).2 =
        [.call ⟨[0x2B, 0x58], 8⟩ .execWParam [⟨[0x31, 0x3B], none⟩]] ∧
      (processLines sampleGroups .empty [execLine]).string 6 = semicolon := by
  decide +kernel

end Qcc730.Qat
