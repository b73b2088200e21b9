import Qcc730.Qat.Position
import Qcc730.Qat.Reader

/-! Whether sub-commands of one line do what they do on lines of their own.

    A line goes on at a semicolon. Each form of a sub-command leaves the index at another place in front of it or
    behind it, and the bytes that are overwritten are those that have been read. Two things go wrong. The escape
    `\xhh` moves a byte too far, which leaves a zero byte at the end of the line for a later sub-command to read. And
    a name at the end of a line leaves a semicolon behind the line, which a later line of the same length reads as
    part of its last parameter. -/

namespace Qcc730.Qat

open Lib

/-! ### Sub-commands -/

/-- The text of some parameters, without a semicolon in it, and what it stands for. -/
structure ParamText where
  text : List UInt8
  strings : List (List UInt8)
  /-- the last parameter ends with the text, and not with a quote, a comma or a brace -/
  bare : Bool
  ne : text ≠ []
  operator : text.head? ≠ some question
  printable : ∀ c ∈ text, 0x20 ≤ c ∧ c ≤ 0x7E
  single : semicolon ∉ text
  reads : readParams true (text.length + 1) false text = some (strings, bare)
  count : strings.length ≤ maximumNumberOfParameters

/-- What stands behind the name of a sub-command. -/
inductive Form where
  | exec
  | query
  | help
  | params (t : ParamText)

def Form.text : Form → List UInt8
  | exec => []
  | query => [question]
  | help => [equals, question]
  | params t => equals :: t.text

def Form.op : Form → OpType
  | exec => .exec
  | query => .query
  | help => .help
  | params _ => .execWParam

def Form.parameters : Form → List Parameter
  | params t => t.strings.map parameter
  | _ => []

def Form.bare : Form → Bool
  | params t => t.bare
  | _ => false

def Form.isExec : Form → Bool
  | exec => true
  | _ => false

/-- There is no `\xhh` in the parameters. -/
def Form.Plain : Form → Prop
  | params t => readParams false (t.text.length + 1) false t.text = some (t.strings, t.bare)
  | _ => True

/-- A well-formed sub-command. -/
structure SubCommand where
  name : List UInt8
  form : Form
  ne : name ≠ []
  chars : ∀ c ∈ name, isNameChar c = true

/-- As it stands in a line. -/
def SubCommand.text (c : SubCommand) : List UInt8 := plus :: c.name ++ c.form.text

/-- Its command. -/
def SubCommand.command (groups : List (List Command)) (c : SubCommand) : Option Command :=
  findCommandByString groups (plus :: c.name)

/-- The call it makes, if there is such a command and it supports the operation. -/
def SubCommand.calls (groups : List (List Command)) (c : SubCommand) : List Event :=
  match c.command groups with
  | none => []
  | some command =>
    if command.commandFlags.testBit c.form.op.bit then [.call command c.form.op c.form.parameters] else []

/-- It does not fail: there is such a command, and the call returns success if there is one. -/
def SubCommand.succeeds (groups : List (List Command)) (c : SubCommand) (status : Bool) : Bool :=
  match c.command groups with
  | none => false
  | some command => if command.commandFlags.testBit c.form.op.bit then status else true

def Event.isCall : Event → Bool
  | call _ _ _ => true
  | _ => false

/-- The calls among what a line causes. -/
def calls (events : List Event) : List Event := events.filter Event.isCall

/-! ### Lines -/

/-- A sub-command, and what its command function returns if it is called. -/
abbrev Step := SubCommand × Bool

/-- What stands behind a sub-command of a line. -/
def behindText : List Step → List UInt8
  | [] => []
  | x :: cs => semicolon :: (x.1.text ++ behindText cs)

/-- The sub-commands, with semicolons between them. -/
def chainText : List Step → List UInt8
  | [] => []
  | x :: cs => x.1.text ++ behindText cs

/-- `AT`, some blanks and a text. -/
def atChars (n : ℕ) (text : List UInt8) : List UInt8 := 0x41 :: 0x54 :: (List.replicate n space ++ text)

/-- The sub-commands up to the first that does not succeed, with it. -/
def reached (groups : List (List Command)) : List Step → List Step
  | [] => []
  | x :: cs => x :: if x.1.succeeds groups x.2 then reached groups cs else []

/-- What some lines cause, one after another. -/
def linesEvents (groups : List (List Command)) (b : Input) : List Line → List Event
  | [] => []
  | l :: ls => (processLine groups b l).2 ++ linesEvents groups (processLine groups b l).1 ls

variable {groups : List (List Command)} {b b' : Input} {c : SubCommand} {i j n k fuel : ℕ} {tail t u : List UInt8}
  {name : List UInt8} {status : Bool}

/-! ### The name -/

theorem name_cString (h : Ahead b i (plus :: name ++ t)) (hname : ∀ c ∈ name, isNameChar c = true) :
    (b.set (i + 1 + name.length) nul).cString i = plus :: name := by
  have hreads : Reads b.string i (plus :: name) := (Reads.append_iff.mp h.reads).1
  have hl := h.length
  have hf := h.fits
  simp only [List.length_append, List.length_cons] at hl
  refine cString_of_reads (Reads.append_iff.mpr ⟨hreads.update (.inr ?_), ?_, trivial⟩) ?_ ?_
  · rw [List.length_cons]
    omega
  · have hat : i + (plus :: name).length = i + 1 + name.length := by
      rw [List.length_cons]
      omega
    rw [hat]
    exact Function.update_self _ _ _
  · simp only [List.mem_cons, not_or]
    exact ⟨by decide, fun h0 => absurd (hname _ h0) (by decide)⟩
  · rw [List.length_cons]
    omega

/-- The loop over the name, up to the first character behind it. -/
theorem nameScan_chars (h : Ahead b i (plus :: name ++ t)) (hne : name ≠ [])
    (hname : ∀ c ∈ name, isNameChar c = true) :
    Ahead b (i + 1 + name.length) t ∧ ∃ fuel, t.length ≤ fuel ∧ nameScan b i =
      scanName fuel ⟨b, i + 1 + name.length, i, i + 1 + name.length, true, false, false, false, true⟩ := by
  have hnext : Ahead b (i + 1) (name ++ t) := h.next
  have hl := hnext.length
  rw [List.length_append] at hl
  obtain ⟨fuel, hfuel⟩ : ∃ fuel, b.length = fuel + name.length := ⟨b.length - name.length, by omega⟩
  refine ⟨hnext.drop, fuel, by omega, ?_⟩
  rw [nameScan, hfuel, scanName_chars (s := ⟨b, i + 1, i, i + 1, false, false, false, false, true⟩) hnext hname]
  have hempty : name.isEmpty = false := by simpa using hne
  simp [hempty]

theorem nameScan_exec (h : Ahead b i (plus :: name ++ tail)) (htail : Ends tail) (hne : name ≠ [])
    (hname : ∀ c ∈ name, isNameChar c = true) :
    nameScan b i = ⟨b, i + 1 + name.length, i, i + 1 + name.length, true, false, false, false, true⟩ := by
  obtain ⟨hat, fuel, -, hscan⟩ := nameScan_chars h hne hname
  rw [hscan]
  cases fuel with
  | zero => rfl
  | succ fuel =>
    rw [scanName, if_neg]
    rintro ⟨hlt, hsemi⟩
    rcases htail with rfl | ⟨u, rfl⟩
    · have hl := hat.length
      rw [List.length_nil] at hl
      simp only at hlt
      omega
    · exact hsemi hat.reads.head

theorem nameScan_query (h : Ahead b i (plus :: name ++ question :: tail)) (htail : Ends tail) (hne : name ≠ [])
    (hname : ∀ c ∈ name, isNameChar c = true)
    (hbehind : tail = [] → b.string b.length = nul ∨ b.string b.length = semicolon ∨ b.string b.length = cr) :
    nameScan b i = ⟨b.set (i + 1 + name.length) nul, i + 1 + name.length + 1, i, i + 1 + name.length, false, false,
      true, false, true⟩ := by
  obtain ⟨hat, fuel, hfuel, hscan⟩ := nameScan_chars h hne hname
  obtain ⟨fuel, rfl⟩ : ∃ m, fuel = m + 1 := ⟨fuel - 1, by rw [List.length_cons] at hfuel; omega⟩
  have hi : b.string (i + 1 + name.length) = question := hat.reads.head
  have hskip : b.skipSpaces (i + 1 + name.length) = i + 1 + name.length :=
    skipSpaces_of_reads (n := 0) ⟨hi, trivial⟩ (by decide) (Nat.succ_pos _)
  have hnext : b.string (i + 1 + name.length + 1) = nul ∨ b.string (i + 1 + name.length + 1) = semicolon ∨
      b.string (i + 1 + name.length + 1) = cr := by
    rcases htail with rfl | ⟨u, rfl⟩
    · have hl := hat.next.length
      rw [List.length_nil] at hl
      rw [← Nat.add_zero (i + 1 + name.length + 1), ← hl]
      exact hbehind rfl
    · exact .inr (.inl hat.next.reads.head)
  rw [hscan, scanName, if_pos ⟨hat.lt, by simp only [hi]; decide⟩]
  simp only [hskip, hi]
  rw [if_neg (by decide), if_pos trivial]
  simp only [NameScan.atQuestion]
  rw [if_neg]
  rintro ⟨hsemi, hcr, hnul⟩
  exact hnext.elim hnul fun h0 => h0.elim hsemi hcr

/-- Any other byte behind a question mark is an error. -/
theorem nameScan_query_bad (h : Ahead b i (plus :: name ++ [question])) (hne : name ≠ [])
    (hname : ∀ c ∈ name, isNameChar c = true)
    (hbehind : b.string b.length ≠ nul ∧ b.string b.length ≠ semicolon ∧ b.string b.length ≠ cr) :
    (nameScan b i).result = false := by
  obtain ⟨hat, fuel, hfuel, hscan⟩ := nameScan_chars h hne hname
  obtain ⟨fuel, rfl⟩ : ∃ m, fuel = m + 1 := ⟨fuel - 1, by rw [List.length_singleton] at hfuel; omega⟩
  have hi : b.string (i + 1 + name.length) = question := hat.reads.head
  have hskip : b.skipSpaces (i + 1 + name.length) = i + 1 + name.length :=
    skipSpaces_of_reads (n := 0) ⟨hi, trivial⟩ (by decide) (Nat.succ_pos _)
  have hend : i + 1 + name.length + 1 = b.length := hat.length.symm
  rw [hscan, scanName, if_pos ⟨hat.lt, by simp only [hi]; decide⟩]
  simp only [hskip, hi]
  rw [if_neg (by decide), if_pos trivial]
  simp only [NameScan.atQuestion]
  rw [hend, if_pos ⟨hbehind.2.1, hbehind.2.2, hbehind.1⟩]

theorem nameScan_help (h : Ahead b i (plus :: name ++ equals :: question :: t))
    (hname : ∀ c ∈ name, isNameChar c = true) :
    nameScan b i = ⟨b.set (i + 1 + name.length) nul, i + 1 + name.length + 2, i, i + 1 + name.length, false, true, true,
      false, true⟩ := by
  have hnext : Ahead b (i + 1) (name ++ equals :: question :: t) := h.next
  have hdrop := hnext.drop
  have hat : (b.set (i + 1 + name.length) nul).string (i + 1 + name.length + 1) = question :=
    (hdrop.next.set (Nat.lt_succ_self _)).reads.head
  have hl := hnext.length
  rw [List.length_append] at hl
  rw [nameScan, scanName_equals (s := ⟨b, i + 1, i, i + 1, false, false, false, false, true⟩) hnext hname
    (by simp only [List.length_cons] at hl; omega)]
  have hlt : i + 1 + name.length + 1 < (b.set (i + 1 + name.length) nul).length := hdrop.next.lt
  simp only [NameScan.atEquals]
  rw [if_pos hlt, if_pos hat]

theorem nameScan_params {d : UInt8} (h : Ahead b i (plus :: name ++ equals :: d :: t))
    (hname : ∀ c ∈ name, isNameChar c = true) (hd : d ≠ question) :
    nameScan b i = ⟨b.set (i + 1 + name.length) nul, i + 1 + name.length + 1, i, i + 1 + name.length, false, true,
      false, true, true⟩ := by
  have hnext : Ahead b (i + 1) (name ++ equals :: d :: t) := h.next
  have hdrop := hnext.drop
  have hat : (b.set (i + 1 + name.length) nul).string (i + 1 + name.length + 1) = d :=
    (hdrop.next.set (Nat.lt_succ_self _)).reads.head
  have hl := hnext.length
  rw [List.length_append] at hl
  rw [nameScan, scanName_equals (s := ⟨b, i + 1, i, i + 1, false, false, false, false, true⟩) hnext hname
    (by simp only [List.length_cons] at hl; omega)]
  have hlt : i + 1 + name.length + 1 < (b.set (i + 1 + name.length) nul).length := hdrop.next.lt
  simp only [NameScan.atEquals]
  rw [if_pos hlt, if_neg (by rw [hat]; exact hd)]

/-! ### A sub-command -/

/-- The line goes on in front of the semicolon or behind it, and nothing is stored behind the line but the semicolon
    of a name. -/
structure Onward (b : Input) (c : SubCommand) (tail : List UInt8) (e : Extend) : Prop where
  rest : ∃ u, Ahead e.input e.index u ∧ (tail = u ∨ tail = semicolon :: u)
  length : e.input.length ≤ b.length
  behind : ∀ j, e.input.length ≤ j → e.input.string j =
    if j < b.length then nul
    else if c.form.isExec = true ∧ tail = [] ∧ j = b.length then semicolon
    else b.string j

/-- What `Process_AT_Extend_Command` does to a sub-command with `tail` behind it. -/
structure Handed (groups : List (List Command)) (b : Input) (c : SubCommand) (status : Bool) (tail : List UInt8)
    (e : Extend) : Prop where
  calls : Qat.calls e.events = c.calls groups
  result : e.result = c.succeeds groups status
  onward : e.result = true → Onward b c tail e

/-- There is no such command. -/
theorem Handed.unknown {e : Extend} (hc : c.command groups = none) (hevents : e.events = [.error])
    (hresult : e.result = false) : Handed groups b c status tail e := by
  refine ⟨?_, ?_, fun h => ?_⟩
  · rw [hevents, SubCommand.calls, hc]
    rfl
  · rw [hresult, SubCommand.succeeds, hc]
  · rw [hresult] at h
    cases h

/-- The command function is called with what has been read. -/
theorem Handed.execute {command : Command} {ps : List (ℕ × Option ℤ)} (hc : c.command groups = some command)
    (hps : ps.map (fun p => (⟨b'.cString p.1, p.2⟩ : Parameter)) = c.form.parameters)
    (honward : ∀ events, Onward b c tail ⟨b', j, true, events⟩) :
    Handed groups b c status tail (execute command (some c.form.op) b' j ps status) := by
  have hon : ∀ result events, Onward b c tail ⟨b', j, result, events⟩ := fun _ _ =>
    ⟨(honward []).rest, (honward []).length, (honward []).behind⟩
  by_cases hbit : command.commandFlags.testBit c.form.op.bit = true
  · refine ⟨?_, ?_, fun _ => ?_⟩
    · simp only [Qat.execute, SubCommand.calls, hc, hbit, if_true, hps]
      rfl
    · simp only [Qat.execute, SubCommand.succeeds, hc, hbit, if_true]
    · simp only [Qat.execute, hbit, if_true]
      exact hon _ _
  · refine ⟨?_, ?_, fun _ => ?_⟩
    · simp only [Qat.execute, SubCommand.calls, hc, hbit, Bool.false_eq_true, if_false]
      rfl
    · simp only [Qat.execute, SubCommand.succeeds, hc, hbit, Bool.false_eq_true, if_false]
    · simp only [Qat.execute, hbit, Bool.false_eq_true, if_false]
      exact hon _ _

/-- A frame is all that there is to know about the bytes behind the line, if no semicolon goes there. -/
theorem Onward.of_frame (hc : c.form.isExec = false) (h : Frame b b' k)
    (hrest : ∃ u, Ahead b' j u ∧ (tail = u ∨ tail = semicolon :: u)) (events : List Event) :
    Onward b c tail ⟨b', j, true, events⟩ := by
  refine ⟨hrest, h.length, fun j hj => ?_⟩
  rw [hc, if_neg (fun hx : false = true ∧ tail = [] ∧ j = b.length => Bool.false_ne_true hx.1)]
  exact h.behind j hj

/-- The command of a name that is cut off where it ends. -/
theorem command_of_scan {rest : List UInt8} {j : ℕ} {e q p : Bool} (h : Ahead b i (plus :: c.name ++ rest))
    (hscan : nameScan b i =
      ⟨b.set (i + 1 + c.name.length) nul, j, i, i + 1 + c.name.length, false, e, q, p, true⟩) :
    (nameScan b i).command groups = c.command groups := by
  rw [hscan, NameScan.command, NameScan.cut, if_neg Bool.false_ne_true, name_cString h c.chars, SubCommand.command]

/-- A name with nothing behind it: the semicolon goes where one is already, or behind the line. -/
theorem handed_exec (hform : c.form = .exec) (h : Ahead b i (c.text ++ tail)) (htail : Ends tail) :
    Handed groups b c status tail (processAtExtendCommand groups b i status) := by
  have htext : c.text ++ tail = plus :: c.name ++ tail := by
    rw [SubCommand.text, hform, Form.text, List.append_nil]
  rw [htext] at h
  have hscan := nameScan_exec h htail c.ne c.chars
  have hcut := name_cString h c.chars
  have hcommand : (nameScan b i).command groups = c.command groups := by
    rw [hscan, NameScan.command, NameScan.cut, if_pos rfl, hcut, SubCommand.command]
  rw [processAtExtendCommand_eq]
  dsimp only
  rw [hcommand, hscan, if_pos rfl]
  cases hc : c.command groups with
  | none => exact .unknown hc rfl rfl
  | some command =>
    have hop : opTypeOf false false false = some c.form.op := by
      rw [hform]
      rfl
    simp only [NameScan.restored, NameScan.cut, if_true, Bool.false_eq_true, if_false, hop]
    refine .execute hc (by rw [hform]; rfl) fun events => ?_
    have hat : Ahead b (i + 1 + c.name.length) tail := (h.next : Ahead b (i + 1) (c.name ++ tail)).drop
    refine ⟨⟨tail, ?_, .inl rfl⟩, le_rfl, fun k hk => ?_⟩
    · rcases htail with rfl | ⟨u, rfl⟩
      · exact ⟨trivial, hat.length, hat.fits⟩
      · exact hat.replace.replace
    · have hk' : b.length ≤ k := hk
      have hl := hat.length
      rw [if_neg (by omega), hform]
      simp only [Input.set_string]
      by_cases hx : k = i + 1 + c.name.length
      · have hnil : tail = [] := List.eq_nil_of_length_eq_zero (by omega)
        have hend : k = b.length := by
          rw [hnil, List.length_nil] at hl
          omega
        rw [if_pos hx, if_pos ⟨rfl, hnil, hend⟩]
      · rw [if_neg hx, if_neg hx, if_neg]
        rintro ⟨-, hnil, hend⟩
        rw [hnil, List.length_nil] at hl
        omega

/-- A question mark, at the end of the line or in front of a semicolon. -/
theorem handed_query (hform : c.form = .query) (h : Ahead b i (c.text ++ tail)) (htail : Ends tail)
    (hbehind : tail = [] → b.string b.length = nul ∨ b.string b.length = semicolon ∨ b.string b.length = cr) :
    Handed groups b c status tail (processAtExtendCommand groups b i status) := by
  have htext : c.text ++ tail = plus :: c.name ++ question :: tail := by
    rw [SubCommand.text, hform, Form.text, List.append_assoc, List.singleton_append]
  rw [htext] at h
  have hscan := nameScan_query h htail c.ne c.chars hbehind
  have hcommand : (nameScan b i).command groups = c.command groups := command_of_scan h hscan
  rw [processAtExtendCommand_eq]
  dsimp only
  rw [hcommand, hscan, if_pos rfl]
  cases hc : c.command groups with
  | none => exact .unknown hc rfl rfl
  | some command =>
    have hop : opTypeOf false true false = some c.form.op := by
      rw [hform]
      rfl
    simp only [NameScan.restored, NameScan.cut, Bool.false_eq_true, if_false, hop]
    have hat : Ahead b (i + 1 + c.name.length) (question :: tail) :=
      (h.next : Ahead b (i + 1) (c.name ++ question :: tail)).drop
    refine .execute hc (by rw [hform]; rfl) fun events => ?_
    exact .of_frame (by rw [hform]; rfl) (Frame.set le_rfl hat.lt)
      ⟨tail, hat.next.set (Nat.lt_succ_self _), .inl rfl⟩ events

theorem handed_help (hform : c.form = .help) (h : Ahead b i (c.text ++ tail)) :
    Handed groups b c status tail (processAtExtendCommand groups b i status) := by
  have htext : c.text ++ tail = plus :: c.name ++ equals :: question :: tail := by
    rw [SubCommand.text, hform, Form.text, List.append_assoc]
    rfl
  rw [htext] at h
  have hscan := nameScan_help h c.chars
  have hcommand : (nameScan b i).command groups = c.command groups := command_of_scan h hscan
  rw [processAtExtendCommand_eq]
  dsimp only
  rw [hcommand, hscan, if_pos rfl]
  cases hc : c.command groups with
  | none => exact .unknown hc rfl rfl
  | some command =>
    have hop : opTypeOf true true false = some c.form.op := by
      rw [hform]
      rfl
    simp only [NameScan.restored, NameScan.cut, Bool.false_eq_true, if_false, hop]
    have hat : Ahead b (i + 1 + c.name.length) (equals :: question :: tail) :=
      (h.next : Ahead b (i + 1) (c.name ++ equals :: question :: tail)).drop
    refine .execute hc (by rw [hform]; rfl) fun events => ?_
    exact .of_frame (by rw [hform]; rfl) (Frame.set le_rfl hat.lt)
      ⟨tail, hat.next.next.set (by omega), .inl rfl⟩ events

/-- The parser comes to the parameters. -/
theorem params_scan {p : ParamText} (hform : c.form = .params p) (h : Ahead b i (c.text ++ tail)) :
    Ahead b i (plus :: c.name ++ equals :: (p.text ++ tail)) ∧
      nameScan b i = ⟨b.set (i + 1 + c.name.length) nul, i + 1 + c.name.length + 1, i, i + 1 + c.name.length, false,
        true, false, true, true⟩ := by
  have htext : c.text ++ tail = plus :: c.name ++ equals :: (p.text ++ tail) := by
    rw [SubCommand.text, hform, Form.text, List.append_assoc]
    rfl
  rw [htext] at h
  obtain ⟨d, t, ht⟩ := List.exists_cons_of_ne_nil p.ne
  have hd : d ≠ question := fun h0 => p.operator (by rw [ht, h0]; rfl)
  exact ⟨h, nameScan_params (d := d) (t := t ++ tail) (by rw [ht] at h; exact h) c.chars hd⟩

/-- Parameters without `\xhh`; one that ends with the line needs the zero byte behind it. -/
theorem handed_params {p : ParamText} (hform : c.form = .params p) (hplain : c.form.Plain)
    (h : Ahead b i (c.text ++ tail)) (htail : Ends tail)
    (hbare : c.form.bare = true → tail = [] → b.string b.length = nul) :
    Handed groups b c status tail (processAtExtendCommand groups b i status) := by
  obtain ⟨h, hscan⟩ := params_scan hform h
  rw [hform] at hplain hbare
  have hcommand : (nameScan b i).command groups = c.command groups := command_of_scan h hscan
  have hat : Ahead b (i + 1 + c.name.length) (equals :: (p.text ++ tail)) :=
    (h.next : Ahead b (i + 1) (c.name ++ equals :: (p.text ++ tail))).drop
  have hset : Frame b (b.set (i + 1 + c.name.length) nul) (i + 1 + c.name.length) := Frame.set le_rfl hat.lt
  have hahead : Ahead (b.set (i + 1 + c.name.length) nul) (i + 1 + c.name.length + 1) (p.text ++ tail) :=
    hat.next.set (Nat.lt_succ_self _)
  have hlong : p.text.length + 1 ≤ (b.set (i + 1 + c.name.length) nul).length := by
    have hl := hahead.length
    rw [List.length_append] at hl
    omega
  have hstart : Mid ⟨b.set (i + 1 + c.name.length) nul, i + 1 + c.name.length + 1, false, [], true, false, false⟩
      (p.text ++ tail) [] := ⟨hahead, rfl, rfl, .nil, rfl, by simp⟩
  have hfin := scanParams_reads hstart rfl htail p.single (fun h0 => absurd (p.printable _ h0).1 (by decide)) hplain
    (by simpa using p.count) (fun hb ht => hset.nul_behind (hbare hb ht)) hlong
  rw [processAtExtendCommand_eq]
  dsimp only
  rw [hcommand, hscan, if_pos rfl]
  cases hc : c.command groups with
  | none => exact .unknown hc rfl rfl
  | some command =>
    have hop : opTypeOf true false true = some c.form.op := by
      rw [hform]
      rfl
    simp only [NameScan.restored, NameScan.cut, NameScan.params, Bool.false_eq_true, if_false, if_true, hop]
    generalize scanParams _ _ = q at hfin ⊢
    rw [hfin.abort, if_neg Bool.false_ne_true, if_neg]
    · refine .execute hc ?_ fun events => ?_
      · rw [hfin.params, hform]
        rfl
      · exact .of_frame (by rw [hform]; rfl) (hset.trans hfin.frame (Nat.le_succ _)) hfin.rest events
    · rintro (hres | hin)
      · rw [hfin.result] at hres
        cases hres
      · rw [hfin.outside] at hin
        cases hin

/-- The byte behind a line, if it does not change what is made of a sub-command at its end. -/
def SubCommand.Deaf (c : SubCommand) (d : UInt8) : Prop :=
  match c.form with
  | .exec => True
  | .query => d = nul ∨ d = semicolon ∨ d = cr
  | .help => True
  | .params t => t.bare = true ∨ ¬ c.form.Plain → d = nul

theorem SubCommand.deaf_nul (c : SubCommand) : c.Deaf nul := by
  rw [SubCommand.Deaf]
  cases c.form with
  | exec => trivial
  | query => exact .inl rfl
  | help => trivial
  | params t => exact fun _ => rfl

/-- A name that is not in the table, whatever stands behind it. -/
theorem handed_unknown (hc : c.command groups = none) (h : Ahead b i (c.text ++ tail)) (htail : Ends tail) :
    Handed groups b c status tail (processAtExtendCommand groups b i status) := by
  cases hform : c.form with
  | exec => exact handed_exec hform h htail
  | help => exact handed_help hform h
  | query =>
    by_cases hbad : tail = [] ∧ b.string b.length ≠ nul ∧ b.string b.length ≠ semicolon ∧ b.string b.length ≠ cr
    · obtain ⟨rfl, hbad⟩ := hbad
      have htext : c.text ++ [] = plus :: c.name ++ [question] := by
        rw [SubCommand.text, hform, Form.text, List.append_nil]
      rw [htext] at h
      have hscan := nameScan_query_bad h c.ne c.chars hbad
      rw [processAtExtendCommand_eq]
      dsimp only
      rw [if_neg (by rw [hscan]; exact Bool.false_ne_true)]
      exact .unknown hc rfl rfl
    · refine handed_query hform h htail fun hnil => ?_
      by_contra hno
      obtain ⟨h₁, h₂⟩ := not_or.mp hno
      exact hbad ⟨hnil, h₁, not_or.mp h₂⟩
  | params p =>
    obtain ⟨h, hscan⟩ := params_scan hform h
    have hcommand : (nameScan b i).command groups = none := (command_of_scan h hscan).trans hc
    rw [processAtExtendCommand_eq]
    dsimp only
    rw [hcommand, hscan, if_pos rfl]
    exact .unknown hc rfl rfl

/-- What the parser does to a sub-command of any form. -/
theorem extend_handed (h : Ahead b i (c.text ++ tail)) (htail : Ends tail)
    (hplain : c.command groups ≠ none → c.form.Plain)
    (hdeaf : c.command groups ≠ none → tail = [] → c.Deaf (b.string b.length)) :
    Handed groups b c status tail (processAtExtendCommand groups b i status) := by
  by_cases hc : c.command groups = none
  · exact handed_unknown hc h htail
  have hplain := hplain hc
  have hdeaf := hdeaf hc
  rw [SubCommand.Deaf] at hdeaf
  cases hform : c.form with
  | exec => exact handed_exec hform h htail
  | query =>
    rw [hform] at hdeaf
    exact handed_query hform h htail hdeaf
  | help => exact handed_help hform h
  | params p =>
    refine handed_params hform hplain h htail fun hbare hnil => ?_
    rw [hform] at hdeaf hbare
    exact hdeaf hnil (.inl hbare)

/-! ### A chain -/

variable {cs : List Step} {x : Step} {statuses : List Bool} {d : UInt8}

theorem calls_append (e e' : List Event) : calls (e ++ e') = calls e ++ calls e' :=
  List.filter_append e e'

theorem behindText_ends (cs : List Step) : Ends (behindText cs) := by
  cases cs with
  | nil => exact .inl rfl
  | cons x cs => exact .inr ⟨_, rfl⟩

theorem SubCommand.text_eq (c : SubCommand) : c.text = plus :: (c.name ++ c.form.text) := rfl

/-- A round of the loop that comes to a sub-command. -/
theorem processCommands_plus (h : Ahead b i (c.text ++ tail)) (statuses : List Bool) :
    processCommands groups (fuel + 1) b i (status :: statuses) =
      (let e := processAtExtendCommand groups b i status
      if e.result then
        let r := processCommands groups fuel e.input e.index statuses
        ⟨r.input, true, e.events ++ r.events⟩
      else ⟨e.input, true, e.events⟩) := by
  have hplus : b.string i = plus := h.reads.head
  rw [processCommands, if_pos h.lt, hplus, if_neg (by decide), if_pos rfl]
  rfl

/-- The loop is at its end where the line is. -/
theorem processCommands_stop (h : Ahead b i []) (fuel : ℕ) (statuses : List Bool) :
    processCommands groups fuel b i statuses = ⟨b, false, []⟩ := by
  have hl := h.length
  cases fuel with
  | zero => rfl
  | succ fuel =>
    rw [processCommands, if_neg]
    rw [hl, List.length_nil]
    omega

/-- A line with the sub-command alone, in a buffer of zero bytes. -/
def SubCommand.alone (c : SubCommand) : Input := ⟨fun i => c.text.getD i nul, c.text.length⟩

/-- The calls that a sub-command makes at the end of a line with a zero byte behind it. -/
def SubCommand.endCalls (groups : List (List Command)) (c : SubCommand) (status : Bool) : List Event :=
  Qat.calls (processCommands groups c.text.length c.alone 0 [status]).events

theorem SubCommand.alone_string (h : Ahead b i c.text) (hk : k < c.text.length) :
    c.alone.string k = b.string (i + k) := by
  rw [h.reads.getElem hk]
  simp [SubCommand.alone, hk]

theorem SubCommand.alone_ahead (h : Ahead b i c.text) : Ahead c.alone 0 c.text := by
  refine ⟨h.reads.move fun k hk => ?_, (Nat.zero_add _).symm, ?_⟩
  · rw [Nat.zero_add, SubCommand.alone_string h hk]
  · have hl := h.length
    have hf := h.fits
    show c.text.length ≤ maximumCommandStringLength
    omega

theorem SubCommand.alone_behind (c : SubCommand) : c.alone.string c.alone.length = nul := by
  simp [SubCommand.alone]

/-- A sub-command at the end of a line that hands over as it should. -/
theorem handed_last (h : Ahead b i c.text) (hf : c.text.length ≤ fuel)
    (hstep : Handed groups b c status [] (processAtExtendCommand groups b i status)) :
    calls (processCommands groups fuel b i [status]).events = c.calls groups := by
  have htext : c.text.length ≠ 0 := by simp [c.text_eq]
  obtain ⟨fuel, rfl⟩ : ∃ k, fuel = k + 1 := ⟨fuel - 1, by omega⟩
  have hall : Ahead b i (c.text ++ []) := by
    rw [List.append_nil]
    exact h
  rw [processCommands_plus hall]
  generalize processAtExtendCommand groups b i status = e at hstep
  simp only
  split
  next hgo =>
    obtain ⟨u, hu, hnil | hnil⟩ := (hstep.onward hgo).rest
    · rw [← hnil] at hu
      rw [processCommands_stop hu, List.append_nil, hstep.calls]
    · cases hnil
  next => exact hstep.calls

/-- A sub-command at the end of a line makes the same calls wherever in the buffer it stands. -/
theorem endCalls_eq (h : Ahead b i c.text) (hf : c.text.length ≤ fuel)
    (hdeaf : c.command groups ≠ none → c.Deaf (b.string b.length)) :
    calls (processCommands groups fuel b i [status]).events = c.endCalls groups status := by
  have halone := SubCommand.alone_ahead h
  by_cases hplain : c.command groups ≠ none → c.form.Plain
  · have hhere : Handed groups b c status [] (processAtExtendCommand groups b i status) :=
      extend_handed (by rw [List.append_nil]; exact h) (.inl rfl) hplain fun hc _ => hdeaf hc
    have hthere : Handed groups c.alone c status [] (processAtExtendCommand groups c.alone 0 status) :=
      extend_handed (by rw [List.append_nil]; exact halone) (.inl rfl) hplain
        fun _ _ => by rw [c.alone_behind]; exact c.deaf_nul
    rw [handed_last h hf hhere, SubCommand.endCalls, handed_last halone le_rfl hthere]
  · -- an escape `\xhh`: the two lines are followed side by side
    obtain ⟨hc, hhex⟩ := Classical.not_imp.mp hplain
    have hnul : b.string b.length = nul := by
      have hd := hdeaf hc
      rw [SubCommand.Deaf] at hd
      cases hform : c.form with
      | params t =>
        rw [hform] at hd hhex
        exact hd (.inr hhex)
      | _ =>
        rw [hform] at hhex
        exact absurd trivial hhex
    have hlength := h.length
    have halike : Alike i 0 (c.text.length + 1) c.alone b := by
      refine ⟨hlength.trans (Nat.add_comm _ _), fun j _ hj => ?_⟩
      rw [Nat.add_comm j i]
      rcases Nat.lt_succ_iff_lt_or_eq.mp hj with hlt | rfl
      · exact (SubCommand.alone_string h hlt).symm
      · rw [← hlength, hnul]
        exact c.alone_behind.symm
    have hsame := processCommands_position groups halike (i := 0)
      (.inl (.inl ⟨Nat.lt_succ_self _, c.alone_behind⟩)) le_rfl (Nat.sub_le c.text.length 0)
      ((Nat.sub_le c.text.length 0).trans hf) [status]
    rw [Nat.zero_add] at hsame
    rw [SubCommand.endCalls, hsame]

/-- The calls of some sub-commands, up to the first that does not succeed. -/
def chainCalls (groups : List (List Command)) : List Step → List Event
  | [] => []
  | [x] => x.1.endCalls groups x.2
  | x :: y :: cs => x.1.calls groups ++ if x.1.succeeds groups x.2 then chainCalls groups (y :: cs) else []

/-- What can be said of the sub-commands of a line that are reached: none in front of another has `\xhh` in it, and the
    last one does not care for the byte behind the line. -/
def Steady (groups : List (List Command)) (d : UInt8) : List Step → Prop
  | [] => True
  | [x] => x.1.command groups ≠ none → x.1.Deaf d
  | x :: y :: cs =>
    (x.1.command groups ≠ none → x.1.form.Plain) ∧ (x.1.succeeds groups x.2 = true → Steady groups d (y :: cs))

theorem Steady.nul (h : Steady groups d cs) : Steady groups nul cs := by
  induction cs with
  | nil => trivial
  | cons x cs ih =>
    cases cs with
    | nil => exact fun _ => x.1.deaf_nul
    | cons y cs => exact ⟨h.1, fun hs => ih (h.2 hs)⟩

/-- The loop over the commands of a line makes the calls of its sub-commands, up to the first that does not succeed. -/
theorem processCommands_chain (h : Ahead b i t) (ht : behindText cs = t ∨ behindText cs = semicolon :: t)
    (hf : t.length ≤ fuel) (hs : Steady groups (b.string b.length) cs) :
    calls (processCommands groups fuel b i (cs.map Prod.snd)).events = chainCalls groups cs := by
  induction cs generalizing b i t fuel with
  | nil =>
    obtain rfl : t = [] := by
      rcases ht with rfl | ht
      · rfl
      · cases ht
    rw [processCommands_stop h]
    rfl
  | cons x cs ih =>
    have key : ∀ {i fuel}, Ahead b i (x.1.text ++ behindText cs) → (x.1.text ++ behindText cs).length ≤ fuel →
        calls (processCommands groups fuel b i ((x :: cs).map Prod.snd)).events = chainCalls groups (x :: cs) := by
      intro i fuel h hf
      cases cs with
      | nil =>
        rw [behindText, List.append_nil] at h hf
        exact endCalls_eq h hf hs
      | cons y cs =>
        have htext : x.1.text.length ≠ 0 := by simp [x.1.text_eq]
        rw [List.length_append] at hf
        obtain ⟨fuel, rfl⟩ : ∃ k, fuel = k + 1 := ⟨fuel - 1, by omega⟩
        have hne : behindText (y :: cs) ≠ [] := List.cons_ne_nil _ _
        have hstep : Handed groups b x.1 x.2 (behindText (y :: cs)) (processAtExtendCommand groups b i x.2) :=
          extend_handed h (behindText_ends _) hs.1 fun _ hnil => absurd hnil hne
        rw [List.map_cons, processCommands_plus h, chainCalls]
        generalize processAtExtendCommand groups b i x.2 = e at hstep
        simp only
        cases hgo : x.1.succeeds groups x.2 with
        | false =>
          rw [hstep.result, hgo, if_neg Bool.false_ne_true, if_neg Bool.false_ne_true, List.append_nil]
          exact hstep.calls
        | true =>
          have hresult : e.result = true := hstep.result.trans hgo
          obtain ⟨⟨u, hu, htail⟩, hlength, hbehind⟩ := hstep.onward hresult
          have hrest : u.length ≤ (behindText (y :: cs)).length := by
            rcases htail with h0 | h0
            · rw [h0]
            · rw [h0, List.length_cons]
              omega
          have hsteady : Steady groups (e.input.string e.input.length) (y :: cs) := by
            have hb := hbehind _ le_rfl
            rw [hb]
            split
            · exact (hs.2 hgo).nul
            next hlt =>
              rw [if_neg (fun hx => hne hx.2.1), le_antisymm hlength (not_lt.mp hlt)]
              exact hs.2 hgo
          have hrun : calls (processCommands groups fuel e.input e.index ((y :: cs).map Prod.snd)).events =
              chainCalls groups (y :: cs) := ih hu htail (by omega) hsteady
          rw [hresult, if_pos rfl, if_pos rfl, calls_append, hstep.calls, hrun]
    rcases ht with rfl | ht
    · -- in front of the semicolon, which takes a round of its own
      obtain ⟨fuel, rfl⟩ : ∃ k, fuel = k + 1 := ⟨fuel - 1, by rw [behindText, List.length_cons] at hf; omega⟩
      have hsemi : b.string i = semicolon := h.reads.head
      rw [behindText, List.length_cons] at hf
      rw [processCommands, if_pos h.lt, if_pos (.inr hsemi)]
      exact key h.next (by omega)
    · obtain rfl := (List.cons.inj ht).2
      exact key h hf

/-! ### What is fed -/

theorem printable_of_isNameChar {d : UInt8} (h : isNameChar d = true) : 0x20 ≤ d ∧ d ≤ 0x7E := by
  simp only [isNameChar, isDigit, isLower, isUpper, Bool.or_eq_true, decide_eq_true_eq, beq_iff_eq,
    UInt8.le_iff_toNat_le] at h ⊢
  rcases h with ((((((((h | h) | h) | rfl) | rfl) | rfl) | rfl) | rfl) | rfl) | rfl
  · exact ⟨le_trans (by decide) h.1, h.2.trans (by decide)⟩
  · exact ⟨le_trans (by decide) h.1, h.2.trans (by decide)⟩
  · exact ⟨le_trans (by decide) h.1, h.2.trans (by decide)⟩
  all_goals decide

theorem SubCommand.printable (c : SubCommand) : ∀ d ∈ c.text, 0x20 ≤ d ∧ d ≤ 0x7E := by
  intro d hd
  rw [c.text_eq] at hd
  rcases List.mem_cons.mp hd with rfl | hd
  · decide
  · rcases List.mem_append.mp hd with hd | hd
    · exact printable_of_isNameChar (c.chars d hd)
    · cases hform : c.form with
      | exec =>
        rw [hform] at hd
        cases hd
      | query =>
        rw [hform] at hd
        obtain rfl := List.mem_singleton.mp hd
        decide
      | help =>
        rw [hform] at hd
        rcases List.mem_cons.mp hd with rfl | hd
        · decide
        · obtain rfl := List.mem_singleton.mp hd
          decide
      | params p =>
        rw [hform] at hd
        rcases List.mem_cons.mp hd with rfl | hd
        · decide
        · exact p.printable d hd

theorem behindText_printable (cs : List Step) : ∀ d ∈ behindText cs, 0x20 ≤ d ∧ d ≤ 0x7E := by
  induction cs with
  | nil => simp [behindText]
  | cons x cs ih =>
    intro d hd
    rcases List.mem_cons.mp hd with rfl | hd
    · decide
    · exact (List.mem_append.mp hd).elim (x.1.printable d) (ih d)

theorem chainText_printable (cs : List Step) : ∀ d ∈ chainText cs, 0x20 ≤ d ∧ d ≤ 0x7E := by
  cases cs with
  | nil => simp [chainText]
  | cons x cs =>
    intro d hd
    exact (List.mem_append.mp hd).elim (x.1.printable d) (behindText_printable cs d)

theorem atChars_printable (h : ∀ d ∈ t, 0x20 ≤ d ∧ d ≤ 0x7E) : ∀ d ∈ atChars n t, 0x20 ≤ d ∧ d ≤ 0x7E := by
  intro d hd
  rcases List.mem_cons.mp hd with rfl | hd
  · decide
  · rcases List.mem_cons.mp hd with rfl | hd
    · decide
    · rcases List.mem_append.mp hd with hd | hd
      · obtain rfl := List.eq_of_mem_replicate hd
        decide
      · exact h d hd

/-- The line `AT` with a text and what the command functions return. -/
def atLine (n : ℕ) (text : List UInt8) (h : ∀ d ∈ text, 0x20 ≤ d ∧ d ≤ 0x7E) (statuses : List Bool) : Line :=
  ⟨atChars n text, statuses, fun hcr => absurd (atChars_printable h cr hcr).1 (by decide)⟩

/-- A line with one sub-command. -/
def line (n : ℕ) (x : Step) : Line := atLine n x.1.text x.1.printable [x.2]

/-- One line with all of them. -/
def chainLine (n : ℕ) (cs : List Step) : Line := atLine n (chainText cs) (chainText_printable cs) (cs.map Prod.snd)

/-- Printable characters go behind the line as far as there is room. -/
theorem foldl_inputChar (hp : ∀ d ∈ t, 0x20 ≤ d ∧ d ≤ 0x7E) (hl : b.length + t.length ≤ maximumCommandStringLength) :
    (t.foldl inputChar b).length = b.length + t.length ∧ Reads (t.foldl inputChar b).string b.length t ∧
      ∀ j, j < b.length ∨ b.length + t.length ≤ j → (t.foldl inputChar b).string j = b.string j := by
  induction t generalizing b with
  | nil => exact ⟨rfl, trivial, fun _ _ => rfl⟩
  | cons d t ih =>
    rw [List.length_cons] at hl
    have hd := hp d List.mem_cons_self
    have hne : d ≠ backspace := by
      rintro rfl
      exact absurd hd.1 (by decide)
    have hstep : inputChar b d = { b.set b.length d with length := b.length + 1 } := by
      rw [inputChar, if_neg hne, if_pos hd, if_pos (by omega)]
    obtain ⟨hlen, hreads, hsame⟩ := ih (b := inputChar b d) (fun e he => hp e (List.mem_cons_of_mem _ he))
      (by rw [hstep]; simp only; omega)
    rw [hstep] at hlen hreads hsame
    simp only [Input.set] at hlen hreads hsame
    rw [List.foldl_cons, hstep]
    refine ⟨?_, ⟨?_, hreads⟩, fun j hj => ?_⟩
    · refine hlen.trans ?_
      rw [List.length_cons]
      omega
    · exact (hsame _ (.inl (Nat.lt_succ_self _))).trans (Function.update_self _ _ _)
    · rw [List.length_cons] at hj
      exact (hsame j (by omega)).trans (Function.update_of_ne (by omega) _ _)

/-- A line that starts with `AT` and a plus sign is processed from the plus sign on. -/
theorem processCommand_at (groups : List (List Command)) (h : Ahead b 0 (atChars n (plus :: t)))
    (statuses : List Bool) :
    Ahead b (2 + n) (plus :: t) ∧
      (processCommand groups b statuses).1 = (processCommands groups b.length b (2 + n) statuses).input ∧
      calls (processCommand groups b statuses).2 =
        calls (processCommands groups b.length b (2 + n) statuses).events := by
  have hA : b.string 0 = 0x41 := h.reads.head
  have hT : b.string 1 = 0x54 := h.next.reads.head
  have hblanks : Ahead b 2 (List.replicate n space ++ plus :: t) := h.next.next
  have hdrop := hblanks.drop
  rw [List.length_replicate] at hdrop
  have hl := hdrop.length
  have hf := hdrop.fits
  rw [List.length_cons] at hl
  have hfirst : b.skipSpaces 0 = 0 :=
    skipSpaces_of_reads (n := 0) ⟨hA, trivial⟩ (by decide) (Nat.succ_pos _)
  have hskip : b.skipSpaces 2 = 2 + n := by
    refine skipSpaces_of_reads (c := plus) ?_ (by decide) (by omega)
    have hr := hblanks.reads
    rw [List.append_cons] at hr
    exact (Reads.append_iff.mp hr).1
  have hcond : b.skipSpaces 0 + 1 < b.length ∧ b.string (b.skipSpaces 0) ||| 0x20 = 0x61 ∧
      b.string (b.skipSpaces 0 + 1) ||| 0x20 = 0x74 := by
    rw [hfirst, hA, hT]
    exact ⟨by omega, by decide, by decide⟩
  refine ⟨hdrop, ?_⟩
  simp only [processCommand]
  rw [if_pos hcond]
  simp only [hfirst, Nat.zero_add, hskip, calls_append]
  refine ⟨trivial, ?_⟩
  split
  · exact List.append_nil _
  · exact List.append_nil _

/-! ### Lines one after another -/

/-- How long the line of a sub-command is. -/
def SubCommand.lineLength (n : ℕ) (c : SubCommand) : ℕ := (atChars n c.text).length

/-- The bytes behind the lines, after the line of a sub-command that came to its end. -/
def SubCommand.leaves (n : ℕ) (c : SubCommand) (g : ℕ → UInt8) : ℕ → UInt8 := fun j =>
  if j < c.lineLength n then nul else if c.form.isExec = true ∧ j = c.lineLength n then semicolon else g j

/-- What can be said of the lines of the sub-commands that are reached, with the bytes `g` in the buffer: none in front
    of another has `\xhh` in it, and none cares for the byte behind it. -/
def Quiet (groups : List (List Command)) (n : ℕ) (g : ℕ → UInt8) : List Step → Prop
  | [] => True
  | [x] => x.1.command groups ≠ none → x.1.Deaf (g (x.1.lineLength n))
  | x :: y :: cs =>
    (x.1.command groups ≠ none → x.1.form.Plain ∧ x.1.Deaf (g (x.1.lineLength n))) ∧
      (x.1.succeeds groups x.2 = true → Quiet groups n (x.1.leaves n g) (y :: cs))

/-- A line that has been fed. -/
theorem fed (hb : b.length = 0) {l : List UInt8} (hp : ∀ d ∈ l, 0x20 ≤ d ∧ d ≤ 0x7E)
    (hl : l.length ≤ maximumCommandStringLength) :
    Ahead (l.foldl inputChar b) 0 l ∧ ∀ j, l.length ≤ j → (l.foldl inputChar b).string j = b.string j := by
  obtain ⟨hlen, hreads, hsame⟩ := foldl_inputChar (b := b) hp (by omega)
  rw [hb] at hlen hreads hsame
  exact ⟨⟨hreads, hlen, by omega⟩, fun j hj => hsame j (.inr (by omega))⟩

/-- A line that starts with `AT` and a plus sign: the loop over its commands starts at the plus sign, and as much is
    zeroed as the line is long by the end. -/
theorem processLine_at (groups : List (List Command)) (hb : b.length = 0) (hp : ∀ d ∈ plus :: t, 0x20 ≤ d ∧ d ≤ 0x7E)
    (hl : (atChars n (plus :: t)).length ≤ maximumCommandStringLength) (statuses : List Bool) :
    ∃ b' : Input, Ahead b' (2 + n) (plus :: t) ∧ b'.length = (atChars n (plus :: t)).length ∧
      (∀ j, (atChars n (plus :: t)).length ≤ j → b'.string j = b.string j) ∧
      (let r := processCommands groups b'.length b' (2 + n) statuses
      (processLine groups b (atLine n (plus :: t) hp statuses)).1 =
          ⟨fun j => if j < r.input.length then nul else r.input.string j, 0⟩ ∧
        calls (processLine groups b (atLine n (plus :: t) hp statuses)).2 = calls r.events) := by
  obtain ⟨hahead, hsame⟩ := fed hb (atChars_printable (n := n) hp) hl
  obtain ⟨hat, hinput, hcalls⟩ := processCommand_at groups hahead statuses
  refine ⟨_, hat, hahead.length.trans (Nat.zero_add _), hsame, ?_, hcalls⟩
  rw [← hinput]
  rfl

/-- The line of a sub-command in front of another makes its call, and leaves a semicolon behind it if it ends with a
    name. -/
theorem line_calls (groups : List (List Command)) (hb : b.length = 0)
    (hl : x.1.lineLength n ≤ maximumCommandStringLength)
    (hq : x.1.command groups ≠ none → x.1.form.Plain ∧ x.1.Deaf (b.string (x.1.lineLength n))) :
    calls (processLine groups b (line n x)).2 = x.1.calls groups ∧
      (x.1.succeeds groups x.2 = true → (processLine groups b (line n x)).1 = ⟨x.1.leaves n b.string, 0⟩) := by
  obtain ⟨b', hat, hlong, hsame, hinput, hcalls⟩ :=
    processLine_at (t := x.1.name ++ x.1.form.text) (n := n) groups hb x.1.printable hl [x.2]
  have hlong : b'.length = x.1.lineLength n := hlong
  have hsame : ∀ j, x.1.lineLength n ≤ j → b'.string j = b.string j := hsame
  have hat' : Ahead b' (2 + n) (x.1.text ++ []) := by
    rw [List.append_nil]
    exact hat
  have hstep : Handed groups b' x.1 x.2 [] (processAtExtendCommand groups b' (2 + n) x.2) := by
    refine extend_handed hat' (.inl rfl) (fun hc => (hq hc).1) fun hc _ => ?_
    rw [hsame _ hlong.ge, hlong]
    exact (hq hc).2
  have hat : Ahead b' (2 + n) x.1.text := hat
  have hlength := hat.length
  have hlast := handed_last hat (show x.1.text.length ≤ b'.length by omega) hstep
  refine ⟨hcalls.trans hlast, fun hs => hinput.trans ?_⟩
  have hgo := hstep.result.trans hs
  obtain ⟨⟨u, hu, hnil | hnil⟩, hle, hbehind⟩ := hstep.onward hgo
  swap
  · cases hnil
  obtain ⟨fuel, hfuel⟩ : ∃ k, b'.length = k + 1 := ⟨b'.length - 1, by have := hat.lt; omega⟩
  rw [← hnil] at hu
  have hleft : (processCommands groups b'.length b' (2 + n) [x.2]).input =
      (processAtExtendCommand groups b' (2 + n) x.2).input := by
    rw [hfuel, processCommands_plus hat']
    simp only [hgo, if_true]
    rw [processCommands_stop hu]
  rw [hleft]
  generalize processAtExtendCommand groups b' (2 + n) x.2 = e at hle hbehind
  rw [hlong] at hle hbehind
  congr 1
  funext j
  rw [SubCommand.leaves]
  by_cases hj : j < e.input.length
  · rw [if_pos hj, if_pos (by omega)]
  rw [if_neg hj, hbehind j (not_lt.mp hj)]
  by_cases hj : j < x.1.lineLength n
  · rw [if_pos hj, if_pos hj]
  rw [if_neg hj, if_neg hj, hsame j (not_lt.mp hj)]
  simp only [true_and]

/-- The line of the last sub-command. -/
theorem line_endCalls (groups : List (List Command)) (hb : b.length = 0)
    (hl : x.1.lineLength n ≤ maximumCommandStringLength)
    (hq : x.1.command groups ≠ none → x.1.Deaf (b.string (x.1.lineLength n))) :
    calls (processLine groups b (line n x)).2 = x.1.endCalls groups x.2 := by
  obtain ⟨b', hat, hlong, hsame, -, hcalls⟩ :=
    processLine_at (t := x.1.name ++ x.1.form.text) (n := n) groups hb x.1.printable hl [x.2]
  have hat : Ahead b' (2 + n) x.1.text := hat
  have hlength := hat.length
  have hend : b'.string b'.length = b.string (x.1.lineLength n) := by
    rw [hsame _ hlong.ge, hlong]
    rfl
  exact hcalls.trans (endCalls_eq hat (by omega) fun hc => by rw [hend]; exact hq hc)

/-- The lines of the sub-commands up to the first that does not succeed make their calls. -/
theorem lines_calls (hb : b.length = 0)
    (hl : ∀ x ∈ reached groups cs, x.1.lineLength n ≤ maximumCommandStringLength)
    (hq : Quiet groups n b.string cs) :
    calls (linesEvents groups b ((reached groups cs).map (line n))) = chainCalls groups cs := by
  induction cs generalizing b with
  | nil => rfl
  | cons x cs ih =>
    have hreached : reached groups (x :: cs) =
        x :: if x.1.succeeds groups x.2 then reached groups cs else [] := rfl
    rw [hreached] at hl ⊢
    have hlx := hl x List.mem_cons_self
    rw [List.map_cons, linesEvents, calls_append]
    cases cs with
    | nil =>
      rw [line_endCalls groups hb hlx hq, reached, ite_self, chainCalls]
      exact List.append_nil _
    | cons y cs =>
      obtain ⟨hcalls, hgo⟩ := line_calls groups hb hlx hq.1
      rw [hcalls, chainCalls]
      cases hs : x.1.succeeds groups x.2 with
      | false =>
        rw [if_neg Bool.false_ne_true, if_neg Bool.false_ne_true]
        rfl
      | true =>
        rw [hs, if_pos rfl] at hl
        rw [if_pos rfl, if_pos rfl, hgo hs, ih rfl (fun z hz => hl z (List.mem_cons_of_mem _ hz)) (hq.2 hs)]

/-! ### One line or several -/

/-- No sub-command that is found and has another behind it has `\xhh` in it, and those that are found do not care for
    the byte behind their line, nor the last one for the one behind the line with all of them. -/
structure Undisturbed (groups : List (List Command)) (n : ℕ) (g : ℕ → UInt8) (cs : List Step) : Prop where
  chain : Steady groups (g (atChars n (chainText cs)).length) cs
  lines : Quiet groups n g cs

theorem text_length_le (hx : x ∈ cs) : x.1.text.length ≤ (behindText cs).length := by
  induction cs with
  | nil => cases hx
  | cons y cs ih =>
    rw [behindText, List.length_cons, List.length_append]
    rcases List.mem_cons.mp hx with rfl | hx
    · omega
    · have := ih hx
      omega

theorem lineLength_le (hx : x ∈ cs) : x.1.lineLength n ≤ (atChars n (chainText cs)).length := by
  cases cs with
  | nil => cases hx
  | cons y cs =>
    have hlen : x.1.text.length ≤ (chainText (y :: cs)).length := by
      rw [chainText, List.length_append]
      rcases List.mem_cons.mp hx with rfl | hx
      · omega
      · have := text_length_le hx
        omega
    simp only [SubCommand.lineLength, atChars, List.length_cons, List.length_append]
    omega

theorem reached_subset (groups : List (List Command)) (cs : List Step) : ∀ x ∈ reached groups cs, x ∈ cs := by
  induction cs with
  | nil => simp [reached]
  | cons y cs ih =>
    intro x hx
    rw [reached] at hx
    rcases List.mem_cons.mp hx with rfl | hx
    · exact List.mem_cons_self
    · split at hx
      · exact List.mem_cons_of_mem _ (ih x hx)
      · cases hx

/-- A line with several sub-commands makes the same calls as their lines one after another, up to the first that does
    not succeed. -/
theorem chain_calls (hb : b.length = 0) (hne : cs ≠ [])
    (hfits : (atChars n (chainText cs)).length ≤ maximumCommandStringLength)
    (hu : 2 ≤ cs.length → Undisturbed groups n b.string cs) :
    calls (processLine groups b (chainLine n cs)).2 =
      calls (linesEvents groups b ((reached groups cs).map (line n))) := by
  obtain ⟨x, cs, rfl⟩ := List.exists_cons_of_ne_nil hne
  cases cs with
  | nil =>
    -- there is one line either way
    have hsame : chainLine n [x] = line n x := by
      simp only [chainLine, line, chainText, behindText, List.append_nil, List.map_cons, List.map_nil]
    rw [hsame, reached, reached, ite_self, List.map_cons, List.map_nil, linesEvents, linesEvents, List.append_nil]
  | cons y cs =>
    obtain ⟨hsteady, hquiet⟩ := hu (by simp)
    rw [lines_calls hb (fun z hz => (lineLength_le (reached_subset groups _ z hz)).trans hfits) hquiet]
    obtain ⟨b', hat, hlong, hsame, -, hcalls⟩ := processLine_at (n := n)
      (t := x.1.name ++ x.1.form.text ++ behindText (y :: cs)) groups hb (chainText_printable (x :: y :: cs)) hfits
      ((x :: y :: cs).map Prod.snd)
    have hlength := hat.length
    refine hcalls.trans (processCommands_chain hat (.inr rfl) (by omega) ?_)
    rw [hsame _ hlong.ge, hlong]
    exact hsteady

/-- `+ABC` -/
def nameStep : Step := (⟨[0x41, 0x42, 0x43], .exec, by decide, by decide +kernel⟩, true)

/-- `+X=1` -/
def bareStep : Step :=
  (⟨[0x58], .params ⟨[0x31], [[0x31]], true, by decide, by decide, by decide +kernel, by decide, by decide, by decide⟩,
    by decide, by decide +kernel⟩, true)

/-- `+X="1"` -/
def quotedStep : Step :=
  (⟨[0x58], .params ⟨[quote, 0x31, quote], [[0x31]], false, by decide, by decide, by decide +kernel, by decide,
    by decide, by decide⟩, by decide, by decide +kernel⟩, true)

/-- `AT +ABC;+X="1"` is `AT +ABC` and then `AT +X="1"`. -/
theorem chain_calls_quoted :
    calls (processLine sampleGroups .empty (chainLine 1 [nameStep, quotedStep])).2 =
      calls (linesEvents sampleGroups .empty ((reached sampleGroups [nameStep, quotedStep]).map (line 1))) :=
  chain_calls rfl (by decide) (by decide) fun _ =>
    have hplain : readParams false 4 false [quote, 0x31, quote] = some ([[0x31]], false) := by decide
    have hdeaf : ∀ d, quotedStep.1.Deaf d := fun _ h => (h.resolve_left (by decide) hplain).elim
    ⟨⟨fun _ => trivial, fun _ _ => hdeaf _⟩, ⟨fun _ => ⟨trivial, trivial⟩, fun _ _ => hdeaf _⟩⟩

/-- `AT +ABC;+X=1` passes `1`, and `AT +X=1` after `AT +ABC` passes `1;`. -/
theorem chain_not_separate :
    ¬ ∀ (groups : List (List Command)) (n : ℕ) (cs : List Step), cs ≠ [] →
      (atChars n (chainText cs)).length ≤ maximumCommandStringLength →
      calls (processLine groups .empty (chainLine n cs)).2 =
        calls (linesEvents groups .empty ((reached groups cs).map (line n))) := by
  intro h
  have hsame := h sampleGroups 1 [nameStep, bareStep] (by decide) (by decide)
  revert hsame
  decide +kernel

end Qcc730.Qat
