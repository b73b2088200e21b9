import Mathlib.Tactic

/-! The AT command parser.

    A line is collected in `Input_String` and parsed where it stands: names and parameters are cut off by zero
    bytes that the parser writes, escapes are removed by moving the rest of the line down, and parameters are
    passed on as pointers into the buffer. The buffer is a function from indices to bytes, so that what is
    left behind the line can be seen. Loops that go through the buffer move their index on in every round and
    get as many rounds as the buffer has bytes. -/

namespace Qcc730.Qat

/-! ### Bytes -/

def nul : UInt8 := 0
def backspace : UInt8 := 8
def cr : UInt8 := 0x0D
def space : UInt8 := 0x20
def quote : UInt8 := 0x22
def plus : UInt8 := 0x2B
def comma : UInt8 := 0x2C
def semicolon : UInt8 := 0x3B
def equals : UInt8 := 0x3D
def question : UInt8 := 0x3F
def backslash : UInt8 := 0x5C
def lowerX : UInt8 := 0x78
def openBrace : UInt8 := 0x7B
def closeBrace : UInt8 := 0x7D

/-- `QAT_MAXIMUM_COMMAND_STRING_LENGTH`; the buffer has one byte more. -/
def maximumCommandStringLength : ℕ := 2048
def maximumNumberOfParameters : ℕ := 32

def isDigit (c : UInt8) : Bool := 0x30 ≤ c ∧ c ≤ 0x39
def isLower (c : UInt8) : Bool := 0x61 ≤ c ∧ c ≤ 0x7A
def isUpper (c : UInt8) : Bool := 0x41 ≤ c ∧ c ≤ 0x5A

/-- A character of a command name: a letter, a digit or one of `!%-./:_`. -/
def isNameChar (c : UInt8) : Bool :=
  isDigit c || isLower c || isUpper c || c == 0x21 || c == 0x25 || c == 0x2D || c == 0x2E || c == 0x2F ||
    c == 0x3A || c == 0x5F

/-- The value of a hexadecimal digit. -/
def hexDigit (c : UInt8) : Option UInt8 :=
  if isDigit c then some (c - 0x30)
  else if 0x61 ≤ c ∧ c ≤ 0x66 then some (c - 0x61 + 10)
  else if 0x41 ≤ c ∧ c ≤ 0x46 then some (c - 0x41 + 10)
  else none

/-- `QCLI_Memcmpi` of two strings of one length is 0. -/
def equalNoCase (a b : List UInt8) : Bool :=
  let upper := fun c : UInt8 => if isLower c then c - 0x20 else c
  a.map upper = b.map upper

/-- The loop of `QCLI_String_To_Integer` over the digits, in 32-bit arithmetic. -/
def digitsToInteger (base : ℕ) : List UInt8 → ℕ → Option ℕ
  | [], number => some number
  | c :: cs, number =>
    match hexDigit (c ||| 0x20) with
    | none => none
    | some v =>
      if v.toNat < base then
        let next := (number * base + v.toNat) % 2 ^ 32
        if number ≤ next then digitsToInteger base cs next else none
      else none

/-- `QCLI_String_To_Integer`; `none` for a string that is no number. -/
def stringToInteger (string : List UInt8) : Option ℤ :=
  let negative := string.head? = some 0x2D
  let string := if negative then string.tail else string
  let hex := string.head? = some 0x30 ∧ (string[1]?.map (· ||| 0x20)) = some lowerX
  match digitsToInteger (if hex then 16 else 10) (if hex then string.drop 2 else string) 0 with
  | none => none
  | some number =>
    if (¬ hex ∨ negative) ∧ 2 ^ 31 ≤ number then none
    else if negative then some (-(number : ℤ))
    else if 2 ^ 31 ≤ number then some ((number : ℤ) - 2 ^ 32)
    else some number

/-! ### Commands -/

/-- `Op_Type`, as far as the parser sets it. -/
inductive OpType where
  | query
  | help
  | exec
  | execWParam
  deriving DecidableEq, Repr

/-- The bit of it in `Command_Flags`. -/
def OpType.bit : OpType → ℕ
  | .query => 0
  | .help => 1
  | .exec => 2
  | .execWParam => 3

/-- `QAT_Command_t`, without the function. -/
structure Command where
  commandString : List UInt8
  commandFlags : ℕ
  deriving DecidableEq, Repr

/-- `QAT_Parameter_t`, as the command function finds it. -/
structure Parameter where
  stringValue : List UInt8
  /-- the integer value, if it is valid -/
  integerValue : Option ℤ
  deriving DecidableEq, Repr

/-- What a line causes: a command function is called, or a result is sent. -/
inductive Event where
  | call (command : Command) (op : OpType) (parameters : List Parameter)
  | error
  | ok
  deriving DecidableEq, Repr

/-- `Find_Command_By_String`. -/
def findCommandByString (groups : List (List Command)) (name : List UInt8) : Option Command :=
  groups.flatten.find? fun c => equalNoCase c.commandString name

/-! ### The buffer -/

/-- `Input_String` and `Input_Length`. -/
structure Input where
  string : ℕ → UInt8
  length : ℕ

/-- A buffer without a line. -/
def Input.empty : Input := ⟨fun _ => nul, 0⟩

/-- The line in the buffer. -/
def Input.text (b : Input) : List UInt8 := (List.range b.length).map b.string

/-- A store to the buffer. -/
def Input.set (b : Input) (i : ℕ) (c : UInt8) : Input := { b with string := Function.update b.string i c }

/-- Where the blanks from `i` on end. -/
def skipSpaces (string : ℕ → UInt8) : ℕ → ℕ → ℕ
  | 0, i => i
  | fuel + 1, i => if string i = space then skipSpaces string fuel (i + 1) else i

def Input.skipSpaces (b : Input) (i : ℕ) : ℕ := Qat.skipSpaces b.string (maximumCommandStringLength + 1) i

/-- The string that starts at `i`. -/
def cString (string : ℕ → UInt8) : ℕ → ℕ → List UInt8
  | 0, _ => []
  | fuel + 1, i => if string i = nul then [] else string i :: cString string fuel (i + 1)

def Input.cString (b : Input) (i : ℕ) : List UInt8 := Qat.cString b.string (maximumCommandStringLength + 1) i

/-- `memsmove`: `count` bytes from `src` on to `dst`. -/
def Input.move (b : Input) (dst src count : ℕ) : Input :=
  { b with string := fun i => if dst ≤ i ∧ i < dst + count then b.string (src + (i - dst)) else b.string i }

/-! ### The name -/

/-- The locals of the first loop of `Process_AT_Extend_Command`. -/
structure NameScan where
  input : Input
  index : ℕ
  /-- `HTC_Context.Command_Name` -/
  start : ℕ
  /-- the local `Command_Name`: where the name ends -/
  stop : ℕ
  isExec : Bool
  /-- `QAT_STR_EQ`, `QAT_STR_QU` and `QAT_STR_AR` of `Command_Flag` -/
  eq : Bool
  qu : Bool
  ar : Bool
  result : Bool

/-- The name has ended with an equals sign at `i`. -/
def NameScan.atEquals (s : NameScan) (i : ℕ) : NameScan :=
  let s := { s with input := s.input.set s.stop nul, isExec := false, eq := true, index := i + 1 }
  if i + 1 < s.input.length then
    if s.input.string (i + 1) = question then { s with index := i + 2, qu := true } else { s with ar := true }
  else { s with result := false }

/-- The name has ended with a question mark at `i`. -/
def NameScan.atQuestion (s : NameScan) (i : ℕ) : NameScan :=
  let next := s.input.string (i + 1)
  if next ≠ semicolon ∧ next ≠ cr ∧ next ≠ nul then { s with index := i + 1, result := false }
  else { s with input := s.input.set s.stop nul, isExec := false, qu := true, index := i + 1 }

/-- The first loop, from behind the plus sign. -/
def scanName : ℕ → NameScan → NameScan
  | 0, s => s
  | fuel + 1, s =>
    if s.index < s.input.length ∧ s.input.string s.index ≠ semicolon then
      let i := s.input.skipSpaces s.index
      let c := s.input.string i
      if c = equals then s.atEquals i
      else if c = question then s.atQuestion i
      else if isNameChar c then scanName fuel { s with isExec := true, stop := s.stop + 1, index := i + 1 }
      else { s with isExec := true, index := i, result := false }
    else s

/-! ### The parameters -/

/-- The locals of the loops over the parameters. -/
structure ParamScan where
  input : Input
  index : ℕ
  insideQuotes : Bool
  /-- the parameters so far: where each starts, and its value as a number -/
  params : List (ℕ × Option ℤ)
  result : Bool
  /-- the jump to `clean_sources` -/
  abort : Bool
  subCommand : Bool

/-- An escape at the index: `\\` and `\"` lose the backslash, `\xhh` becomes one byte. The length goes down by two
    for the latter, although three bytes go away. -/
def ParamScan.escape (s : ParamScan) : ParamScan :=
  let b := s.input
  let i := s.index
  if i + 1 < b.length then
    let c := b.string (i + 1)
    if c = backslash ∨ c = quote then
      let b := (b.move i (i + 1) (b.length - i - 1)).set (b.length - 1) nul
      { s with input := { b with length := b.length - 1 } }
    else if c = lowerX then
      if i + 3 < b.length then
        match hexDigit (b.string (i + 2)), hexDigit (b.string (i + 3)) with
        | some hi, some lo =>
          let b := (b.set i (hi <<< 4 ||| lo)).move (i + 1) (i + 4) (b.length - i - 4)
          let b := b.set (b.length - 3) nul
          { s with input := { b with length := b.length - 2 } }
        | some hi, none => { s with input := b.set i (hi <<< 4), result := false, abort := true }
        | none, _ => { s with input := b.set i nul, result := false, abort := true }
      else { s with result := false }
    else { s with result := false }
  else { s with result := false }

/-- The loop to the end of a parameter. -/
def scanParam : ℕ → ParamScan → ParamScan
  | 0, s => s
  | fuel + 1, s =>
    let c := s.input.string s.index
    if s.result ∧ s.index < s.input.length ∧ c ≠ quote ∧ (s.insideQuotes ∨ c ≠ comma) ∧ c ≠ semicolon ∧
        c ≠ closeBrace then
      let s := if c = backslash then s.escape else s
      if s.abort then s else scanParam fuel { s with index := s.index + 1 }
    else s

/-- A closing quote, and a comma behind it. -/
def ParamScan.closeQuote (s : ParamScan) : ParamScan :=
  if s.input.string s.index = quote then
    let s := { s with
      insideQuotes := !s.insideQuotes
      input := s.input.set s.index nul
      index := s.index + 1 }
    if s.insideQuotes = false ∧ s.index < s.input.length ∧ s.input.string s.index = comma then
      { s with input := s.input.set s.index nul }
    else s
  else s

/-- The parameter that starts at `start` is cut off and converted. -/
def ParamScan.finish (s : ParamScan) (start : ℕ) : ParamScan :=
  let s := s.closeQuote
  let s := { s with subCommand := s.subCommand || s.input.string s.index == semicolon }
  let s := if s.index < s.input.length then
      { s with input := s.input.set s.index nul, index := s.index + 1 } else s
  { s with params := s.params ++ [(start, stringToInteger (s.input.cString start))] }

/-- The loop over the parameters. -/
def scanParams : ℕ → ParamScan → ParamScan
  | 0, s => s
  | fuel + 1, s =>
    let c := s.input.string s.index
    if s.result ∧ s.index < s.input.length ∧ s.params.length ≤ maximumNumberOfParameters ∧ c ≠ semicolon then
      if c = space ∨ c = openBrace ∨ c = comma ∨ c = closeBrace then
        scanParams fuel { s with index := s.index + 1 }
      else
        let s := if c = quote then { s with insideQuotes := true, index := s.index + 1 } else s
        let c := s.input.string s.index
        if s.index < s.input.length ∧ c ≠ semicolon ∧ c ≠ comma then
          let t := scanParam s.input.length s
          if t.abort then t
          else
            let t := t.finish s.index
            if t.subCommand then t else scanParams fuel t
        else scanParams fuel s
    else s

/-! ### A line -/

/-- The command whose flags are set, or none. -/
def opTypeOf (eq qu ar : Bool) : Option OpType :=
  match eq, qu, ar with
  | false, true, false => some .query
  | true, true, false => some .help
  | false, false, false => some .exec
  | true, false, true => some .execWParam
  | _, _, _ => none

/-- What `Process_AT_Extend_Command` leaves. -/
structure Extend where
  input : Input
  index : ℕ
  result : Bool
  events : List Event

/-- The end of `Process_AT_Extend_Command`: the command function is called; `status` is what it returns. -/
def execute (command : Command) (op : Option OpType) (input : Input) (index : ℕ) (params : List (ℕ × Option ℤ))
    (status : Bool) : Extend :=
  match op with
  | none => ⟨input, index, false, [.error]⟩
  | some op =>
    if command.commandFlags.testBit op.bit then
      ⟨input, index, status, [.call command op (params.map fun p => ⟨input.cString p.1, p.2⟩)]⟩
    else ⟨input, index, true, [.error]⟩

/-- `Process_AT_Extend_Command`, called at a plus sign. The name is compared with a zero byte at its end; a name
    without anything behind it then gets a semicolon there. -/
def processAtExtendCommand (groups : List (List Command)) (b : Input) (index : ℕ) (status : Bool) : Extend :=
  let s := scanName b.length ⟨b, index + 1, index, index + 1, false, false, false, false, true⟩
  if s.result then
    let cut := if s.isExec then s.input.set s.stop nul else s.input
    let found := findCommandByString groups (cut.cString s.start)
    let input := if s.isExec then cut.set s.stop semicolon else cut
    match found with
    | none => ⟨input, s.index, false, [.error]⟩
    | some command =>
      if s.ar then
        let t := scanParams input.length ⟨input, s.index, false, [], true, false, false⟩
        if t.abort then ⟨t.input, t.index, false, []⟩
        else if t.result = false ∨ t.insideQuotes then
          ⟨t.input, t.index, false,
            (if t.result = false then [.error] else []) ++ (if t.insideQuotes then [.error] else [])⟩
        else execute command (opTypeOf s.eq s.qu s.ar) t.input t.index t.params status
      else execute command (opTypeOf s.eq s.qu s.ar) input s.index [] status
  else ⟨s.input, s.index, false, [.error]⟩

/-- What the loop of `Process_Command` leaves; `subCommand` says that there was a command. -/
structure Commands where
  input : Input
  subCommand : Bool
  events : List Event

/-- The loop of `Process_Command` over the commands of a line; `status` gives what their functions return. -/
def processCommands (groups : List (List Command)) : ℕ → Input → ℕ → List Bool → Commands
  | 0, b, _, _ => ⟨b, false, []⟩
  | fuel + 1, b, index, status =>
    if index < b.length then
      if b.string index = space ∨ b.string index = semicolon then processCommands groups fuel b (index + 1) status
      else if b.string index = plus then
        let e := processAtExtendCommand groups b index (status.headD true)
        if e.result then
          let r := processCommands groups fuel e.input e.index status.tail
          ⟨r.input, true, e.events ++ r.events⟩
        else ⟨e.input, true, e.events⟩
      else ⟨b, false, [.error]⟩
    else ⟨b, false, []⟩

/-- `Process_Command`. -/
def processCommand (groups : List (List Command)) (b : Input) (status : List Bool) : Input × List Event :=
  let i := b.skipSpaces 0
  if i + 1 < b.length ∧ b.string i ||| 0x20 = 0x61 ∧ b.string (i + 1) ||| 0x20 = 0x74 then
    let j := b.skipSpaces (i + 2)
    let r := processCommands groups b.length b j status
    (r.input, r.events ++ if r.subCommand then [] else [.ok])
  else
    let c := b.string i
    (b, if b.length ≠ 0 ∧ c ≠ space ∧ c ≠ nul ∧ c ≠ equals ∧ c ≠ question ∧ c ≠ cr then [.error] else [])

/-- A character of `QAT_Process_Input_Data` that does not end the line. -/
def inputChar (b : Input) (c : UInt8) : Input :=
  if c = backspace then
    if b.length ≠ 0 then { b.set (b.length - 1) nul with length := b.length - 1 } else b
  else if 0x20 ≤ c ∧ c ≤ 0x7E then
    if b.length < maximumCommandStringLength then { b.set b.length c with length := b.length + 1 } else b
  else b

/-- The end of the line: it is processed, and as much of the buffer is zeroed as it is long by then. -/
def endOfLine (groups : List (List Command)) (b : Input) (status : List Bool) : Input × List Event :=
  let r := processCommand groups b status
  (⟨fun i => if i < r.1.length then nul else r.1.string i, 0⟩, r.2)

end Qcc730.Qat
