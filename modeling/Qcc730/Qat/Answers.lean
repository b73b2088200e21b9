import Qcc730.Lib.Reach
import Qcc730.Qat.Lines
import Qcc730.Qat.Parameters

/-! How often the parser answers a line it rejects.

    A sub-command that is rejected should be answered with one error, and the line should end there. Four things are
    different: a wrong hexadecimal digit is not answered at all, another wrong escape between quotes is answered
    twice, an operation that a command does not support is answered but does not end the line, and a line that does
    not start with a plus sign is answered with an error and then with `OK`. -/

namespace Qcc730.Qat

open Lib

/-! ### Sub-commands -/

/-- The name of the sub-command at the plus sign. -/
def nameScan (b : Input) (index : ℕ) : NameScan :=
  scanName b.length ⟨b, index + 1, index, index + 1, false, false, false, false, true⟩

/-- The buffer with a zero byte behind the name. -/
def NameScan.cut (s : NameScan) : Input := if s.isExec then s.input.set s.stop nul else s.input

/-- The command with this name. -/
def NameScan.command (groups : List (List Command)) (s : NameScan) : Option Command :=
  findCommandByString groups (s.cut.cString s.start)

/-- The buffer after the search for the command. -/
def NameScan.restored (s : NameScan) : Input := if s.isExec then s.cut.set s.stop semicolon else s.cut

/-- Where the loop over the parameters starts. -/
def NameScan.params (s : NameScan) : ParamScan := ⟨s.restored, s.index, false, [], true, false, false⟩

theorem processAtExtendCommand_eq (groups : List (List Command)) (b : Input) (index : ℕ) (status : Bool) :
    processAtExtendCommand groups b index status =
      (let s := nameScan b index
      if s.result then
        match s.command groups with
        | none => ⟨s.restored, s.index, false, [.error]⟩
        | some command =>
          if s.ar then
            let t := scanParams s.restored.length s.params
            if t.abort then ⟨t.input, t.index, false, []⟩
            else if t.result = false ∨ t.insideQuotes then
              ⟨t.input, t.index, false,
                (if t.result = false then [.error] else []) ++ (if t.insideQuotes then [.error] else [])⟩
            else execute command (opTypeOf s.eq s.qu s.ar) t.input t.index t.params status
          else execute command (opTypeOf s.eq s.qu s.ar) s.restored s.index [] status
      else ⟨s.input, s.index, false, [.error]⟩) := rfl

/-- What the loop of `Process_Command` comes to: a sub-command or another character, in the buffer as it is then. -/
structure Round where
  input : Input
  index : ℕ
  events : List Event

/-- The rounds of the loop of `Process_Command` that do not just skip a character. -/
def rounds (groups : List (List Command)) : ℕ → Input → ℕ → List Bool → List Round
  | 0, _, _, _ => []
  | fuel + 1, b, index, status =>
    if index < b.length then
      if b.string index = space ∨ b.string index = semicolon then rounds groups fuel b (index + 1) status
      else if b.string index = plus then
        let e := processAtExtendCommand groups b index (status.headD true)
        ⟨b, index, e.events⟩ :: if e.result then rounds groups fuel e.input e.index status.tail else []
      else [⟨b, index, [.error]⟩]
    else []

/-- The line starts with `AT`. -/
def StartsWithAt (b : Input) : Prop :=
  b.skipSpaces 0 + 1 < b.length ∧ b.string (b.skipSpaces 0) ||| 0x20 = 0x61 ∧
    b.string (b.skipSpaces 0 + 1) ||| 0x20 = 0x74

/-- The rounds for a line. -/
def lineRounds (groups : List (List Command)) (b : Input) (status : List Bool) : List Round :=
  rounds groups b.length b (b.skipSpaces (b.skipSpaces 0 + 2)) status

/-! ### The context -/

/-- What `Process_AT_Extend_Command` keeps in `HTC_Context` for a sub-command. -/
structure Context where
  commandFlag : ℕ
  commandName : Option ℕ
  defaultParamterFlag : ℕ
  parameterList : List (ℕ × Option ℤ)
  deriving DecidableEq

def Context.cleared : Context := ⟨0, none, 0, []⟩

/-- `QAT_STR_NA`, `QAT_STR_EQ`, `QAT_STR_QU` and `QAT_STR_AR`, as far as they have been set. -/
def NameScan.flags (s : NameScan) : ℕ :=
  0x1 ||| (if s.eq then 0x2 else 0) ||| (if s.qu then 0x4 else 0) ||| (if s.ar then 0x8 else 0)

/-- The context when `Process_AT_Extend_Command` comes to the label `clean_sources`, as it always does. -/
def Context.extend (groups : List (List Command)) (c : Context) (b : Input) (index : ℕ) : Context :=
  let s := nameScan b index
  let c := { c with commandFlag := c.commandFlag ||| s.flags, commandName := some index }
  if s.result ∧ (s.command groups).isSome ∧ s.ar then
    { c with
      defaultParamterFlag := scanDefaults s.restored.length s.params c.defaultParamterFlag
      parameterList := (scanParams s.restored.length s.params).params }
  else c

/-- What is done at `clean_sources`. -/
def Context.cleanSources (c : Context) : Context :=
  { c with commandFlag := 0, commandName := none, defaultParamterFlag := 0, parameterList := [] }

/-- The context after a round. -/
def Context.round (groups : List (List Command)) (c : Context) (r : Round) : Context :=
  if r.input.string r.index = plus then (c.extend groups r.input r.index).cleanSources else c

/-! ### Answers -/

/-- The parser has not called a command function. -/
def Round.Rejected (r : Round) : Prop := ∀ command op params, Event.call command op params ∉ r.events

/-- A rejected sub-command is answered with one error, nothing is parsed or answered behind it, and the context is
    cleared. -/
def AnsweredOnce (groups : List (List Command)) (b : Input) (status : List Bool) : Prop :=
  ∀ front r back, lineRounds groups b status = front ++ r :: back → r.Rejected →
    r.events = [.error] ∧ back = [] ∧ (processCommand groups b status).2 = front.flatMap Round.events ++ [.error] ∧
      (lineRounds groups b status).foldl (Context.round groups) .cleared = .cleared

/-! ### Escapes -/

/-- The states in which the loop to the end of a parameter comes to a backslash. -/
def escapesOfParam : ℕ → ParamScan → List ParamScan
  | 0, _ => []
  | fuel + 1, s =>
    let c := s.input.string s.index
    if s.result ∧ s.index < s.input.length ∧ c ≠ quote ∧ (s.insideQuotes ∨ c ≠ comma) ∧ c ≠ semicolon ∧
        c ≠ closeBrace then
      if c = backslash then
        s :: if s.escape.abort then [] else escapesOfParam fuel { s.escape with index := s.escape.index + 1 }
      else if s.abort then [] else escapesOfParam fuel { s with index := s.index + 1 }
    else []

/-- The states in which the loop over the parameters comes to the first character of one. -/
def starts : ℕ → ParamScan → List ParamScan
  | 0, _ => []
  | fuel + 1, s =>
    let c := s.input.string s.index
    if s.result ∧ s.index < s.input.length ∧ s.params.length ≤ maximumNumberOfParameters ∧ c ≠ semicolon then
      if c = space ∨ c = openBrace ∨ c = comma ∨ c = closeBrace then
        starts fuel { s with index := s.index + 1 }
      else
        let s := if c = quote then { s with insideQuotes := true, index := s.index + 1 } else s
        let c := s.input.string s.index
        if s.index < s.input.length ∧ c ≠ semicolon ∧ c ≠ comma then
          let t := scanParam s.input.length s
          s :: if t.abort then []
            else if (t.finish s.index).subCommand then [] else starts fuel (t.finish s.index)
        else starts fuel s
    else []

/-- The escape at the index is one of `\\`, `\"` and `\xhh`. -/
def ParamScan.GoodEscape (s : ParamScan) : Prop :=
  let c := s.input.string (s.index + 1)
  s.index + 1 < s.input.length ∧ (c = backslash ∨ c = quote ∨ (c = lowerX ∧ s.index + 3 < s.input.length ∧
    (hexDigit (s.input.string (s.index + 2))).isSome = true ∧ (hexDigit (s.input.string (s.index + 3))).isSome = true))

/-- The escape at the index is good, or it is a bad one outside of quotes that is not `\x` with two characters behind
    it. For a backslash at the end of the line, the byte behind the line is taken for a quote if it is one. -/
def ParamScan.Answered (s : ParamScan) : Prop :=
  s.GoodEscape ∨ (¬ (s.index + 3 < s.input.length ∧ s.input.string (s.index + 1) = lowerX) ∧
    (s.insideQuotes = true ↔ s.index + 1 = s.input.length ∧ s.input.string (s.index + 1) = quote))

/-- Every escape in the parameters of the sub-command is good or answered once. -/
def EscapesAnswered (groups : List (List Command)) (b : Input) (index : ℕ) : Prop :=
  let s := nameScan b index
  s.result = true → (s.command groups).isSome = true → s.ar = true →
    ∀ q ∈ starts s.restored.length s.params, ∀ e ∈ escapesOfParam q.input.length q, e.Answered

/-- The buffer behind the parameters of the sub-command, or behind its name if it has none. -/
def restOf (b : Input) (index : ℕ) : Input :=
  let s := nameScan b index
  if s.ar then (scanParams s.restored.length s.params).input else s.restored

/-- The index there. -/
def restIndex (b : Input) (index : ℕ) : ℕ :=
  let s := nameScan b index
  if s.ar then (scanParams s.restored.length s.params).index else s.index

/-- There is no error in the parameters of the sub-command, if it has any. -/
def ParamsRead (b : Input) (index : ℕ) : Prop :=
  let s := nameScan b index
  s.ar = true →
    let t := scanParams s.restored.length s.params
    t.abort = false ∧ t.result = true ∧ t.insideQuotes = false

/-- The sub-command has been read without an error, and its command does not support the operation. -/
def Unsupported (groups : List (List Command)) (b : Input) (index : ℕ) : Prop :=
  let s := nameScan b index
  s.result = true ∧ ParamsRead b index ∧ ∃ command op, s.command groups = some command ∧
    opTypeOf s.eq s.qu s.ar = some op ∧ command.commandFlags.testBit op.bit = false

/-! ### The loop over a line -/

/-- Where the loop of `Process_Command` stands, and what the command functions are going to return. -/
structure Place where
  input : Input
  index : ℕ
  status : List Bool

namespace Place

/-- A round of the loop, with another one behind it. -/
inductive Step (groups : List (List Command)) : Place → Place → Prop where
  | skip {b : Input} {i : ℕ} {st : List Bool} (hi : i < b.length) (hc : b.string i = space ∨ b.string i = semicolon) :
      Step groups ⟨b, i, st⟩ ⟨b, i + 1, st⟩
  | command {b : Input} {i : ℕ} {st : List Bool} (hi : i < b.length) (hc : b.string i = plus)
      (hr : (processAtExtendCommand groups b i (st.headD true)).result = true) :
      Step groups ⟨b, i, st⟩ ⟨(processAtExtendCommand groups b i (st.headD true)).input,
        (processAtExtendCommand groups b i (st.headD true)).index, st.tail⟩

/-- Where the loop starts. -/
def first (b : Input) (status : List Bool) : Place := ⟨b, b.skipSpaces (b.skipSpaces 0 + 2), status⟩

/-- The loop has come to a sub-command. -/
def AtCommand (p : Place) : Prop := p.index < p.input.length ∧ p.input.string p.index = plus

end Place

/-- Nothing but blanks and semicolons is left of the line. -/
def Input.Blank (b : Input) (i : ℕ) : Prop :=
  ∀ j, i ≤ j → j < b.length → b.string j = space ∨ b.string j = semicolon

/-- Behind blanks and semicolons the line starts with a plus sign, if anything is left of it. Wherever the loop comes
    to a sub-command, all escapes in it are good or answered once, and there are only blanks and semicolons behind it
    if its operation is not supported. -/
structure Answerable (groups : List (List Command)) (b : Input) (status : List Bool) : Prop where
  sign : ∀ j, b.skipSpaces (b.skipSpaces 0 + 2) ≤ j → j < b.length →
    (∀ k, b.skipSpaces (b.skipSpaces 0 + 2) ≤ k → k < j → b.string k = space ∨ b.string k = semicolon) →
    b.string j = space ∨ b.string j = semicolon ∨ b.string j = plus
  escapes : ∀ p, Reach (Place.Step groups) (.first b status) p → p.AtCommand → EscapesAnswered groups p.input p.index
  supported : ∀ p, Reach (Place.Step groups) (.first b status) p → p.AtCommand → Unsupported groups p.input p.index →
    (restOf p.input p.index).Blank (restIndex p.input p.index)

variable {groups : List (List Command)} {b : Input} {i j start fuel : ℕ} {p : ParamScan} {q : Place} {status : Bool}
  {statuses : List Bool}

/-! ### What an escape does -/

theorem escape_good (h : p.GoodEscape) : p.escape.result = p.result ∧ p.escape.abort = p.abort := by
  obtain ⟨hlt, hc⟩ := h
  simp only [ParamScan.escape]
  rw [if_pos hlt]
  rcases hc with hc | hc | ⟨hx, h3, hhi, hlo⟩
  · rw [if_pos (.inl hc)]
    exact ⟨rfl, rfl⟩
  · rw [if_pos (.inr hc)]
    exact ⟨rfl, rfl⟩
  · obtain ⟨hi, hhi⟩ := Option.isSome_iff_exists.mp hhi
    obtain ⟨lo, hlo⟩ := Option.isSome_iff_exists.mp hlo
    rw [hx, if_neg (by decide), if_pos rfl, if_pos h3, hhi, hlo]
    exact ⟨rfl, rfl⟩

/-- Two characters behind `\x` that are not both digits. -/
theorem escape_hex (h : ¬ p.GoodEscape) (h3 : p.index + 3 < p.input.length)
    (hx : p.input.string (p.index + 1) = lowerX) : p.escape.abort = true := by
  simp only [ParamScan.escape]
  rw [if_pos (by omega), hx, if_neg (by decide), if_pos rfl, if_pos h3]
  cases hhi : hexDigit (p.input.string (p.index + 2)) with
  | none => rfl
  | some hi =>
    cases hlo : hexDigit (p.input.string (p.index + 3)) with
    | none => rfl
    | some lo =>
      exact absurd ⟨by omega, .inr (.inr ⟨hx, h3, by rw [hhi]; rfl, by rw [hlo]; rfl⟩)⟩ h

/-- Any other escape that is not good. -/
theorem escape_bad (h : ¬ p.GoodEscape)
    (hx : ¬ (p.index + 3 < p.input.length ∧ p.input.string (p.index + 1) = lowerX)) :
    p.escape = { p with result := false } := by
  simp only [ParamScan.escape]
  split
  next hlt =>
    rw [if_neg (fun hc => h ⟨hlt, hc.elim .inl fun hq => .inr (.inl hq)⟩)]
    split
    next hc => rw [if_neg (fun h3 => hx ⟨h3, hc⟩)]
    next => rfl
  next => rfl

/-! ### The loops come to an end -/

theorem escape_length (p : ParamScan) : p.escape.input.length ≤ p.input.length := by
  simp only [ParamScan.escape]
  split_ifs
  · exact Nat.sub_le _ _
  · split
    next => exact Nat.sub_le _ _
    next => exact le_rfl
    next => exact le_rfl
  · exact le_rfl
  · exact le_rfl
  · exact le_rfl

/-- The index does not go back, and the line does not get longer. -/
theorem scanParam_advances (fuel : ℕ) (p : ParamScan) :
    p.index ≤ (scanParam fuel p).index ∧ (scanParam fuel p).input.length ≤ p.input.length := by
  induction fuel generalizing p with
  | zero => exact ⟨le_rfl, le_rfl⟩
  | succ fuel ih =>
    simp only [scanParam]
    split
    next =>
      obtain ⟨q, hq, hindex, hlength⟩ : ∃ q, (if p.input.string p.index = backslash then p.escape else p) = q ∧
          q.index = p.index ∧ q.input.length ≤ p.input.length := by
        by_cases hb : p.input.string p.index = backslash
        · exact ⟨_, if_pos hb, escape_index p, escape_length p⟩
        · exact ⟨_, if_neg hb, rfl, le_rfl⟩
      rw [hq]
      split
      next => exact ⟨hindex.ge, hlength⟩
      next =>
        obtain ⟨h₁, h₂⟩ := ih { q with index := q.index + 1 }
        exact ⟨hindex.ge.trans ((Nat.le_succ _).trans h₁), h₂.trans hlength⟩
    next => exact ⟨le_rfl, le_rfl⟩

theorem finish_advances (p : ParamScan) (start : ℕ) :
    p.index ≤ (p.finish start).index ∧ (p.finish start).input.length = p.input.length := by
  simp only [ParamScan.finish, ParamScan.closeQuote]
  split_ifs
  all_goals
    refine ⟨?_, rfl⟩
    simp only
    omega

theorem scanParams_advances (fuel : ℕ) (p : ParamScan) :
    p.index ≤ (scanParams fuel p).index ∧ (scanParams fuel p).input.length ≤ p.input.length := by
  induction fuel generalizing p with
  | zero => exact ⟨le_rfl, le_rfl⟩
  | succ fuel ih =>
    simp only [scanParams]
    split
    next =>
      split
      next =>
        obtain ⟨h₁, h₂⟩ := ih { p with index := p.index + 1 }
        exact ⟨(Nat.le_succ _).trans h₁, h₂⟩
      next =>
        obtain ⟨q, hq, hindex, hlength⟩ : ∃ q, (if p.input.string p.index = quote then
            { p with insideQuotes := true, index := p.index + 1 } else p) = q ∧ p.index ≤ q.index ∧
              q.input.length = p.input.length := by
          by_cases hb : p.input.string p.index = quote
          · exact ⟨_, if_pos hb, Nat.le_succ _, rfl⟩
          · exact ⟨_, if_neg hb, le_rfl, rfl⟩
        rw [hq]
        split
        next =>
          obtain ⟨h₁, h₂⟩ := scanParam_advances q.input.length q
          obtain ⟨h₃, h₄⟩ := finish_advances (scanParam q.input.length q) q.index
          obtain ⟨h₅, h₆⟩ := ih ((scanParam q.input.length q).finish q.index)
          split_ifs
          · exact ⟨by omega, by omega⟩
          · exact ⟨by omega, by omega⟩
          · exact ⟨by omega, by omega⟩
        next =>
          obtain ⟨h₁, h₂⟩ := ih q
          exact ⟨by omega, by omega⟩
    next => exact ⟨le_rfl, le_rfl⟩

theorem le_skipSpaces (b : Input) (i : ℕ) : i ≤ b.skipSpaces i := by
  have key : ∀ fuel i, i ≤ skipSpaces b.string fuel i := by
    intro fuel
    induction fuel with
    | zero => exact fun _ => le_rfl
    | succ fuel ih =>
      intro i
      rw [skipSpaces]
      split
      · exact (Nat.le_succ i).trans (ih _)
      · exact le_rfl
  exact key _ i

theorem scanName_advances (fuel : ℕ) (s : NameScan) :
    s.index ≤ (scanName fuel s).index ∧ (scanName fuel s).input.length = s.input.length := by
  induction fuel generalizing s with
  | zero => exact ⟨le_rfl, rfl⟩
  | succ fuel ih =>
    have hskip := le_skipSpaces s.input s.index
    simp only [scanName]
    split_ifs
    · simp only [NameScan.atEquals]
      split_ifs
      all_goals
        refine ⟨?_, rfl⟩
        simp only
        omega
    · simp only [NameScan.atQuestion]
      split_ifs
      all_goals
        refine ⟨?_, rfl⟩
        simp only
        omega
    · obtain ⟨h₁, h₂⟩ := ih { s with
        isExec := true, stop := s.stop + 1, index := s.input.skipSpaces s.index + 1 }
      exact ⟨hskip.trans ((Nat.le_succ _).trans h₁), h₂⟩
    · exact ⟨hskip, rfl⟩
    · exact ⟨le_rfl, rfl⟩

/-- A sub-command takes at least its plus sign out of the line. -/
theorem extend_advances (groups : List (List Command)) (b : Input) (i : ℕ) (status : Bool) :
    i < (processAtExtendCommand groups b i status).index ∧
      (processAtExtendCommand groups b i status).input.length ≤ b.length := by
  obtain ⟨hindex, hlength⟩ := scanName_advances b.length ⟨b, i + 1, i, i + 1, false, false, false, false, true⟩
  have hindex : i < (nameScan b i).index := hindex
  have hlength : (nameScan b i).input.length = b.length := hlength
  have hrestored : (nameScan b i).restored.length = b.length := by
    rw [← hlength]
    simp only [NameScan.restored, NameScan.cut]
    split_ifs <;> rfl
  obtain ⟨h₁, h₂⟩ := scanParams_advances (nameScan b i).restored.length (nameScan b i).params
  have h₁ : (nameScan b i).index ≤ _ := h₁
  have h₂ : _ ≤ (nameScan b i).restored.length := h₂
  have hexecute : ∀ (command : Command) (op : Option OpType) (c : Input) (j : ℕ) (ps : List (ℕ × Option ℤ)),
      (execute command op c j ps status).index = j ∧ (execute command op c j ps status).input = c := by
    intro command op c j ps
    simp only [execute]
    split
    · exact ⟨rfl, rfl⟩
    · split <;> exact ⟨rfl, rfl⟩
  rw [processAtExtendCommand_eq]
  dsimp only
  generalize scanParams (nameScan b i).restored.length (nameScan b i).params = t at h₁ h₂
  split
  next =>
    split
    next => exact ⟨hindex, hrestored.le⟩
    next =>
      split
      next =>
        split
        next => exact ⟨hindex.trans_le h₁, h₂.trans hrestored.le⟩
        next =>
          split
          next => exact ⟨hindex.trans_le h₁, h₂.trans hrestored.le⟩
          next =>
            rw [(hexecute _ _ _ _ _).1, (hexecute _ _ _ _ _).2]
            exact ⟨hindex.trans_le h₁, h₂.trans hrestored.le⟩
      next =>
        rw [(hexecute _ _ _ _ _).1, (hexecute _ _ _ _ _).2]
        exact ⟨hindex, hrestored.le⟩
  next => exact ⟨hindex, hlength.le⟩

/-! ### Answers to parameters -/

theorem finish_insideQuotes (p : ParamScan) (start : ℕ) :
    (p.finish start).insideQuotes =
      if p.input.string p.index = quote then !p.insideQuotes else p.insideQuotes := by
  simp only [ParamScan.finish, ParamScan.closeQuote]
  split_ifs <;> rfl

theorem finish_result (p : ParamScan) (start : ℕ) : (p.finish start).result = p.result := by
  simp only [ParamScan.finish, ParamScan.closeQuote]
  split_ifs <;> rfl

/-- The end of a parameter is answered at most once exactly if all its escapes are. -/
theorem scanParam_answered (fuel : ℕ) (hr : p.result = true) (ha : p.abort = false) (start : ℕ) :
    (∀ e ∈ escapesOfParam fuel p, e.Answered) ↔
      (scanParam fuel p).abort = false ∧
        ((scanParam fuel p).result = true ∨ ((scanParam fuel p).finish start).insideQuotes = false) := by
  induction fuel generalizing p with
  | zero => simp [escapesOfParam, scanParam, hr, ha]
  | succ fuel ih =>
    simp only [escapesOfParam, scanParam]
    split
    next hc =>
      by_cases hb : p.input.string p.index = backslash
      · rw [if_pos hb, if_pos hb, List.forall_mem_cons]
        by_cases hgood : p.GoodEscape
        · obtain ⟨hres, hab⟩ := escape_good hgood
          have hgo : ¬ p.escape.abort = true := by
            rw [hab, ha]
            exact Bool.false_ne_true
          have hrest := ih (p := { p.escape with index := p.escape.index + 1 }) (hres.trans hr) (hab.trans ha)
          have hans : p.Answered := .inl hgood
          rw [if_neg hgo, if_neg hgo, and_iff_right hans]
          exact hrest
        · by_cases hx : p.index + 3 < p.input.length ∧ p.input.string (p.index + 1) = lowerX
          · have habort := escape_hex hgood hx.1 hx.2
            rw [if_pos habort, if_pos habort, habort]
            refine iff_of_false (fun hall => ?_) (fun hab => Bool.noConfusion hab.1)
            exact hall.1.elim hgood fun hn => hn.1 hx
          · have hesc := escape_bad hgood hx
            have hstop : ∀ q : ParamScan, q.result = false →
                escapesOfParam fuel q = [] ∧ scanParam fuel q = q := by
              intro q hq
              cases fuel with
              | zero => exact ⟨rfl, rfl⟩
              | succ fuel =>
                simp only [escapesOfParam, scanParam, hq, Bool.false_eq_true, false_and, if_false, and_self]
            have hgo : ¬ p.abort = true := by
              rw [ha]
              exact Bool.false_ne_true
            obtain ⟨hnil, hsame⟩ := hstop { p with result := false, index := p.index + 1 } rfl
            rw [hesc]
            simp only
            rw [if_neg hgo, if_neg hgo, hnil, hsame, finish_insideQuotes]
            simp only [List.not_mem_nil, false_imp_iff, implies_true, and_true, ha, true_and, Bool.false_eq_true,
              false_or]
            rw [ParamScan.Answered, or_iff_right hgood, and_iff_right hx]
            have hquote : p.index + 1 < p.input.length → p.input.string (p.index + 1) ≠ quote :=
              fun hlt hq => hgood ⟨hlt, .inr (.inl hq)⟩
            by_cases hq : p.input.string (p.index + 1) = quote
            · have hl : p.index + 1 = p.input.length := by
                by_contra hne
                exact hquote (by have := hc.2.1; omega) hq
              rw [if_pos hq, Bool.not_eq_false']
              exact iff_true_right ⟨hl, hq⟩
            · rw [if_neg hq, ← Bool.not_eq_true]
              exact iff_false_right fun hl => hq hl.2
      · have hgo : ¬ p.abort = true := by
          rw [ha]
          exact Bool.false_ne_true
        rw [if_neg hb, if_neg hb, if_neg hgo, if_neg hgo]
        exact ih (p := { p with index := p.index + 1 }) hr ha
    next => simp [hr, ha]

/-- The parameters are answered at most once exactly if all escapes in them are. -/
theorem scanParams_answered (fuel : ℕ) (hr : p.result = true) (ha : p.abort = false) :
    (∀ q ∈ starts fuel p, ∀ e ∈ escapesOfParam q.input.length q, e.Answered) ↔
      (scanParams fuel p).abort = false ∧
        ((scanParams fuel p).result = true ∨ (scanParams fuel p).insideQuotes = false) := by
  induction fuel generalizing p with
  | zero => simp [starts, scanParams, hr, ha]
  | succ fuel ih =>
    simp only [starts, scanParams]
    split
    next =>
      split
      next => exact ih (p := { p with index := p.index + 1 }) hr ha
      next =>
        obtain ⟨q, hq⟩ : ∃ q, (if p.input.string p.index = quote then
            { p with insideQuotes := true, index := p.index + 1 } else p) = q := ⟨_, rfl⟩
        have hqr : q.result = true ∧ q.abort = false := by
          rw [← hq]
          split
          · exact ⟨hr, ha⟩
          · exact ⟨hr, ha⟩
        rw [hq]
        split
        next =>
          have hparam := scanParam_answered q.input.length hqr.1 hqr.2 q.index
          generalize scanParam q.input.length q = t at hparam
          rw [List.forall_mem_cons, hparam]
          cases hab : t.abort with
          | true => simp [hab]
          | false =>
            have hfin : (t.finish q.index).abort = false := (finish_abort _).trans hab
            have hres := finish_result t q.index
            simp only [Bool.false_eq_true, if_false, true_and]
            cases hsub : (t.finish q.index).subCommand with
            | true => simp [hab, hres]
            | false =>
              simp only [Bool.false_eq_true, if_false]
              cases hr' : t.result with
              | true =>
                rw [ih (hres.trans hr') hfin]
                simp
              | false =>
                have hstop : starts fuel (t.finish q.index) = [] ∧ scanParams fuel (t.finish q.index) =
                    t.finish q.index := by
                  cases fuel with
                  | zero => exact ⟨rfl, rfl⟩
                  | succ fuel =>
                    simp only [starts, scanParams, hres.trans hr', Bool.false_eq_true, false_and, if_false, and_self]
                rw [hstop.1, hstop.2, hfin, hres, hr']
                simp
        next => exact ih hqr.1 hqr.2
    next => simp [hr, ha]

/-! ### A sub-command -/

/-- How a sub-command is answered. -/
inductive Outcome (groups : List (List Command)) (b : Input) (i : ℕ) (e : Extend) : Prop where
  | called (command : Command) (op : OpType) (params : List Parameter) (events : e.events = [.call command op params])
      (supported : ¬ Unsupported groups b i) (escapes : EscapesAnswered groups b i)
  | refused (events : e.events = [.error]) (result : e.result = false) (supported : ¬ Unsupported groups b i)
      (escapes : EscapesAnswered groups b i)
  | unsupported (events : e.events = [.error]) (result : e.result = true) (unsupported : Unsupported groups b i)
      (input : e.input = restOf b i) (index : e.index = restIndex b i) (escapes : EscapesAnswered groups b i)
  | slipped (events : e.events = [] ∨ e.events = [.error, .error]) (result : e.result = false)
      (supported : ¬ Unsupported groups b i) (escapes : ¬ EscapesAnswered groups b i)

/-- The command is called, or refuses the operation. -/
theorem execute_outcome {command : Command} (hr : (nameScan b i).result = true)
    (hfound : (nameScan b i).command groups = some command) (hesc : EscapesAnswered groups b i)
    (hread : ParamsRead b i) (ps : List (ℕ × Option ℤ)) (status : Bool) :
    Outcome groups b i (execute command (opTypeOf (nameScan b i).eq (nameScan b i).qu (nameScan b i).ar) (restOf b i)
      (restIndex b i) ps status) := by
  have hno : ∀ {P : Prop}, (∀ op, opTypeOf (nameScan b i).eq (nameScan b i).qu (nameScan b i).ar = some op →
      command.commandFlags.testBit op.bit = false → P) → Unsupported groups b i → P := by
    rintro P h ⟨-, -, command', op, hfound', hop, hbit⟩
    rw [hfound] at hfound'
    cases hfound'
    exact h op hop hbit
  cases hop : opTypeOf (nameScan b i).eq (nameScan b i).qu (nameScan b i).ar with
  | none =>
    refine .refused rfl rfl (fun hun => hno (fun op hop' _ => ?_) hun) hesc
    rw [hop] at hop'
    cases hop'
  | some op =>
    simp only [execute]
    split
    next hbit =>
      refine .called command op _ rfl (fun hun => hno (fun op' hop' hbit' => ?_) hun) hesc
      rw [hop] at hop'
      cases hop'
      rw [hbit] at hbit'
      cases hbit'
    next hbit => exact .unsupported rfl rfl ⟨hr, hread, command, op, hfound, hop, by simpa using hbit⟩ rfl rfl hesc

theorem extend_outcome (groups : List (List Command)) (b : Input) (i : ℕ) (status : Bool) :
    Outcome groups b i (processAtExtendCommand groups b i status) := by
  rw [processAtExtendCommand_eq]
  dsimp only
  split
  next hr =>
    cases hfound : (nameScan b i).command groups with
    | none =>
      refine .refused rfl rfl ?_ fun _ hsome => absurd hsome (by rw [hfound]; exact Bool.false_ne_true)
      rintro ⟨-, -, command, op, hsome, -⟩
      rw [hfound] at hsome
      cases hsome
    | some command =>
      dsimp only
      split
      next har =>
        have hescapes : EscapesAnswered groups b i ↔
            ∀ q ∈ starts (nameScan b i).restored.length (nameScan b i).params,
              ∀ e ∈ escapesOfParam q.input.length q, e.Answered :=
          ⟨fun h => h hr (by rw [hfound]; rfl) har, fun h _ _ _ => h⟩
        rw [scanParams_answered _ rfl rfl] at hescapes
        have hread : Unsupported groups b i → _ := fun hun => hun.2.1 har
        have hexecute := fun hesc hread => execute_outcome hr hfound hesc hread
        simp only [restOf, restIndex, ParamsRead, if_pos har] at hexecute
        generalize scanParams (nameScan b i).restored.length (nameScan b i).params = t at hescapes hread hexecute
        split
        next hab =>
          refine .slipped (.inl rfl) rfl (fun hun => ?_) fun h => absurd (hescapes.mp h).1 (by rw [hab]; decide)
          exact absurd (hread hun).1 (by rw [hab]; decide)
        next hab =>
          split
          next hbad =>
            have hsup : ¬ Unsupported groups b i := by
              intro hun
              obtain ⟨-, hres, hin⟩ := hread hun
              rcases hbad with h0 | h0
              · exact Bool.false_ne_true (h0.symm.trans hres)
              · exact Bool.false_ne_true (hin.symm.trans h0)
            cases hres : t.result with
            | true =>
              have hin : t.insideQuotes = true := hbad.resolve_left (by rw [hres]; decide)
              refine .refused ?_ rfl hsup (hescapes.mpr ⟨by simpa using hab, .inl hres⟩)
              simp [hin]
            | false =>
              cases hin : t.insideQuotes with
              | true =>
                refine .slipped (.inr (by simp)) rfl hsup fun h => ?_
                rcases (hescapes.mp h).2 with h' | h'
                · rw [hres] at h'
                  cases h'
                · rw [hin] at h'
                  cases h'
              | false => exact .refused (by simp) rfl hsup (hescapes.mpr ⟨by simpa using hab, .inr hin⟩)
          next hgood =>
            obtain ⟨hres, hin⟩ := not_or.mp hgood
            have hab : t.abort = false := by simpa using hab
            have hres : t.result = true := by simpa using hres
            have hin : t.insideQuotes = false := by simpa using hin
            exact hexecute (hescapes.mpr ⟨hab, .inl hres⟩) (fun _ => ⟨hab, hres, hin⟩) _ _
      next har =>
        have hexecute := execute_outcome hr hfound (fun _ _ h => absurd h har) (fun h => absurd h har) [] status
        simp only [restOf, restIndex, if_neg har] at hexecute
        exact hexecute
  next hr => exact .refused rfl rfl (fun hun => absurd hun.1 hr) fun h => absurd h hr

/-! ### A line -/

/-- A round is a place that the loop comes to. What is behind it are the rounds from the next place on, if a sub-command
    was good. -/
theorem rounds_split (fuel : ℕ) (p : Place) {front back : List Round} {r : Round}
    (h : rounds groups fuel p.input p.index p.status = front ++ r :: back) :
    r.index < r.input.length ∧
      ((r.input.string r.index = plus ∧ ∃ status fuel, Reach (Place.Step groups) p ⟨r.input, r.index, status⟩ ∧
          r.events = (processAtExtendCommand groups r.input r.index (status.headD true)).events ∧
          back = if (processAtExtendCommand groups r.input r.index (status.headD true)).result then
            rounds groups fuel (processAtExtendCommand groups r.input r.index (status.headD true)).input
              (processAtExtendCommand groups r.input r.index (status.headD true)).index status.tail else []) ∨
        (r.input.string r.index ≠ plus ∧ r.events = [.error] ∧ back = [])) := by
  induction fuel generalizing p front with
  | zero => exact absurd h (by simp [rounds])
  | succ fuel ih =>
    obtain ⟨b, i, st⟩ := p
    simp only [rounds] at h
    split at h
    next hi =>
      split at h
      next hc =>
        obtain ⟨hlt, ⟨hplus, status, k, hreach, hrest⟩ | hno⟩ := ih ⟨b, i + 1, st⟩ h
        · exact ⟨hlt, .inl ⟨hplus, status, k, .head (.skip hi hc) hreach, hrest⟩⟩
        · exact ⟨hlt, .inr hno⟩
      next =>
        split at h
        next hplus =>
          cases front with
          | nil =>
            obtain ⟨rfl, rfl⟩ := List.cons.inj h
            exact ⟨hi, .inl ⟨hplus, st, fuel, .refl, rfl, rfl⟩⟩
          | cons x front =>
            have htail := (List.cons.inj h).2
            split at htail
            next hr =>
              obtain ⟨hlt, ⟨hplus', status, k, hreach, hrest⟩ | hno⟩ := ih ⟨_, _, _⟩ htail
              · exact ⟨hlt, .inl ⟨hplus', status, k, .head (.command hi hplus hr) hreach, hrest⟩⟩
              · exact ⟨hlt, .inr hno⟩
            next => exact absurd htail (by simp)
        next hplus =>
          cases front with
          | nil =>
            obtain ⟨rfl, rfl⟩ := List.cons.inj h
            exact ⟨hi, .inr ⟨hplus, rfl, rfl⟩⟩
          | cons x front => exact absurd (List.cons.inj h).2 (by simp)
    next => exact absurd h (by simp)

/-- A round at a plus sign. -/
theorem rounds_command (hi : i < b.length) (hc : b.string i = plus) :
    rounds groups (fuel + 1) b i statuses =
      ⟨b, i, (processAtExtendCommand groups b i (statuses.headD true)).events⟩ ::
        if (processAtExtendCommand groups b i (statuses.headD true)).result then
          rounds groups fuel (processAtExtendCommand groups b i (statuses.headD true)).input
            (processAtExtendCommand groups b i (statuses.headD true)).index statuses.tail else [] := by
  rw [rounds, if_pos hi, hc, if_neg (by decide), if_pos rfl]

/-- The loop does not stop in front of a place that it can come to. -/
theorem rounds_reach {p q : Place} (h : Reach (Place.Step groups) p q) (hf : p.input.length - p.index ≤ fuel) :
    ∃ front k, q.input.length - q.index ≤ k ∧
      rounds groups fuel p.input p.index p.status = front ++ rounds groups k q.input q.index q.status := by
  induction h using Relation.ReflTransGen.head_induction_on generalizing fuel with
  | refl => exact ⟨[], fuel, hf, rfl⟩
  | head hstep _ ih =>
    cases hstep with
    | @skip b i st hi hc =>
      have hf : b.length - i ≤ fuel := hf
      obtain ⟨fuel, rfl⟩ : ∃ k, fuel = k + 1 := ⟨fuel - 1, by omega⟩
      obtain ⟨front, k, hk, hrest⟩ := ih (show b.length - (i + 1) ≤ fuel by omega)
      refine ⟨front, k, hk, ?_⟩
      simp only [rounds]
      rw [if_pos hi, if_pos hc]
      exact hrest
    | @command b i st hi hc hr =>
      have hf : b.length - i ≤ fuel := hf
      obtain ⟨hindex, hlength⟩ := extend_advances groups b i (st.headD true)
      obtain ⟨fuel, rfl⟩ : ∃ k, fuel = k + 1 := ⟨fuel - 1, by omega⟩
      have hf : (processAtExtendCommand groups b i (st.headD true)).input.length -
          (processAtExtendCommand groups b i (st.headD true)).index ≤ fuel := by omega
      obtain ⟨front, k, hk, hrest⟩ := ih hf
      refine ⟨⟨b, i, (processAtExtendCommand groups b i (st.headD true)).events⟩ :: front, k, hk, ?_⟩
      rw [rounds_command hi hc, if_pos hr]
      exact congrArg _ hrest

/-- There is a round at every sub-command that the loop comes to. -/
theorem round_of_reach {p : Place} (h : Reach (Place.Step groups) (.first b statuses) p) (hp : p.AtCommand) :
    ∃ front k, p.input.length - p.index ≤ k + 1 ∧ lineRounds groups b statuses =
      front ++ ⟨p.input, p.index, (processAtExtendCommand groups p.input p.index (p.status.headD true)).events⟩ ::
        if (processAtExtendCommand groups p.input p.index (p.status.headD true)).result then
          rounds groups k (processAtExtendCommand groups p.input p.index (p.status.headD true)).input
            (processAtExtendCommand groups p.input p.index (p.status.headD true)).index p.status.tail else [] := by
  obtain ⟨front, k, hk, hrounds⟩ := rounds_reach h (Nat.sub_le _ _)
  have hlt := hp.1
  obtain ⟨k, rfl⟩ : ∃ m, k = m + 1 := ⟨k - 1, by omega⟩
  exact ⟨front, k, hk, hrounds.trans (congrArg _ (rounds_command hlt hp.2))⟩

/-- Nothing comes of blanks and semicolons. -/
theorem rounds_of_blank (h : b.Blank i) (fuel : ℕ) (statuses : List Bool) : rounds groups fuel b i statuses = [] := by
  induction fuel generalizing i with
  | zero => rfl
  | succ fuel ih =>
    simp only [rounds]
    split
    next hi =>
      rw [if_pos (h i le_rfl hi)]
      exact ih fun j hj => h j (by omega)
    next => rfl

/-- Of anything else something does. -/
theorem rounds_eq_nil (hf : b.length - i ≤ fuel) (statuses : List Bool) :
    rounds groups fuel b i statuses = [] ↔ b.Blank i := by
  refine ⟨fun h => ?_, fun h => rounds_of_blank h fuel statuses⟩
  induction fuel generalizing i with
  | zero => exact fun j hj hlt => absurd hlt (by omega)
  | succ fuel ih =>
    simp only [rounds] at h
    split at h
    next hi =>
      split at h
      next hc =>
        intro j hj hlt
        rcases Nat.eq_or_lt_of_le hj with rfl | hj
        · exact hc
        · exact ih (by omega) h j hj hlt
      next => exact absurd h (by split <;> simp)
    next hi => exact fun j hj hlt => absurd hlt (by omega)

/-- The first round is at the first character that is no blank and no semicolon. -/
theorem rounds_head {r : Round} {rest : List Round} (h : rounds groups fuel b i statuses = r :: rest) :
    r.input = b ∧ i ≤ r.index ∧ r.index < b.length ∧ ¬ (b.string r.index = space ∨ b.string r.index = semicolon) ∧
      ∀ k, i ≤ k → k < r.index → b.string k = space ∨ b.string k = semicolon := by
  induction fuel generalizing i with
  | zero => cases h
  | succ fuel ih =>
    simp only [rounds] at h
    split at h
    next hi =>
      split at h
      next hc =>
        obtain ⟨h₁, h₂, h₃, h₄, h₅⟩ := ih h
        refine ⟨h₁, (Nat.le_succ _).trans h₂, h₃, h₄, fun k hk hlt => ?_⟩
        rcases Nat.eq_or_lt_of_le hk with rfl | hk
        · exact hc
        · exact h₅ k hk hlt
      next hc =>
        have hr : r.input = b ∧ r.index = i := by
          split at h
          · obtain ⟨rfl, -⟩ := List.cons.inj h
            exact ⟨rfl, rfl⟩
          · obtain ⟨rfl, -⟩ := List.cons.inj h
            exact ⟨rfl, rfl⟩
        obtain ⟨hr, rfl⟩ := hr
        exact ⟨hr, le_rfl, hi, hc, fun k hk hlt => absurd hlt (by omega)⟩
    next => cases h

/-- What a line causes is what its rounds cause. -/
theorem processCommands_rounds (groups : List (List Command)) (fuel : ℕ) (b : Input) (i : ℕ) (statuses : List Bool) :
    (processCommands groups fuel b i statuses).events = (rounds groups fuel b i statuses).flatMap Round.events ∧
      ((processCommands groups fuel b i statuses).subCommand = true ↔
        ∃ r ∈ (rounds groups fuel b i statuses).head?, r.input.string r.index = plus) := by
  induction fuel generalizing b i statuses with
  | zero => simp [processCommands, rounds]
  | succ fuel ih =>
    simp only [processCommands, rounds]
    split
    next =>
      split
      next => exact ih _ _ _
      next =>
        split
        next hplus =>
          split
          next => exact ⟨by rw [List.flatMap_cons, (ih _ _ _).1], by simp [hplus]⟩
          next => exact ⟨by simp, by simp [hplus]⟩
        next hplus => exact ⟨by simp, by simp [hplus]⟩
    next => simp

/-- What a line causes, with the answer to a line without a sub-command. -/
theorem processCommand_rounds (groups : List (List Command)) (hat : StartsWithAt b) (statuses : List Bool) :
    ∃ answer, (processCommand groups b statuses).2 =
        (lineRounds groups b statuses).flatMap Round.events ++ answer ∧
      (answer = [] ↔ ∃ r ∈ (lineRounds groups b statuses).head?, r.input.string r.index = plus) := by
  obtain ⟨hevents, hsub⟩ :=
    processCommands_rounds groups b.length b (b.skipSpaces (b.skipSpaces 0 + 2)) statuses
  refine ⟨if (processCommands groups b.length b (b.skipSpaces (b.skipSpaces 0 + 2)) statuses).subCommand then []
    else [.ok], ?_, ?_⟩
  · have hcond : b.skipSpaces 0 + 1 < b.length ∧ b.string (b.skipSpaces 0) ||| 0x20 = 0x61 ∧
        b.string (b.skipSpaces 0 + 1) ||| 0x20 = 0x74 := hat
    simp only [processCommand]
    rw [if_pos hcond, hevents]
    rfl
  · rw [lineRounds, ← hsub]
    split <;> simp [*]

/-- The context is cleared behind every line. -/
theorem context_cleared (rs : List Round) : rs.foldl (Context.round groups) .cleared = .cleared := by
  induction rs with
  | nil => rfl
  | cons r rs ih =>
    have hround : Context.round groups .cleared r = .cleared := by
      rw [Context.round]
      split <;> rfl
    rw [List.foldl_cons, hround, ih]

/-- A call is not a rejection. -/
theorem not_rejected {r : Round} {command : Command} {op : OpType} {params : List Parameter}
    (h : r.events = [.call command op params]) : ¬ r.Rejected :=
  fun hr => hr command op params (by rw [h]; exact List.mem_singleton_self _)

theorem rejected_of_errors {r : Round} (h : ∀ e ∈ r.events, e = .error) : r.Rejected :=
  fun _ _ _ hmem => Event.noConfusion (h _ hmem)

/-- The line begins with a plus sign behind the blanks, for otherwise it is answered twice. -/
theorem AnsweredOnce.sign (hat : StartsWithAt b) (h : AnsweredOnce groups b statuses)
    (hj : b.skipSpaces (b.skipSpaces 0 + 2) ≤ j) (hlt : j < b.length)
    (hblank : ∀ k, b.skipSpaces (b.skipSpaces 0 + 2) ≤ k → k < j → b.string k = space ∨ b.string k = semicolon) :
    b.string j = space ∨ b.string j = semicolon ∨ b.string j = plus := by
  obtain ⟨answer, hline, hanswer⟩ := processCommand_rounds groups hat statuses
  by_contra hc
  obtain ⟨hspace, hsemi, hplus⟩ : b.string j ≠ space ∧ b.string j ≠ semicolon ∧ b.string j ≠ plus := by
    simpa only [not_or] using hc
  have hsome : lineRounds groups b statuses ≠ [] := by
    intro hnil
    exact ((rounds_eq_nil (Nat.sub_le _ _) statuses).mp hnil j hj hlt).elim hspace hsemi
  obtain ⟨r, rest, hrest⟩ := List.exists_cons_of_ne_nil hsome
  obtain ⟨hinput, hle, -, hno, hfirst⟩ := rounds_head hrest
  have hindex : r.index = j := by
    rcases lt_trichotomy r.index j with h0 | h0 | h0
    · exact absurd (hblank _ hle h0) hno
    · exact h0
    · exact ((hfirst j hj h0).elim hspace hsemi).elim
  rcases (@rounds_split groups b.length (.first b statuses) [] rest r hrest).2 with ⟨h0, -⟩ | ⟨hne, hevents, hback⟩
  · rw [hinput, hindex] at h0
    exact hplus h0
  · obtain ⟨-, -, honly, -⟩ := h [] r rest hrest (rejected_of_errors (by simp [hevents]))
    have hnone : answer = [] := by
      rw [hline, hrest, hback] at honly
      simpa [hevents] using honly
    obtain ⟨r', hr', h0⟩ := hanswer.mp hnone
    rw [hrest] at hr'
    cases Option.some.inj hr'
    exact hne h0

/-- Where the loop comes to a sub-command, its escapes are good or answered once. -/
theorem AnsweredOnce.escapes (h : AnsweredOnce groups b statuses) (hp : Reach (Place.Step groups) (.first b statuses) q)
    (hat : q.AtCommand) : EscapesAnswered groups q.input q.index := by
  obtain ⟨front, k, -, hsplit⟩ := round_of_reach hp hat
  have hout := extend_outcome groups q.input q.index (q.status.headD true)
  generalize processAtExtendCommand groups q.input q.index (q.status.headD true) = e at hsplit hout
  cases hout with
  | called _ _ _ _ _ hesc => exact hesc
  | refused _ _ _ hesc => exact hesc
  | unsupported _ _ _ _ _ hesc => exact hesc
  | slipped hslip =>
    have hrej : Round.Rejected ⟨q.input, q.index, e.events⟩ := rejected_of_errors fun d hd => by
      rcases hslip with hs | hs
      · simp [hs] at hd
      · simpa [hs] using hd
    have hone : e.events = [.error] := (h front _ _ hsplit hrej).1
    rw [hone] at hslip
    exact absurd hslip (by simp)

/-- Behind a sub-command whose operation is not supported there are only blanks and semicolons. -/
theorem AnsweredOnce.supported (h : AnsweredOnce groups b statuses)
    (hp : Reach (Place.Step groups) (.first b statuses) q) (hat : q.AtCommand)
    (hun : Unsupported groups q.input q.index) : (restOf q.input q.index).Blank (restIndex q.input q.index) := by
  obtain ⟨front, k, hk, hsplit⟩ := round_of_reach hp hat
  obtain ⟨hindex, hlength⟩ := extend_advances groups q.input q.index (q.status.headD true)
  have hout := extend_outcome groups q.input q.index (q.status.headD true)
  generalize processAtExtendCommand groups q.input q.index (q.status.headD true) = e at *
  cases hout with
  | called _ _ _ _ hsup => exact absurd hun hsup
  | refused _ _ hsup => exact absurd hun hsup
  | slipped _ _ hsup => exact absurd hun hsup
  | unsupported hone hgo _ hrest hat' =>
    obtain ⟨-, hnil, -⟩ := h front _ _ hsplit (rejected_of_errors (by simp [hone]))
    rw [if_pos hgo, rounds_eq_nil (by omega), hrest, hat'] at hnil
    exact hnil

/-- A rejected round has one answer and is the last one. -/
theorem Answerable.round {front back : List Round} {r : Round} (h : Answerable groups b statuses)
    (hsplit : lineRounds groups b statuses = front ++ r :: back) (hrej : r.Rejected) :
    r.events = [.error] ∧ back = [] := by
  obtain ⟨hlt, ⟨hplus, status, k, hreach, hevents, hback⟩ | ⟨-, hevents, hback⟩⟩ :=
    rounds_split b.length (.first b statuses) hsplit
  · have hat : (⟨r.input, r.index, status⟩ : Place).AtCommand := ⟨hlt, hplus⟩
    rw [hevents]
    cases extend_outcome groups r.input r.index (status.headD true) with
    | called _ _ _ hcall => exact absurd hrej (not_rejected (hevents.trans hcall))
    | refused hone hres =>
      rw [hres, if_neg Bool.false_ne_true] at hback
      exact ⟨hone, hback⟩
    | unsupported hone hgo hun hrest hindex =>
      refine ⟨hone, ?_⟩
      rw [if_pos hgo, hrest, hindex] at hback
      rw [hback]
      exact rounds_of_blank (h.supported _ hreach hat hun) _ _
    | slipped _ _ _ hslip => exact absurd (h.escapes _ hreach hat) hslip
  · exact ⟨hevents, hback⟩

/-- A rejected line is answered exactly once if and only if it starts with a plus sign, all escapes are good or
    answered once, and there are only blanks and semicolons behind an operation that is not supported. -/
theorem answeredOnce_iff (hat : StartsWithAt b) (statuses : List Bool) :
    AnsweredOnce groups b statuses ↔ Answerable groups b statuses := by
  constructor
  · exact fun h => ⟨fun j hj hlt hblank => h.sign hat hj hlt hblank, fun p hp hat => h.escapes hp hat,
      fun p hp hat hun => h.supported hp hat hun⟩
  · intro h front r back hsplit hrej
    obtain ⟨answer, hline, hanswer⟩ := processCommand_rounds groups hat statuses
    obtain ⟨hevents, hback⟩ := h.round hsplit hrej
    have hnone : answer = [] := by
      rw [hanswer]
      obtain ⟨x, rest, hx⟩ : ∃ x rest, lineRounds groups b statuses = x :: rest := by
        rw [hsplit]
        cases front with
        | nil => exact ⟨_, _, rfl⟩
        | cons y front => exact ⟨_, _, rfl⟩
      obtain ⟨hinput, hle, hlt, hno, hblank⟩ := rounds_head hx
      refine ⟨x, by rw [hx]; rfl, ?_⟩
      rw [hinput]
      obtain ⟨hspace, hsemi⟩ := not_or.mp hno
      exact ((h.sign x.index hle hlt hblank).resolve_left hspace).resolve_left hsemi
    refine ⟨hevents, hback, ?_, context_cleared _⟩
    rw [hline, hnone, hsplit, hback]
    simp [hevents]

/-- `AT+B`, and there is no such command. -/
theorem answeredOnce_unknown :
    let b : Input := ⟨fun i => [0x41, 0x54, plus, 0x42].getD i nul, 4⟩
    AnsweredOnce [[⟨[plus, 0x41], 15⟩]] b [] ↔ Answerable [[⟨[plus, 0x41], 15⟩]] b [] :=
  answeredOnce_iff ⟨by decide, by decide, by decide⟩ []

/-- `AT+A="\xZZ"` is not answered. -/
theorem bad_digit_not_answered :
    ¬ ∀ (groups : List (List Command)) (b : Input) (statuses : List Bool), StartsWithAt b →
      AnsweredOnce groups b statuses := by
  intro h
  have hone := h [[⟨[plus, 0x41], 15⟩]]
    ⟨fun i => [0x41, 0x54, plus, 0x41, equals, quote, backslash, lowerX, 0x5A, 0x5A, quote].getD i nul, 11⟩ []
    ⟨by decide, by decide, by decide⟩
  have hevents : (lineRounds [[⟨[plus, 0x41], 15⟩]]
      ⟨fun i => [0x41, 0x54, plus, 0x41, equals, quote, backslash, lowerX, 0x5A, 0x5A, quote].getD i nul, 11⟩ []).map
        Round.events = [[]] := by decide +kernel
  obtain ⟨r, hr, hnone⟩ := List.map_eq_singleton_iff.mp hevents
  obtain ⟨herror, -⟩ := hone [] r [] hr (rejected_of_errors (by simp [hnone]))
  rw [hnone] at herror
  cases herror

end Qcc730.Qat
