import Qcc730.Qat.Parser

/-! The menu of the console.

    The entries of a group are the help command, in a group with a parent the common commands, then the commands of
    the group and its subgroups. Three functions number them: the one that prints the list, the one that looks a
    name up and stores its number, and the one that takes a number. -/

namespace Qcc730.Console

/-- `QCLI_COMMAND_START_INDEX` -/
def commandStartIndex : ℕ := 1

/-- `Help_Command.Command_String` -/
def helpCommand : List UInt8 := [0x48, 0x65, 0x6C, 0x70]

/-- The names in `Common_Command_List`: `Up` and `Root`. -/
def commonCommandList : List (List UInt8) := [[0x55, 0x70], [0x52, 0x6F, 0x6F, 0x74]]

/-- `QAPI_Console_Command_Group_t`, with the names of its commands. -/
structure CommandGroup where
  groupString : List UInt8
  commandList : List (List UInt8)
  deriving DecidableEq, Repr

/-- `Group_List_Entry_t`: what the group is made of, whether it has a parent, and the subgroups in the order of their
    list. Only the root has neither a parent nor, possibly, a command group. -/
inductive GroupListEntry where
  | mk (commandGroup : Option CommandGroup) (hasParent : Bool) (subgroupList : List GroupListEntry)

namespace GroupListEntry

def commandGroup : GroupListEntry → Option CommandGroup
  | mk c _ _ => c

def hasParent : GroupListEntry → Bool
  | mk _ p _ => p

def subgroupList : GroupListEntry → List GroupListEntry
  | mk _ _ l => l

/-- The common commands a group has. -/
def common (g : GroupListEntry) : List (List UInt8) := if g.hasParent then commonCommandList else []

/-- Its own commands. -/
def commands (g : GroupListEntry) : List (List UInt8) := (g.commandGroup.map (·.commandList)).getD []

/-- The names of its subgroups. -/
def subgroups (g : GroupListEntry) : List (List UInt8) :=
  g.subgroupList.map fun s => (s.commandGroup.map (·.groupString)).getD []

end GroupListEntry

/-- `Find_Result_t`: the entry a pointer leads to, by its list and the place in it. -/
inductive FindResult where
  | help
  | common (index : ℕ)
  | command (index : ℕ)
  | subgroup (index : ℕ)
  deriving DecidableEq, Repr

/-- One of the loops of `Find_Command_By_String`: the place of the first match, and `Command_Index`, which counts the
    names that are passed. -/
def search (name : List UInt8) : List (List UInt8) → ℕ → ℕ → Option ℕ × ℕ
  | [], _, commandIndex => (none, commandIndex)
  | s :: ss, index, commandIndex =>
    if Qat.equalNoCase name s then (some index, commandIndex) else search name ss (index + 1) (commandIndex + 1)

/-- `Find_Command_By_String`: the entry and the number that is stored in the parameter. -/
def findCommandByString (g : GroupListEntry) (name : List UInt8) : Option (FindResult × ℕ) :=
  if Qat.equalNoCase name helpCommand then some (.help, commandStartIndex)
  else
    match search name g.common 0 commandStartIndex with
    | (some i, n) => some (.common i, n)
    | (none, n) =>
      match search name g.commands 0 n with
      | (some i, n) => some (.command i, n)
      | (none, n) =>
        match search name g.subgroups 0 n with
        | (some i, n) => some (.subgroup i, n)
        | (none, _) => none

/-- `Find_Command_By_Index`. -/
def findCommandByIndex (g : GroupListEntry) (commandIndex : ℕ) : Option FindResult :=
  if commandIndex = commandStartIndex then some .help
  else if commandStartIndex < commandIndex then
    let i := commandIndex - (commandStartIndex + 1)
    if i < g.common.length then some (.common i)
    else
      let i := i - g.common.length
      if i < g.commands.length then some (.command i)
      else
        let i := i - g.commands.length
        if i < g.subgroups.length then some (.subgroup i) else none
  else none

/-- The lines of `Display_Command_List`: the number that is printed, and the entry whose name is printed behind it. -/
def displayCommandList (g : GroupListEntry) : List (ℕ × FindResult) :=
  let c := commandStartIndex + 1
  (commandStartIndex, .help) ::
    ((List.range g.common.length).map fun i => (c + i, .common i)) ++
    ((List.range g.commands.length).map fun i => (c + g.common.length + i, .command i)) ++
    (List.range g.subgroups.length).map fun i => (c + g.common.length + g.commands.length + i, .subgroup i)

/-! ### Numbers -/

variable {g : GroupListEntry} {name : List UInt8} {r : FindResult} {n : ℕ}

/-- The number of an entry in the list. -/
def number (g : GroupListEntry) : FindResult → ℕ
  | .help => commandStartIndex
  | .common i => commandStartIndex + 1 + i
  | .command i => commandStartIndex + 1 + g.common.length + i
  | .subgroup i => commandStartIndex + 1 + g.common.length + g.commands.length + i

/-- The entry is in the menu. -/
def Has (g : GroupListEntry) : FindResult → Prop
  | .help => True
  | .common i => i < g.common.length
  | .command i => i < g.commands.length
  | .subgroup i => i < g.subgroups.length

theorem mem_displayCommandList_iff : (n, r) ∈ displayCommandList g ↔ Has g r ∧ n = number g r := by
  simp only [displayCommandList, List.cons_append, List.mem_cons, List.mem_append, List.mem_map, List.mem_range,
    Prod.mk.injEq]
  cases r <;> simp [Has, number, eq_comm, and_comm]

/-- The numbers that are printed are those that `Find_Command_By_Index` takes, for the same entries. -/
theorem findCommandByIndex_iff : findCommandByIndex g n = some r ↔ (n, r) ∈ displayCommandList g := by
  rw [mem_displayCommandList_iff, findCommandByIndex]
  dsimp only
  split_ifs with h1 h2 h3 h4 h5 <;> cases r <;> simp [Has, number, commandStartIndex] at * <;> omega

/-- A loop has passed as many names as lie before the match. -/
theorem search_eq (name : List UInt8) (L : List (List UInt8)) (index commandIndex : ℕ) :
    (∀ i, (search name L index commandIndex).1 = some i →
      index ≤ i ∧ i < index + L.length ∧ (search name L index commandIndex).2 = commandIndex + (i - index)) ∧
    ((search name L index commandIndex).1 = none → (search name L index commandIndex).2 = commandIndex + L.length) := by
  induction L generalizing index commandIndex with
  | nil => exact ⟨fun i hi => absurd hi.symm (Option.some_ne_none i), fun _ => rfl⟩
  | cons s L ih =>
    rw [search]
    by_cases hs : Qat.equalNoCase name s = true
    · rw [if_pos hs]
      refine ⟨fun i hi => ?_, fun h => absurd h (Option.some_ne_none index)⟩
      obtain rfl := Option.some.inj hi
      simp
    · rw [if_neg hs]
      obtain ⟨hsome, hnone⟩ := ih (index + 1) (commandIndex + 1)
      refine ⟨fun i hi => ?_, fun h => ?_⟩
      · obtain ⟨hle, hlt, heq⟩ := hsome i hi
        rw [List.length_cons]
        omega
      · rw [hnone h, List.length_cons]
        omega

/-- What `Find_Command_By_String` finds is in the menu, and the number it stores is that of the entry for the help
    command and one too small for every other. -/
theorem findCommandByString_eq (h : findCommandByString g name = some (r, n)) :
    Has g r ∧ (r = .help ↔ Qat.equalNoCase name helpCommand = true) ∧
      (if r = .help then n = number g r else n + 1 = number g r) := by
  rw [findCommandByString] at h
  by_cases hhelp : Qat.equalNoCase name helpCommand = true
  · rw [if_pos hhelp] at h
    cases h
    exact ⟨trivial, iff_of_true rfl hhelp, by simp [number]⟩
  rw [if_neg hhelp] at h
  obtain ⟨hcSome, hcNone⟩ := search_eq name g.common 0 commandStartIndex
  generalize search name g.common 0 commandStartIndex = c at h hcSome hcNone
  obtain ⟨found, n₁⟩ := c
  cases found with
  | some i =>
    cases h
    obtain ⟨-, hlt, heq⟩ := hcSome i rfl
    refine ⟨by simpa [Has] using hlt, by simp [hhelp], ?_⟩
    rw [if_neg (by simp)]
    simp only [number] at heq ⊢
    omega
  | none =>
    have hn₁ := hcNone rfl
    obtain ⟨hoSome, hoNone⟩ := search_eq name g.commands 0 n₁
    dsimp only at h
    generalize search name g.commands 0 n₁ = o at h hoSome hoNone
    obtain ⟨found, n₂⟩ := o
    cases found with
    | some i =>
      cases h
      obtain ⟨-, hlt, heq⟩ := hoSome i rfl
      refine ⟨by simpa [Has] using hlt, by simp [hhelp], ?_⟩
      rw [if_neg (by simp)]
      simp only [number] at heq hn₁ ⊢
      omega
    | none =>
      have hn₂ := hoNone rfl
      obtain ⟨hsSome, -⟩ := search_eq name g.subgroups 0 n₂
      dsimp only at h
      generalize search name g.subgroups 0 n₂ = s at h hsSome
      obtain ⟨found, n₃⟩ := s
      cases found with
      | some i =>
        cases h
        obtain ⟨-, hlt, heq⟩ := hsSome i rfl
        refine ⟨by simpa [Has] using hlt, by simp [hhelp], ?_⟩
        rw [if_neg (by simp)]
        simp only [number] at heq hn₁ hn₂ ⊢
        omega
      | none => exact absurd h (by simp)

/-- The number that is stored for a name is the one that is printed, and leads back to the entry, exactly if the name
    is that of the help command. -/
theorem name_and_number_iff (h : findCommandByString g name = some (r, n)) :
    ((n, r) ∈ displayCommandList g ∧ findCommandByIndex g n = some r) ↔ Qat.equalNoCase name helpCommand = true := by
  obtain ⟨hhas, hhelp, hn⟩ := findCommandByString_eq h
  rw [findCommandByIndex_iff, and_self, mem_displayCommandList_iff, and_iff_right hhas, ← hhelp]
  split at hn
  · exact iff_of_true hn ‹_›
  · exact iff_of_false (by omega) ‹_›

/-- `help` in a group with a parent. -/
theorem name_and_number_help :
    let g := GroupListEntry.mk (some ⟨[0x57], [[0x41], [0x42]]⟩) true []
    ((1, FindResult.help) ∈ displayCommandList g ∧ findCommandByIndex g 1 = some .help) ↔
      Qat.equalNoCase [0x68, 0x65, 0x6C, 0x70] helpCommand = true :=
  name_and_number_iff (show findCommandByString _ [0x68, 0x65, 0x6C, 0x70] = some (.help, 1) by decide)

/-- The second command of a group has the number 5 in the list; 4 is stored, which is the number of the first one. -/
theorem number_one_too_small :
    ¬ ∀ (g : GroupListEntry) (name : List UInt8) (r : FindResult) (n : ℕ), findCommandByString g name = some (r, n) →
      (n, r) ∈ displayCommandList g ∧ findCommandByIndex g n = some r := by
  intro h
  have hboth := h (.mk (some ⟨[0x57], [[0x41], [0x42]]⟩) true []) [0x42] (.command 1) 4 (by decide)
  exact absurd hboth.2 (by decide)

end Qcc730.Console
