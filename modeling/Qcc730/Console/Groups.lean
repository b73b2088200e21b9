import Qcc730.Console.Menu
import Qcc730.Lib.Fuel
import Qcc730.Lib.Linked
import Qcc730.Lib.Parents
import Qcc730.Lib.Reach

/-! The groups of the console in memory.

    Each registered group is a block of its own: its parent, the first of its subgroups, and the next subgroup of
    its parent. A block that is not allocated cannot be read, and a loop that does not end gives no result: both are
    `none`. A group that is unregistered is linked out of its parent's list first, then its subgroups are
    unregistered from the front, each of them the head of the list by then; last the current group is moved up if it
    is this one, and the block is released. -/

namespace Qcc730.Console.Groups
open Lib

/-- `Group_List_Entry_t`; a pointer is an address, or none. -/
structure Entry where
  next : Option ℕ
  commandGroup : Option CommandGroup
  parentGroup : Option ℕ
  subgroupList : Option ℕ

/-- What the groups are in `QCLI_Context`. -/
structure Context where
  /-- the blocks that are allocated -/
  heap : ℕ → Option Entry
  currentGroup : Option ℕ
  /-- the blocks that were released, in order -/
  freed : List ℕ

/-- The address of `Root_Group`. -/
def rootGroup : ℕ := 0

/-- What `Find_Result_t` points to. -/
inductive Found where
  | help
  | common (index : ℕ)
  | command (index : ℕ)
  | group (entry : ℕ)
  deriving DecidableEq, Repr

/-- The common commands of a group. -/
def Entry.common (e : Entry) : List (List UInt8) := if e.parentGroup.isSome then commonCommandList else []

/-- Its own commands. -/
def Entry.commands (e : Entry) : List (List UInt8) := (e.commandGroup.map (·.commandList)).getD []

namespace Context

/-- `QCLI_Initialize` -/
def init (commandGroup : Option CommandGroup) : Context :=
  ⟨Function.update (fun _ => none) rootGroup (some ⟨none, commandGroup, none, none⟩), some rootGroup, []⟩

/-- A store to the block at `a`. -/
def store (s : Context) (a : ℕ) (e : Entry) : Context := { s with heap := Function.update s.heap a (some e) }

/-- `PAL_Free` -/
def free (s : Context) (a : ℕ) : Context :=
  { s with heap := Function.update s.heap a none, freed := s.freed ++ [a] }

/-! ### Registering -/

/-- The loop of `QCLI_Register_Command_Group` to the last entry of the list. -/
def lastEntry (s : Context) : ℕ → ℕ → Option ℕ
  | 0, _ => none
  | fuel + 1, current =>
    (s.heap current).bind fun e =>
      match e.next with
      | none => some current
      | some next => lastEntry s fuel next

/-- `QCLI_Register_Command_Group`; `malloc` is what `PAL_Malloc` returns. -/
def registerCommandGroup (fuel : ℕ) (s : Context) (parentGroup : Option ℕ) (commandGroup : Option CommandGroup)
    (malloc : Option ℕ) : Option Context :=
  match commandGroup, malloc with
  | some c, some newEntry =>
    let parent := parentGroup.getD rootGroup
    let s := s.store newEntry ⟨none, some c, some parent, none⟩
    (s.heap parent).bind fun p =>
      match p.subgroupList with
      | none => some (s.store parent { p with subgroupList := some newEntry })
      | some first =>
        (lastEntry s fuel first).bind fun last =>
          (s.heap last).map fun e => s.store last { e with next := some newEntry }
  | _, _ => some s

/-! ### Unregistering -/

/-- The loop of `Unregister_Command_Group` to the entry in front of the group. -/
def entryBefore (s : Context) (group : ℕ) : ℕ → Option ℕ → Option (Option ℕ)
  | _, none => some none
  | 0, some _ => none
  | fuel + 1, some current =>
    (s.heap current).bind fun e =>
      if e.next = some group then some (some current) else entryBefore s group fuel e.next

/-- The first part of `Unregister_Command_Group`, which ends with `Group_Is_Valid`. -/
def unlink (fuel : ℕ) (s : Context) (group : ℕ) : Option (Bool × Context) :=
  (s.heap group).bind fun g =>
    g.parentGroup.bind fun parent =>
      (s.heap parent).bind fun p =>
        if p.subgroupList = some group then some (true, s.store parent { p with subgroupList := g.next })
        else
          (entryBefore s group fuel p.subgroupList).bind fun
            | none => some (false, s)
            | some current => (s.heap current).map fun e => (true, s.store current { e with next := g.next })

/-- The end of `Unregister_Command_Group`. -/
def leave (s : Context) (group : ℕ) (ret : Bool) : Option (Bool × Context) :=
  if s.currentGroup = some group then
    (s.heap group).map fun g => (true, { s with currentGroup := g.parentGroup }.free group)
  else some (ret, s.free group)

mutual

/-- `Unregister_Command_Group` -/
def unregisterGroup : ℕ → Context → ℕ → Option (Bool × Context)
  | 0, _, _ => none
  | fuel + 1, s, group =>
    (s.unlink fuel group).bind fun
      | (false, s) => some (false, s)
      | (true, s) =>
        (s.heap group).bind fun g =>
          (unregisterSubgroups fuel s g.subgroupList false).bind fun r => r.2.leave group r.1

/-- The loop over the subgroups, which reads the next one before the call. -/
def unregisterSubgroups : ℕ → Context → Option ℕ → Bool → Option (Bool × Context)
  | _, s, none, ret => some (ret, s)
  | 0, _, some _, _ => none
  | fuel + 1, s, some current, ret =>
    (s.heap current).bind fun e =>
      (unregisterGroup fuel s current).bind fun r => unregisterSubgroups fuel r.2 e.next (ret || r.1)

end

/-- `QCLI_Unregister_Command_Group` -/
def unregisterCommandGroup (fuel : ℕ) (s : Context) (groupHandle : Option ℕ) : Option Context :=
  match groupHandle with
  | none => some s
  | some group => (unregisterGroup fuel s group).map (·.2)

/-! ### Commands -/

/-- `Command_Up` -/
def commandUp (s : Context) : Option Context :=
  s.currentGroup.bind fun c => (s.heap c).map fun e =>
    if e.parentGroup.isSome then { s with currentGroup := e.parentGroup } else s

/-- `Command_Root` -/
def commandRoot (s : Context) : Option Context :=
  s.currentGroup.bind fun c => (s.heap c).map fun e =>
    if e.parentGroup.isSome then { s with currentGroup := some rootGroup } else s

/-- The loop of `Find_Command_By_String` over the subgroups. -/
def subgroupByString (s : Context) (name : List UInt8) : ℕ → Option ℕ → Option (Option ℕ)
  | _, none => some none
  | 0, some _ => none
  | fuel + 1, some current =>
    (s.heap current).bind fun e =>
      e.commandGroup.bind fun c =>
        if Qat.equalNoCase name c.groupString then some (some current) else subgroupByString s name fuel e.next

/-- The loop of `Find_Command_By_Index` over the subgroups. -/
def subgroupByIndex (s : Context) : ℕ → ℤ → Option ℕ → Option (Option ℕ)
  | _, _, none => some none
  | 0, _, some _ => none
  | fuel + 1, i, some current =>
    if i = 0 then some (some current) else (s.heap current).bind fun e => subgroupByIndex s fuel (i - 1) e.next

/-- `Find_Command_By_String`, without the number it stores. -/
def findCommandByString (fuel : ℕ) (s : Context) (e : Entry) (name : List UInt8) : Option (Option Found) :=
  if Qat.equalNoCase name helpCommand then some (some .help)
  else
    match (search name e.common 0 0).1 with
    | some i => some (some (.common i))
    | none =>
      match (search name e.commands 0 0).1 with
      | some i => some (some (.command i))
      | none => (s.subgroupByString name fuel e.subgroupList).map (·.map .group)

/-- `Find_Command_By_Index`; the comparisons are unsigned, the subtractions are not. -/
def findCommandByIndex (fuel : ℕ) (s : Context) (e : Entry) (commandIndex : ℤ) : Option (Option Found) :=
  if commandIndex = commandStartIndex then some (some .help)
  else if commandIndex < 0 ∨ commandStartIndex < commandIndex then
    let i := commandIndex - (commandStartIndex + 1)
    if 0 ≤ i ∧ i < e.common.length then some (some (.common i.toNat))
    else
      let i := i - e.common.length
      if 0 ≤ i ∧ i < e.commands.length then some (some (.command i.toNat))
      else (s.subgroupByIndex fuel (i - e.commands.length) e.subgroupList).map (·.map .group)
  else some none

/-- `Find_Command` in the group at `group`. -/
def findCommand (fuel : ℕ) (s : Context) (group : ℕ) (p : Qat.Parameter) : Option (Option Found) :=
  (s.heap group).bind fun e =>
    match p.integerValue with
    | some i => s.findCommandByIndex fuel e i
    | none => s.findCommandByString fuel e p.stringValue

/-- The loop of `Process_Command` over the parameters: it goes on as long as they are groups. -/
def searchParameters (fuel : ℕ) (s : Context) : ℕ → List Qat.Parameter → Option (Option Found)
  | group, [] => some (some (.group group))
  | group, p :: ps =>
    (s.findCommand fuel group p).bind fun
      | some (.group c) => searchParameters fuel s c ps
      | r => some r

/-- `Process_Command`, from the search for the command on. The common commands are the ones that lead to another
    group. -/
def processCommand (fuel : ℕ) (s : Context) (parameterList : List Qat.Parameter) : Option Context :=
  s.currentGroup.bind fun current =>
    (s.searchParameters fuel current parameterList).bind fun
      | some (.group c) => some { s with currentGroup := some c }
      | some (.common 0) => s.commandUp
      | some (.common 1) => s.commandRoot
      | _ => some s

end Context

/-- The calls that reach the groups. -/
inductive Act where
  | register (parentGroup : Option ℕ) (commandGroup : Option CommandGroup) (malloc : Option ℕ)
  | unregister (groupHandle : Option ℕ)
  | up
  | root
  | line (parameterList : List Qat.Parameter)

namespace Context

def act (fuel : ℕ) (s : Context) : Act → Option Context
  | .register parentGroup commandGroup malloc => s.registerCommandGroup fuel parentGroup commandGroup malloc
  | .unregister groupHandle => s.unregisterCommandGroup fuel groupHandle
  | .up => s.commandUp
  | .root => s.commandRoot
  | .line parameterList => s.processCommand fuel parameterList

/-- A handle is one of a group that is registered, a parent may also be the root, and `PAL_Malloc` returns a block
    that is not in use. -/
def Legal (s : Context) : Act → Prop
  | .register parentGroup _ malloc => (∀ p ∈ parentGroup, (s.heap p).isSome) ∧ ∀ a ∈ malloc, s.heap a = none
  | .unregister groupHandle => ∀ g ∈ groupHandle, (s.heap g).isSome ∧ g ≠ rootGroup
  | _ => True

/-- A call that returns. -/
def Step (s t : Context) : Prop := ∃ a fuel, s.Legal a ∧ s.act fuel a = some t

/-! ### More rounds -/

theorem lastEntry_steady (s : Context) (current : ℕ) : Steady fun n => s.lastEntry n current := by
  intro n
  induction n generalizing current with
  | zero => exact Extends.none _
  | succ n ih =>
    refine (Extends.refl _).bind fun e => ?_
    cases e.next with
    | none => exact Extends.refl _
    | some next => exact ih next

theorem entryBefore_steady (s : Context) (group : ℕ) (current : Option ℕ) :
    Steady fun n => s.entryBefore group n current := by
  intro n
  induction n generalizing current with
  | zero =>
    cases current with
    | none => exact Extends.refl _
    | some current => exact Extends.none _
  | succ n ih =>
    cases current with
    | none => exact Extends.refl _
    | some current =>
      refine (Extends.refl _).bind fun e => ?_
      split
      · exact Extends.refl _
      · exact ih e.next

theorem subgroupByString_steady (s : Context) (name : List UInt8) (current : Option ℕ) :
    Steady fun n => s.subgroupByString name n current := by
  intro n
  induction n generalizing current with
  | zero =>
    cases current with
    | none => exact Extends.refl _
    | some current => exact Extends.none _
  | succ n ih =>
    cases current with
    | none => exact Extends.refl _
    | some current =>
      refine (Extends.refl _).bind fun e => (Extends.refl _).bind fun c => ?_
      split
      · exact Extends.refl _
      · exact ih e.next

theorem subgroupByIndex_steady (s : Context) (i : ℤ) (current : Option ℕ) :
    Steady fun n => s.subgroupByIndex n i current := by
  intro n
  induction n generalizing i current with
  | zero =>
    cases current with
    | none => exact Extends.refl _
    | some current => exact Extends.none _
  | succ n ih =>
    cases current with
    | none => exact Extends.refl _
    | some current =>
      simp only [subgroupByIndex]
      split
      · exact Extends.refl _
      · exact (Extends.refl _).bind fun e => ih (i - 1) e.next

theorem unlink_steady (s : Context) (group : ℕ) : Steady fun n => s.unlink n group := by
  intro n
  refine (Extends.refl _).bind fun g => (Extends.refl _).bind fun parent => (Extends.refl _).bind fun p => ?_
  split
  · exact Extends.refl _
  · exact (entryBefore_steady s group _ n).bind fun _ => Extends.refl _

theorem unregister_steady (n : ℕ) :
    (∀ s group, Extends (unregisterGroup n s group) (unregisterGroup (n + 1) s group)) ∧
    ∀ s current ret, Extends (unregisterSubgroups n s current ret) (unregisterSubgroups (n + 1) s current ret) := by
  induction n with
  | zero =>
    refine ⟨fun _ _ => Extends.none _, fun s current ret => ?_⟩
    cases current with
    | none => exact Extends.refl _
    | some current => exact Extends.none _
  | succ n ih =>
    obtain ⟨hgroup, hsubgroups⟩ := ih
    refine ⟨fun s group => ?_, fun s current ret => ?_⟩
    · refine (unlink_steady s group n).bind fun r => ?_
      obtain ⟨valid, s⟩ := r
      cases valid with
      | false => exact Extends.refl _
      | true => exact (Extends.refl _).bind fun g => (hsubgroups s _ false).bind fun _ => Extends.refl _
    · cases current with
      | none => exact Extends.refl _
      | some current =>
        exact (Extends.refl _).bind fun e => (hgroup s current).bind fun r => hsubgroups r.2 e.next _

theorem unregisterGroup_steady (s : Context) (group : ℕ) : Steady fun n => unregisterGroup n s group :=
  fun n => (unregister_steady n).1 s group

theorem unregisterSubgroups_steady (s : Context) (current : Option ℕ) (ret : Bool) :
    Steady fun n => unregisterSubgroups n s current ret :=
  fun n => (unregister_steady n).2 s current ret

theorem findCommand_steady (s : Context) (group : ℕ) (p : Qat.Parameter) :
    Steady fun n => s.findCommand n group p := by
  intro n
  refine (Extends.refl _).bind fun e => ?_
  cases p.integerValue with
  | some i =>
    simp only [findCommandByIndex]
    split
    · exact Extends.refl _
    split
    · split
      · exact Extends.refl _
      split
      · exact Extends.refl _
      · exact (subgroupByIndex_steady s _ _ n).map _
    · exact Extends.refl _
  | none =>
    simp only [findCommandByString]
    split
    · exact Extends.refl _
    cases (search p.stringValue e.common 0 0).1 with
    | some i => exact Extends.refl _
    | none =>
      cases (search p.stringValue e.commands 0 0).1 with
      | some i => exact Extends.refl _
      | none => exact (subgroupByString_steady s _ _ n).map _

theorem searchParameters_steady (s : Context) (group : ℕ) (ps : List Qat.Parameter) :
    Steady fun n => s.searchParameters n group ps := by
  intro n
  induction ps generalizing group with
  | nil => exact Extends.refl _
  | cons p ps ih =>
    refine (findCommand_steady s group p n).bind fun r => ?_
    match r with
    | some (.group c) => exact ih c
    | some .help | some (.common _) | some (.command _) | none => exact Extends.refl _

/-- A call that returns returns the same with more rounds. -/
theorem act_steady (s : Context) (a : Act) : Steady fun n => s.act n a := by
  intro n
  cases a with
  | register parentGroup commandGroup malloc =>
    simp only [act, registerCommandGroup]
    match commandGroup, malloc with
    | some c, some newEntry =>
      refine (Extends.refl _).bind fun p => ?_
      cases p.subgroupList with
      | none => exact Extends.refl _
      | some first => exact (lastEntry_steady _ first n).bind fun _ => Extends.refl _
    | some _, none => exact Extends.refl _
    | none, _ => exact Extends.refl _
  | unregister groupHandle =>
    cases groupHandle with
    | none => exact Extends.refl _
    | some group => exact (unregisterGroup_steady s group n).map _
  | up => exact Extends.refl _
  | root => exact Extends.refl _
  | line ps =>
    exact (Extends.refl _).bind fun current => (searchParameters_steady s current ps n).bind fun _ => Extends.refl _

end Context

end Qcc730.Console.Groups
