import Qcc730.Lib.Reach
import Qcc730.Qat.Parser

/-! The list of command groups.

    A group is the array its commands lie in; it is registered at the end of a list and looked up from the front. The
    loop that looks for a group to remove compares the group behind `Current_Entry`, and does not move
    `Current_Entry` on. -/

namespace Qcc730.Qat
open Lib

/-- `QAT_Command_Group_t`; the pointer to the array is a number. -/
structure CommandGroup where
  commandCount : ℕ
  commandList : ℕ
  deriving DecidableEq, Repr

/-- `QAT_Register_Command_Group`: whether it returns true, and the list; `malloc` is whether the entry is allocated. -/
def registerCommandGroup (group number : ℕ) (malloc : Bool) (l : List CommandGroup) : Bool × List CommandGroup :=
  if group ≠ 0 then (true, if malloc then l ++ [⟨number, group⟩] else l) else (false, l)

/-- The loop of `QAT_Unregister_Command_Group` over at most `fuel` rounds, with `Current_Entry` and the entries behind it;
    `none` if it is not over by then. -/
def unregisterLoop (group : ℕ) : ℕ → CommandGroup → List CommandGroup → Option (Bool × List CommandGroup)
  | _, current, [] => some (false, [current])
  | 0, _, _ :: _ => none
  | fuel + 1, current, next :: rest =>
    if next.commandList = group then some (true, current :: rest) else unregisterLoop group fuel current (next :: rest)

/-- `QAT_Unregister_Command_Group`: whether it returns true, and the list. -/
def unregisterCommandGroup (group fuel : ℕ) : List CommandGroup → Option (Bool × List CommandGroup)
  | [] => some (false, [])
  | [a] => if a.commandList = group then some (true, []) else some (false, [a])
  | a :: b :: rest => unregisterLoop group fuel a (b :: rest)

/-- The groups as `Find_Command_By_String` goes through them; `commands` is the array at each pointer. -/
def groupsOf (commands : ℕ → List Command) (l : List CommandGroup) : List (List Command) :=
  l.map fun e => (commands e.commandList).take e.commandCount

/-! ### What a removal is to do -/

/-- The first entry with the group goes; the result says whether there is one. -/
def removed (group : ℕ) (l : List CommandGroup) : Bool × List CommandGroup :=
  (l.any fun e => e.commandList == group, l.eraseP fun e => e.commandList == group)

/-- The call returns, and has removed the first entry with the group. -/
def Removes (group : ℕ) (l : List CommandGroup) : Prop :=
  ∃ fuel, unregisterCommandGroup group fuel l = some (removed group l)

/-- There are not two groups, or the second one is to be removed and is the first with this pointer; or both are the
    same. -/
def Removable (group : ℕ) : List CommandGroup → Prop
  | a :: b :: _ => b.commandList = group ∧ (a.commandList ≠ group ∨ a = b)
  | _ => True

/-- More rounds do not help a loop that does not move. -/
theorem unregisterLoop_succ (group fuel : ℕ) (a : CommandGroup) (rest : List CommandGroup) :
    unregisterLoop group (fuel + 1) a rest = unregisterLoop group 1 a rest := by
  induction fuel with
  | zero => rfl
  | succ fuel ih =>
    cases rest with
    | nil => rfl
    | cons b rest =>
      rw [unregisterLoop]
      split
      · rename_i hb
        rw [unregisterLoop, if_pos hb]
      · exact ih

theorem unregisterCommandGroup_succ (group fuel : ℕ) (l : List CommandGroup) :
    unregisterCommandGroup group (fuel + 1) l = unregisterCommandGroup group 1 l := by
  match l with
  | [] => rfl
  | [_] => rfl
  | a :: b :: rest => exact unregisterLoop_succ group fuel a (b :: rest)

/-- One round shows what a call comes to. -/
theorem removes_iff_one (group : ℕ) (l : List CommandGroup) :
    Removes group l ↔ unregisterCommandGroup group 1 l = some (removed group l) := by
  refine ⟨fun ⟨fuel, h⟩ => ?_, fun h => ⟨1, h⟩⟩
  cases fuel with
  | succ fuel => rwa [unregisterCommandGroup_succ] at h
  | zero =>
    match l with
    | [] => exact h
    | [_] => exact h
    | _ :: _ :: _ => exact absurd h.symm (Option.some_ne_none _)

theorem removes_iff (group : ℕ) (l : List CommandGroup) : Removes group l ↔ Removable group l := by
  rw [removes_iff_one]
  match l with
  | [] => exact iff_of_true rfl trivial
  | [a] =>
    refine iff_of_true ?_ trivial
    by_cases ha : a.commandList = group <;> simp [unregisterCommandGroup, removed, ha]
  | a :: b :: rest =>
    rw [Removable, unregisterCommandGroup, unregisterLoop]
    by_cases hb : b.commandList = group
    · rw [if_pos hb, and_iff_right hb]
      by_cases ha : a.commandList = group
      · simp [removed, ha, hb]
      · simp [removed, ha, hb]
    · simp [hb, unregisterLoop]

/-! ### Runs -/

inductive GroupAct where
  | register (group number : ℕ) (malloc : Bool)
  | unregister (group : ℕ)

/-- The list after a call; `none` when a call has not returned, and holds the lock. -/
def GroupAct.act (s : Option (List CommandGroup)) (a : GroupAct) : Option (List CommandGroup) :=
  s.bind fun l =>
    match a with
    | .register group number malloc => some (registerCommandGroup group number malloc l).2
    | .unregister group => (unregisterCommandGroup group 1 l).map (·.2)

/-- The groups that are still registered: added at the end, and removed where they are first. -/
def GroupAct.still (l : List CommandGroup) : GroupAct → List CommandGroup
  | .register group number malloc => if group ≠ 0 ∧ malloc then l ++ [⟨number, group⟩] else l
  | .unregister group => (removed group l).2

/-- A removal can be made. -/
def GroupAct.CanRemove (s : Option (List CommandGroup)) : GroupAct → Prop
  | .unregister group => ∀ l ∈ s, Removable group l
  | .register .. => True

theorem GroupAct.act_eq {l : List CommandGroup} {a : GroupAct} (h : a.CanRemove (some l)) :
    GroupAct.act (some l) a = some (a.still l) := by
  cases a with
  | register group number malloc =>
    simp only [act, Option.bind_some, still, registerCommandGroup]
    by_cases hg : group ≠ 0 <;> cases malloc <;> simp [hg]
  | unregister group =>
    have hr := (removes_iff_one group l).mp ((removes_iff group l).mpr (h l rfl))
    simp only [act, Option.bind_some, hr]
    rfl

theorem GroupAct.foldl_act {l : List CommandGroup} {as : List GroupAct}
    (h : Along GroupAct.act (fun s a => a.CanRemove s) (some l) as) :
    as.foldl GroupAct.act (some l) = some (as.foldl GroupAct.still l) := by
  induction as generalizing l with
  | nil => rfl
  | cons a as ih =>
    obtain ⟨ha, has⟩ := h
    rw [GroupAct.act_eq ha] at has
    rw [List.foldl_cons, List.foldl_cons, GroupAct.act_eq ha]
    exact ih has

/-- The command that is found belongs to a group of the list and has the name, and one is found if there is one. -/
theorem findCommandByString_groupsOf (commands : ℕ → List Command) (l : List CommandGroup) (name : List UInt8) :
    (∀ c, findCommandByString (groupsOf commands l) name = some c →
      equalNoCase c.commandString name = true ∧ ∃ e ∈ l, c ∈ (commands e.commandList).take e.commandCount) ∧
    (findCommandByString (groupsOf commands l) name = none ↔
      ∀ e ∈ l, ∀ c ∈ (commands e.commandList).take e.commandCount, equalNoCase c.commandString name = false) := by
  constructor
  · intro c hc
    have hname := List.find?_some hc
    refine ⟨hname, ?_⟩
    obtain ⟨group, hgroup, hmem⟩ := List.mem_flatten.mp (List.mem_of_find?_eq_some hc)
    obtain ⟨e, he, rfl⟩ := List.mem_map.mp hgroup
    exact ⟨e, he, hmem⟩
  · simp only [findCommandByString, List.find?_eq_none, groupsOf, List.mem_flatten, List.mem_map,
      Bool.not_eq_true]
    exact ⟨fun h e he c hc => h c ⟨_, ⟨e, he, rfl⟩, hc⟩, by rintro h c ⟨_, ⟨e, he, rfl⟩, hc⟩; exact h e he c hc⟩

/-- A call removes a group exactly if it is removable. After calls of which every one can be made, the list is that of the
    groups still registered, and the commands that are found are those of these groups. -/
theorem unregister_iff (group : ℕ) (l : List CommandGroup) (as : List GroupAct) :
    (Removes group l ↔ Removable group l) ∧
    (Along GroupAct.act (fun s a => a.CanRemove s) (some []) as →
      ∃ l, as.foldl GroupAct.act (some []) = some l ∧ l = as.foldl GroupAct.still [] ∧
        ∀ commands name,
          (∀ c, findCommandByString (groupsOf commands l) name = some c →
            equalNoCase c.commandString name = true ∧
              ∃ e ∈ as.foldl GroupAct.still [], c ∈ (commands e.commandList).take e.commandCount) ∧
          (findCommandByString (groupsOf commands l) name = none ↔
            ∀ e ∈ as.foldl GroupAct.still [], ∀ c ∈ (commands e.commandList).take e.commandCount,
              equalNoCase c.commandString name = false)) :=
  ⟨removes_iff group l, fun h => ⟨_, GroupAct.foldl_act h, rfl, fun commands name =>
    findCommandByString_groupsOf commands _ name⟩⟩

/-- Two groups are registered and the first one is to be removed: the call does not return. -/
theorem first_of_two_not_removed : ¬ ∀ group l, Removes group l := by
  intro h
  have hone := (removes_iff_one 8 [⟨1, 8⟩, ⟨1, 16⟩]).mp (h 8 [⟨1, 8⟩, ⟨1, 16⟩])
  exact absurd hone (by decide)

end Qcc730.Qat
