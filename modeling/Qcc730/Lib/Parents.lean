import Mathlib.Tactic
import Mathlib.Data.Set.Card

/-! Trees by their parent links.

    A tree in memory can be given by a function that gives for each node the one above it, and a node without one,
    the root. The nodes of the tree are those that lead up to the root, and the subtree of a node is what leads up
    to it. -/

namespace Qcc730.Lib

variable {ν : Type*} {parent parent' : ν → Option ν} {root a b c g p x : ν}

/-- From `a` the links lead up to `b`, or `a` is `b`. -/
def Below (parent : ν → Option ν) (a b : ν) : Prop := Relation.ReflTransGen (fun x y => parent x = some y) a b

namespace Below

theorem refl (a : ν) : Below parent a a := Relation.ReflTransGen.refl

theorem trans (h : Below parent a b) (h' : Below parent b c) : Below parent a c := Relation.ReflTransGen.trans h h'

theorem up (h : parent a = some p) (hp : Below parent p b) : Below parent a b := Relation.ReflTransGen.head h hp

theorem of_parent (h : parent a = some p) : Below parent a p := up h (refl p)

/-- The first link. -/
theorem iff_up : Below parent a b ↔ a = b ∨ ∃ p, parent a = some p ∧ Below parent p b :=
  Relation.ReflTransGen.cases_head_iff

/-- The last link. -/
theorem iff_child : Below parent a b ↔ a = b ∨ ∃ c, parent c = some b ∧ Below parent a c := by
  rw [Below, Relation.ReflTransGen.cases_tail_iff]
  exact or_congr eq_comm ⟨fun ⟨c, h, hc⟩ => ⟨c, hc, h⟩, fun ⟨c, hc, h⟩ => ⟨c, h, hc⟩⟩

theorem iff_of_parent (h : parent a = some p) : Below parent a b ↔ a = b ∨ Below parent p b := by
  rw [iff_up]
  simp [h]

/-- What a node leads up to is one line. -/
theorem comparable (h : Below parent a b) (h' : Below parent a c) : Below parent b c ∨ Below parent c b :=
  Relation.ReflTransGen.total_of_right_unique (fun _ _ _ hx hy => Option.some.inj (hx.symm.trans hy)) h h'

theorem mono (h : Below parent' a b) (hp : ∀ x y, parent' x = some y → parent x = some y) : Below parent a b :=
  Relation.ReflTransGen.mono hp _ _ h

/-- Only the links on the way up matter. -/
theorem congr (h : Below parent a b) (heq : ∀ x, Below parent a x → parent' x = parent x) : Below parent' a b := by
  induction h with
  | refl => exact refl a
  | @tail b c hab hbc ih =>
    refine ih.trans (of_parent ?_)
    rw [heq b hab]
    exact hbc

end Below

/-- There is nothing above the root, and the nodes below it are finitely many. -/
structure Rooted (parent : ν → Option ν) (root : ν) : Prop where
  top : parent root = none
  finite : {a | Below parent a root}.Finite

namespace Rooted

theorem eq_root (h : Rooted parent root) (hr : Below parent root a) : a = root := by
  rcases Below.iff_up.mp hr with rfl | ⟨p, hp, -⟩
  · rfl
  · rw [h.top] at hp
    exact nomatch hp

/-- What a node leads up to is in the tree. -/
theorem up (h : Rooted parent root) (ha : Below parent a root) (hx : Below parent a x) : Below parent x root := by
  rcases ha.comparable hx with hr | hr
  · rw [h.eq_root hr]
    exact Below.refl root
  · exact hr

theorem parent_below (h : Rooted parent root) (ha : Below parent a root) (hp : parent a = some p) :
    Below parent p root := h.up ha (Below.of_parent hp)

/-- A node has a parent unless it is the root. -/
theorem exists_parent (ha : Below parent a root) (hne : a ≠ root) : ∃ p, parent a = some p := by
  rcases Below.iff_up.mp ha with rfl | ⟨p, hp, -⟩
  · exact absurd rfl hne
  · exact ⟨p, hp⟩

/-- The parent of a node is not in its subtree: the way up would go round for ever. -/
theorem not_below_of_parent (h : Rooted parent root) (hg : Below parent g root) (hp : parent g = some p) :
    ¬ Below parent p g := by
  intro hcycle
  -- whatever `g` leads up to leads up to `g`
  have hall : ∀ x, Below parent g x → Below parent x g := by
    intro x hx
    induction hx with
    | refl => exact Below.refl g
    | @tail x y hgx hxy ih =>
      rcases (Below.iff_of_parent hxy).mp ih with rfl | hy
      · obtain rfl : p = y := Option.some.inj (hp.symm.trans hxy)
        exact hcycle
      · exact hy
  obtain rfl := h.eq_root (hall root hg)
  rw [h.top] at hp
  exact nomatch hp

/-- The subtrees of two children have nothing in common. -/
theorem children_apart (h : Rooted parent root) (hg : Below parent g root) (hb : parent b = some g)
    (hc : parent c = some g) (hne : b ≠ c) (ha : Below parent a b) : ¬ Below parent a c := by
  intro ha'
  rcases ha.comparable ha' with hbc | hcb
  · rcases (Below.iff_of_parent hb).mp hbc with heq | hgc
    · exact hne heq
    · exact h.not_below_of_parent (Below.up hc hg) hc hgc
  · rcases (Below.iff_of_parent hc).mp hcb with heq | hgb
    · exact hne heq.symm
    · exact h.not_below_of_parent (Below.up hb hg) hb hgb

/-- From the children to the parent. -/
theorem induction (h : Rooted parent root) {P : ν → Prop}
    (hstep : ∀ g, Below parent g root → (∀ c, parent c = some g → P c) → P g) (hg : Below parent g root) : P g := by
  induction hn : {a | Below parent a g}.ncard using Nat.strong_induction_on generalizing g with
  | _ n ih =>
    refine hstep g hg fun c hc => ?_
    have hfinite : {a | Below parent a g}.Finite := h.finite.subset fun a ha => Below.trans ha hg
    have hlt : {a | Below parent a c} ⊂ {a | Below parent a g} := by
      refine ⟨fun a ha => Below.trans ha (Below.of_parent hc), fun hsub => ?_⟩
      exact h.not_below_of_parent (Below.up hc hg) hc (hsub (Below.refl g))
    exact ih _ (hn ▸ Set.ncard_lt_ncard hlt hfinite) (Below.up hc hg) rfl

section Insert

variable [DecidableEq ν]

/-- A leaf is added: it is below the root with the others. -/
theorem below_insert_iff (h : Rooted parent root) (ha : ¬ Below parent a root) (hleaf : ∀ x, parent x ≠ some a)
    (hp : Below parent p root) : Below (Function.update parent a (some p)) x root ↔ x = a ∨ Below parent x root := by
  have hkeep : ∀ {y}, Below parent y root → Below (Function.update parent a (some p)) y root := by
    intro y hy
    refine hy.congr fun z hz => Function.update_of_ne ?_ _ _
    rintro rfl
    exact ha (h.up hy hz)
  constructor
  · intro hx
    induction hx using Relation.ReflTransGen.head_induction_on with
    | refl => exact .inr (Below.refl root)
    | @head x y hxy _ ih =>
      by_cases hxa : x = a
      · exact .inl hxa
      · rw [Function.update_of_ne hxa] at hxy
        rcases ih with rfl | hy
        · exact absurd hxy (hleaf x)
        · exact .inr (Below.up hxy hy)
  · rintro (rfl | hx)
    · exact Below.up (Function.update_self x (some p) parent) (hkeep hp)
    · exact hkeep hx

theorem insert (h : Rooted parent root) (ha : ¬ Below parent a root) (hleaf : ∀ x, parent x ≠ some a)
    (hp : Below parent p root) : Rooted (Function.update parent a (some p)) root := by
  refine ⟨?_, ?_⟩
  · rw [Function.update_of_ne]
    · exact h.top
    · rintro rfl
      exact ha (Below.refl _)
  · refine (h.finite.insert a).subset fun x hx => ?_
    exact (h.below_insert_iff ha hleaf hp).mp hx

end Insert

/-- A subtree is cut off: what is left is below the root. -/
theorem below_cut_iff (h : Rooted parent root) (hg : ¬ Below parent root g)
    (hin : ∀ x, Below parent x g → parent' x = none) (hout : ∀ x, ¬ Below parent x g → parent' x = parent x) :
    Below parent' x root ↔ Below parent x root ∧ ¬ Below parent x g := by
  constructor
  · intro hx
    refine ⟨hx.mono fun y z hyz => ?_, fun hxg => ?_⟩
    · by_cases hy : Below parent y g
      · rw [hin y hy] at hyz
        exact nomatch hyz
      · rwa [hout y hy] at hyz
    · rcases Below.iff_up.mp hx with rfl | ⟨p, hp, -⟩
      · exact hg hxg
      · rw [hin x hxg] at hp
        exact nomatch hp
  · rintro ⟨hx, hxg⟩
    exact hx.congr fun y hy => hout y fun hyg => hxg (hy.trans hyg)

theorem cut (h : Rooted parent root) (hg : ¬ Below parent root g) (hin : ∀ x, Below parent x g → parent' x = none)
    (hout : ∀ x, ¬ Below parent x g → parent' x = parent x) : Rooted parent' root :=
  ⟨(hout root hg).trans h.top, h.finite.subset fun _ hx => ((h.below_cut_iff hg hin hout).mp hx).1⟩

end Rooted

end Qcc730.Lib
