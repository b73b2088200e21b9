import Mathlib.Tactic

/-! Linked lists.

    A list in memory is a start and a function that gives for each node the next one. `Path` says which nodes it
    leads through, and where it ends. -/

namespace Qcc730.Lib

variable {ν : Type*} {next next' : ν → Option ν} {p q : Option ν} {a : ν} {L M : List ν}

/-- `next` leads from `p` through the nodes of `L`, one after the other, to `q`. -/
def Path (next : ν → Option ν) : Option ν → List ν → Option ν → Prop
  | p, [], q => p = q
  | p, a :: L, q => p = some a ∧ Path next (next a) L q

namespace Path

@[simp] theorem nil_iff : Path next p [] q ↔ p = q := Iff.rfl

@[simp] theorem cons_iff : Path next p (a :: L) q ↔ p = some a ∧ Path next (next a) L q := Iff.rfl

theorem append_iff : Path next p (L ++ M) q ↔ ∃ r, Path next p L r ∧ Path next r M q := by
  induction L generalizing p with
  | nil => simp
  | cons a L ih => simp [ih, and_assoc]

theorem snoc_iff : Path next p (L ++ [a]) q ↔ Path next p L (some a) ∧ next a = q := by
  simp [append_iff]

theorem congr (h : Path next p L q) (heq : ∀ a ∈ L, next' a = next a) : Path next' p L q := by
  induction L generalizing p with
  | nil => exact h
  | cons a L ih =>
    obtain ⟨rfl, h⟩ := h
    refine ⟨rfl, ?_⟩
    rw [heq a List.mem_cons_self]
    exact ih h fun b hb => heq b (List.mem_cons_of_mem a hb)

/-- What is written into a node that is not on the path does not matter. -/
theorem update [DecidableEq ν] {v : Option ν} (h : Path next p L q) (ha : a ∉ L) :
    Path (Function.update next a v) p L q :=
  h.congr fun _ hc => Function.update_of_ne (ne_of_mem_of_not_mem hc ha) _ _

/-- A path to the end is the only one. -/
theorem unique (h : Path next p L none) (h' : Path next p M none) : L = M := by
  induction L generalizing p M with
  | nil =>
    cases M with
    | nil => rfl
    | cons b M => cases h.symm.trans h'.1
  | cons a L ih =>
    obtain ⟨rfl, h⟩ := h
    cases M with
    | nil => cases h'
    | cons b M =>
      obtain ⟨hab, h'⟩ := h'
      cases hab
      rw [ih h h']

/-- A path to the end goes through no node twice: it would never get there. -/
theorem nodup (h : Path next p L none) : L.Nodup := by
  induction L generalizing p with
  | nil => exact List.nodup_nil
  | cons a L ih =>
    obtain ⟨-, h⟩ := h
    refine List.nodup_cons.mpr ⟨fun ha => ?_, ih h⟩
    obtain ⟨L₁, L₂, rfl⟩ := List.append_of_mem ha
    obtain ⟨r, -, -, h₂⟩ := append_iff.mp h
    have := congrArg List.length (unique h h₂)
    simp at this
    omega

theorem head?_eq (h : Path next p L none) : p = L.head? := by
  cases L with
  | nil => exact h
  | cons a L => exact h.1

/-- A path through nodes none of which leads out of `S` stays in `S`. -/
theorem mem_of_closed {S : Set ν} {j : ν} (h : Path next p L (some j)) (hp : ∀ a, p = some a → a ∈ S)
    (hS : ∀ a ∈ S, ∀ b, next a = some b → b ∈ S) : j ∈ S := by
  induction L generalizing p with
  | nil => exact hp j h
  | cons a L ih =>
    obtain ⟨rfl, h⟩ := h
    exact ih h (hS a (hp a rfl))

/-- The nodes of a path are on a path of their own. -/
theorem to_mem (h : Path next p L q) (ha : a ∈ L) : ∃ K, Path next p K (some a) := by
  obtain ⟨K, M, rfl⟩ := List.append_of_mem ha
  obtain ⟨r, hK, rfl, -⟩ := append_iff.mp h
  exact ⟨K, hK⟩

section Insert

variable [DecidableEq ν] {A B : List ν} {z i : ν}

/-- A node is linked in behind `z`. -/
theorem insert (h : Path next p (A ++ z :: B) none) (hi : i ∉ A ++ z :: B) :
    Path (Function.update (Function.update next z (some i)) i (next z)) p (A ++ z :: i :: B) none := by
  have hnodup := h.nodup
  simp only [List.nodup_append, List.nodup_cons] at hnodup
  simp only [List.mem_append, List.mem_cons, not_or] at hi
  obtain ⟨r, hA, rfl, hB⟩ := append_iff.mp h
  have hzA : z ∉ A := fun hz => hnodup.2.2 z hz z List.mem_cons_self rfl
  refine append_iff.mpr ⟨some z, (hA.update hzA).update hi.1, rfl, ?_, ?_⟩
  · rw [Function.update_of_ne (Ne.symm hi.2.1), Function.update_self]
  · rw [Function.update_self]
    exact (hB.update hnodup.2.1.1).update hi.2.2

/-- A node is linked in at the end. -/
theorem append (h : Path next p (A ++ [z]) none) (hi : i ∉ A ++ [z]) (hnext : next i = none) :
    Path (Function.update next z (some i)) p (A ++ [z, i]) none := by
  have hz := (snoc_iff.mp h).2
  have := h.insert hi
  have hne : i ≠ z := fun heq => hi (by simp [heq])
  rwa [hz, Function.update_eq_self_iff.mpr (by rw [Function.update_of_ne hne, hnext])] at this

end Insert

end Path

/-! ### Lists with links in both directions -/

section Doubly

variable {prev : ν → Option ν} {first last : Option ν} {A B : List ν} {i : ν}

/-- The nodes of `L` in both directions. -/
def Doubly (next prev : ν → Option ν) (first last : Option ν) (L : List ν) : Prop :=
  Path next first L none ∧ Path prev last L.reverse none

namespace Doubly

theorem next_eq (h : Doubly next prev first last (A ++ i :: B)) : next i = B.head? := by
  obtain ⟨-, -, -, hB⟩ := Path.append_iff.mp h.1
  exact hB.head?_eq

theorem prev_eq (h : Doubly next prev first last (A ++ i :: B)) : prev i = A.getLast? := by
  have hp := h.2
  rw [List.reverse_append, List.reverse_cons, List.append_assoc, List.singleton_append] at hp
  obtain ⟨-, -, -, hA⟩ := Path.append_iff.mp hp
  rw [hA.head?_eq, List.head?_reverse]

theorem first_eq (h : Doubly next prev first last A) : first = A.head? := h.1.head?_eq

theorem last_eq (h : Doubly next prev first last A) : last = A.getLast? := by
  rw [h.2.head?_eq, List.head?_reverse]

end Doubly

variable [DecidableEq ν]

/-- The link of the node `z` is set to `v`; without a node, that of the list itself is meant. -/
def relink (next : ν → Option ν) (z v : Option ν) : ν → Option ν :=
  match z with
  | none => next
  | some z => Function.update next z v

/-- The same for the start `p` of the list. -/
def restart (p z v : Option ν) : Option ν :=
  match z with
  | none => v
  | some _ => p

/-- The node `i` is linked in between `A` and `B`. -/
theorem Path.link (h : Path next p (A ++ B) none) (hi : i ∉ A ++ B) :
    Path (relink (Function.update next i B.head?) A.getLast? (some i)) (restart p A.getLast? (some i)) (A ++ i :: B)
      none := by
  have hB : ∀ {r}, Path next r B none → Path (Function.update next i B.head?) B.head? B none := fun h => by
    rw [← h.head?_eq]
    exact h.update fun hmem => hi (List.mem_append_right A hmem)
  obtain rfl | ⟨A, z, rfl⟩ := A.eq_nil_or_concat
  · refine ⟨rfl, ?_⟩
    simp only [List.getLast?_nil, relink, Function.update_self]
    exact hB h
  · simp only [List.concat_eq_append, List.append_assoc, List.singleton_append] at h hi ⊢
    rw [List.getLast?_concat]
    have hnodup := h.nodup
    simp only [List.nodup_append, List.nodup_cons] at hnodup
    simp only [List.mem_append, List.mem_cons, not_or] at hi
    obtain ⟨r, hA, rfl, hB'⟩ := Path.append_iff.mp h
    have hzA : z ∉ A := fun hz => hnodup.2.2 z hz z List.mem_cons_self rfl
    refine Path.append_iff.mpr ⟨some z, (hA.update hi.1).update hzA, rfl, ?_, ?_⟩
    · simp [relink]
    · simp only [relink, Function.update_of_ne hi.2.1, Function.update_self]
      rw [← hB'.head?_eq]
      exact (hB'.update hi.2.2).update hnodup.2.1.1

/-- The node `i` is linked out. -/
theorem Path.unlink (h : Path next p (A ++ i :: B) none) :
    Path (Function.update (relink next A.getLast? (next i)) i none) (restart p A.getLast? (next i)) (A ++ B) none := by
  have hnodup := h.nodup
  obtain rfl | ⟨A, z, rfl⟩ := A.eq_nil_or_concat
  · exact h.2.update (List.nodup_cons.mp hnodup).1
  · simp only [List.concat_eq_append, List.append_assoc, List.singleton_append] at h hnodup ⊢
    rw [List.getLast?_concat]
    simp only [List.nodup_append, List.nodup_cons, List.mem_cons, not_or] at hnodup
    obtain ⟨r, hA, rfl, hz, hB⟩ := Path.append_iff.mp h
    have hzA : z ∉ A := fun hmem => hnodup.2.2 z hmem z (.inl rfl) rfl
    have hiA : i ∉ A := fun hmem => hnodup.2.2 i hmem i (.inr (.inl rfl)) rfl
    refine Path.append_iff.mpr ⟨some z, (hA.update hzA).update hiA, rfl, ?_⟩
    simp only [relink, Function.update_of_ne hnodup.2.1.1.1, Function.update_self]
    exact (hB.update hnodup.2.1.1.2).update hnodup.2.1.2.1

namespace Doubly

/-- A node is linked in between `A` and `B`. -/
theorem insert (h : Doubly next prev first last (A ++ B)) (hi : i ∉ A ++ B) :
    Doubly (relink (Function.update next i B.head?) A.getLast? (some i))
      (relink (Function.update prev i A.getLast?) B.head? (some i)) (restart first A.getLast? (some i))
      (restart last B.head? (some i)) (A ++ i :: B) := by
  refine ⟨h.1.link hi, ?_⟩
  have hp := h.2
  rw [List.reverse_append] at hp
  have hi' : i ∉ B.reverse ++ A.reverse := by
    rw [← List.reverse_append]
    exact fun hmem => hi (List.mem_reverse.mp hmem)
  have := hp.link hi'
  rwa [List.head?_reverse, List.getLast?_reverse, ← List.singleton_append, ← List.append_assoc,
    ← List.reverse_cons, ← List.reverse_append] at this

/-- A node is linked out. -/
theorem remove (h : Doubly next prev first last (A ++ i :: B)) :
    Doubly (Function.update (relink next (prev i) (next i)) i none)
      (Function.update (relink prev (next i) (prev i)) i none) (restart first (prev i) (next i))
      (restart last (next i) (prev i)) (A ++ B) := by
  have hp := h.2
  rw [List.reverse_append, List.reverse_cons, List.append_assoc, List.singleton_append] at hp
  refine ⟨?_, ?_⟩
  · rw [h.prev_eq]
    exact h.1.unlink
  · have := hp.unlink
    rwa [List.getLast?_reverse, ← h.next_eq, ← List.reverse_append] at this

end Doubly

end Doubly

end Qcc730.Lib
