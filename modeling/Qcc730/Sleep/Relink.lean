import Qcc730.Sleep.Wake

/-! What an operation for one sleeper does to the others.

    An entry that is registered again is linked to its new place without being linked out of its old one, and what
    follows it may be lost. -/

namespace Qcc730.Sleep

open Lib

namespace Soc

variable {s s' : Soc} {L M A B : List ℕ} {i j k : ℕ}

/-- The links lead from the head to the entry. -/
def InList (s : Soc) (i : ℕ) : Prop := ∃ K, Path s.next s.slpLstHead K (some i)

/-- After the call every entry that is not `own` and whose deadline is in the future is in the list as before. -/
def KeepsOthers (s : Soc) (own : ℕ → Prop) (r : Option Soc) : Prop :=
  ∃ s', r = some s' ∧
    ∀ j, s.InList j → ¬ own j → s.now < s.deadline j → s'.InList j ∧ s'.deadline j = s.deadline j

/-- The links of a list lead to entries of it. -/
theorem next_mem {next : ℕ → Option ℕ} {r : Option ℕ} {b : ℕ} (h : Path next r L none) (hj : j ∈ L)
    (hb : next j = some b) : b ∈ L := by
  obtain ⟨A, B, rfl⟩ := List.append_of_mem hj
  obtain ⟨-, -, -, hB⟩ := Path.append_iff.mp h
  exact List.mem_append_right A (List.mem_cons_of_mem j (List.mem_of_mem_head? (hB.head?_eq ▸ hb)))

theorem Lists.inList (h : s.Lists L) : s.InList j ↔ j ∈ L := by
  constructor
  · rintro ⟨K, hK⟩
    refine Path.mem_of_closed (S := {a | a ∈ L}) hK (fun a ha => ?_) fun a ha b hb => next_mem h ha hb
    exact List.mem_of_mem_head? (h.head?_eq ▸ ha)
  · exact fun hj => Path.to_mem h hj

/-! ### Relinking -/

/-- An entry goes to the front of the list, over the time `t`. -/
def Forward (f : ℕ → ℕ) (k : ℕ) (A : List ℕ) (t : ℕ) : Prop := f k < 1 ∨ (t < f k ∧ 0 < t) ∨ ∃ a ∈ A, t < f a

/-- The way from the head `k` to `i`. -/
theorem Lists.segment (h : s.Lists (k :: A ++ i :: B)) :
    Path s.next (some k) (k :: A) (some i) ∧ i ∉ k :: A ∧ (k :: A).Nodup := by
  have hnodup := List.nodup_append.mp h.nodup
  obtain ⟨r, hA, rfl, -⟩ := Path.append_iff.mp h
  exact ⟨⟨rfl, hA.2⟩, fun hi => hnodup.2.2 i hi i List.mem_cons_self rfl, hnodup.1⟩

/-- A link from an entry before `i` leads to one before `i`, or to `i`. -/
theorem segment_next {next : ℕ → Option ℕ} {b : ℕ} (h : Path next (some k) L (some i)) (hj : j ∈ L)
    (hb : next j = some b) : b = i ∨ b ∈ L := by
  obtain ⟨X, Y, rfl⟩ := List.append_of_mem hj
  obtain ⟨-, -, -, hY⟩ := Path.append_iff.mp h
  rw [hb] at hY
  cases Y with
  | nil => exact .inl (Option.some.inj hY)
  | cons c Y => exact .inr (by simp [Option.some.inj hY.1])

/-! What is reached when the entry `i` is linked to its new place and not linked out of its old one. -/

section Reach

variable {next : ℕ → Option ℕ} {r : Option ℕ} {z : ℕ}

/-- The entry is the head: the way up to its old place leads back to it. -/
theorem reach_front (h : Path next (some k) L (some i)) (hi : i ∉ L) (hk : k ∈ L) :
    (∃ K, Path (Function.update next i (some k)) (some i) K (some j)) ↔ j = i ∨ j ∈ L := by
  constructor
  · rintro ⟨K, hK⟩
    refine Path.mem_of_closed (S := {j | j = i ∨ j ∈ L}) hK (fun a ha => ?_) fun a ha b hb => ?_
    · exact .inl (Option.some.inj ha).symm
    · obtain rfl | hne := eq_or_ne a i
      · rw [Function.update_self] at hb
        exact .inr (Option.some.inj hb ▸ hk)
      · rw [Function.update_of_ne hne] at hb
        exact segment_next h (ha.resolve_left hne) hb
  · rintro (rfl | hj)
    · exact ⟨[], rfl⟩
    · obtain ⟨K, hK⟩ := Path.to_mem (h.update (v := some k) hi) hj
      exact ⟨i :: K, rfl, by rwa [Function.update_self]⟩

/-- The entry is behind `z`: the way goes from `z` to it and back, and from its old place to it again. -/
theorem reach_detour (h : Path next (some k) (A ++ z :: B) (some i)) (hi : i ∉ A ++ z :: B)
    (hnodup : (A ++ z :: B).Nodup) (hk : k ∈ A ++ z :: B) :
    (∃ K, Path (Function.update (Function.update next z (some i)) i (next z)) (some k) K (some j)) ↔
      j = i ∨ j ∈ A ++ z :: B := by
  have hseg := h
  have hz : z ∈ A ++ z :: B := List.mem_append_right A List.mem_cons_self
  simp only [List.nodup_append, List.nodup_cons] at hnodup
  simp only [List.mem_append, List.mem_cons, not_or] at hi
  obtain ⟨r, hA, rfl, hB⟩ := Path.append_iff.mp h
  have hzA : z ∉ A := fun hmem => hnodup.2.2 z hmem z List.mem_cons_self rfl
  have hto : Path (Function.update (Function.update next z (some i)) i (next z)) (some k) A (some z) :=
    (hA.update hzA).update hi.1
  have hfrom : Path (Function.update (Function.update next z (some i)) i (next z)) (next z) B (some i) :=
    (hB.update hnodup.2.1.1).update hi.2.2
  have hzi : Function.update (Function.update next z (some i)) i (next z) z = some i := by
    rw [Function.update_of_ne (Ne.symm hi.2.1), Function.update_self]
  have htoi : Path (Function.update (Function.update next z (some i)) i (next z)) (some k) (A ++ [z]) (some i) :=
    Path.snoc_iff.mpr ⟨hto, hzi⟩
  constructor
  · rintro ⟨K, hK⟩
    refine Path.mem_of_closed (S := {j | j = i ∨ j ∈ A ++ z :: B}) hK (fun a ha => ?_) fun a ha b hb => ?_
    · exact .inr (Option.some.inj ha ▸ hk)
    · obtain rfl | hne := eq_or_ne a i
      · rw [Function.update_self] at hb
        exact segment_next hseg hz hb
      · rw [Function.update_of_ne hne] at hb
        obtain rfl | hnz := eq_or_ne a z
        · rw [Function.update_self] at hb
          exact .inl (Option.some.inj hb).symm
        · rw [Function.update_of_ne hnz] at hb
          exact segment_next hseg (ha.resolve_left hne) hb
  · rintro (rfl | hj)
    · exact ⟨_, htoi⟩
    · obtain hj | hj := List.mem_append.mp hj
      · exact Path.to_mem hto hj
      · obtain rfl | hj := List.mem_cons.mp hj
        · exact ⟨_, hto⟩
        · obtain ⟨K, hK⟩ := Path.to_mem hfrom hj
          exact ⟨(A ++ [z]) ++ i :: K, Path.append_iff.mpr ⟨some i, htoi, rfl, by rwa [Function.update_self]⟩⟩

/-- The last entry leads back into the list. -/
theorem reach_ring (h : Path next r (A ++ [z]) none) (hnodup : (A ++ [z]).Nodup) (hi : i ∈ A ++ [z]) :
    (∃ K, Path (Function.update next z (some i)) r K (some j)) ↔ j ∈ A ++ [z] := by
  constructor
  · rintro ⟨K, hK⟩
    refine Path.mem_of_closed (S := {j | j ∈ A ++ [z]}) hK (fun a ha => ?_) fun a ha b hb => ?_
    · exact List.mem_of_mem_head? (h.head?_eq ▸ ha)
    · obtain rfl | hne := eq_or_ne a z
      · rw [Function.update_self] at hb
        exact Option.some.inj hb ▸ hi
      · rw [Function.update_of_ne hne] at hb
        exact next_mem h ha hb
  · intro hj
    have hzA : z ∉ A := fun hmem => (List.nodup_append.mp hnodup).2.2 z hmem z List.mem_cons_self rfl
    have hto := (Path.snoc_iff.mp h).1.update (v := some i) hzA
    obtain hj | hj := List.mem_append.mp hj
    · exact Path.to_mem hto hj
    · rw [List.mem_singleton.mp hj]
      exact ⟨A, hto⟩

end Reach

theorem InList.arm : s.arm.InList j ↔ s.InList j := by
  rw [InList, InList, arm_next.1, arm_next.2]

theorem append_split {X Y P Q : List ℕ} {c : ℕ} (h : X ++ Y = P ++ c :: Q) (hc : c ∉ X) :
    ∃ R, P = X ++ R ∧ Y = R ++ c :: Q := by
  obtain ⟨R, hP, hY⟩ | ⟨R, hX, hQ⟩ := List.append_eq_append_iff.mp h
  · exact ⟨R, hP, hY⟩
  · cases R with
    | nil => exact ⟨[], by simpa using hX.symm, by simpa using hQ.symm⟩
    | cons d R =>
      rw [List.cons_append] at hQ
      obtain ⟨rfl, -⟩ := List.cons.inj hQ
      exact absurd (by simp [hX]) hc

/-- An entry behind the first is in the tail. -/
theorem mem_tail_of_ne {X Y : List ℕ} {z : ℕ} (h : k :: L = X ++ z :: Y) (hj : j ∈ X ++ [z]) (hne : j ≠ k) :
    j ∈ (X ++ [z]).tail := by
  cases X with
  | nil =>
    obtain ⟨rfl, -⟩ := List.cons.inj h
    exact absurd (List.mem_singleton.mp hj) hne
  | cons d X =>
    rw [List.cons_append] at h hj
    obtain ⟨rfl, -⟩ := List.cons.inj h
    exact (List.mem_cons.mp hj).resolve_left hne

/-- Where an entry before `i` has more time left, the loop stops before that entry. -/
theorem place_forward (h : s.Lists (k :: A ++ i :: B)) (hlen : (k :: A ++ i :: B).length ≤ socpmSlpLstSz)
    (hc : ∃ a ∈ A, s.slpTime i < s.slpTime a) :
    ∃ X z Y, k :: A = X ++ z :: Y ∧ s.place i socpmSlpLstSz k = some (z, true) := by
  obtain ⟨c, hc, hlt⟩ := hc
  obtain ⟨A', z, B', hL, hA', -, hplace⟩ := place_eq (i := i) h.2 (Nat.lt_of_succ_le hlen)
  have hck : c ≠ k := ne_of_mem_of_not_mem hc (List.nodup_cons.mp h.segment.2.2).1
  have hcA' : c ∉ A' ++ [z] := fun hmem => absurd (hA' c (mem_tail_of_ne hL hmem hck)) (not_le.mpr hlt)
  obtain ⟨X, Y, hXY⟩ := List.append_of_mem (List.mem_cons_of_mem k hc)
  obtain ⟨R, hX, hB⟩ := append_split (X := A' ++ [z]) (Y := B') (P := X) (Q := Y ++ i :: B) (c := c) (by
    have hL : k :: A ++ i :: B = A' ++ z :: B' := hL
    rw [List.append_assoc, List.singleton_append, ← hL, hXY]
    simp) hcA'
  refine ⟨A', z, R ++ c :: Y, ?_, ?_⟩
  · rw [hXY, hX]
    simp
  · rw [hplace, hB]
    simp

/-- An entry that goes forward cuts off what follows it. -/
theorem lstReorder_forward (h : s.Lists (k :: A ++ i :: B)) (hlen : (k :: A ++ i :: B).length ≤ socpmSlpLstSz)
    (hf : Forward s.slpTime k A (s.slpTime i)) :
    ∃ s', s.lstReorder i = some s' ∧ s.SameData s' ∧ ∀ j, s'.InList j ↔ j = i ∨ j ∈ k :: A := by
  obtain ⟨hseg, hi, hnodup⟩ := h.segment
  have hhead : s.slpLstHead = some k := h.1
  have hki : k ≠ i := fun heq => hi (by simp [heq])
  rw [lstReorder]
  simp only [hhead, Option.some.injEq, if_neg hki]
  split
  · cases A with
    | nil =>
      have hnext : s.next k = some i := hseg.2
      simp only [hnext, if_true]
      refine ⟨_, rfl, SameData.arm ⟨_, _, _, _, rfl⟩, fun j => ?_⟩
      have hlists : ({ (s.setNext k none).setNext i (some k) with slpLstHead := some i } : Soc).Lists [i, k] := by
        refine ⟨rfl, ?_, ?_⟩
        · simp [setNext]
        · simp [setNext, hki]
      rw [InList.arm, hlists.inList]
      simp
    | cons c A =>
      have hnext : s.next k ≠ some i := by
        rw [hseg.2.1]
        exact fun heq => hi (by simp [Option.some.inj heq])
      simp only [if_neg hnext]
      refine ⟨_, rfl, SameData.arm ⟨_, _, _, _, rfl⟩, fun j => ?_⟩
      rw [InList.arm]
      exact reach_front hseg hi List.mem_cons_self
  · rename_i hfirst
    have hc : ∃ a ∈ A, s.slpTime i < s.slpTime a := by
      obtain hf | hf | hf := hf
      · exact absurd (.inl ⟨hf, hki⟩) hfirst
      · exact absurd (.inr hf) hfirst
      · exact hf
    obtain ⟨X, z, Y, hkA, hplace⟩ := place_forward h hlen hc
    simp only [hplace]
    refine ⟨_, rfl, ⟨_, _, _, _, rfl⟩, fun j => ?_⟩
    change (∃ K, Path (Function.update (Function.update s.next z (some i)) i (s.next z)) s.slpLstHead K (some j)) ↔ _
    have hk : k ∈ X ++ z :: Y := hkA ▸ List.mem_cons_self
    rw [hkA] at hseg hi hnodup ⊢
    rw [hhead]
    exact reach_detour hseg hi hnodup hk

/-- The loop passes an entry that does not go forward. -/
theorem place_passes {X Y : List ℕ} {z : ℕ} (h : s.Lists (k :: A ++ i :: B)) (hf : ∀ a ∈ A, s.slpTime a ≤ s.slpTime i)
    (hL : k :: A ++ i :: B = X ++ z :: Y) (hY : ∀ b ∈ Y.head?, s.slpTime i < s.slpTime b) :
    ∃ P, X ++ [z] = k :: A ++ i :: P ∧ B = P ++ Y := by
  have happ : (k :: A ++ [i]) ++ B = (X ++ [z]) ++ Y := by simpa using hL
  obtain ⟨P, hP, hB⟩ | ⟨R, hX, hR⟩ := List.append_eq_append_iff.mp happ
  · exact ⟨P, by simpa using hP, hB⟩
  · cases R with
    | nil => exact ⟨[], by simpa using hX.symm, by simpa using hR.symm⟩
    | cons b R =>
      have hlt := hY b (by simp [hR])
      have hmem : b ∈ k :: A ++ [i] := by simp [hX]
      have hk : k ∈ X ++ [z] := by
        cases X with
        | nil =>
          rw [List.nil_append, List.singleton_append, List.cons_append] at hX
          simp [(List.cons.inj hX).1]
        | cons d X =>
          rw [List.cons_append, List.cons_append, List.cons_append] at hX
          simp [(List.cons.inj hX).1]
      have hnodup : ((X ++ [z]) ++ b :: R).Nodup := by
        rw [← hX]
        refine List.Nodup.sublist ?_ h.nodup
        exact (List.Sublist.refl _).append (by simp)
      have hbk : b ≠ k := fun heq => (List.nodup_append.mp hnodup).2.2 k hk b List.mem_cons_self heq.symm
      obtain hb | rfl : b ∈ A ∨ b = i := by simpa [hbk] using hmem
      · exact absurd hlt (not_lt.mpr (hf b hb))
      · exact absurd hlt (lt_irrefl _)

/-- Linked in behind the last entry that it passes, an entry takes these out. -/
theorem Lists.relinked {X P : List ℕ} {z : ℕ} (h : s.Lists (A ++ z :: B)) (hP : A ++ [z] = X ++ i :: P) :
    ((s.setNext z (some i)).setNext i (s.next z)).Lists (X ++ i :: B) := by
  have hL : A ++ z :: B = X ++ (i :: P ++ B) := by rw [List.append_cons, hP, List.append_assoc]
  have hz : z ∈ i :: P := by
    have := congrArg List.getLast? hP
    rw [List.getLast?_append_of_ne_nil _ (by simp), List.getLast?_append_of_ne_nil _ (by simp)] at this
    exact List.mem_of_getLast? this.symm
  have hnodup := h.nodup
  obtain ⟨r, -, rfl, htail⟩ := Path.append_iff.mp h
  rw [Lists, hL] at h
  rw [hL] at hnodup
  obtain ⟨r, hX, rfl, -⟩ := Path.append_iff.mp h
  obtain ⟨-, hnodup', hapart⟩ := List.nodup_append.mp hnodup
  have hapart' := (List.nodup_append.mp hnodup').2.2
  have hzX : z ∉ X := fun hmem => hapart z hmem z (List.mem_append_left _ hz) rfl
  have hiX : i ∉ X := fun hmem => hapart i hmem i List.mem_cons_self rfl
  have hzB : z ∉ B := fun hmem => hapart' z hz z hmem rfl
  have hiB : i ∉ B := fun hmem => hapart' i List.mem_cons_self i hmem rfl
  refine Path.append_iff.mpr ⟨some i, (hX.update hzX).update hiX, rfl, ?_⟩
  change Path (Function.update (Function.update s.next z (some i)) i (s.next z))
    (Function.update (Function.update s.next z (some i)) i (s.next z) i) B none
  rw [Function.update_self]
  exact (htail.update hzB).update hiB

theorem dropWhile_above {f : ℕ → ℕ} {t q : ℕ} {P Q : List ℕ} (hP : ∀ b ∈ P, f b ≤ t) (hq : t < f q) :
    ((P ++ q :: Q).dropWhile fun b => f b ≤ t) = q :: Q := by
  rw [List.dropWhile_append_of_pos (by simpa using hP), List.dropWhile_cons_of_neg (by simpa using hq)]

/-- An entry that goes back cuts off what it passes, unless it goes to the end. -/
theorem lstReorder_back (h : s.Lists (k :: A ++ i :: B)) (hlen : (k :: A ++ i :: B).length ≤ socpmSlpLstSz)
    (hf : ¬ Forward s.slpTime k A (s.slpTime i)) :
    ∃ s', s.lstReorder i = some s' ∧ s.SameData s' ∧ (∀ j, s'.InList j → j ∈ k :: A ++ i :: B) ∧
      ((∀ b ∈ B, s.slpTime b ≤ s.slpTime i) → ∀ j ∈ k :: A ++ i :: B, s'.InList j) ∧
      ∀ P q Q, B = P ++ q :: Q → (∀ b ∈ P, s.slpTime b ≤ s.slpTime i) → s.slpTime i < s.slpTime q →
        ∀ j, s'.InList j ↔ j ∈ k :: A ++ i :: q :: Q := by
  have hhead : s.slpLstHead = some k := h.1
  have hki : k ≠ i := fun heq => h.segment.2.1 (by simp [heq])
  simp only [Forward, not_or, not_and, not_exists, not_lt] at hf
  have hfirst : ¬ ((s.slpTime k < 1 ∧ k ≠ i) ∨ (s.slpTime k > s.slpTime i ∧ s.slpTime i > 0)) := by
    rintro (h | h)
    · omega
    · exact absurd h.2 (not_lt.mpr (hf.2.1 h.1))
  obtain ⟨A', z, B', hL, hA', hB', hplace⟩ := place_eq (i := i) h.2 (Nat.lt_of_succ_le hlen)
  have hL : k :: A ++ i :: B = A' ++ z :: B' := hL
  obtain ⟨P, hP, hB⟩ := place_passes h hf.2.2 hL hB'
  have hPle : ∀ b ∈ P, s.slpTime b ≤ s.slpTime i := fun b hb => hA' b (by simp [hP, hb])
  rw [lstReorder]
  simp only [hhead, Option.some.injEq, if_neg hki, if_neg hfirst, hplace]
  cases B' with
  | nil =>
    rw [List.append_nil] at hB
    subst hB
    have hring : ∀ j, (s.setNext z (some i)).InList j ↔ j ∈ k :: A ++ i :: B := by
      intro j
      have hpath := h
      have hnodup := h.nodup
      have hi : i ∈ k :: A ++ i :: B := by simp
      rw [Lists, hL] at hpath
      rw [hL] at hnodup hi ⊢
      exact reach_ring hpath hnodup hi
    refine ⟨_, rfl, SameData.arm ?_, fun j hj => ?_, fun _ j hj => ?_, ?_⟩
    · split
      · exact ⟨_, _, _, _, rfl⟩
      · exact ⟨_, _, _, _, rfl⟩
    · rw [InList.arm] at hj
      split at hj
      · exact (hring j).mp hj
      · exact h.inList.mp hj
    · rw [InList.arm]
      split
      · exact (hring j).mpr hj
      · exact h.inList.mpr hj
    · intro P q Q hB _ hq
      exact absurd (hPle q (by simp [hB])) (not_le.mpr hq)
  | cons b B' =>
    have hb := hB' b rfl
    have hin : ∀ P' q Q, B = P' ++ q :: Q → (∀ b ∈ P', s.slpTime b ≤ s.slpTime i) → s.slpTime i < s.slpTime q →
        ∀ j, ((s.setNext z (some i)).setNext i (s.next z)).InList j ↔ j ∈ k :: A ++ i :: q :: Q := by
      intro P' q Q hB' hP' hq j
      rw [← dropWhile_above hP' hq, ← hB', hB, dropWhile_above hPle hb]
      rw [hL] at h
      exact (h.relinked hP).inList
    refine ⟨_, rfl, ⟨_, _, _, _, rfl⟩, fun j hj => ?_, fun hall => ?_, hin⟩
    · rw [hin P b B' hB hPle hb] at hj
      rw [hB]
      simp only [List.mem_append, List.mem_cons] at hj ⊢
      tauto
    · exact absurd (hall b (by simp [hB])) (not_le.mpr hb)

/-! ### Registration -/

/-- The condition for an entry `i` of the list `L` that is registered for the time `t`. If it goes forward, all that
    follows it is overdue; if it goes back before an entry `q`, all that it passes is. -/
def Relinks (s : Soc) (L : List ℕ) (i t : ℕ) : Prop :=
  ∀ k A B, L = k :: A ++ i :: B →
    (Forward s.left k A t → ∀ b ∈ B, s.Overdue b) ∧
    (¬ Forward s.left k A t → ∀ P q Q, B = P ++ q :: Q → (∀ b ∈ P, s.left b ≤ t) → t < s.left q →
      ∀ b ∈ P, s.Overdue b)

theorem SameData.deadline (h : s.SameData s') : s'.deadline j = s.deadline j := by
  obtain ⟨_, _, _, _, rfl⟩ := h
  rfl

/-- With the same deadlines it comes to who is in the list. -/
theorem keepsOthers_iff {own : ℕ → Prop} (hl : s.Lists L) (hdeadline : ∀ j, ¬ own j → s'.deadline j = s.deadline j) :
    s.KeepsOthers own (some s') ↔ ∀ j ∈ L, ¬ own j → ¬ s.Overdue j → s'.InList j := by
  constructor
  · rintro ⟨x, hx, h⟩ j hj hown ho
    cases hx
    exact (h j (hl.inList.mpr hj) hown (not_le.mp ho)).1
  · refine fun h => ⟨s', rfl, fun j hj hown ho => ⟨?_, hdeadline j hown⟩⟩
    exact h j (hl.inList.mp hj) hown (not_le.mpr ho)

theorem not_keepsOthers_none {own : ℕ → Prop} : ¬ s.KeepsOthers own none := by
  rintro ⟨_, h, -⟩
  cases h

/-- An entry that is not linked, or the head, takes nothing away. -/
theorem lstReorder_keeps (hl : s.Lists L) (hlen : L.length ≤ socpmSlpLstSz)
    (hi : i ∉ L ∧ s.next i = none ∨ s.slpLstHead = some i) :
    ∃ s', s.lstReorder i = some s' ∧ s.SameData s' ∧ (∀ j, s'.InList j → j = i ∨ j ∈ L) ∧
      ∀ j ∈ L, j ≠ i → s'.InList j := by
  obtain ⟨hiL, hnext⟩ | hhead := hi
  · obtain ⟨s', A, B, hs', hd, rfl, -, hlists, -⟩ := lstReorder_fresh hl hiL hnext hlen
    refine ⟨s', hs', hd, ?_⟩
    obtain hlists | ⟨hlists, -⟩ := hlists
    · simp only [hlists.inList, List.mem_append, List.mem_cons]
      tauto
    · simp only [hlists.inList]
      tauto
  · cases L with
    | nil => cases hhead.symm.trans hl
    | cons k L =>
      obtain rfl : i = k := Option.some.inj (hhead.symm.trans hl.1)
      have hiL : i ∉ L := (List.nodup_cons.mp hl.nodup).1
      obtain ⟨hl₁, hd₁, hnext, -⟩ := hl.listSearch
      obtain ⟨s', A, B, hs', hd, rfl, -, hlists, -⟩ := lstReorder_fresh hl₁ hiL hnext (Nat.le_of_succ_le hlen)
      refine ⟨s', (lstReorder_head hl).trans hs', hd₁.trans hd, ?_⟩
      obtain hlists | ⟨hlists, -⟩ := hlists
      · simp only [hlists.inList, List.mem_append, List.mem_cons]
        tauto
      · simp only [hlists.inList, List.mem_cons, List.mem_append]
        tauto

/-- No other entry gets into the list. -/
theorem lstReorder_within (hl : s.Lists L) (hlen : L.length ≤ socpmSlpLstSz) (hnext : i ∉ L → s.next i = none) :
    ∃ s', s.lstReorder i = some s' ∧ s.SameData s' ∧ ∀ j, s'.InList j → j = i ∨ j ∈ L := by
  by_cases hi : i ∈ L
  · obtain ⟨A, B, rfl⟩ := List.append_of_mem hi
    cases A with
    | nil =>
      obtain ⟨s', hs', hd, hin, -⟩ := lstReorder_keeps hl hlen (.inr hl.1)
      exact ⟨s', hs', hd, hin⟩
    | cons k A =>
      by_cases hf : Forward s.slpTime k A (s.slpTime i)
      · obtain ⟨s', hs', hd, hin⟩ := lstReorder_forward hl hlen hf
        exact ⟨s', hs', hd, fun j hj => ((hin j).mp hj).imp_right (List.mem_append_left _)⟩
      · obtain ⟨s', hs', hd, hin, -⟩ := lstReorder_back hl hlen hf
        exact ⟨s', hs', hd, fun j hj => .inr (hin j hj)⟩
  · obtain ⟨s', hs', hd, hin, -⟩ := lstReorder_keeps hl hlen (.inl ⟨hi, hnext hi⟩)
    exact ⟨s', hs', hd, hin⟩

theorem exists_first_above {f : ℕ → ℕ} {t : ℕ} (h : ¬ ∀ b ∈ B, f b ≤ t) :
    ∃ P q Q, B = P ++ q :: Q ∧ (∀ b ∈ P, f b ≤ t) ∧ t < f q := by
  induction B with
  | nil => simp at h
  | cons b B ih =>
    by_cases hb : f b ≤ t
    · obtain ⟨P, q, Q, rfl, hP, hq⟩ := ih fun hB => h (List.forall_mem_cons.mpr ⟨hb, hB⟩)
      exact ⟨b :: P, q, Q, rfl, List.forall_mem_cons.mpr ⟨hb, hP⟩, hq⟩
    · exact ⟨[], b, B, rfl, by simp, not_le.mp hb⟩

section Enter

variable (info : SleepInfo) (offset : ℕ)

theorem setInfo_aged_deadline (hj : j ≠ i) : ((s.setInfo info i offset).aged L).deadline j = s.deadline j := by
  rw [aged_deadline]
  simp [deadline, setInfo, hj]

theorem setInfo_aged_forward (hi : i ∉ k :: A) :
    Forward ((s.setInfo info i offset).aged (k :: A ++ i :: B)).slpTime k A
        (((s.setInfo info i offset).aged (k :: A ++ i :: B)).slpTime i) ↔
      Forward s.left k A (slopAdjusted offset info.slpTime) := by
  have hA : ∀ a ∈ k :: A, ((s.setInfo info i offset).aged (k :: A ++ i :: B)).slpTime a = s.left a := fun a ha =>
    (setInfo_aged_other info offset (ne_of_mem_of_not_mem ha hi) (List.mem_append_left _ ha)).1
  rw [Forward, Forward, (setInfo_aged_self info offset).1, hA k List.mem_cons_self]
  refine or_congr_right (or_congr_right (exists_congr fun a => and_congr_right fun ha => ?_))
  rw [hA a (List.mem_cons_of_mem k ha)]

/-- A list is taken apart at `i` in one way only. -/
theorem relinks_iff {t : ℕ} (hiA : i ∉ k :: A) (hiB : i ∉ B) :
    s.Relinks (k :: A ++ i :: B) i t ↔
      (Forward s.left k A t → ∀ b ∈ B, s.Overdue b) ∧
      (¬ Forward s.left k A t → ∀ P q Q, B = P ++ q :: Q → (∀ b ∈ P, s.left b ≤ t) → t < s.left q →
        ∀ b ∈ P, s.Overdue b) := by
  refine ⟨fun h => h k A B rfl, fun h k' A' B' heq => ?_⟩
  obtain ⟨hkA, -, rfl⟩ := (List.append_cons_inj_of_notMem hiA hiB).mp heq
  cases hkA
  exact h

/-- Nobody but those behind `i` is lost. -/
theorem keeps_forward_iff (hnodup : (k :: A ++ i :: B).Nodup) (hin : ∀ j, s'.InList j ↔ j = i ∨ j ∈ k :: A) :
    (∀ j ∈ k :: A ++ i :: B, ¬ j = i → ¬ s.Overdue j → s'.InList j) ↔ ∀ b ∈ B, s.Overdue b := by
  have hparts := List.nodup_append.mp hnodup
  have hiB : i ∉ B := (List.nodup_cons.mp hparts.2.1).1
  simp only [hin]
  constructor
  · intro h b hb
    by_contra ho
    obtain rfl | hbA := h b (by simp [hb]) (ne_of_mem_of_not_mem hb hiB) ho
    · exact hiB hb
    · exact hparts.2.2 b hbA b (List.mem_cons_of_mem i hb) rfl
  · intro h j hj hne ho
    simp only [List.mem_append, List.mem_cons] at hj
    obtain hj | rfl | hj := hj
    · exact .inr (List.mem_cons.mpr hj)
    · exact .inl rfl
    · exact absurd (h j hj) ho

/-- Nobody but those that `i` passes is lost. -/
theorem keeps_back_iff {f : ℕ → ℕ} {t : ℕ} (hnodup : (k :: A ++ i :: B).Nodup)
    (hall : (∀ b ∈ B, f b ≤ t) → ∀ j ∈ k :: A ++ i :: B, s'.InList j)
    (hin : ∀ P q Q, B = P ++ q :: Q → (∀ b ∈ P, f b ≤ t) → t < f q → ∀ j, s'.InList j ↔ j ∈ k :: A ++ i :: q :: Q) :
    (∀ j ∈ k :: A ++ i :: B, ¬ j = i → ¬ s.Overdue j → s'.InList j) ↔
      ∀ P q Q, B = P ++ q :: Q → (∀ b ∈ P, f b ≤ t) → t < f q → ∀ b ∈ P, s.Overdue b := by
  have hparts := List.nodup_append.mp hnodup
  obtain ⟨hiB, hnodupB⟩ := List.nodup_cons.mp hparts.2.1
  constructor
  · intro h P q Q hPQ hP hq b hb
    by_contra ho
    have hbB : b ∈ B := by simp [hPQ, hb]
    have hbQ : b ∉ q :: Q := fun hmem => by
      rw [hPQ] at hnodupB
      exact (List.nodup_append.mp hnodupB).2.2 b hb b hmem rfl
    have hmem := (hin P q Q hPQ hP hq b).mp (h b (by simp [hbB]) (ne_of_mem_of_not_mem hbB hiB) ho)
    obtain hmem | hmem := List.mem_append.mp hmem
    · exact hparts.2.2 b hmem b (List.mem_cons_of_mem i hbB) rfl
    · obtain rfl | hmem := List.mem_cons.mp hmem
      · exact hiB hbB
      · exact hbQ hmem
  · intro h j hj hne ho
    by_cases hle : ∀ b ∈ B, f b ≤ t
    · exact hall hle j hj
    · obtain ⟨P, q, Q, hPQ, hP, hq⟩ := exists_first_above hle
      rw [hin P q Q hPQ hP hq]
      rw [hPQ] at hj
      simp only [List.mem_append, List.mem_cons] at hj ⊢
      obtain hj | hj | hj | hj := hj
      · exact .inl hj
      · exact .inr (.inl hj)
      · exact absurd (h P q Q hPQ hP hq j hj) ho
      · exact .inr (.inr hj)

/-- The registration of the entry `i` keeps the others if and only if the condition is met. -/
theorem enter_keeps_iff (hl : s.Lists L) (hlen : L.length ≤ socpmSlpLstSz)
    (hstart : ∀ j ∈ L, s.startTimeUs j ≤ s.now) (hnext : i ∉ L → s.next i = none) :
    s.KeepsOthers (· = i) (s.enter info i offset still) ↔ s.Relinks L i (slopAdjusted offset info.slpTime) := by
  rw [enter_eq info offset hl hlen hstart]
  have hl₂ : ((s.setInfo info i offset).aged L).Lists L := hl
  have hdeadline : ∀ {s'}, ((s.setInfo info i offset).aged L).SameData s' →
      ∀ j, ¬ j = i → s'.deadline j = s.deadline j := fun hd j hj => by
    rw [hd.deadline, setInfo_aged_deadline info offset hj]
  by_cases hmid : ∃ k A B, L = k :: A ++ i :: B
  · obtain ⟨k, A, B, rfl⟩ := hmid
    have hparts := List.nodup_append.mp hl.nodup
    have hiA : i ∉ k :: A := fun hi => hparts.2.2 i hi i List.mem_cons_self rfl
    have hiB : i ∉ B := (List.nodup_cons.mp hparts.2.1).1
    rw [relinks_iff hiA hiB, ← setInfo_aged_forward (B := B) info offset hiA]
    by_cases hf : Forward ((s.setInfo info i offset).aged (k :: A ++ i :: B)).slpTime k A
        (((s.setInfo info i offset).aged (k :: A ++ i :: B)).slpTime i)
    · obtain ⟨s', hs', hd, hin⟩ := lstReorder_forward hl₂ hlen hf
      rw [hs', keepsOthers_iff hl (hdeadline hd), keeps_forward_iff hl.nodup hin]
      simp only [hf, not_true_eq_false, false_implies, and_true, true_implies]
    · obtain ⟨s', hs', hd, -, hall, hin⟩ := lstReorder_back hl₂ hlen hf
      have hself := (setInfo_aged_self (s := s) (i := i) (L := k :: A ++ i :: B) info offset).1
      have hB : ∀ b ∈ B, ((s.setInfo info i offset).aged (k :: A ++ i :: B)).slpTime b = s.left b := fun b hb =>
        (setInfo_aged_other info offset (ne_of_mem_of_not_mem hb hiB) (by simp [hb])).1
      have hall' : (∀ b ∈ B, s.left b ≤ slopAdjusted offset info.slpTime) → ∀ j ∈ k :: A ++ i :: B, s'.InList j :=
        fun h => hall fun b hb => by
          rw [hself, hB b hb]
          exact h b hb
      have hin' : ∀ P q Q, B = P ++ q :: Q → (∀ b ∈ P, s.left b ≤ slopAdjusted offset info.slpTime) →
          slopAdjusted offset info.slpTime < s.left q → ∀ j, s'.InList j ↔ j ∈ k :: A ++ i :: q :: Q := by
        intro P q Q hPQ hP hq
        refine hin P q Q hPQ (fun b hb => ?_) ?_
        · rw [hself, hB b (by simp [hPQ, hb])]
          exact hP b hb
        · rw [hself, hB q (by simp [hPQ])]
          exact hq
      rw [hs', keepsOthers_iff hl (hdeadline hd), keeps_back_iff hl.nodup hall' hin']
      simp only [hf, false_implies, true_and, not_false_eq_true, true_implies]
  · -- not in the list, or the head
    have hplace : i ∉ L ∧ s.next i = none ∨ s.slpLstHead = some i := by
      by_cases hi : i ∈ L
      · obtain ⟨A, B, rfl⟩ := List.append_of_mem hi
        cases A with
        | nil => exact .inr hl.1
        | cons k A => exact absurd ⟨k, A, B, rfl⟩ hmid
      · exact .inl ⟨hi, hnext hi⟩
    obtain ⟨s', hs', hd, -, hkeep⟩ := lstReorder_keeps hl₂ hlen hplace
    rw [hs', keepsOthers_iff hl (hdeadline hd)]
    exact iff_of_true (fun j hj hne _ => hkeep j hj hne) fun k A B h => absurd ⟨k, A, B, h⟩ hmid

end Enter

end Soc

end Qcc730.Sleep
