import Qcc730.Sleep.List

/-! What the functions of the sleep list do to it.

    An update takes the time that has passed off the entries that are not overdue. A new entry is linked in, an
    entry of the list is not always linked out first. -/

namespace Qcc730.Sleep

open Lib

namespace Soc

variable {s s' : Soc} {L M : List ℕ} {i : ℕ}

/-- The time of an entry has run out. -/
def Overdue (s : Soc) (i : ℕ) : Prop := s.startTimeUs i + s.slpTime i ≤ s.now

instance (s : Soc) (i : ℕ) : Decidable (s.Overdue i) := inferInstanceAs (Decidable (_ ≤ _))

/-- The sleep time that `nt_socpm_sleep_lst_update` leaves to an entry. -/
def left (s : Soc) (i : ℕ) : ℕ := if s.Overdue i then s.slpTime i else s.startTimeUs i + s.slpTime i - s.now

/-- Other times for the entries. -/
def retime (s : Soc) (slpTime startTimeUs : ℕ → ℕ) : Soc := { s with slpTime := slpTime, startTimeUs := startTimeUs }

/-- The entries of `L` are brought up to date. -/
def aged (s : Soc) (L : List ℕ) : Soc :=
  s.retime (fun i => if i ∈ L then s.left i else s.slpTime i)
    fun i => if i ∈ L ∧ ¬ s.Overdue i then s.now else s.startTimeUs i

/-! ### Walking through the list -/

theorem retime_congr {f f' g g' : ℕ → ℕ} (hf : ∀ j, f j = f' j) (hg : ∀ j, g j = g' j) :
    s.retime f g = s.retime f' g' := by
  rw [funext hf, funext hg]

theorem aged_nil : s.aged [] = s :=
  retime_congr (by simp) (by simp)

theorem aged_overdue (h : s.Overdue i) : s.aged [i] = s := by
  refine retime_congr (s := s) (fun j => ?_) fun j => ?_
  · by_cases hj : j = i <;> simp [hj, left, h]
  · by_cases hj : j = i <;> simp [hj, h]

/-- The entry `i` starts anew when the clock has gone on by `d`, with what it had left at `t`. -/
def restarted (s : Soc) (t d i : ℕ) : Soc := ((s.setNow (s.now + d)).setSlpTime i ((s.setNow t).left i)).setStart i

section Restarted

variable {t d j : ℕ}

theorem restarted_self : (s.restarted t d i).slpTime i = (s.setNow t).left i ∧
    (s.restarted t d i).startTimeUs i = s.now + d :=
  ⟨Function.update_self .., Function.update_self ..⟩

theorem restarted_other (hj : j ≠ i) : (s.restarted t d i).slpTime j = s.slpTime j ∧
    (s.restarted t d i).startTimeUs j = s.startTimeUs j :=
  ⟨Function.update_of_ne hj .., Function.update_of_ne hj ..⟩

theorem restarted_overdue (hj : j ≠ i) : ((s.restarted t d i).setNow t).Overdue j ↔ (s.setNow t).Overdue j := by
  obtain ⟨h1, h2⟩ := restarted_other (s := s) (t := t) (d := d) hj
  change (s.restarted t d i).startTimeUs j + (s.restarted t d i).slpTime j ≤ t ↔ _
  rw [h1, h2]
  exact Iff.rfl

theorem restarted_left (hj : j ≠ i) : ((s.restarted t d i).setNow t).left j = (s.setNow t).left j := by
  obtain ⟨h1, h2⟩ := restarted_other (s := s) (t := t) (d := d) hj
  refine if_congr (restarted_overdue hj) h1 ?_
  change (s.restarted t d i).startTimeUs j + (s.restarted t d i).slpTime j - t = _
  rw [h1, h2]
  rfl

end Restarted

/-- When the clock stands. -/
theorem restarted_still (ho : ¬ s.Overdue i) : s.restarted s.now 0 i = s.aged [i] := by
  refine retime_congr (s := s) (fun j => ?_) fun j => ?_
  · obtain rfl | hne := eq_or_ne j i
    · rw [if_pos (List.mem_singleton_self j)]
      exact restarted_self.1
    · rw [if_neg (by simpa using hne)]
      exact (restarted_other hne).1
  · obtain rfl | hne := eq_or_ne j i
    · rw [if_pos ⟨List.mem_singleton_self j, ho⟩]
      exact restarted_self.2
    · rw [if_neg (by simp [hne])]
      exact (restarted_other hne).2

/-- An entry that is not overdue at `t` starts anew. -/
theorem updateEntry_restarts {t d : ℕ} {serve : Bool} (hi : s.startTimeUs i ≤ t) (ho : ¬ (s.setNow t).Overdue i) :
    s.updateEntry t d serve i = some (s.restarted t d i, false) := by
  have hlt : ¬ s.startTimeUs i + s.slpTime i ≤ t := ho
  have h1 : t - s.startTimeUs i < s.slpTime i ∧ s.slpTime i > 0 := by omega
  have h2 : s.slpTime i - (t - s.startTimeUs i) = (s.setNow t).left i := by
    rw [left, if_neg ho]
    change _ = s.startTimeUs i + s.slpTime i - t
    omega
  rw [updateEntry]
  simp only [if_pos h1, h2, restarted]

/-- Without callbacks nothing else happens. -/
theorem updateEntry_false {t d : ℕ} (hi : s.startTimeUs i ≤ t) :
    s.updateEntry t d false i = some (if (s.setNow t).Overdue i then s else s.restarted t d i, false) := by
  by_cases ho : (s.setNow t).Overdue i
  · have h1 : ¬ (t - s.startTimeUs i < s.slpTime i ∧ s.slpTime i > 0) := by
      have : s.startTimeUs i + s.slpTime i ≤ t := ho
      omega
    rw [updateEntry]
    simp only [if_neg h1, Bool.false_eq_true, and_false, if_false, if_pos ho]
  · rw [updateEntry_restarts hi ho, if_neg ho]

/-- The start times `g` of the entries of `L` after an update for the time `t`: those that are not overdue start anew,
    while the clock goes on to `c`. -/
structure Restarts (s : Soc) (t : ℕ) (L : List ℕ) (g : ℕ → ℕ) (c : ℕ) : Prop where
  now_le : s.now ≤ c
  anew : ∀ i, i ∈ L ∧ ¬ (s.setNow t).Overdue i → s.now ≤ g i ∧ g i ≤ c
  kept : ∀ i, ¬ (i ∈ L ∧ ¬ (s.setNow t).Overdue i) → g i = s.startTimeUs i

/-- What an update for the time `t` leaves to the entries. -/
def leftOf (s : Soc) (t : ℕ) (L : List ℕ) (i : ℕ) : ℕ := if i ∈ L then (s.setNow t).left i else s.slpTime i

section Restarts

variable {t c d : ℕ} {g : ℕ → ℕ}

theorem Restarts.cons_overdue (ho : (s.setNow t).Overdue i) (h : s.Restarts t L g c) : s.Restarts t (i :: L) g c := by
  have hmem : ∀ j, (j ∈ i :: L ∧ ¬ (s.setNow t).Overdue j) ↔ (j ∈ L ∧ ¬ (s.setNow t).Overdue j) := by
    intro j
    obtain rfl | hne := eq_or_ne j i
    · simp [ho]
    · simp [hne]
  exact ⟨h.now_le, fun j hj => h.anew j ((hmem j).mp hj), fun j hj => h.kept j fun h' => hj ((hmem j).mpr h')⟩

theorem leftOf_cons_overdue (ho : (s.setNow t).Overdue i) (hi : i ∉ L) : s.leftOf t L = s.leftOf t (i :: L) := by
  funext j
  obtain rfl | hne := eq_or_ne j i
  · simp only [leftOf, hi, if_false, List.mem_cons_self, if_true, left, if_pos ho]
    rfl
  · simp [leftOf, hne]

theorem Restarts.cons (ho : ¬ (s.setNow t).Overdue i) (hi : i ∉ L) (h : (s.restarted t d i).Restarts t L g c) :
    s.Restarts t (i :: L) g c := by
  have hnow : s.now + d ≤ c := h.now_le
  refine ⟨by omega, fun j hj => ?_, fun j hj => ?_⟩
  · obtain rfl | hne := eq_or_ne j i
    · have := h.kept j fun h' => hi h'.1
      rw [restarted_self.2] at this
      omega
    · have hanew := h.anew j ⟨List.mem_of_ne_of_mem hne hj.1, fun h' => hj.2 ((restarted_overdue hne).mp h')⟩
      have : s.now + d ≤ g j := hanew.1
      exact ⟨by omega, hanew.2⟩
  · obtain rfl | hne := eq_or_ne j i
    · exact absurd ⟨List.mem_cons_self, ho⟩ hj
    · rw [h.kept j fun h' => hj ⟨List.mem_cons_of_mem i h'.1, fun h'' => h'.2 ((restarted_overdue hne).mpr h'')⟩]
      exact (restarted_other hne).2

theorem leftOf_cons (hi : i ∉ L) : (s.restarted t d i).leftOf t L = s.leftOf t (i :: L) := by
  funext j
  obtain rfl | hne := eq_or_ne j i
  · simp only [leftOf, hi, if_false, List.mem_cons_self, if_true, restarted_self]
  · simp only [leftOf, restarted_left hne, restarted_other hne, List.mem_cons, hne, false_or]

end Restarts

/-- Without callbacks the loop takes the time up to `t` off every entry that is not overdue. Each of these starts anew
    when the loop comes to it. -/
theorem updateFrom_goes {t fuel : ℕ} {d : ℕ → ℕ} {p : Option ℕ} {other : Bool} (hp : Path s.next p L none)
    (hfuel : L.length ≤ fuel) (hstart : ∀ i ∈ L, s.startTimeUs i ≤ t) :
    ∃ g c, updateFrom false t fuel d s p other = some ((s.retime (s.leftOf t L) g).setNow c, other) ∧
      s.Restarts t L g c ∧ ((∀ n, d n = 0) → c = s.now) := by
  induction L generalizing s p fuel d with
  | nil =>
    cases hp
    refine ⟨s.startTimeUs, s.now, ?_, ⟨le_rfl, by simp, fun _ _ => rfl⟩, fun _ => rfl⟩
    have htimes : s.leftOf t [] = s.slpTime := funext fun _ => if_neg (by simp)
    cases fuel <;> simp [updateFrom, retime, setNow, htimes]
  | cons i L ih =>
    have hi : i ∉ L := (List.nodup_cons.mp hp.nodup).1
    obtain ⟨rfl, hp⟩ := hp
    cases fuel with
    | zero => simp at hfuel
    | succ fuel =>
      have hit := hstart i List.mem_cons_self
      have hrest : ∀ j ∈ L, s.startTimeUs j ≤ t := fun j hj => hstart j (List.mem_cons_of_mem i hj)
      have hfuel := Nat.le_of_succ_le_succ hfuel
      simp only [updateFrom, if_neg (not_lt.mpr hit), updateEntry_false hit, Bool.or_false]
      by_cases ho : (s.setNow t).Overdue i
      · simp only [if_pos ho]
        obtain ⟨g, c, hrun, h, hstill⟩ := ih (d := fun n => d (n + 1)) hp hfuel hrest
        rw [leftOf_cons_overdue ho hi] at hrun
        exact ⟨g, c, hrun, h.cons_overdue ho, fun hd => hstill fun n => hd (n + 1)⟩
      · simp only [if_neg ho]
        obtain ⟨g, c, hrun, h, hstill⟩ := ih (s := s.restarted t (d 0) i) (d := fun n => d (n + 1)) hp hfuel
          fun j hj => by
            rw [(restarted_other (ne_of_mem_of_not_mem hj hi)).2]
            exact hrest j hj
        rw [leftOf_cons hi] at hrun
        refine ⟨g, c, hrun, h.cons ho hi, fun hd => ?_⟩
        have hc : c = s.now + d 0 := hstill fun n => hd (n + 1)
        rw [hc, hd 0, Nat.add_zero]

theorem lstUpdate_still (serve : Bool) :
    s.lstUpdate still serve = updateFrom serve s.now (2 * socpmSlpLstSz) still s s.slpLstHead false := rfl

/-- When the clock stands, the loop brings every entry up to date. -/
theorem updateFrom_false {p : Option ℕ} {fuel : ℕ} {other : Bool} (hp : Path s.next p L none) (hfuel : L.length ≤ fuel)
    (hstart : ∀ i ∈ L, s.startTimeUs i ≤ s.now) :
    updateFrom false s.now fuel still s p other = some (s.aged L, other) := by
  obtain ⟨g, c, hrun, h, hstill⟩ : ∃ g c, updateFrom false s.now fuel still s p other = some (_, other) ∧ _ :=
    updateFrom_goes hp hfuel hstart
  obtain rfl := hstill fun _ => rfl
  rw [hrun]
  refine congrArg (fun g => some (s.retime (s.leftOf s.now L) g, other)) (funext fun i => ?_)
  by_cases hi : i ∈ L ∧ ¬ s.Overdue i
  · rw [if_pos hi]
    exact le_antisymm (h.anew i hi).2 (h.anew i hi).1
  · rw [if_neg hi]
    exact h.kept i hi

/-- Where the loop of `nt_socpm_sleep_lst_reorder` stops. -/
theorem place_eq {fuel p : ℕ} (hp : Path s.next (s.next p) L none) (hfuel : L.length < fuel) :
    ∃ A z B, p :: L = A ++ z :: B ∧ (∀ a ∈ (A ++ [z]).tail, s.slpTime a ≤ s.slpTime i) ∧
      (∀ b ∈ B.head?, s.slpTime i < s.slpTime b) ∧ s.place i fuel p = some (z, !B.isEmpty) := by
  induction L generalizing p fuel with
  | nil =>
    cases fuel with
    | zero => simp at hfuel
    | succ fuel =>
      refine ⟨[], p, [], rfl, by simp, by simp, ?_⟩
      rw [place, Path.nil_iff.mp hp]
      rfl
  | cons q L ih =>
    obtain ⟨hq, hp⟩ := hp
    cases fuel with
    | zero => simp at hfuel
    | succ fuel =>
      by_cases hlt : s.slpTime q > s.slpTime i
      · refine ⟨[], p, q :: L, rfl, by simp, by simpa using hlt, ?_⟩
        simp only [place, hq, if_pos hlt]
        rfl
      · obtain ⟨A, z, B, hL, hA, hB, hplace⟩ := ih hp (Nat.lt_of_succ_lt_succ hfuel)
        refine ⟨p :: A, z, B, by rw [hL]; rfl, ?_, hB, ?_⟩
        · intro a ha
          rw [List.cons_append, List.tail_cons] at ha
          cases A with
          | nil =>
            cases hL
            simp only [List.nil_append, List.mem_singleton] at ha
            subst ha
            exact not_lt.mp hlt
          | cons c A =>
            rw [List.cons_append] at hL
            cases hL
            simp only [List.cons_append, List.mem_cons] at ha
            obtain rfl | ha := ha
            · exact not_lt.mp hlt
            · exact hA a ha
        · simp only [place, hq, if_neg hlt, hplace]

/-! ### Linking -/

/-- Only links, the head, the mode and the timer differ. -/
def SameData (s s' : Soc) : Prop :=
  ∃ next head mode tmr,
    s' = { s with next := next, slpLstHead := head, socpmSlpMode := mode, slpTmr := tmr }

theorem SameData.slpTime (h : s.SameData s') : s'.slpTime = s.slpTime := by
  obtain ⟨_, _, _, _, rfl⟩ := h
  rfl

theorem SameData.trans {s'' : Soc} (h : s.SameData s') (h' : s'.SameData s'') : s.SameData s'' := by
  obtain ⟨_, _, _, _, rfl⟩ := h
  obtain ⟨_, _, _, _, rfl⟩ := h'
  exact ⟨_, _, _, _, rfl⟩

theorem SameData.arm (h : s.SameData s') : s.SameData s'.arm := by
  obtain ⟨next, head, mode, tmr, rfl⟩ := h
  rw [Soc.arm]
  split
  · exact ⟨_, _, _, _, rfl⟩
  · simp only
    split
    · exact ⟨_, _, _, _, rfl⟩
    · exact ⟨_, _, _, _, rfl⟩

theorem arm_next : s.arm.next = s.next ∧ s.arm.slpLstHead = s.slpLstHead := by
  rw [arm]
  split
  · exact ⟨rfl, rfl⟩
  · simp only
    split
    · exact ⟨rfl, rfl⟩
    · exact ⟨rfl, rfl⟩

/-- The list that leads from the head through `L`. -/
def Lists (s : Soc) (L : List ℕ) : Prop := Path s.next s.slpLstHead L none

theorem Lists.arm (h : s.Lists L) : s.arm.Lists L := by
  rw [Lists, arm_next.1, arm_next.2]
  exact h

/-- The head is taken out. -/
theorem Lists.listSearch (h : s.Lists (i :: L)) :
    (s.listSearch i).Lists L ∧ s.SameData (s.listSearch i) ∧ (s.listSearch i).next i = none ∧
      ∀ j ≠ i, (s.listSearch i).next j = s.next j := by
  have hi : i ∉ L := (List.nodup_cons.mp h.nodup).1
  obtain ⟨-, hp⟩ := h
  rw [Soc.listSearch]
  cases L with
  | nil =>
    have hnone : s.next i = none := hp
    rw [hnone]
    exact ⟨rfl, ⟨_, _, _, _, rfl⟩, hnone, fun _ _ => rfl⟩
  | cons n L =>
    obtain ⟨hn, hp⟩ := hp
    simp only [hn]
    refine ⟨⟨rfl, ?_⟩, ⟨_, _, _, _, rfl⟩, Function.update_self .., fun j hj => Function.update_of_ne hj ..⟩
    have hne : n ≠ i := ne_of_mem_of_not_mem List.mem_cons_self hi
    change Path (Function.update s.next i none) (Function.update s.next i none n) L none
    rw [Function.update_of_ne hne]
    exact hp.update fun hmem => hi (List.mem_cons_of_mem n hmem)

/-- An entry that is not in the list is put where it belongs, or, without a time, may be left out. -/
theorem lstReorder_fresh (h : s.Lists L) (hi : i ∉ L) (hnext : s.next i = none) (hlen : L.length ≤ socpmSlpLstSz) :
    ∃ s' A B, s.lstReorder i = some s' ∧ s.SameData s' ∧ L = A ++ B ∧
      (∀ j ∉ i :: L, s'.next j = s.next j) ∧
      (s'.Lists (A ++ i :: B) ∨ s'.Lists L ∧ s'.next i = none ∧ s.slpTime i = 0) ∧
      (A = [] → ∀ b ∈ B.head?, s.slpTime b < 1 ∨ s.slpTime i < s.slpTime b) ∧
      (∀ a ∈ A, s.slpTime a ≤ s.slpTime i ∨ s.slpTime i = 0) ∧
      (A ≠ [] → ∀ b ∈ B.head?, s.slpTime i < s.slpTime b) := by
  have hhead : s.slpLstHead ≠ some i := by
    rw [Path.head?_eq h]
    exact fun heq => hi (List.mem_of_mem_head? heq)
  rw [lstReorder]
  simp only [if_neg hhead]
  cases L with
  | nil =>
    rw [Path.nil_iff.mp h]
    refine ⟨_, [], [], rfl, SameData.arm ⟨_, _, _, _, rfl⟩, rfl, ?_, .inl (Lists.arm ⟨rfl, hnext⟩), ?_, ?_, ?_⟩
    · intro j _
      rw [arm_next.1]
    all_goals simp
  | cons k L =>
    have hk : s.slpLstHead = some k := h.1
    have hki : k ≠ i := fun heq => hi (by simp [heq])
    simp only [hk]
    split
    · rename_i hfirst
      -- the link from the head to `i` that the source looks for is not there
      have hnk : s.next k ≠ some i := by
        rw [Path.head?_eq h.2]
        exact fun heq => hi (List.mem_cons_of_mem k (List.mem_of_mem_head? heq))
      simp only [if_neg hnk]
      refine ⟨_, [], k :: L, rfl, SameData.arm ⟨_, _, _, _, rfl⟩, rfl, ?_, .inl (Lists.arm ⟨rfl, ?_⟩), ?_, by simp,
        by simp⟩
      · intro j hj
        rw [arm_next.1]
        exact Function.update_of_ne (fun heq => hj (by simp [heq])) ..
      · change Path (Function.update s.next i (some k)) (Function.update s.next i (some k) i) (k :: L) none
        rw [Function.update_self, ← hk]
        exact Path.update h hi
      · rintro - b hb
        cases hb
        exact hfirst.imp And.left And.left
    · rename_i hfirst
      obtain ⟨A, z, B, hL, hA, hB, hplace⟩ := place_eq (i := i) h.2 (Nat.lt_of_succ_le hlen)
      have hz : z ≠ i := fun heq => hi (by rw [hL]; simp [heq])
      have hle : ∀ a ∈ A ++ [z], s.slpTime a ≤ s.slpTime i ∨ s.slpTime i = 0 := by
        intro a ha
        cases A with
        | nil =>
          simp only [List.nil_append, List.cons.injEq] at hL
          simp only [List.nil_append, List.mem_singleton] at ha
          rw [ha, ← hL.1]
          omega
        | cons c A =>
          simp only [List.cons_append, List.cons.injEq] at hL
          simp only [List.cons_append, List.mem_cons] at ha
          obtain rfl | ha := ha
          · rw [← hL.1]
            omega
          · exact .inl (hA a ha)
      rw [Lists, hL] at h
      rw [hL] at hi
      simp only [hplace]
      cases B with
      | nil =>
        refine ⟨_, A ++ [z], [], rfl, ?_, by simp [hL], ?_, ?_, by simp, hle, by simp⟩
        · refine SameData.arm ?_
          split
          · exact ⟨_, _, _, _, rfl⟩
          · exact ⟨_, _, _, _, rfl⟩
        · intro j hj
          rw [arm_next.1]
          split
          · refine Function.update_of_ne (fun heq => hj ?_) ..
            rw [hL]
            simp [heq]
          · rfl
        · split
          · refine .inl (Lists.arm ?_)
            have := h.append hi hnext
            rwa [← List.append_cons]
          · rename_i hzero
            refine .inr ⟨Lists.arm (by rwa [Lists, hL]), ?_, by omega⟩
            rw [arm_next.1]
            exact hnext
      | cons b B =>
        refine ⟨_, A ++ [z], b :: B, rfl, ⟨_, _, _, _, rfl⟩, by simp [hL], ?_, .inl ?_, by simp, hle, fun _ => hB⟩
        · intro j hj
          have hj1 : j ≠ i := fun heq => hj (by simp [heq])
          have hj2 : j ≠ z := fun heq => hj (by rw [hL]; simp [heq])
          simp only [setNext, Function.update_of_ne hj1, Function.update_of_ne hj2]
        · have := h.insert hi
          rwa [List.append_cons] at this

/-- The head is put where it belongs. -/
theorem lstReorder_head (h : s.Lists (i :: L)) : s.lstReorder i = (s.listSearch i).lstReorder i := by
  have hhead : (s.listSearch i).slpLstHead ≠ some i := by
    rw [Path.head?_eq h.listSearch.1]
    exact fun heq => (List.nodup_cons.mp h.nodup).1 (List.mem_of_mem_head? heq)
  rw [lstReorder, lstReorder]
  simp only [if_pos h.1, if_neg hhead]

theorem place_keep {fuel p : ℕ} {post : List ℕ} (hp : Path s.next (s.next p) M none) (hfuel : M.length < fuel)
    (hM : p :: M = L ++ i :: post) (hle : ∀ a ∈ L, s.slpTime a ≤ s.slpTime i)
    (hlt : ∀ b ∈ post.head?, s.slpTime i < s.slpTime b) : s.place i fuel p = some (i, !post.isEmpty) := by
  induction L generalizing p M fuel with
  | nil =>
    cases hM
    cases fuel with
    | zero => simp at hfuel
    | succ fuel =>
      cases post with
      | nil =>
        rw [place, Path.nil_iff.mp hp]
        rfl
      | cons q post =>
        simp only [place, hp.1, if_pos (hlt q rfl)]
        rfl
  | cons a L ih =>
    rw [List.cons_append] at hM
    obtain ⟨rfl, hL⟩ := List.cons.inj hM
    cases fuel with
    | zero => simp at hfuel
    | succ fuel =>
      cases M with
      | nil => simp at hL
      | cons q M =>
        obtain ⟨hq, hp⟩ := hp
        have hqle : s.slpTime q ≤ s.slpTime i := by
          have : q ∈ L ++ [i] := by
            cases L with
            | nil =>
              cases hL
              simp
            | cons c L =>
              cases hL
              simp
          rw [List.mem_append, List.mem_singleton] at this
          obtain hq | rfl := this
          · exact hle q (List.mem_cons_of_mem p hq)
          · exact le_rfl
        simp only [place, hq, if_neg (not_lt.mpr hqle)]
        exact ih hp (Nat.lt_of_succ_lt_succ hfuel) hL fun a ha => hle a (List.mem_cons_of_mem p ha)

/-- An entry that stays in its place. -/
theorem lstReorder_keep {k : ℕ} {post : List ℕ} (h : s.Lists (k :: L ++ i :: post))
    (hlen : (k :: L ++ i :: post).length ≤ socpmSlpLstSz) (hpos : 0 < s.slpTime k)
    (hle : ∀ a ∈ k :: L, s.slpTime a ≤ s.slpTime i) (hlt : ∀ b ∈ post.head?, s.slpTime i < s.slpTime b) :
    ∃ s', s.lstReorder i = some s' ∧ s.SameData s' ∧ s'.next = s.next ∧ s'.slpLstHead = s.slpLstHead := by
  have hk : s.slpLstHead = some k := h.1
  have hki : k ≠ i := fun heq => by
    have := h.nodup
    simp [heq] at this
  have hfirst : ¬ ((s.slpTime k < 1 ∧ k ≠ i) ∨ (s.slpTime k > s.slpTime i ∧ s.slpTime i > 0)) := by
    have := hle k (by simp)
    omega
  have hplace := place_keep h.2 (Nat.lt_of_succ_le hlen) rfl hle hlt
  rw [lstReorder]
  simp only [hk, Option.some.injEq, if_neg hki, if_neg hfirst, hplace]
  cases post with
  | nil =>
    refine ⟨_, rfl, SameData.arm ?_, ?_, ?_⟩
    all_goals rw [if_neg fun h => h.2 rfl]
    · exact ⟨_, _, _, _, rfl⟩
    · exact arm_next.1
    · exact arm_next.2.trans hk
  | cons b post =>
    refine ⟨_, rfl, ⟨_, _, _, _, rfl⟩, ?_, hk⟩
    simp only [setNext, Function.update_idem, Function.update_eq_self]

/-- The last of two entries goes to the front. -/
theorem lstReorder_swap {k : ℕ} (h : s.Lists [k, i]) (hpos : 0 < s.slpTime i) (hlt : s.slpTime i < s.slpTime k) :
    ∃ s', s.lstReorder i = some s' ∧ s.SameData s' ∧ s'.Lists [i, k] ∧ ∀ j ∉ [i, k], s'.next j = s.next j := by
  have hne : k ≠ i := fun heq => by
    have := h.nodup
    simp [heq] at this
  obtain ⟨hk, hki, hi⟩ := h
  have hfirst : (s.slpTime k < 1 ∧ k ≠ i) ∨ (s.slpTime k > s.slpTime i ∧ s.slpTime i > 0) := .inr ⟨hlt, hpos⟩
  rw [lstReorder]
  simp only [hk, Option.some.injEq, if_neg hne, if_pos hfirst, hki, if_true]
  refine ⟨_, rfl, SameData.arm ⟨_, _, _, _, rfl⟩, Lists.arm ⟨rfl, ?_, ?_⟩, fun j hj => ?_⟩
  · simp [setNext]
  · simp [setNext, hne]
  · simp only [List.mem_cons, List.not_mem_nil, or_false, not_or] at hj
    rw [arm_next.1]
    simp [setNext, hj.1, hj.2]

/-! ### Deletion -/

/-- The entry `i` is deleted: besides links, its own time may have changed. -/
def Erased (s : Soc) (i : ℕ) (s' : Soc) : Prop :=
  ∃ time next head mode tmr, (∀ j ≠ i, time j = s.slpTime j) ∧
    s' = { s with
      slpTime := time, next := next, slpLstHead := head, socpmSlpMode := mode, slpTmr := tmr
      registered := Function.update s.registered i false }

/-- The loop of `nt_socpm_sleep_lst_delete` does not end when the entry is not one of the first two. -/
theorem lstDelete_none {k n : ℕ} (h : s.Lists (k :: n :: L)) (hi : i < socpmSlpLstSz) (hk : i ≠ k) (hn : i ≠ n) :
    s.lstDelete i = none := by
  obtain ⟨hhead, hnext, -⟩ := h
  rw [lstDelete, if_neg (not_le.mpr hi)]
  simp only [slptmrOff, setSlpTime, hhead, if_neg hk.symm, hnext, if_neg hn.symm]

/-- Otherwise the entry is taken out of the list. -/
theorem lstDelete_lists (h : s.Lists L) (hi : i < socpmSlpLstSz) (hfew : L.length ≤ 1 ∨ i ∈ L.take 2) :
    ∃ s', s.lstDelete i = some s' ∧ s.Erased i s' ∧ s'.Lists (L.erase i) ∧ (∀ j ∉ L, s'.next j = s.next j) ∧
      (i ∈ L → s'.next i = none) := by
  have herase : ∀ j ≠ i, Function.update s.slpTime i 0 j = s.slpTime j := fun j hj => Function.update_of_ne hj ..
  rw [lstDelete, if_neg (not_le.mpr hi)]
  simp only
  cases L with
  | nil =>
    have hhead : s.slpLstHead = none := h
    simp only [slptmrOff, hhead]
    exact ⟨_, rfl, ⟨_, _, _, _, _, fun _ _ => rfl, rfl⟩, rfl, fun _ _ => rfl, by simp⟩
  | cons k L =>
    have hhead : s.slpLstHead = some k := h.1
    simp only [slptmrOff, setSlpTime, hhead]
    by_cases hki : k = i
    · subst hki
      -- the head is taken out of the state in which its time is 0
      obtain ⟨hl, hd, hk, hrest⟩ := Lists.listSearch (i := k) (L := L)
        (s := { s with
          slpTime := Function.update s.slpTime k 0, slpTmr := none
          registered := Function.update s.registered k false }) h
      rw [hhead] at hl hd hk hrest
      simp only [if_true, List.erase_cons_head]
      generalize hgen : listSearch _ k = t at hl hd hk hrest ⊢
      obtain ⟨next, head, mode, tmr, rfl⟩ := hd
      have hrest' : ∀ j ∉ k :: L, next j = s.next j := fun j hj => hrest j fun heq => hj (by simp [heq])
      split
      · exact ⟨_, rfl, ⟨_, _, _, _, _, herase, rfl⟩, hl, hrest', fun _ => hk⟩
      · split
        · exact ⟨_, rfl, ⟨_, _, _, _, _, herase, rfl⟩, hl, hrest', fun _ => hk⟩
        · exact ⟨_, rfl, ⟨_, _, _, _, _, herase, rfl⟩, hl, hrest', fun _ => hk⟩
    · simp only [if_neg hki]
      cases L with
      | nil =>
        have hnext : s.next k = none := h.2
        simp only [hnext]
        refine ⟨_, rfl, ⟨_, _, _, _, _, herase, rfl⟩, ?_, fun _ _ => rfl, fun hmem => ?_⟩
        · rw [List.erase_of_not_mem (by simpa using Ne.symm hki)]
          exact ⟨rfl, hnext⟩
        · exact absurd (List.mem_singleton.mp hmem).symm hki
      | cons n L =>
        obtain rfl : i = n := by
          simpa [Ne.symm hki] using hfew
        have hnodup := h.nodup
        simp only [List.nodup_cons, List.mem_cons, not_or] at hnodup
        obtain ⟨-, hnext, hp⟩ := h
        simp only [hnext, if_true]
        refine ⟨_, rfl, ⟨_, _, _, _, _, herase, rfl⟩, ?_, fun j hj => ?_, fun _ => Function.update_self ..⟩
        · rw [List.erase_cons_tail (by simpa using hki), List.erase_cons_head]
          refine ⟨rfl, ?_⟩
          simp only [setNext, Function.update_of_ne hki, Function.update_self]
          exact (hp.update hnodup.1.2).update hnodup.2.1
        · simp only [List.mem_cons, not_or] at hj
          simp only [setNext, Function.update_of_ne hj.1, Function.update_of_ne hj.2.1]

end Soc

end Qcc730.Sleep
