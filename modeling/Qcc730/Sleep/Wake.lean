import Qcc730.Sleep.Order

/-! Waking up.

    When the sleep timer expires, the entries that are overdue are woken by the loop that updates the times, the head
    afterwards, and then everyone else is told that the sleep is over. A callback may delete its own entry while the
    loop stands on it. -/

namespace Qcc730.Sleep

open Lib

namespace Soc

/-- The loop of `_socpm_slp_fn_process` over the entries behind the head. -/
def abortFrom : ℕ → Soc → Option ℕ → Option Soc
  | _, s, none => some s
  | 0, _, some _ => none
  | fuel + 1, s, some i =>
    match s.wkupCb i .abort with
    | none => none
    | some s' => abortFrom fuel s' (s.next i)

/-- What decides whether the entries behind the head `h` are called. -/
def aborts (s : Soc) (h : ℕ) : Bool :=
  s.slpMode h ≠ .clkGtdSleep || s.mcuSleepWake || some h ≠ s.slpListIdxRtos

/-- `_socpm_slp_fn_process`, for a mode other than 0, at one time. The head does not ask to sleep again: the call that asks it is
    commented out, so that its sleep time is what the slop leaves of 0. -/
def slpFnProcess (s : Soc) (offset : ℕ) : Option Soc :=
  match s.slpLstHead with
  | none => some s
  | some h =>
    match ((s.setSlpTime h (slopAdjusted offset 0)).setStart h).lstUpdate still true with
    | none => none
    | some (s, _) =>
      match s.slpLstHead with
      | none => none
      | some h =>
        match s.wkupCb h .complete with
        | none => none
        | some s' => if s.aborts h then abortFrom socpmSlpLstSz s' (s.next h) else some s'

variable {s s' t : Soc} {L M R K : List ℕ} {i k : ℕ}

/-! ### One entry -/

/-- What a loop over the entries may not change. -/
structure Kept (s t : Soc) : Prop where
  deletes : t.wkupCbDeletes = s.wkupCbDeletes
  min : t.minCb = s.minCb
  mode : t.slpMode = s.slpMode
  warm : t.inWarmBoot = s.inWarmBoot
  wake : t.mcuSleepWake = s.mcuSleepWake
  rtos : t.slpListIdxRtos = s.slpListIdxRtos
  now : t.now = s.now

theorem Kept.trans {u : Soc} (h : s.Kept t) (h' : t.Kept u) : s.Kept u :=
  ⟨h'.deletes.trans h.deletes, h'.min.trans h.min, h'.mode.trans h.mode, h'.warm.trans h.warm, h'.wake.trans h.wake,
    h'.rtos.trans h.rtos, h'.now.trans h.now⟩

/-- The deadline of an entry. -/
def deadline (s : Soc) (i : ℕ) : ℕ := s.startTimeUs i + s.slpTime i

/-- Of the entry `i` the minimum callback asks for more sleep. -/
def asks (s : Soc) (i : ℕ) : Prop :=
  s.inWarmBoot = true ∧ s.minCb i ((s.now - s.startTimeUs i - s.slpTime i) % 2 ^ 32) > 0

instance (s : Soc) (i : ℕ) : Decidable (s.asks i) := inferInstanceAs (Decidable (_ ∧ _))

/-- The loop wakes the entry `i`, unless it is the head. -/
def Due (s : Soc) (i : ℕ) : Prop := s.Overdue i ∧ ¬ s.asks i

instance (s : Soc) (i : ℕ) : Decidable (s.Due i) := inferInstanceAs (Decidable (_ ∧ _))

theorem due_congr {j : ℕ} (hk : s.Kept t) (ht : t.slpTime j = s.slpTime j) (hs : t.startTimeUs j = s.startTimeUs j) :
    t.Due j ↔ s.Due j := by
  simp only [Due, Overdue, asks, ht, hs, hk.now, hk.warm, hk.min]

/-- An entry that is passed over. -/
theorem updateEntry_passes {serve : Bool} (hstart : s.startTimeUs i ≤ s.now)
    (hi : ¬ s.Due i ∨ s.slpLstHead = some i) : s.updateEntry s.now 0 serve i = some (s.aged [i], false) := by
  by_cases ho : s.Overdue i
  · have hdelta : ¬ (s.now - s.startTimeUs i < s.slpTime i ∧ s.slpTime i > 0) := by
      rw [Overdue] at ho
      omega
    rw [updateEntry]
    simp only [if_neg hdelta, aged_overdue ho]
    split
    · rename_i hserve
      have hasks : s.asks i := by
        by_contra hasks
        exact hi.elim (fun h => h ⟨ho, hasks⟩) hserve.1
      exact if_pos hasks
    · rfl
  · rw [updateEntry_restarts hstart ho, restarted_still ho]

/-- An entry that is woken. -/
theorem updateEntry_wakes (hi : s.Due i) (hstart : s.startTimeUs i ≤ s.now) (hhead : s.slpLstHead ≠ some i) :
    s.updateEntry s.now 0 true i = ((s.setSlpTime i 0).wkupCb i .complete).map fun s => (s, true) := by
  obtain ⟨ho, hasks⟩ := hi
  have hdelta : ¬ (s.now - s.startTimeUs i < s.slpTime i ∧ s.slpTime i > 0) := by
    rw [Overdue] at ho
    omega
  rw [updateEntry]
  simp only [if_neg hdelta]
  rw [if_pos ⟨hhead, trivial⟩]
  exact if_neg hasks

theorem aged_kept : s.Kept (s.aged L) := ⟨rfl, rfl, rfl, rfl, rfl, rfl, rfl⟩

theorem aged_other {j : ℕ} (hj : j ∉ L) :
    (s.aged L).slpTime j = s.slpTime j ∧ (s.aged L).startTimeUs j = s.startTimeUs j := by
  simp [aged, retime, hj]

theorem aged_deadline (j : ℕ) : (s.aged L).deadline j = s.deadline j := by
  simp only [deadline, aged, retime, left]
  by_cases hj : j ∈ L
  · by_cases ho : s.Overdue j
    · simp [hj, ho]
    · simp only [hj, ho, if_true, if_false, not_false_eq_true, and_self]
      rw [Overdue] at ho
      omega
  · simp [hj]

/-! ### The loop that wakes -/

/-- The loop has passed the entry `i`, which stays in the list. -/
structure Passed (s : Soc) (i : ℕ) (x : Soc) : Prop where
  kept : s.Kept x
  next : x.next = s.next
  head : x.slpLstHead = s.slpLstHead
  other : ∀ j ≠ i, x.slpTime j = s.slpTime j ∧ x.startTimeUs j = s.startTimeUs j
  deadline : ¬ s.Due i → x.deadline i = s.deadline i
  woken : x.woken = (if s.Due i then [(i, WkupReason.complete)] else []) ++ s.woken

theorem updateEntry_stays (hstart : s.startTimeUs i ≤ s.now) (hhead : s.slpLstHead ≠ some i)
    (hdel : s.Due i → s.wkupCbDeletes i .complete = false) :
    ∃ x, s.updateEntry s.now 0 true i = some (x, decide (s.Due i)) ∧ s.Passed i x := by
  by_cases hdue : s.Due i
  · rw [updateEntry_wakes hdue hstart hhead]
    have hkeep : (s.setSlpTime i 0).wkupCbDeletes i .complete = false := hdel hdue
    simp only [wkupCb, hkeep, Bool.false_eq_true, if_false, Option.map_some, hdue, decide_true]
    refine ⟨_, rfl, ⟨rfl, rfl, rfl, rfl, rfl, rfl, rfl⟩, rfl, rfl, fun j hj => ⟨?_, rfl⟩, absurd hdue, ?_⟩
    · exact Function.update_of_ne hj ..
    · simp [hdue, setSlpTime]
  · rw [updateEntry_passes hstart (.inl hdue)]
    simp only [hdue, decide_false]
    refine ⟨_, rfl, aged_kept, rfl, rfl, fun j hj => aged_other (by simpa using hj), fun _ => aged_deadline i, ?_⟩
    simp [hdue, aged, retime]

namespace Passed

variable {x : Soc} (h : s.Passed i x) (hi : i ∉ R)

include h hi

theorem due {j : ℕ} (hj : j ∈ R) : x.Due j ↔ s.Due j :=
  due_congr h.kept (h.other j (ne_of_mem_of_not_mem hj hi)).1 (h.other j (ne_of_mem_of_not_mem hj hi)).2

theorem start_le (hstart : ∀ j ∈ i :: R, s.startTimeUs j ≤ s.now) : ∀ j ∈ R, x.startTimeUs j ≤ x.now := by
  intro j hj
  rw [(h.other j (ne_of_mem_of_not_mem hj hi)).2, h.kept.now]
  exact hstart j (List.mem_cons_of_mem i hj)

end Passed

/-- Without deletions the loop wakes the entries that are due. -/
theorem updateFrom_wakes {p : Option ℕ} {fuel : ℕ} {other : Bool} (hp : Path s.next p R none) (hfuel : R.length ≤ fuel)
    (hstart : ∀ i ∈ R, s.startTimeUs i ≤ s.now) (hhead : ∀ i ∈ R, s.slpLstHead ≠ some i)
    (hdel : ∀ i ∈ R, s.Due i → s.wkupCbDeletes i .complete = false) :
    ∃ s', updateFrom true s.now fuel still s p other = some (s', other || R.any fun i => s.Due i) ∧ s.Kept s' ∧
      s'.next = s.next ∧ s'.slpLstHead = s.slpLstHead ∧
      (∀ j, (j ∈ R → ¬ s.Due j) → s'.deadline j = s.deadline j) ∧
      s'.woken = (R.filter fun i => s.Due i).reverse.map (fun i => (i, .complete)) ++ s.woken := by
  induction R generalizing s p fuel other with
  | nil =>
    cases hp
    refine ⟨s, ?_, ⟨rfl, rfl, rfl, rfl, rfl, rfl, rfl⟩, rfl, rfl, fun _ _ => rfl, rfl⟩
    cases fuel <;> simp [updateFrom]
  | cons i R ih =>
    have hi : i ∉ R := (List.nodup_cons.mp hp.nodup).1
    obtain ⟨rfl, hp⟩ := hp
    cases fuel with
    | zero => simp at hfuel
    | succ fuel =>
      have hnow := hstart i List.mem_cons_self
      obtain ⟨x, hx, h⟩ := updateEntry_stays hnow (hhead i List.mem_cons_self) (hdel i List.mem_cons_self)
      have hdue : ∀ j ∈ R, (x.Due j ↔ s.Due j) := fun j => h.due hi
      obtain ⟨s', hs', hkept, hnext, hhead', hdeadline, hwoken⟩ :=
        @ih x (x.next i) fuel (other || decide (s.Due i)) (by rwa [h.next]) (Nat.le_of_succ_le_succ hfuel)
          (h.start_le hi hstart)
          (fun j hj => by
            rw [h.head]
            exact hhead j (List.mem_cons_of_mem i hj))
          (fun j hj hj' => by
            rw [h.kept.deletes]
            exact hdel j (List.mem_cons_of_mem i hj) ((hdue j hj).mp hj'))
      have hfilter : (R.filter fun i => x.Due i) = R.filter fun i => s.Due i :=
        List.filter_congr fun j hj => by simp [hdue j hj]
      have hany : (R.any fun i => x.Due i) = R.any fun i => s.Due i := by
        rw [Bool.eq_iff_iff]
        simp only [List.any_eq_true, decide_eq_true_eq]
        exact exists_congr fun j => and_congr_right (hdue j)
      refine ⟨s', ?_, h.kept.trans hkept, hnext.trans h.next, hhead'.trans h.head, fun j hj => ?_, ?_⟩
      · simp only [updateFrom, still_zero, still_succ, if_neg (not_lt.mpr hnow), hx]
        rw [h.kept.now] at hs'
        rw [hs', hany, List.any_cons, Bool.or_assoc]
      · rw [hdeadline j fun hjR hdue' => hj (List.mem_cons_of_mem i hjR) ((hdue j hjR).mp hdue')]
        obtain rfl | hne := eq_or_ne j i
        · exact h.deadline (hj List.mem_cons_self)
        · rw [Soc.deadline, Soc.deadline, (h.other j hne).1, (h.other j hne).2]
      · rw [hwoken, hfilter, h.woken]
        by_cases hi : s.Due i <;> simp [hi]

/-- Behind an entry other than the head the loop does not end if a callback deletes its entry. -/
theorem updateFrom_stuck {fuel n : ℕ} {other : Bool} (hl : s.Lists (k :: n :: L ++ R)) (hfuel : R.length ≤ fuel)
    (hstart : ∀ i ∈ R, s.startTimeUs i ≤ s.now) (hbound : ∀ i ∈ R, i < socpmSlpLstSz)
    (hdel : ∃ i ∈ R, s.Due i ∧ s.wkupCbDeletes i .complete = true) :
    updateFrom true s.now fuel still s R.head? other = none := by
  induction R generalizing s fuel other L with
  | nil => simp at hdel
  | cons i R ih =>
    cases fuel with
    | zero => simp at hfuel
    | succ fuel =>
      have hnow := hstart i List.mem_cons_self
      have hnodup := hl.nodup
      have hki : i ≠ k ∧ i ≠ n := by
        simp only [List.cons_append, List.nodup_cons, List.mem_cons, List.mem_append, not_or] at hnodup
        exact ⟨Ne.symm hnodup.1.2.2.1, Ne.symm hnodup.2.1.2.1⟩
      have hiR : i ∉ R := (List.nodup_cons.mp (List.nodup_append.mp hnodup).2.1).1
      have hhead : s.slpLstHead ≠ some i := by
        rw [hl.1]
        exact fun heq => hki.1 (Option.some.inj heq).symm
      simp only [List.head?_cons, updateFrom, still_zero, still_succ, if_neg (not_lt.mpr hnow)]
      by_cases hdi : s.Due i ∧ s.wkupCbDeletes i .complete = true
      · have hlists : ({ s.setSlpTime i 0 with woken := (i, .complete) :: s.woken } : Soc).Lists
            (k :: n :: (L ++ i :: R)) := hl
        have hdeletes : (s.setSlpTime i 0).wkupCbDeletes i .complete = true := hdi.2
        rw [updateEntry_wakes hdi.1 hnow hhead, wkupCb]
        simp only [hdeletes, if_true]
        rw [show (s.setSlpTime i 0).woken = s.woken from rfl,
          lstDelete_none hlists (hbound i List.mem_cons_self) hki.1 hki.2]
        rfl
      · obtain ⟨x, hx, h⟩ := updateEntry_stays hnow hhead fun hdue => by
          simpa using fun hd => hdi ⟨hdue, hd⟩
        have hnext : x.next i = R.head? := by
          obtain ⟨-, hp⟩ := Path.append_iff.mp hl |>.choose_spec.2
          rw [h.next]
          exact hp.head?_eq
        simp only [hx, hnext]
        rw [← h.kept.now]
        refine ih (L := L ++ [i]) ?_ (Nat.le_of_succ_le_succ hfuel) (h.start_le hiR hstart)
          (fun j hj => hbound j (List.mem_cons_of_mem i hj)) ?_
        · have happend : k :: n :: (L ++ [i]) ++ R = k :: n :: L ++ i :: R := by simp
          rw [Lists, h.next, h.head, happend]
          exact hl
        · obtain ⟨j, hj, hdue, hd⟩ := hdel
          obtain rfl | hj := List.mem_cons.mp hj
          · exact absurd ⟨hdue, hd⟩ hdi
          · exact ⟨j, hj, (h.due hiR hj).mpr hdue, by rwa [h.kept.deletes]⟩

/-- A callback that deletes its own entry. -/
theorem wkupCb_deletes {r : WkupReason} (hl : s.Lists L) (hi : i < socpmSlpLstSz) (hmem : i ∈ L.take 2)
    (hdel : s.wkupCbDeletes i r = true) :
    ∃ s', s.wkupCb i r = some s' ∧ s.Kept s' ∧ s'.Lists (L.erase i) ∧ s'.next i = none ∧
      (∀ j ≠ i, s'.slpTime j = s.slpTime j ∧ s'.startTimeUs j = s.startTimeUs j) ∧ s'.woken = (i, r) :: s.woken := by
  rw [wkupCb]
  simp only [hdel, if_true]
  obtain ⟨s', hs', ⟨time, next, head, mode, tmr, htime, rfl⟩, hl', -, hnext⟩ :=
    lstDelete_lists (s := { s with woken := (i, r) :: s.woken }) hl hi (.inr hmem)
  exact ⟨_, hs', ⟨rfl, rfl, rfl, rfl, rfl, rfl, rfl⟩, hl', hnext (List.mem_of_mem_take hmem),
    fun j hj => ⟨htime j hj, rfl⟩, rfl⟩

theorem wkupCb_stays {r : WkupReason} (hdel : s.wkupCbDeletes i r = false) :
    s.wkupCb i r = some { s with woken := (i, r) :: s.woken } := by
  rw [wkupCb]
  simp only [hdel, Bool.false_eq_true, if_false]

theorem wkupCb_stuck {r : WkupReason} {n : ℕ} (hl : s.Lists (k :: n :: L)) (hi : i < socpmSlpLstSz) (hk : i ≠ k)
    (hn : i ≠ n) (hdel : s.wkupCbDeletes i r = true) : s.wkupCb i r = none := by
  rw [wkupCb]
  simp only [hdel, if_true]
  exact lstDelete_none (s := { s with woken := (i, r) :: s.woken }) hl hi hk hn

/-- The second entry is due and deletes itself: the loop ends there. -/
theorem updateFrom_deletes {fuel m : ℕ} {other : Bool} (hl : s.Lists (k :: m :: R)) (hm : m < socpmSlpLstSz)
    (hstart : s.startTimeUs m ≤ s.now) (hdue : s.Due m) (hdel : s.wkupCbDeletes m .complete = true) :
    ∃ s', updateFrom true s.now (fuel + 1) still s (some m) other = some (s', true) ∧ s.Kept s' ∧ s'.Lists (k :: R) ∧
      (∀ j ≠ m, s'.slpTime j = s.slpTime j ∧ s'.startTimeUs j = s.startTimeUs j) ∧
      s'.woken = (m, .complete) :: s.woken := by
  have hkm : k ≠ m := fun heq => by
    have := hl.nodup
    simp [heq] at this
  have hhead : s.slpLstHead ≠ some m := by
    rw [hl.1]
    exact fun heq => hkm (Option.some.inj heq)
  obtain ⟨s', hs', hkept, hl', hnext, hother, hwoken⟩ :=
    wkupCb_deletes (s := s.setSlpTime m 0) (r := .complete) hl hm (by simp) hdel
  rw [List.erase_cons_tail (by simpa using hkm), List.erase_cons_head] at hl'
  refine ⟨s', ?_, ⟨hkept.deletes, hkept.min, hkept.mode, hkept.warm, hkept.wake, hkept.rtos, hkept.now⟩, hl',
    fun j hj => ?_, hwoken⟩
  · simp only [updateFrom, still_zero, still_succ, if_neg (not_lt.mpr hstart), updateEntry_wakes hdue hstart hhead, hs',
      Option.map_some, hnext]
    cases fuel <;> simp
  · obtain ⟨h1, h2⟩ := hother j hj
    exact ⟨h1.trans (Function.update_of_ne hj ..), h2⟩

/-! ### The loop that aborts -/

/-- The deletions that the loop allows behind `n` entries that stay: the entry is one of the first two. -/
def abortsEnd (deletes : ℕ → WkupReason → Bool) : ℕ → List ℕ → Prop
  | _, [] => True
  | n, i :: R => if deletes i .abort then n ≤ 1 ∧ abortsEnd deletes n R else abortsEnd deletes (n + 1) R

theorem mem_take_two (h : K.length ≤ 1) : i ∈ (K ++ i :: R).take 2 := by
  obtain _ | ⟨k, _ | ⟨n, K⟩⟩ := K
  · simp
  · simp
  · simp at h

/-- Every entry is called once. -/
theorem abortFrom_eq {fuel : ℕ} (hl : s.Lists (K ++ R)) (hfuel : R.length ≤ fuel)
    (hbound : ∀ i ∈ R, i < socpmSlpLstSz) (hend : abortsEnd s.wkupCbDeletes K.length R) :
    ∃ s', abortFrom fuel s R.head? = some s' ∧ s'.woken = R.reverse.map (fun i => (i, .abort)) ++ s.woken ∧
      (∀ j, (j ∈ R → s.wkupCbDeletes j .abort = false) → s'.deadline j = s.deadline j) ∧
      s'.Lists (K ++ R.filter fun i => !s.wkupCbDeletes i .abort) := by
  induction R generalizing s fuel K with
  | nil =>
    refine ⟨s, ?_, rfl, fun _ _ => rfl, hl⟩
    cases fuel <;> rfl
  | cons i R ih =>
    cases fuel with
    | zero => simp at hfuel
    | succ fuel =>
      have hnodup := List.nodup_append.mp hl.nodup
      have hiK : i ∉ K := fun hi => hnodup.2.2 i hi i List.mem_cons_self rfl
      have hnext : s.next i = R.head? := by
        obtain ⟨-, -, -, hp⟩ := Path.append_iff.mp hl
        exact hp.head?_eq
      simp only [List.head?_cons, abortFrom, hnext]
      cases hdel : s.wkupCbDeletes i .abort with
      | true =>
        simp only [abortsEnd, hdel, if_true] at hend
        have hmem : i ∈ (K ++ i :: R).take 2 := mem_take_two hend.1
        obtain ⟨x, hx, hkept, hlx, -, hother, hwoken⟩ := wkupCb_deletes hl (hbound i List.mem_cons_self) hmem hdel
        rw [List.erase_append_right _ hiK, List.erase_cons_head] at hlx
        obtain ⟨s', hs', hwoken', hdeadline, hl'⟩ := ih hlx (Nat.le_of_succ_le_succ hfuel)
          (fun j hj => hbound j (List.mem_cons_of_mem i hj)) (hkept.deletes ▸ hend.2)
        refine ⟨s', by simp only [hx, hs'], ?_, fun j hj => ?_, ?_⟩
        · rw [hwoken', hwoken]
          simp
        · have hji : j ≠ i := fun heq => by
            rw [heq] at hj
            exact absurd (hj List.mem_cons_self) (by simp [hdel])
          rw [hdeadline j fun hjR => by
            rw [hkept.deletes]
            exact hj (List.mem_cons_of_mem i hjR)]
          rw [deadline, deadline, (hother j hji).1, (hother j hji).2]
        · rw [hkept.deletes] at hl'
          rwa [List.filter_cons_of_neg (by simp [hdel])]
      | false =>
        simp only [abortsEnd, hdel, Bool.false_eq_true, if_false] at hend
        have hl₁ : ({ s with woken := (i, .abort) :: s.woken } : Soc).Lists (K ++ [i] ++ R) := by
          rw [List.append_assoc]
          exact hl
        obtain ⟨s', hs', hwoken, hdeadline, hl'⟩ := ih hl₁ (Nat.le_of_succ_le_succ hfuel)
          (fun j hj => hbound j (List.mem_cons_of_mem i hj)) (by
            rw [List.length_append]
            exact hend)
        refine ⟨s', ?_, ?_, fun j hj => ?_, ?_⟩
        · rw [wkupCb_stays hdel]
          exact hs'
        · rw [hwoken]
          simp
        · exact hdeadline j fun hjR => hj (List.mem_cons_of_mem i hjR)
        · rw [List.filter_cons_of_pos (by simp [hdel])]
          rwa [List.append_assoc] at hl'

/-- A deletion further down, and the loop does not end. -/
theorem abortFrom_stuck {fuel : ℕ} (hl : s.Lists (K ++ R)) (hfuel : R.length ≤ fuel)
    (hbound : ∀ i ∈ R, i < socpmSlpLstSz) (hend : ¬ abortsEnd s.wkupCbDeletes K.length R) : abortFrom fuel s R.head? = none := by
  induction R generalizing s fuel K with
  | nil => exact absurd trivial hend
  | cons i R ih =>
    cases fuel with
    | zero => simp at hfuel
    | succ fuel =>
      have hnodup := List.nodup_append.mp hl.nodup
      have hiK : i ∉ K := fun hi => hnodup.2.2 i hi i List.mem_cons_self rfl
      have hnext : s.next i = R.head? := by
        obtain ⟨-, -, -, hp⟩ := Path.append_iff.mp hl
        exact hp.head?_eq
      simp only [List.head?_cons, abortFrom, hnext]
      cases hdel : s.wkupCbDeletes i .abort with
      | true =>
        simp only [abortsEnd, hdel, if_true, not_and] at hend
        by_cases hK : K.length ≤ 1
        · obtain ⟨x, hx, hkept, hlx, -, -, -⟩ :=
            wkupCb_deletes hl (hbound i List.mem_cons_self) (mem_take_two hK) hdel
          rw [List.erase_append_right _ hiK, List.erase_cons_head] at hlx
          simp only [hx]
          exact ih hlx (Nat.le_of_succ_le_succ hfuel) (fun j hj => hbound j (List.mem_cons_of_mem i hj)) fun h =>
            hend hK (hkept.deletes ▸ h)
        · obtain _ | ⟨k, _ | ⟨n, K⟩⟩ := K
          · simp at hK
          · simp at hK
          · simp only [List.mem_cons, not_or] at hiK
            simp only [wkupCb_stuck hl (hbound i List.mem_cons_self) hiK.1 hiK.2.1 hdel]
      | false =>
        simp only [abortsEnd, hdel, Bool.false_eq_true, if_false] at hend
        have hl₁ : ({ s with woken := (i, .abort) :: s.woken } : Soc).Lists (K ++ [i] ++ R) := by
          rw [List.append_assoc]
          exact hl
        rw [wkupCb_stays hdel]
        refine ih hl₁ (Nat.le_of_succ_le_succ hfuel) (fun j hj => hbound j (List.mem_cons_of_mem i hj)) ?_
        rw [List.length_append]
        exact hend

/-! ### The update with the head -/

/-- A list that is well formed. -/
structure Formed (s : Soc) (L : List ℕ) : Prop where
  lists : s.Lists L
  bound : ∀ i ∈ L, i < socpmSlpLstSz
  off : ∀ i ∉ L, s.next i = none
  start_le : ∀ i ∈ L, s.startTimeUs i ≤ s.now

theorem Formed.length_le (h : s.Formed L) : L.length ≤ socpmSlpLstSz := by
  have := (h.lists.nodup.subperm fun i hi => List.mem_range.mpr (h.bound i hi)).length_le
  rwa [List.length_range] at this

section Update

variable (hf : s.Formed (k :: M))

include hf

/-- The head is passed over. -/
theorem lstUpdate_eq : s.lstUpdate still true = updateFrom true s.now 19 still (s.aged [k]) M.head? false := by
  have hnow := hf.start_le k List.mem_cons_self
  have hhead : s.slpLstHead = some k := hf.lists.1
  have hnext : s.next k = M.head? := hf.lists.2.head?_eq
  simp only [lstUpdate_still, socpmSlpLstSz, hhead, updateFrom, still_zero, still_succ, if_neg (not_lt.mpr hnow),
    updateEntry_passes hnow (.inr hhead), Bool.or_false]
  rw [← hnext]
  rfl

theorem due_aged {j : ℕ} (hj : j ∈ M) : (s.aged [k]).Due j ↔ s.Due j := by
  have hne : j ≠ k := ne_of_mem_of_not_mem hj (List.nodup_cons.mp hf.lists.nodup).1
  have := aged_other (s := s) (L := [k]) (j := j) (by simpa using hne)
  exact due_congr aged_kept this.1 this.2

theorem start_aged : ∀ j ∈ M, (s.aged [k]).startTimeUs j ≤ (s.aged [k]).now := by
  intro j hj
  have hne : j ≠ k := ne_of_mem_of_not_mem hj (List.nodup_cons.mp hf.lists.nodup).1
  rw [(aged_other (s := s) (L := [k]) (j := j) (by simpa using hne)).2]
  exact hf.start_le j (List.mem_cons_of_mem k hj)

theorem lstUpdate_wakes (hdel : ∀ i ∈ M, s.Due i → s.wkupCbDeletes i .complete = false) :
    ∃ s', s.lstUpdate still true = some (s', M.any fun i => s.Due i) ∧ s.Kept s' ∧ s'.next = s.next ∧
      s'.slpLstHead = s.slpLstHead ∧ (∀ j, (j ∈ M → ¬ s.Due j) → s'.deadline j = s.deadline j) ∧
      s'.woken = (M.filter fun i => s.Due i).reverse.map (fun i => (i, .complete)) ++ s.woken := by
  have hkM : k ∉ M := (List.nodup_cons.mp hf.lists.nodup).1
  have hp : Path (s.aged [k]).next M.head? M none := by
    rw [← hf.lists.2.head?_eq]
    exact hf.lists.2
  obtain ⟨s', hs', hkept, hnext, hhead, hdeadline, hwoken⟩ := @updateFrom_wakes (s.aged [k]) M M.head? 19 false hp
    ((Nat.le_of_succ_le_succ hf.length_le).trans (by decide)) (start_aged hf)
    (fun i hi heq => ne_of_mem_of_not_mem hi hkM (Option.some.inj (heq.symm.trans hf.lists.1)))
    (fun i hi hdue => hdel i hi ((due_aged hf hi).mp hdue))
  have hfilter : (M.filter fun i => (s.aged [k]).Due i) = M.filter fun i => s.Due i :=
    List.filter_congr fun j hj => by simp [due_aged hf hj]
  have hany : (M.any fun i => (s.aged [k]).Due i) = M.any fun i => s.Due i := by
    rw [Bool.eq_iff_iff]
    simp only [List.any_eq_true, decide_eq_true_eq]
    exact exists_congr fun j => and_congr_right fun hj => due_aged hf hj
  rw [hany, Bool.false_or] at hs'
  rw [hfilter] at hwoken
  refine ⟨s', (lstUpdate_eq hf).trans hs', aged_kept.trans hkept, hnext, hhead, fun j hj => ?_, hwoken⟩
  rw [hdeadline j fun hjM hdue => hj hjM ((due_aged hf hjM).mp hdue)]
  exact aged_deadline j

theorem lstUpdate_deletes {m : ℕ} (hM : M = m :: R) (hdue : s.Due m) (hdel : s.wkupCbDeletes m .complete = true) :
    ∃ s', s.lstUpdate still true = some (s', true) ∧ s.Kept s' ∧ s'.Lists (k :: R) ∧
      (∀ j ≠ m, s'.deadline j = s.deadline j) ∧ s'.woken = (m, .complete) :: s.woken := by
  subst hM
  obtain ⟨s', hs', hkept, hl, hother, hwoken⟩ := @updateFrom_deletes (s.aged [k]) R k 18 m false hf.lists
    (hf.bound m (by simp)) (start_aged hf m (by simp)) ((due_aged hf (by simp)).mpr hdue) hdel
  refine ⟨s', (lstUpdate_eq hf).trans hs', aged_kept.trans hkept, hl, fun j hj => ?_, hwoken⟩
  rw [deadline, (hother j hj).1, (hother j hj).2]
  exact aged_deadline j

theorem lstUpdate_stuck {m : ℕ} (hM : M = m :: R) (hm : ¬ (s.Due m ∧ s.wkupCbDeletes m .complete = true))
    (hdel : ∃ i ∈ R, s.Due i ∧ s.wkupCbDeletes i .complete = true) : s.lstUpdate still true = none := by
  subst hM
  have hmR : m ∉ R := (List.nodup_cons.mp (List.nodup_cons.mp hf.lists.nodup).2).1
  have hkm : m ≠ k := ne_of_mem_of_not_mem List.mem_cons_self (List.nodup_cons.mp hf.lists.nodup).1
  have hdm : (s.aged [k]).Due m ↔ s.Due m := due_aged hf List.mem_cons_self
  have hnow := start_aged hf m List.mem_cons_self
  obtain ⟨x, hx, h⟩ := updateEntry_stays hnow
    (fun heq => hkm (Option.some.inj (heq.symm.trans hf.lists.1)))
    fun hdue => Bool.eq_false_iff.mpr fun hd => hm ⟨hdm.mp hdue, hd⟩
  have hnext : x.next m = R.head? := by
    rw [h.next]
    exact hf.lists.2.2.head?_eq
  have hsame : (s.aged [k]).now = s.now := rfl
  rw [lstUpdate_eq hf, ← hsame]
  simp only [List.head?_cons, updateFrom, still_zero, still_succ, if_neg (not_lt.mpr hnow), hx, hnext]
  rw [← h.kept.now]
  refine updateFrom_stuck (k := k) (n := m) (L := []) ?_ ?_ (h.start_le hmR (start_aged hf))
    (fun j hj => hf.bound j (by simp [hj])) ?_
  · rw [Lists, h.next, h.head]
    exact hf.lists
  · have := hf.length_le
    simp only [List.length_cons, socpmSlpLstSz] at this
    omega
  · obtain ⟨j, hj, hdue, hd⟩ := hdel
    exact ⟨j, hj, (h.due hmR hj).mpr ((due_aged hf (List.mem_cons_of_mem m hj)).mpr hdue), by rwa [h.kept.deletes]⟩

end Update

/-! ### Who is woken -/

/-- What one run of `_socpm_slp_fn_process` should do: it ends, calls each entry at most once, the head and all that
    are overdue as complete, and as aborted only those that are not. -/
def WokenOnce (s : Soc) (L : List ℕ) (r : Option Soc) : Prop :=
  ∃ s' w, r = some s' ∧ s'.woken = w ++ s.woken ∧ (w.map Prod.fst).Nodup ∧
    (∀ k ∈ L.head?, (k, .complete) ∈ w) ∧ (∀ i ∈ L, s.Overdue i → (i, .complete) ∈ w) ∧
    ∀ i, (i, .abort) ∈ w → ¬ s.Overdue i

/-- The condition: no entry behind the head `k` that is overdue asks for more sleep; if there is one that is overdue,
    then either none of these deletes itself and the others are not called, or it is the second entry, it deletes
    itself, and it is the only one; and the calls of the others delete none but the first or second entry left. -/
def WakesOnce (s : Soc) (k : ℕ) (M : List ℕ) : Prop :=
  (∀ i ∈ M, s.Overdue i → ¬ s.asks i) ∧
  ((∀ i ∈ M, s.Overdue i → s.wkupCbDeletes i .complete = false ∧ s.aborts k = false) ∨
    ∃ m R, M = m :: R ∧ s.Overdue m ∧ s.wkupCbDeletes m .complete = true ∧ ∀ i ∈ R, ¬ s.Overdue i) ∧
  (s.aborts k = true → abortsEnd s.wkupCbDeletes (if s.wkupCbDeletes k .complete then 0 else 1) (M.filter fun i => ¬ s.Overdue i))

/-- The head is woken, and the others are called. -/
def wakeHead (s : Soc) (k : ℕ) : Option Soc :=
  match s.wkupCb k .complete with
  | none => none
  | some s' => if s.aborts k then abortFrom socpmSlpLstSz s' (s.next k) else some s'

theorem slpFnProcess_eq (offset : ℕ) (h : s.slpLstHead = some k) :
    s.slpFnProcess offset =
      match ((s.setSlpTime k 0).setStart k).lstUpdate still true with
      | none => none
      | some (t, _) =>
        match t.slpLstHead with
        | none => none
        | some k => t.wakeHead k := by
  have hslop : slopAdjusted offset 0 = 0 := rfl
  simp only [slpFnProcess, h, hslop, wakeHead]

/-- The head goes or stays. -/
theorem wkupCb_head (hl : s.Lists (k :: R)) (hk : k < socpmSlpLstSz) :
    ∃ x K, s.wkupCb k .complete = some x ∧ x.Lists (K ++ R) ∧ x.wkupCbDeletes = s.wkupCbDeletes ∧
      K.length = (if s.wkupCbDeletes k .complete then 0 else 1) ∧ (∀ j ≠ k, x.deadline j = s.deadline j) ∧
      x.woken = (k, .complete) :: s.woken := by
  cases hdel : s.wkupCbDeletes k .complete with
  | true =>
    obtain ⟨x, hx, hkept, hlx, -, hother, hwoken⟩ := wkupCb_deletes hl hk (by simp) hdel
    rw [List.erase_cons_head] at hlx
    refine ⟨x, [], hx, hlx, hkept.deletes, rfl, fun j hj => ?_, hwoken⟩
    rw [deadline, deadline, (hother j hj).1, (hother j hj).2]
  | false => exact ⟨_, [k], wkupCb_stays hdel, hl, rfl, rfl, fun _ _ => rfl, rfl⟩

/-- What the end of the function does with a list `k :: R`. -/
theorem wakeHead_eq (hl : s.Lists (k :: R)) (hlen : R.length ≤ socpmSlpLstSz)
    (hbound : ∀ i ∈ k :: R, i < socpmSlpLstSz)
    (hend : s.aborts k = true → abortsEnd s.wkupCbDeletes (if s.wkupCbDeletes k .complete then 0 else 1) R) :
    ∃ s', s.wakeHead k = some s' ∧
      s'.woken = (if s.aborts k then R.reverse.map (fun i => (i, .abort)) else []) ++ (k, .complete) :: s.woken ∧
      (∀ j ≠ k, (j ∈ R → s.wkupCbDeletes j .abort = false) → s'.deadline j = s.deadline j) ∧
      ∃ M, s'.Lists M ∧ ∀ j ∈ R, s.wkupCbDeletes j .abort = false → j ∈ M := by
  have hnext : s.next k = R.head? := hl.2.head?_eq
  obtain ⟨x, K, hx, hlx, hdel, hK, hdeadline, hwoken⟩ := wkupCb_head hl (hbound k List.mem_cons_self)
  simp only [wakeHead, hx]
  cases ha : s.aborts k with
  | false =>
    exact ⟨x, rfl, hwoken, fun j hj _ => hdeadline j hj, K ++ R, hlx, fun j hj _ => List.mem_append_right K hj⟩
  | true =>
    have hend := hend ha
    rw [← hK, ← hdel] at hend
    obtain ⟨s', hs', hwoken', hdeadline', hl'⟩ := abortFrom_eq hlx hlen
      (fun i hi => hbound i (List.mem_cons_of_mem k hi)) hend
    rw [hdel] at hdeadline' hl'
    refine ⟨s', ?_, ?_, fun j hj hjR => ?_, _, hl', fun j hj hd => ?_⟩
    · rw [hnext]
      exact hs'
    · rw [hwoken', hwoken]
      rfl
    · rw [hdeadline' j hjR, hdeadline j hj]
    · simp [hj, hd]

theorem wakeHead_stuck (hl : s.Lists (k :: R)) (hlen : R.length ≤ socpmSlpLstSz)
    (hbound : ∀ i ∈ k :: R, i < socpmSlpLstSz) (ha : s.aborts k = true)
    (hend : ¬ abortsEnd s.wkupCbDeletes (if s.wkupCbDeletes k .complete then 0 else 1) R) : s.wakeHead k = none := by
  have hnext : s.next k = R.head? := hl.2.head?_eq
  obtain ⟨x, K, hx, hlx, hdel, hK, -, -⟩ := wkupCb_head hl (hbound k List.mem_cons_self)
  rw [← hK, ← hdel] at hend
  simp only [wakeHead, hx, ha, if_true, hnext]
  exact abortFrom_stuck hlx hlen (fun i hi => hbound i (List.mem_cons_of_mem k hi)) hend

/-! ### The whole function -/

section Process

variable (hf : s.Formed (k :: M))

include hf

/-- The head gets the time 0 and starts now. -/
theorem formed_start : ((s.setSlpTime k 0).setStart k).Formed (k :: M) where
  lists := hf.lists
  bound := hf.bound
  off := hf.off
  start_le j hj := by
    obtain rfl | hne := eq_or_ne j k
    · simp [setStart]
    · simpa [setStart, setSlpTime, hne] using hf.start_le j hj

theorem overdue_start {j : ℕ} (hj : j ∈ M) :
    (((s.setSlpTime k 0).setStart k).Overdue j ↔ s.Overdue j) ∧
      (((s.setSlpTime k 0).setStart k).asks j ↔ s.asks j) := by
  have hne : j ≠ k := ne_of_mem_of_not_mem hj (List.nodup_cons.mp hf.lists.nodup).1
  simp [Overdue, asks, setStart, setSlpTime, hne]

theorem due_start {j : ℕ} (hj : j ∈ M) : ((s.setSlpTime k 0).setStart k).Due j ↔ s.Due j := by
  rw [Due, Due, (overdue_start hf hj).1, (overdue_start hf hj).2]

/-- No entry behind the head deletes itself when it is woken. -/
theorem slpFnProcess_wakes (offset : ℕ) (hdel : ∀ i ∈ M, s.Due i → s.wkupCbDeletes i .complete = false) :
    ∃ t, s.slpFnProcess offset = t.wakeHead k ∧ s.Kept t ∧ t.Lists (k :: M) ∧
      (∀ j ∈ M, ¬ s.Due j → t.deadline j = s.deadline j) ∧
      t.woken = (M.filter fun i => s.Due i).reverse.map (fun i => (i, .complete)) ++ s.woken := by
  obtain ⟨t, ht, hkept, hnext, hhead, hdeadline, hwoken⟩ := lstUpdate_wakes (formed_start hf)
    fun i hi hdue => hdel i hi ((due_start hf hi).mp hdue)
  have hfilter : (M.filter fun i => ((s.setSlpTime k 0).setStart k).Due i) = M.filter fun i => s.Due i :=
    List.filter_congr fun j hj => by simp [due_start hf hj]
  rw [hfilter] at hwoken
  have hheadt : t.slpLstHead = some k := hhead.trans hf.lists.1
  refine ⟨t, ?_, ⟨hkept.deletes, hkept.min, hkept.mode, hkept.warm, hkept.wake, hkept.rtos, hkept.now⟩, ?_,
    fun j hj hdue => ?_, hwoken⟩
  · rw [slpFnProcess_eq offset hf.lists.1, ht]
    simp only [hheadt]
  · rw [Lists, hnext, hhead]
    exact hf.lists
  · have hne : j ≠ k := ne_of_mem_of_not_mem hj (List.nodup_cons.mp hf.lists.nodup).1
    rw [hdeadline j fun hjM hd => hdue ((due_start hf hjM).mp hd)]
    simp [deadline, setStart, setSlpTime, hne]

/-- The second entry is due and deletes itself. -/
theorem slpFnProcess_deletes (offset : ℕ) {m : ℕ} (hM : M = m :: R) (hdue : s.Due m)
    (hdel : s.wkupCbDeletes m .complete = true) :
    ∃ t, s.slpFnProcess offset = t.wakeHead k ∧ s.Kept t ∧ t.Lists (k :: R) ∧
      (∀ j ∈ R, t.deadline j = s.deadline j) ∧ t.woken = (m, .complete) :: s.woken := by
  obtain ⟨t, ht, hkept, hl, hdeadline, hwoken⟩ := lstUpdate_deletes (formed_start hf) hM
    ((due_start hf (by simp [hM])).mpr hdue) hdel
  refine ⟨t, ?_, ⟨hkept.deletes, hkept.min, hkept.mode, hkept.warm, hkept.wake, hkept.rtos, hkept.now⟩, hl,
    fun j hj => ?_, hwoken⟩
  · rw [slpFnProcess_eq offset hf.lists.1, ht]
    simp only [hl.1]
  · have hnodup := hf.lists.nodup
    rw [hM] at hnodup
    simp only [List.nodup_cons, List.mem_cons, not_or] at hnodup
    have hjm : j ≠ m := ne_of_mem_of_not_mem hj hnodup.2.1
    have hjk : j ≠ k := ne_of_mem_of_not_mem hj hnodup.1.2
    rw [hdeadline j hjm]
    simp [deadline, setStart, setSlpTime, hjk]

theorem slpFnProcess_stuck (offset : ℕ) {m : ℕ} (hM : M = m :: R)
    (hm : ¬ (s.Due m ∧ s.wkupCbDeletes m .complete = true))
    (hdel : ∃ i ∈ R, s.Due i ∧ s.wkupCbDeletes i .complete = true) : s.slpFnProcess offset = none := by
  have hstuck : ((s.setSlpTime k 0).setStart k).lstUpdate still true = none := by
    refine lstUpdate_stuck (formed_start hf) hM (fun h => hm ⟨(due_start hf (by simp [hM])).mp h.1, h.2⟩) ?_
    obtain ⟨i, hi, hdue, hd⟩ := hdel
    exact ⟨i, hi, (due_start hf (by simp [hM, hi])).mpr hdue, hd⟩
  rw [slpFnProcess_eq offset hf.lists.1, hstuck]

end Process

/-! ### Once -/

theorem Kept.aborts (h : s.Kept t) : t.aborts k = s.aborts k := by
  rw [Soc.aborts, Soc.aborts, h.mode, h.wake, h.rtos]

/-- The calls of a run that ends. -/
theorem wokenOnce_iff {w : List (ℕ × WkupReason)} (hw : s'.woken = w ++ s.woken) :
    s.WokenOnce L (some s') ↔ (w.map Prod.fst).Nodup ∧ (∀ k ∈ L.head?, (k, .complete) ∈ w) ∧
      (∀ i ∈ L, s.Overdue i → (i, .complete) ∈ w) ∧ ∀ i, (i, .abort) ∈ w → ¬ s.Overdue i := by
  constructor
  · rintro ⟨x, v, hx, hv, h⟩
    cases hx
    rw [hw, List.append_cancel_right_eq] at hv
    rw [hv]
    exact h
  · exact fun h => ⟨s', w, rfl, hw, h⟩

theorem not_wokenOnce_none : ¬ s.WokenOnce L none := by
  rintro ⟨_, _, h, -⟩
  cases h

section Once

variable (hf : s.Formed (k :: M))

include hf

/-- No entry that is due deletes itself, and the others are called. -/
theorem woken_once_aborts (offset : ℕ) (hdel : ∀ i ∈ M, s.Due i → s.wkupCbDeletes i .complete = false)
    (ha : s.aborts k = true) : s.WokenOnce (k :: M) (s.slpFnProcess offset) ↔ s.WakesOnce k M := by
  have hnodup := List.nodup_cons.mp hf.lists.nodup
  -- both sides say that only the head is overdue, and that the calls end
  have hcond : s.WakesOnce k M → ∀ i ∈ M, ¬ s.Overdue i := by
    rintro ⟨h1, h2 | ⟨m, R, rfl, hm, hd, -⟩, -⟩ i hi ho
    · exact absurd ha (by simp [(h2 i hi ho).2])
    · exact absurd hd (by simp [hdel m List.mem_cons_self ⟨hm, h1 m List.mem_cons_self hm⟩])
  have hfilter : (∀ i ∈ M, ¬ s.Overdue i) → (M.filter fun i => ¬ s.Overdue i) = M := fun h =>
    List.filter_eq_self.mpr fun i hi => by simpa using h i hi
  obtain ⟨t, ht, hkept, hl, -, hwoken⟩ := slpFnProcess_wakes hf offset hdel
  rw [ht]
  have hlen : M.length ≤ socpmSlpLstSz := Nat.le_of_succ_le hf.length_le
  have hat : t.aborts k = true := hkept.aborts.trans ha
  by_cases hend : abortsEnd s.wkupCbDeletes (if s.wkupCbDeletes k .complete then 0 else 1) M
  · obtain ⟨s', hs', hwoken', -⟩ := wakeHead_eq hl hlen hf.bound fun _ => by rwa [hkept.deletes]
    rw [hs', wokenOnce_iff (w := M.reverse.map (fun i => (i, .abort)) ++ (k, .complete) ::
      (M.filter fun i => s.Due i).reverse.map (fun i => (i, .complete))) (by
        rw [hwoken', hwoken, hat]
        simp)]
    constructor
    · rintro ⟨-, -, -, h4⟩
      have hno : ∀ i ∈ M, ¬ s.Overdue i := fun i hi => h4 i (by simp [hi])
      refine ⟨fun i hi ho => absurd ho (hno i hi), .inl fun i hi ho => absurd ho (hno i hi), fun _ => ?_⟩
      rwa [hfilter hno]
    · intro h
      have hno := hcond h
      have hnone : (M.filter fun i => s.Due i) = [] :=
        List.filter_eq_nil_iff.mpr fun i hi => by simp [Due, hno i hi]
      rw [hnone]
      refine ⟨?_, by simp, fun i hi ho => ?_, fun i hi => ?_⟩
      · have hne : ∀ i ∈ M, i ≠ k := fun i hi => ne_of_mem_of_not_mem hi hnodup.1
        simpa [List.nodup_append, Function.comp_def] using ⟨hnodup.2, hne⟩
      · obtain rfl | hi := List.mem_cons.mp hi
        · simp
        · exact absurd ho (hno i hi)
      · exact hno i (by simpa using hi)
  · rw [wakeHead_stuck hl hlen hf.bound hat (by rwa [hkept.deletes])]
    refine iff_of_false not_wokenOnce_none fun h => hend ?_
    have := h.2.2 ha
    rwa [hfilter (hcond h)] at this

/-- The others are not called. -/
theorem woken_once_quiet (offset : ℕ) (hdel : ∀ i ∈ M, s.Due i → s.wkupCbDeletes i .complete = false)
    (ha : s.aborts k = false) : s.WokenOnce (k :: M) (s.slpFnProcess offset) ↔ s.WakesOnce k M := by
  have hnodup := List.nodup_cons.mp hf.lists.nodup
  obtain ⟨t, ht, hkept, hl, -, hwoken⟩ := slpFnProcess_wakes hf offset hdel
  have hat : t.aborts k = false := hkept.aborts.trans ha
  obtain ⟨s', hs', hwoken', -⟩ := wakeHead_eq hl (Nat.le_of_succ_le hf.length_le) hf.bound (by simp [hat])
  rw [ht, hs', wokenOnce_iff (w := (k, .complete) :: (M.filter fun i => s.Due i).reverse.map (fun i => (i, .complete)))
    (by
      rw [hwoken', hwoken, hat]
      simp)]
  constructor
  · rintro ⟨-, -, h3, -⟩
    have hdue : ∀ i ∈ M, s.Overdue i → s.Due i := by
      intro i hi ho
      have hne : i ≠ k := ne_of_mem_of_not_mem hi hnodup.1
      simpa [hne, hi] using h3 i (List.mem_cons_of_mem k hi) ho
    exact ⟨fun i hi ho => (hdue i hi ho).2, .inl fun i hi ho => ⟨hdel i hi (hdue i hi ho), ha⟩, by simp [ha]⟩
  · rintro ⟨h1, -, -⟩
    refine ⟨?_, by simp, fun i hi ho => ?_, by simp⟩
    · simp only [List.map_cons, List.map_map, Function.comp_def, List.map_id', List.nodup_cons, List.mem_reverse,
        List.mem_filter, List.nodup_reverse]
      exact ⟨fun hk => hnodup.1 hk.1, hnodup.2.filter _⟩
    · obtain rfl | hi := List.mem_cons.mp hi
      · simp
      · simp [hi, Due, ho, h1 i hi ho]

/-- The second entry is due and deletes itself. -/
theorem woken_once_deletes (offset : ℕ) {m : ℕ} (hM : M = m :: R) (hdue : s.Due m)
    (hdel : s.wkupCbDeletes m .complete = true) :
    s.WokenOnce (k :: M) (s.slpFnProcess offset) ↔ s.WakesOnce k M := by
  subst hM
  have hnodup := hf.lists.nodup
  simp only [List.nodup_cons, List.mem_cons, not_or] at hnodup
  have hcond : s.WakesOnce k (m :: R) ↔ (∀ i ∈ R, ¬ s.Overdue i) ∧
      (s.aborts k = true → abortsEnd s.wkupCbDeletes (if s.wkupCbDeletes k .complete then 0 else 1) R) := by
    have hfilter : (∀ i ∈ R, ¬ s.Overdue i) → ((m :: R).filter fun i => ¬ s.Overdue i) = R := by
      intro h
      rw [List.filter_cons_of_neg (by simp [hdue.1])]
      exact List.filter_eq_self.mpr fun i hi => by simpa using h i hi
    constructor
    · rintro ⟨-, h2 | ⟨m', R', hM, -, -, hno⟩, h3⟩
      · exact absurd hdel (by simp [(h2 m List.mem_cons_self hdue.1).1])
      · cases hM
        rw [hfilter hno] at h3
        exact ⟨hno, h3⟩
    · rintro ⟨hno, h3⟩
      refine ⟨fun i hi ho => ?_, .inr ⟨m, R, rfl, hdue.1, hdel, hno⟩, ?_⟩
      · obtain rfl | hi := List.mem_cons.mp hi
        · exact hdue.2
        · exact absurd ho (hno i hi)
      · rwa [hfilter hno]
  rw [hcond]
  obtain ⟨t, ht, hkept, hl, -, hwoken⟩ := slpFnProcess_deletes hf offset rfl hdue hdel
  have hlen : R.length ≤ socpmSlpLstSz := Nat.le_of_succ_le (Nat.le_of_succ_le hf.length_le)
  have hbound : ∀ i ∈ k :: R, i < socpmSlpLstSz := fun i hi => hf.bound i (by
    obtain rfl | hi := List.mem_cons.mp hi
    · simp
    · simp [hi])
  rw [ht]
  by_cases hend : s.aborts k = true → abortsEnd s.wkupCbDeletes (if s.wkupCbDeletes k .complete then 0 else 1) R
  · obtain ⟨s', hs', hwoken', -⟩ := wakeHead_eq hl hlen hbound (by rwa [hkept.deletes, hkept.aborts])
    rw [hs', wokenOnce_iff (w := (if s.aborts k then R.reverse.map (fun i => (i, .abort)) else []) ++
      [(k, .complete), (m, .complete)]) (by
        rw [hwoken', hwoken, hkept.aborts]
        simp)]
    constructor
    · rintro ⟨-, -, h3, h4⟩
      refine ⟨fun i hi ho => ?_, hend⟩
      -- it is called as aborted, or not at all
      have hcall := h3 i (by simp [hi]) ho
      have hik : i ≠ k := ne_of_mem_of_not_mem hi hnodup.1.2
      have him : i ≠ m := ne_of_mem_of_not_mem hi hnodup.2.1
      cases ha : s.aborts k with
      | true => simp [ha, hik, him] at hcall
      | false => simp [ha, hik, him] at hcall
    · rintro ⟨hno, -⟩
      refine ⟨?_, by simp, fun i hi ho => ?_, fun i hi => ?_⟩
      · cases ha : s.aborts k with
        | true =>
          have hne : ∀ i ∈ R, i ≠ k ∧ i ≠ m := fun i hi =>
            ⟨ne_of_mem_of_not_mem hi hnodup.1.2, ne_of_mem_of_not_mem hi hnodup.2.1⟩
          simpa [List.nodup_append, Function.comp_def, hnodup.1.1] using ⟨hnodup.2.2, hne⟩
        | false => simpa using hnodup.1.1
      · obtain rfl | rfl | hi : i = k ∨ i = m ∨ i ∈ R := by simpa using hi
        · simp
        · simp
        · exact absurd ho (hno i hi)
      · cases ha : s.aborts k with
        | true => exact hno i (by simpa [ha] using hi)
        | false => simp [ha] at hi
  · obtain ⟨ha, hne⟩ := Classical.not_imp.mp hend
    rw [wakeHead_stuck hl hlen hbound (hkept.aborts.trans ha) (by rwa [hkept.deletes])]
    exact iff_of_false not_wokenOnce_none fun h => hend h.2

end Once

/-- For every well-formed list the run wakes everyone once if and only if the condition is met. -/
theorem woken_once_iff (offset : ℕ) (hf : s.Formed (k :: M)) :
    s.WokenOnce (k :: M) (s.slpFnProcess offset) ↔ s.WakesOnce k M := by
  by_cases hdel : ∀ i ∈ M, s.Due i → s.wkupCbDeletes i .complete = false
  · cases ha : s.aborts k with
    | true => exact woken_once_aborts hf offset hdel ha
    | false => exact woken_once_quiet hf offset hdel ha
  · push Not at hdel
    obtain ⟨i, hi, hdue, hd⟩ := hdel
    rw [Bool.ne_false_iff] at hd
    obtain _ | ⟨m, R⟩ := M
    · simp at hi
    by_cases hm : s.Due m ∧ s.wkupCbDeletes m .complete = true
    · exact woken_once_deletes hf offset rfl hm.1 hm.2
    · have hiR : i ∈ R := (List.mem_cons.mp hi).resolve_left fun heq => hm (heq ▸ ⟨hdue, hd⟩)
      rw [slpFnProcess_stuck hf offset rfl hm ⟨i, hiR, hdue, hd⟩]
      refine iff_of_false not_wokenOnce_none ?_
      rintro ⟨h1, h2 | ⟨m', R', hM, hm', hd', -⟩, -⟩
      · exact absurd hd (by simp [(h2 i hi hdue.1).1])
      · cases hM
        exact hm ⟨⟨hm', h1 m List.mem_cons_self hm'⟩, hd'⟩

/-- The entries 0 to `n - 1` in a row, registered at 5, and it is now 15. -/
def row (n : ℕ) (slpTime : ℕ → ℕ) (deletes : ℕ → WkupReason → Bool) : Soc :=
  { Soc.init 0 15 false with
    slpTime := slpTime
    startTimeUs := fun _ => 5
    next := fun i => if i + 1 < n then some (i + 1) else none
    slpLstHead := some 0
    wkupCbDeletes := deletes }

theorem row_formed {n : ℕ} {f : ℕ → ℕ} {deletes : ℕ → WkupReason → Bool} (hn : n < 9) :
    (row (n + 1) f deletes).Formed (List.range (n + 1)) where
  lists := by
    have hpath : ∀ m ≤ n, Path (row (n + 1) f deletes).next (some 0) (List.range m) (some m) := by
      intro m hm
      induction m with
      | zero => rfl
      | succ m ih =>
        rw [List.range_succ]
        exact Path.snoc_iff.mpr ⟨ih (Nat.le_of_succ_le hm), if_pos (Nat.succ_lt_succ hm)⟩
    rw [List.range_succ]
    exact Path.snoc_iff.mpr ⟨hpath n le_rfl, if_neg (lt_irrefl _)⟩
  bound i hi := by
    rw [List.mem_range] at hi
    exact lt_trans hi (Nat.succ_lt_succ hn)
  off i hi := by
    rw [List.mem_range] at hi
    exact if_neg fun h => hi (Nat.lt_of_succ_lt h)
  start_le _ _ := by simp [row, Soc.init]

/-- The head is overdue; the other sleeper, as that of the RTOS, deletes itself. -/
theorem woken_once_two : (row 2 (fun i => 10 + i) fun i _ => i = 1).WokenOnce [0, 1]
    ((row 2 (fun i => 10 + i) fun i _ => i = 1).slpFnProcess 0) := by
  have hf : (row 2 (fun i => 10 + i) fun i _ => i = 1).Formed [0, 1] := row_formed (by decide)
  refine (woken_once_iff 0 hf).mpr ⟨by decide, .inl (by decide), fun _ => ?_⟩
  simp [abortsEnd, row, Overdue, Soc.init]

/-- A second sleeper that is overdue is called twice. If it deletes itself, the third one, which is overdue too, is
    called as aborted. -/
theorem woken_twice :
    (let s := row 2 (fun _ => 10) fun _ _ => false
    (s.slpFnProcess 0).map Soc.woken = some [(1, .abort), (0, .complete), (1, .complete)] ∧
      ¬ s.WokenOnce [0, 1] (s.slpFnProcess 0)) ∧
    (let s := row 3 (fun _ => 10) fun i _ => i = 1
    (s.slpFnProcess 0).map Soc.woken = some [(2, .abort), (0, .complete), (1, .complete)] ∧
      ¬ s.WokenOnce [0, 1, 2] (s.slpFnProcess 0)) := by
  refine ⟨⟨rfl, fun h => ?_⟩, rfl, fun h => ?_⟩
  · have h := (wokenOnce_iff (w := [(1, .abort), (0, .complete), (1, .complete)]) rfl).mp h
    exact h.2.2.2 1 (by decide) (by decide)
  · have h := (wokenOnce_iff (w := [(2, .abort), (0, .complete), (1, .complete)]) rfl).mp h
    exact h.2.2.2 2 (by decide) (by decide)

end Soc

end Qcc730.Sleep
