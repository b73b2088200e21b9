import Qcc730.Sleep.Relink

/-! The deadlines of the other sleepers.

    Each operation is made for one entry, which it finds by the head, by the last index that was given out, by the
    index 0 or by that of the RTOS. -/

namespace Qcc730.Sleep

open Lib

namespace Soc

/-- `nt_socpm_min_proc`: what it returns is the time to sleep. It asks the head whether to sleep again, and starts the
    entry that was registered last. No result when there is none. -/
def minProc (s : Soc) (slpTmrUs offset : ℕ) : Option (Soc × ℕ) :=
  match s.slpLstHead with
  | none => some (s, 0)
  | some h =>
    let sleepBack := s.minCb h ((slpTmrUs - s.slpTime h) % 2 ^ 32)
    if sleepBack = 0 then some (s, 0)
    else
      match s.lastSlpCount with
      | none => none
      | some c =>
        if c ≥ socpmSlpLstSz then none
        else
          match ({ s.setSlpTime h (slopAdjusted offset sleepBack) with processRoutine := true }.setStart c).lstUpdate
            still true with
          | none => none
          | some (s, true) => some (s, 0)
          | some (s, false) =>
            (s.slptmrOff.lstReorder h).map fun s => (s, (s.slpLstHead.map s.slpTime).getD 0)

/-- The end of `nt_socpm_soc_sleep_processing` after a wake-up that the sleep timer did not cause. -/
def earlyWake (s : Soc) : Option Soc := if s.slpExit then some s else s.lstDelete 0

end Soc

/-- The operations. The clock stands during each of them. -/
inductive Operation where
  /-- a new entry, or the update of one -/
  | register (info : Option SleepInfo) (listIdx : Option ℕ) (offset : ℕ)
  | delete (i : ℕ)
  | expiry (offset : ℕ)
  | minProc (slpTmrUs offset : ℕ)
  | earlyWake

namespace Operation

def run (s : Soc) : Operation → Option Soc
  | .register info listIdx offset => (s.sleepRegister info listIdx offset still).map Prod.fst
  | .delete i => s.lstDelete i
  | .expiry offset => s.slpFnProcess offset
  | .minProc slpTmrUs offset => (s.minProc slpTmrUs offset).map Prod.fst
  | .earlyWake => s.earlyWake

/-- The entries that the operation is for. When the timer expires, that is the head, and a callback that deletes its
    own entry does so for that one. -/
def own (s : Soc) : Operation → ℕ → Prop
  | .register _ listIdx _, j => j = s.target listIdx
  | .delete i, j => j = i
  | .expiry _, j => s.slpLstHead = some j ∨ s.wkupCbDeletes j .abort = true
  | .minProc _ _, j => s.slpLstHead = some j
  | .earlyWake, j => s.slpListIdxRtos = some j

end Operation

namespace Soc

variable {s s' : Soc} {L M R A B : List ℕ} {i j k : ℕ}

/-! ### Registration -/

/-- The condition on a registration. The first one without an index unlinks what follows the entry 0. -/
def RegisterKeeps (s : Soc) (L : List ℕ) (info : Option SleepInfo) (listIdx : Option ℕ) (offset : ℕ) : Prop :=
  (listIdx = none → ∀ c, s.lastSlpCount = some c → c < socpmSlpLstSz) ∧
  ∀ info', info = some info' → s.target listIdx < socpmSlpLstSz →
    (listIdx ≠ none ∨ s.lastSlpCount ≠ none → s.Relinks L (s.target listIdx) (slopAdjusted offset info'.slpTime)) ∧
    (listIdx = none → s.lastSlpCount = none → ∀ A B, L = A ++ 0 :: B → ∀ b ∈ B, s.Overdue b)

theorem keepsOthers_congr {t : Soc} {own : ℕ → Prop} (hn : t.next = s'.next) (hh : t.slpLstHead = s'.slpLstHead)
    (ht : t.slpTime = s'.slpTime) (hs : t.startTimeUs = s'.startTimeUs) :
    s.KeepsOthers own (some t) ↔ s.KeepsOthers own (some s') := by
  simp only [KeepsOthers, Option.some.injEq, exists_eq_left', InList, deadline, hn, hh, ht, hs]

/-- Nothing that matters has changed. -/
theorem keepsOthers_same {own : ℕ → Prop} (hn : s'.next = s.next) (hh : s'.slpLstHead = s.slpLstHead)
    (ht : s'.slpTime = s.slpTime) (hs : s'.startTimeUs = s.startTimeUs) : s.KeepsOthers own (some s') := by
  refine (keepsOthers_congr hn hh ht hs).mpr ?_
  exact ⟨s, rfl, fun j hj _ _ => ⟨hj, rfl⟩⟩

theorem update_keeps_iff (hf : s.Formed L) (info : Option SleepInfo) (offset : ℕ) :
    s.KeepsOthers (· = i) ((s.update info i offset still).map Prod.fst) ↔ ∀ info', info = some info' → i < socpmSlpLstSz →
      s.Relinks L i (slopAdjusted offset info'.slpTime) := by
  cases info with
  | none => exact iff_of_true (keepsOthers_same rfl rfl rfl rfl) (by simp)
  | some info =>
    by_cases hi : i < socpmSlpLstSz
    · have hrun : (s.update (some info) i offset still).map Prod.fst = s.enter info i offset still := by
        simp only [update, if_pos hi, Option.map_map, Function.comp_def, Option.map_id']
      rw [hrun, enter_keeps_iff info offset hf.lists hf.length_le hf.start_le (hf.off i)]
      simp [hi]
    · have hrun : (s.update (some info) i offset still).map Prod.fst = some s := by
        simp only [update, if_neg hi, Option.map_some]
      rw [hrun]
      exact iff_of_true (keepsOthers_same rfl rfl rfl rfl) (by simp [hi])

/-- The first registration without an index. -/
theorem first_keeps_iff (hf : s.Formed L) (info : SleepInfo) (offset : ℕ) :
    s.KeepsOthers (· = 0) ({ s.setNext 0 none with lastSlpCount := some 0 }.enter info 0 offset still) ↔
      ∀ A B, L = A ++ 0 :: B → ∀ b ∈ B, s.Overdue b := by
  by_cases h0 : 0 ∈ L
  · obtain ⟨A, B, rfl⟩ := List.append_of_mem h0
    have hnodup := List.nodup_append.mp hf.lists.nodup
    have h0A : 0 ∉ A := fun h => hnodup.2.2 0 h 0 List.mem_cons_self rfl
    have h0B : 0 ∉ B := (List.nodup_cons.mp hnodup.2.1).1
    -- the list ends at the entry 0
    have hl₀ : ({ s.setNext 0 none with lastSlpCount := some 0 } : Soc).Lists (A ++ [0]) := by
      obtain ⟨r, hA, rfl, -⟩ := Path.append_iff.mp hf.lists
      exact Path.snoc_iff.mpr ⟨hA.update h0A, by simp [setNext]⟩
    have hmem₀ : ∀ j ∈ A ++ [0], j ∈ A ++ 0 :: B := fun j hj => by
      rw [List.append_cons]
      exact List.mem_append_left B hj
    have hlen₀ : (A ++ [0]).length ≤ socpmSlpLstSz := by
      refine le_trans ?_ hf.length_le
      simp
    have hstart₀ : ∀ j ∈ A ++ [0], s.startTimeUs j ≤ s.now := fun j hj => hf.start_le j (hmem₀ j hj)
    constructor
    · rintro ⟨s', hs', h⟩ A' B' heq b hb
      obtain ⟨-, -, rfl⟩ := (List.append_cons_inj_of_notMem h0A h0B).mp heq
      by_contra ho
      have hb0 : b ≠ 0 := ne_of_mem_of_not_mem hb h0B
      rw [enter_eq info offset hl₀ hlen₀ hstart₀] at hs'
      obtain ⟨x, hx, -, hin⟩ := lstReorder_within (i := 0)
        (s := ({ s.setNext 0 none with lastSlpCount := some 0 }.setInfo info 0 offset).aged (A ++ [0])) hl₀ hlen₀
        fun h => absurd (by simp) h
      cases hs'.symm.trans hx
      obtain hb' | hb' := hin b (h b (hf.lists.inList.mpr (by simp [hb])) hb0 (not_le.mp ho)).1
      · exact hb0 hb'
      · obtain hb' | hb' := List.mem_append.mp hb'
        · exact hnodup.2.2 b hb' b (List.mem_cons_of_mem 0 hb) rfl
        · exact hb0 (List.mem_singleton.mp hb')
    · intro h
      have hrelinks : ({ s.setNext 0 none with lastSlpCount := some 0 } : Soc).Relinks (A ++ [0]) 0
          (slopAdjusted offset info.slpTime) := by
        intro k A' B' heq
        obtain ⟨-, -, rfl⟩ := (List.append_cons_inj_of_notMem h0A (by simp)).mp heq
        exact ⟨fun _ b hb => absurd hb List.not_mem_nil, fun _ P q Q hPQ => by simp at hPQ⟩
      obtain ⟨s', hs', hkeep⟩ := (enter_keeps_iff info offset hl₀ hlen₀ hstart₀ fun h => absurd (by simp) h).mpr hrelinks
      refine ⟨s', hs', fun j hj hj0 ho => hkeep j (hl₀.inList.mpr ?_) hj0 ho⟩
      obtain hj | hj := List.mem_append.mp (hf.lists.inList.mp hj)
      · exact List.mem_append_left _ hj
      · exact absurd (h A B rfl j ((List.mem_cons.mp hj).resolve_left hj0)) (not_le.mpr ho)
  · have hl₀ : ({ s.setNext 0 none with lastSlpCount := some 0 } : Soc).Lists L := hf.lists.update h0
    have hkeep := (enter_keeps_iff info offset hl₀ hf.length_le hf.start_le fun _ => Function.update_self ..).mpr
      fun k A B hL => absurd (by simp [hL]) h0
    refine iff_of_true ?_ fun A B hL => absurd (by simp [hL]) h0
    obtain ⟨s', hs', hkeep⟩ := hkeep
    exact ⟨s', hs', fun j hj => hkeep j (hl₀.inList.mpr (hf.lists.inList.mp hj))⟩

theorem register_keeps_iff (hf : s.Formed L) (info : Option SleepInfo) (listIdx : Option ℕ) (offset : ℕ) :
    s.KeepsOthers (· = s.target listIdx) ((s.sleepRegister info listIdx offset still).map Prod.fst) ↔
      s.RegisterKeeps L info listIdx offset := by
  cases listIdx with
  | some i =>
    have hrun : s.sleepRegister info (some i) offset still = s.update info i offset still := rfl
    rw [show s.target (some i) = i from rfl, hrun, update_keeps_iff hf]
    simp [RegisterKeeps, target]
  | none =>
    cases hlast : s.lastSlpCount with
    | some c =>
      have htarget : s.target none = s.listNo c + 1 := by simp [target, hlast]
      by_cases hc : c < socpmSlpLstSz
      · have hrun : s.KeepsOthers (· = s.target none) ((s.sleepRegister info none offset still).map Prod.fst) ↔
            s.KeepsOthers (· = s.target none) ((s.update info (s.listNo c + 1) offset still).map Prod.fst) := by
          simp only [sleepRegister, hlast, if_pos hc]
          cases s.update info (s.listNo c + 1) offset still with
          | none => exact Iff.rfl
          | some r => exact keepsOthers_congr rfl rfl rfl rfl
        rw [hrun, htarget, update_keeps_iff hf]
        simp [RegisterKeeps, hlast, hc, htarget]
      · have hrun : (s.sleepRegister info none offset still).map Prod.fst = none := by
          simp only [sleepRegister, hlast, if_neg hc, Option.map_none]
        rw [hrun]
        exact iff_of_false not_keepsOthers_none fun h => hc (h.1 rfl c hlast)
    | none =>
      have htarget : s.target none = 0 := by simp [target, hlast]
      rw [htarget]
      cases info with
      | none =>
        simp only [sleepRegister, hlast, Option.map_some]
        exact iff_of_true (keepsOthers_same rfl rfl rfl rfl) (by simp [RegisterKeeps, hlast])
      | some info =>
        simp only [sleepRegister, hlast, Option.map_map, Function.comp_def, Option.map_id']
        rw [first_keeps_iff hf]
        simp [RegisterKeeps, hlast, htarget, socpmSlpLstSz]

/-! ### Deletion -/

/-- The condition on a deletion. -/
def DeleteEnds (L : List ℕ) (i : ℕ) : Prop := i < socpmSlpLstSz → L.length ≤ 1 ∨ i ∈ L.take 2

instance (L : List ℕ) (i : ℕ) : Decidable (DeleteEnds L i) := inferInstanceAs (Decidable (_ → _))

theorem Erased.deadline (h : s.Erased i s') (hj : j ≠ i) : s'.deadline j = s.deadline j := by
  obtain ⟨time, _, _, _, _, htime, rfl⟩ := h
  exact congrArg (s.startTimeUs j + ·) (htime j hj)

theorem lstDelete_stuck (hl : s.Lists L) (h : ¬ DeleteEnds L i) : s.lstDelete i = none := by
  rw [DeleteEnds, Classical.not_imp, not_or] at h
  obtain ⟨hi, hlen, hmem⟩ := h
  obtain _ | ⟨k, _ | ⟨n, L⟩⟩ := L
  · simp at hlen
  · simp at hlen
  · simp only [List.take_succ_cons, List.take_zero, List.mem_cons, List.not_mem_nil, or_false, not_or] at hmem
    exact lstDelete_none hl hi hmem.1 hmem.2

/-- The deletion of `i` keeps the entries that are not `own` if it ends, and `i` is `own` or not one of them. -/
theorem delete_keeps_iff {own : ℕ → Prop} (hf : s.Formed L) :
    s.KeepsOthers own (s.lstDelete i) ↔
      DeleteEnds L i ∧ (i < socpmSlpLstSz → i ∈ L → own i ∨ s.Overdue i) := by
  by_cases hi : i < socpmSlpLstSz
  · by_cases hends : DeleteEnds L i
    · obtain ⟨s', hs', herased, hl', -, -⟩ := lstDelete_lists hf.lists hi (hends hi)
      rw [hs']
      constructor
      · rintro ⟨x, hx, h⟩
        cases hx
        refine ⟨hends, fun _ hiL => or_iff_not_imp_left.mpr fun hown => ?_⟩
        by_contra ho
        have := (h i (hf.lists.inList.mpr hiL) hown (not_le.mp ho)).1
        exact hf.lists.nodup.not_mem_erase (hl'.inList.mp this)
      · rintro ⟨-, h⟩
        refine ⟨s', rfl, fun j hj hown ho => ?_⟩
        have hjL := hf.lists.inList.mp hj
        have hji : j ≠ i := by
          rintro rfl
          exact (h hi hjL).elim hown (not_le.mpr ho)
        exact ⟨hl'.inList.mpr ((List.mem_erase_of_ne hji).mpr hjL), herased.deadline hji⟩
    · rw [lstDelete_stuck hf.lists hends]
      exact iff_of_false not_keepsOthers_none fun h => hends h.1
  · have hrun : s.lstDelete i = some s := by rw [lstDelete, if_pos (not_lt.mp hi)]
    rw [hrun]
    exact iff_of_true (keepsOthers_same rfl rfl rfl rfl) ⟨fun h => absurd h hi, fun h => absurd h hi⟩

/-- The condition on the end of an early wake-up: it is the entry 0 that is deleted, and it should be that of the
    RTOS. -/
def EarlyWakeKeeps (s : Soc) (L : List ℕ) : Prop :=
  s.slpExit = true ∨ DeleteEnds L 0 ∧ (0 ∈ L → s.slpListIdxRtos = some 0 ∨ s.Overdue 0)

theorem earlyWake_keeps_iff (hf : s.Formed L) :
    s.KeepsOthers (fun j => s.slpListIdxRtos = some j) s.earlyWake ↔ s.EarlyWakeKeeps L := by
  rw [earlyWake, EarlyWakeKeeps]
  cases hexit : s.slpExit with
  | true => exact iff_of_true (keepsOthers_same rfl rfl rfl rfl) (.inl rfl)
  | false =>
    simp only [Bool.false_eq_true, if_false, false_or]
    rw [delete_keeps_iff hf]
    simp [socpmSlpLstSz]

/-! ### Expiry -/

/-- The loop that wakes the entries of `M` behind the head ends. -/
def WakingEnds (s : Soc) (M : List ℕ) : Prop :=
  (∀ i ∈ M, s.Due i → s.wkupCbDeletes i .complete = false) ∨
    ∃ m ∈ M.head?, s.Due m ∧ s.wkupCbDeletes m .complete = true

/-- The entries behind the head that are left. -/
def leftAwake (s : Soc) : List ℕ → List ℕ
  | [] => []
  | m :: R => if s.Due m ∧ s.wkupCbDeletes m .complete = true then R else m :: R

/-- The condition on an expiry. -/
def ExpiryKeeps (s : Soc) : List ℕ → Prop
  | [] => True
  | k :: M => s.WakingEnds M ∧
    (s.aborts k = true → abortsEnd s.wkupCbDeletes (if s.wkupCbDeletes k .complete then 0 else 1) (s.leftAwake M))

theorem not_wakingEnds (h : ¬ s.WakingEnds M) :
    ∃ m R, M = m :: R ∧ ¬ (s.Due m ∧ s.wkupCbDeletes m .complete = true) ∧
      ∃ i ∈ R, s.Due i ∧ s.wkupCbDeletes i .complete = true := by
  rw [WakingEnds, not_or] at h
  obtain ⟨hdel, hhead⟩ := h
  push Not at hdel
  obtain ⟨i, hi, hdue, hd⟩ := hdel
  rw [Bool.ne_false_iff] at hd
  cases M with
  | nil => cases hi
  | cons m R =>
    have hm : ¬ (s.Due m ∧ s.wkupCbDeletes m .complete = true) := fun h => hhead ⟨m, rfl, h⟩
    exact ⟨m, R, rfl, hm, i, (List.mem_cons.mp hi).resolve_left fun heq => hm (heq ▸ ⟨hdue, hd⟩), hdue, hd⟩

/-- The second entry deletes itself, or none does. -/
theorem WakingEnds.cases (h : s.WakingEnds M) :
    (∃ m R, M = m :: R ∧ s.Due m ∧ s.wkupCbDeletes m .complete = true ∧ s.leftAwake M = R) ∨
      (∀ i ∈ M, s.Due i → s.wkupCbDeletes i .complete = false) ∧ s.leftAwake M = M := by
  cases M with
  | nil => exact .inr ⟨by simp, rfl⟩
  | cons m R =>
    by_cases hm : s.Due m ∧ s.wkupCbDeletes m .complete = true
    · exact .inl ⟨m, R, rfl, hm.1, hm.2, if_pos hm⟩
    · refine .inr ⟨h.resolve_right ?_, if_neg hm⟩
      rintro ⟨m', hM, hd⟩
      cases hM
      exact hm hd

/-- An entry that is not due is left. -/
theorem mem_leftAwake (hj : j ∈ M) (hnd : ¬ s.Due j) : j ∈ s.leftAwake M := by
  cases M with
  | nil => exact hj
  | cons m R =>
    rw [leftAwake]
    split
    · rename_i hm
      exact (List.mem_cons.mp hj).resolve_left fun heq => hnd (heq ▸ hm.1)
    · exact hj

theorem leftAwake_sublist (s : Soc) (M : List ℕ) : (s.leftAwake M).Sublist M := by
  cases M with
  | nil => exact .slnil
  | cons m R =>
    rw [leftAwake]
    split
    · exact List.sublist_cons_self m R
    · exact List.Sublist.refl _

/-- The loop that wakes, in both cases. -/
theorem slpFnProcess_ends (hf : s.Formed (k :: M)) (offset : ℕ) (h : s.WakingEnds M) :
    ∃ t, s.slpFnProcess offset = t.wakeHead k ∧ s.Kept t ∧ t.Lists (k :: s.leftAwake M) ∧
      ∀ j ∈ s.leftAwake M, ¬ s.Due j → t.deadline j = s.deadline j := by
  obtain ⟨m, R, rfl, hdue, hdel, hleft⟩ | ⟨hdel, hleft⟩ := h.cases
  · obtain ⟨t, ht, hkept, hl, hdeadline, -⟩ := slpFnProcess_deletes hf offset rfl hdue hdel
    rw [hleft]
    exact ⟨t, ht, hkept, hl, fun j hj _ => hdeadline j hj⟩
  · obtain ⟨t, ht, hkept, hl, hdeadline, -⟩ := slpFnProcess_wakes hf offset hdel
    rw [hleft]
    exact ⟨t, ht, hkept, hl, hdeadline⟩

theorem expiry_keeps_iff (hf : s.Formed L) (offset : ℕ) :
    s.KeepsOthers (fun j => s.slpLstHead = some j ∨ s.wkupCbDeletes j .abort = true) (s.slpFnProcess offset) ↔
      s.ExpiryKeeps L := by
  cases L with
  | nil =>
    have hhead : s.slpLstHead = none := hf.lists
    have hrun : s.slpFnProcess offset = some s := by simp only [slpFnProcess, hhead]
    rw [hrun]
    exact iff_of_true (keepsOthers_same rfl rfl rfl rfl) trivial
  | cons k M =>
    by_cases hends : s.WakingEnds M
    · obtain ⟨t, ht, hkept, hl, hdeadline⟩ := slpFnProcess_ends hf offset hends
      have hsub := s.leftAwake_sublist M
      have hlen : (s.leftAwake M).length ≤ socpmSlpLstSz :=
        le_trans hsub.length_le (Nat.le_of_succ_le hf.length_le)
      have hbound : ∀ i ∈ k :: s.leftAwake M, i < socpmSlpLstSz := fun i hi =>
        hf.bound i ((hsub.cons_cons k).subset hi)
      rw [ht]
      by_cases hend : s.aborts k = true →
          abortsEnd s.wkupCbDeletes (if s.wkupCbDeletes k .complete then 0 else 1) (s.leftAwake M)
      · refine iff_of_true ?_ ⟨hends, hend⟩
        obtain ⟨s', hs', -, hdeadline', N, hN, hmem⟩ := wakeHead_eq hl hlen hbound (by rwa [hkept.deletes, hkept.aborts])
        rw [hkept.deletes] at hdeadline' hmem
        refine ⟨s', hs', fun j hj hown ho => ?_⟩
        obtain ⟨hjk, hjd⟩ := not_or.mp hown
        rw [Bool.not_eq_true] at hjd
        have hjk : j ≠ k := fun heq => hjk (heq ▸ hf.lists.1)
        have hnd : ¬ s.Due j := fun hd => not_le.mpr ho hd.1
        have hjl := mem_leftAwake ((List.mem_cons.mp (hf.lists.inList.mp hj)).resolve_left hjk) hnd
        exact ⟨hN.inList.mpr (hmem j hjl hjd), (hdeadline' j hjk fun _ => hjd).trans (hdeadline j hjl hnd)⟩
      · obtain ⟨ha, hne⟩ := Classical.not_imp.mp hend
        rw [wakeHead_stuck hl hlen hbound (hkept.aborts.trans ha) (by rwa [hkept.deletes])]
        exact iff_of_false not_keepsOthers_none fun h => hend h.2
    · obtain ⟨m, R, rfl, hm, hdel⟩ := not_wakingEnds hends
      rw [slpFnProcess_stuck hf offset rfl hm hdel]
      exact iff_of_false not_keepsOthers_none fun h => hends h.1

/-! ### The warm boot -/

/-- The head is to sleep for `t` more, and the entry `c` starts now. -/
def rebased (s : Soc) (h t c : ℕ) : Soc := { s.setSlpTime h t with processRoutine := true }.setStart c

/-- What the head asks for. -/
def sleepBack (s : Soc) (h slpTmrUs : ℕ) : ℕ := s.minCb h ((slpTmrUs - s.slpTime h) % 2 ^ 32)

/-- The condition on `nt_socpm_min_proc`: the entry that starts now is the head, or it does not matter. -/
def MinProcKeeps (s : Soc) (slpTmrUs offset : ℕ) : List ℕ → Prop
  | [] => True
  | k :: M => s.sleepBack k slpTmrUs ≠ 0 → ∃ c, s.lastSlpCount = some c ∧ c < socpmSlpLstSz ∧
    (s.rebased k (slopAdjusted offset (s.sleepBack k slpTmrUs)) c).WakingEnds M ∧
    (c ∈ M → s.Overdue c ∨ s.startTimeUs c = s.now)

section MinProc

variable {t c : ℕ} (hf : s.Formed (k :: M))

include hf

theorem formed_rebased : (s.rebased k t c).Formed (k :: M) where
  lists := hf.lists
  bound := hf.bound
  off := hf.off
  start_le j hj := by
    obtain rfl | hne := eq_or_ne j c
    · simp [rebased, setStart, setSlpTime]
    · simpa [rebased, setStart, setSlpTime, hne] using hf.start_le j hj

theorem not_due_rebased (hj : j ∈ M) (ho : ¬ s.Overdue j) : ¬ (s.rebased k t c).Due j := by
  have hjk : j ≠ k := ne_of_mem_of_not_mem hj (List.nodup_cons.mp hf.lists.nodup).1
  have hstart := hf.start_le j (List.mem_cons_of_mem k hj)
  refine fun hd => ho ?_
  have hd : Function.update s.startTimeUs c s.now j + Function.update s.slpTime k t j ≤ s.now := hd.1
  rw [Function.update_of_ne hjk] at hd
  rw [Overdue]
  obtain rfl | hne := eq_or_ne j c
  · rw [Function.update_self] at hd
    omega
  · rwa [Function.update_of_ne hne] at hd

theorem rebased_deadline (hj : j ∈ M) :
    (s.rebased k t c).deadline j = s.deadline j ↔ (j = c → s.startTimeUs j = s.now) := by
  have hjk : j ≠ k := ne_of_mem_of_not_mem hj (List.nodup_cons.mp hf.lists.nodup).1
  change Function.update s.startTimeUs c s.now j + Function.update s.slpTime k t j = _ ↔ _
  rw [Function.update_of_ne hjk, deadline, Nat.add_right_cancel_iff]
  obtain rfl | hne := eq_or_ne j c
  · rw [Function.update_self]
    simp [eq_comm]
  · simp [hne]

theorem lstUpdate_ends (h : s.WakingEnds M) :
    ∃ x woken, s.lstUpdate still true = some (x, woken) ∧ x.Lists (k :: s.leftAwake M) ∧
      ∀ j ∈ s.leftAwake M, ¬ s.Due j → x.deadline j = s.deadline j := by
  obtain ⟨m, R, rfl, hdue, hdel, hleft⟩ | ⟨hdel, hleft⟩ := h.cases
  · obtain ⟨x, hx, -, hl, hdeadline, -⟩ := lstUpdate_deletes hf rfl hdue hdel
    rw [hleft]
    refine ⟨x, true, hx, hl, fun j hj hnd => hdeadline j fun heq => hnd (heq ▸ hdue)⟩
  · obtain ⟨x, hx, -, hnext, hhead, hdeadline, -⟩ := lstUpdate_wakes hf hdel
    rw [hleft]
    refine ⟨x, _, hx, ?_, fun j _ hnd => hdeadline j fun _ => hnd⟩
    rw [Lists, hnext, hhead]
    exact hf.lists

/-- The call ends, and the entries that are not due are in the list as after the restart. -/
theorem minProc_ends (slpTmrUs offset : ℕ) (hback : s.sleepBack k slpTmrUs ≠ 0) (hlast : s.lastSlpCount = some c)
    (hc : c < socpmSlpLstSz) (h : (s.rebased k (slopAdjusted offset (s.sleepBack k slpTmrUs)) c).WakingEnds M) :
    ∃ s', (s.minProc slpTmrUs offset).map Prod.fst = some s' ∧
      ∀ j ∈ M, ¬ (s.rebased k (slopAdjusted offset (s.sleepBack k slpTmrUs)) c).Due j →
        s'.InList j ∧ s'.deadline j = (s.rebased k (slopAdjusted offset (s.sleepBack k slpTmrUs)) c).deadline j := by
  have hhead : s.slpLstHead = some k := hf.lists.1
  have hkM : k ∉ M := (List.nodup_cons.mp hf.lists.nodup).1
  obtain ⟨x, woken, hx, hl, hdeadline⟩ := lstUpdate_ends (formed_rebased hf) h
  have hlen : (k :: leftAwake (s.rebased k (slopAdjusted offset (s.sleepBack k slpTmrUs)) c) M).length ≤ socpmSlpLstSz :=
    le_trans ((leftAwake_sublist _ M).cons_cons k).length_le hf.length_le
  rw [sleepBack] at hback
  rw [rebased, sleepBack] at hx
  simp only [minProc, hhead, if_neg hback, hlast, if_neg (not_le.mpr hc), hx]
  cases woken with
  | true =>
    refine ⟨x, rfl, fun j hj hnd => ⟨?_, hdeadline j (mem_leftAwake hj hnd) hnd⟩⟩
    exact hl.inList.mpr (List.mem_cons_of_mem k (mem_leftAwake hj hnd))
  | false =>
    have hl' : x.slptmrOff.Lists _ := hl
    obtain ⟨s', hs', hd, -, hkeep⟩ := lstReorder_keeps hl' hlen (.inr hl'.1)
    refine ⟨s', by simp [hs'], fun j hj hnd => ⟨?_, ?_⟩⟩
    · exact hkeep j (List.mem_cons_of_mem k (mem_leftAwake hj hnd)) (ne_of_mem_of_not_mem hj hkM)
    · exact hd.deadline.trans (hdeadline j (mem_leftAwake hj hnd) hnd)

end MinProc

theorem minProc_keeps_iff (hf : s.Formed L) (slpTmrUs offset : ℕ) :
    s.KeepsOthers (fun j => s.slpLstHead = some j) ((s.minProc slpTmrUs offset).map Prod.fst) ↔
      s.MinProcKeeps slpTmrUs offset L := by
  cases L with
  | nil =>
    have hhead : s.slpLstHead = none := hf.lists
    simp only [minProc, hhead, Option.map_some]
    exact iff_of_true (keepsOthers_same rfl rfl rfl rfl) trivial
  | cons k M =>
    have hhead : s.slpLstHead = some k := hf.lists.1
    by_cases hback : s.sleepBack k slpTmrUs = 0
    · have hrun : s.minProc slpTmrUs offset = some (s, 0) := by
        rw [sleepBack] at hback
        simp only [minProc, hhead, if_pos hback]
      rw [hrun]
      exact iff_of_true (keepsOthers_same rfl rfl rfl rfl) fun h => absurd hback h
    · cases hlast : s.lastSlpCount with
      | none =>
        have hrun : s.minProc slpTmrUs offset = none := by
          rw [sleepBack] at hback
          simp only [minProc, hhead, if_neg hback, hlast]
        rw [hrun]
        refine iff_of_false not_keepsOthers_none fun h => ?_
        obtain ⟨c, hc, -⟩ := h hback
        cases hlast.symm.trans hc
      | some c =>
        have hcond : s.MinProcKeeps slpTmrUs offset (k :: M) ↔ c < socpmSlpLstSz ∧
            (s.rebased k (slopAdjusted offset (s.sleepBack k slpTmrUs)) c).WakingEnds M ∧
            (c ∈ M → s.Overdue c ∨ s.startTimeUs c = s.now) := by
          constructor
          · intro h
            obtain ⟨c', hc', h⟩ := h hback
            cases hlast.symm.trans hc'
            exact h
          · exact fun h _ => ⟨c, hlast, h⟩
        rw [hcond]
        have hback' := hback
        rw [sleepBack] at hback'
        by_cases hc : c < socpmSlpLstSz
        · by_cases hends : (s.rebased k (slopAdjusted offset (s.sleepBack k slpTmrUs)) c).WakingEnds M
          · obtain ⟨s', hs', hkeep⟩ := minProc_ends hf slpTmrUs offset hback hlast hc hends
            rw [hs']
            constructor
            · rintro ⟨x, hx, h⟩
              cases hx
              refine ⟨hc, hends, fun hcM => or_iff_not_imp_left.mpr fun ho => ?_⟩
              have hck : s.slpLstHead ≠ some c := fun heq =>
                ne_of_mem_of_not_mem hcM (List.nodup_cons.mp hf.lists.nodup).1 (Option.some.inj (heq.symm.trans hhead))
              have hd := (h c (hf.lists.inList.mpr (List.mem_cons_of_mem k hcM)) hck (not_le.mp ho)).2
              rw [(hkeep c hcM (not_due_rebased hf hcM ho)).2, rebased_deadline hf hcM] at hd
              exact hd rfl
            · rintro ⟨-, -, h⟩
              refine ⟨s', rfl, fun j hj hown ho => ?_⟩
              have hjM : j ∈ M := (List.mem_cons.mp (hf.lists.inList.mp hj)).resolve_left fun heq =>
                hown (heq ▸ hhead)
              have hno : ¬ s.Overdue j := not_le.mpr ho
              obtain ⟨hin, hd⟩ := hkeep j hjM (not_due_rebased hf hjM hno)
              refine ⟨hin, hd.trans ((rebased_deadline hf hjM).mpr fun heq => ?_)⟩
              subst heq
              exact (h hjM).resolve_left hno
          · obtain ⟨m, R, rfl, hm, hdel⟩ := not_wakingEnds hends
            have hstuck := lstUpdate_stuck (formed_rebased hf) rfl hm hdel
            rw [rebased, sleepBack] at hstuck
            have hrun : s.minProc slpTmrUs offset = none := by
              simp only [minProc, hhead, if_neg hback', hlast, if_neg (not_le.mpr hc), hstuck]
            rw [hrun]
            exact iff_of_false not_keepsOthers_none fun h => hends h.2.1
        · have hrun : s.minProc slpTmrUs offset = none := by
            simp only [minProc, hhead, if_neg hback', hlast, if_pos (not_lt.mp hc)]
          rw [hrun]
          exact iff_of_false not_keepsOthers_none fun h => hc h.1

end Soc

/-! ### All operations -/

/-- The condition on an operation. -/
def Operation.Harmless (s : Soc) (L : List ℕ) : Operation → Prop
  | .register info listIdx offset => s.RegisterKeeps L info listIdx offset
  | .delete i => Soc.DeleteEnds L i
  | .expiry _ => s.ExpiryKeeps L
  | .minProc slpTmrUs offset => s.MinProcKeeps slpTmrUs offset L
  | .earlyWake => s.EarlyWakeKeeps L

/-- For every well-formed list an operation leaves the others their deadlines if and only if it is harmless. -/
theorem deadlines_kept_iff {s : Soc} {L : List ℕ} (hf : s.Formed L) (o : Operation) :
    s.KeepsOthers (o.own s) (o.run s) ↔ o.Harmless s L := by
  cases o with
  | register info listIdx offset => exact Soc.register_keeps_iff hf info listIdx offset
  | delete i =>
    refine (Soc.delete_keeps_iff hf).trans ⟨And.left, fun h => ⟨h, fun _ _ => .inl rfl⟩⟩
  | expiry offset => exact Soc.expiry_keeps_iff hf offset
  | minProc slpTmrUs offset => exact Soc.minProc_keeps_iff hf slpTmrUs offset
  | earlyWake => exact Soc.earlyWake_keeps_iff hf

/-- The second of three sleepers is deleted. -/
theorem deadlines_kept_three :
    (Soc.row 3 (fun i => 20 + i) fun _ _ => false).KeepsOthers (· = 1)
      ((Soc.row 3 (fun i => 20 + i) fun _ _ => false).lstDelete 1) :=
  (deadlines_kept_iff (L := [0, 1, 2]) (Soc.row_formed (by decide)) (.delete 1)).mpr
    (show Soc.DeleteEnds [0, 1, 2] 1 by decide)

/-- When the entry of the RTOS is 1, an early wake-up deletes the entry 0 all the same. When the entry 1 was
    registered last, the warm boot moves its deadline from 25 to 35, for the head. When the second of three entries is
    to sleep for 1, the third is lost. -/
theorem deadlines_moved :
    (let s := { Soc.row 2 (fun _ => 20) fun _ _ => false with slpListIdxRtos := some 1 }
    s.Formed [0, 1] ∧ ¬ s.KeepsOthers (Operation.earlyWake.own s) (Operation.earlyWake.run s)) ∧
    (let s := { Soc.row 2 (fun _ => 20) fun _ _ => false with lastSlpCount := some 1, minCb := fun _ _ => 100 }
    s.Formed [0, 1] ∧ (s.minProc 20 0).map (fun r => (s.deadline 1, r.1.deadline 1)) = some (25, 35) ∧
      ¬ s.KeepsOthers ((Operation.minProc 20 0).own s) ((Operation.minProc 20 0).run s)) ∧
    (let s := Soc.row 3 (fun i => 20 + i) fun _ _ => false
    s.Formed [0, 1, 2] ∧ ¬ s.KeepsOthers ((Operation.register (some (.plain 1)) (some 1) 0).own s)
      ((Operation.register (some (.plain 1)) (some 1) 0).run s)) := by
  have hrow : (Soc.row 2 (fun _ => 20) fun _ _ => false).Formed [0, 1] := Soc.row_formed (by decide)
  have hrow₃ : (Soc.row 3 (fun i => 20 + i) fun _ _ => false).Formed [0, 1, 2] := Soc.row_formed (by decide)
  refine ⟨?_, ?_, hrow₃, fun h => ?_⟩
  · intro s
    have hf : s.Formed [0, 1] := ⟨hrow.1, hrow.2, hrow.3, hrow.4⟩
    refine ⟨hf, fun h => ?_⟩
    obtain h | ⟨-, h⟩ := (Soc.earlyWake_keeps_iff hf).mp h
    · cases h
    · exact absurd (h (by decide)) (by decide)
  · intro s
    have hf : s.Formed [0, 1] := ⟨hrow.1, hrow.2, hrow.3, hrow.4⟩
    refine ⟨hf, rfl, fun h => ?_⟩
    obtain ⟨c, hc, -, -, h⟩ := (Soc.minProc_keeps_iff hf 20 0).mp h (by decide)
    cases hc
    exact absurd (h (by decide)) (by decide)
  · have h := ((Soc.register_keeps_iff hrow₃ (some (.plain 1)) (some 1) 0).mp h).2 _ rfl (by decide)
    have h := ((h.1 (.inl (by simp))) 0 [] [2] rfl).1 (.inr (.inl (by decide))) 2 (by decide)
    exact absurd h (by decide)

end Qcc730.Sleep
