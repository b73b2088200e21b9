import Qcc730.Sleep.Links
import Qcc730.Lib.Reach

/-! The order of the sleep list.

    Time passes between the calls and during them, and every registration takes it off the entries that are not
    overdue. -/

namespace Qcc730.Sleep

open Lib

namespace Soc

variable {s s' : Soc} {L M : List ℕ} {i : ℕ}

/-! ### Sorted lists -/

theorem left_pos (h : 0 < s.slpTime i) : 0 < s.left i := by
  rw [left]
  split
  · exact h
  · rename_i ho
    rw [Overdue] at ho
    omega

theorem left_le_slpTime (h : s.startTimeUs i ≤ s.now) : s.left i ≤ s.slpTime i := by
  rw [left]
  split
  · exact le_rfl
  · omega

/-- Taking the time off keeps the order, if it keeps it between neighbours of which the second is not overdue. -/
theorem left_sorted (hL : L.Pairwise fun a b => s.slpTime a ≤ s.slpTime b) (hstart : ∀ i ∈ L, s.startTimeUs i ≤ s.now)
    (hchain : L.IsChain fun a b => ¬ s.Overdue b → s.left a ≤ s.left b) :
    L.Pairwise fun a b => s.left a ≤ s.left b := by
  have : IsTrans ℕ fun a b => s.left a ≤ s.left b := ⟨fun _ _ _ => le_trans⟩
  rw [← List.isChain_iff_pairwise]
  induction L with
  | nil => exact .nil
  | cons a L ih =>
    cases L with
    | nil => exact .singleton a
    | cons b L =>
      obtain ⟨hab, hL⟩ := List.pairwise_cons.mp hL
      rw [List.isChain_cons_cons] at hchain ⊢
      refine ⟨?_, ih hL (fun i hi => hstart i (List.mem_cons_of_mem a hi)) hchain.2⟩
      by_cases ho : s.Overdue b
      · calc s.left a ≤ s.slpTime a := left_le_slpTime (hstart a List.mem_cons_self)
          _ ≤ s.slpTime b := hab b List.mem_cons_self
          _ = s.left b := (if_pos ho).symm
      · exact hchain.1 ho

/-- The invariant of the list `L`. -/
structure Inv (s : Soc) (L : List ℕ) : Prop where
  lists : s.Lists L
  mem : ∀ i, i ∈ L ↔ s.registered i = true
  bound : ∀ i ∈ L, i < socpmSlpLstSz
  off : ∀ i ∉ L, s.next i = none
  pos : ∀ i ∈ L, 0 < s.slpTime i
  sorted : L.Pairwise fun a b => s.slpTime a ≤ s.slpTime b
  start_le : ∀ i ∈ L, s.startTimeUs i ≤ s.now

namespace Inv

theorem length_le (h : s.Inv L) : L.length ≤ socpmSlpLstSz := by
  have := (h.lists.nodup.subperm fun i hi => List.mem_range.mpr (h.bound i hi)).length_le
  rwa [List.length_range] at this

/-- Only the links change, and the list has the same entries. -/
theorem relink (h : s.Inv L) (hd : s.SameData s') (hl : s'.Lists M) (hmem : ∀ j, j ∈ M ↔ j ∈ L)
    (hoff : ∀ j ∉ M, s'.next j = none) (hsorted : M.Pairwise fun a b => s.slpTime a ≤ s.slpTime b) : s'.Inv M := by
  obtain ⟨next, head, mode, tmr, rfl⟩ := hd
  exact {
    lists := hl
    mem := fun j => (hmem j).trans (h.mem j)
    bound := fun j hj => h.bound j ((hmem j).mp hj)
    off := hoff
    pos := fun j hj => h.pos j ((hmem j).mp hj)
    sorted := hsorted
    start_le := fun j hj => h.start_le j ((hmem j).mp hj) }

end Inv

/-- An entry goes between those that are not above it and those that are. -/
theorem sorted_insert {A B : List ℕ} {f : ℕ → ℕ} (h : (A ++ B).Pairwise fun a b => f a ≤ f b)
    (hA : ∀ a ∈ A, f a ≤ f i) (hB : ∀ b ∈ B.head?, f i < f b) : (A ++ i :: B).Pairwise fun a b => f a ≤ f b := by
  rw [List.pairwise_append] at h ⊢
  have hiB : ∀ b ∈ B, f i ≤ f b := by
    intro b hb
    cases B with
    | nil => simp at hb
    | cons c B =>
      have hc := hB c rfl
      obtain rfl | hb := List.mem_cons.mp hb
      · exact hc.le
      · exact hc.le.trans ((List.pairwise_cons.mp h.2.1).1 b hb)
  refine ⟨h.1, List.pairwise_cons.mpr ⟨hiB, h.2.1⟩, fun a ha b hb => ?_⟩
  obtain rfl | hb := List.mem_cons.mp hb
  · exact hA a ha
  · exact h.2.2 a ha b hb

/-- An entry that was not linked is put into a list that is in order. -/
theorem lstReorder_inserts (h : s.Lists L) (hi : i ∉ L) (hnext : ∀ j ∉ L, s.next j = none)
    (hlen : L.length ≤ socpmSlpLstSz) (hpos : 0 < s.slpTime i) (hL : ∀ j ∈ L, 0 < s.slpTime j)
    (hsorted : L.Pairwise fun a b => s.slpTime a ≤ s.slpTime b) :
    ∃ s' M, s.lstReorder i = some s' ∧ s.SameData s' ∧ s'.Lists M ∧ (∀ j, j ∈ M ↔ j = i ∨ j ∈ L) ∧
      (∀ j ∉ M, s'.next j = none) ∧ M.Pairwise fun a b => s.slpTime a ≤ s.slpTime b := by
  obtain ⟨s', A, B, hs', hd, rfl, hnext', hlists, hfirst, hA, hB⟩ := lstReorder_fresh h hi (hnext i hi) hlen
  have hlists : s'.Lists (A ++ i :: B) := hlists.resolve_right fun hz => by omega
  refine ⟨s', A ++ i :: B, hs', hd, hlists, fun j => ?_, fun j hj => ?_, sorted_insert hsorted ?_ ?_⟩
  · simp only [List.mem_append, List.mem_cons]
    tauto
  · have : j ∉ i :: (A ++ B) := fun hmem => hj (by
      simp only [List.mem_append, List.mem_cons] at hmem ⊢
      tauto)
    rw [hnext' j this]
    exact hnext j fun hmem => this (List.mem_cons_of_mem i hmem)
  · intro a ha
    have := hA a ha
    omega
  · intro b hb
    cases A with
    | nil =>
      have := hfirst rfl b hb
      have := hL b (List.mem_of_mem_head? hb)
      omega
    | cons a A => exact hB (by simp) b hb

/-- The head is put into the rest of the list. -/
theorem lstReorder_reinserts (h : s.Lists (i :: L)) (hnext : ∀ j ∉ i :: L, s.next j = none)
    (hlen : L.length ≤ socpmSlpLstSz) (hpos : ∀ j ∈ i :: L, 0 < s.slpTime j)
    (hsorted : L.Pairwise fun a b => s.slpTime a ≤ s.slpTime b) :
    ∃ s' M, s.lstReorder i = some s' ∧ s.SameData s' ∧ s'.Lists M ∧ (∀ j, j ∈ M ↔ j ∈ i :: L) ∧
      (∀ j ∉ M, s'.next j = none) ∧ M.Pairwise fun a b => s.slpTime a ≤ s.slpTime b := by
  have hni : i ∉ L := (List.nodup_cons.mp h.nodup).1
  obtain ⟨hl, hd, hi, hrest⟩ := h.listSearch
  rw [lstReorder_head h]
  have hoff : ∀ j ∉ L, (s.listSearch i).next j = none := by
    intro j hj
    obtain rfl | hne := eq_or_ne j i
    · exact hi
    · rw [hrest j hne]
      exact hnext j (by simp [hne, hj])
  have htime : (s.listSearch i).slpTime = s.slpTime := hd.slpTime
  obtain ⟨s', M, hs', hd', hl', hmem, hoff', hsorted'⟩ := lstReorder_inserts hl hni hoff hlen
    (htime ▸ hpos i List.mem_cons_self) (fun j hj => htime ▸ hpos j (List.mem_cons_of_mem i hj)) (htime ▸ hsorted)
  rw [htime] at hsorted'
  refine ⟨s', M, hs', hd.trans hd', hl', fun j => ?_, hoff', hsorted'⟩
  rw [hmem, List.mem_cons]

/-! ### Registration -/

section Enter

variable (info : SleepInfo) (offset : ℕ)

theorem slopAdjusted_pos {t : ℕ} (ht : 0 < t) : 0 < slopAdjusted offset t := by
  rw [slopAdjusted]
  split <;> omega

/-- The state when the registration of the entry `i` begins the update: since its call the clock was read twice. -/
def entering (s : Soc) (info : SleepInfo) (i offset : ℕ) (d : ℕ → ℕ) : Soc :=
  ((s.setNow (s.now + d 0)).setInfo info i offset).setNow (s.now + d 0 + d 1)

theorem entering_self {d : ℕ → ℕ} :
    (s.entering info i offset d).slpTime i = slopAdjusted offset info.slpTime ∧
      (s.entering info i offset d).startTimeUs i = s.now + d 0 :=
  ⟨Function.update_self .., Function.update_self ..⟩

theorem entering_other {d : ℕ → ℕ} {j : ℕ} (hj : j ≠ i) :
    (s.entering info i offset d).slpTime j = s.slpTime j ∧
      (s.entering info i offset d).startTimeUs j = s.startTimeUs j :=
  ⟨Function.update_of_ne hj .., Function.update_of_ne hj ..⟩

theorem entering_start {d : ℕ → ℕ} (hstart : ∀ j ∈ L, s.startTimeUs j ≤ s.now) :
    ∀ j, j = i ∨ j ∈ L → (s.entering info i offset d).startTimeUs j ≤ (s.entering info i offset d).now := by
  intro j hj
  change _ ≤ s.now + d 0 + d 1
  obtain rfl | hne := eq_or_ne j i
  · rw [(entering_self info offset).2]
    exact Nat.le_add_right ..
  · have := hstart j (hj.resolve_left hne)
    rw [(entering_other info offset hne).2]
    omega

/-- The entry is linked after the update, whenever this reads the clock. -/
theorem enter_goes {d : ℕ → ℕ} (h : s.Lists L) (hlen : L.length ≤ socpmSlpLstSz)
    (hstart : ∀ j ∈ L, s.startTimeUs j ≤ s.now) :
    ∃ g c, s.enter info i offset d =
        (((s.entering info i offset d).retime ((s.entering info i offset d).leftOf (s.now + d 0 + d 1) L) g).setNow
          c).lstReorder i ∧
      ∀ j, j = i ∨ j ∈ L → g j ≤ c := by
  rw [enter]
  cases L with
  | nil =>
    have hhead : ((s.setNow (s.now + d 0)).setInfo info i offset).slpLstHead = none := h
    simp only [hhead]
    refine ⟨(s.entering info i offset d).startTimeUs, s.now + d 0, rfl, fun j hj => ?_⟩
    obtain rfl := hj.resolve_right List.not_mem_nil
    exact (Function.update_self ..).le
  | cons k L =>
    have hhead : ((s.setNow (s.now + d 0)).setInfo info i offset).slpLstHead = some k := h.1
    have hfuel : (k :: L).length ≤ 2 * socpmSlpLstSz := by omega
    obtain ⟨g, c, hrun, hg, -⟩ := @updateFrom_goes (s.entering info i offset d) (k :: L) _
      (2 * socpmSlpLstSz) (fun n => d (n + 2)) s.slpLstHead false h hfuel fun j hj =>
        entering_start info offset hstart j (.inr hj)
    have hupdate : ((s.setNow (s.now + d 0)).setInfo info i offset).lstUpdate (fun n => d (n + 1)) false = _ := hrun
    simp only [hhead, hupdate]
    refine ⟨g, c, rfl, fun j hj => ?_⟩
    by_cases hanew : j ∈ k :: L ∧ ¬ ((s.entering info i offset d).setNow (s.now + d 0 + d 1)).Overdue j
    · exact (hg.anew j hanew).2
    · rw [hg.kept j hanew]
      exact (entering_start info offset hstart j hj).trans hg.now_le

/-- When the clock stands. -/
theorem enter_eq (h : s.Lists L) (hlen : L.length ≤ socpmSlpLstSz) (hstart : ∀ j ∈ L, s.startTimeUs j ≤ s.now) :
    s.enter info i offset still = ((s.setInfo info i offset).aged L).lstReorder i := by
  rw [enter]
  cases L with
  | nil =>
    have hhead : ((s.setNow (s.now + still 0)).setInfo info i offset).slpLstHead = none := h
    simp only [hhead, aged_nil]
    rfl
  | cons k L =>
    have hhead : ((s.setNow (s.now + still 0)).setInfo info i offset).slpLstHead = some k := h.1
    have hupdate : ((s.setNow (s.now + still 0)).setInfo info i offset).lstUpdate (fun n => still (n + 1)) false = _ :=
      updateFrom_false (s := s.setInfo info i offset) h (by omega) fun j hj =>
        entering_start (d := still) info offset hstart j (.inr hj)
    simp only [hhead, hupdate]

/-- The times after the entry got its data and the list is brought up to date. -/
theorem setInfo_aged_self :
    ((s.setInfo info i offset).aged L).slpTime i = slopAdjusted offset info.slpTime ∧
      ((s.setInfo info i offset).aged L).startTimeUs i = s.now := by
  simp only [aged, retime, left]
  constructor
  · split
    · split
      · simp [setInfo]
      · simp [setInfo]
    · simp [setInfo]
  · simp [setInfo]

theorem setInfo_aged_other {j : ℕ} (hj : j ≠ i) (hL : j ∈ L) :
    ((s.setInfo info i offset).aged L).slpTime j = s.left j ∧
      ((s.setInfo info i offset).aged L).startTimeUs j = if s.Overdue j then s.startTimeUs j else s.now := by
  have hover : (s.setInfo info i offset).Overdue j ↔ s.Overdue j := by
    simp [Overdue, setInfo, hj]
  simp only [aged, retime, left, hL, if_true, hover, true_and]
  by_cases ho : s.Overdue j <;> simp [setInfo, hj, ho]

/-- All entries have time after the update. -/
theorem leftOf_pos {f : ℕ → ℕ} {d : ℕ → ℕ} (ht : 0 < info.slpTime) (hpos : ∀ j ∈ L, 0 < s.slpTime j)
    (hf : (s.entering info i offset d).leftOf (s.now + d 0 + d 1) L = f) : ∀ j, j = i ∨ j ∈ L → 0 < f j := by
  have htime : ∀ j, j = i ∨ j ∈ L → 0 < (s.entering info i offset d).slpTime j := by
    intro j hj
    obtain rfl | hne := eq_or_ne j i
    · rw [(entering_self info offset).1]
      exact slopAdjusted_pos offset ht
    · rw [(entering_other info offset hne).1]
      exact hpos j (hj.resolve_left hne)
  intro j hj
  rw [← hf, leftOf]
  split
  · exact left_pos (htime j hj)
  · exact htime j hj

/-- The invariant after the entry is linked. -/
theorem Inv.entered {info : SleepInfo} {offset c : ℕ} {d f g : ℕ → ℕ} (h : s.Inv L) (hi : i < socpmSlpLstSz)
    (hf : ∀ j, j = i ∨ j ∈ L → 0 < f j) (hg : ∀ j, j = i ∨ j ∈ L → g j ≤ c)
    (hd : (((s.entering info i offset d).retime f g).setNow c).SameData s') (hl : s'.Lists M)
    (hmem : ∀ j, j ∈ M ↔ j = i ∨ j ∈ L) (hoff : ∀ j ∉ M, s'.next j = none)
    (hsorted : M.Pairwise fun a b => f a ≤ f b) : s'.Inv M := by
  obtain ⟨next, head, mode, tmr, rfl⟩ := hd
  refine ⟨hl, fun j => ?_, fun j hj => ?_, hoff, fun j hj => hf j ((hmem j).mp hj), hsorted,
    fun j hj => hg j ((hmem j).mp hj)⟩
  · rw [hmem j]
    obtain rfl | hne := eq_or_ne j i
    · simp [retime, setNow, entering, setInfo]
    · simp [retime, setNow, entering, setInfo, hne, h.mem j]
  · obtain rfl | hj := (hmem j).mp hj
    · exact hi
    · exact h.bound j hj

/-- The condition on a registration of the entry `i`, in the state in which the update begins. Of the other entries
    none stands before one that is not overdue and has less left. And `i` is not in the list, or it is the head, or it
    can stay where it is, or there are two entries and it goes to the front. -/
def Fits (s : Soc) (i : ℕ) : Prop :=
  ∃ L, s.Lists L ∧
    ((L.erase i).IsChain fun a b => ¬ s.Overdue b → s.left a ≤ s.left b) ∧
    (i ∉ L ∨ s.slpLstHead = some i ∨
      (∃ k A B, L = k :: A ++ i :: B ∧ (∀ a ∈ k :: A, s.left a ≤ s.left i) ∧ ∀ b ∈ B.head?, s.left i < s.left b) ∨
      ∃ k, L = [k, i] ∧ s.left i < s.left k)

/-- The other entries are in order when the time is taken off. -/
theorem Inv.others_sorted {d : ℕ → ℕ} (h : s.Inv L)
    (hchain : (L.erase i).IsChain fun a b => ¬ (s.entering info i offset d).Overdue b →
      (s.entering info i offset d).left a ≤ (s.entering info i offset d).left b) :
    (L.erase i).Pairwise fun a b => (s.entering info i offset d).left a ≤ (s.entering info i offset d).left b := by
  have hsub : ∀ j ∈ L.erase i, j ≠ i ∧ j ∈ L := fun j hj => h.lists.nodup.mem_erase_iff.mp hj
  refine left_sorted ((h.sorted.sublist List.erase_sublist).imp_of_mem fun {a b} ha hb hab => ?_)
    (fun j hj => entering_start info offset h.start_le j (.inr (hsub j hj).2)) hchain
  rwa [(entering_other info offset (hsub a ha).1).1, (entering_other info offset (hsub b hb).1).1]

theorem Inv.enter {info : SleepInfo} {d : ℕ → ℕ} (h : s.Inv L) (hi : i < socpmSlpLstSz) (ht : 0 < info.slpTime)
    (hfits : (s.entering info i offset d).Fits i) :
    ∃ s' M, s.enter info i offset d = some s' ∧ s'.Inv M := by
  obtain ⟨L', hL', hchain, hplace⟩ := hfits
  obtain rfl : L' = L := Path.unique hL' h.lists
  obtain ⟨g, c, hrun, hg⟩ := enter_goes (i := i) (d := d) info offset h.lists h.length_le h.start_le
  rw [hrun]
  generalize hf : (s.entering info i offset d).leftOf (s.now + d 0 + d 1) L' = f
  have hleft : ∀ j ∈ L', f j = (s.entering info i offset d).left j := fun j hj => by
    rw [← hf]
    exact if_pos hj
  have hpos := leftOf_pos info offset ht h.pos hf
  have hothers : (L'.erase i).Pairwise fun a b => f a ≤ f b := by
    refine (h.others_sorted info offset hchain).imp_of_mem fun {a b} ha hb hab => ?_
    rwa [hleft a (List.mem_of_mem_erase ha), hleft b (List.mem_of_mem_erase hb)]
  have hlists : (((s.entering info i offset d).retime f g).setNow c).Lists L' := h.lists
  obtain hni | hhead | ⟨k, A, B, rfl, hA, hB⟩ | ⟨k, rfl, hlt⟩ := hplace
  · rw [List.erase_of_not_mem hni] at hothers
    obtain ⟨s', M, hs', hd, hl, hmem, hoff, hsorted⟩ := lstReorder_inserts hlists hni h.off h.length_le (hpos i (.inl rfl))
      (fun j hj => hpos j (.inr hj)) hothers
    exact ⟨s', M, hs', h.entered hi hpos hg hd hl hmem hoff hsorted⟩
  · cases L' with
    | nil => cases hhead.symm.trans h.lists
    | cons k L =>
      obtain rfl : i = k := Option.some.inj (hhead.symm.trans h.lists.1)
      rw [List.erase_cons_head] at hothers
      obtain ⟨s', M, hs', hd, hl, hmem, hoff, hsorted⟩ := lstReorder_reinserts hlists h.off
        (Nat.le_of_succ_le h.length_le) (fun j hj => hpos j (.inr hj)) hothers
      refine ⟨s', M, hs', h.entered hi hpos hg hd hl (fun j => ?_) hoff hsorted⟩
      rw [hmem, List.mem_cons]
      tauto
  · have hnodup := List.nodup_append.mp h.lists.nodup
    have hiA : i ∉ k :: A := fun hi => hnodup.2.2 i hi i List.mem_cons_self rfl
    have hA' : ∀ a ∈ k :: A, f a ≤ f i := by
      intro a ha
      rw [hleft a (List.mem_append_left _ ha), hleft i (by simp)]
      exact hA a ha
    have hB' : ∀ b ∈ B.head?, f i < f b := by
      intro b hb
      rw [hleft i (by simp), hleft b (by simp [List.mem_of_mem_head? hb])]
      exact hB b hb
    obtain ⟨s', hs', hd, hn, hhead⟩ := lstReorder_keep hlists h.length_le (hpos k (by simp)) hA' hB'
    rw [List.erase_append_right _ hiA, List.erase_cons_head] at hothers
    refine ⟨s', _, hs', h.entered hi hpos hg hd ?_ (fun j => ?_) (fun j hj => ?_) (sorted_insert hothers hA' hB')⟩
    · rw [Lists, hn, hhead]
      exact h.lists
    · refine ⟨.inr, ?_⟩
      rintro (rfl | hj)
      · simp
      · exact hj
    · rw [hn]
      exact h.off j hj
  · have hlt' : f i < f k := by
      rw [hleft i (by simp), hleft k (by simp)]
      exact hlt
    obtain ⟨s', hs', hd, hl, hn⟩ := lstReorder_swap hlists (hpos i (.inl rfl)) hlt'
    refine ⟨s', [i, k], hs', h.entered hi hpos hg hd hl (fun j => ?_) (fun j hj => ?_) ?_⟩
    · simp only [List.mem_cons, List.not_mem_nil, or_false]
      tauto
    · rw [hn j hj]
      exact h.off j fun hmem => hj (by simpa [or_comm] using hmem)
    · simpa using hlt'.le

end Enter

/-! ### Deletion -/

/-- The condition on a deletion: the entry is one of the first two, or there are no two. -/
def Deletable (s : Soc) (i : ℕ) : Prop := i < socpmSlpLstSz → ∃ L, s.Lists L ∧ (L.length ≤ 1 ∨ i ∈ L.take 2)

theorem Inv.lstDelete (h : s.Inv L) (hdel : s.Deletable i) : ∃ s' M, s.lstDelete i = some s' ∧ s'.Inv M := by
  by_cases hi : i < socpmSlpLstSz
  · obtain ⟨L', hL', hfew⟩ := hdel hi
    obtain rfl : L' = L := hL'.unique h.lists
    obtain ⟨s', hs', ⟨time, next, head, mode, tmr, htime, rfl⟩, hl, hnext, hnexti⟩ := lstDelete_lists h.lists hi hfew
    have hsub : ∀ j ∈ L'.erase i, j ≠ i ∧ j ∈ L' := fun j hj => h.lists.nodup.mem_erase_iff.mp hj
    refine ⟨_, L'.erase i, hs', hl, fun j => ?_, fun j hj => h.bound j (hsub j hj).2, fun j hj => ?_, fun j hj => ?_, ?_,
      fun j hj => h.start_le j (hsub j hj).2⟩
    · rw [h.lists.nodup.mem_erase_iff, h.mem j]
      obtain rfl | hne := eq_or_ne j i
      · simp
      · simp [hne]
    · by_cases hjL : j ∈ L'
      · obtain rfl : j = i := by
          by_contra hne
          exact hj (h.lists.nodup.mem_erase_iff.mpr ⟨hne, hjL⟩)
        exact hnexti hjL
      · rw [hnext j hjL]
        exact h.off j hjL
    · simp only [htime j (hsub j hj).1]
      exact h.pos j (hsub j hj).2
    · refine (h.sorted.sublist List.erase_sublist).imp_of_mem fun {a b} ha hb hab => ?_
      simp only [htime a (hsub a ha).1, htime b (hsub b hb).1]
      exact hab
  · exact ⟨s, L, if_pos (not_lt.mp hi), h⟩

/-! ### Runs -/

/-- `nt_socpm_init` -/
def init (suppMinMs now : ℕ) (inWarmBoot : Bool) : Soc where
  slpTime := fun _ => 0
  startTimeUs := fun _ => 0
  slpMode := fun _ => .clkGtdSleep
  listNo := fun _ => 0
  wkupCbDeletes := fun _ _ => false
  minCb := fun _ _ => 0
  next := fun _ => none
  slpLstHead := none
  lastSlpCount := none
  socpmSlpMode := .clkGtdSleep
  suppMinMs := suppMinMs
  processRoutine := false
  inWarmBoot := inWarmBoot
  mcuSleepWake := false
  slpListIdxRtos := none
  slpExit := false
  slpTmr := none
  now := now
  registered := fun _ => false
  woken := []

theorem Inv.init (suppMinMs now : ℕ) (inWarmBoot : Bool) : (Soc.init suppMinMs now inWarmBoot).Inv [] where
  lists := rfl
  mem i := by simp [Soc.init]
  bound := by simp
  off _ _ := rfl
  pos := by simp
  sorted := .nil
  start_le := by simp

/-- The entry that a registration is for. -/
def target (s : Soc) (listIdx : Option ℕ) : ℕ :=
  match listIdx, s.lastSlpCount with
  | some i, _ => i
  | none, some c => s.listNo c + 1
  | none, none => 0

end Soc

/-- The calls, and the time between them. Before the `n`-th look of a registration at the clock this goes on by `d n`. -/
inductive Event where
  | register (info : Option SleepInfo) (listIdx : Option ℕ) (offset : ℕ) (d : ℕ → ℕ)
  | reorder (i : ℕ)
  | delete (i : ℕ)
  | deregister (i : ℕ)
  | elapse (d : ℕ)

namespace Event

def run (s : Soc) : Event → Option Soc
  | .register info listIdx offset d => (s.sleepRegister info listIdx offset d).map Prod.fst
  | .reorder i => s.lstReorder i
  | .delete i => s.lstDelete i
  | .deregister i => s.sleepDeregister i
  | .elapse d => some { s with now := s.now + d }

/-- The condition on a call. Sleep times are positive. The first registration without an index takes the entry 0,
    and unlinks what follows it. -/
def Apt (s : Soc) : Event → Prop
  | .register info listIdx offset d =>
    (listIdx = none → ∀ c, s.lastSlpCount = some c → c < socpmSlpLstSz) ∧
    ∀ i, info = some i → 0 < i.slpTime ∧
      (s.target listIdx < socpmSlpLstSz → (s.entering i (s.target listIdx) offset d).Fits (s.target listIdx)) ∧
      (listIdx = none → s.lastSlpCount = none → ∀ L, s.Lists L → 0 ∉ L)
  | .reorder i => ∃ L, s.Lists L ∧ (s.slpLstHead = some i ∨
      ∃ A B, L = A ++ i :: B ∧ ∀ b ∈ B.head?, s.slpTime i < s.slpTime b)
  | .delete i | .deregister i => s.Deletable i
  | .elapse _ => True

def AptStep (s s' : Soc) : Prop := ∃ e : Event, e.Apt s ∧ e.run s = some s'

end Event

namespace Soc

variable {s s' : Soc} {L M : List ℕ} {i : ℕ}

theorem Inv.update {info : Option SleepInfo} {offset : ℕ} {d : ℕ → ℕ} (h : s.Inv L)
    (hfits : ∀ j, info = some j → 0 < j.slpTime ∧
      (i < socpmSlpLstSz → (s.entering j i offset d).Fits i)) :
    ∃ r M, s.update info i offset d = some r ∧ r.1.Inv M := by
  cases info with
  | none => exact ⟨_, L, rfl, h⟩
  | some info =>
    rw [Soc.update]
    obtain ⟨hpos, hfits⟩ := hfits info rfl
    by_cases hi : i < socpmSlpLstSz
    · obtain ⟨s', M, hs', h'⟩ := h.enter offset hi hpos (hfits hi)
      simp only [if_pos hi, hs', Option.map_some]
      exact ⟨_, M, rfl, h'⟩
    · simp only [if_neg hi]
      exact ⟨_, L, rfl, h⟩

theorem Inv.sleepRegister {info : Option SleepInfo} {listIdx : Option ℕ} {offset : ℕ} {d : ℕ → ℕ} (h : s.Inv L)
    (ha : (Event.register info listIdx offset d).Apt s) :
    ∃ r M, s.sleepRegister info listIdx offset d = some r ∧ r.1.Inv M := by
  obtain ⟨hc, hinfo⟩ := ha
  cases listIdx with
  | some i => exact h.update fun j hj => ⟨(hinfo j hj).1, (hinfo j hj).2.1⟩
  | none =>
    cases hlast : s.lastSlpCount with
    | some c =>
      have htarget : s.target none = s.listNo c + 1 := by simp [target, hlast]
      rw [htarget] at hinfo
      obtain ⟨r, M, hr, h'⟩ : ∃ r M, s.update info (s.listNo c + 1) offset d = some r ∧ r.1.Inv M :=
        h.update fun j hj => ⟨(hinfo j hj).1, (hinfo j hj).2.1⟩
      simp only [Soc.sleepRegister, hlast, if_pos (hc rfl c hlast), hr, Option.map_some]
      exact ⟨_, M, rfl, h'.lists, h'.mem, h'.bound, h'.off, h'.pos, h'.sorted, h'.start_le⟩
    | none =>
      have htarget : s.target none = 0 := by simp [target, hlast]
      rw [htarget] at hinfo
      simp only [Soc.sleepRegister, hlast]
      cases info with
      | none => exact ⟨_, L, rfl, h⟩
      | some info =>
        obtain ⟨hpos, hfits, h0⟩ := hinfo info rfl
        have h0 : 0 ∉ L := h0 rfl hlast L h.lists
        -- entry 0 is not linked, so nothing is unlinked
        have hnext : s.setNext 0 none = s := by
          rw [setNext, Function.update_eq_self_iff.mpr (h.off 0 h0).symm]
        have h' : ({ s with lastSlpCount := some 0 } : Soc).Inv L :=
          ⟨h.lists, h.mem, h.bound, h.off, h.pos, h.sorted, h.start_le⟩
        obtain ⟨s', M, hs', h'⟩ := h'.enter offset (by decide) hpos (hfits (by decide))
        simp only [hnext, hs', Option.map_some]
        exact ⟨_, M, rfl, h'⟩

theorem Inv.lstReorder (h : s.Inv L) (ha : (Event.reorder i).Apt s) : ∃ s' M, s.lstReorder i = some s' ∧ s'.Inv M := by
  obtain ⟨L', hL', hplace⟩ := ha
  obtain rfl : L' = L := hL'.unique h.lists
  have hhead : s.slpLstHead = some i → ∃ s' M, s.lstReorder i = some s' ∧ s'.Inv M := by
    intro hhead
    cases L' with
    | nil => cases hhead.symm.trans h.lists
    | cons k L =>
      obtain rfl : i = k := Option.some.inj (hhead.symm.trans h.lists.1)
      obtain ⟨s', M, hs', hd, hl, hmem, hoff, hsorted⟩ := lstReorder_reinserts h.lists h.off
        (Nat.le_of_succ_le h.length_le) h.pos (List.pairwise_cons.mp h.sorted).2
      exact ⟨s', M, hs', h.relink hd hl hmem hoff hsorted⟩
  obtain hfirst | ⟨A, B, rfl, hB⟩ := hplace
  · exact hhead hfirst
  · cases A with
    | nil => exact hhead h.lists.1
    | cons k A =>
      have hA : ∀ a ∈ k :: A, s.slpTime a ≤ s.slpTime i := fun a ha =>
        (List.pairwise_append.mp h.sorted).2.2 a ha i List.mem_cons_self
      obtain ⟨s', hs', hd, hn, hhead⟩ := lstReorder_keep h.lists h.length_le (h.pos k (by simp)) hA hB
      refine ⟨s', _, hs', h.relink hd ?_ (fun _ => Iff.rfl) (fun j hj => ?_) h.sorted⟩
      · rw [Lists, hn, hhead]
        exact h.lists
      · rw [hn]
        exact h.off j hj

/-- A call that meets the condition returns and keeps the invariant. -/
theorem Inv.run {e : Event} (h : s.Inv L) (ha : e.Apt s) : ∃ s' M, e.run s = some s' ∧ s'.Inv M := by
  cases e with
  | register info listIdx offset d =>
    obtain ⟨r, M, hr, h'⟩ := h.sleepRegister ha
    exact ⟨r.1, M, by rw [Event.run, hr, Option.map_some], h'⟩
  | reorder i => exact h.lstReorder ha
  | delete i => exact h.lstDelete ha
  | deregister i =>
    have h' : s.slptmrOff.Inv L := ⟨h.lists, h.mem, h.bound, h.off, h.pos, h.sorted, h.start_le⟩
    exact h'.lstDelete ha
  | elapse d =>
    exact ⟨_, L, rfl, h.lists, h.mem, h.bound, h.off, h.pos, h.sorted,
      fun j hj => Nat.le_add_right_of_le (h.start_le j hj)⟩

/-- The list goes from the head through the registered entries, each once, in the order of their times, and ends. -/
def Well (s : Soc) : Prop :=
  ∃ L, Path s.next s.slpLstHead L none ∧ L.Nodup ∧ (∀ i, i ∈ L ↔ s.registered i = true) ∧
    L.Pairwise fun a b => s.slpTime a ≤ s.slpTime b

end Soc

/-- In every run of calls that meet the condition the list is well formed, and each such call returns. -/
theorem sleep_list_well {suppMinMs now : ℕ} {inWarmBoot : Bool} {s : Soc}
    (h : Reach Event.AptStep (Soc.init suppMinMs now inWarmBoot) s) :
    s.Well ∧ ∀ e : Event, e.Apt s → ∃ s', e.run s = some s' := by
  obtain ⟨L, hL⟩ : ∃ L, s.Inv L := Reach.inv (P := fun s => ∃ L, s.Inv L) h ⟨[], .init suppMinMs now inWarmBoot⟩ (by
    rintro x y ⟨e, ha, he⟩ ⟨L, hL⟩
    obtain ⟨s', M, hs', hM⟩ := hL.run ha
    rw [he] at hs'
    cases hs'
    exact ⟨M, hM⟩)
  refine ⟨⟨L, hL.lists, hL.lists.nodup, hL.mem, hL.sorted⟩, fun e ha => ?_⟩
  obtain ⟨s', -, hs', -⟩ := hL.run ha
  exact ⟨s', hs'⟩

/-- A sleep of `t` microseconds whose callbacks leave the list alone. -/
def SleepInfo.plain (t : ℕ) : SleepInfo := ⟨t, .clkGtdSleep, fun _ => false, fun _ => 0⟩

/-- The calls one after the other. -/
def Event.runAll (s : Soc) (es : List Event) : Option Soc := es.foldlM (fun s e => e.run s) s

/-- Two sleepers are registered, the second one to wake first, and every look at the clock takes a microsecond. -/
theorem sleep_list_well_two :
    ∃ s, Event.runAll (.init 0 5 false) [.register (some (.plain 20)) none 0 (fun _ => 1), .elapse 4,
      .register (some (.plain 10)) none 0 (fun _ => 1)] = some s ∧ s.slpLstHead = some 1 ∧ s.Well := by
  have h₁ : Reach Event.AptStep (.init 0 5 false) _ := .one ⟨.register (some (.plain 20)) none 0 (fun _ => 1), ?_, rfl⟩
  · have h₂ : Reach Event.AptStep (.init 0 5 false) _ := h₁.tail ⟨.elapse 4, trivial, rfl⟩
    have h₃ : Reach Event.AptStep (.init 0 5 false) _ := h₂.tail ⟨.register (some (.plain 10)) none 0 (fun _ => 1), ?_, rfl⟩
    · exact ⟨_, rfl, rfl, (sleep_list_well h₃).1⟩
    · refine ⟨fun _ c hc => ?_, fun i hi => ?_⟩
      · cases hc
        decide
      · cases hi
        refine ⟨by decide, fun _ => ⟨[0], ⟨rfl, rfl⟩, .singleton 0, .inl (by decide)⟩, fun _ hc => by cases hc⟩
  · refine ⟨fun _ _ hc => (by cases hc), fun i hi => ?_⟩
    cases hi
    refine ⟨by decide, fun _ => ⟨[], rfl, .nil, .inl (by decide)⟩, fun _ _ L hL => ?_⟩
    rw [Path.unique hL (M := []) rfl]
    decide

/-- With three sleepers, the second one of which is registered again for longer, the list goes in a circle; with the
    third one deleted the call does not return. -/
theorem sleep_list_broken :
    (∃ s, Event.runAll (.init 0 5 false) [.register (some (.plain 10)) none 0 still, .register (some (.plain 20)) none 0 still,
      .register (some (.plain 30)) none 0 still, .register (some (.plain 40)) (some 1) 0 still] = some s ∧ ¬ s.Well) ∧
    Event.runAll (.init 0 5 false) [.register (some (.plain 10)) none 0 still, .register (some (.plain 20)) none 0 still,
      .register (some (.plain 30)) none 0 still, .delete 2] = none := by
  refine ⟨⟨_, rfl, ?_⟩, rfl⟩
  rintro ⟨L, hp, hn, -⟩
  -- 0, 1, 2 and again 1
  obtain _ | ⟨a, L⟩ := L
  · cases hp
  obtain ⟨ha, hp⟩ := hp
  cases ha
  obtain _ | ⟨b, L⟩ := L
  · cases hp
  obtain ⟨hb, hp⟩ := hp
  cases hb
  obtain _ | ⟨c, L⟩ := L
  · cases hp
  obtain ⟨hc, hp⟩ := hp
  cases hc
  obtain _ | ⟨d, L⟩ := L
  · cases hp
  obtain ⟨hd, hp⟩ := hp
  cases hd
  have hn : (0 :: 1 :: 2 :: 1 :: L).Nodup := hn
  simp at hn

end Qcc730.Sleep
