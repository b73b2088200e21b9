import Qcc730.Sbl.Rollback

/-! What the boot loader's scan records.

    `boot_sbl_get_fwd_info` goes through the sectors in order and a later FWD replaces an earlier one of
    the same kind, so each slot ends up with the last valid FWD of its kind. The first selection is a
    function of these three sectors. -/

namespace Qcc730.Sbl
open Lib Flash

/-- The last sector of `ss` with a valid FWD of slot `j`. -/
def lastOf (f : ℕ → Fwd) (j : ℕ) : List ℕ → Option ℕ
  | [] => none
  | s :: ss => (lastOf f j ss).or (if FwdIsValid (f s) ∧ slotOfRank (f s).rank = j then some s else none)

/-- The sectors that the scan reads. -/
def readable (d : Dev) : List ℕ := [0, 1, 2].takeWhile fun s => d.InFlash (s * 4096) 512

/-- The sector that the scan records in slot `j`. -/
def recorded (d : Dev) (j : ℕ) : Option ℕ := lastOf d.mem.fwd j (readable d)

theorem lastOf_some {f : ℕ → Fwd} {j s : ℕ} : ∀ {ss : List ℕ}, lastOf f j ss = some s →
    s ∈ ss ∧ FwdIsValid (f s) ∧ slotOfRank (f s).rank = j
  | [], h => by cases h
  | x :: ss, h => by
    rw [lastOf, Option.or_eq_some_iff] at h
    rcases h with h | ⟨-, h⟩
    · obtain ⟨hm, hv⟩ := lastOf_some h
      exact ⟨List.mem_cons_of_mem _ hm, hv⟩
    · split at h
      · cases h
        exact ⟨List.mem_cons_self, ‹_›⟩
      · cases h

theorem lastOf_none {f : ℕ → Fwd} {j : ℕ} : ∀ {ss : List ℕ}, lastOf f j ss = none ↔
    ∀ s ∈ ss, ¬(FwdIsValid (f s) ∧ slotOfRank (f s).rank = j)
  | [] => by simp [lastOf]
  | x :: ss => by
    rw [lastOf, Option.or_eq_none_iff, lastOf_none]
    constructor
    · rintro ⟨h, hx⟩ s hs
      rcases List.mem_cons.mp hs with rfl | hs
      · intro hv
        rw [if_pos hv] at hx
        cases hx
      · exact h s hs
    · intro h
      exact ⟨fun s hs => h s (List.mem_cons_of_mem _ hs), if_neg (h x List.mem_cons_self)⟩

/-- A table that differs in one sector, whose FWD is no longer valid: the other records stay. -/
theorem lastOf_remove {f f' : ℕ → Fwd} {t : ℕ} (j : ℕ) (hinv : ¬FwdIsValid (f' t)) : ∀ {ss : List ℕ},
    (∀ s ∈ ss, s ≠ t → f' s = f s) →
    (lastOf f j ss = none → lastOf f' j ss = none) ∧
    ∀ s, lastOf f j ss = some s → s ≠ t → lastOf f' j ss = some s
  | [], _ => ⟨fun _ => rfl, fun _ h => by cases h⟩
  | x :: ss, hf => by
    obtain ⟨hn, hs⟩ := lastOf_remove j hinv (fun s (hm : s ∈ ss) => hf s (List.mem_cons_of_mem _ hm))
    have hx : x ≠ t → f' x = f x := hf x List.mem_cons_self
    have hx' : ¬(FwdIsValid (f x) ∧ slotOfRank (f x).rank = j) → ¬(FwdIsValid (f' x) ∧ slotOfRank (f' x).rank = j) := by
      intro h h'
      by_cases hxt : x = t
      · exact hinv (hxt ▸ h'.1)
      · exact h (hx hxt ▸ h')
    simp only [lastOf, Option.or_eq_none_iff, Option.or_eq_some_iff]
    constructor
    · rintro ⟨h, hnone⟩
      refine ⟨hn h, if_neg (hx' fun hv => ?_)⟩
      rw [if_pos hv] at hnone
      cases hnone
    · rintro s (h | ⟨h, hsome⟩) hst
      · exact .inl (hs s h hst)
      · refine .inr ⟨hn h, ?_⟩
        split at hsome
        · cases hsome
          rw [hx hst]
          exact if_pos ‹_›
        · cases hsome

/-! ### The scan -/

theorem scanFwd_eq (d : Dev) : ∀ (ss : List ℕ) (info : SblInfo),
    scanFwd d ss info = (ss.takeWhile fun s => d.InFlash (s * 4096) 512).foldl
      (fun info s => recordFwd s (d.mem.fwd s) info) info
  | [], _ => rfl
  | s :: ss, info => by
    rw [scanFwd, drvFlashRead]
    by_cases h : d.InFlash (s * 4096) 512
    · rw [if_pos h, List.takeWhile_cons_of_pos (by simpa using h), List.foldl_cons]
      exact scanFwd_eq d ss _
    · rw [if_neg h, List.takeWhile_cons_of_neg (by simpa using h)]
      rfl

/-- After the scan a slot holds the last FWD of its kind, or what it held before. -/
theorem foldl_recordFwd (f : ℕ → Fwd) (j : ℕ) : ∀ (ss : List ℕ) (info : SblInfo),
    let r := ss.foldl (fun info s => recordFwd s (f s) info) info
    (r.flashFwdTable j, r.bootFwd j) = match lastOf f j ss with
      | some s => (f s, s)
      | none => (info.flashFwdTable j, info.bootFwd j)
  | [], _ => rfl
  | x :: ss, info => by
    have ih := foldl_recordFwd f j ss (recordFwd x (f x) info)
    simp only [List.foldl_cons, lastOf] at ih ⊢
    rw [ih]
    rcases lastOf f j ss with _ | s
    · rw [Option.none_or]
      by_cases hv : FwdIsValid (f x)
      · by_cases hj : slotOfRank (f x).rank = j
        · rw [if_pos ⟨hv, hj⟩]
          simp [recordFwd, hv, hj]
        · rw [if_neg fun h => hj h.2]
          simp [recordFwd, hv, Function.update_of_ne (Ne.symm hj)]
      · rw [if_neg fun h => hv h.1]
        simp [recordFwd, hv]
    · rw [Option.some_or]

theorem getFwdInfo_slot (d : Dev) (j : ℕ) :
    ((bootSblGetFwdInfo d SblInfo.zero).flashFwdTable j, (bootSblGetFwdInfo d SblInfo.zero).bootFwd j) =
      match recorded d j with
      | some s => (d.mem.fwd s, s)
      | none => (Fwd.zero, 0) := by
  rw [bootSblGetFwdInfo, scanFwd_eq]
  exact foldl_recordFwd d.mem.fwd j _ _

theorem getFwdInfo_table {d : Dev} {j s : ℕ} (h : recorded d j = some s) :
    (bootSblGetFwdInfo d SblInfo.zero).flashFwdTable j = d.mem.fwd s ∧
      (bootSblGetFwdInfo d SblInfo.zero).bootFwd j = s := by
  have := getFwdInfo_slot d j
  rw [h] at this
  exact ⟨congrArg Prod.fst this, congrArg Prod.snd this⟩

/-- A slot is valid exactly when a sector is recorded in it. -/
theorem getFwdInfo_valid (d : Dev) (j : ℕ) :
    (bootSblGetFwdInfo d SblInfo.zero).FwdTableIsValid j ↔ recorded d j ≠ none := by
  rcases h : recorded d j with _ | s
  · have := getFwdInfo_slot d j
    rw [h] at this
    have hz : (bootSblGetFwdInfo d SblInfo.zero).flashFwdTable j = Fwd.zero := congrArg Prod.fst this
    simp [SblInfo.FwdTableIsValid, hz, FwdIsValid, Fwd.zero]
  · simp only [ne_eq, reduceCtorEq, not_false_eq_true, iff_true]
    rw [SblInfo.FwdTableIsValid, (getFwdInfo_table h).1]
    exact (lastOf_some h).2.1

/-! ### The first selection -/

/-- The trial that the scan records is given up because its SBL was reverted. -/
def Reverted (sblRank : ℕ) (f : Fwd) : Prop :=
  f.imageEntries.findIdx (fun e => e.imageId = sblImgId) ≠ maxFwImageEntries ∧ sblRank = fdeImgRankCurrent

instance (sblRank : ℕ) (f : Fwd) : Decidable (Reverted sblRank f) := inferInstanceAs (Decidable (_ ∧ _))

/-- The slot and what it holds once the first selection is made. -/
def bootChoice (sblRank : ℕ) (d : Dev) : Option (ℕ × ℕ × List ImageEntry) :=
  let (i, info) := selectFirst sblRank (bootSblGetFwdInfo d SblInfo.zero)
  if i < maxFwdNum then some (i, info.bootFwd i, (info.flashFwdTable i).imageEntries) else none

/-- What a slot offers. -/
def offered (d : Dev) (j : ℕ) : Option (ℕ × ℕ × List ImageEntry) :=
  (recorded d j).map fun s => (j, s, (d.mem.fwd s).imageEntries)

theorem trialUsable_iff (sblRank : ℕ) (d : Dev) :
    (bootSblGetFwdInfo d SblInfo.zero).TrialUsable sblRank ↔
      ∃ s, recorded d indexTrial = some s ∧ ¬Reverted sblRank (d.mem.fwd s) := by
  rw [SblInfo.TrialUsable, getFwdInfo_valid]
  rcases h : recorded d indexTrial with _ | s
  · simp
  · simp only [ne_eq, reduceCtorEq, not_false_eq_true, true_and, Option.some.injEq, exists_eq_left']
    rw [bootSblFindFwdImage, (getFwdInfo_table h).1]
    rfl

theorem revert_entries (info : SblInfo) (j : ℕ) :
    (info.revert.flashFwdTable j).imageEntries = (info.flashFwdTable j).imageEntries := by
  by_cases hj : j = indexTrial
  · subst hj
    simp [SblInfo.revert, SblInfo.invalidate, SblInfo.choose]
  · simp [SblInfo.revert, SblInfo.invalidate, SblInfo.choose, Function.update_of_ne hj]

/-- A chosen slot in which a sector is recorded. -/
theorem choice_of_recorded {d : Dev} {j s : ℕ} {info : SblInfo} (hj : j < maxFwdNum) (hs : recorded d j = some s)
    (hb : info.bootFwd = (bootSblGetFwdInfo d SblInfo.zero).bootFwd)
    (he : (info.flashFwdTable j).imageEntries =
      ((bootSblGetFwdInfo d SblInfo.zero).flashFwdTable j).imageEntries) :
    (if j < maxFwdNum then some (j, info.bootFwd j, (info.flashFwdTable j).imageEntries) else none) =
      some (j, s, (d.mem.fwd s).imageEntries) := by
  rw [if_pos hj, hb, he, (getFwdInfo_table hs).1, (getFwdInfo_table hs).2]

/-- The choice, read off the three recorded sectors. -/
theorem bootChoice_eq (sblRank : ℕ) (d : Dev) : bootChoice sblRank d =
    if (bootSblGetFwdInfo d SblInfo.zero).TrialUsable sblRank then offered d indexTrial
    else (offered d indexCurrent).or ((offered d indexGolden).or (offered d indexTrial)) := by
  set info := bootSblGetFwdInfo d SblInfo.zero with hinfo
  have hvalid : ∀ {j s}, recorded d j = some s → info.FwdTableIsValid j :=
    fun h => (getFwdInfo_valid d _).mpr (by rw [h]; simp)
  have hinvalid : ∀ {j}, recorded d j = none → ¬info.FwdTableIsValid j :=
    fun h hv => (getFwdInfo_valid d _).mp hv h
  rw [bootChoice]
  by_cases hu : info.TrialUsable sblRank
  · obtain ⟨s, hs⟩ := Option.ne_none_iff_exists'.mp ((getFwdInfo_valid d _).mp hu.1)
    rw [if_pos hu, selectFirst_trial hu, offered, hs]
    exact choice_of_recorded (by decide) hs rfl rfl
  rw [if_neg hu]
  rcases h₀ : recorded d indexTrial with _ | s₀
  · have ht := hinvalid h₀
    rcases h₁ : recorded d indexCurrent with _ | s₁
    · rcases h₂ : recorded d indexGolden with _ | s₂
      · have hf : info.firstValid = maxFwdNum := by
          rw [SblInfo.firstValid, if_neg ht, if_neg (hinvalid h₁), if_neg (hinvalid h₂)]
        rw [selectFirst_none hf]
        simp [offered, h₀, h₁, h₂]
      · have hf : info.firstValid = indexGolden := by
          rw [SblInfo.firstValid, if_neg ht, if_neg (hinvalid h₁), if_pos (hvalid h₂)]
        rw [selectFirst_noTrial ht (by rw [hf]; decide), hf]
        simp only [offered, h₁, h₂, Option.map_none, Option.map_some, Option.none_or, Option.some_or]
        exact choice_of_recorded (by decide) h₂ rfl rfl
    · have hf : info.firstValid = indexCurrent := by
        rw [SblInfo.firstValid, if_neg ht, if_pos (hvalid h₁)]
      rw [selectFirst_noTrial ht (by rw [hf]; decide), hf]
      simp only [offered, h₁, Option.map_some, Option.some_or]
      exact choice_of_recorded (by decide) h₁ rfl rfl
  · have hv₁ := info.revert_valid (show indexCurrent ≠ indexTrial by decide)
    have hv₂ := info.revert_valid (show indexGolden ≠ indexTrial by decide)
    rw [(selectFirst_reverted (hvalid h₀) hu).2]
    rcases h₁ : recorded d indexCurrent with _ | s₁
    · rcases h₂ : recorded d indexGolden with _ | s₂
      · have hr : info.revert.afterRevert = indexTrial := by
          rw [SblInfo.afterRevert, if_neg (mt hv₁.mp (hinvalid h₁)), if_neg (mt hv₂.mp (hinvalid h₂))]
          rfl
        simp only [hr, offered, h₀, h₁, h₂, Option.map_none, Option.map_some, Option.none_or]
        exact choice_of_recorded (by decide) h₀ rfl (revert_entries _ _)
      · have hr : info.revert.afterRevert = indexGolden := by
          rw [SblInfo.afterRevert, if_neg (mt hv₁.mp (hinvalid h₁)), if_pos (hv₂.mpr (hvalid h₂))]
        simp only [hr, offered, h₁, h₂, Option.map_none, Option.map_some, Option.none_or, Option.some_or]
        exact choice_of_recorded (by decide) h₂ rfl (revert_entries _ _)
    · have hr : info.revert.afterRevert = indexCurrent := by
        rw [SblInfo.afterRevert, if_pos (hv₁.mpr (hvalid h₁))]
      simp only [hr, offered, h₁, Option.map_some, Option.some_or]
      exact choice_of_recorded (by decide) h₁ rfl (revert_entries _ _)

/-! ### Taking a sector out of the table -/

/-- The selection settles on a current or golden FWD. -/
def Settled (sblRank : ℕ) (d : Dev) : Prop :=
  ∃ j s es, bootChoice sblRank d = some (j, s, es) ∧ (j = indexCurrent ∨ j = indexGolden)

theorem slotOfRank_trial (rank : ℕ) : slotOfRank rank = indexTrial ↔ rank = fwdRankTrial := by
  rw [slotOfRank]
  split
  · rename_i h
    simp [h]
  · split
    · rename_i h
      simp [h]
    · rename_i h
      simp [h]

/-- No other sector holds a trial FWD if sector `t` does. -/
def TrialAlone (d : Dev) (t : ℕ) : Prop :=
  FwdIsValid (d.mem.fwd t) → (d.mem.fwd t).rank = fwdRankTrial →
    ∀ s < maxFwdNum, s ≠ t → ¬(FwdIsValid (d.mem.fwd s) ∧ (d.mem.fwd s).rank = fwdRankTrial)

theorem readable_lt {d : Dev} {s : ℕ} (h : s ∈ readable d) : s < maxFwdNum := by
  have := List.takeWhile_subset _ h
  simp only [List.mem_cons, List.not_mem_nil, or_false] at this
  rcases this with rfl | rfl | rfl <;> decide

/-- A settled selection does not change when another sector's FWD goes away. -/
theorem bootChoice_remove {sblRank : ℕ} {d d' : Dev} {t : ℕ} (hs : Settled sblRank d)
    (hn : d'.densityInBlocks = d.densityInBlocks) (hf : ∀ s < maxFwdNum, s ≠ t → d'.mem.fwd s = d.mem.fwd s)
    (hinv : ¬FwdIsValid (d'.mem.fwd t)) (ht : ∀ j es, bootChoice sblRank d ≠ some (j, t, es)) (ha : TrialAlone d t) :
    bootChoice sblRank d' = bootChoice sblRank d := by
  have hread : readable d' = readable d := by
    have hin : ∀ s, decide (d'.InFlash (s * 4096) 512) = decide (d.InFlash (s * 4096) 512) := by
      intro s
      rw [decide_eq_decide]
      simp only [Dev.InFlash, hn]
    simp only [readable, hin]
  have hrem := fun j => lastOf_remove (f := d.mem.fwd) j hinv fun s (hm : s ∈ readable d) => hf s (readable_lt hm)
  have hkeep : ∀ {j s}, recorded d j = some s → s ≠ t → recorded d' j = some s := fun {j s} h hst => by
    rw [recorded, hread]
    exact (hrem j).2 s h hst
  have hnone : ∀ {j}, recorded d j = none → recorded d' j = none := fun {j} h => by
    rw [recorded, hread]
    exact (hrem j).1 h
  have hoff : ∀ {j s}, recorded d j = some s → s ≠ t → offered d' j = offered d j := fun {j s} h hst => by
    rw [offered, offered, h, hkeep h hst, Option.map_some, Option.map_some,
      hf s (readable_lt (lastOf_some h).1) hst]
  have hoffnone : ∀ {j}, recorded d j = none → offered d' j = none ∧ offered d j = none := fun {j} h => by
    rw [offered, offered, h, hnone h]
    exact ⟨rfl, rfl⟩
  obtain ⟨j, s, es, hch, hj⟩ := hs
  -- the selection went past the trial
  have hnu : ¬(bootSblGetFwdInfo d SblInfo.zero).TrialUsable sblRank := by
    intro hu
    rw [bootChoice_eq, if_pos hu, offered, Option.map_eq_some_iff] at hch
    obtain ⟨x, -, hx⟩ := hch
    rcases hj with rfl | rfl <;> simp at hx
  have hnu' : ¬(bootSblGetFwdInfo d' SblInfo.zero).TrialUsable sblRank := by
    rw [trialUsable_iff] at hnu ⊢
    rintro ⟨x, hx, hrev⟩
    rcases h₀ : recorded d indexTrial with _ | s₀
    · rw [hnone h₀] at hx
      cases hx
    · by_cases h₀t : s₀ = t
      · subst h₀t
        obtain ⟨hm, hv, hr⟩ := lastOf_some hx
        obtain ⟨-, hv₀, hr₀⟩ := lastOf_some h₀
        have hxt : x ≠ s₀ := fun h => hinv (h ▸ hv)
        rw [hread] at hm
        rw [hf x (readable_lt hm) hxt] at hv hr
        exact ha hv₀ ((slotOfRank_trial _).mp hr₀) x (readable_lt hm) hxt ⟨hv, (slotOfRank_trial _).mp hr⟩
      · rw [hkeep h₀ h₀t, Option.some.injEq] at hx
        subst hx
        rw [hf s₀ (readable_lt (lastOf_some h₀).1) h₀t] at hrev
        exact hnu ⟨s₀, h₀, hrev⟩
  have hd := bootChoice_eq sblRank d
  have hd' := bootChoice_eq sblRank d'
  rw [if_neg hnu] at hd
  rw [if_neg hnu'] at hd'
  rcases h₁ : recorded d indexCurrent with _ | s₁
  · rw [(hoffnone h₁).2, Option.none_or] at hd
    rw [(hoffnone h₁).1, Option.none_or] at hd'
    rcases h₂ : recorded d indexGolden with _ | s₂
    · -- only the trial would be left, and that is not settled
      rw [(hoffnone h₂).2, Option.none_or, hch, eq_comm, offered, Option.map_eq_some_iff] at hd
      obtain ⟨x, -, hx⟩ := hd
      rcases hj with rfl | rfl <;> simp at hx
    · have hst : s₂ ≠ t := by
        rintro rfl
        refine ht indexGolden (d.mem.fwd s₂).imageEntries (hd.trans ?_)
        rw [offered, h₂, Option.map_some, Option.some_or]
      rw [hoff h₂ hst] at hd'
      rw [hd', hd, offered, h₂, Option.map_some, Option.some_or, Option.some_or]
  · have hst : s₁ ≠ t := by
      rintro rfl
      refine ht indexCurrent (d.mem.fwd s₁).imageEntries (hd.trans ?_)
      rw [offered, h₁, Option.map_some, Option.some_or]
    rw [hoff h₁ hst] at hd'
    rw [hd', hd, offered, h₁, Option.map_some, Option.some_or, Option.some_or]

end Qcc730.Sbl
