import Qcc730.Upgrade.History

/-! Accepting a trial makes it the current firmware.

    The trial gets the highest rank plus one, and the FWD that had the highest rank is taken out, slot 0 if there was
    none. Whether the boot loader then takes the trial for the current FWD depends on the other slots: it reads all three,
    checks less than the upgrader, and of two FWDs of the same kind it takes the one of the higher slot. -/

namespace Qcc730.Upgrade
open Lib Flash Sbl

/-- The FWD of slot `t` is the current firmware: valid, ranked above all other valid FWDs, and recorded as the current one
    by the boot loader, which finds no trial. -/
structure IsCurrent (d : Dev) (t : ℕ) : Prop where
  valid : FwdIsValid (d.mem.fwd t)
  rank_ne_zero : (d.mem.fwd t).rank ≠ 0
  rank_ne_trial : (d.mem.fwd t).rank ≠ fwdRankTrial
  highest : ∀ s < maxFwdNum, s ≠ t → FwdIsValid (d.mem.fwd s) → (d.mem.fwd s).rank < (d.mem.fwd t).rank
  recorded : (bootSblGetFwdInfo d SblInfo.zero).FwdTableIsValid indexCurrent ∧
    (bootSblGetFwdInfo d SblInfo.zero).bootFwd indexCurrent = t
  noTrial : ¬(bootSblGetFwdInfo d SblInfo.zero).FwdTableIsValid indexTrial

/-- The same in terms of the FWDs only. -/
structure Tops (f : ℕ → Fwd) (t : ℕ) : Prop where
  valid : FwdIsValid (f t)
  rank_ne_zero : (f t).rank ≠ 0
  rank_ne_trial : (f t).rank ≠ fwdRankTrial
  others : ∀ s < maxFwdNum, s ≠ t → FwdIsValid (f s) → (f s).rank < (f t).rank ∧ (t < s → (f s).rank = 0)

/-- In a list in order, the last FWD of a kind is the one that none of its kind comes after. -/
theorem lastOf_eq_some_iff {f : ℕ → Fwd} {j c : ℕ} : ∀ {l : List ℕ}, l.Pairwise (· < ·) →
    (lastOf f j l = some c ↔ c ∈ l ∧ (FwdIsValid (f c) ∧ slotOfRank (f c).rank = j) ∧
      ∀ s ∈ l, c < s → ¬(FwdIsValid (f s) ∧ slotOfRank (f s).rank = j))
  | [], _ => by simp [lastOf]
  | x :: l, hl => by
    obtain ⟨hx, hl⟩ := List.pairwise_cons.mp hl
    rw [lastOf, Option.or_eq_some_iff, lastOf_eq_some_iff hl]
    constructor
    · rintro (⟨hm, hv, hall⟩ | ⟨hnone, hsome⟩)
      · exact ⟨List.mem_cons_of_mem _ hm, hv, List.forall_mem_cons.mpr ⟨fun hlt => absurd (hx c hm) (by omega), hall⟩⟩
      · split at hsome
        · cases hsome
          refine ⟨List.mem_cons_self, ‹_›, List.forall_mem_cons.mpr ⟨fun hlt => absurd hlt (lt_irrefl _), ?_⟩⟩
          exact fun s hs _ => lastOf_none.mp hnone s hs
        · cases hsome
    · rintro ⟨hm, hv, hall⟩
      obtain ⟨-, hrest⟩ := List.forall_mem_cons.mp hall
      rcases List.mem_cons.mp hm with rfl | hm
      · exact .inr ⟨lastOf_none.mpr fun s hs => hrest s hs (hx s hs), if_pos hv⟩
      · exact .inl ⟨hm, hv, hrest⟩

theorem slotOfRank_current {rank : ℕ} : slotOfRank rank = indexCurrent ↔ rank ≠ 0 ∧ rank ≠ fwdRankTrial := by
  rw [slotOfRank]
  split_ifs with h0 ht
  · simp [h0]
  · simp [ht]
  · exact ⟨fun _ => ⟨h0, ht⟩, fun _ => rfl⟩

section

variable {d : Dev} {t : ℕ} (hd : HasFwds d) (ht : t < maxFwdNum)

include hd ht

theorem isCurrent_iff : IsCurrent d t ↔ Tops d.mem.fwd t := by
  have hsectors : ∀ {s}, s < maxFwdNum ↔ s ∈ [0, 1, 2] := fun {s} => by
    simp only [maxFwdNum, List.mem_cons, List.not_mem_nil, or_false]
    omega
  have hcur : Sbl.recorded d indexCurrent = some t ↔ (FwdIsValid (d.mem.fwd t) ∧
      slotOfRank (d.mem.fwd t).rank = indexCurrent) ∧ ∀ s < maxFwdNum, t < s →
        ¬(FwdIsValid (d.mem.fwd s) ∧ slotOfRank (d.mem.fwd s).rank = indexCurrent) := by
    rw [Sbl.recorded, readable_all hd, lastOf_eq_some_iff (by decide)]
    simp only [← hsectors, ht, true_and]
  constructor
  · intro h
    have hrec : Sbl.recorded d indexCurrent = some t := by
      obtain ⟨c, hc⟩ := Option.ne_none_iff_exists'.mp ((getFwdInfo_valid d _).mp h.recorded.1)
      rw [hc, ← (getFwdInfo_table hc).2, h.recorded.2]
    refine ⟨h.valid, h.rank_ne_zero, h.rank_ne_trial, fun s hs hne hv => ⟨h.highest s hs hne hv, fun hlt => ?_⟩⟩
    by_contra h0
    have hlow := h.highest s hs hne hv
    have hmax := Fwd.rank_le d.mem t
    exact (hcur.mp hrec).2 s hs hlt ⟨hv, slotOfRank_current.mpr ⟨h0, by omega⟩⟩
  · intro h
    have hrec : Sbl.recorded d indexCurrent = some t := by
      refine hcur.mpr ⟨⟨h.valid, slotOfRank_current.mpr ⟨h.rank_ne_zero, h.rank_ne_trial⟩⟩, fun s hs hlt hv => ?_⟩
      exact (slotOfRank_current.mp hv.2).1 ((h.others s hs (by omega) hv.1).2 hlt)
    refine ⟨h.valid, h.rank_ne_zero, h.rank_ne_trial, fun s hs hne hv => (h.others s hs hne hv).1, ⟨?_, ?_⟩, ?_⟩
    · exact (getFwdInfo_valid d _).mpr (by rw [hrec]; simp)
    · exact (getFwdInfo_table hrec).2
    · rw [getFwdInfo_valid, not_not, Sbl.recorded, readable_all hd, lastOf_none]
      intro s hs hv
      rw [slotOfRank_trial] at hv
      obtain rfl | hne := eq_or_ne s t
      · exact h.rank_ne_trial hv.2
      · have hlow := (h.others s (hsectors.mpr hs) hne hv.1).1
        have hmax := Fwd.rank_le d.mem t
        omega

end

/-! ### The accept -/

/-- The FWDs after `fw_upgrade_accept_trial_fwd`. -/
def accepted (num : ℕ) (v : TrialActive) (f : ℕ → Fwd) : ℕ → Fwd :=
  if Replaces num v then retire v.current (promote v f) else promote v f

theorem fwd_acceptWrites {d : Dev} {num : ℕ} {v : TrialActive} (hon : OnTrial (d.mem.fwd v.trial)) :
    (d.writes (acceptWrites num v)).mem.fwd = accepted num v d.mem.fwd := by
  funext s
  rw [Dev.writes_mem, acceptWrites, accepted, replay_cons]
  split
  · rw [replay_cons, replay_nil, fwd_retire]
    exact congrArg (fun f => retire v.current f s) (funext (fwd_promote hon))
  · rw [replay_nil]
    exact fwd_promote hon s

/-- The condition on the table, for what the scan of the upgrader finds in it: the next rank is not the trial rank, the
    FWD that is taken out is not the trial, and of the others that the boot loader takes for valid, none is ranked higher
    and none of a higher slot has a rank at all. -/
structure Acceptable (num : ℕ) (v : TrialActive) (f : ℕ → Fwd) : Prop where
  rank_lt : v.rank + 1 < fwdRankTrial
  current_ne : Replaces num v → v.current ≠ v.trial
  others : ∀ s < maxFwdNum, s ≠ v.trial → (Replaces num v → s ≠ v.current) → FwdIsValid (f s) →
    (f s).rank ≤ v.rank ∧ (v.trial < s → (f s).rank = 0)

theorem tops_accepted_iff {num : ℕ} {v : TrialActive} {f : ℕ → Fwd} (hon : OnTrial (f v.trial))
    (hrank : v.rank ≤ fwdRankTrial) : Tops (accepted num v f) v.trial ↔ Acceptable num v f := by
  have htrial : (accepted num v f v.trial).rank = u32 (v.rank + 1) := by
    rw [accepted]
    split
    · rw [retire]
      by_cases hc : v.trial = v.current
      · rw [hc, Function.update_self, promote, hc, Function.update_self]
      · rw [Function.update_of_ne hc, promote, Function.update_self]
    · rw [promote, Function.update_self]
  have hvalid : FwdIsValid (accepted num v f v.trial) ↔ (Replaces num v → v.current ≠ v.trial) := by
    rw [accepted]
    split
    · rename_i hn
      rw [retire]
      by_cases hc : v.current = v.trial
      · rw [← hc, Function.update_self]
        simp [FwdIsValid, hn]
      · rw [Function.update_of_ne (Ne.symm hc), promote, Function.update_self]
        exact ⟨fun _ _ => hc, fun _ => hdrOf_valid hon.1⟩
    · rename_i hn
      rw [promote, Function.update_self]
      exact ⟨fun _ hn' => absurd hn' hn, fun _ => hdrOf_valid hon.1⟩
  -- a FWD that is left is as it was; one that is taken out is not valid
  have hother : ∀ s, s ≠ v.trial → (FwdIsValid (accepted num v f s) ↔ (Replaces num v → s ≠ v.current) ∧ FwdIsValid (f s)) ∧
      (accepted num v f s).rank = (f s).rank := by
    intro s hs
    rw [accepted]
    split
    · rename_i hn
      rw [retire]
      by_cases hc : s = v.current
      · rw [hc, Function.update_self, promote, Function.update_of_ne (hc ▸ hs)]
        simp [FwdIsValid, hn]
      · rw [Function.update_of_ne hc, promote, Function.update_of_ne hs]
        exact ⟨⟨fun h => ⟨fun _ => hc, h⟩, fun h => h.2⟩, rfl⟩
    · rename_i hn
      rw [promote, Function.update_of_ne hs]
      exact ⟨⟨fun h => ⟨fun hn' => absurd hn' hn, h⟩, fun h => h.2⟩, rfl⟩
  have hnext : u32 (v.rank + 1) ≠ 0 ∧ u32 (v.rank + 1) ≠ fwdRankTrial ↔ v.rank + 1 < fwdRankTrial := by
    simp only [u32, fwdRankTrial] at hrank ⊢
    omega
  constructor
  · rintro ⟨hv, h0, hne, hall⟩
    rw [htrial] at h0 hne
    have hlt := hnext.mp ⟨h0, hne⟩
    refine ⟨hlt, hvalid.mp hv, fun s hs hst hc hfs => ?_⟩
    obtain ⟨hval, hr⟩ := hother s hst
    have := hall s hs hst (hval.mpr ⟨hc, hfs⟩)
    rw [hr, htrial, u32_of_lt (by simp only [fwdRankTrial] at hlt; omega)] at this
    exact ⟨Nat.le_of_lt_succ this.1, this.2⟩
  · rintro ⟨hlt, hc, hall⟩
    have hu : u32 (v.rank + 1) = v.rank + 1 := u32_of_lt (by simp only [fwdRankTrial] at hlt; omega)
    obtain ⟨h0, hne⟩ := hnext.mpr hlt
    refine ⟨hvalid.mpr hc, htrial ▸ h0, htrial ▸ hne, fun s hs hst hfs => ?_⟩
    obtain ⟨hval, hr⟩ := hother s hst
    obtain ⟨hc', hfs⟩ := hval.mp hfs
    rw [hr, htrial, hu]
    exact ⟨Nat.lt_succ_of_le (hall s hs hst hc' hfs).1, (hall s hs hst hc' hfs).2⟩

theorem scanView_rank_le (num : ℕ) (m : Mem) : (scanView num m.fwd).rank ≤ fwdRankTrial := by
  rcases scanView_rank num m.fwd with hr | ⟨-, hr⟩
  · rw [hr]
    exact Fwd.rank_le m _
  · rw [hr]
    exact Nat.zero_le _

/-- A trial that is accepted is the current firmware if and only if the table meets the condition. -/
theorem accepted_is_current_iff (cfg : Config) (hc : cfg.fwdSupportNum = 2 ∨ cfg.fwdSupportNum = 3) (s s' : Fu)
    (hd : HasFwds s.dev) (uninit : ℕ) (h : fwUpgradeAcceptTrialFwd cfg uninit s = (.ok (), s')) :
    let v := (fwUpgradeGetTrialActiveFwdIndex cfg s.dev).1
    IsCurrent s'.dev v.trial ↔ Acceptable cfg.fwdSupportNum v s.dev.mem.fwd := by
  rw [getTrialActive_eq hd hc]
  rw [accept_eq hc hd] at h
  split at h
  · rename_i hok
    cases h
    obtain ⟨hm, hon⟩ := scanView_trial hok.1
    have hd' : HasFwds (s.dev.writes (acceptWrites cfg.fwdSupportNum (scanView cfg.fwdSupportNum s.dev.mem.fwd))) := hd
    show IsCurrent (s.dev.writes _) _ ↔ _
    rw [isCurrent_iff hd' (scanSlots_lt hm), fwd_acceptWrites hon]
    exact tops_accepted_iff hon (scanView_rank_le _ _)
  · cases h

/-- The trial in slot 1 replaces the current FWD of slot 0. -/
theorem accepted_is_current_two : ∃ s', fwUpgradeAcceptTrialFwd smallAppEnv.cfg 0 ⟨trialBooted 1, smallFu.handles⟩ =
    (.ok (), s') ∧ IsCurrent s'.dev 1 := by
  refine ⟨_, rfl, ?_⟩
  have hiff := accepted_is_current_iff smallAppEnv.cfg (.inl rfl) ⟨trialBooted 1, smallFu.handles⟩ _ (by decide) 0 rfl
  have htrial : (fwUpgradeGetTrialActiveFwdIndex smallAppEnv.cfg (trialBooted 1)).1 = ⟨1, 0, 1⟩ := by decide +kernel
  rw [htrial] at hiff
  refine hiff.mpr ⟨by decide, fun _ => by decide, ?_⟩
  -- slot 0 is taken out, and slot 2 is empty
  have hempty : ¬FwdIsValid ((trialBooted 1).mem.fwd 2) := by decide +kernel
  intro s hs hst hc hv
  interval_cases s
  · exact absurd rfl (hc (.inl rfl))
  · exact absurd rfl hst
  · exact absurd hv hempty

/-- A trial in slot 0, which was booted, and no other FWD. -/
def trialAlone : Dev where
  mem := ⟨Memory.ofBlocks [appFwdBlock fwdRankTrial 4], fun _ => 0,
    ⟨fdtSignature, 1, fun _ => ⟨fdeImgIdApp, fdeImgRankTrial, fdeImgFormatElf, 0, 1, 0, 0, 0⟩⟩⟩
  log := []
  densityInBlocks := 1024
  rramOk := fun _ _ => true

/-- Its accept returns OK and takes it out. -/
theorem accepted_is_taken_out : ∃ s', fwUpgradeAcceptTrialFwd smallAppEnv.cfg 0 ⟨trialAlone, smallFu.handles⟩ =
    (.ok (), s') ∧ fwUpgradeGetActiveFwd trialAlone.mem.fdt = 0 ∧
    (fwUpgradeGetTrialActiveFwdIndex smallAppEnv.cfg trialAlone).1.trial = 0 ∧ ¬IsCurrent s'.dev 0 := by
  refine ⟨_, rfl, by decide +kernel, by decide +kernel, fun h => ?_⟩
  exact absurd h.valid (by decide +kernel)

end Qcc730.Upgrade
