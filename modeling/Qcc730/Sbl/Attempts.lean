import Qcc730.Sbl.Rollback

/-! The load attempts of one boot.

    After an error `boot_sbl_select_validFwd` moves to the next slot without looking whether it is
    valid, and `loader_start` adds the flash base to an address that only a valid FWD with an APP
    entry replaces. So whether every attempt is at the true address of a valid, untried FWD depends
    on the table: it holds for every sequence of faults exactly when a rollback can reach no hole
    and no FWD without an APP entry. -/

namespace Qcc730.Sbl
open Lib Flash

/-- The APP entry of a slot. -/
def SblInfo.appEntry? (info : SblInfo) (i : ℕ) : Option ImageEntry :=
  (info.flashFwdTable i).imageEntries.find? fun e => e.imageId = appImgId

/-- An attempt, given the attempts before it: if it passed selection, it is for a valid FWD not tried
    before, at the address of that FWD's APP entry; and its slot is only invalid when no valid slot
    is left untried. -/
def TryOk (info : SblInfo) (earlier : List Try) (t : Try) : Prop :=
  (t.passed = true → info.FwdTableIsValid t.index ∧
    (∀ t' ∈ earlier, t'.passed = true → t'.index ≠ t.index) ∧
    ∃ e, info.appEntry? t.index = some e ∧ t.addr = u32 (appImageFlashAddress + e.startBlock * 4096)) ∧
  (t.index < maxFwdNum → ¬info.FwdTableIsValid t.index →
    ∀ j < maxFwdNum, info.FwdTableIsValid j → ∃ t' ∈ earlier, t'.index = j)

/-- Every attempt of a boot is as it should be. -/
def TriesOk (info : SblInfo) (tries : List Try) : Prop :=
  ∀ earlier t later, tries = earlier ++ t :: later → TryOk info earlier t

/-- The FWD of a slot has an APP entry. -/
def SblInfo.HasApp (info : SblInfo) (i : ℕ) : Prop := (info.appEntry? i).isSome

/-- The FWD of a slot has an SBL entry. -/
def SblInfo.HasSbl (info : SblInfo) (i : ℕ) : Prop :=
  bootSblFindFwdImage info i sblImgId ≠ maxFwImageEntries

instance (info : SblInfo) (i : ℕ) : Decidable (info.HasApp i) := inferInstanceAs (Decidable (_ = true))

instance (info : SblInfo) (i : ℕ) : Decidable (info.HasSbl i) := inferInstanceAs (Decidable (_ ≠ _))

/-- The tables for which no sequence of faults leads to a wrong attempt. The slot selected first and
    every slot that a rollback reaches from it are valid and have an APP entry; a FWD with an SBL
    entry, and one chosen instead of a reverted trial FWD, is left by a reset and only needs a valid
    slot after it. -/
def SblInfo.AttemptsSafe (info : SblInfo) (sblRank : ℕ) : Prop :=
  if info.TrialUsable sblRank then
    info.HasApp indexTrial ∧ info.FwdTableIsValid indexCurrent ∧
      (info.HasSbl indexTrial ∨
        (info.HasApp indexCurrent ∧ info.FwdTableIsValid indexGolden ∧ info.HasApp indexGolden))
  else if info.FwdTableIsValid indexCurrent then
    info.HasApp indexCurrent ∧ info.FwdTableIsValid indexGolden ∧
      (info.FwdTableIsValid indexTrial ∨ info.HasSbl indexCurrent ∨ info.HasApp indexGolden)
  else info.FwdTableIsValid indexGolden ∧ info.HasApp indexGolden

instance (info : SblInfo) (sblRank : ℕ) : Decidable (info.AttemptsSafe sblRank) := by
  unfold SblInfo.AttemptsSafe
  infer_instance

/-! ### Lists of attempts -/

theorem triesOk_nil (info : SblInfo) : TriesOk info [] := by
  intro earlier t later h
  simp at h

theorem triesOk_concat {info : SblInfo} {ts : List Try} {t : Try} :
    TriesOk info (ts ++ [t]) ↔ TriesOk info ts ∧ TryOk info ts t := by
  constructor
  · intro h
    refine ⟨fun earlier t' later h' => h earlier t' (later ++ [t]) (by simp [h']), h ts t [] rfl⟩
  · rintro ⟨hts, ht⟩ earlier t' later h
    rcases List.eq_nil_or_concat later with rfl | ⟨l, x, rfl⟩
    · obtain ⟨rfl, h2⟩ := List.append_inj' h rfl
      cases h2
      exact ht
    · have h' : ts ++ [t] = (earlier ++ t' :: l) ++ [x] := by simp [h]
      obtain ⟨rfl, -⟩ := List.append_inj' h' rfl
      exact hts earlier t' l rfl

/-- What `boot_sbl_select_validFwd` returning `i` adds to the attempts. -/
theorem Loader.afterSelect_tries (s : Loader) (i : ℕ) (sbl : SblState) :
    ∃ addr, (s.afterSelect i sbl).tries = s.tries ++ [⟨decide (i < maxFwdNum), sbl.info.validFwd, addr⟩] ∧
      ∀ e, i < maxFwdNum → sbl.info.FwdTableIsValid sbl.info.validFwd →
        sbl.info.appEntry? sbl.info.validFwd = some e →
        addr = u32 (appImageFlashAddress + e.startBlock * 4096) := by
  rw [Loader.afterSelect]
  split
  · refine ⟨_, by simp [*]; rfl, ?_⟩
    intro e _ hv he
    rw [SblInfo.appEntry?] at he
    simp only [bootSblPrepareSetFde, if_pos hv, he]
    simp only [u32, appImageFlashAddress]
    omega
  · exact ⟨s.appLoadAddr, by simp [*], fun e h => absurd h ‹_›⟩

/-! ### A round with an error pending -/

/-- The head of the loop with an error pending: slot `i` failed, and the slots after it are as
    `boot_sbl_get_fwd_info` left them. -/
structure Pending (info : SblInfo) (s : Loader) (i o : ℕ) : Prop where
  err : s.sbl.info.errCode ≠ errorSblNone
  fwd : s.sbl.info.validFwd = i
  ota : s.sbl.info.otaSblExist = o
  table : ∀ j, i < j → s.sbl.info.flashFwdTable j = info.flashFwdTable j

namespace Pending

variable {info : SblInfo} {s : Loader} {i o sblRank : ℕ}

theorem valid (h : Pending info s i o) {j : ℕ} (hj : i < j) :
    s.sbl.info.FwdTableIsValid j ↔ info.FwdTableIsValid j := by
  rw [SblInfo.FwdTableIsValid, SblInfo.FwdTableIsValid, h.table j hj]

theorem lastImage (h : Pending info s i o) (hi : i < maxFwdNum) :
    s.sbl.info.LastImage ↔ i = indexGolden ∨ ¬info.FwdTableIsValid (i + 1) := by
  have hv := h.valid (Nat.lt_succ_self i)
  have h3 : i = 0 ∨ i = 1 ∨ i = 2 := by simp only [maxFwdNum] at hi; omega
  rw [SblInfo.LastImage, h.fwd]
  rcases h3 with rfl | rfl | rfl <;> simp_all

/-- The round that answers a pending error by a reset makes no attempt. -/
theorem reset (h : Pending info s i o) (hl : ¬s.sbl.info.LastImage) (hw : s.sbl.info.WantsReset)
    (fault : Option Fault) (rest : List (Option Fault)) :
    (loaderLoop sblRank (fault :: rest) s).2.tries = s.tries := by
  have ha := s.forceFull_agrees
  have hl' : ¬s.forceFull.info.LastImage := mt ha.lastImage.mp hl
  have hw' : s.forceFull.info.WantsReset := by
    rw [SblInfo.WantsReset, ha.ota, ha.validFwd, s.forceFull_errCode]
    exact hw
  obtain ⟨s', hs', -⟩ := selectNext_reset hl' hw'
  rw [loaderLoop_cons, bootSblSelectValidFwd, if_pos (by rw [s.forceFull_errCode]; exact h.err), hs']

end Pending

/-- The attempts `ts` so far, and one more for slot `i`. -/
structure Attempted (info : SblInfo) (ts : List Try) (s : Loader) (i o : ℕ) (fault : Option Fault) :
    Prop where
  err : s.sbl.info.errCode = faultBit fault
  fwd : s.sbl.info.validFwd = i
  ota : s.sbl.info.otaSblExist = o
  table : ∀ j, i < j → s.sbl.info.flashFwdTable j = info.flashFwdTable j
  tries : ∃ addr, s.tries = ts ++ [⟨decide (i < maxFwdNum), i, addr⟩] ∧
    ∀ e, i < maxFwdNum → info.FwdTableIsValid i → info.appEntry? i = some e →
      addr = u32 (appImageFlashAddress + e.startBlock * 4096)

theorem Attempted.pending {info : SblInfo} {ts : List Try} {s : Loader} {i o : ℕ} {f : Fault}
    (h : Attempted info ts s i o (some f)) : Pending info s i o where
  err := by
    rw [h.err]
    cases f <;> simp [faultBit, Fault.code]
  fwd := h.fwd
  ota := h.ota
  table := h.table

/-- The round that answers a pending error by moving to the next slot. -/
theorem Pending.rollback {info : SblInfo} {s : Loader} {i o : ℕ} (h : Pending info s i o)
    (hi : i < maxFwdNum) (hr : s.sbl.info.LastImage ∨ ¬s.sbl.info.WantsReset) (sblRank : ℕ)
    (fault : Option Fault) (rest : List (Option Fault)) :
    ∃ s', Attempted info s.tries s' (i + 1) o fault ∧ loaderLoop sblRank (fault :: rest) s =
      if s'.sbl.info.errCode = errorSblNone then (.ok true, s') else loaderLoop sblRank rest s' := by
  have ha := s.forceFull_agrees
  have hv : s.forceFull.info.validFwd = i := ha.validFwd.trans h.fwd
  have hr' : s.forceFull.info.LastImage ∨ ¬s.forceFull.info.WantsReset := by
    rw [ha.lastImage, SblInfo.WantsReset, ha.ota, ha.validFwd, s.forceFull_errCode]
    exact hr
  rw [loaderLoop_cons, bootSblSelectValidFwd, if_pos (by rw [s.forceFull_errCode]; exact h.err),
    selectNext_rollback (by rw [hv]; exact hi) hr']
  set sbl : SblState := ⟨s.forceFull.dev, s.forceFull.info.rollback⟩ with hsbl
  obtain ⟨ha₁, he₁, -⟩ := s.afterSelect_agrees (s.forceFull.info.validFwd + 1) sbl
  obtain ⟨ha₂, he₂⟩ := loadStages_agrees fault (s.afterSelect (s.forceFull.info.validFwd + 1) sbl)
  obtain ⟨addr, ht, haddr⟩ := s.afterSelect_tries (s.forceFull.info.validFwd + 1) sbl
  have htab : ∀ j, i < j → sbl.info.flashFwdTable j = info.flashFwdTable j := by
    intro j hj
    simp only [hsbl, SblInfo.rollback, SblInfo.invalidate, hv]
    rw [Function.update_of_ne (by omega), ha.table, h.table j hj]
  have hnext : sbl.info.validFwd = i + 1 := by simp [hsbl, SblInfo.rollback, hv]
  refine ⟨_, ⟨?_, ?_, ?_, ?_, addr, ?_, ?_⟩, rfl⟩
  · rw [he₂, he₁]
    simp [hsbl, SblInfo.rollback]
  · rw [ha₂.validFwd, ha₁.validFwd, hnext]
  · rw [ha₂.ota, ha₁.ota]
    exact ha.ota.trans h.ota
  · intro j hj
    rw [ha₂.table, ha₁.table, htab j (by omega)]
  · rw [(loadStages_vars _ _).2.2.2.2, ht, hnext, hv]
  · intro e hi' hval he
    have hnx := htab (i + 1) (Nat.lt_succ_self i)
    refine haddr e (by rw [hv]; exact hi') ?_ ?_
    · rwa [hnext, SblInfo.FwdTableIsValid, hnx]
    · rwa [hnext, SblInfo.appEntry?, hnx]

/-- Past the last slot an error ends in a reset or in another attempt that does not pass. -/
theorem Pending.past_last {info : SblInfo} {s : Loader} {o : ℕ} (h : Pending info s maxFwdNum o)
    (sblRank : ℕ) (fault : Option Fault) (rest : List (Option Fault)) :
    (loaderLoop sblRank (fault :: rest) s).2.tries = s.tries ∨
    ∃ s' addr, s'.tries = s.tries ++ [⟨false, maxFwdNum, addr⟩] ∧ Pending info s' maxFwdNum o ∧
      loaderLoop sblRank (fault :: rest) s = loaderLoop sblRank rest s' := by
  by_cases ho : o = maxFwImageEntries
  · have ha := s.forceFull_agrees
    have hv : s.forceFull.info.validFwd = maxFwdNum := ha.validFwd.trans h.fwd
    have herr : s.forceFull.info.errCode ≠ errorSblNone := by rw [s.forceFull_errCode]; exact h.err
    obtain ⟨ha₁, he₁, -⟩ := s.afterSelect_agrees maxFwdNum s.forceFull
    obtain ⟨ha₂, he₂⟩ := loadStages_agrees fault (s.afterSelect maxFwdNum s.forceFull)
    obtain ⟨addr, ht, -⟩ := s.afterSelect_tries maxFwdNum s.forceFull
    have herr' : (loadStages fault (s.afterSelect maxFwdNum s.forceFull)).sbl.info.errCode ≠ errorSblNone := by
      rw [he₂, he₁]
      exact fun h0 => herr (Nat.or_eq_zero_iff.mp h0).1
    refine .inr ⟨_, addr, ?_, ⟨herr', ?_, ?_, ?_⟩, ?_⟩
    · rw [(loadStages_vars _ _).2.2.2.2, ht, hv]
      rfl
    · rw [ha₂.validFwd, ha₁.validFwd, hv]
    · rw [ha₂.ota, ha₁.ota, ha.ota, h.ota]
    · intro j hj
      rw [ha₂.table, ha₁.table, ha.table, h.table j hj]
    · rw [loaderLoop_cons, bootSblSelectValidFwd, if_pos herr,
        selectNext_end hv.ge (ha.ota.trans (h.ota.trans ho)), hv]
      exact if_neg herr'
  · refine .inl (h.reset ?_ (.inl (by rw [h.ota]; exact ho)) fault rest)
    rw [SblInfo.LastImage, h.fwd]
    simp

/-! ### Safe tables -/

/-- What is needed of the slots after a failed slot `i`: a valid next slot, and unless an SBL entry
    forces a reset, that all of them can be loaded. -/
def SblInfo.Remaining (info : SblInfo) (i o : ℕ) : Prop :=
  (i < indexGolden → info.FwdTableIsValid (i + 1)) ∧
  (o = maxFwImageEntries → ∀ k, i < k → k < maxFwdNum → info.FwdTableIsValid k ∧ info.HasApp k)

theorem TriesOk.attempted {info : SblInfo} {ts : List Try} {s : Loader} {i o : ℕ} {fault : Option Fault}
    (h : TriesOk info ts) (ha : Attempted info ts s i o fault) (hlt : ∀ t ∈ ts, t.passed = true → t.index < i)
    (hi : i < maxFwdNum → info.FwdTableIsValid i ∧ info.HasApp i) :
    TriesOk info s.tries ∧ ∀ t ∈ s.tries, t.passed = true → t.index ≤ i := by
  obtain ⟨addr, ht, haddr⟩ := ha.tries
  rw [ht, triesOk_concat]
  refine ⟨⟨h, ?_, ?_⟩, ?_⟩
  · intro hp
    have hi' : i < maxFwdNum := of_decide_eq_true hp
    obtain ⟨e, he⟩ := Option.isSome_iff_exists.mp (hi hi').2
    exact ⟨(hi hi').1, fun t' ht' hp' => (hlt t' ht' hp').ne, e, he, haddr e hi' (hi hi').1 he⟩
  · intro hi' hv
    exact absurd (hi hi').1 hv
  · intro t ht hp
    rcases List.mem_append.mp ht with ht | ht
    · exact (hlt t ht hp).le
    · rw [List.mem_singleton.mp ht]

/-- Once past the last slot, no attempt passes any more. -/
theorem triesOk_past_last {info : SblInfo} (sblRank : ℕ) {o : ℕ} : ∀ (faults : List (Option Fault))
    {s : Loader}, Pending info s maxFwdNum o → TriesOk info s.tries →
    TriesOk info (loaderLoop sblRank faults s).2.tries
  | [], s, _, hok => hok
  | fault :: rest, s, h, hok => by
    rcases h.past_last sblRank fault rest with ht | ⟨s', addr, ht, h', hl⟩
    · rw [ht]
      exact hok
    · rw [hl]
      refine triesOk_past_last sblRank rest h' ?_
      rw [ht, triesOk_concat]
      refine ⟨hok, ?_, ?_⟩
      · simp
      · simp

/-- From a failed slot on, a safe table keeps every attempt right. The induction is on the rounds
    left; `i` only grows, so an attempt never meets an earlier one. -/
theorem triesOk_pending {info : SblInfo} (sblRank : ℕ) : ∀ (faults : List (Option Fault)) {s : Loader}
    {i o : ℕ}, Pending info s i o → i ≤ maxFwdNum → info.Remaining i o → TriesOk info s.tries →
    (∀ t ∈ s.tries, t.passed = true → t.index ≤ i) → TriesOk info (loaderLoop sblRank faults s).2.tries
  | [], s, i, o, _, _, _, hok, _ => hok
  | fault :: rest, s, i, o, h, hi, hrem, hok, hle => by
    rcases hi.eq_or_lt with rfl | hlt
    · exact triesOk_past_last sblRank (fault :: rest) h hok
    by_cases hr : s.sbl.info.LastImage ∨ ¬s.sbl.info.WantsReset
    · obtain ⟨s', ha, hl⟩ := h.rollback hlt hr sblRank fault rest
      -- a slot that brought an SBL is not the last one here, so it was left by a reset
      have ho : i < indexGolden → o = maxFwImageEntries := by
        intro hg
        by_contra ho
        rcases hr with hl | hw
        · rcases (h.lastImage hlt).mp hl with hl | hl
          · exact hg.ne hl
          · exact hl (hrem.1 hg)
        · exact hw (.inl (by rw [h.ota]; exact ho))
      have hnext : ∀ k, i < k → k < maxFwdNum → info.FwdTableIsValid k ∧ info.HasApp k :=
        fun k hk hk' => hrem.2 (ho (by simp only [indexGolden, maxFwdNum] at *; omega)) k hk hk'
      obtain ⟨hok', hle'⟩ := hok.attempted ha (fun t ht hp => Nat.lt_succ_of_le (hle t ht hp))
        (hnext (i + 1) (Nat.lt_succ_self i))
      rw [hl]
      split
      · exact hok'
      · rcases fault with _ | f
        · exact absurd ha.err ‹_›
        · refine triesOk_pending sblRank rest ha.pending hlt ⟨?_, ?_⟩ hok' hle'
          · intro hg
            exact (hnext (i + 1 + 1) (by omega) (Nat.succ_lt_succ hg)).1
          · intro _ k hk hk'
            exact hnext k (Nat.lt_of_succ_lt hk) hk'
    · rw [not_or, not_not] at hr
      rw [h.reset hr.1 hr.2]
      exact hok

/-! ### The first round -/

/-- The first selection leaves the slots after the chosen one as they were. -/
theorem selectFirst_table (sblRank : ℕ) (info : SblInfo) {j : ℕ} (hj : j ≠ indexTrial) :
    (selectFirst sblRank info).2.flashFwdTable j = info.flashFwdTable j := by
  simp only [selectFirst]
  split_ifs with h1 h2
  · rfl
  · rw [h2.2.2]
    exact Function.update_of_ne hj _ _
  · rfl

theorem firstRound_pending (sblRank : ℕ) (f : Fault) (d : Dev) :
    Pending (Loader.start d).sbl.info (firstRound sblRank (some f) d)
      (selectFirst sblRank (Loader.start d).sbl.info).2.validFwd
      (selectFirst sblRank (Loader.start d).sbl.info).2.otaSblExist := by
  obtain ⟨ha, he, -, -⟩ := firstRound_agrees sblRank (some f) d
  refine ⟨?_, ha.validFwd, ha.ota, ?_⟩
  · rw [he]
    cases f <;> simp [faultBit, Fault.code]
  · intro j hj
    rw [ha.table, selectFirst_table _ _ (by simp only [indexTrial]; omega)]

/-- The first attempt, when the chosen slot is one whose descriptor was not just given up. -/
theorem firstRound_attempted {sblRank : ℕ} {d : Dev} {i o : ℕ} (fault : Option Fault)
    (h1 : (selectFirst sblRank (Loader.start d).sbl.info).1 = i)
    (hv : (selectFirst sblRank (Loader.start d).sbl.info).2.validFwd = i)
    (ho : (selectFirst sblRank (Loader.start d).sbl.info).2.otaSblExist = o)
    (ht : (selectFirst sblRank (Loader.start d).sbl.info).2.flashFwdTable i =
      (Loader.start d).sbl.info.flashFwdTable i) :
    Attempted (Loader.start d).sbl.info [] (firstRound sblRank fault d) i o fault := by
  obtain ⟨ha, he, -, -⟩ := firstRound_agrees sblRank fault d
  obtain ⟨addr, htr, haddr⟩ := (Loader.start d).afterSelect_tries
    (selectFirst sblRank (Loader.start d).sbl.info).1 ⟨d, (selectFirst sblRank (Loader.start d).sbl.info).2⟩
  refine ⟨he, ha.validFwd.trans hv, ha.ota.trans ho, ?_, addr, ?_, ?_⟩
  · intro j hj
    rw [ha.table, selectFirst_table _ _ (by simp only [indexTrial]; omega)]
  · rw [firstRound, (loadStages_vars _ _).2.2.2.2, htr, h1, hv]
    rfl
  · intro e hi hval hent
    refine haddr e (by rw [h1]; exact hi) ?_ ?_
    · rwa [hv, SblInfo.FwdTableIsValid, ht]
    · rwa [hv, SblInfo.appEntry?, ht]

/-- The four outcomes of the first selection from a fresh table. -/
theorem selectFirst_cases {info : SblInfo} (sblRank : ℕ) (h0 : info.validFwd = 0)
    (ho : info.otaSblExist ≠ maxFwImageEntries) :
    let r := selectFirst sblRank info
    (info.TrialUsable sblRank ∧ r.1 = indexTrial ∧ r.2.validFwd = indexTrial ∧
      (r.2.otaSblExist = maxFwImageEntries ↔ ¬info.HasSbl indexTrial) ∧
      r.2.flashFwdTable indexTrial = info.flashFwdTable indexTrial) ∨
    (¬info.TrialUsable sblRank ∧ info.FwdTableIsValid indexCurrent ∧ r.1 = indexCurrent ∧
      r.2.validFwd = indexCurrent ∧
      (r.2.otaSblExist = maxFwImageEntries ↔ ¬info.FwdTableIsValid indexTrial ∧ ¬info.HasSbl indexCurrent)) ∨
    (¬info.TrialUsable sblRank ∧ ¬info.FwdTableIsValid indexCurrent ∧ info.FwdTableIsValid indexGolden ∧
      r.1 = indexGolden ∧ r.2.validFwd = indexGolden) ∨
    (¬info.TrialUsable sblRank ∧ ¬info.FwdTableIsValid indexCurrent ∧ ¬info.FwdTableIsValid indexGolden ∧
      r.2.validFwd = indexTrial ∧ r.2.otaSblExist ≠ maxFwImageEntries) := by
  intro r
  by_cases hu : info.TrialUsable sblRank
  · have hr : r = _ := selectFirst_trial hu
    refine .inl ⟨hu, ?_, ?_, ?_, ?_⟩ <;> rw [hr] <;> simp [SblInfo.choose, SblInfo.HasSbl]
  refine .inr ?_
  by_cases ht : info.FwdTableIsValid indexTrial
  · obtain ⟨hs, hr⟩ := selectFirst_reverted ht hu
    have hr : r = _ := hr
    have h1 := info.revert_valid (show indexCurrent ≠ indexTrial by decide)
    have h2 := info.revert_valid (show indexGolden ≠ indexTrial by decide)
    have hota : r.2.otaSblExist ≠ maxFwImageEntries := by rw [hr]; exact hs
    by_cases v1 : info.FwdTableIsValid indexCurrent
    · have hi : info.revert.afterRevert = indexCurrent := if_pos (h1.mpr v1)
      refine .inl ⟨hu, v1, ?_, ?_, ?_⟩
      · rw [hr]; exact hi
      · rw [hr]; exact hi
      · exact ⟨fun h => absurd h hota, fun h => absurd ht h.1⟩
    · refine .inr ?_
      by_cases v2 : info.FwdTableIsValid indexGolden
      · have hi : info.revert.afterRevert = indexGolden := by
          rw [SblInfo.afterRevert, if_neg (mt h1.mp v1), if_pos (h2.mpr v2)]
        refine .inl ⟨hu, v1, v2, ?_, ?_⟩ <;> rw [hr] <;> exact hi
      · have hi : info.revert.afterRevert = indexTrial := by
          rw [SblInfo.afterRevert, if_neg (mt h1.mp v1), if_neg (mt h2.mp v2)]
          rfl
        exact .inr ⟨hu, v1, v2, by rw [hr]; exact hi, hota⟩
  · have choose : ∀ i, info.firstValid = i → i ≠ maxFwdNum →
        r = (i, info.choose i (bootSblFindFwdImage info i sblImgId)) := by
      rintro i rfl hi
      exact selectFirst_noTrial ht hi
    by_cases v1 : info.FwdTableIsValid indexCurrent
    · have hr := choose indexCurrent (by simp [SblInfo.firstValid, ht, v1]) (by decide)
      refine .inl ⟨hu, v1, by rw [hr], by rw [hr]; rfl, ?_⟩
      rw [hr]
      simp [SblInfo.choose, SblInfo.HasSbl, ht]
    · refine .inr ?_
      by_cases v2 : info.FwdTableIsValid indexGolden
      · have hr := choose indexGolden (by simp [SblInfo.firstValid, ht, v1, v2]) (by decide)
        exact .inl ⟨hu, v1, v2, by rw [hr], by rw [hr]; rfl⟩
      · have hr : r = (maxFwdNum, info) := selectFirst_none (by simp [SblInfo.firstValid, ht, v1, v2])
        exact .inr ⟨hu, v1, v2, by rw [hr]; exact h0, by rw [hr]; exact ho⟩

/-! ### The condition is exact -/

/-- If a rollback from slot `i` can happen, the next slot must be loadable. -/
theorem Pending.next_loadable {info : SblInfo} {s : Loader} {i o sblRank : ℕ} (h : Pending info s i o)
    (hi : i < indexGolden) (hr : s.sbl.info.LastImage ∨ ¬s.sbl.info.WantsReset)
    (hok : TriesOk info (loaderLoop sblRank [some .init] s).2.tries) :
    info.FwdTableIsValid (i + 1) ∧ info.HasApp (i + 1) := by
  have hi3 : i + 1 < maxFwdNum := Nat.succ_lt_succ hi
  obtain ⟨s', ha, hl⟩ := h.rollback (Nat.lt_of_succ_lt hi3) hr sblRank (some .init) []
  obtain ⟨addr, ht, -⟩ := ha.tries
  have hs' : (loaderLoop sblRank [some .init] s).2 = s' := by
    rw [hl]
    split <;> rfl
  rw [hs', ht, triesOk_concat] at hok
  obtain ⟨hv, -, e, he, -⟩ := hok.2.1 (by simpa using hi3)
  exact ⟨hv, Option.isSome_iff_exists.mpr ⟨e, he⟩⟩

/-- An error in the ELF header alone does not ask for a reset. -/
theorem not_wantsReset_init {info : SblInfo} (he : info.errCode = faultBit (some .init))
    (ho : info.otaSblExist = maxFwImageEntries) : ¬info.WantsReset := by
  rw [SblInfo.WantsReset, he, ho]
  simp [faultBit, Fault.code]

theorem loaderLoop_start_init (sblRank : ℕ) (d : Dev) (rest : List (Option Fault)) :
    loaderLoop sblRank (some .init :: rest) (Loader.start d) =
      loaderLoop sblRank rest (firstRound sblRank (some .init) d) := by
  rw [loaderLoop_start, if_neg (by rw [(firstRound_agrees _ _ _).2.1]; decide)]

/-- A table that gives only right attempts is safe: header errors alone reach every slot that must
    be loadable. -/
theorem attemptsSafe_of_triesOk {sblRank : ℕ} {d : Dev}
    (h : ∀ faults, TriesOk (Loader.start d).sbl.info (loaderLoop sblRank faults (Loader.start d)).2.tries) :
    (Loader.start d).sbl.info.AttemptsSafe sblRank := by
  set info := (Loader.start d).sbl.info with hinfo
  set s := firstRound sblRank (some .init) d with hs
  have hpend : Pending info s _ _ := firstRound_pending sblRank .init d
  have herr : s.sbl.info.errCode = faultBit (some .init) := (firstRound_agrees _ _ _).2.1
  have hrun : ∀ rest, TriesOk info (loaderLoop sblRank rest s).2.tries := by
    intro rest
    rw [hs, ← loaderLoop_start_init]
    exact h _
  have first : ∀ {i o}, Attempted info [] s i o (some .init) → i < maxFwdNum → info.HasApp i := by
    intro i o ha hi
    obtain ⟨addr, ht, -⟩ := ha.tries
    have hok := hrun []
    rw [loaderLoop, Cmd.pure_apply, ht, triesOk_concat] at hok
    obtain ⟨-, -, e, he, -⟩ := hok.2.1 (by simpa using hi)
    exact Option.isSome_iff_exists.mpr ⟨e, he⟩
  have h0 : info.validFwd = 0 := bootSblGetFwdInfo_validFwd d
  have hota : info.otaSblExist ≠ maxFwImageEntries := by
    rw [show info.otaSblExist = 0 from (scanFwd_fresh d _ _).2.2.1]
    decide
  rw [SblInfo.AttemptsSafe]
  rcases selectFirst_cases sblRank h0 hota with
    ⟨hu, h1, hv, ho, ht⟩ | ⟨hu, v1, h1, hv, ho⟩ | ⟨hu, v1, v2, h1, hv⟩ | ⟨hu, v1, v2, hv, ho⟩
  · rw [if_pos hu]
    have ha := firstRound_attempted (some .init) h1 hv rfl ht
    rw [hv] at hpend
    have hv1 : info.FwdTableIsValid indexCurrent := by
      by_contra hn
      exact hn (hpend.next_loadable (by decide) (.inl ((hpend.lastImage (by decide)).mpr (.inr hn))) (hrun _)).1
    refine ⟨first ha (by decide), hv1, ?_⟩
    by_cases hsbl : info.HasSbl indexTrial
    · exact .inl hsbl
    · have hw : ¬s.sbl.info.WantsReset := not_wantsReset_init herr (hpend.ota.trans (ho.mpr hsbl))
      obtain ⟨s', ha', hl⟩ := hpend.rollback (by decide) (.inr hw) sblRank (some .init) [some .init]
      have hok := hrun [some .init, some .init]
      rw [hl, if_neg ha'.pending.err] at hok
      have hw' : ¬s'.sbl.info.WantsReset := not_wantsReset_init ha'.err (ha'.ota.trans (ho.mpr hsbl))
      exact .inr ⟨(hpend.next_loadable (by decide) (.inr hw) (hrun _)).2,
        ha'.pending.next_loadable (by decide) (.inr hw') hok⟩
  · rw [if_neg hu, if_pos v1]
    have ha := firstRound_attempted (some .init) h1 hv rfl (selectFirst_table _ _ (by decide))
    rw [hv] at hpend
    have hv2 : info.FwdTableIsValid indexGolden := by
      by_contra hn
      exact hn (hpend.next_loadable (by decide) (.inl ((hpend.lastImage (by decide)).mpr (.inr hn))) (hrun _)).1
    refine ⟨first ha (by decide), hv2, ?_⟩
    by_cases hsbl : info.FwdTableIsValid indexTrial ∨ info.HasSbl indexCurrent
    · exact or_assoc.mp (.inl hsbl)
    · have hw : ¬s.sbl.info.WantsReset :=
        not_wantsReset_init herr (hpend.ota.trans (ho.mpr (not_or.mp hsbl)))
      exact .inr (.inr (hpend.next_loadable (by decide) (.inr hw) (hrun _)).2)
  · rw [if_neg hu, if_neg v1]
    have ha := firstRound_attempted (some .init) h1 hv rfl (selectFirst_table _ _ (by decide))
    exact ⟨v2, first ha (by decide)⟩
  · -- no slot is left: the rollback takes the invalid current slot
    rw [hv] at hpend
    exact absurd (hpend.next_loadable (by decide)
      (.inl ((hpend.lastImage (by decide)).mpr (.inr v1))) (hrun _)).1 v1

/-- A safe table keeps every attempt of every boot right. -/
theorem triesOk_of_attemptsSafe {sblRank : ℕ} {d : Dev} (h : (Loader.start d).sbl.info.AttemptsSafe sblRank)
    (faults : List (Option Fault)) :
    TriesOk (Loader.start d).sbl.info (loaderLoop sblRank faults (Loader.start d)).2.tries := by
  set info := (Loader.start d).sbl.info with hinfo
  have h0 : info.validFwd = 0 := bootSblGetFwdInfo_validFwd d
  have hota : info.otaSblExist ≠ maxFwImageEntries := by
    rw [show info.otaSblExist = 0 from (scanFwd_fresh d _ _).2.2.1]
    decide
  -- the first attempt is right and what remains is enough, whatever slot was chosen
  have run : ∀ {i o} fault rest, Attempted info [] (firstRound sblRank fault d) i o fault → i < maxFwdNum →
      info.FwdTableIsValid i → info.HasApp i → info.Remaining i o →
      TriesOk info (loaderLoop sblRank (fault :: rest) (Loader.start d)).2.tries := by
    intro i o fault rest ha hi hv happ hrem
    obtain ⟨hok, hle⟩ := (triesOk_nil info).attempted ha (by simp) (fun _ => ⟨hv, happ⟩)
    rw [loaderLoop_start]
    split
    · exact hok
    · rcases fault with _ | f
      · exact absurd ha.err ‹_›
      · exact triesOk_pending sblRank rest ha.pending hi.le hrem hok hle
  rcases faults with _ | ⟨fault, rest⟩
  · exact triesOk_nil info
  rw [SblInfo.AttemptsSafe] at h
  rcases selectFirst_cases sblRank h0 hota with
    ⟨hu, h1, hv, ho, ht⟩ | ⟨hu, v1, h1, hv, ho⟩ | ⟨hu, v1, v2, h1, hv⟩ | ⟨hu, v1, v2, hv, ho⟩
  · rw [if_pos hu] at h
    obtain ⟨happ, v1, hsbl⟩ := h
    refine run fault rest (firstRound_attempted fault h1 hv rfl ht) (by decide) hu.1 happ ⟨fun _ => v1, ?_⟩
    intro ho' k hk hk'
    obtain ⟨happ1, v2, happ2⟩ := hsbl.resolve_left (ho.mp ho')
    simp only [indexTrial, maxFwdNum] at hk hk'
    rcases (show k = 1 ∨ k = 2 by omega) with rfl | rfl
    · exact ⟨v1, happ1⟩
    · exact ⟨v2, happ2⟩
  · rw [if_neg hu, if_pos v1] at h
    obtain ⟨happ, v2, hsbl⟩ := h
    refine run fault rest (firstRound_attempted fault h1 hv rfl (selectFirst_table _ _ (by decide)))
      (by decide) v1 happ ⟨fun _ => v2, ?_⟩
    intro ho' k hk hk'
    obtain ⟨hn0, hn1⟩ := ho.mp ho'
    simp only [indexCurrent, maxFwdNum] at hk hk'
    obtain rfl : k = 2 := by omega
    exact ⟨v2, (hsbl.resolve_left hn0).resolve_left hn1⟩
  · rw [if_neg hu, if_neg v1] at h
    refine run fault rest (firstRound_attempted fault h1 hv rfl (selectFirst_table _ _ (by decide)))
      (by decide) v2 h.2 ⟨fun hg => absurd hg (by decide), ?_⟩
    intro _ k hk hk'
    simp only [indexGolden, maxFwdNum] at hk hk'
    omega
  · rw [if_neg hu, if_neg v1] at h
    exact absurd h.1 v2

/-- Over every sequence of faults, each attempt of a boot is for a valid untried FWD at the address
    of its APP entry exactly when the table is safe. -/
theorem attempts_ok_iff (sblRank : ℕ) (d : Dev) :
    (∀ faults, TriesOk (bootSblGetFwdInfo d SblInfo.zero)
      (loaderLoop sblRank faults (Loader.start d)).2.tries) ↔
    (bootSblGetFwdInfo d SblInfo.zero).AttemptsSafe sblRank :=
  ⟨attemptsSafe_of_triesOk, triesOk_of_attemptsSafe⟩

/-- A trial FWD in sector 0 and a golden one in sector 1: after a bad ELF header of the trial image,
    the empty current slot is tried while the golden FWD is still untried, at an address that is
    neither image's. -/
theorem trialAndGolden_tries_hole :
    (loaderLoop fdeImgRankCurrent [some .init, some .init] (Loader.start trialAndGolden)).2.tries =
      [⟨true, indexTrial, 0xA03000⟩, ⟨true, indexCurrent, 0x1403000⟩] ∧
    ¬TriesOk (bootSblGetFwdInfo trialAndGolden SblInfo.zero)
      (loaderLoop fdeImgRankCurrent [some .init, some .init] (Loader.start trialAndGolden)).2.tries := by
  have ht : (loaderLoop fdeImgRankCurrent [some .init, some .init] (Loader.start trialAndGolden)).2.tries =
      [⟨true, indexTrial, 0xA03000⟩, ⟨true, indexCurrent, 0x1403000⟩] := by decide +kernel
  refine ⟨ht, fun h => ?_⟩
  rw [ht] at h
  have hv := ((h [⟨true, indexTrial, 0xA03000⟩] ⟨true, indexCurrent, 0x1403000⟩ [] rfl).1 rfl).1
  exact absurd hv (by decide +kernel)

end Qcc730.Sbl
