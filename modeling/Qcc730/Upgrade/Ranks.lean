import Qcc730.Upgrade.PowerLoss

/-! The upgrader's view of the FWD table, and what changes it.

    `fw_upgrade_get_trial_active_fwd_index` takes the ranked FWD of highest rank for the current one, slot 0
    if there is none. A session rewrites another slot, accepting a trial gives it the next rank and then
    takes the old current one out, rejecting takes the trial out. -/

namespace Qcc730.Upgrade
open Lib Flash Sbl

/-! ### Reading the table -/

/-- The three FWD blocks lie in the flash. -/
def HasFwds (d : Dev) : Prop := fwUpgradeMaxFwd * 4096 ≤ u32 (d.densityInBlocks * 4096)

instance (d : Dev) : Decidable (HasFwds d) := inferInstanceAs (Decidable (_ ≤ _))

theorem HasFwds.inFlash {d : Dev} (h : HasFwds d) {i o n : ℕ} (hi : i < maxFwdNum) (hn : n ≠ 0) (ho : o + n ≤ 512) :
    d.InFlash (i * 4096 + o) n := by
  simp only [maxFwdNum] at hi
  simp only [HasFwds, fwUpgradeMaxFwd] at h
  have hu : u32 (i * 4096 + o + n) = i * 4096 + o + n := u32_of_lt (by omega)
  refine ⟨hn, by rw [hu]; omega, ?_⟩
  rw [hu]
  omega

/-- The fields that the scans read. -/
def hdrOf (f : Fwd) : FwdHdr := ⟨f.signature, f.rank, f.status, f.totalImages⟩

/-- Valid by the upgrader's check and not on trial. -/
def Ranked (f : Fwd) : Prop := (hdrOf f).Valid ∧ f.rank ≠ fwdRankTrial

/-- Valid by the upgrader's check and on trial. -/
def OnTrial (f : Fwd) : Prop := (hdrOf f).Valid ∧ f.rank = fwdRankTrial

instance (f : Fwd) : Decidable (Ranked f) := inferInstanceAs (Decidable (_ ∧ _))

instance (f : Fwd) : Decidable (OnTrial f) := inferInstanceAs (Decidable (_ ∧ _))

theorem hdrOf_valid {f : Fwd} (h : (hdrOf f).Valid) : FwdIsValid f := ⟨h.1, h.2.1⟩

theorem getFwdInfo_eq {d : Dev} (h : HasFwds d) {i : ℕ} (hi : i < maxFwdNum) (info : FwdInfo) :
    fwUpgradeGetFwdInfo d i info = .ok (info.decode d.mem.flash (i * 4096)) := by
  have hin : d.InFlash (i * 4096 + info.offset) info.byteCnt := by
    cases info <;> exact h.inFlash hi (by decide) (by decide)
  rw [fwUpgradeGetFwdInfo, if_neg (by simpa using hi), drvFlashRead, if_pos hin]

theorem readFwdHdr_eq {d : Dev} (h : HasFwds d) {i : ℕ} (hi : i < maxFwdNum) :
    readFwdHdr d i = .ok (hdrOf (d.mem.fwd i)) := by
  simp only [readFwdHdr, getFwdInfo_eq h hi]
  rfl

theorem scanTrialActive_eq {d : Dev} (h : HasFwds d) : ∀ {l : List ℕ} (r : TrialActive), (∀ i ∈ l, i < maxFwdNum) →
    scanTrialActive d l r = (l.foldl (fun r i => r.note i (hdrOf (d.mem.fwd i))) r, true)
  | [], _, _ => rfl
  | i :: l, r, hl => by
    rw [scanTrialActive, readFwdHdr_eq h (hl i List.mem_cons_self), List.foldl_cons]
    exact scanTrialActive_eq h _ fun j hj => hl j (List.mem_cons_of_mem _ hj)

/-- The scan of two slots `a` and `b` over the FWDs `f`, above the rank `rank`. -/
def scanTwo (f : ℕ → Fwd) (a b rank : ℕ) : TrialActive :=
  ((⟨fwdTrialUnused, 0, rank⟩ : TrialActive).note a (hdrOf (f a))).note b (hdrOf (f b))

/-- What `fw_upgrade_get_trial_active_fwd_index` finds in the FWDs `f`. -/
def scanView (num : ℕ) (f : ℕ → Fwd) : TrialActive :=
  if num = 2 then scanTwo f 0 1 0 else scanTwo f 1 2 (f 0).rank

theorem getTrialActive_eq {cfg : Config} {d : Dev} (h : HasFwds d)
    (hc : cfg.fwdSupportNum = 2 ∨ cfg.fwdSupportNum = 3) :
    fwUpgradeGetTrialActiveFwdIndex cfg d = (scanView cfg.fwdSupportNum d.mem.fwd,
      (scanView cfg.fwdSupportNum d.mem.fwd).trial != fwdTrialUnused) := by
  rw [fwUpgradeGetTrialActiveFwdIndex, scanView]
  rcases hc with hc | hc
  · simp only [hc, if_true, OfNat.ofNat_ne_one, if_false, scanTrialActive_eq h _ (show ∀ i ∈ [0, 1], i < maxFwdNum by decide)]
    simp [scanTwo]
  · simp only [hc, OfNat.ofNat_ne_one, if_false, show ¬(3 = 2) by decide, getFwdInfo_eq h (show 0 < maxFwdNum by decide),
      scanTrialActive_eq h _ (show ∀ i ∈ [1, 2], i < maxFwdNum by decide)]
    simp [scanTwo, FwdInfo.decode, Mem.fwd, Fwd.decode]

/-! ### The scan of two slots -/

theorem note_ranked {r : TrialActive} {i : ℕ} {f : Fwd} (h : Ranked f) (hr : r.rank < f.rank) :
    r.note i (hdrOf f) = { r with rank := f.rank, current := i } := by
  rw [TrialActive.note, if_pos h.1, if_neg (show ¬(hdrOf f).rank = _ from h.2), if_pos (show r.rank < (hdrOf f).rank from hr)]
  rfl

theorem note_onTrial {r : TrialActive} {i : ℕ} {f : Fwd} (h : OnTrial f) :
    r.note i (hdrOf f) = { r with trial := i } := by
  rw [TrialActive.note, if_pos h.1, if_pos (show (hdrOf f).rank = _ from h.2)]

theorem note_other {r : TrialActive} {i : ℕ} {f : Fwd} (h : ¬(Ranked f ∧ r.rank < f.rank)) (ht : ¬OnTrial f) :
    r.note i (hdrOf f) = r := by
  rw [TrialActive.note]
  split
  · rename_i hv
    have hne : ¬(hdrOf f).rank = fwdRankTrial := fun hr => ht ⟨hv, hr⟩
    rw [if_neg hne, if_neg (show ¬r.rank < (hdrOf f).rank from fun hr => h ⟨⟨hv, hne⟩, hr⟩)]
  · rfl

/-- Current and rank change only with a ranked FWD of higher rank. -/
theorem note_current {r : TrialActive} {i : ℕ} {f : Fwd} :
    (r.note i (hdrOf f)).current = (if Ranked f ∧ r.rank < f.rank then i else r.current) ∧
    (r.note i (hdrOf f)).rank = (if Ranked f ∧ r.rank < f.rank then f.rank else r.rank) ∧
    (r.note i (hdrOf f)).trial = if OnTrial f then i else r.trial := by
  by_cases ht : OnTrial f
  · have hn : ¬(Ranked f ∧ r.rank < f.rank) := fun h => h.1.2 ht.2
    rw [note_onTrial ht, if_neg hn, if_neg hn, if_pos ht]
    exact ⟨rfl, rfl, rfl⟩
  · by_cases hr : Ranked f ∧ r.rank < f.rank
    · rw [note_ranked hr.1 hr.2, if_pos hr, if_pos hr, if_neg ht]
      exact ⟨rfl, rfl, rfl⟩
    · rw [note_other hr ht, if_neg hr, if_neg hr, if_neg ht]
      exact ⟨rfl, rfl, rfl⟩

/-- The result of the scan, spelled out. -/
theorem scanTwo_eq (f : ℕ → Fwd) (a b rank : ℕ) :
    let ra := Ranked (f a) ∧ rank < (f a).rank
    let rank' := if ra then (f a).rank else rank
    let rb := Ranked (f b) ∧ rank' < (f b).rank
    (scanTwo f a b rank).current = (if rb then b else if ra then a else 0) ∧
    (scanTwo f a b rank).rank = (if rb then (f b).rank else rank') ∧
    (scanTwo f a b rank).trial = (if OnTrial (f b) then b else if OnTrial (f a) then a else fwdTrialUnused) := by
  have h₁ := note_current (r := (⟨fwdTrialUnused, 0, rank⟩ : TrialActive)) (i := a) (f := f a)
  have h₂ := note_current (r := (⟨fwdTrialUnused, 0, rank⟩ : TrialActive).note a (hdrOf (f a))) (i := b) (f := f b)
  rw [h₁.1, h₁.2.1, h₁.2.2] at h₂
  exact h₂

/-- Taking out a FWD that is not the current one. -/
theorem scanTwo_remove {f f' : ℕ → Fwd} {a b rank t : ℕ} (hab : a ≠ b) (ha : a ≠ t → f' a = f a)
    (hb : b ≠ t → f' b = f b) (ht : ¬Ranked (f' t)) (hne : t = a ∨ t = b → t ≠ (scanTwo f a b rank).current) :
    (scanTwo f' a b rank).current = (scanTwo f a b rank).current ∧
    (scanTwo f' a b rank).rank = (scanTwo f a b rank).rank := by
  obtain ⟨hc, hr, -⟩ := scanTwo_eq f a b rank
  obtain ⟨hc', hr', -⟩ := scanTwo_eq f' a b rank
  rw [hc] at hne
  rw [hc, hr, hc', hr']
  by_cases hta : a = t
  · subst hta
    have hna : ¬(Ranked (f' a) ∧ rank < (f' a).rank) := fun h => ht h.1
    have hne' := hne (.inl rfl)
    rw [hb (Ne.symm hab)]
    simp only [if_neg hna]
    by_cases hra : Ranked (f a) ∧ rank < (f a).rank
    · -- the FWD at `a` was beaten by the one at `b`
      simp only [if_pos hra] at hne' ⊢
      have hrb : Ranked (f b) ∧ (f a).rank < (f b).rank := by
        by_contra hrb
        rw [if_neg hrb] at hne'
        exact hne' rfl
      have hrb' : Ranked (f b) ∧ rank < (f b).rank := ⟨hrb.1, by omega⟩
      simp only [if_pos hrb, if_pos hrb']
      exact ⟨trivial, trivial⟩
    · simp only [if_neg hra]
      exact ⟨trivial, trivial⟩
  · rw [ha hta]
    by_cases htb : b = t
    · subst htb
      have hnb : ∀ k, ¬(Ranked (f' b) ∧ k < (f' b).rank) := fun k h => ht h.1
      have hne' := hne (.inr rfl)
      simp only [if_neg (hnb _)]
      have hrb : ¬(Ranked (f b) ∧ (if Ranked (f a) ∧ rank < (f a).rank then (f a).rank else rank) < (f b).rank) := by
        intro hrb
        rw [if_pos hrb] at hne'
        exact hne' rfl
      simp only [if_neg hrb]
      exact ⟨trivial, trivial⟩
    · rw [hb htb]
      exact ⟨rfl, rfl⟩

/-- Giving the trial a higher rank than any other makes it the current one. -/
theorem scanTwo_promote {f f' : ℕ → Fwd} {a b rank t : ℕ} (hab : a ≠ b) (htu : t = a ∨ t = b) (hot : OnTrial (f t))
    (ha : a ≠ t → f' a = f a) (hb : b ≠ t → f' b = f b) (hr : Ranked (f' t))
    (hrank : (scanTwo f a b rank).rank < (f' t).rank) :
    (scanTwo f' a b rank).current = t ∧ (scanTwo f' a b rank).rank = (f' t).rank := by
  obtain ⟨-, hrk, -⟩ := scanTwo_eq f a b rank
  obtain ⟨hc', hr', -⟩ := scanTwo_eq f' a b rank
  have hnt : ∀ k, ¬(Ranked (f t) ∧ k < (f t).rank) := fun k h => h.1.2 hot.2
  rw [hrk] at hrank
  rw [hc', hr']
  rcases htu with rfl | rfl
  · simp only [if_neg (hnt _)] at hrank
    have hmax : rank < (f' t).rank ∧ ¬(Ranked (f b) ∧ (f' t).rank < (f b).rank) := by
      split at hrank
      · exact ⟨by omega, fun h => by omega⟩
      · rename_i hrb
        exact ⟨hrank, fun h => hrb ⟨h.1, by omega⟩⟩
    rw [hb (Ne.symm hab)]
    simp only [if_pos (show Ranked (f' t) ∧ rank < (f' t).rank from ⟨hr, hmax.1⟩), if_neg hmax.2]
    exact ⟨trivial, trivial⟩
  · rw [if_neg (hnt _)] at hrank
    rw [ha hab]
    simp only [if_pos (show Ranked (f' t) ∧
      (if Ranked (f a) ∧ rank < (f a).rank then (f a).rank else rank) < (f' t).rank from ⟨hr, hrank⟩)]
    exact ⟨trivial, trivial⟩

/-! ### The view -/

/-- The slots that the scan goes through. -/
def scanSlots (num : ℕ) : List ℕ := if num = 2 then [0, 1] else [1, 2]

theorem scanSlots_lt {num i : ℕ} (h : i ∈ scanSlots num) : i < maxFwdNum := by
  rw [scanSlots] at h
  split at h <;> simp at h <;> rcases h with rfl | rfl <;> decide

/-- The trial that the scan finds. -/
theorem scanView_trial {num : ℕ} {f : ℕ → Fwd} (h : (scanView num f).trial ≠ fwdTrialUnused) :
    (scanView num f).trial ∈ scanSlots num ∧ OnTrial (f (scanView num f).trial) := by
  rw [scanView] at h ⊢
  rw [scanSlots]
  split
  · rename_i hn
    rw [if_pos hn] at h
    rw [(scanTwo_eq f 0 1 0).2.2] at h ⊢
    split_ifs at h ⊢
    · exact ⟨by simp, ‹_›⟩
    · exact ⟨by simp, ‹_›⟩
    · exact absurd rfl h
  · rename_i hn
    rw [if_neg hn] at h
    rw [(scanTwo_eq f 1 2 (f 0).rank).2.2] at h ⊢
    split_ifs at h ⊢
    · exact ⟨by simp, ‹_›⟩
    · exact ⟨by simp, ‹_›⟩
    · exact absurd rfl h

theorem scanView_current_lt (num : ℕ) (f : ℕ → Fwd) : (scanView num f).current < maxFwdNum := by
  rw [scanView]
  split
  · rw [(scanTwo_eq f 0 1 0).1]
    split_ifs <;> decide
  · rw [(scanTwo_eq f 1 2 (f 0).rank).1]
    split_ifs <;> decide

/-- Taking a FWD out, other than the current one and, with three FWDs, the one of slot 0. -/
theorem scanView_remove {num t : ℕ} {f f' : ℕ → Fwd} (hf : ∀ s < maxFwdNum, s ≠ t → f' s = f s)
    (ht : ¬Ranked (f' t)) (hne : t ≠ (scanView num f).current) (h0 : num ≠ 2 → t ≠ 0) :
    (scanView num f').current = (scanView num f).current ∧ (scanView num f').rank = (scanView num f).rank := by
  rw [scanView] at hne
  rw [scanView, scanView]
  split
  · rename_i hn
    rw [if_pos hn] at hne
    exact scanTwo_remove (by decide) (hf 0 (by decide)) (hf 1 (by decide)) ht fun _ => hne
  · rename_i hn
    rw [if_neg hn] at hne
    rw [hf 0 (by decide) (Ne.symm (h0 hn))]
    exact scanTwo_remove (by decide) (hf 1 (by decide)) (hf 2 (by decide)) ht fun _ => hne

/-- Giving the trial a rank above all. -/
theorem scanView_promote {num t : ℕ} {f f' : ℕ → Fwd} (hm : t ∈ scanSlots num) (hot : OnTrial (f t))
    (hf : ∀ s < maxFwdNum, s ≠ t → f' s = f s) (hr : Ranked (f' t)) (hrank : (scanView num f).rank < (f' t).rank) :
    (scanView num f').current = t ∧ (scanView num f').rank = (f' t).rank := by
  rw [scanSlots] at hm
  rw [scanView] at hrank ⊢
  split
  · rename_i hn
    rw [if_pos hn] at hm hrank
    exact scanTwo_promote (by decide) (by simpa using hm) hot (hf 0 (by decide)) (hf 1 (by decide)) hr hrank
  · rename_i hn
    rw [if_neg hn] at hm hrank
    have h0 : (0 : ℕ) ≠ t := by
      rintro rfl
      simp at hm
    rw [hf 0 (by decide) h0]
    exact scanTwo_promote (by decide) (by simpa using hm) hot (hf 1 (by decide)) (hf 2 (by decide)) hr hrank

/-- The rank that the scan returns is that of the current FWD, or 0 without one. -/
theorem scanView_rank (num : ℕ) (f : ℕ → Fwd) :
    (scanView num f).rank = (f (scanView num f).current).rank ∨ (num = 2 ∧ (scanView num f).rank = 0) := by
  rw [scanView]
  split
  · obtain ⟨hc, hr, -⟩ := scanTwo_eq f 0 1 0
    rw [hc, hr]
    split_ifs
    · exact .inl rfl
    · exact .inl rfl
    · exact .inl rfl
    · exact .inr ⟨‹_›, rfl⟩
  · obtain ⟨hc, hr, -⟩ := scanTwo_eq f 1 2 (f 0).rank
    rw [hc, hr]
    split_ifs
    · exact .inl rfl
    · exact .inl rfl
    · exact .inl rfl
    · exact .inl rfl

/-! ### Programming rank and status -/

theorem infoWrites_eq (i : ℕ) (info : FwdInfo) (v : ℕ) :
    infoWrites i info v = [.program (i * 4096 + info.offset) (info.encode v)] := by
  have hblock : i * 4096 = 256 * (i * 16) := by ring
  have hmod : ∀ o < 256, (i * 4096 + o) % 256 = o := by
    intro o ho
    rw [hblock, Nat.mul_add_mod, Nat.mod_eq_of_lt ho]
  have h₀ : i * 4096 % 256 = 0 := by rw [hblock, Nat.mul_mod_right]
  cases info <;> simp [infoWrites, pages, FwdInfo.encode, FwdInfo.offset, le32, h₀, hmod]

theorem setFwdInfo_eq {s : Fu} (h : HasFwds s.dev) {i : ℕ} (hi : i < maxFwdNum) (info : FwdInfo) (v : ℕ) :
    fwUpgradeSetFwdInfo i info v s =
      (.ok (), s.writes [.program (i * 4096 + info.offset) (info.encode v)]) := by
  have hin : s.dev.InFlash (i * 4096 + info.offset) (info.encode v).length := by
    rw [FwdInfo.length_encode]
    cases info <;> exact h.inFlash hi (by decide) (by decide)
  rw [fwUpgradeSetFwdInfo, if_neg (by simpa using hi), drvFlashWrite, if_pos hin, ← infoWrites_eq, infoWrites]
  rfl

/-- A FWD whose bytes changed at most in rank and status. -/
theorem fwd_decode_update {m m' : Memory} {a : ℕ} (h : ∀ i < 512, i < 8 ∨ 12 < i → m' (a + i) = m (a + i)) :
    Fwd.decode m' a = { Fwd.decode m a with rank := m'.word (a + 8), status := (m' (a + 12)).toNat } := by
  have h₀ : m'.word a = m.word a := by
    apply Memory.word_congr
    intro i hi
    exact h i (by omega) (.inl (by omega))
  have h₄ : m'.word (a + 4) = m.word (a + 4) := by
    apply Memory.word_congr
    intro i hi
    rw [Nat.add_assoc]
    exact h (4 + i) (by omega) (.inl (by omega))
  have h₁₃ : m' (a + 13) = m (a + 13) := h 13 (by omega) (.inr (by omega))
  have hes : ∀ k ∈ List.range maxFwImageEntries,
      ImageEntry.decode m' (a + 32 + 16 * k) = ImageEntry.decode m (a + 32 + 16 * k) := by
    intro k hk
    apply ImageEntry.decode_congr
    intro i hi
    have hk' : k < 30 := List.mem_range.mp hk
    have := h (32 + 16 * k + i) (by omega) (.inr (by omega))
    simpa only [Nat.add_assoc] using this
  simp only [Fwd.decode, h₀, h₄, h₁₃, List.map_congr_left hes]

/-- Programming the rank of a trial FWD sets it. -/
theorem fwd_program_rank {m : Mem} {i v : ℕ} (h : (m.fwd i).rank = fwdRankTrial) (hv : v < 2 ^ 32) :
    (m.app (.program (i * 4096 + 8) (le32 v))).fwd i = { m.fwd i with rank := v } := by
  have hff : ∀ k < 4, m.flash (i * 4096 + 8 + k) = 0xFF := Memory.word_ff h
  rw [Mem.fwd, fwd_decode_update (m := m.flash)]
  · have hrank : (m.app (.program (i * 4096 + 8) (le32 v))).flash.word (i * 4096 + 8) = v := by
      refine word_of_le32 hv fun k hk => ?_
      exact Memory.program_in hk (hff k hk)
    have hst : (m.app (.program (i * 4096 + 8) (le32 v))).flash (i * 4096 + 12) = m.flash (i * 4096 + 12) :=
      Memory.program_out (by simp)
    rw [hrank, hst]
    rfl
  · intro k hk hne
    exact Memory.program_out (by simp; omega)

/-- Programming the status to 0 clears it. -/
theorem fwd_program_status (m : Mem) (i : ℕ) :
    (m.app (.program (i * 4096 + 12) [0])).fwd i = { m.fwd i with status := 0 } := by
  rw [Mem.fwd, fwd_decode_update (m := m.flash)]
  · have hrank : (m.app (.program (i * 4096 + 12) [0])).flash.word (i * 4096 + 8) = m.flash.word (i * 4096 + 8) := by
      apply Memory.word_congr
      intro k hk
      exact Memory.program_out (by simp; omega)
    have hst : (m.app (.program (i * 4096 + 12) [0])).flash (i * 4096 + 12) = 0 := by
      show (if _ ∧ _ then m.flash _ &&& _ else _) = _
      rw [if_pos ⟨by omega, by simp⟩]
      simp
    rw [hrank, hst]
    rfl
  · intro k hk hne
    exact Memory.program_out (by simp; omega)

/-- Programming rank or status of a FWD leaves the others alone. -/
theorem fwd_program_other {m : Mem} {i j o : ℕ} {b : Bytes} (hij : j ≠ i) (ho : o + b.length ≤ 512) :
    (m.app (.program (i * 4096 + o) b)).fwd j = m.fwd j := by
  apply Mem.fwd_congr
  intro x hx
  rw [Range.mem_mk] at hx
  exact Memory.program_out (by omega)

end Qcc730.Upgrade
