import Qcc730.Lib.Words

/-! The time of the MAC.

    The MAC loses its timers when it sleeps. They are saved with a timestamp, a second timestamp is taken when the
    timer of the always-on domain is programmed, and what the two and that timer say is added when they are written
    back. The recovery of the BMU does the same without a sleep, with a save area of its own. The code here is
    `nt_socpm_sleep.c`. -/

namespace Qcc730.Sleep

open Lib

/-- The registers of the MAC's timers, without their prefix. -/
inductive MtuReg where
  | globalTimer
  | tsfTimerHi
  | tsfTimerLo
  | tbttH
  | tbttL
  | bcnBssidIntv
  deriving DecidableEq, Repr

/-- `mtusr_ts_type` -/
inductive MtusrTs where
  | qtmr
  | systck
  deriving DecidableEq, Repr

/-- `nt_mtusr_timestamp_t` -/
structure MtusrTimestamp where
  time : ℕ
  type : MtusrTs

/-- `nt_mtusr_time_save_t` -/
structure MtusrTimeSave where
  mtuGlobTmr : ℕ
  mtuTsfUs : ℕ
  mtuTbtt : ℕ
  mtuBcnBssidIntv : ℕ
  aonProgrammed : Bool
  mtuTimestamp : MtusrTimestamp
  aonTimestamp : MtusrTimestamp

/-- `PM_RRI_MAC_STATE` -/
inductive PmRri where
  | none
  | macDownLight
  | macDownMcuslp
  | rxReady
  | secondRestore
  | lightRestore
  | txrxReady
  deriving DecidableEq, Repr

/-- What is looked at of `PM_STRUCT`. -/
structure PmStruct where
  wlanStateOff : Bool
  rriState : PmRri

/-- The registers, the save areas of `g_socpm_struct`, and `gdevp->pPmStruct` where there is one. -/
structure MacTime where
  regs : MtuReg → ℕ
  pm : Option PmStruct
  mtusrTimeData : MtusrTimeSave
  bmuRecoveryMtusrTimeData : MtusrTimeSave

/-- `nt_socpm_get_mtusr_timestamp`: outside of `PLATFORM_NT` no timestamp is one of the SysTick. -/
def socpmGetMtusrTimestamp (platformNt inWarmBoot : Bool) (sysTickUs currTimeUs : ℕ) : MtusrTimestamp :=
  if platformNt ∧ inWarmBoot then ⟨sysTickUs, .systck⟩ else ⟨currTimeUs, .qtmr⟩

/-- `nt_socpm_get_mtusr_timestamp_delta`, with `delta_time` last -/
def socpmGetMtusrTimestampDelta (firstTs secondTs : MtusrTimestamp) : Bool × ℕ :=
  match firstTs.type with
  | .systck =>
    if firstTs.time > secondTs.time then (true, firstTs.time - secondTs.time)
    else (false, secondTs.time - firstTs.time)
  | .qtmr =>
    if firstTs.time > secondTs.time then (false, firstTs.time - secondTs.time)
    else (true, secondTs.time - firstTs.time)

/-- The delta is added to a value of `2 ^ w`, or taken off. -/
def applyDelta (w : ℕ) (delta : Bool × ℕ) (x : ℕ) : ℕ :=
  if delta.1 then (x + delta.2 % 2 ^ w) % 2 ^ w else (x + (2 ^ w - delta.2 % 2 ^ w)) % 2 ^ w

namespace MacTime

variable (s : MacTime)

/-- `NT_REG_WR` -/
def ntRegWr (r : MtuReg) (v : ℕ) : MacTime := { s with regs := Function.update s.regs r (v % 2 ^ 32) }

/-- The registers that both procedures save, with the timestamp. -/
def saveRegs (d : MtusrTimeSave) (ts : MtusrTimestamp) : MtusrTimeSave :=
  { d with
    mtuGlobTmr := s.regs .globalTimer
    mtuTsfUs := joinWords 32 (s.regs .tsfTimerHi) (s.regs .tsfTimerLo)
    mtuTbtt := joinWords 32 (s.regs .tbttH) (s.regs .tbttL)
    mtuBcnBssidIntv := s.regs .bcnBssidIntv
    mtuTimestamp := ts }

/-- `nt_socpm_mtusr_save_mtu_time` -/
def socpmMtusrSaveMtuTime (ts : MtusrTimestamp) : MacTime :=
  match s.pm with
  | none => s
  | some pm => if pm.wlanStateOff then s else { s with mtusrTimeData := s.saveRegs s.mtusrTimeData ts }

/-- `nt_socpm_mtusr_save_aon_prog_timestamp` -/
def socpmMtusrSaveAonProgTimestamp (ts : MtusrTimestamp) : MacTime :=
  { s with mtusrTimeData := { s.mtusrTimeData with aonProgrammed := true, aonTimestamp := ts } }

/-- Whether `nt_socpm_mtusr_restore_mtu_time` writes anything. -/
def restores : Prop :=
  match s.pm with
  | none => False
  | some pm => ((pm.wlanStateOff ∧ s.mtusrTimeData.aonProgrammed) ∨ pm.rriState = .rxReady) ∧
      s.mtusrTimeData.aonTimestamp.type = s.mtusrTimeData.mtuTimestamp.type

instance : Decidable s.restores := by
  unfold restores
  cases s.pm <;> infer_instance

/-- The registers that both procedures write. -/
def writeRegs (mtuTmr tsf tbtt bcnBssidIntv : ℕ) : MacTime :=
  (((((s.ntRegWr .globalTimer mtuTmr).ntRegWr .tsfTimerHi (tsf >>> 32)).ntRegWr .tsfTimerLo tsf).ntRegWr .tbttH
    (tbtt >>> 32)).ntRegWr .tbttL tbtt).ntRegWr .bcnBssidIntv bcnBssidIntv

/-- `nt_socpm_mtusr_restore_mtu_time`, with what `nt_socpm_get_slp_tmr_us` gives -/
def socpmMtusrRestoreMtuTime (aonSlpTmrUs : ℕ) : MacTime :=
  let d := s.mtusrTimeData
  let s := if s.restores then
      let delta := socpmGetMtusrTimestampDelta d.mtuTimestamp d.aonTimestamp
      let tsf := (applyDelta 64 delta d.mtuTsfUs + aonSlpTmrUs) % 2 ^ 64
      let mtuTmr := (applyDelta 32 delta d.mtuGlobTmr + aonSlpTmrUs) % 2 ^ 64 % 2 ^ 32
      s.writeRegs mtuTmr tsf d.mtuTbtt d.mtuBcnBssidIntv
    else s
  { s with mtusrTimeData := { s.mtusrTimeData with aonProgrammed := false } }

/-- `nt_socpm_mtusr_save_mtu_time_on_bmu_recovery` -/
def socpmMtusrSaveMtuTimeOnBmuRecovery (ts : MtusrTimestamp) : MacTime :=
  { s with bmuRecoveryMtusrTimeData := s.saveRegs s.bmuRecoveryMtusrTimeData ts }

/-- `nt_socpm_mtusr_restore_mtu_time_on_bmu_recovery`. The TBTT and the beacon interval come from the other save area. -/
def socpmMtusrRestoreMtuTimeOnBmuRecovery (restoreTimestamp : MtusrTimestamp) : MacTime :=
  let d := s.bmuRecoveryMtusrTimeData
  let delta := socpmGetMtusrTimestampDelta d.mtuTimestamp restoreTimestamp
  let tsf := applyDelta 64 delta d.mtuTsfUs
  let mtuTmr := applyDelta 32 delta d.mtuGlobTmr
  s.writeRegs mtuTmr tsf s.mtusrTimeData.mtuTbtt s.mtusrTimeData.mtuBcnBssidIntv

end MacTime

/-! ### Elapsed time -/

/-- The time from the first timestamp to the second one, by the clock of the first one. -/
def MtusrTimestamp.elapsed (firstTs secondTs : MtusrTimestamp) : ℤ :=
  match firstTs.type with
  | .systck => firstTs.time - secondTs.time
  | .qtmr => secondTs.time - firstTs.time

theorem applyDelta_true (w x n : ℕ) : (applyDelta w (true, n) x : ℤ) = (x + n) % 2 ^ w := by
  rw [applyDelta, if_pos rfl, Nat.add_mod_mod]
  push_cast
  rfl

theorem applyDelta_false (w x n : ℕ) : (applyDelta w (false, n) x : ℤ) = (x - n) % 2 ^ w := by
  have hle : n % 2 ^ w ≤ 2 ^ w := (Nat.mod_lt n (Nat.two_pow_pos w)).le
  have hsplit : (x + (2 ^ w - n % 2 ^ w) : ℤ) = x - n + 2 ^ w * (1 + n / 2 ^ w) := by
    have := Int.emod_add_mul_ediv n (2 ^ w)
    linarith
  rw [applyDelta, if_neg (by simp)]
  push_cast [Nat.cast_sub hle]
  rw [hsplit, Int.add_mul_emod_self_left]

/-- Both clocks are read right, whichever timestamp is the later one. -/
theorem applyDelta_elapsed (w : ℕ) (firstTs secondTs : MtusrTimestamp) (x : ℕ) :
    (applyDelta w (socpmGetMtusrTimestampDelta firstTs secondTs) x : ℤ) =
      (x + firstTs.elapsed secondTs) % 2 ^ w := by
  rw [socpmGetMtusrTimestampDelta, MtusrTimestamp.elapsed]
  cases firstTs.type with
  | systck =>
    by_cases hlt : firstTs.time > secondTs.time
    · simp only [if_pos hlt, applyDelta_true, Nat.cast_sub hlt.le]
    · simp only [if_neg hlt, applyDelta_false, Nat.cast_sub (Nat.le_of_not_lt hlt)]
      ring_nf
  | qtmr =>
    by_cases hlt : firstTs.time > secondTs.time
    · simp only [if_pos hlt, applyDelta_false, Nat.cast_sub hlt.le]
      ring_nf
    · simp only [if_neg hlt, applyDelta_true, Nat.cast_sub (Nat.le_of_not_lt hlt)]

/-! ### Saving and restoring -/

/-- The TSF that the registers hold. -/
def tsf (regs : MtuReg → ℕ) : ℕ := joinWords 32 (regs .tsfTimerHi) (regs .tsfTimerLo)

/-- The TBTT that they hold. -/
def tbtt (regs : MtuReg → ℕ) : ℕ := joinWords 32 (regs .tbttH) (regs .tbttL)

/-- `now` is `saved` with the TSF and the global timer advanced by `e`, and the same TBTT and beacon interval. -/
structure Advances (saved now : MtuReg → ℕ) (e : ℤ) : Prop where
  tsf : (tsf now : ℤ) = (tsf saved + e) % 2 ^ 64
  globalTimer : (now .globalTimer : ℤ) = (saved .globalTimer + e) % 2 ^ 32
  tbtt : tbtt now = tbtt saved
  bcnBssidIntv : now .bcnBssidIntv = saved .bcnBssidIntv

namespace MacTime

variable {s : MacTime} {regs : MtuReg → ℕ} {tsMtu tsAon ts ts' : MtusrTimestamp}

/-- What is written is held. -/
theorem joinWords_written {x : ℕ} (hx : x < 2 ^ 64) : joinWords 32 (x >>> 32 % 2 ^ 32) (x % 2 ^ 32) = x := by
  rw [Nat.shiftRight_eq_div_pow]
  exact joinWords_words (w := 32) hx

theorem writeRegs_held {mtuTmr t b i : ℕ} (hm : mtuTmr < 2 ^ 32) (ht : t < 2 ^ 64) (hb : b < 2 ^ 64) (hi : i < 2 ^ 32) :
    tsf (s.writeRegs mtuTmr t b i).regs = t ∧ (s.writeRegs mtuTmr t b i).regs .globalTimer = mtuTmr ∧
      tbtt (s.writeRegs mtuTmr t b i).regs = b ∧ (s.writeRegs mtuTmr t b i).regs .bcnBssidIntv = i := by
  refine ⟨?_, Nat.mod_eq_of_lt hm, ?_, Nat.mod_eq_of_lt hi⟩
  · exact joinWords_written ht
  · exact joinWords_written hb

theorem tbtt_lt (hregs : ∀ r, regs r < 2 ^ 32) : tbtt regs < 2 ^ 64 := by
  have hlo := hregs .tbttL
  have hhi := hregs .tbttH
  rw [tbtt, joinWords_eq hlo]
  omega

theorem applyDelta_lt (w : ℕ) (delta : Bool × ℕ) (x : ℕ) : applyDelta w delta x < 2 ^ w := by
  rw [applyDelta]
  split
  · exact Nat.mod_lt _ (Nat.two_pow_pos w)
  · exact Nat.mod_lt _ (Nat.two_pow_pos w)

/-- `d` says what is held, advanced by `e`. -/
structure HoldsData (regs : MtuReg → ℕ) (d : MtusrTimeSave) (e : ℤ) : Prop where
  tsf : (tsf regs : ℤ) = (d.mtuTsfUs + e) % 2 ^ 64
  globalTimer : (regs .globalTimer : ℤ) = (d.mtuGlobTmr + e) % 2 ^ 32

/-- What is written back, when anything is. -/
theorem restore_holds (aonSlpTmrUs : ℕ) (h : s.restores) (hb : s.mtusrTimeData.mtuTbtt < 2 ^ 64)
    (hi : s.mtusrTimeData.mtuBcnBssidIntv < 2 ^ 32) :
    HoldsData (s.socpmMtusrRestoreMtuTime aonSlpTmrUs).regs s.mtusrTimeData
      (s.mtusrTimeData.mtuTimestamp.elapsed s.mtusrTimeData.aonTimestamp + aonSlpTmrUs) ∧
    tbtt (s.socpmMtusrRestoreMtuTime aonSlpTmrUs).regs = s.mtusrTimeData.mtuTbtt ∧
    (s.socpmMtusrRestoreMtuTime aonSlpTmrUs).regs .bcnBssidIntv = s.mtusrTimeData.mtuBcnBssidIntv := by
  have htsf := applyDelta_elapsed 64 s.mtusrTimeData.mtuTimestamp s.mtusrTimeData.aonTimestamp s.mtusrTimeData.mtuTsfUs
  have htmr := applyDelta_elapsed 32 s.mtusrTimeData.mtuTimestamp s.mtusrTimeData.aonTimestamp s.mtusrTimeData.mtuGlobTmr
  simp only [socpmMtusrRestoreMtuTime, if_pos h]
  generalize applyDelta 64 _ _ = x at htsf ⊢
  generalize applyDelta 32 _ _ = y at htmr ⊢
  have hx : (x + aonSlpTmrUs) % 2 ^ 64 < 2 ^ 64 := Nat.mod_lt _ (Nat.two_pow_pos 64)
  have hy : (y + aonSlpTmrUs) % 2 ^ 64 % 2 ^ 32 < 2 ^ 32 := Nat.mod_lt _ (Nat.two_pow_pos 32)
  obtain ⟨h₁, h₂, h₃, h₄⟩ := writeRegs_held (s := s) hy hx hb hi
  refine ⟨⟨?_, ?_⟩, h₃, h₄⟩
  · rw [h₁]
    push_cast
    omega
  · rw [h₂]
    push_cast
    omega

theorem restoreOnBmuRecovery_holds (hb : s.mtusrTimeData.mtuTbtt < 2 ^ 64)
    (hi : s.mtusrTimeData.mtuBcnBssidIntv < 2 ^ 32) :
    HoldsData (s.socpmMtusrRestoreMtuTimeOnBmuRecovery ts).regs s.bmuRecoveryMtusrTimeData
      (s.bmuRecoveryMtusrTimeData.mtuTimestamp.elapsed ts) ∧
    tbtt (s.socpmMtusrRestoreMtuTimeOnBmuRecovery ts).regs = s.mtusrTimeData.mtuTbtt ∧
    (s.socpmMtusrRestoreMtuTimeOnBmuRecovery ts).regs .bcnBssidIntv = s.mtusrTimeData.mtuBcnBssidIntv := by
  have htsf := applyDelta_elapsed 64 s.bmuRecoveryMtusrTimeData.mtuTimestamp ts s.bmuRecoveryMtusrTimeData.mtuTsfUs
  have htmr := applyDelta_elapsed 32 s.bmuRecoveryMtusrTimeData.mtuTimestamp ts s.bmuRecoveryMtusrTimeData.mtuGlobTmr
  obtain ⟨h₁, h₂, h₃, h₄⟩ := writeRegs_held (s := s) (applyDelta_lt 32 _ s.bmuRecoveryMtusrTimeData.mtuGlobTmr)
    (applyDelta_lt 64 _ s.bmuRecoveryMtusrTimeData.mtuTsfUs) hb hi
  exact ⟨⟨(congrArg Nat.cast h₁).trans htsf, (congrArg Nat.cast h₂).trans htmr⟩, h₃, h₄⟩

/-- The save and the timestamp of the AON timer, in either order. -/
def saveBoth (s : MacTime) (aonFirst : Bool) (tsMtu tsAon : MtusrTimestamp) : MacTime :=
  if aonFirst then (s.socpmMtusrSaveAonProgTimestamp tsAon).socpmMtusrSaveMtuTime tsMtu
  else (s.socpmMtusrSaveMtuTime tsMtu).socpmMtusrSaveAonProgTimestamp tsAon

/-- Both orders come to the same. -/
theorem saveBoth_data {pm : PmStruct} (aonFirst : Bool) (hpm : s.pm = some pm) (hon : pm.wlanStateOff = false) :
    (s.saveBoth aonFirst tsMtu tsAon).mtusrTimeData =
      { s.saveRegs s.mtusrTimeData tsMtu with aonProgrammed := true, aonTimestamp := tsAon } := by
  cases aonFirst with
  | false =>
    simp only [saveBoth, socpmMtusrSaveAonProgTimestamp, socpmMtusrSaveMtuTime, hpm, hon, Bool.false_eq_true, if_false]
  | true =>
    simp only [saveBoth, socpmMtusrSaveAonProgTimestamp, socpmMtusrSaveMtuTime, hpm, hon, Bool.false_eq_true, if_false,
      if_true]
    rfl

/-- After a sleep, in which the registers are lost, the time comes back. -/
theorem restore_advances {pm pm' : PmStruct} (aonFirst : Bool) (aonSlpTmrUs : ℕ) (hregs : ∀ r, s.regs r < 2 ^ 32)
    (hpm : s.pm = some pm) (hon : pm.wlanStateOff = false) (hoff : pm'.wlanStateOff = true ∨ pm'.rriState = .rxReady)
    (htype : tsAon.type = tsMtu.type) :
    Advances s.regs (socpmMtusrRestoreMtuTime
      { s.saveBoth aonFirst tsMtu tsAon with regs := regs, pm := some pm' } aonSlpTmrUs).regs
      (tsMtu.elapsed tsAon + aonSlpTmrUs) := by
  have hdata := @saveBoth_data s tsMtu tsAon pm aonFirst hpm hon
  generalize hx : { s.saveBoth aonFirst tsMtu tsAon with regs := regs, pm := some pm' } = x
  have hxd : x.mtusrTimeData = { s.saveRegs s.mtusrTimeData tsMtu with aonProgrammed := true, aonTimestamp := tsAon } :=
    hx ▸ hdata
  have hrestores : x.restores := by
    have hxpm : x.pm = some pm' := hx ▸ rfl
    rw [restores, hxpm, hxd]
    exact ⟨hoff.imp_left fun h => ⟨h, rfl⟩, htype⟩
  obtain ⟨⟨h₁, h₂⟩, h₃, h₄⟩ := restore_holds aonSlpTmrUs hrestores
    (by rw [hxd]; exact tbtt_lt hregs) (by rw [hxd]; exact hregs _)
  rw [hxd] at h₁ h₂ h₃ h₄
  exact ⟨h₁, h₂, h₃, h₄⟩

/-- Without a sleep the time comes back, but for the TBTT and the beacon interval, which are those of the other save
    area. -/
theorem restoreOnBmuRecovery_advances_iff {d : MtusrTimeSave} (hb : d.mtuTbtt < 2 ^ 64)
    (hi : d.mtuBcnBssidIntv < 2 ^ 32) :
    Advances s.regs (socpmMtusrRestoreMtuTimeOnBmuRecovery
      { s.socpmMtusrSaveMtuTimeOnBmuRecovery ts with regs := regs, mtusrTimeData := d } ts').regs (ts.elapsed ts') ↔
    d.mtuTbtt = tbtt s.regs ∧ d.mtuBcnBssidIntv = s.regs .bcnBssidIntv := by
  obtain ⟨⟨h₁, h₂⟩, h₃, h₄⟩ := @restoreOnBmuRecovery_holds
    { s.socpmMtusrSaveMtuTimeOnBmuRecovery ts with regs := regs, mtusrTimeData := d } ts' hb hi
  exact ⟨fun h => ⟨h₃.symm.trans h.tbtt, h₄.symm.trans h.bcnBssidIntv⟩,
    fun h => ⟨h₁, h₂, h₃.trans h.1, h₄.trans h.2⟩⟩

/-- Both procedures bring the MAC's time back if and only if the area of the power save has, when the BMU recovery
    restores, the TBTT and the beacon interval that the recovery saved. -/
theorem mac_time_iff {s₁ s₂ : MacTime} {pm pm' : PmStruct} {d : MtusrTimeSave} {regs₁ regs₂ : MtuReg → ℕ} {n : ℕ}
    (aonFirst : Bool) (aonSlpTmrUs : ℕ) (hregs : ∀ r, s₁.regs r < 2 ^ 32) (hpm : s₁.pm = some pm)
    (hon : pm.wlanStateOff = false) (hoff : pm'.wlanStateOff = true ∨ pm'.rriState = .rxReady)
    (htype : tsAon.type = tsMtu.type) (hb : d.mtuTbtt < 2 ^ 64) (hi : d.mtuBcnBssidIntv < 2 ^ 32)
    (hn : ts.elapsed ts' = n) :
    (Advances s₁.regs (socpmMtusrRestoreMtuTime
        { s₁.saveBoth aonFirst tsMtu tsAon with regs := regs₁, pm := some pm' } aonSlpTmrUs).regs
        (tsMtu.elapsed tsAon + aonSlpTmrUs) ∧
      Advances s₂.regs (socpmMtusrRestoreMtuTimeOnBmuRecovery
        { s₂.socpmMtusrSaveMtuTimeOnBmuRecovery ts with regs := regs₂, mtusrTimeData := d } ts').regs n) ↔
    d.mtuTbtt = tbtt s₂.regs ∧ d.mtuBcnBssidIntv = s₂.regs .bcnBssidIntv := by
  rw [← hn, and_iff_right (restore_advances aonFirst aonSlpTmrUs hregs hpm hon hoff htype)]
  exact restoreOnBmuRecovery_advances_iff hb hi

/-- The WLAN is on, the registers all hold 9, and both save areas are empty. -/
def nines : MacTime where
  regs := fun _ => 9
  pm := some ⟨false, .none⟩
  mtusrTimeData := ⟨0, 0, 0, 0, false, ⟨0, .qtmr⟩, ⟨0, .qtmr⟩⟩
  bmuRecoveryMtusrTimeData := ⟨0, 0, 0, 0, false, ⟨0, .qtmr⟩, ⟨0, .qtmr⟩⟩

/-- A sleep of 40 us whose AON timer was programmed 30 us before the save, and a recovery of 5 us while the area of the
    power save holds the same TBTT and beacon interval. -/
theorem mac_time_restored :
    Advances nines.regs (socpmMtusrRestoreMtuTime
      { nines.saveBoth true ⟨100, .qtmr⟩ ⟨70, .qtmr⟩ with regs := fun _ => 0, pm := some ⟨true, .none⟩ } 40).regs
      (MtusrTimestamp.elapsed ⟨100, .qtmr⟩ ⟨70, .qtmr⟩ + (40 : ℕ)) ∧
    Advances nines.regs (socpmMtusrRestoreMtuTimeOnBmuRecovery
      { nines.socpmMtusrSaveMtuTimeOnBmuRecovery ⟨100, .systck⟩ with
        regs := fun _ => 0
        mtusrTimeData := nines.saveRegs nines.mtusrTimeData ⟨0, .qtmr⟩ } ⟨95, .systck⟩).regs (5 : ℕ) := by
  have hregs : ∀ r, nines.regs r < 2 ^ 32 := fun _ => show 9 < 2 ^ 32 by decide
  have htbtt : (nines.saveRegs nines.mtusrTimeData ⟨0, .qtmr⟩).mtuTbtt < 2 ^ 64 := tbtt_lt hregs
  have hiff := fun hb hi he => @mac_time_iff ⟨100, .qtmr⟩ ⟨70, .qtmr⟩ ⟨100, .systck⟩ ⟨95, .systck⟩ nines nines
    ⟨false, .none⟩ ⟨true, .none⟩ (nines.saveRegs nines.mtusrTimeData ⟨0, .qtmr⟩) (fun _ => 0) (fun _ => 0) 5 true 40
    hregs rfl rfl (.inl rfl) rfl hb hi he
  exact (hiff htbtt (hregs .bcnBssidIntv) rfl).mpr ⟨rfl, rfl⟩

/-- A recovery with an empty area of the power save writes a TBTT and a beacon interval of 0. -/
theorem mac_time_lost : ¬ Advances nines.regs (socpmMtusrRestoreMtuTimeOnBmuRecovery
      { nines.socpmMtusrSaveMtuTimeOnBmuRecovery ⟨100, .qtmr⟩ with regs := fun _ => 0 } ⟨105, .qtmr⟩).regs (5 : ℕ) ∧
    MtusrTimestamp.elapsed ⟨100, .qtmr⟩ ⟨105, .qtmr⟩ = (5 : ℕ) := by
  refine ⟨fun h => ?_, rfl⟩
  have hintv := h.bcnBssidIntv
  exact absurd hintv (by decide)

end MacTime

end Qcc730.Sleep
