import Qcc730.Sleep.MacTime

/-! 64-bit counters.

    The counters of the timers, of the always-on domain and of the MAC go on while they are read, one 32-bit word after
    the other. Only one place in the code, which is not built in, looks whether the low word rolled over. -/

namespace Qcc730.Sleep

open Lib

/-- `qtmr_frame_t` -/
inductive QtmrFrame where
  | physical0
  | physical1
  | physical2
  | physical3
  | physical4
  deriving DecidableEq, Repr

/-- `qtmr_get_time64`, for the reads of each frame's counter. All cases read the high word first. -/
def qtmrGetTime64 (counter : QtmrFrame → Reading 32) (frame : QtmrFrame) : ℕ :=
  let countHi := (counter frame).high .highFirst
  let countLo := (counter frame).low .highFirst
  countHi <<< 32 ||| countLo

/-- What the build and the calibration do to the sleep timer once it is read: nothing, `APPLY_SLEEP_CLK_CORRECTION` in
    the active mode, or `COMPENSATE_RC_DIVISION_ERROR_WAR`. -/
inductive SlpClk where
  | raw
  | active (xocnt refxocnt : ℕ)
  | compensated

def SlpClk.correct (time : ℕ) : SlpClk → ℕ
  | .raw => time
  | .active xocnt refxocnt => time * xocnt % 2 ^ 64 / refxocnt
  | .compensated => time * 524288 % 2 ^ 64 / 523828

/-- `nt_socpm_slp_tmr_get` -/
def socpmSlpTmrGet (clk : SlpClk) (counter : Reading 32) : ℕ :=
  let time := counter.high .highFirst
  let time := counter.low .highFirst ||| time <<< 32
  clk.correct time

/-- The MAC's registers hold what the reads of the TSF and of the TBTT find. In which order the two words of each are
    read is left to the compiler. -/
def MacTime.reading (s : MacTime) (o : WordOrder) (tsf tbtt : Reading 32) : MacTime :=
  { s with regs := fun
    | .tsfTimerHi => tsf.high o
    | .tsfTimerLo => tsf.low o
    | .tbttH => tbtt.high o
    | .tbttL => tbtt.low o
    | r => s.regs r }

/-- `_socpm_glob_save`, built with `_SOCPM_INC_FN_TIMESYNC`: the TSF, which is `c₀` to `c₃` at the four reads. -/
def socpmGlobSaveTsf (c₀ c₁ c₂ c₃ : ℕ) : ℕ := readAgain 32 c₀ c₁ c₂ c₃

/-- The places where a counter is read. The MAC's are read by `nt_socpm_mtusr_save_mtu_time`. -/
inductive Site where
  | qtmr (frame : QtmrFrame)
  | slpTmr
  | tsf (s : MacTime) (o : WordOrder) (other : Reading 32) (ts : MtusrTimestamp)
  | tbtt (s : MacTime) (o : WordOrder) (other : Reading 32) (ts : MtusrTimestamp)

namespace Site

/-- The result of the two reads. -/
def read (r : Reading 32) : Site → ℕ
  | .qtmr frame => qtmrGetTime64 (fun _ => r) frame
  | .slpTmr => socpmSlpTmrGet .raw r
  | .tsf s o other ts => ((s.reading o r other).socpmMtusrSaveMtuTime ts).mtusrTimeData.mtuTsfUs
  | .tbtt s o other ts => ((s.reading o other r).socpmMtusrSaveMtuTime ts).mtusrTimeData.mtuTbtt

/-- The counter is read: of the MAC, while it is on. -/
def Reads : Site → Prop
  | .qtmr _ | .slpTmr => True
  | .tsf s .. | .tbtt s .. => ∃ pm, s.pm = some pm ∧ pm.wlanStateOff = false

/-- The order of the two reads. -/
def order : Site → WordOrder
  | .qtmr _ | .slpTmr => .highFirst
  | .tsf _ o _ _ | .tbtt _ o _ _ => o

variable {site : Site} {r : Reading 32}

theorem read_eq (h : site.Reads) : site.read r = r.read site.order := by
  cases site with
  | qtmr frame => rfl
  | slpTmr => exact Nat.or_comm ..
  | tsf s o other ts =>
    obtain ⟨pm, hpm, hon⟩ := h
    have hpm' : (s.reading o r other).pm = some pm := hpm
    simp only [read, MacTime.socpmMtusrSaveMtuTime, hpm', hon, Bool.false_eq_true, if_false]
    rfl
  | tbtt s o other ts =>
    obtain ⟨pm, hpm, hon⟩ := h
    have hpm' : (s.reading o other r).pm = some pm := hpm
    simp only [read, MacTime.socpmMtusrSaveMtuTime, hpm', hon, Bool.false_eq_true, if_false]
    rfl

/-- At each of the places, what is read is not torn and never goes back, if and only if no read meets a low word that
    rolls over. -/
theorem counters_untorn_iff (site : Site) (h : site.Reads) (rs : List (Reading 32)) (hs : Reading.Successive rs) :
    ((∀ r ∈ rs, r.Untorn (site.read r)) ∧ (rs.map fun r => site.read r).Pairwise (· ≤ ·)) ↔ ∀ r ∈ rs, ¬ r.Straddles := by
  have huntorn : ∀ r : Reading 32, r.Untorn (site.read r) ↔ ¬ r.Straddles := fun r => by
    rw [read_eq h]
    exact Reading.untorn_iff site.order
  constructor
  · rintro ⟨hall, -⟩ r hr
    exact (huntorn r).mp (hall r hr)
  · intro hnot
    have hall : ∀ r ∈ rs, r.Untorn (site.read r) := fun r hr => (huntorn r).mpr (hnot r hr)
    exact ⟨hall, hs.never_back hall⟩

/-- A read before the low word rolls over, and one after it. -/
theorem counters_untorn_two :
    let rs : List (Reading 32) := [⟨2 ^ 32 - 5, 3, by decide, by decide⟩, ⟨2 ^ 32, 1000, by decide, by decide⟩]
    (∀ r ∈ rs, r.Untorn (Site.read r .slpTmr)) ∧ (rs.map fun r => Site.read r .slpTmr).Pairwise (· ≤ ·) :=
  (counters_untorn_iff .slpTmr trivial _ (by simp [Reading.Successive, Reading.after])).mpr (by decide)

/-- The low word rolls over between the two reads. -/
def rollover : Reading 32 := ⟨2 ^ 32 - 1, 1, by decide, by decide⟩

theorem rollover_torn {site : Site} (h : site.Reads) : ¬ rollover.Untorn (site.read rollover) := by
  rw [read_eq h, Reading.untorn_iff]
  decide

/-- With the high word first the value is then 0, after `2 ^ 32 - 1` was read before, and with the low word first it is
    almost `2 ^ 33`. -/
theorem counters_torn :
    let before : Reading 32 := ⟨2 ^ 32 - 1, 0, by decide, by decide⟩
    Reading.Successive [before, rollover] ∧
    Site.read before (.qtmr .physical0) = 2 ^ 32 - 1 ∧ Site.read rollover (.qtmr .physical0) = 0 ∧
    ¬ rollover.Untorn (Site.read rollover (.qtmr .physical0)) ∧
    Site.read rollover .slpTmr = 0 ∧ ¬ rollover.Untorn (Site.read rollover .slpTmr) ∧
    Site.read rollover (.tsf .nines .lowFirst before ⟨0, .qtmr⟩) = 2 ^ 33 - 1 ∧
    ¬ rollover.Untorn (Site.read rollover (.tsf .nines .lowFirst before ⟨0, .qtmr⟩)) ∧
    Site.read rollover (.tbtt .nines .highFirst before ⟨0, .qtmr⟩) = 0 ∧
    ¬ rollover.Untorn (Site.read rollover (.tbtt .nines .highFirst before ⟨0, .qtmr⟩)) :=
  ⟨by simp [Reading.Successive, Reading.after, rollover], by decide, by decide, rollover_torn trivial, by decide,
    rollover_torn trivial, by decide, rollover_torn ⟨_, rfl, rfl⟩, by decide, rollover_torn ⟨_, rfl, rfl⟩⟩

end Site

/-- A correction is made to what was read. -/
theorem socpmSlpTmrGet_correct (clk : SlpClk) (r : Reading 32) :
    socpmSlpTmrGet clk r = clk.correct (socpmSlpTmrGet .raw r) := rfl

/-- Where the high word is read again, the value is not torn. -/
theorem socpmGlobSaveTsf_untorn {c₀ c₁ c₂ c₃ : ℕ} (h₁ : c₀ ≤ c₁) (h₂ : c₁ ≤ c₂) (h₃ : c₂ ≤ c₃)
    (hshort : c₃ < c₀ + 2 ^ 32) (hfits : c₃ < 2 ^ 64) :
    c₀ ≤ socpmGlobSaveTsf c₀ c₁ c₂ c₃ ∧ socpmGlobSaveTsf c₀ c₁ c₂ c₃ ≤ c₃ :=
  readAgain_untorn h₁ h₂ h₃ hshort hfits

/-- The low word rolls over between the first two reads. -/
theorem socpmGlobSaveTsf_untorn_rollover :
    2 ^ 32 - 1 ≤ socpmGlobSaveTsf (2 ^ 32 - 1) (2 ^ 32) (2 ^ 32 + 1) (2 ^ 32 + 2) ∧
      socpmGlobSaveTsf (2 ^ 32 - 1) (2 ^ 32) (2 ^ 32 + 1) (2 ^ 32 + 2) ≤ 2 ^ 32 + 2 :=
  socpmGlobSaveTsf_untorn (by decide) (by decide) (by decide) (by decide) (by decide)

end Qcc730.Sleep
