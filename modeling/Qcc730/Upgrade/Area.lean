import Qcc730.Upgrade.Reception

/-! Where a session writes.

    `sessionArea` reads off the device, before the session, every place the session is meant to use:
    the block of the trial FWD, the trial region, the file system and RAM dump partitions of the
    active FWD, the free SBL slot. `Grown` says that the device is the one before the session plus
    a log that erases the trial FWD first and from then on stays in the area, keeping off the rank
    and the status of the trial FWD. What that leaves alone is read off the log. -/

namespace Qcc730.Upgrade
open Lib Flash

/-- The places a session uses. -/
structure Area where
  active : ℕ
  trial : ℕ
  mem : Range
  fs2 : Range
  ramdump : Range
  sbl : Range
  deriving DecidableEq, Repr

/-- The place of a partition of a FWD. -/
def partitionRange (f : Fwd) (id : ℕ) : Range :=
  match findEntry f id with
  | some (i, e) => ⟨(clientOf 0 i e).imgStart, (clientOf 0 i e).imgSize⟩
  | none => ⟨0, 0⟩

/-- What `fw_upgrade_select_trial_fwd` returns, zeros if it fails. -/
def trialRegion (cfg : Config) (s : Fu) : TrialRegion :=
  match (fwUpgradeSelectTrialFwd cfg s).1 with
  | .ok r => r
  | .error _ => ⟨0, 0, 0⟩

/-- The SBL slot that would be used. -/
def sblSlot (cfg : Config) (fdt : Fdt) : Range :=
  match fwUpgradeSelectSblTrialFde cfg fdt with
  | some (_, start, size) => ⟨start, size⟩
  | none => ⟨0, 0⟩

def sessionArea (cfg : Config) (s : Fu) : Area where
  active := fwUpgradeGetActiveFwd s.dev.mem.fdt
  trial := (trialRegion cfg s).fwdIndex
  mem := ⟨(trialRegion cfg s).startAddress, (trialRegion cfg s).size⟩
  fs2 := partitionRange (s.dev.mem.fwd (fwUpgradeGetActiveFwd s.dev.mem.fdt)) fs2ImgId
  ramdump := partitionRange (s.dev.mem.fwd (fwUpgradeGetActiveFwd s.dev.mem.fdt)) ramdumpImgId
  sbl := sblSlot cfg s.dev.mem.fdt

namespace Area

/-- The flash block of the trial FWD. -/
def trialBlock (A : Area) : Range := ⟨A.trial * 4096, 4096⟩

/-- The flash block of the active FWD. -/
def activeBlock (A : Area) : Range := ⟨A.active * 4096, 4096⟩

/-- Where image data goes. -/
def data (A : Area) : List Range := [A.mem, A.fs2, A.ramdump]

/-- The parts of the trial FWD that are programmed: signature and version, number of images, entries. -/
def descr (A : Area) : List Range :=
  [⟨A.trial * 4096, 8⟩, ⟨A.trial * 4096 + 13, 1⟩, ⟨A.trial * 4096 + 32, 480⟩]

/-- A write into the area that is not to the rank or status of the trial FWD. -/
structure Later (A : Area) (w : Write) : Prop where
  fde : ∀ i e, w ≠ .fde i e
  rram : w.rramRange.Sub A.sbl
  flash : ∃ q ∈ A.data ++ A.descr, w.flashRange.Sub q

/-- The same places, possibly with other sizes of the trial memory and of the SBL slot. -/
structure SamePlaces (A B : Area) : Prop where
  active : A.active = B.active
  trial : A.trial = B.trial
  memStart : A.mem.start = B.mem.start
  fs2 : A.fs2 = B.fs2
  ramdump : A.ramdump = B.ramdump
  sblStart : A.sbl.start = B.sbl.start

theorem SamePlaces.refl (A : Area) : A.SamePlaces A := ⟨rfl, rfl, rfl, rfl, rfl, rfl⟩

/-- The area is laid out sensibly: the partitions end below 2 GB, so that addresses do not wrap, and
    none of them covers the block of the active FWD, if there is one. -/
structure Sane (A : Area) : Prop where
  data_lt : ∀ q ∈ A.data, q.start + q.size < 2 ^ 31
  sbl_le : A.sbl.start + A.sbl.size ≤ 2 ^ 32
  data_active : A.active < fwUpgradeMaxFwd → ∀ q ∈ A.data, q.Disj A.activeBlock

end Area

theorem Range.empty_sub (n : ℕ) (q : Range) : (⟨n, 0⟩ : Range).Sub q := by
  intro x hx
  rw [Range.mem_mk] at hx
  omega

/-! ### The log of a session -/

/-- The device after the trial FWD was erased and writes of the area were made. -/
def Grown (A : Area) (d₀ d : Dev) : Prop :=
  A.trial < fwUpgradeMaxFwd ∧ ∃ rest, d = d₀.writes (.erase (A.trial * 4096) :: rest) ∧ ∀ w ∈ rest, A.Later w

theorem grown_erase {A : Area} (d₀ : Dev) (h : A.trial < fwUpgradeMaxFwd) :
    Grown A d₀ (d₀.writes [.erase (A.trial * 4096)]) := ⟨h, [], rfl, by simp⟩

theorem Grown.writes {A : Area} {d₀ d : Dev} (h : Grown A d₀ d) {ws : List Write} (hw : ∀ w ∈ ws, A.Later w) :
    Grown A d₀ (d.writes ws) := by
  obtain ⟨ht, rest, rfl, hr⟩ := h
  refine ⟨ht, rest ++ ws, by rw [← Dev.writes_append, List.cons_append], ?_⟩
  intro w hmem
  rcases List.mem_append.mp hmem with h | h
  · exact hr w h
  · exact hw w h

theorem Grown.density {A : Area} {d₀ d : Dev} (h : Grown A d₀ d) : d.densityInBlocks = d₀.densityInBlocks := by
  obtain ⟨-, rest, rfl, -⟩ := h
  rfl

theorem Grown.rramOk {A : Area} {d₀ d : Dev} (h : Grown A d₀ d) : d.rramOk = d₀.rramOk := by
  obtain ⟨-, rest, rfl, -⟩ := h
  rfl

theorem Grown.fdt {A : Area} {d₀ d : Dev} (h : Grown A d₀ d) : d.mem.fdt = d₀.mem.fdt := by
  obtain ⟨-, rest, rfl, hr⟩ := h
  refine Mem.replay_fdt ?_
  intro w hw i e
  rcases List.mem_cons.mp hw with rfl | hw
  · simp
  · exact (hr w hw).fde i e

/-- A flash byte outside the area is as it was before the session. -/
theorem Grown.flash_out {A : Area} {d₀ d : Dev} (h : Grown A d₀ d) {x : ℕ} (ht : x ∉ A.trialBlock)
    (hd : ∀ q ∈ A.data, x ∉ q) : d.mem.flash x = d₀.mem.flash x := by
  obtain ⟨-, rest, rfl, hr⟩ := h
  refine Mem.replay_flash_out ?_
  intro w hw
  rcases List.mem_cons.mp hw with rfl | hw
  · exact ht
  · obtain ⟨q, hq, hsub⟩ := (hr w hw).flash
    intro hx
    rcases List.mem_append.mp hq with hq | hq
    · exact hd q hq (hsub x hx)
    · apply ht
      have hmem := hsub x hx
      simp only [Area.descr, List.mem_cons, List.not_mem_nil, or_false] at hq
      rw [Area.trialBlock, Range.mem_mk]
      generalize A.trial * 4096 = a at *
      rcases hq with rfl | rfl | rfl <;> rw [Range.mem_mk] at hmem <;> omega

/-- The active FWD is as it was before the session. -/
theorem Grown.active_fwd {A : Area} {d₀ d : Dev} (h : Grown A d₀ d) (hs : A.Sane) (hne : A.active ≠ A.trial)
    (hlt : A.active < fwUpgradeMaxFwd) : d.mem.fwd A.active = d₀.mem.fwd A.active := by
  apply Mem.fwd_congr
  intro x hx
  rw [Range.mem_mk] at hx
  apply h.flash_out
  · rw [Area.trialBlock, Range.mem_mk]
    omega
  · intro q hq hxq
    refine hs.data_active hlt q hq x hxq ?_
    rw [Area.activeBlock, Range.mem_mk]
    generalize A.active * 4096 = a at *
    omega

/-! ### Writes that stay in the area -/

theorem pages_later {A : Area} {a : ℕ} {b : Bytes} {q : Range} (hq : q ∈ A.data ++ A.descr)
    (h : (⟨a, b.length⟩ : Range).Sub q) : ∀ w ∈ pages b.length a b, A.Later w := by
  intro w hw
  obtain ⟨hf, hr, hfde⟩ := pages_sub _ _ _ w hw
  exact ⟨hfde, by rw [hr]; exact Range.empty_sub _ _, q, hq, hf.trans h⟩

theorem eraseBlocks_later {A : Area} {start cnt : ℕ} {q : Range} (hq : q ∈ A.data ++ A.descr)
    (h : (⟨start * 4096, cnt * 4096⟩ : Range).Sub q) : ∀ w ∈ eraseBlocks start cnt, A.Later w := by
  intro w hw
  obtain ⟨hf, hr, hfde⟩ := eraseBlocks_sub hw
  exact ⟨hfde, by rw [hr]; exact Range.empty_sub _ _, q, hq, hf.trans h⟩

/-- Programming a field of the head other than rank and status. -/
theorem infoWrites_later {A : Area} {info : FwdInfo} (v : ℕ) (hi : info ∈ [FwdInfo.magic, .version, .totalImage]) :
    ∀ w ∈ infoWrites A.trial info v, A.Later w := by
  simp only [List.mem_cons, List.not_mem_nil, or_false] at hi
  rcases hi with rfl | rfl | rfl
  · refine pages_later (q := ⟨A.trial * 4096, 8⟩) (by simp [Area.descr]) (Range.sub_of_le ?_ ?_) <;>
      simp [FwdInfo.offset, FwdInfo.encode]
  · refine pages_later (q := ⟨A.trial * 4096, 8⟩) (by simp [Area.descr]) (Range.sub_of_le ?_ ?_) <;>
      simp [FwdInfo.offset, FwdInfo.encode]
  · refine pages_later (q := ⟨A.trial * 4096 + 13, 1⟩) (by simp [Area.descr]) (Range.sub_of_le ?_ ?_) <;>
      simp [FwdInfo.offset, FwdInfo.encode]

/-- Programming the head of the trial FWD. -/
theorem headWrites_later (A : Area) (hdr : ImageSetHdr) (hidden : ℕ) :
    ∀ w ∈ headWrites A.trial hdr hidden, A.Later w := by
  intro w hw
  simp only [headWrites, List.mem_append] at hw
  rcases hw with (hw | hw) | hw
  · exact infoWrites_later _ (by simp) w hw
  · exact infoWrites_later _ (by simp) w hw
  · exact infoWrites_later _ (by simp) w hw

/-- Programming an entry of the trial FWD. -/
theorem entryWrites_later (A : Area) {k : ℕ} (hk : k < maxFwImageEntries) (e : ImageEntry) :
    ∀ w ∈ pages 16 (A.trial * 4096 + 32 + k * 16) e.encode, A.Later w := by
  have h := pages_later (A := A) (a := A.trial * 4096 + 32 + k * 16) (b := e.encode)
    (q := ⟨A.trial * 4096 + 32, 480⟩) (by simp [Area.descr]) (Range.sub_of_le (by simp) ?_)
  · exact h
  · simp only [maxFwImageEntries] at hk
    simp only [ImageEntry.length_encode]
    omega

end Qcc730.Upgrade
