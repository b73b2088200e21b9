import Qcc730.Sbl.Elf

/-! `loader_start`: the boot of an application from flash.

    The do-while loop tries FWDs until one loads. Each round selects a slot, asks
    `boot_sbl_prepare_set_fde` for its load address, and then passes four stages (ELF header,
    authentication, load, hash), each of which may fail and send the loop round again with an error
    bit set. Which stage of which round fails is the environment's choice; the list of them drives
    the loop below. -/

namespace Qcc730.Sbl
open Lib Flash

/-- The stage at which a round fails. `load` carries how many RRAM writes it got to make. -/
inductive Fault where
  | init
  | auth
  | load (done : ℕ)
  | hash
  deriving DecidableEq, Repr

/-- The bit number of a fault in `err_code`. -/
def Fault.code : Fault → ℕ
  | .init => errorSblLoadInit
  | .auth => errorSblImageAuth
  | .load _ => errorSblImageLoad
  | .hash => errorSblVerifyHash

/-- A call of `boot_elf_load_init`: whether the round passed `boot_sbl_select_validFwd`, the slot and
    the address given. -/
structure Try where
  passed : Bool
  index : ℕ
  addr : ℕ
  deriving DecidableEq, Repr

/-- The variables of `loader_start` that the loop carries, and the calls made so far. -/
structure Loader where
  sbl : SblState
  fde : FdtEntry
  tempfde : FdtEntry
  appLoadAddr : ℕ
  type : ElfLoadType
  tries : List Try

/-- A recorded sector that is none forces a full load. -/
def Loader.forceFull (s : Loader) : SblState :=
  if maxFwdNum ≤ s.fde.addr then { s.sbl with info := { s.sbl.info with loadType := .full } } else s.sbl

/-- The variables once `boot_sbl_select_validFwd` has returned `i`. -/
def Loader.afterSelect (s : Loader) (i : ℕ) (sbl : SblState) : Loader :=
  if i < maxFwdNum then
    let (info, fde, addr) := bootSblPrepareSetFde sbl.info s.fde s.appLoadAddr sbl.info.validFwd
    let appLoadAddr := u32 (addr + appImageFlashAddress)
    { s with
      sbl := { sbl with info }
      tempfde := s.fde
      fde
      appLoadAddr
      type := info.loadType
      tries := s.tries ++ [⟨true, sbl.info.validFwd, appLoadAddr⟩] }
  else { s with sbl, tries := s.tries ++ [⟨false, sbl.info.validFwd, s.appLoadAddr⟩] }

/-- The first part of a round, up to `boot_elf_load_init`. -/
def selectForLoad (sblRank : ℕ) : Cmd Loader Reset Unit := fun s =>
  match bootSblSelectValidFwd sblRank s.forceFull with
  | (.error e, sbl) => (.error e, { s with sbl })
  | (.ok i, sbl) => (.ok (), s.afterSelect i sbl)

/-- Set the bit of a fault in `err_code`. -/
def Loader.setErr (s : Loader) (f : Fault) : Loader :=
  { s with sbl := { s.sbl with info := { s.sbl.info with errCode := s.sbl.info.errCode ||| 1 <<< f.code } } }

/-- Make RRAM writes. -/
def Loader.writes (s : Loader) (ws : List Write) : Loader :=
  { s with sbl := { s.sbl with dev := s.sbl.dev.writes ws } }

/-- The four stages of a round. -/
def loadStages (fault : Option Fault) (s : Loader) : Loader :=
  let ws := bootElfLoadImage s.sbl.dev.mem s.appLoadAddr s.type
  match fault with
  | none => s.writes ws
  | some .init => s.setErr .init
  | some .auth => s.setErr .auth
  | some (.load done) => (s.writes (ws.take done)).setErr (.load done)
  | some .hash => (s.writes ws).setErr .hash

/-- The do-while loop. The result is whether it was left with an image loaded; otherwise the list
    of rounds is used up. -/
def loaderLoop (sblRank : ℕ) : List (Option Fault) → Cmd Loader Reset Bool
  | [] => pure false
  | fault :: rest => do
    selectForLoad sblRank
    Cmd.modify (loadStages fault)
    if (← Cmd.gets fun s => s.sbl.info.errCode) = errorSblNone then pure true else loaderLoop sblRank rest

/-- One turn of the loop. -/
theorem loaderLoop_cons (sblRank : ℕ) (fault : Option Fault) (rest : List (Option Fault)) (s : Loader) :
    loaderLoop sblRank (fault :: rest) s =
      match bootSblSelectValidFwd sblRank s.forceFull with
      | (.error e, sbl) => (.error e, { s with sbl })
      | (.ok i, sbl) =>
        if (loadStages fault (s.afterSelect i sbl)).sbl.info.errCode = errorSblNone then
          (.ok true, loadStages fault (s.afterSelect i sbl))
        else loaderLoop sblRank rest (loadStages fault (s.afterSelect i sbl)) := by
  rw [loaderLoop]
  simp only [Cmd.bind_apply, selectForLoad]
  rcases bootSblSelectValidFwd sblRank s.forceFull with ⟨e | i, sbl⟩
  · rfl
  · simp only [Cmd.modify_apply, Cmd.gets_apply]
    split <;> rfl

/-! ### What a round leaves alone -/

/-- Equal but for the load type and the error code. -/
structure SblInfo.Agrees (a b : SblInfo) : Prop where
  table : a.flashFwdTable = b.flashFwdTable
  bootFwd : a.bootFwd = b.bootFwd
  validFwd : a.validFwd = b.validFwd
  mask : a.validFwdMask = b.validFwdMask
  ota : a.otaSblExist = b.otaSblExist

namespace SblInfo.Agrees

variable {a b c : SblInfo}

theorem refl (a : SblInfo) : a.Agrees a := ⟨rfl, rfl, rfl, rfl, rfl⟩

theorem trans (h : a.Agrees b) (h' : b.Agrees c) : a.Agrees c :=
  ⟨h.1.trans h'.1, h.2.trans h'.2, h.3.trans h'.3, h.4.trans h'.4, h.5.trans h'.5⟩

theorem valid (h : a.Agrees b) (i : ℕ) : a.FwdTableIsValid i ↔ b.FwdTableIsValid i := by
  rw [SblInfo.FwdTableIsValid, SblInfo.FwdTableIsValid, h.table]

theorem lastImage (h : a.Agrees b) : a.LastImage ↔ b.LastImage := by
  rw [SblInfo.LastImage, SblInfo.LastImage, h.validFwd, h.valid, h.valid]

end SblInfo.Agrees

theorem Loader.forceFull_agrees (s : Loader) : s.forceFull.info.Agrees s.sbl.info := by
  rw [Loader.forceFull]
  split <;> exact ⟨rfl, rfl, rfl, rfl, rfl⟩

theorem Loader.forceFull_errCode (s : Loader) : s.forceFull.info.errCode = s.sbl.info.errCode := by
  rw [Loader.forceFull]
  split <;> rfl

theorem Loader.forceFull_dev (s : Loader) : s.forceFull.dev = s.sbl.dev := by
  rw [Loader.forceFull]
  split <;> rfl

theorem bootSblPrepareSetFde_agrees (info : SblInfo) (fde : FdtEntry) (addr i : ℕ) :
    (bootSblPrepareSetFde info fde addr i).1.Agrees info ∧
      (bootSblPrepareSetFde info fde addr i).1.errCode = info.errCode := by
  rw [bootSblPrepareSetFde]
  split
  · split <;> exact ⟨⟨rfl, rfl, rfl, rfl, rfl⟩, rfl⟩
  · exact ⟨.refl _, rfl⟩

theorem Loader.afterSelect_agrees (s : Loader) (i : ℕ) (sbl : SblState) :
    (s.afterSelect i sbl).sbl.info.Agrees sbl.info ∧
      (s.afterSelect i sbl).sbl.info.errCode = sbl.info.errCode ∧
      (s.afterSelect i sbl).sbl.dev = sbl.dev := by
  rw [Loader.afterSelect]
  split
  · obtain ⟨h₁, h₂⟩ := bootSblPrepareSetFde_agrees sbl.info s.fde s.appLoadAddr sbl.info.validFwd
    exact ⟨h₁, h₂, rfl⟩
  · exact ⟨.refl _, rfl, rfl⟩

/-- Bits a round may add to `err_code`. -/
def faultBit : Option Fault → ℕ
  | none => 0
  | some f => 1 <<< f.code

theorem loadStages_agrees (fault : Option Fault) (s : Loader) :
    (loadStages fault s).sbl.info.Agrees s.sbl.info ∧
      (loadStages fault s).sbl.info.errCode = s.sbl.info.errCode ||| faultBit fault := by
  rcases fault with _ | _ | _ | k | _ <;> exact ⟨⟨rfl, rfl, rfl, rfl, rfl⟩, by simp [loadStages, faultBit]; rfl⟩

/-- The stages touch no variable of the loop. -/
theorem loadStages_vars (fault : Option Fault) (s : Loader) :
    (loadStages fault s).fde = s.fde ∧ (loadStages fault s).tempfde = s.tempfde ∧
      (loadStages fault s).appLoadAddr = s.appLoadAddr ∧ (loadStages fault s).type = s.type ∧
      (loadStages fault s).tries = s.tries := by
  rcases fault with _ | _ | _ | k | _ <;> exact ⟨rfl, rfl, rfl, rfl, rfl⟩

/-- The stages write RRAM only, a prefix of the load's writes. -/
theorem loadStages_dev (fault : Option Fault) (s : Loader) :
    ∃ n, (loadStages fault s).sbl.dev =
      s.sbl.dev.writes ((bootElfLoadImage s.sbl.dev.mem s.appLoadAddr s.type).take n) := by
  rcases fault with _ | _ | _ | k | _
  · exact ⟨_, by rw [List.take_length]; rfl⟩
  · exact ⟨0, by rw [List.take_zero, Dev.writes_nil]; rfl⟩
  · exact ⟨0, by rw [List.take_zero, Dev.writes_nil]; rfl⟩
  · exact ⟨k, rfl⟩
  · exact ⟨_, by rw [List.take_length]; rfl⟩

theorem loadStages_flash (fault : Option Fault) (s : Loader) :
    (loadStages fault s).sbl.dev.mem.flash = s.sbl.dev.mem.flash ∧
      (loadStages fault s).sbl.dev.mem.fdt = s.sbl.dev.mem.fdt ∧
      (loadStages fault s).sbl.dev.densityInBlocks = s.sbl.dev.densityInBlocks := by
  obtain ⟨n, hn⟩ := loadStages_dev fault s
  have hr : ∀ w ∈ (bootElfLoadImage s.sbl.dev.mem s.appLoadAddr s.type).take n, ∃ a d, w = .rram a d :=
    fun w hw => bootElfLoadImage_rram (List.mem_of_mem_take hw)
  rw [hn, Dev.writes_mem, Dev.writes_density]
  refine ⟨funext fun x => Mem.replay_flash_out ?_, Mem.replay_fdt ?_, rfl⟩
  · intro w hw
    obtain ⟨a, d, rfl⟩ := hr w hw
    simp [Write.flashRange, Range.mem_mk]
  · intro w hw
    obtain ⟨a, d, rfl⟩ := hr w hw
    simp

/-! ### The whole boot -/

/-- What the primary boot loader hands over: the FDT entry of the SBL it picked. -/
structure PblShare where
  sblFdeContent : FdtEntry
  sblFdeIdx : ℕ
  deriving DecidableEq, Repr

/-- `boot_sbl_find_appimg`: the APP entry of the FDT, by rank. -/
def bootSblFindAppimg (fdt : Fdt) : Option ℕ :=
  let byRank rank := fdt.findIdx? fun e => e.id == fdeImgIdApp && e.rank == rank
  (byRank fdeImgRankTrial <|> byRank fdeImgRankCurrent <|> byRank fdeImgRankGolden <|>
    byRank fdeImgRankAged).filter (· ≤ fdtMaxEntry)

/-- The entry `loader_start` works with: that of the FDT, or the zeroed one when there is none. -/
def appFde (fdt : Fdt) : FdtEntry :=
  match bootSblFindAppimg fdt with
  | some idx => fdt.fde idx
  | none => FdtEntry.zero

/-- The loop's variables when a boot reaches it. -/
def Loader.start (d : Dev) : Loader where
  sbl := ⟨d, bootSblGetFwdInfo d SblInfo.zero⟩
  fde := appFde d.mem.fdt
  tempfde := FdtEntry.zero
  appLoadAddr := appImageFlashAddress
  type := .full
  tries := []

/-- The scan changes nothing but the table, the mask and the recorded sectors. -/
theorem scanFwd_fresh (d : Dev) : ∀ (ss : List ℕ) (info : SblInfo),
    (scanFwd d ss info).validFwd = info.validFwd ∧ (scanFwd d ss info).errCode = info.errCode ∧
      (scanFwd d ss info).otaSblExist = info.otaSblExist ∧ (scanFwd d ss info).loadType = info.loadType
  | [], _ => ⟨rfl, rfl, rfl, rfl⟩
  | s :: ss, info => by
    rw [scanFwd]
    split
    · obtain ⟨h₁, h₂, h₃, h₄⟩ := scanFwd_fresh d ss (recordFwd s ‹Fwd› info)
      rw [h₁, h₂, h₃, h₄, recordFwd]
      split <;> exact ⟨rfl, rfl, rfl, rfl⟩
    · exact ⟨rfl, rfl, rfl, rfl⟩

@[simp] theorem bootSblGetFwdInfo_validFwd (d : Dev) : (bootSblGetFwdInfo d SblInfo.zero).validFwd = 0 :=
  (scanFwd_fresh d _ _).1

@[simp] theorem bootSblGetFwdInfo_errCode (d : Dev) : (bootSblGetFwdInfo d SblInfo.zero).errCode = 0 :=
  (scanFwd_fresh d _ _).2.1

/-- `g_sbl_info` starts with a full load, so forcing one changes nothing in the first round. -/
theorem Loader.start_forceFull (d : Dev) : (Loader.start d).forceFull = (Loader.start d).sbl := by
  have h : (bootSblGetFwdInfo d SblInfo.zero).loadType = .full := (scanFwd_fresh d _ _).2.2.2
  rw [Loader.forceFull]
  split
  · simp only [Loader.start]
    rw [← h]
  · rfl

/-- The state after the first round. -/
def firstRound (sblRank : ℕ) (fault : Option Fault) (d : Dev) : Loader :=
  loadStages fault ((Loader.start d).afterSelect (selectFirst sblRank (Loader.start d).sbl.info).1
    ⟨d, (selectFirst sblRank (Loader.start d).sbl.info).2⟩)

/-- The first round has no error to answer. -/
theorem loaderLoop_start (sblRank : ℕ) (fault : Option Fault) (rest : List (Option Fault)) (d : Dev) :
    loaderLoop sblRank (fault :: rest) (Loader.start d) =
      if (firstRound sblRank fault d).sbl.info.errCode = errorSblNone then
        (.ok true, firstRound sblRank fault d)
      else loaderLoop sblRank rest (firstRound sblRank fault d) := by
  rw [loaderLoop_cons, Loader.start_forceFull, bootSblSelectValidFwd, if_neg (by simp [Loader.start])]
  rfl

theorem firstRound_agrees (sblRank : ℕ) (fault : Option Fault) (d : Dev) :
    (firstRound sblRank fault d).sbl.info.Agrees (selectFirst sblRank (Loader.start d).sbl.info).2 ∧
      (firstRound sblRank fault d).sbl.info.errCode = faultBit fault ∧
      (firstRound sblRank fault d).sbl.dev.mem.flash = d.mem.flash ∧
      (firstRound sblRank fault d).sbl.dev.densityInBlocks = d.densityInBlocks := by
  obtain ⟨ha, he, hd⟩ := (Loader.start d).afterSelect_agrees (selectFirst sblRank (Loader.start d).sbl.info).1
    ⟨d, (selectFirst sblRank (Loader.start d).sbl.info).2⟩
  set s := (Loader.start d).afterSelect (selectFirst sblRank (Loader.start d).sbl.info).1
    ⟨d, (selectFirst sblRank (Loader.start d).sbl.info).2⟩ with hs
  obtain ⟨ha', he'⟩ := loadStages_agrees fault s
  obtain ⟨hf, -, hn⟩ := loadStages_flash fault s
  refine ⟨ha'.trans ha, ?_, ?_, ?_⟩
  · rw [firstRound, ← hs, he', he, selectFirst_errCode]
    simp [Loader.start]
  · rw [firstRound, ← hs, hf, hd]
  · rw [firstRound, ← hs, hn, hd]

/-- `fde_update`. -/
def fdeUpdate (fdt : Fdt) (fde : FdtEntry) (idx : ℕ) : List Write :=
  if idx ≤ fdtMaxEntry ∧ idx < fdt.numFde then [.fde idx fde] else []

/-- After the loop: a trial SBL that was to be verified is marked valid, and the APP entry of the
    FDT is replaced if the last round changed it. -/
def finishBoot (pbl : PblShare) (s : Loader) : Loader :=
  let fdt := s.sbl.dev.mem.fdt
  let sblWrites :=
    if pbl.sblFdeContent.rank = fdeImgRankTrial ∧ pbl.sblFdeContent.state = fdeImgStateVerifyPending then
      fdeUpdate fdt { pbl.sblFdeContent with state := fdeImgStateValid } pbl.sblFdeIdx
    else []
  let appWrites := match bootSblFindAppimg fdt with
    | some idx => if s.tempfde ≠ s.fde then fdeUpdate fdt s.fde idx else []
    | none => []
  s.writes (sblWrites ++ appWrites)

/-- `loader_start`, with the faults of its rounds. An APP entry of another format than ELF is jumped
    to without looking at flash. -/
def loaderStart (pbl : PblShare) (faults : List (Option Fault)) (d : Dev) : Except Reset Bool × Loader :=
  if (appFde d.mem.fdt).format = fdeImgFormatElf then
    (do
      let booted ← loaderLoop pbl.sblFdeContent.rank faults
      if booted then Cmd.modify (finishBoot pbl)
      pure booted) (Loader.start d)
  else (.ok true, Loader.start d)

/-! ### A boot leaves flash alone -/

/-- The device after writes to RRAM only. -/
def RramOnly (d d' : Dev) : Prop := ∃ ws, d' = d.writes ws ∧ ∀ w ∈ ws, w.flashRange = ⟨0, 0⟩

theorem RramOnly.refl (d : Dev) : RramOnly d d := ⟨[], d.writes_nil.symm, by simp⟩

theorem RramOnly.writes {d d' : Dev} (h : RramOnly d d') {ws : List Write} (hw : ∀ w ∈ ws, w.flashRange = ⟨0, 0⟩) :
    RramOnly d (d'.writes ws) := by
  obtain ⟨vs, rfl, hv⟩ := h
  refine ⟨vs ++ ws, (d.writes_append vs ws).symm, ?_⟩
  intro w hm
  rcases List.mem_append.mp hm with hm | hm
  · exact hv w hm
  · exact hw w hm

/-- At any crash point flash is as it was. -/
theorem RramOnly.cut {d d' : Dev} (h : RramOnly d d') (k : ℕ) :
    (d.writes ((d'.log.drop d.log.length).take k)).mem.flash = d.mem.flash := by
  obtain ⟨ws, rfl, hw⟩ := h
  rw [Dev.writes_log, List.drop_left]
  refine funext fun x => Mem.replay_flash_out fun w hm => ?_
  rw [hw w (List.mem_of_mem_take hm), Range.mem_mk]
  omega

theorem selectNext_dev (s : SblState) : (selectNext s).2.dev = s.dev := by
  by_cases hl : s.info.LastImage
  · by_cases hv : s.info.validFwd < maxFwdNum
    · rw [selectNext_rollback hv (.inl hl)]
    · have hg : ¬s.info.validFwd = indexGolden := fun h => hv (by simp [h])
      by_cases ho : s.info.otaSblExist = maxFwImageEntries
      · rw [selectNext_end (not_lt.mp hv) ho]
      · simp [selectNext, Cmd.bind_apply, Cmd.when, bootSblSwReset, modifyInfo, ho, hv, SblInfo.lastImage_clear, hl]
  · by_cases hw : s.info.WantsReset
    · obtain ⟨s', hs', hdev⟩ := selectNext_reset hl hw
      rw [hs', hdev]
    · by_cases hv : s.info.validFwd < maxFwdNum
      · rw [selectNext_rollback hv (.inr hw)]
      · have ho : s.info.otaSblExist = maxFwImageEntries := by
          by_contra ho
          exact hw (.inl ho)
        rw [selectNext_end (not_lt.mp hv) ho]

theorem bootSblSelectValidFwd_dev (sblRank : ℕ) (s : SblState) : (bootSblSelectValidFwd sblRank s).2.dev = s.dev := by
  rw [bootSblSelectValidFwd]
  split
  · exact selectNext_dev s
  · rfl

theorem loaderLoop_rramOnly (sblRank : ℕ) {d : Dev} : ∀ (faults : List (Option Fault)) {s : Loader},
    RramOnly d s.sbl.dev → RramOnly d (loaderLoop sblRank faults s).2.sbl.dev
  | [], _, h => h
  | fault :: rest, s, h => by
    rw [loaderLoop_cons]
    have hd := bootSblSelectValidFwd_dev sblRank s.forceFull
    rw [s.forceFull_dev] at hd
    rcases hsel : bootSblSelectValidFwd sblRank s.forceFull with ⟨e | i, sbl⟩ <;> rw [hsel] at hd
    · exact (show sbl.dev = s.sbl.dev from hd) ▸ h
    · obtain ⟨-, -, hdev⟩ := s.afterSelect_agrees i sbl
      obtain ⟨n, hn⟩ := loadStages_dev fault (s.afterSelect i sbl)
      rw [hdev, show sbl.dev = s.sbl.dev from hd] at hn
      have hload : RramOnly d (loadStages fault (s.afterSelect i sbl)).sbl.dev := by
        rw [hn]
        refine h.writes fun w hw => ?_
        obtain ⟨a, b, rfl⟩ := bootElfLoadImage_rram (List.mem_of_mem_take hw)
        rfl
      simp only
      split
      · exact hload
      · exact loaderLoop_rramOnly sblRank rest hload

theorem fdeUpdate_fde {fdt : Fdt} {fde : FdtEntry} {idx : ℕ} {w : Write} (h : w ∈ fdeUpdate fdt fde idx) :
    w = .fde idx fde := by
  rw [fdeUpdate] at h
  split at h
  · exact List.mem_singleton.mp h
  · cases h

theorem finishBoot_rramOnly (pbl : PblShare) {d : Dev} {s : Loader} (h : RramOnly d s.sbl.dev) :
    RramOnly d (finishBoot pbl s).sbl.dev := by
  rw [finishBoot]
  refine h.writes fun w hw => ?_
  have hfde : ∀ {fdt fde idx}, w ∈ fdeUpdate fdt fde idx → w.flashRange = ⟨0, 0⟩ := by
    intro fdt fde idx hm
    rw [fdeUpdate_fde hm]
    rfl
  rcases List.mem_append.mp hw with hw | hw
  · split at hw
    · exact hfde hw
    · cases hw
  · split at hw
    · split at hw
      · exact hfde hw
      · cases hw
    · cases hw

/-- A boot writes RRAM only. -/
theorem loaderStart_rramOnly (pbl : PblShare) (faults : List (Option Fault)) (d : Dev) :
    RramOnly d (loaderStart pbl faults d).2.sbl.dev := by
  rw [loaderStart]
  split
  · have h := loaderLoop_rramOnly pbl.sblFdeContent.rank faults (s := Loader.start d) (RramOnly.refl d)
    rw [Cmd.bind_apply]
    rcases hl : loaderLoop pbl.sblFdeContent.rank faults (Loader.start d) with ⟨e | booted, s⟩ <;> rw [hl] at h
    · exact h
    · cases booted
      · exact h
      · exact finishBoot_rramOnly pbl h
  · exact RramOnly.refl d

end Qcc730.Sbl
