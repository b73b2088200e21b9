import Qcc730.Flash.Device

/-! Partitions of a FWD and the pool of partition handles (`fw_upgrade_mem.c`).

    A partition is an image entry of a FWD: a range of flash blocks, or for the SBL a range of RRAM.
    Clients work on it through one of ten handles. A handle is an index into the pool; it is live
    while its `ref_count` is not zero, and the functions that open a partition take the first free
    one. -/

namespace Qcc730.Upgrade
open Lib Flash

/-- `fw_upgrade_status_code_t` without `FW_UPGRADE_OK_E`. -/
inductive FuStatus where
  | error
  | invalidParam
  | incomplete
  | sessionCancelled
  | sessionSuspend
  | flashNotSupportFwUpgrade
  | flashReadFail
  | flashWriteFail
  | flashEraseFail
  | flashNotEnoughSpace
  | flashCreatePartition
  | flashImageNotFound
  | flashErasePartition
  | flashWritePartition
  | getPartitionNull
  | reachMaxImageEntry
  | imageUnused
  | incorrectImageChecksum
  | incorrectImageHdr
  | incorrectImageLength
  | sblOnlyNotSupport
  | sblNotSupportUpgrade
  | sblNotEnoughSpace
  | invalidFdt
  | trialIsRunning
  | plugin
  deriving DecidableEq, Repr

@[simp] abbrev fwUpgradeMaxFwd : ℕ := 3
@[simp] abbrev fwUpgradeInvalidFwd : ℕ := 0xFF
@[simp] abbrev fwUpgradeMaxHandles : ℕ := 10

/-- `fu_partition_client_t`. -/
structure Client where
  refCount : ℕ
  fwdIdx : ℕ
  imgIdx : ℕ
  imgId : ℕ
  imgVersion : ℕ
  imgStart : ℕ
  imgSize : ℕ
  deriving DecidableEq, Repr

/-- The device and the pool of handles. -/
structure Fu where
  dev : Dev
  handles : ℕ → Client

namespace Fu

/-- Replace a handle. -/
def setHandle (s : Fu) (h : ℕ) (c : Client) : Fu := { s with handles := Function.update s.handles h c }

/-- `ref_count = 0`. -/
def freeHandle (s : Fu) (h : ℕ) : Fu := s.setHandle h { s.handles h with refCount := 0 }

/-- Make writes to the device. -/
def writes (s : Fu) (ws : List Write) : Fu := { s with dev := s.dev.writes ws }

@[simp] theorem setHandle_dev (s : Fu) (h : ℕ) (c : Client) : (s.setHandle h c).dev = s.dev := rfl

@[simp] theorem setHandle_same (s : Fu) (h : ℕ) (c : Client) : (s.setHandle h c).handles h = c := by
  simp [setHandle]

theorem setHandle_other {s : Fu} {h k : ℕ} {c : Client} (hk : k ≠ h) :
    (s.setHandle h c).handles k = s.handles k := by simp [setHandle, hk]

@[simp] theorem freeHandle_dev (s : Fu) (h : ℕ) : (s.freeHandle h).dev = s.dev := rfl

@[simp] theorem writes_dev (s : Fu) (ws : List Write) : (s.writes ws).dev = s.dev.writes ws := rfl

@[simp] theorem writes_handles (s : Fu) (ws : List Write) : (s.writes ws).handles = s.handles := rfl

/-- `fw_upgrade_get_partition_client_entry`: the first free handle. -/
def clientEntry? (s : Fu) : Option ℕ :=
  (List.range fwUpgradeMaxHandles).find? fun i => (s.handles i).refCount = 0

/-- `fw_upgrade_partition_handle_validation`. -/
def Live (s : Fu) (h : ℕ) : Prop := h < fwUpgradeMaxHandles ∧ 0 < (s.handles h).refCount

instance (s : Fu) (h : ℕ) : Decidable (s.Live h) := inferInstanceAs (Decidable (_ ∧ _))

/-- The FWD at a flash block, if the driver reads it. -/
def readFwd (s : Fu) (fwdIdx : ℕ) : Option Fwd :=
  match (drvFlashRead (fwdIdx * 4096) 512 (fun m => Fwd.decode m (fwdIdx * 4096)) s.dev).1 with
  | .ok f => some f
  | .error _ => none

end Fu

/-- What a handle holds for entry `imgIdx` of a FWD; an SBL entry is in bytes, others in blocks. -/
def clientOf (fwdIdx imgIdx : ℕ) (e : ImageEntry) : Client where
  refCount := 1
  fwdIdx
  imgIdx
  imgId := e.imageId
  imgVersion := e.imgVersion
  imgStart := if e.imageId ≠ sblImgId then u32 (e.startBlock * 4096) else e.startBlock
  imgSize := if e.imageId ≠ sblImgId then u32 (e.totalBlocks * 4096) else e.totalBlocks

/-- `fw_upgrade_find_partition`. -/
def fwUpgradeFindPartition (fwdIdx id : ℕ) : Cmd Fu FuStatus ℕ := fun s =>
  if fwUpgradeMaxFwd ≤ fwdIdx then (.error .reachMaxImageEntry, s)
  else match s.clientEntry? with
    | none => (.error .getPartitionNull, s)
    | some h => match s.readFwd fwdIdx with
      | none => (.error .flashReadFail, s)
      | some fwd =>
        let i := fwd.imageEntries.findIdx fun e => e.imageId = id
        match fwd.imageEntries[i]? with
        | none => (.error .reachMaxImageEntry, s)
        | some e => (.ok h, s.setHandle h (clientOf fwdIdx i e))

/-- The entry that `fw_upgrade_create_partition` writes. -/
def newEntry (id version start size : ℕ) : ImageEntry :=
  if id ≠ sblImgId then ⟨id, start / 4096, size / 4096, version⟩ else ⟨id, start, size, version⟩

/-- The first free entry of a FWD. -/
def freeEntry (f : Fwd) : ℕ := f.imageEntries.findIdx fun e => e.imageId = fwdImageUnused

/-- `fw_upgrade_create_partition`. -/
def fwUpgradeCreatePartition (fwdIdx id version start size : ℕ) : Cmd Fu FuStatus ℕ := fun s =>
  if fwUpgradeMaxFwd ≤ fwdIdx then (.error .invalidParam, s)
  else if id ≠ sblImgId ∧ (start % 4096 ≠ 0 ∨ size % 4096 ≠ 0) then (.error .invalidParam, s)
  else match s.clientEntry? with
    | none => (.error .error, s)
    | some h => match s.readFwd fwdIdx with
      | none => (.error .error, s)
      | some fwd =>
        if maxFwImageEntries ≤ freeEntry fwd then (.error .error, s)
        else match drvFlashWrite (fwdIdx * 4096 + 32 + freeEntry fwd * 16)
            (newEntry id version start size).encode s.dev with
          | (.error _, dev) => (.error .error, { s with dev })
          | (.ok _, dev) =>
            (.ok h, { s with dev }.setHandle h ⟨1, fwdIdx, freeEntry fwd, id, version, start, size⟩)

/-- `fw_upgrade_first_partition`. -/
def fwUpgradeFirstPartition (fwdIdx : ℕ) : Cmd Fu FuStatus ℕ := fun s =>
  if fwUpgradeMaxFwd ≤ fwdIdx then (.error .invalidParam, s)
  else match s.clientEntry? with
    | none => (.error .error, s)
    | some h => match s.readFwd fwdIdx with
      | none => (.error .error, s)
      | some fwd =>
        if fwd.totalImages = 0 then (.error .error, s)
        else match fwd.imageEntries[0]? with
          | none => (.error .error, s)
          | some e => (.ok h, s.setHandle h (clientOf fwdIdx 0 e))

/-- `fw_upgrade_next_partition`. -/
def fwUpgradeNextPartition (curr : ℕ) : Cmd Fu FuStatus ℕ := fun s =>
  if ¬s.Live curr then (.error .invalidParam, s)
  else match s.clientEntry? with
    | none => (.error .getPartitionNull, s)
    | some h => match s.readFwd (s.handles curr).fwdIdx with
      | none => (.error .flashReadFail, s)
      | some fwd =>
        let idx := (s.handles curr).imgIdx + 1
        match fwd.imageEntries[idx]? with
        | none => (.error .reachMaxImageEntry, s)
        | some e =>
          if e.imageId = fwdImageUnused then (.error .imageUnused, s)
          else (.ok h, s.setHandle h (clientOf (s.handles curr).fwdIdx idx e))

/-- `fw_upgrade_erase_partition`. -/
def fwUpgradeErasePartition (hdl offset nbytes : ℕ) : Cmd Fu FuStatus Unit := fun s =>
  if ¬s.Live hdl then (.error .invalidParam, s)
  else if (s.handles hdl).imgId = sblImgId then (.ok (), s)
  else if nbytes = 0 ∨ nbytes % 4096 ≠ 0 ∨ offset % 4096 ≠ 0 then (.error .invalidParam, s)
  else if (s.handles hdl).imgSize < u32 (offset + nbytes) then (.error .invalidParam, s)
  else match drvFlashErase (u32 ((s.handles hdl).imgStart + offset) / 4096) (nbytes / 4096) s.dev with
    | (.error _, dev) => (.error .error, { s with dev })
    | (.ok _, dev) => (.ok (), { s with dev })

/-- `fw_upgrade_mem_parameters_validation`. -/
def Fu.MemParametersOk (s : Fu) (hdl byteOffset byteCount : ℕ) : Prop :=
  byteCount ≠ 0 ∧ s.Live hdl ∧
    u32 (u32 ((s.handles hdl).imgStart + byteOffset) + byteCount) ≤
      u32 ((s.handles hdl).imgStart + (s.handles hdl).imgSize)

instance (s : Fu) (h o n : ℕ) : Decidable (s.MemParametersOk h o n) :=
  inferInstanceAs (Decidable (_ ∧ _ ∧ _))

/-- `fw_upgrade_write_partition`. -/
def fwUpgradeWritePartition (hdl offset : ℕ) (buf : Bytes) : Cmd Fu FuStatus Unit := fun s =>
  if ¬s.MemParametersOk hdl offset buf.length then (.error .invalidParam, s)
  else
    let startAddr := u32 ((s.handles hdl).imgStart + offset)
    match (if (s.handles hdl).imgId = sblImgId then ntRramWrite startAddr buf s.dev
      else drvFlashWrite startAddr buf s.dev) with
    | (.error _, dev) => (.error .error, { s with dev })
    | (.ok _, dev) => (.ok (), { s with dev })

/-- `fw_upgrade_read_partition`. -/
def fwUpgradeReadPartition (hdl offset maxBytes : ℕ) : Cmd Fu FuStatus Bytes := fun s =>
  if ¬s.MemParametersOk hdl offset maxBytes then (.error .invalidParam, s)
  else
    let startAddr := u32 ((s.handles hdl).imgStart + offset)
    match (if (s.handles hdl).imgId = sblImgId then ntRramRead startAddr maxBytes s.dev
      else drvFlashRead startAddr maxBytes (fun m => m.read startAddr maxBytes) s.dev).1 with
    | .error _ => (.error .error, s)
    | .ok b => (.ok b, s)

/-! ### What each operation can do -/

theorem Fu.clientEntry?_free {s : Fu} {h : ℕ} (hc : s.clientEntry? = some h) :
    h < fwUpgradeMaxHandles ∧ (s.handles h).refCount = 0 := by
  have hm := List.mem_of_find?_eq_some hc
  have hp := List.find?_some hc
  exact ⟨List.mem_range.mp hm, by simpa using hp⟩

theorem Fu.setHandle_live {s : Fu} {h : ℕ} {c : Client} (hh : h < fwUpgradeMaxHandles) (hc : 0 < c.refCount) :
    (s.setHandle h c).Live h := ⟨hh, by rwa [Fu.setHandle_same]⟩

theorem Fu.readFwd_eq {s : Fu} {i : ℕ} {f : Fwd} (h : s.readFwd i = some f) :
    s.dev.InFlash (i * 4096) 512 ∧ f = s.dev.mem.fwd i := by
  by_cases hi : s.dev.InFlash (i * 4096) 512
  · rw [Fu.readFwd, drvFlashRead, if_pos hi] at h
    cases h
    exact ⟨hi, rfl⟩
  · rw [Fu.readFwd, drvFlashRead, if_neg hi] at h
    cases h

theorem Fu.readFwd_of_inFlash {s : Fu} {i : ℕ} (h : s.dev.InFlash (i * 4096) 512) :
    s.readFwd i = some (s.dev.mem.fwd i) := by
  rw [Fu.readFwd, drvFlashRead, if_pos h]
  rfl

/-- The entry of a FWD that `fw_upgrade_find_partition` opens. -/
def findEntry (f : Fwd) (id : ℕ) : Option (ℕ × ImageEntry) :=
  let i := f.imageEntries.findIdx fun e => e.imageId = id
  (f.imageEntries[i]?).map fun e => (i, e)

theorem findEntry_id {f : Fwd} {id i : ℕ} {e : ImageEntry} (h : findEntry f id = some (i, e)) :
    e.imageId = id ∧ f.imageEntries[i]? = some e := by
  simp only [findEntry, Option.map_eq_some_iff, Prod.mk.injEq] at h
  obtain ⟨e', he, hi, rfl⟩ := h
  subst hi
  obtain ⟨hlt, rfl⟩ := List.getElem?_eq_some_iff.mp he
  exact ⟨by simpa using List.findIdx_getElem (w := hlt), he⟩

/-- Finding a partition either fails and changes nothing, or opens a free handle on the entry. -/
theorem findPartition_cases (f id : ℕ) (s : Fu) :
    (∃ e, fwUpgradeFindPartition f id s = (.error e, s)) ∨
    ∃ h i e, f < fwUpgradeMaxFwd ∧ s.clientEntry? = some h ∧ s.dev.InFlash (f * 4096) 512 ∧
      findEntry (s.dev.mem.fwd f) id = some (i, e) ∧
      fwUpgradeFindPartition f id s = (.ok h, s.setHandle h (clientOf f i e)) := by
  rw [fwUpgradeFindPartition]
  split
  · exact .inl ⟨_, rfl⟩
  split
  · exact .inl ⟨_, rfl⟩
  rename_i h hc
  split
  · exact .inl ⟨_, rfl⟩
  rename_i fwd hf
  obtain ⟨hin, rfl⟩ := Fu.readFwd_eq hf
  simp only
  split
  · exact .inl ⟨_, rfl⟩
  · rename_i e he
    exact .inr ⟨h, _, e, by omega, hc, hin, by rw [findEntry, he]; rfl, rfl⟩

/-- Creating a partition either fails and changes nothing, or programs the first free entry of the FWD
    and opens a free handle on it. -/
theorem createPartition_cases (f id version start size : ℕ) (s : Fu) :
    (∃ e, fwUpgradeCreatePartition f id version start size s = (.error e, s)) ∨
    ∃ h, f < fwUpgradeMaxFwd ∧ (id ≠ sblImgId → start % 4096 = 0 ∧ size % 4096 = 0) ∧
      s.clientEntry? = some h ∧ s.dev.InFlash (f * 4096) 512 ∧
      freeEntry (s.dev.mem.fwd f) < maxFwImageEntries ∧
      fwUpgradeCreatePartition f id version start size s =
        (.ok h, (s.writes (pages 16 (f * 4096 + 32 + freeEntry (s.dev.mem.fwd f) * 16)
          (newEntry id version start size).encode)).setHandle h
          ⟨1, f, freeEntry (s.dev.mem.fwd f), id, version, start, size⟩) := by
  rw [fwUpgradeCreatePartition]
  split
  · exact .inl ⟨_, rfl⟩
  split
  · exact .inl ⟨_, rfl⟩
  rename_i hal
  split
  · exact .inl ⟨_, rfl⟩
  rename_i h hc
  split
  · exact .inl ⟨_, rfl⟩
  rename_i fwd hf
  obtain ⟨hin, rfl⟩ := Fu.readFwd_eq hf
  split
  · exact .inl ⟨_, rfl⟩
  rename_i hlt
  by_cases hw : s.dev.InFlash (f * 4096 + 32 + freeEntry (s.dev.mem.fwd f) * 16)
      (newEntry id version start size).encode.length
  · rw [drvFlashWrite, if_pos hw]
    refine .inr ⟨h, by omega, ?_, hc, hin, by omega, rfl⟩
    intro hid
    simp only [not_and, not_or, not_not] at hal
    exact hal hid
  · rw [drvFlashWrite, if_neg hw]
    exact .inl ⟨_, rfl⟩

/-- Erasing does nothing, or erases whole blocks inside the partition. -/
theorem erasePartition_cases (h o n : ℕ) (s : Fu) :
    (∃ r, fwUpgradeErasePartition h o n s = (r, s) ∧ (r = .ok () → s.Live h ∧ (s.handles h).imgId = sblImgId)) ∨
    (s.Live h ∧ (s.handles h).imgId ≠ sblImgId ∧ n ≠ 0 ∧ n % 4096 = 0 ∧ o % 4096 = 0 ∧
      u32 (o + n) ≤ (s.handles h).imgSize ∧
      let start := u32 ((s.handles h).imgStart + o) / 4096
      ¬(n / 4096 = 0 ∨ u32 ((start + n / 4096) * 4096) < u32 (start * 4096) ∨
        u32 ((start + n / 4096) * 4096) > u32 (s.dev.densityInBlocks * 4096)) ∧
      fwUpgradeErasePartition h o n s = (.ok (), s.writes (eraseBlocks start (n / 4096)))) := by
  rw [fwUpgradeErasePartition]
  split
  · exact .inl ⟨_, rfl, by simp⟩
  rename_i hl
  rw [not_not] at hl
  split
  · exact .inl ⟨_, rfl, fun _ => ⟨hl, ‹_›⟩⟩
  rename_i hid
  split
  · exact .inl ⟨_, rfl, by simp⟩
  rename_i hal
  simp only [not_or, not_not] at hal
  split
  · exact .inl ⟨_, rfl, by simp⟩
  rename_i hsz
  rw [drvFlashErase]
  split
  · rename_i heq
    split at heq
    · cases heq
      exact .inl ⟨_, rfl, by simp⟩
    · cases heq
  · rename_i heq
    split at heq
    · cases heq
    · rename_i hb
      cases heq
      exact .inr ⟨hl, hid, hal.1, hal.2.1, hal.2.2, by omega, hb, rfl⟩

/-- Writing fails and changes nothing, or programs the buffer in flash, or stores it in RRAM. -/
theorem writePartition_cases (h o : ℕ) (b : Bytes) (s : Fu) :
    (∃ e, fwUpgradeWritePartition h o b s = (.error e, s)) ∨
    (s.MemParametersOk h o b.length ∧
      let start := u32 ((s.handles h).imgStart + o)
      ((s.handles h).imgId ≠ sblImgId ∧ s.dev.InFlash start b.length ∧
        fwUpgradeWritePartition h o b s = (.ok (), s.writes (pages b.length start b))) ∨
      ((s.handles h).imgId = sblImgId ∧ s.dev.rramOk start b.length = true ∧
        fwUpgradeWritePartition h o b s = (.ok (), s.writes [.rram start b]))) := by
  rw [fwUpgradeWritePartition]
  split
  · exact .inl ⟨_, rfl⟩
  rename_i hp
  rw [not_not] at hp
  simp only
  by_cases hid : (s.handles h).imgId = sblImgId
  · rw [if_pos hid, ntRramWrite, if_neg hp.1]
    by_cases hr : s.dev.rramOk (u32 ((s.handles h).imgStart + o)) b.length = true
    · rw [if_pos hr]
      exact .inr ⟨hp, .inr ⟨hid, hr, rfl⟩⟩
    · rw [if_neg hr]
      exact .inl ⟨_, rfl⟩
  · rw [if_neg hid, drvFlashWrite]
    by_cases hin : s.dev.InFlash (u32 ((s.handles h).imgStart + o)) b.length
    · rw [if_pos hin]
      exact .inr ⟨hp, .inl ⟨hid, hin, rfl⟩⟩
    · rw [if_neg hin]
      exact .inl ⟨_, rfl⟩

/-- Reading changes nothing. -/
theorem readPartition_state (h o n : ℕ) (s : Fu) : (fwUpgradeReadPartition h o n s).2 = s := by
  rw [fwUpgradeReadPartition]
  split
  · rfl
  · simp only
    split <;> rfl

end Qcc730.Upgrade
