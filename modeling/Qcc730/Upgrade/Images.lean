import Qcc730.Upgrade.Placement

/-! Receiving images keeps the invariant.

    A pass of the loop in `fw_upgrade_process_receive_image` opens the partition of the current image if
    it is not open, writes one piece to it, and when the image is complete verifies it and goes to the
    next. The partition was placed in what is left of the trial memory (or in FS2, or in the SBL slot),
    so every piece stays in the area; when the image is closed, what is left shrinks by what it took. -/

namespace Qcc730.Upgrade
open Lib Flash

section

variable {env : Env} {fu₀ : Fu} {A : Area}

/-- The fields of the context that decide where images go. -/
structure SamePlan (c c' : Cxt) : Prop where
  trial : c'.trialFwdIdx = c.trialFwdIdx
  isFirst : c'.isFirst = c.isFirst
  total : c'.totalImages = c.totalImages
  hdrs : c'.imageHdr = c.imageHdr
  sblStart : c'.trialSblStart = c.trialSblStart
  memStart : c'.trialMemStart = c.trialMemStart
  index : c'.imageIndex = c.imageIndex
  flag : c'.downloadFlag = c.downloadFlag
  format : c'.format = c.format
  buffer : c'.buffer = c.buffer

theorem Placing.keep {c c' : Cxt} (h : Placing A c) (hc : SamePlan c c') : Placing A c' := by
  obtain ⟨h₁, h₂, h₃, h₄, h₅, h₆, h₇, h₈, h₉, h₁₀⟩ := hc
  refine ⟨?_, ?_, ?_, ?_, ?_, ?_, ?_, ?_, ?_, ?_⟩
  · rw [h₁]; exact h.trial
  · rw [h₂]; exact h.isFirst
  · rw [h₃, h₄]; exact h.total
  · rw [h₄]; exact h.lengths
  · rw [h₄]; exact h.sbl
  · rw [h₅]; exact h.sblStart
  · rw [h₆]; exact h.start_le
  · rw [h₆, h₈, h₇, h₄]; exact h.budget
  · rw [h₉, h₈]; exact h.flags
  · rw [h₁₀]; exact h.buffer

theorem Busy.keep {d₀ : Dev} {s s' : Session} (h : Busy env A d₀ s) (hg : Grown A d₀ s'.fu.dev)
    (hv : s'.verified = s.verified) (hc : SamePlan s.cxt s'.cxt) : Busy env A d₀ s' := by
  refine ⟨hg, h.placing.keep hc, ?_⟩
  intro i hi hdr hh hfl hlen
  rw [hc.index] at hi
  rw [hc.hdrs] at hh
  rw [hc.flag] at hfl
  obtain ⟨b, hb, hhash⟩ := h.verified i hi hdr hh hfl hlen
  refine ⟨b, hv ▸ hb, ?_⟩
  rw [hhash, Cxt.hashPad, Cxt.hashPad, hc.format]

theorem Downloading.keep {c c' : Cxt} (h : Downloading c) (hc : SamePlan c c') : Downloading c' := by
  refine ⟨?_, ?_⟩
  · rw [hc.index, hc.total]; exact h.index
  · rw [hc.index, hc.flag]; exact h.flag

theorem SamePlan.hdrAt {c c' : Cxt} (hc : SamePlan c c') (i : ℕ) : c'.hdrAt env i = c.hdrAt env i := by
  rw [Cxt.hdrAt, Cxt.hdrAt, hc.hdrs]

/-! ### Opening an image -/

/-- A partition for FS1 is created in the active FS2. -/
theorem createFs1_cases (hL : Layout env.cfg fu₀ A) {s : Session} (hg : Grown A fu₀.dev s.fu.dev)
    (ht : s.cxt.trialFwdIdx = A.trial) (h : ImageHdr) (hid : h.imageId ≠ sblImgId) :
    (∃ e s', createFs1 h s = (.error e, s') ∧ Grown A fu₀.dev s'.fu.dev) ∨
    ∃ s' k, createFs1 h s = (.ok (), s') ∧ Grown A fu₀.dev s'.fu.dev ∧ s'.verified = s.verified ∧
      s'.cxt = { s.cxt with partitionHdl := some k } ∧ A.Holds (s'.fu.handles k) ∧
      (s'.fu.handles k).imgId = h.imageId := by
  rw [createFs1]
  rcases locatePartition_cases fs2ImgId .flashImageNotFound s with heq | ⟨k, i, en, hlt, -, -, hf, heq⟩
  · exact .inl ⟨_, _, Cmd.bind_error heq, hg⟩
  rw [Cmd.bind_ok heq, Cmd.ensure_bind]
  obtain ⟨hold, -⟩ := hL.holds_found hg (.inl rfl) hlt hf s.activeFwd
  have hen : (clientOf s.activeFwd i en).imgId = fs2ImgId := (findEntry_id hf).1
  by_cases hle : h.diskSize ≤ (clientOf s.activeFwd i en).imgSize
  swap
  · rw [if_neg hle]
    exact .inl ⟨_, _, rfl, hg⟩
  rw [if_pos hle]
  rcases create_cases h.imageId h.version (clientOf s.activeFwd i en).imgStart (clientOf s.activeFwd i en).imgSize
    { s with
      fu := (s.fu.setHandle k (clientOf s.activeFwd i en)).freeHandle k
      cxt := { s.cxt with partitionHdl := none } } with heq' | ⟨k', -, hal, -, hfree, heq'⟩
  · exact .inl ⟨_, _, heq', hg⟩
  refine .inr ⟨_, k', heq', hg.writes ?_, rfl, rfl, ?_, ?_⟩
  · simp only [ht] at hfree ⊢
    exact entryWrites_later A hfree _
  · rw [Fu.setHandle_same]
    refine ⟨fun _ => ⟨(hal hid).1, ?_⟩, fun hc => absurd hc hid⟩
    exact (hold.flash (by rw [hen]; decide)).2
  · rw [Fu.setHandle_same]

/-- A partition for another image is created in the trial memory or in the SBL slot, and its first block
    erased. -/
theorem createImage_cases (hL : Layout env.cfg fu₀ A) {s : Session} (hg : Grown A fu₀.dev s.fu.dev)
    (ht : s.cxt.trialFwdIdx = A.trial) (h : ImageHdr) {start : ℕ}
    (hmem : h.imageId ≠ sblImgId → A.mem.start ≤ start ∧ start + h.diskSize ≤ A.mem.start + A.mem.size)
    (hsbl : h.imageId = sblImgId → start = A.sbl.start ∧ h.diskSize ≤ A.sbl.size) :
    (∃ e s', (createPartition h.imageId h.version start h.diskSize >>= fun _ => erasePartition 0 4096) s =
      (.error e, s') ∧ Grown A fu₀.dev s'.fu.dev) ∨
    ∃ s' k, (createPartition h.imageId h.version start h.diskSize >>= fun _ => erasePartition 0 4096) s = (.ok (), s') ∧
      Grown A fu₀.dev s'.fu.dev ∧ s'.verified = s.verified ∧
      s'.cxt = { s.cxt with partitionHdl := some k } ∧ A.Holds (s'.fu.handles k) ∧
      (s'.fu.handles k).imgId = h.imageId ∧ (s'.fu.handles k).imgSize = h.diskSize := by
  rcases create_cases h.imageId h.version start h.diskSize s with heq | ⟨k, -, hal, -, hfree, heq⟩
  · exact .inl ⟨_, _, Cmd.bind_error heq, hg⟩
  rw [Cmd.bind_ok heq]
  set s₁ : Session := { s with fu := _, cxt := { s.cxt with partitionHdl := some k } } with hs₁
  have hk : s₁.fu.handles k = ⟨1, s.cxt.trialFwdIdx, _, h.imageId, h.version, start, h.diskSize⟩ :=
    Fu.setHandle_same _ _ _
  have hg₁ : Grown A fu₀.dev s₁.fu.dev := by
    refine hg.writes ?_
    simp only [ht] at hfree ⊢
    exact entryWrites_later A hfree _
  have hold : A.Holds (s₁.fu.handles k) := by
    rw [hk]
    exact ⟨fun hid => ⟨(hal hid).1, A.mem, by simp [Area.data], hmem hid⟩, hsbl⟩
  obtain ⟨r, ws, heq', hw⟩ := erase_later hL.sane (s := s₁) rfl hold 0 4096 (fun _ => by decide)
  rw [heq']
  rcases r with e | u
  · exact .inl ⟨e, _, rfl, hg₁.writes hw⟩
  · refine .inr ⟨_, k, rfl, hg₁.writes hw, rfl, rfl, hold, ?_, ?_⟩
    · simp only [Fu.writes_handles, hk]
    · simp only [Fu.writes_handles, hk]

/-- The partition of the current image is open, nothing is written yet. -/
theorem openImage_cases (hL : Layout env.cfg fu₀ A) {s : Session} (hb : Busy env A fu₀.dev s)
    (hd : Downloading s.cxt) :
    (∃ e s', openImage (s.cxt.hdrAt env s.cxt.imageIndex) s = (.error e, s') ∧ Grown A fu₀.dev s'.fu.dev) ∨
    ∃ s' k, openImage (s.cxt.hdrAt env s.cxt.imageIndex) s = (.ok (), s') ∧ Busy env A fu₀.dev s' ∧
      Opened A s' k ∧ s'.cxt = { s.cxt with
        imageWrtCount := 0, imageWrtLength := (s.cxt.hdrAt env s.cxt.imageIndex).imageLength
        partitionHdl := some k } := by
  set h := s.cxt.hdrAt env s.cxt.imageIndex with hh
  have hmem := hd.mem hb.placing env
  have hlen := hb.placing.lengths h hmem
  rw [openImage, Cmd.bind_ok (Cmd.modify_apply _ _)]
  set s₁ := s.setCxt fun c => { c with imageWrtCount := 0, imageWrtLength := h.imageLength } with hs₁
  have hplan : ∀ {k}, SamePlan s.cxt { s₁.cxt with partitionHdl := k } := by
    intro k
    constructor <;> rfl
  by_cases hid : h.imageId = fs1ImgId
  · rw [if_pos hid]
    have hns : h.imageId ≠ sblImgId := by rw [hid]; decide
    rcases createFs1_cases hL (s := s₁) hb.grown hb.placing.trial h hns with ⟨e, s', heq, hg⟩ |
      ⟨s', k, heq, hg, hv, hc, hold, hkid⟩
    · exact .inl ⟨e, s', heq, hg⟩
    refine .inr ⟨s', k, heq, hb.keep hg hv (hc ▸ hplan), ?_, hc⟩
    have hzero : s'.cxt.imageWrtCount = 0 := congrArg Cxt.imageWrtCount hc
    refine ⟨by rw [hc], hold, ?_, ?_, ?_, fun hc' => absurd (hkid.symm.trans hc') hns⟩
    · rw [hzero]; exact Nat.zero_le _
    · rw [hzero]; exact Nat.zero_le _
    · rw [hc]; exact hlen
  · rw [if_neg hid, Cmd.bind_ok (Cmd.gets_apply _ _)]
    have hroom := hd.room hb.placing env
    set start := if h.imageId = sblImgId then s₁.cxt.trialSblStart else s₁.cxt.trialMemStart with hstart
    have hin : h.imageId ≠ sblImgId → A.mem.start ≤ start ∧ start + h.diskSize ≤ A.mem.start + A.mem.size := by
      intro hns
      rw [hstart, if_neg hns]
      refine ⟨hb.placing.start_le, ?_⟩
      rw [ImageHdr.taken, if_neg (by rintro (hc | hc) <;> contradiction)] at hroom
      exact hroom
    have hsbl : h.imageId = sblImgId → start = A.sbl.start ∧ h.diskSize ≤ A.sbl.size := by
      intro hs
      rw [hstart, if_pos hs]
      exact ⟨hb.placing.sblStart, (hb.placing.sbl h hmem hs).2⟩
    rcases createImage_cases hL (s := s₁) hb.grown hb.placing.trial h hin hsbl with ⟨e, s', heq, hg⟩ |
      ⟨s', k, heq, hg, hv, hc, hold, hkid, hksz⟩
    · exact .inl ⟨e, s', heq, hg⟩
    · refine .inr ⟨s', k, heq, hb.keep hg hv (hc ▸ hplan), ?_, hc⟩
      have hzero : s'.cxt.imageWrtCount = 0 := congrArg Cxt.imageWrtCount hc
      refine ⟨by rw [hc], hold, ?_, ?_, ?_, ?_⟩
      · rw [hzero]; exact Nat.zero_le _
      · rw [hzero]; exact Nat.zero_le _
      · rw [hc]; exact hlen
      · intro hs
        rw [hksz, hc]
        exact (hb.placing.sbl h hmem (hkid.symm.trans hs)).1

/-! ### Writing a piece -/

/-- A write of at most half a block that enters a new block: one block is erased. -/
theorem ahead_one {c n : ℕ} (h0 : 0 < n) (hn : n ≤ 2048) (hcross : c / 4096 ≠ (c + n - 1) / 4096) :
    (c + n) / 4096 + (if (c + n) % 4096 ≠ 0 then 1 else 0) = c / 4096 + 2 := by
  split <;> omega

/-- The erase before a write that enters a new block. -/
theorem eraseAhead_cases (hL : Layout env.cfg fu₀ A) {s : Session} {k n : ℕ} (hg : Grown A fu₀.dev s.fu.dev)
    (ho : Opened A s k) (h0 : 0 < n) (hn : n ≤ fwUpgradeBufSize) (hlen : s.cxt.imageWrtCount + n ≤ s.cxt.imageWrtLength) :
    ∃ r fu', eraseAhead n s = (r, { s with fu := fu' }) ∧ Grown A fu₀.dev fu'.dev ∧ fu'.handles = s.fu.handles := by
  rw [eraseAhead, Cmd.bind_ok (Cmd.gets_apply _ _)]
  have hl := ho.length
  have hend : u32 (s.cxt.imageWrtCount + n) = s.cxt.imageWrtCount + n := u32_of_lt (by omega)
  simp only [hend, fwUpgradeBufSize] at *
  by_cases hcross : s.cxt.imageWrtCount / 4096 ≠ u32sub (s.cxt.imageWrtCount + n) 1 / 4096
  swap
  · rw [if_neg hcross]
    exact ⟨_, _, rfl, hg, rfl⟩
  rw [if_pos hcross]
  rw [u32sub_of_le (by omega) (by omega)] at hcross
  rw [ahead_one h0 hn hcross, u32sub_of_le (by omega) (by omega), Nat.add_sub_add_left]
  have hone : u32 ((2 - 1) * 4096) = 4096 := rfl
  have hsum : (s.fu.handles k).imgId ≠ sblImgId →
      u32 ((s.cxt.imageWrtCount / 4096 + 1) * 4096) + u32 ((2 - 1) * 4096) < 2 ^ 32 := by
    intro hid
    obtain ⟨-, q, hq, hlo, hhi⟩ := ho.holds.flash hid
    have hq' := hL.sane.data_lt q hq
    have hsz := ho.size
    have hle : u32 ((s.cxt.imageWrtCount / 4096 + 1) * 4096) ≤ (s.cxt.imageWrtCount / 4096 + 1) * 4096 := Nat.mod_le _ _
    rw [hone]
    omega
  obtain ⟨r, ws, heq, hw⟩ := erase_later hL.sane ho.hdl ho.holds _ _ hsum
  exact ⟨r, _, heq, hg.writes hw, rfl⟩

/-- Writing a piece of the buffer: it fails, or the piece is in the partition and counted. -/
theorem writeImage_cases (hL : Layout env.cfg fu₀ A) {s : Session} {k n : ℕ} (hg : Grown A fu₀.dev s.fu.dev)
    (ho : Opened A s k) (h0 : 0 < n) (hbuf : s.cxt.buffer.length ≤ fwUpgradeBufSize)
    (hn : n ≤ s.cxt.buffer.length - s.cxt.bufOffset) (hlen : s.cxt.imageWrtCount + n ≤ s.cxt.imageWrtLength) :
    (∃ e s', writeImage n s = (.error e, s') ∧ Grown A fu₀.dev s'.fu.dev) ∨
    ∃ fu' d o f, writeImage n s = (.ok (), { s with
        fu := fu'
        cxt := { s.cxt with
          digest := d, bufOffset := o, fileReadCount := f, imageWrtCount := s.cxt.imageWrtCount + n } }) ∧
      Grown A fu₀.dev fu'.dev ∧ fu'.handles = s.fu.handles ∧
      s.cxt.imageWrtCount + n ≤ (s.fu.handles k).imgSize := by
  set piece := (s.cxt.buffer.drop s.cxt.bufOffset).take n with hpiece
  have hpl : piece.length = n := by
    rw [hpiece, List.length_take, List.length_drop]
    omega
  rw [writeImage, Cmd.bind_ok (Cmd.gets_apply _ _), Cmd.bind_ok (Cmd.modify_apply _ _)]
  set s₁ := s.setCxt fun c => { c with digest := c.digest ++ piece } with hs₁
  have ho₁ : Opened A s₁ k := ⟨ho.hdl, ho.holds, ho.count, ho.size, ho.length, ho.sbl⟩
  have hn' : n ≤ fwUpgradeBufSize := by omega
  obtain ⟨r, fu₁, heq, hg₁, hh₁⟩ := eraseAhead_cases hL (s := s₁) hg ho₁ h0 hn' hlen
  rcases r with e | u
  · exact .inl ⟨e, _, Cmd.bind_error heq, hg₁⟩
  rw [Cmd.bind_ok heq, Cmd.bind_ok (Cmd.gets_apply _ _)]
  set s₂ : Session := { s₁ with fu := fu₁ } with hs₂
  have hk : s₂.fu.handles k = s.fu.handles k := congrFun hh₁ k
  obtain ⟨r, ws, heq', hw, hle⟩ := write_later hL.sane (s := s₂) (b := piece) ho.hdl (hk ▸ ho.holds)
    (hk ▸ ho.size) (by rw [hpl]; simp only [fwUpgradeBufSize] at hn'; omega)
    (fun hid => by rw [hk] at hid ⊢; rw [hpl]; exact hlen.trans (ho.sbl hid))
  change writePartition s₂.cxt.imageWrtCount ((s.cxt.buffer.drop s.cxt.bufOffset).take n) s₂ = _ at heq'
  rcases r with e | u
  · exact .inl ⟨e, _, Cmd.bind_error heq', hg₁.writes hw⟩
  rw [Cmd.bind_ok heq', Cmd.modify_apply]
  have hl := ho.length
  have hcount : u32 (s.cxt.imageWrtCount + n) = s.cxt.imageWrtCount + n := u32_of_lt (by omega)
  refine .inr ⟨fu₁.writes ws, s.cxt.digest ++ piece, s.cxt.bufOffset + n, u32 (s.cxt.fileReadCount + n), ?_,
    hg₁.writes hw, hh₁, ?_⟩
  · simp only [Session.setCxt, hs₂, hs₁, hcount]
  · have := hle rfl
    rw [hpl, hk] at this
    exact this

/-- Erasing the block of the next write. -/
theorem eraseNext_cases (hL : Layout env.cfg fu₀ A) {s : Session} (hg : Grown A fu₀.dev s.fu.dev)
    (ho : Ongoing A s) :
    ∃ r fu', eraseNext s = (r, { s with fu := fu' }) ∧ Grown A fu₀.dev fu'.dev ∧ fu'.handles = s.fu.handles := by
  rw [eraseNext, Cmd.when]
  by_cases hp : s.cxt.imageWrtCount % 4096 = 0 ∧ 0 < s.cxt.imageWrtLength
  · rw [if_pos hp, Cmd.bind_ok (Cmd.gets_apply _ _)]
    obtain ⟨-, k, hk⟩ := ho (by omega)
    have hsum : (s.fu.handles k).imgId ≠ sblImgId → s.cxt.imageWrtCount + 4096 < 2 ^ 32 := by
      intro hid
      obtain ⟨-, q, hq, hlo, hhi⟩ := hk.holds.flash hid
      have hq' := hL.sane.data_lt q hq
      have hsz := hk.size
      omega
    obtain ⟨r, ws, heq, hw⟩ := erase_later hL.sane hk.hdl hk.holds _ _ hsum
    exact ⟨r, _, heq, hg.writes hw, rfl⟩
  · rw [if_neg hp]
    exact ⟨_, _, rfl, hg, rfl⟩

theorem Opened.keep {s s' : Session} {k : ℕ} (ho : Opened A s k) (hf : s'.fu.handles = s.fu.handles)
    (hp : s'.cxt.partitionHdl = s.cxt.partitionHdl) (hl : s'.cxt.imageWrtLength = s.cxt.imageWrtLength)
    (hc : s'.cxt.imageWrtCount ≤ s.cxt.imageWrtLength) (hz : s'.cxt.imageWrtCount ≤ (s.fu.handles k).imgSize) :
    Opened A s' k := by
  refine ⟨hp.trans ho.hdl, ?_, ?_, ?_, ?_, ?_⟩
  · rw [hf]; exact ho.holds
  · rw [hl]; exact hc
  · rw [hf]; exact hz
  · rw [hl]; exact ho.length
  · rw [hf, hl]; exact ho.sbl

/-! ### The end of an image -/

@[simp] theorem Session.freePartitionHdl_dev (s : Session) : s.freePartitionHdl.fu.dev = s.fu.dev := by
  rw [Session.freePartitionHdl]
  split <;> rfl

@[simp] theorem Session.freePartitionHdl_verified (s : Session) : s.freePartitionHdl.verified = s.verified := by
  rw [Session.freePartitionHdl]
  split <;> rfl

theorem Session.freePartitionHdl_cxt (s : Session) :
    s.freePartitionHdl.cxt = { s.cxt with partitionHdl := none } := by
  rw [Session.freePartitionHdl]
  split
  · rename_i h
    rw [← h]
  · rfl

/-- The hash of the current image is in order. -/
def Session.CurrentVerified (env : Env) (s : Session) : Prop :=
  (s.cxt.hdrAt env s.cxt.imageIndex).imageLength ≠ 0 → ∃ b, (s.cxt.imageIndex, b) ∈ s.verified ∧
    (s.cxt.hdrAt env s.cxt.imageIndex).hash =
      env.sha256 (b ++ List.replicate (s.cxt.hashPad (s.cxt.hdrAt env s.cxt.imageIndex)) 0xFF)

/-- Closing an image takes its place from the trial memory. -/
theorem closeImage_busy (hL : Layout env.cfg fu₀ A) {s : Session} (hb : Busy env A fu₀.dev s)
    (hd : Downloading s.cxt) (hv : s.CurrentVerified env) :
    ∃ s' m, closeImage (s.cxt.hdrAt env s.cxt.imageIndex) s = (.ok (), s') ∧ Busy env A fu₀.dev s' ∧
      s'.cxt = { s.cxt with
        partitionHdl := none, trialMemStart := m, imageIndex := s.cxt.imageIndex + 1, imageWrtLength := 0 } := by
  set h := s.cxt.hdrAt env s.cxt.imageIndex with hh
  rw [closeImage, Cmd.modify_apply]
  set m := if h.imageId ≠ fs1ImgId ∧ h.imageId ≠ sblImgId then u32 (s.cxt.trialMemStart + h.diskSize)
    else s.cxt.trialMemStart with hm
  generalize hs' : s.freePartitionHdl.setCxt _ = s'
  have hcxt : s'.cxt = { s.cxt with
      partitionHdl := none, trialMemStart := m, imageIndex := s.cxt.imageIndex + 1, imageWrtLength := 0 } := by
    simp only [← hs', Session.setCxt, Session.freePartitionHdl_cxt, hm]
  have hver : s'.verified = s.verified := by
    rw [← hs']
    exact Session.freePartitionHdl_verified s
  refine ⟨s', m, rfl, ⟨?_, ?_, ?_⟩, hcxt⟩
  · rw [← hs']
    simpa only [Session.setCxt, Session.freePartitionHdl_dev] using hb.grown
  · have hmem := hL.sane.data_lt A.mem (by simp [Area.data])
    have hroom := hd.room hb.placing env
    rw [← hh] at hroom
    have hmeq : m = s.cxt.trialMemStart + h.taken := by
      rw [hm, ImageHdr.taken]
      rw [ImageHdr.taken] at hroom
      by_cases hid : h.imageId = fs1ImgId ∨ h.imageId = sblImgId
      · rw [if_pos hid, if_neg (by tauto), Nat.add_zero]
      · rw [if_neg hid] at hroom
        rw [if_neg hid, if_pos (by tauto), u32_of_lt (by omega)]
    rw [hcxt]
    refine ⟨hb.placing.trial, hb.placing.isFirst, hb.placing.total, hb.placing.lengths, hb.placing.sbl,
      hb.placing.sblStart, ?_, ?_, hb.placing.flags, hb.placing.buffer⟩
    · have := hb.placing.start_le
      simp only [hmeq]
      omega
    · have hneed := need_succ (show _ < s.cxt.imageHdr.length from hb.placing.total ▸ hd.index) hd.flag
      rw [hd.taken hb.placing env, ← hh] at hneed
      have hbud := hb.placing.budget
      simp only [hmeq]
      omega
  · intro i hi x hx hfl hlen
    have hpad : s'.cxt.hashPad x = s.cxt.hashPad x := by
      rw [hcxt]
      rfl
    rw [hcxt] at hi hx hfl
    simp only at hi hx hfl
    rw [hpad, hver]
    rcases Nat.lt_succ_iff_lt_or_eq.mp hi with hlt | rfl
    · exact hb.verified i hlt x hx hfl hlen
    · rw [hd.getElem? hb.placing env, Option.some.injEq] at hx
      rw [← hx] at hlen ⊢
      exact hv hlen

/-! ### The loop over the buffer -/

/-- A session in the loop of `fw_upgrade_process_receive_image`. -/
structure Working (env : Env) (A : Area) (fu₀ : Fu) (s : Session) : Prop where
  busy : Busy env A fu₀.dev s
  downloading : Downloading s.cxt
  ongoing : Ongoing A s
  state : s.cxt.state = .processImage
  buffer : s.cxt.buffer ≠ []

/-- A session that has left the loop. -/
def Left (env : Env) (A : Area) (fu₀ : Fu) (s : Session) : Prop :=
  Working env A fu₀ s ∨ (Inv env A fu₀ s ∧ s.cxt.state ≠ .processImage)

/-- How a pass of the loop ends. -/
abbrev PassEnd (env : Env) (A : Area) (fu₀ : Fu) (go : Bool) (s : Session) : Prop :=
  if go = true then Working env A fu₀ s else Left env A fu₀ s

/-- After the last piece of an image: the next image of the file, the next file, or the end. -/
inductive Finished (env : Env) (A : Area) (fu₀ : Fu) : Bool → Session → Prop
  | next {s : Session} (hw : Working env A fu₀ s) : Finished env A fu₀ false s
  | file {s : Session} (hst : s.cxt.state = .disconnectServer) (hb : Busy env A fu₀.dev s)
    (hw : s.cxt.imageWrtLength = 0) (hf : s.cxt.format = formatPartialUpgrade) : Finished env A fu₀ false s
  | last {s : Session} (hst : s.cxt.state = .duplicateFs) (hb : Busy env A fu₀.dev s)
    (ht : s.cxt.totalImages ≤ s.cxt.imageIndex) : Finished env A fu₀ true s

theorem Finished.left (hL : Layout env.cfg fu₀ A) {last : Bool} {s : Session} (h : Finished env A fu₀ last s) :
    Left env A fu₀ s := by
  cases h with
  | next hw => exact .inl hw
  | file hst hb hw hf => exact .inr ⟨.between (.inr hst) hL hb hw, by simp [hst]⟩
  | last hst hb ht =>
    exact .inr ⟨.placed (.inl hst) hL hb.grown hb.placing.trial hb.verified ht hb.placing.isFirst, by simp [hst]⟩

/-- An image of an all-in-one file has been closed and there is another. -/
theorem working_next {s : Session} (hb : Busy env A fu₀.dev s) (hw : s.cxt.imageWrtLength = 0)
    (hf : s.cxt.format ≠ formatPartialUpgrade) (hi : s.cxt.imageIndex < s.cxt.totalImages)
    (hst : s.cxt.state = .processImage) (hbuf : s.cxt.buffer ≠ []) : Working env A fu₀ s :=
  ⟨hb, ⟨hi, hb.placing.flags hf _⟩, fun h => absurd hw h, hst, hbuf⟩

theorem finishImage_finished (hL : Layout env.cfg fu₀ A) {s : Session} (hb : Busy env A fu₀.dev s)
    (hd : Downloading s.cxt) (hst : s.cxt.state = .processImage) (hbuf : s.cxt.buffer ≠ []) :
    Cmd.Ends (Finished env A fu₀) (Failed A fu₀.dev) (finishImage env (s.cxt.hdrAt env s.cxt.imageIndex) s) := by
  set h := s.cxt.hdrAt env s.cxt.imageIndex with hh
  rw [finishImage, Cmd.bind_apply, verifyImageHash]
  by_cases hhash : h.hash = env.sha256 (s.cxt.digest ++ List.replicate (s.cxt.hashPad h) 0xFF)
  swap
  · rw [if_neg hhash]
    exact hb.grown
  rw [if_pos hhash]
  set s₁ : Session := { s with verified := (s.cxt.imageIndex, s.cxt.digest) :: s.verified } with hs₁
  have hb₁ : Busy env A fu₀.dev s₁ := by
    refine ⟨hb.grown, hb.placing, ?_⟩
    intro i hi x hx hfl hlen
    obtain ⟨b, hmem, hhash'⟩ := hb.verified i hi x hx hfl hlen
    exact ⟨b, List.mem_cons_of_mem _ hmem, hhash'⟩
  obtain ⟨s', m, heq, hb', hc⟩ := closeImage_busy hL (s := s₁) hb₁ hd
    (fun _ => ⟨_, List.mem_cons_self, hhash⟩)
  show Cmd.Ends _ _ ((closeImage h >>= _) s₁)
  rw [Cmd.bind_ok heq, Cmd.bind_ok (Cmd.gets_apply _ _)]
  have hwl : s'.cxt.imageWrtLength = 0 := congrArg Cxt.imageWrtLength hc
  have hbusy : ∀ t, Busy env A fu₀.dev (s'.setState t) := by
    intro t
    refine hb'.keep hb'.grown rfl ?_
    constructor <;> rfl
  by_cases hf : s'.cxt.format = formatPartialUpgrade
  · rw [if_pos hf]
    exact .file rfl (hbusy _) hwl hf
  rw [if_neg hf]
  by_cases ht : s'.cxt.totalImages ≤ s'.cxt.imageIndex
  · rw [if_pos ht]
    exact .last rfl (hbusy _) ht
  · rw [if_neg ht]
    refine .next (working_next hb' hwl hf (by omega) ?_ ?_)
    · rw [hc]
      exact hst
    · rw [hc]
      exact hbuf

/-- A piece is never empty and never more than what is missing of the image. -/
theorem writeLen_bounds {c : Cxt} {n : ℕ} (h : c.writeLen = .ok n) (hc : c.imageWrtCount ≤ c.imageWrtLength)
    (hl : c.imageWrtLength < 2 ^ 32) (hbuf : c.buffer ≠ [])
    (hoff : c.format ≠ formatPartialUpgrade → c.bufOffset < c.buffer.length ∧ c.imageWrtCount < c.imageWrtLength) :
    0 < n ∧ c.imageWrtCount + n ≤ c.imageWrtLength ∧
      n ≤ c.buffer.length - (if c.format = formatPartialUpgrade then 0 else c.bufOffset) := by
  have hpos : 0 < c.buffer.length := List.length_pos_iff.mpr hbuf
  rw [Cxt.writeLen, u32sub_of_le hl hc] at h
  by_cases hf : c.format = formatPartialUpgrade
  · simp only [if_pos hf] at h ⊢
    split at h
    · cases h
    · cases h
      omega
  · simp only [if_neg hf, Except.ok.injEq] at h ⊢
    have := hoff hf
    omega

/-- The pass of the loop once the partition is open. -/
theorem receivePiece_passEnd (hL : Layout env.cfg fu₀ A) {s : Session} {k : ℕ} (hb : Busy env A fu₀.dev s)
    (hd : Downloading s.cxt) (ho : Opened A s k) (hst : s.cxt.state = .processImage) (hbuf : s.cxt.buffer ≠ [])
    (hoff : s.cxt.format ≠ formatPartialUpgrade →
      s.cxt.bufOffset < s.cxt.buffer.length ∧ s.cxt.imageWrtCount < s.cxt.imageWrtLength) :
    Cmd.Ends (PassEnd env A fu₀) (Failed A fu₀.dev) (receivePiece env (s.cxt.hdrAt env s.cxt.imageIndex) s) := by
  set h := s.cxt.hdrAt env s.cxt.imageIndex with hh
  rw [receivePiece, Cmd.bind_ok (Cmd.gets_apply _ _)]
  rcases hwl : s.cxt.writeLen with e | n
  · exact hb.grown
  obtain ⟨h0, hlen, hn⟩ := writeLen_bounds hwl ho.count ho.length hbuf hoff
  simp only
  rw [Cmd.bind_ok (Cmd.modify_apply _ _)]
  set s₁ := s.setCxt fun c => { c with bufOffset := if c.format = formatPartialUpgrade then 0 else c.bufOffset } with hs₁
  have ho₁ : Opened A s₁ k := ho.keep rfl rfl rfl ho.count ho.size
  rcases writeImage_cases hL (s := s₁) hb.grown ho₁ h0 hb.placing.buffer hn hlen with ⟨e, s', heq, hg⟩ |
    ⟨fu', d, o, f, heq, hg, hhd, hsz⟩
  · rw [Cmd.bind_error heq]
    exact hg
  rw [Cmd.bind_ok heq]
  generalize hs₂ : ({ s₁ with fu := fu', cxt := _ } : Session) = s₂
  have hplan : SamePlan s.cxt s₂.cxt := by
    rw [← hs₂]
    constructor <;> rfl
  have hb₂ : Busy env A fu₀.dev s₂ := hb.keep (by rw [← hs₂]; exact hg) (by rw [← hs₂]; rfl) hplan
  have hd₂ := hd.keep hplan
  have hst₂ : s₂.cxt.state = .processImage := by rw [← hs₂]; exact hst
  have hbuf₂ : s₂.cxt.buffer ≠ [] := by rw [hplan.buffer]; exact hbuf
  have ho₂ : Opened A s₂ k := by
    refine ho.keep ?_ ?_ ?_ ?_ ?_ <;> rw [← hs₂]
    exacts [hhd, rfl, rfl, hlen, hsz]
  have hfin : Cmd.Ends (Finished env A fu₀) (Failed A fu₀.dev) (finishIfWritten env h s₂) := by
    rw [finishIfWritten]
    by_cases hdone : s₂.cxt.imageWrtLength ≤ s₂.cxt.imageWrtCount
    · rw [if_pos hdone, hh, ← hplan.hdrAt, ← hplan.index]
      exact finishImage_finished hL hb₂ hd₂ hst₂ hbuf₂
    · rw [if_neg hdone]
      exact .next ⟨hb₂, hd₂, fun _ => ⟨by omega, k, ho₂⟩, hst₂, hbuf₂⟩
  rcases hr : finishIfWritten env h s₂ with ⟨e | last, s₃⟩
  · rw [hr] at hfin
    rw [Cmd.bind_error hr]
    exact hfin
  rw [hr] at hfin
  rw [Cmd.bind_ok hr]
  cases hfin with
  | last hst₃ hb₃ ht =>
    exact Finished.left hL (.last hst₃ hb₃ ht)
  | file hst₃ hb₃ hw hf =>
    -- nothing is open, so nothing is erased ahead
    have hn : eraseNext s₃ = (.ok (), s₃) := if_neg (by simp [hw])
    simp only [Bool.false_eq_true, if_false]
    rw [Cmd.bind_ok hn, Cmd.gets_apply]
    simp only [hf, ne_eq, not_true_eq_false, decide_false]
    exact Finished.left hL (.file hst₃ hb₃ hw hf)
  | next hw =>
    simp only [Bool.false_eq_true, if_false]
    obtain ⟨r, fu₄, heq₄, hg₄, hh₄⟩ := eraseNext_cases hL hw.busy.grown hw.ongoing
    rcases r with e | u
    · rw [Cmd.bind_error heq₄]
      exact hg₄
    rw [Cmd.bind_ok heq₄, Cmd.gets_apply]
    have hw₄ : Working env A fu₀ { s₃ with fu := fu₄ } := by
      refine ⟨hw.busy.keep hg₄ rfl (by constructor <;> rfl), hw.downloading, ?_, hw.state, hw.buffer⟩
      intro hne
      obtain ⟨hlt, k', hk'⟩ := hw.ongoing hne
      exact ⟨hlt, k', hk'.keep hh₄ rfl rfl hk'.count hk'.size⟩
    show PassEnd env A fu₀ _ _
    rw [PassEnd]
    split
    · exact hw₄
    · exact .inl hw₄

/-- An image without bytes is closed as soon as it is open. -/
theorem closeEmpty_passEnd (hL : Layout env.cfg fu₀ A) {s : Session} (hb : Busy env A fu₀.dev s)
    (hd : Downloading s.cxt) (hst : s.cxt.state = .processImage) (hbuf : s.cxt.buffer ≠ [])
    (hf : s.cxt.format ≠ formatPartialUpgrade) (hz : (s.cxt.hdrAt env s.cxt.imageIndex).imageLength = 0) :
    Cmd.Ends (PassEnd env A fu₀) (Failed A fu₀.dev) ((do
      closeImage (s.cxt.hdrAt env s.cxt.imageIndex)
      if ← Cmd.gets fun s => decide (s.cxt.totalImages ≤ s.cxt.imageIndex) then
        Cmd.modify fun s => s.setState .duplicateFs
        return false
      else return true : Cmd Session FuStatus Bool) s) := by
  obtain ⟨s', m, heq, hb', hc⟩ := closeImage_busy hL hb hd (fun h => absurd hz h)
  rw [Cmd.bind_ok heq, Cmd.bind_ok (Cmd.gets_apply _ _)]
  have hwl : s'.cxt.imageWrtLength = 0 := congrArg Cxt.imageWrtLength hc
  by_cases ht : s'.cxt.totalImages ≤ s'.cxt.imageIndex
  · rw [if_pos (by simpa using ht)]
    refine Finished.left hL (.last rfl ?_ ht)
    exact hb'.keep hb'.grown rfl (by constructor <;> rfl)
  · rw [if_neg (by simpa using ht)]
    refine working_next hb' hwl ?_ (by omega) ?_ ?_
    · rw [hc]
      exact hf
    · rw [hc]
      exact hst
    · rw [hc]
      exact hbuf

theorem receivePass_passEnd (hL : Layout env.cfg fu₀ A) :
    Cmd.Triple (Working env A fu₀) (receivePass env) (PassEnd env A fu₀) (Failed A fu₀.dev) := by
  intro s hw
  rw [receivePass, Cmd.bind_ok (Cmd.gets_apply _ _)]
  by_cases hend : s.cxt.format ≠ formatPartialUpgrade ∧ s.cxt.buffer.length ≤ s.cxt.bufOffset
  · rw [if_pos hend]
    exact Or.inl hw
  rw [if_neg hend]
  have hoff : s.cxt.format ≠ formatPartialUpgrade → s.cxt.bufOffset < s.cxt.buffer.length := fun hf => by
    by_contra hle
    exact hend ⟨hf, by omega⟩
  by_cases hopen : s.cxt.imageWrtLength = 0
  swap
  · rw [if_neg hopen]
    obtain ⟨hlt, k, hk⟩ := hw.ongoing hopen
    exact receivePiece_passEnd hL hw.busy hw.downloading hk hw.state hw.buffer (fun hf => ⟨hoff hf, hlt⟩)
  rw [if_pos hopen]
  rcases openImage_cases hL hw.busy hw.downloading with ⟨e, s', heq, hg⟩ | ⟨s', k, heq, hb', ho', hc⟩
  · rw [Cmd.bind_error heq]
    exact hg
  rw [Cmd.bind_ok heq]
  have hplan : SamePlan s.cxt s'.cxt := by
    rw [hc]
    constructor <;> rfl
  have hd' := hw.downloading.keep hplan
  have hst' : s'.cxt.state = .processImage := by rw [hc]; exact hw.state
  have hbuf' : s'.cxt.buffer ≠ [] := by rw [hplan.buffer]; exact hw.buffer
  have hoff' : s'.cxt.bufOffset = s.cxt.bufOffset := by rw [hc]
  have hcnt : s'.cxt.imageWrtCount = 0 := congrArg Cxt.imageWrtCount hc
  have hlen : s'.cxt.imageWrtLength = (s.cxt.hdrAt env s.cxt.imageIndex).imageLength :=
    congrArg Cxt.imageWrtLength hc
  rw [← hplan.hdrAt, ← hplan.index, ← hplan.format] at *
  by_cases hempty : s'.cxt.format ≠ formatPartialUpgrade ∧ (s'.cxt.hdrAt env s'.cxt.imageIndex).imageLength = 0
  · rw [if_pos hempty]
    exact closeEmpty_passEnd hL hb' hd' hst' hbuf' hempty.1 hempty.2
  rw [if_neg hempty, Cmd.bind_ok (Cmd.modify_apply _ _)]
  set s'' := s'.setCxt fun c => { c with digest := [] } with hs''
  have hplan' : SamePlan s'.cxt s''.cxt := by constructor <;> rfl
  refine receivePiece_passEnd hL (hb'.keep hb'.grown rfl hplan') (hd'.keep hplan')
    (ho'.keep rfl rfl rfl ho'.count ho'.size) hst' hbuf' ?_
  intro hf
  refine ⟨?_, ?_⟩
  · show s'.cxt.bufOffset < s'.cxt.buffer.length
    rw [hoff', hplan.buffer]
    exact hoff hf
  · show s'.cxt.imageWrtCount < s'.cxt.imageWrtLength
    rw [hcnt, hlen]
    exact Nat.pos_of_ne_zero fun hz => hempty ⟨hf, hz⟩

theorem receiveLoop_left (hL : Layout env.cfg fu₀ A) : ∀ n,
    Cmd.Triple (Working env A fu₀) (receiveLoop env n) (fun _ => Left env A fu₀) (Failed A fu₀.dev)
  | 0 => Cmd.Triple.pure fun _ hw => .inl hw
  | n + 1 => by
    refine Cmd.Triple.bind (receivePass_passEnd hL) fun go => ?_
    rcases go with _ | _
    · exact Cmd.Triple.pure fun _ h => h
    · exact (receiveLoop_left hL n).weaken (fun _ h => h) (fun _ _ h => h) fun _ _ h => h

/-- A chunk of image data keeps the invariant. -/
theorem processImage_keeps (hL : Layout env.cfg fu₀ A) {s : Session} (hw : Working env A fu₀ s) :
    Keeps env A fu₀ (processImage env s) := by
  have h := receiveLoop_left hL (s.cxt.buffer.length + s.cxt.totalImages + 2) s hw
  rw [processImage, Cmd.bind_apply, fwUpgradeProcessReceiveImage]
  rcases hr : receiveLoop env (s.cxt.buffer.length + s.cxt.totalImages + 2) s with ⟨e | u, s'⟩ <;> rw [hr] at h
  · exact .inr ⟨hL, h⟩
  rcases h with hw' | ⟨hi, hst⟩
  · simp only [Cmd.modify_apply, hw'.state, if_true]
    refine .image (.inr (.inl rfl)) hL (hw'.busy.keep hw'.busy.grown rfl (by constructor <;> rfl))
      ⟨hw'.downloading.index, hw'.downloading.flag⟩ ?_ (fun hc => by cases hc) (fun hc => by cases hc)
    intro hne
    obtain ⟨hlt, k, hk⟩ := hw'.ongoing hne
    exact ⟨hlt, k, hk.keep rfl rfl rfl hk.count hk.size⟩
  · simp only [Cmd.modify_apply, if_neg hst]
    exact hi

end

end Qcc730.Upgrade
