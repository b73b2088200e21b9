import Qcc730.Upgrade.Images

/-! A session writes only where it is meant to.

    The remaining states keep the invariant too: choosing the slot and erasing its FWD, looking for the
    next image, talking to the server, and the copies of images and of the file system. By induction the
    invariant holds in every run, and with it all writes are in the area of the session. -/

namespace Qcc730.Upgrade
open Lib Flash

section

variable {env : Env} {fu₀ : Fu} {A : Area}

/-! ### Copies -/

theorem readPartition_length {h o n : ℕ} {s : Fu} {b : Bytes} (hr : (fwUpgradeReadPartition h o n s).1 = .ok b) :
    b.length = n := by
  rw [fwUpgradeReadPartition] at hr
  split at hr
  · cases hr
  simp only at hr
  split at hr
  · cases hr
  rename_i b' hb
  cases hr
  split at hb
  · rw [ntRramRead] at hb
    split at hb
    · cases hb
    split at hb
    · cases hb
      exact Memory.length_read _ _ _
    · cases hb
  · rw [drvFlashRead] at hb
    split at hb
    · cases hb
      exact Memory.length_read _ _ _
    · cases hb

theorem Fu.writes_nil (s : Fu) : s.writes [] = s := by
  rw [Fu.writes, Dev.writes_nil]

/-- The offsets of consecutive blocks from `o` on. -/
def Consecutive : ℕ → List ℕ → Prop
  | _, [] => True
  | o, x :: l => x = o ∧ Consecutive (o + 4096) l

theorem consecutive_range' : ∀ n k : ℕ, Consecutive (k * 4096) ((List.range' k n).map (· * 4096))
  | 0, _ => trivial
  | n + 1, k => ⟨rfl, by rw [← Nat.succ_mul]; exact consecutive_range' n (k + 1)⟩

theorem consecutive_blockOffsets (size : ℕ) : Consecutive 0 (blockOffsets size) := by
  have h := consecutive_range' ((size + 4095) / 4096) 0
  rwa [Nat.zero_mul, ← List.range_eq_range'] at h

/-- Erasing a block of a partition and writing it. -/
theorem rewriteBlock_later (hs : A.Sane) {s : Fu} {h o : ℕ} (hc : A.Holds (s.handles h))
    (hid : (s.handles h).imgId ≠ sblImgId) (ho : o ≤ (s.handles h).imgSize) {b : Bytes} (hb : b.length = 4096) :
    ∃ r ws, fwUpgradeErasePartition h o 4096 s = (r, s.writes ws) ∧ (∀ w ∈ ws, A.Later w) ∧
      ∃ r' ws', fwUpgradeWritePartition h o b (s.writes ws) = (r', s.writes (ws ++ ws')) ∧
        (∀ w ∈ ws ++ ws', A.Later w) ∧ (r' = .ok () → o + 4096 ≤ (s.handles h).imgSize) := by
  obtain ⟨-, q, hq, hlo, hhi⟩ := hc.flash hid
  have hq' := hs.data_lt q hq
  obtain ⟨r, ws, heq, hw⟩ := fuErase_later hs hc o 4096 (fun _ => by omega)
  obtain ⟨r', ws', heq', hw', hle⟩ := fuWrite_later hs (s := s.writes ws) hc ho (Nat.le_of_eq hb)
    (fun h => absurd h hid)
  refine ⟨r, ws, heq, hw, r', ws', ?_, ?_, ?_⟩
  · rw [heq', Fu.writes_writes]
  · intro w hmem
    rcases List.mem_append.mp hmem with h | h
    · exact hw w h
    · exact hw' w h
  · intro hr
    rw [← hb]
    exact hle hr

/-- The loop over the blocks of an image stays in the new partition. -/
theorem copyBlocks_later (hs : A.Sane) (src dst : ℕ) : ∀ (l : List ℕ) (o : ℕ) (buf : Bytes) (s : Fu),
    Consecutive o l → A.Holds (s.handles dst) → (s.handles dst).imgId ≠ sblImgId → o ≤ (s.handles dst).imgSize →
    buf.length = 4096 →
    ∃ r b ws, copyBlocks src dst l buf s = ((r, b), s.writes ws) ∧ b.length = 4096 ∧ ∀ w ∈ ws, A.Later w
  | [], o, buf, s, _, _, _, _, hb => ⟨none, buf, [], by rw [Fu.writes_nil]; rfl, hb, by simp⟩
  | x :: l, o, buf, s, ⟨hx, hl⟩, hc, hid, ho, hb => by
    subst hx
    rw [copyBlocks]
    set b := ((fwUpgradeReadPartition src x 4096 s).1.toOption).getD buf with hbdef
    have hbl : b.length = 4096 := by
      rcases hr : (fwUpgradeReadPartition src x 4096 s).1 with e | b'
      · rw [hbdef, hr]
        exact hb
      · rw [hbdef, hr]
        exact readPartition_length hr
    obtain ⟨r, ws, heq, hw, r', ws', heq', hw', hle⟩ := rewriteBlock_later hs hc hid ho hbl
    simp only [heq]
    rcases r with e | u
    · exact ⟨_, b, ws, rfl, hbl, hw⟩
    simp only [heq']
    rcases r' with e | u
    · exact ⟨_, b, _, rfl, hbl, hw'⟩
    obtain ⟨r'', b'', ws'', heq'', hbl'', hw''⟩ := copyBlocks_later hs src dst l (x + 4096) b (s.writes (ws ++ ws')) hl
      hc hid (hle rfl) hbl
    refine ⟨r'', b'', ws ++ ws' ++ ws'', ?_, hbl'', ?_⟩
    · simp only [heq'', Fu.writes_writes]
    · intro w hmem
      rcases List.mem_append.mp hmem with h | h
      · exact hw' w h
      · exact hw'' w h

/-- The loop over the blocks of the file system stays in FS2. -/
theorem copyFs_later (hs : A.Sane) (src dst : ℕ) : ∀ (l : List ℕ) (o : ℕ) (s : Fu),
    Consecutive o l → A.Holds (s.handles dst) → (s.handles dst).imgId ≠ sblImgId → o ≤ (s.handles dst).imgSize →
    ∃ r ws, copyFs src dst l s = (r, s.writes ws) ∧ ∀ w ∈ ws, A.Later w
  | [], o, s, _, _, _, _ => ⟨_, [], by rw [Fu.writes_nil]; rfl, by simp⟩
  | x :: l, o, s, ⟨hx, hl⟩, hc, hid, ho => by
    subst hx
    rw [copyFs, Cmd.bind_apply, Cmd.orFail]
    have hst := readPartition_state src x 4096 s
    rcases hr : fwUpgradeReadPartition src x 4096 s with ⟨e | b, s₁⟩ <;> rw [hr] at hst
    · exact ⟨_, [], by rw [Fu.writes_nil, ← hst], by simp⟩
    have hbl : b.length = 4096 := readPartition_length (s := s) (by rw [hr])
    subst hst
    obtain ⟨r, ws, heq, hw, r', ws', heq', hw', hle⟩ := rewriteBlock_later hs hc hid ho hbl
    simp only [Cmd.bind_apply, Cmd.orFail, heq]
    rcases r with e | u
    · exact ⟨_, ws, rfl, hw⟩
    simp only [heq']
    rcases r' with e | u
    · exact ⟨_, _, rfl, hw'⟩
    obtain ⟨r'', ws'', heq'', hw''⟩ := copyFs_later hs src dst l (x + 4096) (s₁.writes (ws ++ ws')) hl hc hid (hle rfl)
    refine ⟨r'', ws ++ ws' ++ ws'', ?_, ?_⟩
    · simp only [heq'', Fu.writes_writes]
    · intro w hmem
      rcases List.mem_append.mp hmem with h | h
      · exact hw' w h
      · exact hw'' w h

/-- The trial memory that copies take. -/
def copyNeed (flag : ℕ → Bool) (l : List (ℕ × ImageHdr)) : ℕ :=
  (l.map fun p => if flag p.1 = false ∧ p.2.Counted then p.2.diskSize else 0).sum

/-- What is left of the trial memory is enough for the copies. -/
theorem copyNeed_le (c : Cxt) (env : Env) (ht : c.totalImages = c.imageHdr.length) :
    copyNeed c.downloadFlag ((List.range c.totalImages).map fun i => (i, c.hdrAt env i)) ≤
      need c.downloadFlag c.imageIndex c.imageHdr := by
  rw [copyNeed, need, List.map_map, Finset.sum_eq_multiset_sum, ← ht]
  change _ ≤ (Multiset.map _ (Multiset.ofList (List.range c.totalImages))).sum
  rw [Multiset.map_coe, Multiset.sum_coe]
  refine List.sum_le_sum fun j hj => ?_
  have hlt : j < c.imageHdr.length := ht ▸ List.mem_range.mp hj
  have htaken : (c.imageHdr.map ImageHdr.taken).getD j 0 = (c.hdrAt env j).taken := by
    rw [Cxt.hdrAt, List.getD_eq_getElem?_getD, List.getD_eq_getElem?_getD, List.getElem?_map,
      List.getElem?_eq_getElem hlt]
    rfl
  simp only [Function.comp_apply]
  by_cases hc : c.downloadFlag j = false ∧ (c.hdrAt env j).Counted
  · rw [if_pos hc, if_neg (by simp [hc.1]), htaken, ImageHdr.taken, if_neg]
    rintro (h | h)
    · exact hc.2.1 h
    · exact hc.2.2.2 h
  · rw [if_neg hc]
    exact Nat.zero_le _

/-- The loop that copies images that did not change stays in the trial memory. -/
theorem duplicateLoop_grown (hL : Layout env.cfg fu₀ A) : ∀ (l : List (ℕ × ImageHdr)) (err : Option FuStatus)
    (buf : Bytes) (s : Session), buf.length = 4096 → Grown A fu₀.dev s.fu.dev → s.cxt.trialFwdIdx = A.trial →
    A.mem.start ≤ s.cxt.trialMemStart →
    s.cxt.trialMemStart + copyNeed s.cxt.downloadFlag l ≤ A.mem.start + A.mem.size →
    ∃ r s' m, duplicateLoop l err buf s = (r, s') ∧ Grown A fu₀.dev s'.fu.dev ∧
      s'.cxt = { s.cxt with trialMemStart := m } ∧ s'.verified = s.verified
  | [], err, buf, s, _, hg, _, _, _ => ⟨err, s, s.cxt.trialMemStart, rfl, hg, rfl, rfl⟩
  | (i, h) :: rest, err, buf, s, hb, hg, ht, hlo, hhi => by
    rw [copyNeed, List.map_cons, List.sum_cons] at hhi
    rw [duplicateLoop]
    by_cases hc : s.cxt.downloadFlag i = false ∧ h.Counted
    swap
    · rw [if_neg hc]
      rw [if_neg hc, Nat.zero_add] at hhi
      exact duplicateLoop_grown hL rest err buf s hb hg ht hlo hhi
    rw [if_pos hc]
    simp only [if_pos hc] at hhi
    rcases findPartition_cases s.activeFwd h.imageId s.fu with ⟨e, heq⟩ | ⟨src, j, en, -, -, -, -, heq⟩
    · simp only [heq]
      exact ⟨_, _, s.cxt.trialMemStart, rfl, hg, rfl, rfl⟩
    simp only [heq]
    set fu₁ := s.fu.setHandle src (clientOf s.activeFwd j en) with hfu₁
    rcases createPartition_cases s.cxt.trialFwdIdx h.imageId h.version s.cxt.trialMemStart h.diskSize fu₁ with
      ⟨e, heq'⟩ | ⟨dst, -, hal, -, -, hfree, heq'⟩
    · simp only [heq']
      exact ⟨_, _, s.cxt.trialMemStart, rfl, hg, rfl, rfl⟩
    simp only [heq']
    generalize hfu₂ : (fu₁.writes _).setHandle dst _ = fu₂
    have hd : fu₂.handles dst = ⟨1, s.cxt.trialFwdIdx, freeEntry (fu₁.dev.mem.fwd s.cxt.trialFwdIdx), h.imageId,
        h.version, s.cxt.trialMemStart, h.diskSize⟩ := by
      rw [← hfu₂]
      exact Fu.setHandle_same _ _ _
    have hg₂ : Grown A fu₀.dev fu₂.dev := by
      rw [← hfu₂]
      refine Grown.writes (d := fu₁.dev) hg ?_
      rw [ht] at hfree ⊢
      exact entryWrites_later A hfree _
    have hns : (fu₂.handles dst).imgId ≠ sblImgId := by
      rw [hd]
      exact hc.2.2.2
    have hmem := hL.sane.data_lt A.mem (by simp [Area.data])
    have hold : A.Holds (fu₂.handles dst) := by
      refine ⟨fun _ => ?_, fun h => absurd h hns⟩
      rw [hd]
      refine ⟨(hal hc.2.2.2).1, A.mem, by simp [Area.data], hlo, ?_⟩
      show s.cxt.trialMemStart + h.diskSize ≤ _
      omega
    obtain ⟨r, b, ws, hcopy, hbl, hw⟩ := copyBlocks_later hL.sane src dst _ 0 buf fu₂
      (consecutive_blockOffsets h.diskSize) hold hns (Nat.zero_le _) hb
    simp only [hcopy]
    have hroom : u32 (s.cxt.trialMemStart + h.diskSize) = s.cxt.trialMemStart + h.diskSize := u32_of_lt (by omega)
    obtain ⟨r', s', m, heq'', hg', hcx, hv⟩ := duplicateLoop_grown hL rest (r <|> err) b
      ({ s with fu := ((fu₂.writes ws).freeHandle src).freeHandle dst }.setCxt fun c =>
        { c with trialMemStart := u32 (c.trialMemStart + h.diskSize) })
      hbl (hg₂.writes hw) ht (by simp only [Session.setCxt, hroom]; omega)
      (by simp only [Session.setCxt, hroom, copyNeed]; omega)
    exact ⟨r', s', m, heq'', hg', hcx, hv⟩

/-- The copies end in a session with the invariant or with an error. -/
theorem duplicateImages_keeps (hL : Layout env.cfg fu₀ A) {s : Session} (hb : Busy env A fu₀.dev s)
    (ht : s.cxt.totalImages ≤ s.cxt.imageIndex) : Keeps env A fu₀ (duplicateImages env s) := by
  have hneed := copyNeed_le s.cxt env hb.placing.total
  have hbud := hb.placing.budget
  obtain ⟨r, s', m, heq, hg, hc, hv⟩ := duplicateLoop_grown hL
    ((List.range s.cxt.totalImages).map fun i => (i, s.cxt.hdrAt env i)) none ((List.range 4096).map env.heap) s
    (by rw [List.length_map, List.length_range]) hb.grown hb.placing.trial hb.placing.start_le (by omega)
  simp only [duplicateImages, heq]
  rcases r with _ | e
  · refine .placed (.inl rfl) hL hg ?_ ?_ ?_ ?_
    · show s'.cxt.trialFwdIdx = A.trial
      rw [hc]
      exact hb.placing.trial
    · intro i hi h hh hfl hlen
      simp only [Session.setState, Session.setCxt, hc, hv] at *
      exact hb.verified i hi h hh hfl hlen
    · show s'.cxt.totalImages ≤ s'.cxt.imageIndex
      rw [hc]
      exact ht
    · show s'.cxt.isFirst = false
      rw [hc]
      exact hb.placing.isFirst
  · exact .inr ⟨hL, hg⟩

/-- The copy of the file system goes to FS2. -/
theorem processDuplicateFs_grown (hL : Layout env.cfg fu₀ A) {s : Session} (hg : Grown A fu₀.dev s.fu.dev) :
    Grown A fu₀.dev (fwUpgradeProcessDuplicateFs s.activeFwd s.fu).2.dev := by
  rw [fwUpgradeProcessDuplicateFs]
  rcases findPartition_cases s.activeFwd fs1ImgId s.fu with ⟨e, heq⟩ | ⟨h₁, i₁, e₁, -, -, -, -, heq⟩
  · simp only [heq]
    exact hg
  simp only [heq]
  set fu₁ := s.fu.setHandle h₁ (clientOf s.activeFwd i₁ e₁) with hfu₁
  rcases findPartition_cases s.activeFwd fs2ImgId fu₁ with ⟨e, heq'⟩ | ⟨h₂, i₂, e₂, hlt, -, -, hf, heq'⟩
  · simp only [heq']
    exact hg
  simp only [heq']
  set fu₂ := fu₁.setHandle h₂ (clientOf s.activeFwd i₂ e₂) with hfu₂
  have hc : fu₂.handles h₂ = clientOf s.activeFwd i₂ e₂ := Fu.setHandle_same _ _ _
  obtain ⟨hold, -⟩ := hL.holds_found hg (.inl rfl) hlt hf s.activeFwd
  rw [← hc] at hold
  have hns : (fu₂.handles h₂).imgId ≠ sblImgId := by
    rw [hc]
    show e₂.imageId ≠ sblImgId
    rw [(findEntry_id hf).1]
    decide
  obtain ⟨r, ws, hcopy, hw⟩ := copyFs_later hL.sane h₁ h₂ _ 0 fu₂ (consecutive_blockOffsets _) hold hns (Nat.zero_le _)
  rw [hcopy]
  exact Grown.writes (d := fu₂.dev) hg hw

theorem duplicateFs_keeps (hL : Layout env.cfg fu₀ A) {s : Session} (hg : Grown A fu₀.dev s.fu.dev)
    (htr : s.cxt.trialFwdIdx = A.trial) (hv : s.AllVerified env) (ht : s.cxt.totalImages ≤ s.cxt.imageIndex)
    (hfirst : s.cxt.isFirst = false) : Keeps env A fu₀ (duplicateFs s) := by
  rw [duplicateFs, Cmd.bind_apply, Cmd.when]
  by_cases hf : s.cxt.flags / flagDuplicateActiveFs % 2 = 1
  · have h := processDuplicateFs_grown hL hg
    rw [if_pos hf, Cmd.bind_ok (Cmd.gets_apply _ _), onFu, Cmd.zoom]
    rcases hr : fwUpgradeProcessDuplicateFs s.activeFwd s.fu with ⟨e | u, fu'⟩ <;> rw [hr] at h
    · exact .inr ⟨hL, h⟩
    · exact .placed (.inr rfl) hL h htr hv ht hfirst
  · rw [if_neg hf]
    exact .placed (.inr rfl) hL hg htr hv ht hfirst

/-! ### The next image -/

/-- The loop stops at an image to be downloaded, or past the last one. -/
theorem nextDownload_spec (flag : ℕ → Bool) (index total : ℕ) :
    index ≤ nextDownload flag index total ∧
    (nextDownload flag index total < total → flag (nextDownload flag index total) = true) ∧
    ∀ j, index ≤ j → j < nextDownload flag index total → j < total → flag j = false := by
  rw [nextDownload]
  rcases hf : (List.range' index (total - index)).find? flag with _ | j
  · rw [Option.getD_none]
    refine ⟨le_max_left _ _, fun h => absurd h (by omega), ?_⟩
    intro j h₁ h₂ h₃
    rw [List.find?_eq_none] at hf
    simpa using hf j (List.mem_range'_1.mpr ⟨h₁, by omega⟩)
  · rw [Option.getD_some]
    have hmem := List.mem_range'_1.mp (List.mem_of_find?_eq_some hf)
    refine ⟨hmem.1, fun _ => List.find?_some hf, ?_⟩
    intro k h₁ h₂ h₃
    rw [List.find?_range'_eq_some] at hf
    simpa using hf.2.2 k h₁ h₂

/-- Going on to a later image over images that need no download. -/
theorem Busy.skip {s s' : Session} (h : Busy env A fu₀.dev s) (hg : Grown A fu₀.dev s'.fu.dev)
    (hv : s'.verified = s.verified) {i : ℕ} {p : Option ℕ} {t : State} (hi : s.cxt.imageIndex ≤ i)
    (hs : ∀ j, s.cxt.imageIndex ≤ j → j < i → ∀ h, s.cxt.imageHdr[j]? = some h → s.cxt.downloadFlag j = true →
      h.imageLength = 0)
    (hc : s'.cxt = { s.cxt with imageIndex := i, partitionHdl := p, state := t }) : Busy env A fu₀.dev s' := by
  have hp := h.placing
  refine ⟨hg, ?_, ?_⟩
  · rw [hc]
    refine ⟨hp.trial, hp.isFirst, hp.total, hp.lengths, hp.sbl, hp.sblStart, hp.start_le, ?_, hp.flags, hp.buffer⟩
    have := @need_anti s.cxt.downloadFlag _ _ s.cxt.imageHdr hi
    have := hp.budget
    show s.cxt.trialMemStart + need s.cxt.downloadFlag i s.cxt.imageHdr ≤ _
    omega
  · intro j hj x hx hfl hlen
    rw [hc] at hj hx hfl
    rw [hv]
    by_cases hlt : j < s.cxt.imageIndex
    · obtain ⟨b, hb, hhash⟩ := h.verified j hlt x hx hfl hlen
      refine ⟨b, hb, ?_⟩
      rw [hhash, hc]
      rfl
    · exact absurd (hs j (by omega) hj x hx hfl) hlen

theorem prepareConnect_keeps (hL : Layout env.cfg fu₀ A) {s : Session} (hb : Busy env A fu₀.dev s)
    (hst : s.cxt.state = .prepareConnect) (hw : s.cxt.imageWrtLength = 0) : Keeps env A fu₀ (prepareConnect env s) := by
  obtain ⟨hle, hflag, hskip⟩ := nextDownload_spec s.cxt.downloadFlag s.cxt.imageIndex s.cxt.totalImages
  rw [prepareConnect, Cmd.bind_ok (Cmd.gets_apply _ _), if_neg (by simp [hb.placing.isFirst]),
    Cmd.bind_ok (Cmd.modify_apply _ _), Cmd.bind_ok (Cmd.gets_apply _ _)]
  set i := nextDownload s.cxt.downloadFlag s.cxt.imageIndex s.cxt.totalImages with hi
  generalize hs₁ : (s.setCxt fun c => { c with
    imageIndex := nextDownload c.downloadFlag c.imageIndex c.totalImages }) = s₁
  have hc₁ : s₁.cxt = { s.cxt with imageIndex := i } := by rw [← hs₁]; rfl
  have hskip' : ∀ j, s.cxt.imageIndex ≤ j → j < i → ∀ h, s.cxt.imageHdr[j]? = some h →
      s.cxt.downloadFlag j = true → h.imageLength = 0 := by
    intro j h₁ h₂ h hh hfl
    have hlt : j < s.cxt.totalImages := hb.placing.total ▸ (List.getElem?_eq_some_iff.mp hh).1
    rw [hskip j h₁ h₂ hlt] at hfl
    cases hfl
  have hb₁ : Busy env A fu₀.dev s₁ := by
    refine hb.skip (by rw [← hs₁]; exact hb.grown) (by rw [← hs₁]; rfl) hle hskip'
      (p := s.cxt.partitionHdl) (t := s.cxt.state) hc₁
  by_cases hempty : (s₁.cxt.hdrAt env s₁.cxt.imageIndex).imageId = fs1ImgId ∧
      (s₁.cxt.hdrAt env s₁.cxt.imageIndex).imageLength = 0
  · rw [if_pos hempty]
    have hns : (s₁.cxt.hdrAt env s₁.cxt.imageIndex).imageId ≠ sblImgId := by
      rw [hempty.1]
      decide
    rcases createFs1_cases hL hb₁.grown hb₁.placing.trial (s₁.cxt.hdrAt env s₁.cxt.imageIndex) hns with
      ⟨e, s₂, heq, hg⟩ | ⟨s₂, k, heq, hg, hv, hc, -, -⟩
    · rw [Cmd.bind_error heq]
      exact .inr ⟨hL, hg⟩
    rw [Cmd.bind_ok heq, Cmd.modify_apply]
    generalize hs₃ : (s₂.freePartitionHdl.setCxt fun c => { c with imageIndex := c.imageIndex + 1 }) = s₃
    have hc₃ : s₃.cxt = { s₁.cxt with imageIndex := s₁.cxt.imageIndex + 1, partitionHdl := none } := by
      simp only [← hs₃, Session.setCxt, Session.freePartitionHdl_cxt, hc]
    refine .between (.inl ?_) hL (hb₁.skip ?_ ?_ (Nat.le_succ _) ?_ (p := none) (t := s₁.cxt.state) hc₃) ?_
    · rw [hc₃, hc₁]
      exact hst
    · rw [← hs₃]
      simpa only [Session.setCxt, Session.freePartitionHdl_dev] using hg
    · rw [← hs₃]
      simpa only [Session.setCxt, Session.freePartitionHdl_verified] using hv
    · -- the image passed over has no bytes
      intro j h₁ h₂ h hh _
      have hj : j = s₁.cxt.imageIndex := by omega
      have := hempty.2
      rw [Cxt.hdrAt, List.getD_eq_getElem?_getD, ← hj, hh] at this
      exact this
    · rw [hc₃, hc₁]
      exact hw
  · rw [if_neg hempty, Cmd.modify_apply]
    have hbusy : ∀ t, Busy env A fu₀.dev (s₁.setState t) :=
      fun t => hb₁.keep hb₁.grown rfl (by constructor <;> rfl)
    have hw₁ : s₁.cxt.imageWrtLength = 0 := by
      rw [hc₁]
      exact hw
    by_cases ht : s₁.cxt.totalImages ≤ s₁.cxt.imageIndex
    · rw [if_pos ht]
      exact .copies rfl hL (hbusy _) ht
    · rw [if_neg ht]
      refine .image (.inl rfl) hL (hbusy _) ⟨by simpa [Session.setState, Session.setCxt] using ht, ?_⟩
        (fun h => absurd hw₁ h) (fun h => by cases h) (fun _ => hw₁)
      show s₁.cxt.downloadFlag s₁.cxt.imageIndex = true
      rw [hc₁] at ht ⊢
      exact hflag (by simpa using ht)

/-! ### The other states -/

theorem getTrialInfo_keeps (hA : A.SamePlaces (sessionArea env.cfg fu₀)) (hS : A.Sane) {s : Session}
    (h : s.Untouched fu₀) : Keeps env A fu₀ (getTrialInfo env s) := by
  have hdev := selectTrialFwd_dev env.cfg fu₀
  rw [getTrialInfo, Cmd.bind_apply, Cmd.orFail, onFu, Cmd.zoom, h.fu]
  rcases hr : fwUpgradeSelectTrialFwd env.cfg fu₀ with ⟨e | r, fu₁⟩ <;> rw [hr] at hdev
  · exact .inl hdev
  have hregion : trialRegion env.cfg fu₀ = r := by
    rw [trialRegion, hr]
  simp only
  rw [Cmd.bind_ok (Cmd.modify_apply _ _), Cmd.ensure_bind]
  generalize hs₁ : (({ s with fu := fu₁ } : Session).setCxt fun c => { c with
    trialFwdIdx := r.fwdIndex, trialMemStart := r.startAddress, trialMemSize := r.size }) = s₁
  have hd₁ : s₁.fu.dev = fu₀.dev := by
    rw [← hs₁]
    exact hdev
  by_cases hne : s₁.activeFwd ≠ s₁.cxt.trialFwdIdx
  swap
  · rw [if_neg hne]
    exact .inl hd₁
  rw [if_pos hne, Cmd.modify_apply]
  have hactive : s₁.activeFwd = A.active := by
    rw [Session.activeFwd, hd₁, hA.active]
    rfl
  have htrial : s₁.cxt.trialFwdIdx = A.trial := by
    rw [← hs₁, hA.trial, sessionArea, hregion]
    rfl
  rw [hactive, htrial] at hne
  refine .chosen rfl ⟨hA, by rw [hr, hregion], hS, hne⟩ hd₁ ?_ ?_
  · have hmem : s₁.cxt.trialMemStart = A.mem.start := by
      rw [← hs₁, hA.memStart, sessionArea, hregion]
      rfl
    refine ⟨htrial, hmem, ?_, ?_, ?_, ?_, ?_, ?_⟩ <;> rw [← hs₁]
    · exact h.isFirst
    · exact h.index
    · exact h.wrtLength
    · exact h.flags
    · show s.cxt.buffer.length ≤ _
      rw [h.buffer]
      exact Nat.zero_le _
    · refine ⟨fun b hb => ?_⟩
      have hnone : s.cxt.configBuf = some b := hb
      rw [h.configBuf] at hnone
      cases hnone
  · rw [← hs₁]
    exact h.verified

theorem eraseFwd_keeps (hL : Layout env.cfg fu₀ A) {s : Session} (hdev : s.fu.dev = fu₀.dev) (hf : Fresh A s.cxt)
    (hv : s.verified = []) : Keeps env A fu₀ (eraseFwd env s) := by
  rw [eraseFwd, Cmd.bind_ok (Cmd.gets_apply _ _), Cmd.bind_apply, Cmd.orFail, onFu, Cmd.zoom]
  rcases eraseFwd_cases s.cxt.trialFwdIdx s.fu with ⟨e, heq⟩ | ⟨hlt, heq⟩
  · rw [heq]
    exact .inl hdev
  rw [heq]
  refine .early ?_ hL ⟨?_, ?_, hv⟩
  · show (if env.cfg.noFs = true then State.prepareFs else .eraseSecondFs) ∈ _
    split <;> simp
  · show Grown A fu₀.dev (s.fu.dev.writes [.erase (s.cxt.trialFwdIdx * 4096)])
    rw [hf.trial] at hlt ⊢
    rw [hdev]
    exact grown_erase fu₀.dev hlt
  · exact ⟨hf.trial, hf.memStart, hf.isFirst, hf.index, hf.wrtLength, hf.flags, hf.buffer, ⟨hf.collected.pre⟩⟩

/-- Requests and packets that arrive change nothing that the invariant is about. -/
theorem Inv.keep {s s' : Session} (h : Inv env A fu₀ s) (hfu : s'.fu = s.fu) (hv : s'.verified = s.verified)
    {st : SessionStatus} (hc : s'.cxt = { s.cxt with sessionStatus := st }) : Inv env A fu₀ s' := by
  have hplan : SamePlan s.cxt s'.cxt := by
    rw [hc]
    constructor <;> rfl
  have hstate : s'.cxt.state = s.cxt.state := by rw [hc]
  have hwl : s'.cxt.imageWrtLength = s.cxt.imageWrtLength := by rw [hc]
  have hwc : s'.cxt.imageWrtCount = s.cxt.imageWrtCount := by rw [hc]
  have hbusy : Busy env A fu₀.dev s → Busy env A fu₀.dev s' := fun hb => hb.keep (hfu ▸ hb.grown) hv hplan
  cases h with
  | start hs hu =>
    refine .start (hstate ▸ hs) ⟨hfu.trans hu.fu, ?_, ?_, ?_, ?_, ?_, ?_, ?_, hv.trans hu.verified⟩ <;> rw [hc]
    exacts [hu.isFirst, hu.index, hu.wrtLength, hu.flags, hu.buffer, hu.configBuf, hu.closed]
  | chosen hs hL hdev hf hv' =>
    refine .chosen (hstate ▸ hs) hL (hfu ▸ hdev) ?_ (hv.trans hv')
    rw [hc]
    exact ⟨hf.trial, hf.memStart, hf.isFirst, hf.index, hf.wrtLength, hf.flags, hf.buffer, ⟨hf.collected.pre⟩⟩
  | early hs hL he =>
    refine .early (hstate ▸ hs) hL ⟨hfu ▸ he.grown, ?_, hv.trans he.verified⟩
    have hf := he.fresh
    rw [hc]
    exact ⟨hf.trial, hf.memStart, hf.isFirst, hf.index, hf.wrtLength, hf.flags, hf.buffer, ⟨hf.collected.pre⟩⟩
  | between hs hL hb hw => exact .between (hstate ▸ hs) hL (hbusy hb) (hwl.trans hw)
  | image hs hL hb hd ho hn hcs =>
    refine .image (hstate ▸ hs) hL (hbusy hb) (hd.keep hplan) ?_ (by rw [hstate, hplan.buffer]; exact hn)
      (by rw [hstate, hwl]; exact hcs)
    intro hne
    rw [hwl] at hne
    obtain ⟨hlt, k, hk⟩ := ho hne
    refine ⟨by rw [hwl, hwc]; exact hlt, k, hk.keep (by rw [hfu]) (by rw [hc]) hwl ?_ ?_⟩
    · rw [hwc]; exact hk.count
    · rw [hwc]; exact hk.size
  | copies hs hL hb ht =>
    exact .copies (hstate ▸ hs) hL (hbusy hb) (by rw [hplan.total, hplan.index]; exact ht)
  | placed hs hL hg htr hv' ht hf =>
    refine .placed (hstate ▸ hs) hL (hfu ▸ hg) (hplan.trial.trans htr) ?_ (by rw [hplan.total, hplan.index]; exact ht)
      (hplan.isFirst.trans hf)
    intro i hi x hx hfl hlen
    rw [hplan.index] at hi
    rw [hplan.hdrs] at hx
    rw [hplan.flag] at hfl
    obtain ⟨b, hb, hhash⟩ := hv' i hi x hx hfl hlen
    refine ⟨b, hv ▸ hb, ?_⟩
    rw [hhash, Cxt.hashPad, Cxt.hashPad, hplan.format]

theorem connectServer_cases (s : Session) : ∃ sc,
    (∃ e, connectServer s = (.error e, { s with script := sc, cxt := { s.cxt with fileReadCount := 0 } })) ∨
    connectServer s = (.ok (), { s with
      script := sc, cxt := { s.cxt with fileReadCount := 0, state := .receiveData } }) := by
  rw [connectServer, Cmd.bind_ok (Cmd.modify_apply _ _), Cmd.bind_apply, connect]
  rcases hc : s.script.connects with _ | ⟨_ | _, cs⟩
  · refine ⟨s.script, .inr ?_⟩
    simp only [Session.setCxt, hc, Cmd.modify_apply, Session.setState]
  · refine ⟨{ s.script with connects := cs }, .inl ⟨.plugin, ?_⟩⟩
    simp only [Session.setCxt, hc]
  · refine ⟨{ s.script with connects := cs }, .inr ?_⟩
    simp only [Session.setCxt, hc, Cmd.modify_apply, Session.setState]

theorem receiveData_cases (s : Session) : ∃ sc,
    (∃ r, receiveData s = (r, { s with script := sc })) ∨
    ∃ b, b ≠ [] ∧ b.length ≤ fwUpgradeBufSize ∧ receiveData s = (.ok true, { s with
      script := sc
      cxt := { s.cxt with
        buffer := b, bufOffset := 0
        state := if s.cxt.isFirst then .processConfigFile else .processImage } }) := by
  rw [receiveData]
  rcases hp : s.script.packets with _ | ⟨b | _, ps⟩
  · exact ⟨s.script, .inl ⟨_, rfl⟩⟩
  · refine ⟨{ s.script with packets := ps }, ?_⟩
    simp only
    by_cases hb : b.take fwUpgradeBufSize = []
    · rw [if_pos hb]
      exact .inl ⟨_, rfl⟩
    · rw [if_neg hb]
      exact .inr ⟨_, hb, List.length_take_le _ _, rfl⟩
  · exact ⟨{ s.script with packets := ps }, .inl ⟨_, rfl⟩⟩

theorem connectServer_keeps {s : Session} (h : Inv env A fu₀ s) (hst : s.cxt.state = .connectServer) :
    Keeps env A fu₀ (connectServer s) := by
  obtain ⟨sc, ⟨e, heq⟩ | heq⟩ := connectServer_cases s
  · rw [heq]
    exact h.logged
  rw [heq]
  cases h with
  | early hs hL he =>
    have hf := he.fresh
    exact .early (by simp) hL ⟨he.grown, ⟨hf.trial, hf.memStart, hf.isFirst, hf.index, hf.wrtLength, hf.flags,
      hf.buffer, ⟨hf.collected.pre⟩⟩, he.verified⟩
  | image hs hL hb hd ho hn =>
    refine .image (.inr (.inl rfl)) hL (hb.keep hb.grown rfl (by constructor <;> rfl)) ⟨hd.index, hd.flag⟩ ?_
      (fun hc => by cases hc) (fun hc => by cases hc)
    intro hne
    obtain ⟨hlt, k, hk⟩ := ho hne
    exact ⟨hlt, k, hk.keep rfl rfl rfl hk.count hk.size⟩
  | start hs => simp [hst] at hs
  | chosen hs => simp [hst] at hs
  | between hs => simp [hst] at hs
  | copies hs => simp [hst] at hs
  | placed hs => simp [hst] at hs

theorem receiveData_keeps {s : Session} (h : Inv env A fu₀ s) (hst : s.cxt.state = .receiveData) :
    Keeps env A fu₀ (receiveData s) := by
  obtain ⟨sc, ⟨r, heq⟩ | ⟨b, hne, hlen, heq⟩⟩ := receiveData_cases s
  · rw [heq]
    have h' : Inv env A fu₀ { s with script := sc } := h.keep rfl rfl (show _ = { s.cxt with sessionStatus := s.cxt.sessionStatus } from rfl)
    rcases r with e | go
    · exact h'.logged
    · exact h'
  rw [heq]
  cases h with
  | early hs hL he =>
    have hf := he.fresh
    refine .early ?_ hL ⟨he.grown, ⟨hf.trial, hf.memStart, hf.isFirst, hf.index, hf.wrtLength, hf.flags,
      hlen, ⟨hf.collected.pre⟩⟩, he.verified⟩
    simp [hf.isFirst]
  | image hs hL hb hd ho hn =>
    have hp := hb.placing
    refine .image (.inr (.inr ?_)) hL ⟨hb.grown, ?_, hb.verified⟩ ⟨hd.index, hd.flag⟩ ?_ (fun _ => hne) ?_
    · simp [hp.isFirst]
    · exact ⟨hp.trial, hp.isFirst, hp.total, hp.lengths, hp.sbl, hp.sblStart, hp.start_le, hp.budget, hp.flags, hlen⟩
    · intro hne
      obtain ⟨hlt, k, hk⟩ := ho hne
      exact ⟨hlt, k, hk.keep rfl rfl rfl hk.count hk.size⟩
    · simp [hp.isFirst]
  | start hs => simp [hst] at hs
  | chosen hs => simp [hst] at hs
  | between hs => simp [hst] at hs
  | copies hs => simp [hst] at hs
  | placed hs => simp [hst] at hs

/-! ### Every state, every run -/

/-- From a state before the header, a command that stays before it. -/
theorem keeps_early (hL : Layout env.cfg fu₀ A) {c : Cmd Session FuStatus Unit} {t : State} {s : Session}
    (hc : Cmd.Triple (Early A fu₀.dev) c (fun _ s => Early A fu₀.dev s ∧ s.cxt.state = t) (Failed A fu₀.dev))
    (ht : t ∈ [State.eraseSecondFs, .prepareFs, .prepareConnect, .connectServer, .receiveData, .processConfigFile])
    (he : Early A fu₀.dev s) : Keeps env A fu₀ (c s) :=
  hc.weaken (fun _ h => h) (fun _ _ h => .early (h.2 ▸ ht) hL h.1) (fun _ _ h => .inr ⟨hL, h⟩) s he

/-- Every state of the machine keeps the invariant. -/
theorem sessionSwitch_keeps (hA : A.SamePlaces (sessionArea env.cfg fu₀)) (hS : A.Sane) {s : Session} (h : Inv env A fu₀ s)
    (hok : s.HeaderOk env A) : Keeps env A fu₀ (sessionSwitch env s) := by
  have hall := h
  cases h with
  | start hs hu =>
    rcases hs with hs | hs <;> simp only [sessionSwitch, hs]
    · exact .start (.inr rfl) ⟨hu.fu, hu.isFirst, hu.index, hu.wrtLength, hu.flags, hu.buffer, hu.configBuf, hu.closed,
        hu.verified⟩
    · exact keeps_goOn (getTrialInfo_keeps hA hS hu)
  | chosen hs hL hdev hf hv =>
    simp only [sessionSwitch, hs]
    exact keeps_goOn (eraseFwd_keeps hL hdev hf hv)
  | early hs hL he =>
    simp only [List.mem_cons, List.not_mem_nil, or_false] at hs
    rcases hs with hs | hs | hs | hs | hs | hs <;> simp only [sessionSwitch, hs]
    · exact keeps_goOn (keeps_early hL (eraseSecondFs_early hL) (by simp) he)
    · exact keeps_goOn (keeps_early hL (prepareFs_early hL) (by simp) he)
    · refine keeps_goOn ?_
      rw [prepareConnect, Cmd.bind_ok (Cmd.gets_apply _ _), if_pos he.fresh.isFirst]
      exact .early (by simp [Session.setState, Session.setCxt]) hL (he.setState _)
    · exact keeps_goOn (connectServer_keeps hall hs)
    · exact receiveData_keeps hall hs
    · exact keeps_goOn (processConfigFile_keeps hL he hs hok)
  | between hs hL hb hw =>
    rcases hs with hs | hs <;> simp only [sessionSwitch, hs]
    · exact keeps_goOn (prepareConnect_keeps hL hb hs hw)
    · exact .between (.inl rfl) hL (hb.keep hb.grown rfl (by constructor <;> rfl)) hw
  | image hs hL hb hd ho hn =>
    rcases hs with hs | hs | hs <;> simp only [sessionSwitch, hs]
    · exact keeps_goOn (connectServer_keeps hall hs)
    · exact receiveData_keeps hall hs
    · exact keeps_goOn (processImage_keeps hL ⟨hb, hd, ho, hs, hn hs⟩)
  | copies hs hL hb ht =>
    simp only [sessionSwitch, hs]
    exact keeps_goOn (duplicateImages_keeps hL hb ht)
  | placed hs hL hg htr hv ht hf =>
    rcases hs with hs | hs <;> simp only [sessionSwitch, hs]
    · exact keeps_goOn (duplicateFs_keeps hL hg htr hv ht hf)
    · exact hall

theorem Session.poll_eq (s : Session) : ∃ sc st,
    s.poll = { s with script := sc, cxt := { s.cxt with sessionStatus := st } } := by
  rw [Session.poll]
  split
  · exact ⟨s.script, s.cxt.sessionStatus, rfl⟩
  · rename_i r rs _
    refine ⟨{ s.script with requests := rs }, ?_⟩
    split
    · rcases r with _ | _ | _
      · exact ⟨s.cxt.sessionStatus, rfl⟩
      · exact ⟨_, rfl⟩
      · exact ⟨_, rfl⟩
    · exact ⟨s.cxt.sessionStatus, rfl⟩

@[simp] theorem Session.poll_fu (s : Session) : s.poll.fu = s.fu := by
  obtain ⟨sc, st, h⟩ := s.poll_eq
  rw [h]

@[simp] theorem Session.fin_dev (s : Session) : s.fin.fu.dev = s.fu.dev := by
  simp only [Session.fin, Session.setCxt, Session.freePartitionHdl_dev]

@[simp] theorem Session.leave_dev (s : Session) (ret : Except FuStatus Unit) : (s.leave ret).fu.dev = s.fu.dev := by
  rw [Session.leave]
  split
  · exact s.freePartitionHdl_dev
  · exact s.fin_dev

theorem leave_done (s : Session) (r : Except FuStatus Unit) : ∃ r', (s.leave r).phase = .done r' := by
  rw [Session.leave]
  split
  · exact ⟨_, rfl⟩
  · exact ⟨_, rfl⟩

/-- How a session ends: with the writes it has made, or with the trial FWD made valid. -/
def Ended (env : Env) (A : Area) (fu₀ : Fu) (s : Session) : Prop :=
  Logged env A fu₀ s ∨ ∃ s₁, Inv env A fu₀ s₁ ∧ s₁.cxt.state = .finish ∧ s₁.cxt.sessionStatus ≠ .cancel ∧
    s.fu.dev = s₁.validate.fu.dev

/-- What holds of a session at any time. -/
def RunInv (env : Env) (A : Area) (fu₀ : Fu) (s : Session) : Prop :=
  match s.phase with
  | .process => Inv env A fu₀ s
  | .finalize (.ok _) => Inv env A fu₀ s
  | .finalize (.error _) => Logged env A fu₀ s
  | .done _ => Ended env A fu₀ s

theorem finalRet_ok {s : Session} {ret : Except FuStatus Unit} (h : s.finalRet ret = .ok ()) :
    s.cxt.sessionStatus ≠ .cancel ∧ s.cxt.state = .finish ∧ ret = .ok () := by
  unfold Session.finalRet at h
  split at h
  · cases h
  rename_i hst
  rcases ret with e | u
  · cases h
  · simp only at h
    split at h
    · cases h
    · rename_i hs
      exact ⟨hst, not_not.mp hs, rfl⟩

theorem finalize_ended {s : Session} {ret : Except FuStatus Unit} (h : Logged env A fu₀ s)
    (hi : ret = .ok () → Inv env A fu₀ s) : Ended env A fu₀ (s.finalize ret) ∧ ∃ r, (s.finalize ret).phase = .done r := by
  rw [Session.finalize]
  rcases hr : s.finalRet ret with e | u
  · refine ⟨.inl ?_, leave_done _ _⟩
    rw [Logged, Session.leave_dev, Session.poll_fu]
    exact h
  obtain ⟨hst, hfin, hok⟩ := finalRet_ok hr
  simp only
  split
  · exact ⟨.inr ⟨s, hi hok, hfin, hst, s.validate.fin_dev⟩, _, rfl⟩
  · refine ⟨.inr ⟨s, hi hok, hfin, hst, ?_⟩, leave_done _ _⟩
    rw [Session.leave_dev, Session.poll_fu]

theorem Inv.runInv {s : Session} (h : Inv env A fu₀ s) : RunInv env A fu₀ s := by
  rw [RunInv]
  split
  · exact h
  · exact h
  · exact h.logged
  · exact .inl h.logged

/-- One pass of the worker. -/
theorem step_inv (hA : A.SamePlaces (sessionArea env.cfg fu₀)) (hS : A.Sane) {s : Session} (h : RunInv env A fu₀ s)
    (hok : s.HeaderOk env A) : RunInv env A fu₀ (s.step env) := by
  obtain ⟨sc, st, hpoll⟩ := s.poll_eq
  have hfu : s.poll.fu = s.fu := s.poll_fu
  have hkeep : Inv env A fu₀ s → Inv env A fu₀ s.poll := fun hi =>
    hi.keep hfu (by rw [hpoll]) (show _ = { s.cxt with sessionStatus := st } by rw [hpoll])
  rw [Session.step]
  rw [RunInv] at h
  split
  · rename_i hph
    rw [hph] at h
    have hi := hkeep h
    simp only
    split
    · have hk := sessionSwitch_keeps hA hS hi (by rw [hpoll]; exact hok)
      rcases hr : sessionSwitch env s.poll with ⟨e | _ | _, s'⟩ <;> rw [hr] at hk
      · exact hk
      · exact Inv.runInv (Inv.keep hk rfl rfl (show _ = { s'.cxt with sessionStatus := s'.cxt.sessionStatus } from rfl))
      · exact Inv.runInv hk
    · exact Inv.runInv (hi.keep rfl rfl (show _ = { s.poll.cxt with sessionStatus := s.poll.cxt.sessionStatus } from rfl))
  · rename_i ret hph
    rw [hph] at h
    have hend : Ended env A fu₀ (s.poll.finalize ret) ∧ ∃ r, (s.poll.finalize ret).phase = .done r := by
      rcases ret with e | u
      · exact finalize_ended (by rw [Logged, hfu]; exact h) (fun hc => by cases hc)
      · exact finalize_ended (hkeep h).logged (fun _ => hkeep h)
    obtain ⟨hend, r, hr⟩ := hend
    rw [RunInv, hr]
    exact hend
  · rename_i ret hph
    rw [RunInv, hph]
    rw [hph] at h
    exact h

theorem start_inv (flags : ℕ) (script : Script) : RunInv env A fu₀ (Session.start fu₀ flags script) :=
  Inv.runInv (.start (.inl rfl) ⟨rfl, rfl, rfl, rfl, fun _ => rfl, rfl, rfl, rfl, rfl⟩)

/-- Every run in which the headers fit. -/
theorem run_inv (hA : A.SamePlaces (sessionArea env.cfg fu₀)) (hS : A.Sane) {s : Session} (h : RunInv env A fu₀ s)
    (hok : ∀ m, (Session.run env m s).HeaderOk env A) : ∀ n, RunInv env A fu₀ (Session.run env n s)
  | 0 => h
  | n + 1 => by
    rw [Session.run, Function.iterate_succ_apply']
    exact step_inv hA hS (run_inv hA hS h hok n) (hok n)

end

/-! ### What a session writes -/

/-- The APP image of the active FWD. -/
def activeApp (cfg : Config) (fu₀ : Fu) : Range :=
  partitionRange (fu₀.dev.mem.fwd (sessionArea cfg fu₀).active) appImgId

/-- The session has written only to the places of its area; the active FWD and its APP image are untouched. -/
structure Session.Confined (cfg : Config) (fu₀ : Fu) (s : Session) : Prop where
  flash : ∀ w ∈ s.fu.dev.log.drop fu₀.dev.log.length, ∀ x ∈ w.flashRange,
    ∃ q ∈ (sessionArea cfg fu₀).trialBlock :: (sessionArea cfg fu₀).data, x ∈ q
  rram : ∀ w ∈ s.fu.dev.log.drop fu₀.dev.log.length, ∀ x ∈ w.rramRange, x ∈ (sessionArea cfg fu₀).sbl
  fdt : s.fu.dev.mem.fdt = fu₀.dev.mem.fdt
  fwd : (sessionArea cfg fu₀).active < fwUpgradeMaxFwd → ∀ x ∈ (sessionArea cfg fu₀).activeBlock,
    s.fu.dev.mem.flash x = fu₀.dev.mem.flash x
  app : ∀ x ∈ activeApp cfg fu₀, s.fu.dev.mem.flash x = fu₀.dev.mem.flash x

/-- The APP image of the active FWD shares no byte with the places a session writes to. -/
def AppApart (cfg : Config) (fu₀ : Fu) : Prop :=
  ∀ q ∈ (sessionArea cfg fu₀).trialBlock :: (sessionArea cfg fu₀).data, q.Disj (activeApp cfg fu₀)

theorem confined_refl (cfg : Config) (fu₀ : Fu) {s : Session} (h : s.fu.dev = fu₀.dev) : s.Confined cfg fu₀ := by
  refine ⟨?_, ?_, by rw [h], fun _ _ _ => by rw [h], fun _ _ => by rw [h]⟩
  · rw [h, List.drop_length]
    simp
  · rw [h, List.drop_length]
    simp

theorem Area.Later.flash_mem {A : Area} {w : Write} (h : A.Later w) {x : ℕ} (hx : x ∈ w.flashRange) :
    ∃ q ∈ A.trialBlock :: A.data, x ∈ q := by
  obtain ⟨q, hq, hsub⟩ := h.flash
  have hxq := hsub x hx
  rcases List.mem_append.mp hq with hq | hq
  · exact ⟨q, List.mem_cons_of_mem _ hq, hxq⟩
  · refine ⟨A.trialBlock, List.mem_cons_self, ?_⟩
    simp only [Area.descr, List.mem_cons, List.not_mem_nil, or_false] at hq
    rw [Area.trialBlock, Range.mem_mk]
    generalize A.trial * 4096 = a at *
    rcases hq with rfl | rfl | rfl <;> rw [Range.mem_mk] at hxq <;> omega

theorem Layout.confined {cfg : Config} {fu₀ : Fu} {s : Session} (hL : Layout cfg fu₀ (sessionArea cfg fu₀))
    (happ : AppApart cfg fu₀) (h : Grown (sessionArea cfg fu₀) fu₀.dev s.fu.dev) : s.Confined cfg fu₀ := by
  obtain ⟨-, rest, hdev, hrest⟩ := id h
  have hlog : s.fu.dev.log.drop fu₀.dev.log.length = .erase ((sessionArea cfg fu₀).trial * 4096) :: rest := by
    rw [hdev, Dev.writes_log, List.drop_left]
  refine ⟨?_, ?_, h.fdt, ?_, ?_⟩
  · rw [hlog]
    intro w hw x hx
    rcases List.mem_cons.mp hw with rfl | hw
    · exact ⟨_, List.mem_cons_self, hx⟩
    · exact (hrest w hw).flash_mem hx
  · rw [hlog]
    intro w hw x hx
    rcases List.mem_cons.mp hw with rfl | hw
    · exact Range.empty_sub 0 _ x hx
    · exact (hrest w hw).rram x hx
  · intro hlt x hx
    refine h.flash_out ?_ fun q hq hxq => hL.sane.data_active hlt q hq x hxq hx
    have hne := hL.ne
    rw [Area.trialBlock, Range.mem_mk]
    rw [Area.activeBlock, Range.mem_mk] at hx
    omega
  · intro x hx
    exact h.flash_out (fun ht => happ _ List.mem_cons_self x ht hx)
      fun q hq hxq => happ q (List.mem_cons_of_mem _ hq) x hxq hx

/-! ### A small session -/

/-- A worker that is done stays done. -/
theorem run_done {env : Env} {s : Session} {n : ℕ} {r : Except FuStatus Unit}
    (h : (Session.run env n s).phase = .done r) : ∀ m, n ≤ m → Session.run env m s = Session.run env n s := by
  intro m hm
  induction m, hm using Nat.le_induction with
  | base => rfl
  | succ m hm ih =>
    rw [Session.run, Function.iterate_succ_apply']
    show (Session.run env m s).step env = _
    rw [ih, Session.step, h]

/-- A property of the first `n` passes holds in every pass, if the worker is then done. -/
theorem forall_of_done {env : Env} {s : Session} {n : ℕ} {r : Except FuStatus Unit} {P : Session → Prop}
    (h : (Session.run env n s).phase = .done r) (hP : ∀ m < n + 1, P (Session.run env m s)) (m : ℕ) :
    P (Session.run env m s) := by
  by_cases hm : m < n + 1
  · exact hP m hm
  · rw [run_done h m (by omega)]
    exact hP n (by omega)

/-- An all-in-one file with `smallApp` arrives in one packet. -/
def smallScript : Script := ⟨[.data (smallHeader ++ smallImage)], [], []⟩

/-- A session that upgrades the small device. -/
def smallRun (n : ℕ) : Session := Session.run smallAppEnv n (.start smallFu 0 smallScript)

theorem smallArea_eq : sessionArea smallAppEnv.cfg smallFu =
    ⟨0, 1, ⟨28672, 4096⟩, ⟨20480, 4096⟩, ⟨0, 0⟩, ⟨0x210000, 0x10000⟩⟩ := by decide +kernel

theorem smallArea_sane : (sessionArea smallAppEnv.cfg smallFu).Sane := by
  rw [smallArea_eq]
  refine ⟨by decide, by decide, ?_⟩
  intro _ q hq
  simp only [Area.data, List.mem_cons, List.not_mem_nil, or_false] at hq
  rcases hq with rfl | rfl | rfl
  · exact (Range.disj_of_le (by decide)).symm
  · exact (Range.disj_of_le (by decide)).symm
  · exact Range.disj_of_le (by decide)

theorem smallApp_apart : AppApart smallAppEnv.cfg smallFu := by
  have happ : activeApp smallAppEnv.cfg smallFu = ⟨12288, 4096⟩ := by decide +kernel
  intro q hq
  rw [smallArea_eq] at hq
  rw [happ]
  simp only [Area.data, Area.trialBlock, List.mem_cons, List.not_mem_nil, or_false] at hq
  rcases hq with rfl | rfl | rfl | rfl
  · exact Range.disj_of_le (by decide)
  · exact (Range.disj_of_le (by decide)).symm
  · exact (Range.disj_of_le (by decide)).symm
  · exact Range.disj_of_le (by decide)

theorem smallRun_headerOk (m : ℕ) : (smallRun m).HeaderOk smallAppEnv (sessionArea smallAppEnv.cfg smallFu) :=
  fun hst _ _ => forall_of_done (n := 13) (r := .ok ())
    (P := fun s => s.cxt.state = .processConfigFile → HeaderFits (sessionArea smallAppEnv.cfg smallFu) s.cxt.header)
    (by decide +kernel) (by decide +kernel) m hst

theorem smallRun_not_done (r : Except FuStatus Unit) : (smallRun 12).phase ≠ .done r := by
  have hph : (smallRun 12).phase = .finalize (.ok ()) := by decide +kernel
  rw [hph]
  simp

end Qcc730.Upgrade
