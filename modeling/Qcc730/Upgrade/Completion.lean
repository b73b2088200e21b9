import Qcc730.Upgrade.Books

/-! A session that has placed all images.

    A partial upgrade ends with copies: the images that did not change go from the active FWD to the trial
    memory, behind the downloaded ones. Then the trial FWD lists everything the header announces, and it stays
    so until the session makes it valid. -/

namespace Qcc730.Upgrade
open Lib Flash Sbl

/-! ### Copies -/

section

variable {A : Area} {src dst : ℕ}

/-- A block of a partition is erased and written. -/
theorem rewriteBlock_ok (hs : A.Sane) {fu fu₁ fu₂ : Fu} {x : ℕ} {d : Bytes} (hc : A.Holds (fu.handles dst))
    (hid : (fu.handles dst).imgId ≠ sblImgId) (hx : x ≤ (fu.handles dst).imgSize) (hd : d.length = 4096)
    (h₁ : fwUpgradeErasePartition dst x 4096 fu = (.ok (), fu₁))
    (h₂ : fwUpgradeWritePartition dst x d fu₁ = (.ok (), fu₂)) :
    fu₂.handles = fu.handles ∧ OnlyIn (fu.handles dst).place fu.dev.mem fu₂.dev.mem ∧
      x + 4096 ≤ (fu.handles dst).imgSize := by
  obtain ⟨-, q, hq, hlo, hhi⟩ := hc.flash hid
  have hq' := hs.data_lt q hq
  obtain ⟨hh₁, hm₁, hle⟩ := fuErase_ok hs hc (fun _ => by omega) h₁
  rw [← hh₁] at hc hid hx
  obtain ⟨hh₂, hm₂, hle'⟩ := fuWrite_ok hs hc hx (Nat.le_of_eq hd) (fun h => absurd h hid) h₂
  rw [hh₁] at hm₂ hle'
  refine ⟨hh₂.trans hh₁, (hm₁ ▸ eraseIn_onlyIn _ hle).trans (hm₂ ▸ writeIn_onlyIn _ hle'), ?_⟩
  rw [← hd]
  exact hle'

/-- An erase or a write of a partition that fails changes nothing. -/
theorem erasePartition_error {h o n : ℕ} {fu fu' : Fu} {e : FuStatus}
    (heq : fwUpgradeErasePartition h o n fu = (.error e, fu')) : fu' = fu := by
  rcases erasePartition_cases h o n fu with ⟨r, hr, -⟩ | ⟨-, -, -, -, -, -, -, hr⟩ <;> rw [hr] at heq <;> cases heq
  rfl

theorem writePartition_error {h o : ℕ} {b : Bytes} {fu fu' : Fu} {e : FuStatus}
    (heq : fwUpgradeWritePartition h o b fu = (.error e, fu')) : fu' = fu := by
  rcases writePartition_cases h o b fu with ⟨r, hr⟩ | ⟨-, ⟨-, -, hr⟩ | ⟨-, -, hr⟩⟩ <;> rw [hr] at heq <;> cases heq
  rfl

/-- The loop over the blocks of an image changes the new partition only, however it ends. -/
theorem copyBlocks_ok (hs : A.Sane) : ∀ (l : List ℕ) (o : ℕ) (buf b : Bytes) (fu fu' : Fu) (r : Option FuStatus),
    Consecutive o l → A.Holds (fu.handles dst) → (fu.handles dst).imgId ≠ sblImgId → o ≤ (fu.handles dst).imgSize →
    buf.length = 4096 → copyBlocks src dst l buf fu = ((r, b), fu') →
    b.length = 4096 ∧ fu'.handles = fu.handles ∧ OnlyIn (fu.handles dst).place fu.dev.mem fu'.dev.mem
  | [], o, buf, b, fu, fu', r, _, _, _, _, hb, heq => by
    cases heq
    exact ⟨hb, rfl, .refl _ _⟩
  | x :: l, o, buf, b, fu, fu', r, ⟨hx, hl⟩, hc, hid, ho, hb, heq => by
    subst hx
    rw [copyBlocks] at heq
    set d := ((fwUpgradeReadPartition src x 4096 fu).1.toOption).getD buf with hd
    have hdl : d.length = 4096 := by
      rcases hr : (fwUpgradeReadPartition src x 4096 fu).1 with e | b'
      · rw [hd, hr]
        exact hb
      · rw [hd, hr]
        exact readPartition_length hr
    clear_value d
    rcases h₁ : fwUpgradeErasePartition dst x 4096 fu with ⟨e | u, fu₁⟩ <;> simp only [h₁] at heq
    · cases heq
      rw [erasePartition_error h₁]
      exact ⟨hdl, rfl, .refl _ _⟩
    rcases h₂ : fwUpgradeWritePartition dst x d fu₁ with ⟨e | u, fu₂⟩ <;> simp only [h₂] at heq
    · cases heq
      obtain ⟨hh₁, hm₁, hle⟩ := fuErase_ok hs hc (fun _ => by
        obtain ⟨-, q, hq, hlo, hhi⟩ := hc.flash hid
        have hq' := hs.data_lt q hq
        omega) h₁
      rw [writePartition_error h₂]
      exact ⟨hdl, hh₁, hm₁ ▸ eraseIn_onlyIn _ hle⟩
    obtain ⟨hh₂, hm₂, hnext⟩ := rewriteBlock_ok hs hc hid ho hdl h₁ h₂
    rw [← hh₂] at hc hid hnext
    obtain ⟨hbl, hh, hm⟩ := copyBlocks_ok hs l (x + 4096) d b fu₂ fu' r hl hc hid hnext hdl heq
    rw [hh₂] at hm
    exact ⟨hbl, hh.trans hh₂, hm₂.trans hm⟩

/-- The loop over the blocks of the file system changes FS2 only. -/
theorem copyFs_ok (hs : A.Sane) : ∀ (l : List ℕ) (o : ℕ) (fu fu' : Fu), Consecutive o l →
    A.Holds (fu.handles dst) → (fu.handles dst).imgId ≠ sblImgId → o ≤ (fu.handles dst).imgSize →
    copyFs src dst l fu = (.ok (), fu') →
    fu'.handles = fu.handles ∧ OnlyIn (fu.handles dst).place fu.dev.mem fu'.dev.mem
  | [], o, fu, fu', _, _, _, _, heq => by
    cases heq
    exact ⟨rfl, .refl _ _⟩
  | x :: l, o, fu, fu', ⟨hx, hl⟩, hc, hid, ho, heq => by
    subst hx
    rw [copyFs, Cmd.bind_apply, Cmd.orFail] at heq
    have hst := readPartition_state src x 4096 fu
    rcases hr : fwUpgradeReadPartition src x 4096 fu with ⟨e | d, fu₀⟩ <;> rw [hr] at hst heq
    · cases heq
    have hdl : d.length = 4096 := readPartition_length (s := fu) (by rw [hr])
    subst hst
    simp only [Cmd.bind_apply, Cmd.orFail] at heq
    rcases h₁ : fwUpgradeErasePartition dst x 4096 fu₀ with ⟨e | u, fu₁⟩ <;> simp only [h₁] at heq
    · cases heq
    rcases h₂ : fwUpgradeWritePartition dst x d fu₁ with ⟨e | u, fu₂⟩ <;> simp only [h₂] at heq
    · cases heq
    obtain ⟨hh₂, hm₂, hnext⟩ := rewriteBlock_ok hs hc hid ho hdl h₁ h₂
    rw [← hh₂] at hc hid hnext
    obtain ⟨hh, hm⟩ := copyFs_ok hs l (x + 4096) fu₂ fu' hl hc hid hnext heq
    rw [hh₂] at hm
    exact ⟨hh.trans hh₂, hm₂.trans hm⟩

end

/-- The entries that the copies of the images in `l` make. -/
structure Copied (flag : ℕ → Bool) (l : List (ℕ × ImageHdr)) (copies : List ImageEntry) : Prop where
  only : ∀ e ∈ copies, ∃ p ∈ l, flag p.1 = false ∧ p.2.Counted ∧ e.imageId = u32 p.2.imageId
  all : ∀ p ∈ l, flag p.1 = false → p.2.Counted → ∃ e ∈ copies, e.imageId = u32 p.2.imageId
  count : copies.length = l.countP fun p => flag p.1 = false ∧ p.2.Counted

theorem copied_nil (flag : ℕ → Bool) : Copied flag [] [] := ⟨by simp, by simp, rfl⟩

theorem Copied.skip {flag : ℕ → Bool} {l : List (ℕ × ImageHdr)} {copies : List ImageEntry} (h : Copied flag l copies)
    {p : ℕ × ImageHdr} (hp : ¬(flag p.1 = false ∧ p.2.Counted)) : Copied flag (p :: l) copies := by
  refine ⟨fun e he => ?_, fun q hq hf hc => ?_, ?_⟩
  · obtain ⟨q, hq, hrest⟩ := h.only e he
    exact ⟨q, List.mem_cons_of_mem _ hq, hrest⟩
  · rcases List.mem_cons.mp hq with rfl | hq
    · exact absurd ⟨hf, hc⟩ hp
    · exact h.all q hq hf hc
  · rw [List.countP_cons_of_neg (by simpa using hp)]
    exact h.count

theorem Copied.add {flag : ℕ → Bool} {l : List (ℕ × ImageHdr)} {copies : List ImageEntry} (h : Copied flag l copies)
    {p : ℕ × ImageHdr} (hp : flag p.1 = false ∧ p.2.Counted) {e : ImageEntry} (he : e.imageId = u32 p.2.imageId) :
    Copied flag (p :: l) (e :: copies) := by
  refine ⟨fun d hd => ?_, fun q hq hf hc => ?_, ?_⟩
  · rcases List.mem_cons.mp hd with rfl | hd
    · exact ⟨p, List.mem_cons_self, hp.1, hp.2, he⟩
    · obtain ⟨q, hq, hrest⟩ := h.only d hd
      exact ⟨q, List.mem_cons_of_mem _ hq, hrest⟩
  · rcases List.mem_cons.mp hq with rfl | hq
    · exact ⟨e, List.mem_cons_self, he⟩
    · obtain ⟨d, hd, hid⟩ := h.all q hq hf hc
      exact ⟨d, List.mem_cons_of_mem _ hd, hid⟩
  · rw [List.countP_cons_of_pos (by simpa using hp), List.length_cons, h.count]

section

variable {env : Env} {fu₀ : Fu} {A : Area} {s s' : Session} {sig : Front} {hid : List ImageEntry} {items : List Item}

theorem Ledger.grow {cfg : Config} {p : Plan} {v : List (ℕ × Bytes)} {m : Mem} (h : Ledger cfg A p v m items) {n : ℕ}
    (hn : p.memStart ≤ n) : Ledger cfg A { p with memStart := n } v m items :=
  ⟨h.inOrder, h.increasing, h.complete, h.flagged, h.below, h.known,
    fun it hit => ⟨(h.start it hit).1, (h.start it hit).2.trans hn⟩, h.length, h.fits, h.verified, h.stored⟩

/-- A failed copy is not forgotten. -/
theorem duplicateLoop_none : ∀ (l : List (ℕ × ImageHdr)) (err : Option FuStatus) (buf : Bytes) (s s' : Session),
    duplicateLoop l err buf s = (none, s') → err = none
  | [], err, buf, s, s', h => (Prod.mk.inj h).1
  | (i, x) :: rest, err, buf, s, s', h => by
    rw [duplicateLoop] at h
    split at h
    swap
    · exact duplicateLoop_none rest err buf s s' h
    split at h
    · cases h
    split at h
    · cases h
    · have := duplicateLoop_none rest _ _ _ s' h
      rcases err with _ | e
      · rfl
      · simp at this

/-- One image that did not change: its partition is created and filled. -/
theorem copyImage_ok (hL : Layout env.cfg fu₀ A) (ho : A.OffFwds) {fu₁ fu₂ fu₃ : Fu} {h : ImageHdr} {p : Plan}
    {v : List (ℕ × Bytes)} {es : List ImageEntry} {src dst : ℕ} {buf b : Bytes} (hb : buf.length = 4096)
    (hg : Grown A fu₀.dev fu₁.dev) (hlo : A.mem.start ≤ p.memStart)
    (hhi : p.memStart + h.diskSize ≤ A.mem.start + A.mem.size) (hns : h.imageId ≠ sblImgId)
    (hu : u32 h.imageId ≠ fwdImageUnused) (hled : Ledger env.cfg A p v fu₁.dev.mem items)
    (hls : Lists (fu₁.dev.mem.fwd A.trial) sig es)
    (hcr : fwUpgradeCreatePartition A.trial h.imageId h.version p.memStart h.diskSize fu₁ = (.ok dst, fu₂))
    (hcopy : copyBlocks src dst (blockOffsets h.diskSize) buf fu₂ = ((none, b), fu₃)) :
    b.length = 4096 ∧ Grown A fu₀.dev fu₃.dev ∧
      Ledger env.cfg A { p with memStart := p.memStart + h.diskSize } v fu₃.dev.mem items ∧
      Lists (fu₃.dev.mem.fwd A.trial) sig
        (es ++ [truncEntry (newEntry h.imageId h.version p.memStart h.diskSize)]) := by
  obtain ⟨hls₂, hcr₂, htab, hal⟩ := fuCreate_ok (p := ⟨h.imageId, p.memStart, h.diskSize⟩) hls hu hcr
  have hplace : (fu₂.handles dst).place = ⟨h.imageId, p.memStart, h.diskSize⟩ := by
    rw [hcr₂.handle, createdClient_place]
  have hns₂ : (fu₂.handles dst).imgId ≠ sblImgId := by
    rw [hcr₂.handle]
    exact hns
  have hold : A.Holds (fu₂.handles dst) := by
    refine ⟨fun _ => ?_, fun h => absurd h hns₂⟩
    rw [hcr₂.handle]
    exact ⟨hal hns, A.mem, A.mem_data, hlo, hhi⟩
  have hoffs := consecutive_blockOffsets h.diskSize
  obtain ⟨hbl, -, hin⟩ := copyBlocks_ok hL.sane _ 0 _ _ _ _ _ hoffs hold hns₂ (Nat.zero_le _) hb hcopy
  rw [hplace] at hin
  refine ⟨hbl, ?_, ?_, ?_⟩
  · have hg₂ : Grown A fu₀.dev fu₂.dev := by
      rcases createPartition_cases A.trial h.imageId h.version p.memStart h.diskSize fu₁ with
        ⟨e, he⟩ | ⟨k, -, -, -, -, hfree, he⟩ <;> rw [hcr] at he <;> cases he
      exact Grown.writes (d := fu₁.dev) hg (entryWrites_later A hfree _)
    obtain ⟨r, b', ws, hc, -, hw⟩ := copyBlocks_later hL.sane src dst _ 0 buf fu₂ hoffs hold hns₂ (Nat.zero_le _) hb
    rw [hcopy] at hc
    cases hc
    exact hg₂.writes hw
  · have h₁ := hled.table ho hg.1 (Nat.le_trans (Nat.le_add_right _ _) hhi) htab
    exact (h₁.above ho hg.1 hlo hns rfl hhi hin.image).grow (Nat.le_add_right _ _)
  · refine hls₂.low hg.1 fun x hx => hin.low (fun hne => ?_) hx
    rw [← hplace] at hne ⊢
    exact hold.off ho hne

/-- The images that did not change are placed behind the others. -/
theorem duplicateLoop_ok (hL : Layout env.cfg fu₀ A) (ho : A.OffFwds) : ∀ (l : List (ℕ × ImageHdr)) (buf : Bytes)
    (s s' : Session) (es : List ImageEntry), buf.length = 4096 → Grown A fu₀.dev s.fu.dev → s.cxt.trialFwdIdx = A.trial →
    A.mem.start ≤ s.cxt.trialMemStart →
    s.cxt.trialMemStart + copyNeed s.cxt.downloadFlag l ≤ A.mem.start + A.mem.size →
    (∀ p ∈ l, u32 p.2.imageId ≠ fwdImageUnused) →
    Ledger env.cfg A (s.cxt.plan env) s.verified s.fu.dev.mem items → Lists (s.fu.dev.mem.fwd A.trial) sig es →
    duplicateLoop l none buf s = (none, s') →
    ∃ copies n, Ledger env.cfg A (s'.cxt.plan env) s'.verified s'.fu.dev.mem items ∧
      Lists (s'.fu.dev.mem.fwd A.trial) sig (es ++ copies) ∧ Copied s.cxt.downloadFlag l copies ∧
      s'.cxt = { s.cxt with trialMemStart := n } ∧ s'.verified = s.verified ∧ n ≤ A.mem.start + A.mem.size
  | [], buf, s, s', es, _, _, _, _, hhi, _, hled, hls, heq => by
    cases heq
    exact ⟨[], s.cxt.trialMemStart, hled, by rw [List.append_nil]; exact hls, copied_nil _, rfl, rfl,
      Nat.le_trans (Nat.le_add_right _ _) hhi⟩
  | (i, h) :: rest, buf, s, s', es, hb, hg, ht, hlo, hhi, hu, hled, hls, heq => by
    rw [copyNeed, List.map_cons, List.sum_cons] at hhi
    rw [duplicateLoop] at heq
    have hu' : ∀ p ∈ rest, u32 p.2.imageId ≠ fwdImageUnused := fun p hp => hu p (List.mem_cons_of_mem _ hp)
    by_cases hc : s.cxt.downloadFlag i = false ∧ h.Counted
    swap
    · rw [if_neg hc] at heq
      rw [if_neg hc, Nat.zero_add] at hhi
      obtain ⟨copies, n, h₁, h₂, h₃, h₄⟩ := duplicateLoop_ok hL ho rest buf s s' es hb hg ht hlo hhi hu' hled hls heq
      exact ⟨copies, n, h₁, h₂, h₃.skip hc, h₄⟩
    rw [if_pos hc] at heq
    simp only [if_pos hc] at hhi
    rcases findPartition_cases s.activeFwd h.imageId s.fu with ⟨e, hfind⟩ | ⟨src, j, en, -, -, -, -, hfind⟩ <;>
      simp only [hfind] at heq
    · cases heq
    rcases hcr : fwUpgradeCreatePartition s.cxt.trialFwdIdx h.imageId h.version s.cxt.trialMemStart h.diskSize
      (s.fu.setHandle src (clientOf s.activeFwd j en)) with ⟨e | dst, fu₂⟩ <;> simp only [hcr] at heq
    · cases heq
    rw [ht] at hcr
    rcases hcopy : copyBlocks src dst (blockOffsets h.diskSize) buf fu₂ with ⟨⟨err, b⟩, fu₃⟩
    simp only [hcopy] at heq
    have herr : err = none := by
      have := duplicateLoop_none _ _ _ _ _ heq
      rcases err with _ | e
      · rfl
      · simp at this
    subst herr
    have hg₁ : Grown A fu₀.dev (s.fu.setHandle src (clientOf s.activeFwd j en)).dev := hg
    obtain ⟨hbl, hg₃, hled₃, hls₃⟩ := copyImage_ok hL ho (p := s.cxt.plan env) hb hg₁ hlo
      (show s.cxt.trialMemStart + h.diskSize ≤ _ by omega) hc.2.2.2 (hu _ List.mem_cons_self) hled hls hcr hcopy
    have hmem := hL.sane.data_lt A.mem A.mem_data
    have hroom : u32 (s.cxt.trialMemStart + h.diskSize) = s.cxt.trialMemStart + h.diskSize := u32_of_lt (by omega)
    simp only [Session.setCxt, hroom] at heq
    generalize hs₁ : ({ s with
        fu := (fu₃.freeHandle src).freeHandle dst
        cxt := { s.cxt with trialMemStart := s.cxt.trialMemStart + h.diskSize } } : Session) = s₁ at heq
    obtain ⟨copies, n, h₁, h₂, h₃, h₄, h₅, h₆⟩ := duplicateLoop_ok hL ho rest b s₁ s' _ hbl (by rw [← hs₁]; exact hg₃)
      (by rw [← hs₁]; exact ht) (by rw [← hs₁]; exact Nat.le_trans hlo (Nat.le_add_right _ _))
      (by rw [← hs₁]; rw [← Nat.add_assoc] at hhi; exact hhi) hu' (by rw [← hs₁]; exact hled₃) (by rw [← hs₁]; exact hls₃) heq
    refine ⟨truncEntry (newEntry h.imageId h.version s.cxt.trialMemStart h.diskSize) :: copies, n, h₁, ?_, ?_, ?_, ?_, h₆⟩
    · rw [List.append_cons]
      exact h₂
    · rw [← hs₁] at h₃
      refine h₃.add (p := (i, h)) hc ?_
      rw [truncEntry]
      show u32 (newEntry _ _ _ _).imageId = _
      rw [newEntry_imageId]
    · rw [h₄, ← hs₁]
    · rw [h₅, ← hs₁]

/-- All images are in place: the downloaded ones, then the copies. -/
structure Placed (env : Env) (A : Area) (sig : Front) (hid : List ImageEntry) (items : List Item) (copies : List ImageEntry)
    (s : Session) : Prop where
  ledger : Ledger env.cfg A (s.cxt.plan env) s.verified s.fu.dev.mem items
  lists : Lists (s.fu.dev.mem.fwd A.trial) sig (hid ++ items.map ((s.cxt.plan env).entry A) ++ copies)
  copied : Copied s.cxt.downloadFlag ((List.range s.cxt.totalImages).map fun i => (i, s.cxt.hdrAt env i)) copies
  room : s.cxt.trialMemStart ≤ A.mem.start + A.mem.size

theorem Placed.keep {copies : List ImageEntry} (h : Placed env A sig hid items copies s) (hdev : s'.fu.dev = s.fu.dev)
    (hv : s'.verified = s.verified) {t : State} {st : SessionStatus} (hc : s'.cxt = { s.cxt with
      state := t, sessionStatus := st }) : Placed env A sig hid items copies s' := by
  refine ⟨?_, ?_, ?_, ?_⟩
  · rw [hdev, hv, hc]
    exact h.ledger
  · rw [hdev, hc]
    exact h.lists
  · rw [hc]
    exact h.copied
  · rw [hc]
    exact h.room

theorem duplicateImages_placed (hL : Layout env.cfg fu₀ A) (ho : A.OffFwds) (hu : s.cxt.head.Used)
    (hb : Busy env A fu₀.dev s) (h : Idle env A sig hid items s) (heq : duplicateImages env s = (.ok (), s')) :
    s'.cxt.head = s.cxt.head ∧ s'.cxt.state = .duplicateFs ∧ ∃ copies, Placed env A sig hid items copies s' := by
  have hneed := copyNeed_le s.cxt env hb.placing.total
  have hbud := hb.placing.budget
  rw [duplicateImages] at heq
  rcases hd : duplicateLoop ((List.range s.cxt.totalImages).map fun i => (i, s.cxt.hdrAt env i)) none
    ((List.range 4096).map env.heap) s with ⟨_ | e, s₁⟩ <;> simp only [hd] at heq
  swap
  · cases heq
  cases heq
  have hused : ∀ p ∈ (List.range s.cxt.totalImages).map fun i => (i, s.cxt.hdrAt env i),
      u32 p.2.imageId ≠ fwdImageUnused := by
    intro p hp
    obtain ⟨i, hi, rfl⟩ := List.mem_map.mp hp
    refine hu _ ?_
    have hlt : i < s.cxt.imageHdr.length := hb.placing.total ▸ List.mem_range.mp hi
    show s.cxt.imageHdr.getD i _ ∈ s.cxt.imageHdr
    rw [List.getD_eq_getElem _ _ hlt]
    exact List.getElem_mem hlt
  obtain ⟨copies, n, h₁, h₂, h₃, h₄, h₅, h₆⟩ := duplicateLoop_ok hL ho _ _ _ _ _
    (by rw [List.length_map, List.length_range]) hb.grown hb.placing.trial hb.placing.start_le (by omega) hused
    h.ledger h.lists hd
  refine ⟨?_, rfl, copies, ?_⟩
  · simp only [Session.setState, Session.setCxt, h₄]
    rfl
  · simp only [h₄] at h₁
    refine ⟨?_, ?_, ?_, ?_⟩ <;> simp only [Session.setState, Session.setCxt, h₄]
    · exact h₁
    · exact h₂
    · exact h₃
    · exact h₆

/-- The active FS1 is copied over the active FS2, if the session was asked to. -/
theorem duplicateFs_ok (hL : Layout env.cfg fu₀ A) (hg : Grown A fu₀.dev s.fu.dev) (heq : duplicateFs s = (.ok (), s')) :
    s'.cxt = { s.cxt with state := .finish } ∧ s'.verified = s.verified ∧
      (s'.fu = s.fu ∨ s.cxt.flags / flagDuplicateActiveFs % 2 = 1 ∧ ∃ c : Client, A.Holds c ∧ c.imgId ≠ sblImgId ∧
        c.imgStart = A.fs2.start ∧ c.imgSize = A.fs2.size ∧ OnlyIn c.place s.fu.dev.mem s'.fu.dev.mem) := by
  rw [duplicateFs, Cmd.bind_apply, Cmd.when] at heq
  by_cases hf : s.cxt.flags / flagDuplicateActiveFs % 2 = 1
  swap
  · rw [if_neg hf] at heq
    cases heq
    exact ⟨rfl, rfl, .inl rfl⟩
  rw [if_pos hf, Cmd.bind_ok (Cmd.gets_apply _ _), onFu, Cmd.zoom, fwUpgradeProcessDuplicateFs] at heq
  rcases findPartition_cases s.activeFwd fs1ImgId s.fu with ⟨e, h₁⟩ | ⟨k₁, i₁, e₁, -, -, -, -, h₁⟩ <;>
    simp only [h₁] at heq
  · cases heq
  set fu₁ := s.fu.setHandle k₁ (clientOf s.activeFwd i₁ e₁) with hfu₁
  rcases findPartition_cases s.activeFwd fs2ImgId fu₁ with ⟨e, h₂⟩ | ⟨k₂, i₂, e₂, hlt, -, -, hfe, h₂⟩ <;>
    simp only [h₂] at heq
  · cases heq
  set fu₂ := fu₁.setHandle k₂ (clientOf s.activeFwd i₂ e₂) with hfu₂
  have hc : fu₂.handles k₂ = clientOf s.activeFwd i₂ e₂ := Fu.setHandle_same _ _ _
  obtain ⟨hold, -⟩ := hL.holds_found hg (.inl rfl) hlt hfe s.activeFwd
  obtain ⟨hst, hsz⟩ := hL.fs2_place hg hlt hfe s.activeFwd
  rw [← hc] at hold hst hsz
  have hns : (fu₂.handles k₂).imgId ≠ sblImgId := by
    rw [hc]
    show e₂.imageId ≠ sblImgId
    rw [(findEntry_id hfe).1]
    decide
  rcases hcopy : copyFs k₁ k₂ (blockOffsets (fu₂.handles k₁).imgSize) fu₂ with ⟨e | u, fu₃⟩ <;> rw [hcopy] at heq
  · cases heq
  cases heq
  obtain ⟨-, hin⟩ := copyFs_ok hL.sane _ 0 _ _ (consecutive_blockOffsets _) hold hns (Nat.zero_le _) hcopy
  exact ⟨rfl, rfl, .inr ⟨hf, _, hold, hns, hst, hsz, hin⟩⟩

/-- The ledger still holds then. -/
theorem duplicateFs_placed (hL : Layout env.cfg fu₀ A) (ho : A.OffFwds) (hg : Grown A fu₀.dev s.fu.dev)
    {copies : List ImageEntry} (h : Placed env A sig hid items copies s) (heq : duplicateFs s = (.ok (), s')) :
    s'.cxt = { s.cxt with state := .finish } ∧ Placed env A sig hid items copies s' := by
  obtain ⟨hc, hv, hfu | ⟨hf, c, hold, hns, hst, hsz, hin⟩⟩ := duplicateFs_ok hL hg heq
  · exact ⟨hc, h.keep (by rw [hfu]) hv hc⟩
  refine ⟨hc, ⟨?_, ?_, ?_, ?_⟩⟩ <;> rw [hc]
  · rw [hv]
    refine h.ledger.frame ?_ ?_ ?_
    · intro hd x hx hx'
      refine hin.flash x (.inr ?_)
      show x ∉ (⟨c.imgStart, c.imgSize⟩ : Range)
      rw [hst, hsz]
      have hroom := h.room
      exact hd x (Range.mem_def.mpr (by have : x < s.cxt.trialMemStart := hx'; omega))
    · intro i _ hfs hk
      exact absurd hf (hk.2.1 hfs)
    · intro _ _ _ _ x
      exact hin.rram x (.inl hns)
  · exact h.lists.low hg.1 fun x hx => hin.low (fun _ => hold.off ho hns) hx
  · exact h.copied
  · exact h.room

end

/-! ### Every state, every run -/

/-- Every image of the header can be told from an unused entry. -/
def HeaderUsed (b : Bytes) : Prop :=
  ∀ h ∈ imageHdrs b (ImageSetHdr.decode b).numImages, h.imageId ≠ fwdImageUnused

instance (b : Bytes) : Decidable (HeaderUsed b) := inferInstanceAs (Decidable (∀ h ∈ _, _))

theorem Announced.used {cfg : Config} {m₀ : Mem} {A : Area} {b : Bytes} {hid : List ImageEntry} {H : Head}
    (h : Announced cfg m₀ A b hid H) (hu : HeaderUsed b) : H.Used := by
  intro x hx
  rw [h.hdrs] at hx
  obtain ⟨y, hy, rfl⟩ := List.mem_map.mp hx
  rw [ImageHdr.adjust_imageId, u32_of_lt]
  · exact hu y hy
  · obtain ⟨i, -, rfl⟩ := List.mem_map.mp hy
    exact wordAt_lt _ _

/-- What the trial FWD and the partitions hold, by the state of the session. The header has `P`. -/
structure Booked (env : Env) (fu₀ : Fu) (A : Area) (P : ℕ → Bytes → Prop) (s : Session) : Prop where
  before : s.cxt.isFirst = true → s.cxt.state ∈ [State.notStart, .getTrialInfo, .eraseFwd] →
    s.cxt.hiddenImagesCount = 0
  early : s.cxt.isFirst = true → s.cxt.state ∈ [State.eraseSecondFs, .prepareFs, .prepareConnect, .connectServer,
    .receiveData, .processConfigFile] → ∃ hid, EarlyBook env.cfg A (s.cxt.state ≠ .eraseSecondFs) hid s.fu.dev.mem ∧
      Hides env.cfg (fu₀.dev.mem.fwd A.active) hid s.cxt
  busy : s.cxt.isFirst = false → s.cxt.state ∉ [State.duplicateFs, .finish] → ∃ b hid, P s.cxt.head.hidden b ∧
    Announced env.cfg fu₀.dev.mem A b hid s.cxt.head ∧
    Accounted env A s.cxt.head ((ImageSetHdr.decode b).front s.cxt.head.hidden) hid s
  placed : s.cxt.state ∈ [State.duplicateFs, .finish] → ∃ b hid items copies, P s.cxt.head.hidden b ∧
    Announced env.cfg fu₀.dev.mem A b hid s.cxt.head ∧
    Placed env A ((ImageSetHdr.decode b).front s.cxt.head.hidden) hid items copies s

section

variable {env : Env} {fu₀ : Fu} {A : Area} {P : ℕ → Bytes → Prop} {s s' : Session} {hid : List ImageEntry} {b : Bytes}

theorem booked_before (hf : s.cxt.isFirst = true) (hs : s.cxt.state ∈ [State.notStart, .getTrialInfo, .eraseFwd])
    (hz : s.cxt.hiddenImagesCount = 0) : Booked env fu₀ A P s := by
  refine ⟨fun _ _ => hz, fun _ hc => ?_, fun hc => ?_, fun hc => ?_⟩
  · simp only [List.mem_cons, List.not_mem_nil, or_false] at hs
    rcases hs with hs | hs | hs <;> simp [hs] at hc
  · rw [hf] at hc
    cases hc
  · simp only [List.mem_cons, List.not_mem_nil, or_false] at hs
    rcases hs with hs | hs | hs <;> simp [hs] at hc

theorem EarlyBook.booked {wiped : Prop} (h : EarlyBook env.cfg A wiped hid s.fu.dev.mem) (hf : s.cxt.isFirst = true)
    (hh : Hides env.cfg (fu₀.dev.mem.fwd A.active) hid s.cxt) (hw : s.cxt.state ≠ .eraseSecondFs → wiped)
    (hs : s.cxt.state ∉ [State.notStart, .getTrialInfo, .eraseFwd, .duplicateFs, .finish]) : Booked env fu₀ A P s := by
  simp only [List.mem_cons, List.not_mem_nil, or_false, not_or] at hs
  refine ⟨fun _ hc => ?_, fun _ _ => ⟨hid, ⟨h.lists, h.hidden, fun hn hne => h.blank hn (hw hne)⟩, hh⟩, fun hc => ?_,
    fun hc => ?_⟩
  · simp [hs] at hc
  · rw [hf] at hc
    cases hc
  · simp [hs] at hc

theorem Placed.booked {items : List Item} {copies : List ImageEntry}
    (h : Placed env A ((ImageSetHdr.decode b).front s.cxt.head.hidden) hid items copies s) (hp : P s.cxt.head.hidden b)
    (ha : Announced env.cfg fu₀.dev.mem A b hid s.cxt.head) (hs : s.cxt.state ∈ [State.duplicateFs, .finish]) :
    Booked env fu₀ A P s := by
  refine ⟨fun _ hc => ?_, fun _ hc => ?_, fun _ hc => absurd hs hc, fun _ => ⟨b, hid, items, copies, hp, ha, h⟩⟩
  all_goals
    simp only [List.mem_cons, List.not_mem_nil, or_false] at hs
    rcases hs with hs | hs <;> simp [hs] at hc

/-- Also when the last image of an all-in-one file was just placed: there is nothing to copy. -/
theorem Accounted.booked {H : Head} (h : Accounted env A H ((ImageSetHdr.decode b).front H.hidden) hid s)
    (hp : P H.hidden b) (ha : Announced env.cfg fu₀.dev.mem A b hid H) : Booked env fu₀ A P s := by
  have hH : s.cxt.head = H := by cases h <;> assumption
  subst hH
  by_cases hdone : s.cxt.state ∈ [State.duplicateFs, .finish]
  · cases h with
    | filling items k _ _ hs _ _ => exact absurd (List.mem_cons_of_mem _ hdone) hs
    | idle items _ _ hs h =>
      simp only [List.mem_cons, List.not_mem_nil, or_false] at hdone
      have hdup : s.cxt.state = .duplicateFs := hdone.resolve_right hs.1
      have hall := ha.flags (hs.2 hdup)
      have hplaced : Placed env A ((ImageSetHdr.decode b).front s.cxt.head.hidden) hid items [] s := by
        refine ⟨h.ledger, ?_, ⟨by simp, ?_, ?_⟩, h.room⟩
        · rw [List.append_nil]
          exact h.lists
        · intro p _ hf
          rw [show s.cxt.downloadFlag p.1 = true from hall _] at hf
          cases hf
        · refine (List.countP_eq_zero.mpr fun p _ => ?_).symm
          rw [show s.cxt.downloadFlag p.1 = true from hall _]
          simp
      exact hplaced.booked hp ha (by simp [hdup])
  · refine ⟨fun hc => ?_, fun hc => ?_, fun _ _ => ⟨b, hid, hp, ha, h⟩, fun hc => absurd hc hdone⟩
    all_goals
      rw [show s.cxt.isFirst = false from ha.isFirst] at hc
      cases hc

theorem goOn_ok {c : Cmd Session FuStatus Unit} {go : Bool}
    (h : (c >>= fun _ => (pure true : Cmd Session FuStatus Bool)) s = (.ok go, s')) : c s = (.ok (), s') := by
  obtain ⟨u, s₁, h₁, h₂⟩ := Cmd.bind_eq_ok h
  cases h₂
  exact h₁

theorem getTrialInfo_state (heq : getTrialInfo env s = (.ok (), s')) :
    s'.cxt.state = .eraseFwd ∧ s'.cxt.isFirst = s.cxt.isFirst ∧
      s'.cxt.hiddenImagesCount = s.cxt.hiddenImagesCount := by
  rw [getTrialInfo] at heq
  obtain ⟨r, s₁, h₁, heq⟩ := Cmd.bind_eq_ok heq
  have hc : s₁.cxt = s.cxt := by
    rw [Cmd.orFail, onFu, Cmd.zoom] at h₁
    rcases hr : fwUpgradeSelectTrialFwd env.cfg s.fu with ⟨e | r, fu₁⟩ <;> rw [hr] at h₁ <;> cases h₁
    rfl
  rw [Cmd.bind_ok (Cmd.modify_apply _ _), Cmd.ensure_bind] at heq
  split at heq <;> cases heq
  exact ⟨rfl, by simp only [Session.setState, Session.setCxt, hc], by simp only [Session.setState, Session.setCxt, hc]⟩

theorem eraseFwd_state (heq : eraseFwd env s = (.ok (), s')) :
    s'.cxt.state = (if env.cfg.noFs then .prepareFs else .eraseSecondFs) ∧ s'.cxt.isFirst = s.cxt.isFirst ∧
      s'.cxt.hiddenImagesCount = s.cxt.hiddenImagesCount := by
  rw [eraseFwd, Cmd.bind_ok (Cmd.gets_apply _ _)] at heq
  obtain ⟨r, s₁, h₁, heq⟩ := Cmd.bind_eq_ok heq
  have hc : s₁.cxt = s.cxt := by
    rw [Cmd.orFail, onFu, Cmd.zoom] at h₁
    rcases hr : fwUpgradeEraseFwd s.cxt.trialFwdIdx s.fu with ⟨e | r, fu₁⟩ <;> rw [hr] at h₁ <;> cases h₁
    rfl
  cases heq
  exact ⟨rfl, by simp only [Session.setState, Session.setCxt, hc], by simp only [Session.setState, Session.setCxt, hc]⟩

theorem eraseSecondFs_hidden (heq : eraseSecondFs s = (.ok (), s')) :
    s'.cxt.hiddenImagesCount = s.cxt.hiddenImagesCount := by
  rw [eraseSecondFs, Cmd.bind_ok (Cmd.gets_apply _ _)] at heq
  obtain ⟨c, s₁, h₁, heq⟩ := Cmd.bind_eq_ok heq
  obtain ⟨u, s₂, h₂, heq⟩ := Cmd.bind_eq_ok heq
  rcases openPartition_cases s.activeFwd fs2ImgId .flashImageNotFound s with hop | ⟨k, i, en, -, -, -, -, hop⟩ <;>
    rw [hop] at h₁ <;> cases h₁
  rcases hfe : fwUpgradeErasePartition k 0 (clientOf s.activeFwd i en).imgSize
    (s.fu.setHandle k (clientOf s.activeFwd i en)) with ⟨r, fu'⟩
  obtain ⟨r', he, -⟩ := erasePartition_eq (s := { s with
    fu := s.fu.setHandle k (clientOf s.activeFwd i en), cxt := { s.cxt with partitionHdl := some k } }) rfl hfe
  rw [he] at h₂
  cases h₂
  cases heq
  rfl

theorem Hides.later {cfg : Config} {f : Fwd} {c c' : Cxt} (h : Hides cfg f hid c)
    (hs : c.state ∉ [State.eraseSecondFs, .prepareFs]) (hc : c'.hiddenImagesCount = c.hiddenImagesCount)
    (h₁ : c'.state ≠ .eraseSecondFs) (h₂ : c'.state ≠ .prepareFs) : Hides cfg f hid c' :=
  ⟨hc.trans h.count, fun hc => by simp [h₁, h₂] at hc, fun _ => h.taken hs⟩

/-- The states before the header. -/
theorem early_booked (hL : Layout env.cfg fu₀ A) (ho : A.OffFwds) (he : Early A fu₀.dev s)
    (hs : s.cxt.state ∈ [State.eraseSecondFs, .prepareFs, .prepareConnect, .connectServer, .receiveData,
      .processConfigFile]) (h : EarlyBook env.cfg A (s.cxt.state ≠ .eraseSecondFs) hid s.fu.dev.mem)
    (hh : Hides env.cfg (fu₀.dev.mem.fwd A.active) hid s.cxt) (hP : s.HeaderHas env P) {go : Bool}
    (heq : sessionSwitch env s = (.ok go, s')) : Booked env fu₀ A P s' := by
  simp only [List.mem_cons, List.not_mem_nil, or_false] at hs
  have hf := he.fresh.isFirst
  rcases hs with hs | hs | hs | hs | hs | hs <;> simp only [sessionSwitch, hs] at heq
  · obtain ⟨he', hst⟩ := (eraseSecondFs_early hL).ok he (goOn_ok heq)
    have hnil : hid = [] := hh.before (by simp [hs])
    have hh' : Hides env.cfg (fu₀.dev.mem.fwd A.active) hid s'.cxt :=
      ⟨(eraseSecondFs_hidden (goOn_ok heq)).trans hh.count, fun _ => hnil, fun hc => by simp [hst] at hc⟩
    exact (eraseSecondFs_book hL ho he h (goOn_ok heq)).booked he'.fresh.isFirst hh' (fun _ => trivial) (by simp [hst])
  · obtain ⟨he', hst⟩ := (prepareFs_early hL).ok he (goOn_ok heq)
    have hnil : hid = [] := hh.before (by simp [hs])
    subst hnil
    obtain ⟨hid', hb, hcount, htaken⟩ := prepareFs_book hL ho he h hh.count (goOn_ok heq)
    have hh' : Hides env.cfg (fu₀.dev.mem.fwd A.active) hid' s'.cxt :=
      ⟨hcount, fun hc => by simp [hst] at hc, fun _ => htaken⟩
    exact hb.booked he'.fresh.isFirst hh' (fun _ => by simp [hs]) (by simp [hst])
  · have heq := goOn_ok heq
    rw [prepareConnect, Cmd.bind_ok (Cmd.gets_apply _ _), if_pos hf] at heq
    cases heq
    exact EarlyBook.booked (s := s.setState .connectServer) h hf (hh.later (by simp [hs]) rfl State.noConfusion State.noConfusion)
      (fun _ => by simp [hs]) (by simp [Session.setState, Session.setCxt])
  · have heq := goOn_ok heq
    obtain ⟨sc, ⟨e, hc⟩ | hc⟩ := connectServer_cases s <;> rw [hc] at heq <;> cases heq
    exact EarlyBook.booked h hf (hh.later (by simp [hs]) rfl State.noConfusion State.noConfusion) (fun _ => by simp [hs])
      (by simp)
  · obtain ⟨sc, ⟨r, hc⟩ | ⟨b, hne, hlen, hc⟩⟩ := receiveData_cases s <;> rw [hc] at heq <;> cases heq
    · exact EarlyBook.booked h hf hh (fun _ => by simp [hs]) (by simp [hs])
    · exact EarlyBook.booked h hf (hh.later (by simp [hs]) rfl (by simp [hf]) (by simp [hf])) (fun _ => by simp [hs])
        (by simp [hf])
  · have hbook : EarlyBook env.cfg A True hid s.fu.dev.mem := ⟨h.lists, h.hidden, fun hn _ => h.blank hn (by simp [hs])⟩
    have heq := goOn_ok heq
    rcases processConfigFile_book hL ho he hbook hh hs hP heq with ⟨hf', hst, hmem, hc⟩ | ⟨b, hp, ha, hacc⟩
    · rw [← hmem] at hbook
      exact hbook.booked hf' (hh.later (by simp [hs]) hc (by simp [hst]) (by simp [hst])) (fun _ => trivial) (by simp [hst])
    · exact hacc.booked hp ha

/-- Every state of the machine keeps the books. -/
theorem sessionSwitch_booked (ho : A.OffFwds) (hu : ∀ n b, P n b → HeaderUsed b) (h : Inv env A fu₀ s)
    (hb : Booked env fu₀ A P s) (hP : s.HeaderHas env P) {go : Bool} (heq : sessionSwitch env s = (.ok go, s')) :
    Booked env fu₀ A P s' := by
  cases h with
  | start hs hun =>
    rcases hs with hs | hs <;> simp only [sessionSwitch, hs] at heq
    · cases goOn_ok heq
      exact booked_before hun.isFirst (by simp [Session.setState, Session.setCxt]) (hb.before hun.isFirst (by simp [hs]))
    · obtain ⟨hst, hf, hc⟩ := getTrialInfo_state (goOn_ok heq)
      exact booked_before (hf.trans hun.isFirst) (by simp [hst]) (hc.trans (hb.before hun.isFirst (by simp [hs])))
  | chosen hs hL hdev hf hv =>
    simp only [sessionSwitch, hs] at heq
    have heq := goOn_ok heq
    obtain ⟨hst, hfirst, hc⟩ := eraseFwd_state heq
    have hh : Hides env.cfg (fu₀.dev.mem.fwd A.active) [] s'.cxt := by
      refine ⟨hc.trans (hb.before hf.isFirst (by simp [hs])), fun _ => rfl, fun hne => ?_⟩
      rw [hst] at hne
      split at hne <;> simp at hne
    refine (eraseFwd_book hf.trial heq).booked (hfirst.trans hf.isFirst) hh (fun hne => hne) ?_
    rw [hst]
    split <;> simp
  | early hs hL he =>
    obtain ⟨hid, hbook, hh⟩ := hb.early he.fresh.isFirst hs
    exact early_booked hL ho he hs hbook hh hP heq
  | between hs hL hbz hw =>
    have hmach := hb.busy hbz.placing.isFirst (by rcases hs with hs | hs <;> simp [hs])
    obtain ⟨b, hid, hp, ha, hacc⟩ := hmach
    rcases hs with hs | hs <;> simp only [sessionSwitch, hs] at heq
    · have heq := goOn_ok heq
      exact (prepareConnect_accounted hL ho hbz hs hw hacc heq).booked hp ha
    · cases goOn_ok heq
      have hne : State.prepareConnect ∉ [State.duplicateImages, .duplicateFs, .finish] := by decide
      have hacc' := @Accounted.keep _ _ _ (s.setState .prepareConnect) _ _ _ hacc rfl rfl _ hne _ _ _ _ rfl
      exact hacc'.booked hp ha
  | image hs hL hbz hd hon hn =>
    have hmach := hb.busy hbz.placing.isFirst (by rcases hs with hs | hs | hs <;> simp [hs])
    obtain ⟨b, hid, hp, ha, hacc⟩ := hmach
    rcases hs with hs | hs | hs <;> simp only [sessionSwitch, hs] at heq
    · have heq := goOn_ok heq
      obtain ⟨sc, ⟨e, hc⟩ | hc⟩ := connectServer_cases s <;> rw [hc] at heq
      · cases heq
      · obtain ⟨-, rfl⟩ := Prod.mk.inj heq
        refine Accounted.booked ?_ hp ha
        exact hacc.keep rfl rfl (t := .receiveData) (by decide) rfl
    · obtain ⟨sc, ⟨r, hc⟩ | ⟨d, hne, hlen, hc⟩⟩ := receiveData_cases s <;> rw [hc] at heq <;>
        obtain ⟨-, rfl⟩ := Prod.mk.inj heq
      · have hst : s.cxt.state ∉ [State.duplicateImages, .duplicateFs, .finish] := by simp [hs]
        refine Accounted.booked ?_ hp ha
        exact hacc.keep rfl rfl hst rfl
      · have hst : (if s.cxt.isFirst = true then State.processConfigFile else .processImage) ∉
            [State.duplicateImages, .duplicateFs, .finish] := by split <;> decide
        refine Accounted.booked ?_ hp ha
        exact hacc.keep rfl rfl hst rfl
    · have heq := goOn_ok heq
      exact (processImage_accounted hL ho (ha.used (hu _ b hp)) ⟨hbz, hd, hon, hs, hn hs⟩ hacc heq).booked hp ha
  | copies hs hL hbz ht =>
    obtain ⟨b, hid, hp, ha, hacc⟩ := hb.busy hbz.placing.isFirst (by simp [hs])
    simp only [sessionSwitch, hs] at heq
    have heq := goOn_ok heq
    cases hacc with
    | filling items k _ _ hs' _ _ => simp [hs] at hs'
    | idle items _ _ _ h =>
      obtain ⟨hhd, hst, copies, hpl⟩ := duplicateImages_placed hL ho (ha.used (hu _ b hp)) hbz h heq
      rw [← hhd] at ha hp hpl
      exact hpl.booked hp ha (by simp [hst])
  | placed hs hL hg htr hv ht =>
    obtain ⟨b, hid, items, copies, hp, ha, hpl⟩ := hb.placed (by rcases hs with hs | hs <;> simp [hs])
    rcases hs with hs | hs <;> simp only [sessionSwitch, hs] at heq
    · have heq := goOn_ok heq
      obtain ⟨hc, hpl'⟩ := duplicateFs_placed hL ho hg hpl heq
      have hhd : s'.cxt.head = s.cxt.head := by
        rw [hc]
        rfl
      rw [← hhd] at ha hp hpl'
      exact hpl'.booked hp ha (by simp [hc])
    · cases heq
      exact hb

/-- Requests change nothing that the books are about. -/
theorem Booked.keep (h : Booked env fu₀ A P s) (hfu : s'.fu = s.fu) (hv : s'.verified = s.verified) {t : SessionStatus}
    (hc : s'.cxt = { s.cxt with sessionStatus := t }) : Booked env fu₀ A P s' := by
  have hhead : s'.cxt.head = s.cxt.head := by
    rw [hc]
    rfl
  refine ⟨fun hf hs => ?_, fun hf hs => ?_, fun hf hs => ?_, fun hs => ?_⟩
  · rw [hc] at hf hs ⊢
    exact h.before hf hs
  · rw [hc] at hf hs
    obtain ⟨hid, hb, hh⟩ := h.early hf hs
    rw [hfu, hc]
    exact ⟨hid, hb, hh.count, hh.before, hh.taken⟩
  · rw [hc] at hf hs
    obtain ⟨b, hid, hp, ha, hacc⟩ := h.busy hf hs
    refine ⟨b, hid, hhead ▸ hp, hhead ▸ ha, ?_⟩
    rw [hhead]
    obtain ⟨fu, c, sc, ph, v⟩ := s'
    simp only at hfu hv hc
    subst hfu hv hc
    cases hacc with
    | idle items hH hw hs h => exact .idle items hH hw hs ⟨h.ledger, h.lists, h.blank, h.room⟩
    | filling items k hH hw hs h ha =>
      exact .filling items k hH hw hs ⟨h.ledger, h.lists, h.blank, h.hdl, h.created, h.length, h.digest, h.written⟩ ha
  · rw [hc] at hs
    obtain ⟨b, hid, items, copies, hp, ha, hpl⟩ := h.placed hs
    exact ⟨b, hid, items, copies, hhead ▸ hp, hhead ▸ ha, hhead ▸ hpl.keep (by rw [hfu]) hv hc⟩

/-- How a session ends: with an error, or with the trial FWD made valid once all is in place. -/
def Closed (env : Env) (fu₀ : Fu) (A : Area) (P : ℕ → Bytes → Prop) (s : Session) : Prop :=
  Logged env A fu₀ s ∨ ∃ s₁, Inv env A fu₀ s₁ ∧ Booked env fu₀ A P s₁ ∧ s₁.cxt.state = .finish ∧
    s₁.cxt.sessionStatus ≠ .cancel ∧ s.fu.dev = s₁.validate.fu.dev

/-- The books at any time. -/
def RunBooked (env : Env) (fu₀ : Fu) (A : Area) (P : ℕ → Bytes → Prop) (s : Session) : Prop :=
  match s.phase with
  | .process => Inv env A fu₀ s ∧ Booked env fu₀ A P s
  | .finalize (.ok _) => Inv env A fu₀ s ∧ Booked env fu₀ A P s
  | .finalize (.error _) => Logged env A fu₀ s
  | .done _ => Closed env fu₀ A P s

theorem Booked.runBooked (h : Booked env fu₀ A P s) (hi : Inv env A fu₀ s) : RunBooked env fu₀ A P s := by
  rw [RunBooked]
  split
  · exact ⟨hi, h⟩
  · exact ⟨hi, h⟩
  · exact hi.logged
  · exact .inl hi.logged

theorem finalize_closed {ret : Except FuStatus Unit} (h : Logged env A fu₀ s)
    (hi : ret = .ok () → Inv env A fu₀ s ∧ Booked env fu₀ A P s) :
    Closed env fu₀ A P (s.finalize ret) ∧ ∃ r, (s.finalize ret).phase = .done r := by
  rw [Session.finalize]
  rcases hr : s.finalRet ret with e | u
  · refine ⟨.inl ?_, leave_done _ _⟩
    rw [Logged, Session.leave_dev, Session.poll_fu]
    exact h
  obtain ⟨hst, hfin, hok⟩ := finalRet_ok hr
  obtain ⟨hinv, hbook⟩ := hi hok
  simp only
  split
  · exact ⟨.inr ⟨s, hinv, hbook, hfin, hst, s.validate.fin_dev⟩, _, rfl⟩
  · refine ⟨.inr ⟨s, hinv, hbook, hfin, hst, ?_⟩, leave_done _ _⟩
    rw [Session.leave_dev, Session.poll_fu]

/-- One pass of the worker. -/
theorem step_booked (hA : A.SamePlaces (sessionArea env.cfg fu₀)) (hS : A.Sane) (ho : A.OffFwds)
    (hu : ∀ n b, P n b → HeaderUsed b) (h : RunBooked env fu₀ A P s) (hok : s.HeaderOk env A) (hP : s.HeaderHas env P) :
    RunBooked env fu₀ A P (s.step env) := by
  obtain ⟨sc, st, hpoll⟩ := s.poll_eq
  have hfu : s.poll.fu = s.fu := s.poll_fu
  have hkeep : Inv env A fu₀ s ∧ Booked env fu₀ A P s → Inv env A fu₀ s.poll ∧ Booked env fu₀ A P s.poll :=
    fun ⟨hi, hb⟩ => ⟨hi.keep hfu (by rw [hpoll]) (by rw [hpoll]), hb.keep hfu (by rw [hpoll]) (by rw [hpoll])⟩
  rw [Session.step]
  rw [RunBooked] at h
  split
  · rename_i hph
    rw [hph] at h
    obtain ⟨hi, hb⟩ := hkeep h
    simp only
    split
    · have hk := sessionSwitch_keeps hA hS hi (by rw [hpoll]; exact hok)
      have hB : ∀ go s', sessionSwitch env s.poll = (.ok go, s') → Booked env fu₀ A P s' :=
        fun go s' => sessionSwitch_booked ho hu hi hb (by rw [hpoll]; exact hP)
      rcases hr : sessionSwitch env s.poll with ⟨e | go, s'⟩ <;> rw [hr] at hk
      · exact hk
      have hb' := hB go s' hr
      cases go with
      | false => exact Booked.runBooked (hb'.keep rfl rfl rfl) (Inv.keep hk rfl rfl rfl)
      | true => exact hb'.runBooked hk
    · exact Booked.runBooked (hb.keep rfl rfl rfl) (hi.keep rfl rfl rfl)
  · rename_i ret hph
    rw [hph] at h
    have hend : Closed env fu₀ A P (s.poll.finalize ret) ∧ ∃ r, (s.poll.finalize ret).phase = .done r := by
      rcases ret with e | u
      · exact finalize_closed (by rw [Logged, hfu]; exact h) (fun hc => by cases hc)
      · exact finalize_closed (hkeep h).1.logged (fun _ => hkeep h)
    obtain ⟨hend, r, hr⟩ := hend
    rw [RunBooked, hr]
    exact hend
  · rename_i ret hph
    rw [RunBooked, hph]
    rw [hph] at h
    exact h

theorem start_booked (flags : ℕ) (script : Script) : RunBooked env fu₀ A P (Session.start fu₀ flags script) :=
  Booked.runBooked (booked_before rfl (by simp [Session.start, Cxt.init]) rfl)
    (.start (.inl rfl) ⟨rfl, rfl, rfl, rfl, fun _ => rfl, rfl, rfl, rfl, rfl⟩)

/-- Every run in which the headers fit and have `P`. -/
theorem run_booked (hA : A.SamePlaces (sessionArea env.cfg fu₀)) (hS : A.Sane) (ho : A.OffFwds)
    (hu : ∀ n b, P n b → HeaderUsed b) (h : RunBooked env fu₀ A P s) (hok : ∀ m, (Session.run env m s).HeaderOk env A)
    (hP : ∀ m, (Session.run env m s).HeaderHas env P) : ∀ n, RunBooked env fu₀ A P (Session.run env n s)
  | 0 => h
  | n + 1 => by
    rw [Session.run, Function.iterate_succ_apply']
    exact step_booked hA hS ho hu (run_booked hA hS ho hu h hok hP n) (hok n) (hP n)

end

end Qcc730.Upgrade
