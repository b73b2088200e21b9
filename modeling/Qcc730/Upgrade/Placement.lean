import Qcc730.Upgrade.Effects

/-! The invariant of a session, and the states up to the header.

    The invariant follows the states. Before the header the context is as it was set up; after it, the
    trial memory that is left covers the images still to be placed, and an open partition lies in the
    area. The header's own check does not give this: it leaves FS2 out of the sum, adds in 32 bits and
    looks at the last SBL entry only. So the header has to fit in the sense of `HeaderFits`. -/

namespace Qcc730.Upgrade
open Lib Flash

/-! ### Headers that fit -/

/-- What an image takes of the trial memory: whole blocks, except that FS1 goes to the active FS2 and the
    SBL to RRAM. -/
def ImageHdr.placedSize (h : ImageHdr) : ℕ :=
  if h.imageId = fs1ImgId ∨ h.imageId = sblImgId then 0 else blockCeil h.diskSize

/-- The images of the header `b` fit in the area. -/
def HeaderFits (A : Area) (b : Bytes) : Prop :=
  ((imageHdrs b (ImageSetHdr.decode b).numImages).map ImageHdr.placedSize).sum ≤ A.mem.size ∧
    ∀ h ∈ imageHdrs b (ImageSetHdr.decode b).numImages, h.imageId = sblImgId → h.diskSize ≤ A.sbl.size

instance (A : Area) (b : Bytes) : Decidable (HeaderFits A b) := inferInstanceAs (Decidable (_ ∧ _))

/-- If the next pass of the worker completes a header that passes the checks, it fits. -/
def Session.HeaderOk (env : Env) (A : Area) (s : Session) : Prop :=
  s.cxt.state = .processConfigFile → s.cxt.HeaderComplete → s.Acceptable env s.cxt.header →
    HeaderFits A s.cxt.header

/-- What an entry takes of the trial memory as the worker counts it. -/
def ImageHdr.taken (h : ImageHdr) : ℕ :=
  if h.imageId = fs1ImgId ∨ h.imageId = sblImgId then 0 else h.diskSize

/-- The trial memory still needed: images to be copied, and images to be downloaded from `index` on. -/
def need (flag : ℕ → Bool) (index : ℕ) (hs : List ImageHdr) : ℕ :=
  ∑ j ∈ Finset.range hs.length, if flag j = true ∧ j < index then 0 else (hs.map ImageHdr.taken).getD j 0

theorem need_zero (flag : ℕ → Bool) (hs : List ImageHdr) :
    need flag 0 hs = (hs.map ImageHdr.taken).sum := by
  simp only [need, Nat.not_lt_zero, and_false, if_false]
  induction hs with
  | nil => rfl
  | cons h hs ih =>
    rw [List.length_cons, Finset.sum_range_succ']
    simp only [List.map_cons, List.getD_cons_succ, List.getD_cons_zero, List.sum_cons]
    omega

/-- Placing an image to be downloaded. -/
theorem need_succ {flag : ℕ → Bool} {i : ℕ} {hs : List ImageHdr} (hi : i < hs.length) (hf : flag i = true) :
    need flag i hs = need flag (i + 1) hs + (hs.map ImageHdr.taken).getD i 0 := by
  have hmem : i ∈ Finset.range hs.length := Finset.mem_range.mpr hi
  rw [need, need, ← Finset.add_sum_erase _ _ hmem, ← Finset.add_sum_erase _ _ hmem]
  have hrest : ∀ j ∈ (Finset.range hs.length).erase i,
      (if flag j = true ∧ j < i then 0 else (hs.map ImageHdr.taken).getD j 0) =
        if flag j = true ∧ j < i + 1 then 0 else (hs.map ImageHdr.taken).getD j 0 := by
    intro j hj
    have hne : j ≠ i := (Finset.mem_erase.mp hj).1
    have hiff : flag j = true ∧ j < i ↔ flag j = true ∧ j < i + 1 := by
      constructor <;> rintro ⟨h₁, h₂⟩ <;> exact ⟨h₁, by omega⟩
    simp only [hiff]
  rw [Finset.sum_congr rfl hrest]
  simp only [hf, true_and, Nat.lt_irrefl, if_false, Nat.lt_succ_self, if_true]
  omega

/-- Going on needs no more. -/
theorem need_anti {flag : ℕ → Bool} {i k : ℕ} (hs : List ImageHdr) (hik : i ≤ k) : need flag k hs ≤ need flag i hs := by
  refine Finset.sum_le_sum ?_
  intro j _
  by_cases hj : flag j = true ∧ j < i
  · rw [if_pos hj, if_pos ⟨hj.1, by omega⟩]
  · rw [if_neg hj]
    split
    · exact Nat.zero_le _
    · exact Nat.le_refl _

theorem taken_le_need {flag : ℕ → Bool} {i : ℕ} {hs : List ImageHdr} (hi : i < hs.length) (hf : flag i = true) :
    (hs.map ImageHdr.taken).getD i 0 ≤ need flag i hs := by
  rw [need_succ hi hf]
  exact Nat.le_add_left _ _

/-! ### Erasing and writing in a partition of the area -/

/-- The partition of a handle lies in the area. -/
structure Area.Holds (A : Area) (c : Client) : Prop where
  flash : c.imgId ≠ sblImgId → c.imgStart % 4096 = 0 ∧
    ∃ q ∈ A.data, q.start ≤ c.imgStart ∧ c.imgStart + c.imgSize ≤ q.start + q.size
  sbl : c.imgId = sblImgId → c.imgStart = A.sbl.start ∧ c.imgSize ≤ A.sbl.size

theorem fuErase_later {A : Area} (hs : A.Sane) {s : Fu} {h : ℕ} (hc : A.Holds (s.handles h))
    (offset nbytes : ℕ) (hsum : (s.handles h).imgId ≠ sblImgId → offset + nbytes < 2 ^ 32) :
    ∃ r ws, fwUpgradeErasePartition h offset nbytes s = (r, s.writes ws) ∧ ∀ w ∈ ws, A.Later w := by
  rcases erasePartition_cases h offset nbytes s with ⟨r, heq, -⟩ | ⟨-, hid, -, hnm, hom, hsz, -, heq⟩
  · refine ⟨r, [], ?_, by simp⟩
    rw [heq, Fu.writes, Dev.writes_nil]
  · refine ⟨_, _, heq, ?_⟩
    have hsum := hsum hid
    obtain ⟨hal, q, hq, hlo, hhi⟩ := hc.flash hid
    have hq' := hs.data_lt q hq
    rw [u32_of_lt hsum] at hsz
    have hstart : u32 ((s.handles h).imgStart + offset) / 4096 * 4096 = (s.handles h).imgStart + offset := by
      rw [u32_of_lt (by omega)]
      omega
    refine eraseBlocks_later (List.mem_append_left _ hq) (Range.sub_of_le ?_ ?_)
    · show q.start ≤ u32 ((s.handles h).imgStart + offset) / 4096 * 4096
      omega
    · show u32 ((s.handles h).imgStart + offset) / 4096 * 4096 + nbytes / 4096 * 4096 ≤ q.start + q.size
      omega

theorem fuWrite_later {A : Area} (hs : A.Sane) {s : Fu} {h : ℕ} (hc : A.Holds (s.handles h))
    {offset : ℕ} {b : Bytes} (ho : offset ≤ (s.handles h).imgSize) (hb : b.length ≤ 4096)
    (hsbl : (s.handles h).imgId = sblImgId → offset + b.length ≤ (s.handles h).imgSize) :
    ∃ r ws, fwUpgradeWritePartition h offset b s = (r, s.writes ws) ∧ (∀ w ∈ ws, A.Later w) ∧
      (r = .ok () → offset + b.length ≤ (s.handles h).imgSize) := by
  rcases writePartition_cases h offset b s with ⟨e, heq⟩ | ⟨hok, ⟨hid, hin, heq⟩ | ⟨hid, hin, heq⟩⟩
  · refine ⟨.error e, [], ?_, by simp, fun hr => by cases hr⟩
    rw [heq, Fu.writes, Dev.writes_nil]
  · obtain ⟨-, q, hq, hlo, hhi⟩ := hc.flash hid
    have hq' := hs.data_lt q hq
    have hle : offset + b.length ≤ (s.handles h).imgSize := by
      have := hok.2.2
      rw [u32_of_lt (x := (s.handles h).imgStart + offset) (by omega), u32_of_lt (by omega),
        u32_of_lt (by omega)] at this
      omega
    refine ⟨_, _, heq, ?_, fun _ => hle⟩
    rw [u32_of_lt (by omega)]
    refine pages_later (List.mem_append_left _ hq) (Range.sub_of_le ?_ ?_)
    · show q.start ≤ (s.handles h).imgStart + offset
      omega
    · show (s.handles h).imgStart + offset + b.length ≤ q.start + q.size
      omega
  · obtain ⟨hst, hsz⟩ := hc.sbl hid
    have hle := hsbl hid
    have hS := hs.sbl_le
    refine ⟨_, _, heq, ?_, fun _ => hle⟩
    have hb0 : b.length ≠ 0 := hok.1
    rw [u32_of_lt (by omega)]
    intro w hw
    rw [List.mem_singleton] at hw
    subst hw
    refine ⟨by simp, Range.sub_of_le ?_ ?_, A.mem, by simp [Area.data], Range.empty_sub _ _⟩
    · show A.sbl.start ≤ (s.handles h).imgStart + offset
      omega
    · show (s.handles h).imgStart + offset + b.length ≤ A.sbl.start + A.sbl.size
      omega

theorem erase_later {A : Area} (hs : A.Sane) {s : Session} {h : ℕ} (hp : s.cxt.partitionHdl = some h)
    (hc : A.Holds (s.fu.handles h)) (offset nbytes : ℕ)
    (hsum : (s.fu.handles h).imgId ≠ sblImgId → offset + nbytes < 2 ^ 32) :
    ∃ r ws, erasePartition offset nbytes s = (r, { s with fu := s.fu.writes ws }) ∧ ∀ w ∈ ws, A.Later w := by
  obtain ⟨r, ws, heq, hw⟩ := fuErase_later hs hc offset nbytes hsum
  obtain ⟨r', hr', -⟩ := erasePartition_eq hp heq
  exact ⟨r', ws, hr', hw⟩

theorem write_later {A : Area} (hs : A.Sane) {s : Session} {h : ℕ} (hp : s.cxt.partitionHdl = some h)
    (hc : A.Holds (s.fu.handles h)) {offset : ℕ} {b : Bytes} (ho : offset ≤ (s.fu.handles h).imgSize)
    (hb : b.length ≤ 4096) (hsbl : (s.fu.handles h).imgId = sblImgId → offset + b.length ≤ (s.fu.handles h).imgSize) :
    ∃ r ws, writePartition offset b s = (r, { s with fu := s.fu.writes ws }) ∧ (∀ w ∈ ws, A.Later w) ∧
      (r = .ok () → offset + b.length ≤ (s.fu.handles h).imgSize) := by
  obtain ⟨r, ws, heq, hw, hle⟩ := fuWrite_later hs hc ho hb hsbl
  obtain ⟨r', hr', hiff⟩ := writePartition_eq hp heq
  exact ⟨r', ws, hr', hw, fun h => hle (hiff.mp h)⟩

/-- A partition of the active FWD that a session may write to. -/
theorem holds_client {A : Area} {f : Fwd} {id i fwdIdx : ℕ} {en : ImageEntry} (hf : findEntry f id = some (i, en))
    (hid : id ≠ sblImgId) (hq : partitionRange f id ∈ A.data) : A.Holds (clientOf fwdIdx i en) := by
  have hen : en.imageId = id := (findEntry_id hf).1
  have hne : en.imageId ≠ sblImgId := hen ▸ hid
  rw [partitionRange, hf] at hq
  refine ⟨fun _ => ⟨?_, _, hq, Nat.le_refl _, Nat.le_refl _⟩, fun h => absurd h hne⟩
  simp only [clientOf, if_pos hne, u32]
  omega

/-- `A` is the area of the session, sensibly laid out; there is a trial slot and it is not the active FWD. -/
structure Layout (cfg : Config) (fu₀ : Fu) (A : Area) : Prop where
  area : A.SamePlaces (sessionArea cfg fu₀)
  selected : (fwUpgradeSelectTrialFwd cfg fu₀).1 = .ok (trialRegion cfg fu₀)
  sane : A.Sane
  ne : A.active ≠ A.trial

section

variable {cfg : Config} {fu₀ : Fu} {A : Area}

theorem Layout.activeFwd (hL : Layout cfg fu₀ A) {s : Session} (h : Grown A fu₀.dev s.fu.dev) :
    s.activeFwd = A.active := by
  rw [Session.activeFwd, h.fdt, hL.area.active]
  rfl

/-- What is found in the active FWD was there before the session. -/
theorem Layout.active_found (hL : Layout cfg fu₀ A) {s : Session} (h : Grown A fu₀.dev s.fu.dev) {id i : ℕ}
    {en : ImageEntry} (hlt : s.activeFwd < fwUpgradeMaxFwd)
    (hf : findEntry (s.fu.dev.mem.fwd s.activeFwd) id = some (i, en)) :
    findEntry (fu₀.dev.mem.fwd A.active) id = some (i, en) := by
  rw [hL.activeFwd h] at hlt
  rwa [hL.activeFwd h, h.active_fwd hL.sane hL.ne hlt] at hf

/-- Opening FS2 or RAMDUMP of the active FWD gives a partition of the area. -/
theorem Layout.holds_found (hL : Layout cfg fu₀ A) {s : Session} (h : Grown A fu₀.dev s.fu.dev) {id i : ℕ}
    {en : ImageEntry} (hid : id = fs2ImgId ∨ id = ramdumpImgId)
    (hlt : s.activeFwd < fwUpgradeMaxFwd)
    (hf : findEntry (s.fu.dev.mem.fwd s.activeFwd) id = some (i, en)) (fwdIdx : ℕ) :
    A.Holds (clientOf fwdIdx i en) ∧
      (clientOf fwdIdx i en).imgStart + (clientOf fwdIdx i en).imgSize < 2 ^ 31 := by
  replace hf := hL.active_found h hlt hf
  have hmem : partitionRange (fu₀.dev.mem.fwd A.active) id ∈ A.data := by
    rw [Area.data, hL.area.fs2, hL.area.ramdump, hL.area.active]
    rcases hid with rfl | rfl
    · exact List.mem_cons_of_mem _ List.mem_cons_self
    · exact List.mem_cons_of_mem _ (List.mem_cons_of_mem _ List.mem_cons_self)
  have hne : id ≠ sblImgId := by rcases hid with rfl | rfl <;> decide
  refine ⟨holds_client hf hne hmem, ?_⟩
  have := hL.sane.data_lt _ hmem
  rw [partitionRange, hf] at this
  exact this

/-! ### Before the header -/

/-- The context before the header is accepted. -/
structure Fresh (A : Area) (c : Cxt) : Prop where
  trial : c.trialFwdIdx = A.trial
  memStart : c.trialMemStart = A.mem.start
  isFirst : c.isFirst = true
  index : c.imageIndex = 0
  wrtLength : c.imageWrtLength = 0
  flags : ∀ i, c.downloadFlag i = true
  buffer : c.buffer.length ≤ fwUpgradeBufSize
  collected : c.Collected

/-- A session between the erased FWD and the header. -/
structure Early (A : Area) (d₀ : Dev) (s : Session) : Prop where
  grown : Grown A d₀ s.fu.dev
  fresh : Fresh A s.cxt
  verified : s.verified = []

/-- What is left of a session that failed: the writes it made. -/
abbrev Failed (A : Area) (d₀ : Dev) : FuStatus → Session → Prop := fun _ s => Grown A d₀ s.fu.dev

/-- The states before the header change only the state, the open handle and the count of hidden images. -/
theorem Early.keep {d₀ : Dev} {s s' : Session} (h : Early A d₀ s) (hg : Grown A d₀ s'.fu.dev)
    (hv : s'.verified = s.verified) {p : Option ℕ} {k : ℕ} {t : State}
    (hc : s'.cxt = { s.cxt with partitionHdl := p, hiddenImagesCount := k, state := t }) : Early A d₀ s' := by
  refine ⟨hg, ?_, hv.trans h.verified⟩
  rw [hc]
  exact ⟨h.fresh.trial, h.fresh.memStart, h.fresh.isFirst, h.fresh.index, h.fresh.wrtLength, h.fresh.flags,
    h.fresh.buffer, ⟨h.fresh.collected.pre⟩⟩

theorem Early.setState {d₀ : Dev} {s : Session} (h : Early A d₀ s) (t : State) : Early A d₀ (s.setState t) :=
  h.keep h.grown rfl (p := s.cxt.partitionHdl) (k := s.cxt.hiddenImagesCount) (t := t) rfl

theorem Early.freePartitionHdl {d₀ : Dev} {s : Session} (h : Early A d₀ s) : Early A d₀ s.freePartitionHdl := by
  rcases hp : s.cxt.partitionHdl with _ | k
  · rwa [Session.freePartitionHdl, hp]
  · rw [Session.freePartitionHdl, hp]
    exact h.keep h.grown rfl (p := none) (k := s.cxt.hiddenImagesCount) (t := s.cxt.state) rfl

theorem Early.create {d₀ : Dev} (id version start size : ℕ) :
    Cmd.Triple (Early A d₀) (createPartition id version start size) (fun _ => Early A d₀) (Failed A d₀) := by
  intro s h
  rcases create_cases id version start size s with heq | ⟨k, -, -, -, hfree, heq⟩
  · rw [heq]
    exact h.grown
  · rw [heq]
    refine h.keep (h.grown.writes ?_) rfl (p := some k) (k := s.cxt.hiddenImagesCount) (t := s.cxt.state) rfl
    rw [h.fresh.trial] at hfree ⊢
    exact entryWrites_later A hfree _

theorem Early.createHidden {d₀ : Dev} (id : ℕ) (c : Client) :
    Cmd.Triple (Early A d₀) (createHidden id c) (fun _ => Early A d₀) (Failed A d₀) := by
  refine Cmd.Triple.bind (Early.create _ _ _ _) fun _ => Cmd.Triple.modify fun s h => ?_
  apply Early.freePartitionHdl
  exact h.keep h.grown rfl (p := s.cxt.partitionHdl) (k := s.cxt.hiddenImagesCount + 1) (t := s.cxt.state) rfl

theorem Early.locate {d₀ : Dev} (id : ℕ) (e : FuStatus) :
    Cmd.Triple (Early A d₀) (locatePartition id e) (fun _ => Early A d₀) (fun _ => Early A d₀) := by
  intro s h
  rcases locatePartition_cases id e s with heq | ⟨k, i, en, -, -, -, -, heq⟩
  · rw [heq]
    exact h
  · rw [heq]
    exact h.keep h.grown rfl (p := none) (k := s.cxt.hiddenImagesCount) (t := s.cxt.state) rfl

/-- With the open partition in the area. -/
structure EarlyOpen (A : Area) (d₀ : Dev) (c : Client) (s : Session) : Prop extends Early A d₀ s where
  opened : ∃ h, s.cxt.partitionHdl = some h ∧ s.fu.handles h = c
  holds : A.Holds c ∧ c.imgStart + c.imgSize < 2 ^ 31

theorem Early.open (hL : Layout cfg fu₀ A) (a : ℕ) {id : ℕ} (hid : id = fs2ImgId ∨ id = ramdumpImgId)
    (e : FuStatus) :
    Cmd.Triple (fun s => Early A fu₀.dev s ∧ a = s.activeFwd) (openPartition a id e) (EarlyOpen A fu₀.dev)
      (fun _ => Early A fu₀.dev) := by
  rintro s ⟨h, rfl⟩
  rcases openPartition_cases s.activeFwd id e s with heq | ⟨k, i, en, hlt, -, -, hf, heq⟩
  · rw [heq]
    exact h
  · rw [heq]
    refine ⟨?_, ⟨k, rfl, Fu.setHandle_same _ _ _⟩, hL.holds_found h.grown hid hlt hf _⟩
    exact h.keep h.grown rfl (p := some k) (k := s.cxt.hiddenImagesCount) (t := s.cxt.state) rfl

/-- The active FWD, noted in a command. -/
theorem Early.gets_active {d₀ : Dev} {E : FuStatus → Session → Prop} :
    Cmd.Triple (Early A d₀) (Cmd.gets Session.activeFwd) (fun a s => Early A d₀ s ∧ a = s.activeFwd) E :=
  Cmd.Triple.gets fun _ h => ⟨h, rfl⟩

/-- Erasing the whole open partition. -/
theorem EarlyOpen.eraseAll (hL : Layout cfg fu₀ A) (c : Client) :
    Cmd.Triple (EarlyOpen A fu₀.dev c) (erasePartition 0 c.imgSize) (fun _ => EarlyOpen A fu₀.dev c)
      (Failed A fu₀.dev) := by
  intro s h
  obtain ⟨k, hk, hck⟩ := h.opened
  have hle := h.holds.2
  obtain ⟨r, ws, heq, hw⟩ := erase_later hL.sane hk (hck ▸ h.holds.1) 0 c.imgSize (fun _ => by omega)
  rw [heq]
  rcases r with e | u
  · exact h.grown.writes hw
  · refine ⟨?_, ⟨k, hk, hck⟩, h.holds⟩
    exact h.keep (h.grown.writes hw) rfl (p := s.cxt.partitionHdl) (k := s.cxt.hiddenImagesCount)
      (t := s.cxt.state) rfl

theorem eraseSecondFs_early (hL : Layout cfg fu₀ A) :
    Cmd.Triple (Early A fu₀.dev) eraseSecondFs
      (fun _ s => Early A fu₀.dev s ∧ s.cxt.state = .prepareFs) (Failed A fu₀.dev) := by
  refine Cmd.Triple.bind Early.gets_active fun a => ?_
  refine Cmd.Triple.bind ((Early.open hL a (.inl rfl) _).weaken (fun _ h => h) (fun _ _ h => h)
    fun _ _ h => h.grown) fun c => ?_
  refine Cmd.Triple.bind (EarlyOpen.eraseAll hL c) fun _ => Cmd.Triple.modify fun s h => ?_
  exact ⟨h.toEarly.freePartitionHdl.setState _, rfl⟩

theorem prepareFs2_early {d₀ : Dev} :
    Cmd.Triple (Early A d₀) prepareFs2 (fun _ => Early A d₀) (Failed A d₀) :=
  Cmd.Triple.bind ((Early.locate _ _).weaken (fun _ h => h) (fun _ _ h => h) fun _ _ h => h.grown)
    fun c => Early.createHidden _ c

theorem prepareUserdata_early {d₀ : Dev} :
    Cmd.Triple (Early A d₀) prepareUserdata (fun _ => Early A d₀) (Failed A d₀) := by
  refine Cmd.Triple.bind (R := fun _ => Early A d₀) (Cmd.Triple.attempt (Early.locate _ _) ?_ ?_) fun r => ?_
  · exact fun _ _ h => h
  · exact fun _ _ h => h
  · rcases r with e | c
    · exact Cmd.Triple.pure fun _ h => h
    · exact Early.createHidden _ c

theorem prepareRamdump_early (hL : Layout cfg fu₀ A) :
    Cmd.Triple (Early A fu₀.dev) prepareRamdump (fun _ => Early A fu₀.dev) (Failed A fu₀.dev) := by
  refine Cmd.Triple.bind Early.gets_active fun a => ?_
  refine Cmd.Triple.bind (R := fun r s => Early A fu₀.dev s ∧ ∀ c, r = .ok c → EarlyOpen A fu₀.dev c s)
    (Cmd.Triple.attempt (Early.open hL a (.inr rfl) _) ?_ ?_) fun r => ?_
  · intro c s h
    refine ⟨h.toEarly, ?_⟩
    rintro c' hc'
    cases hc'
    exact h
  · exact fun _ _ h => ⟨h, fun c hc => by cases hc⟩
  rcases r with e | c
  · exact Cmd.Triple.pure fun _ h => h.1
  refine Cmd.Triple.bind (R := fun _ => EarlyOpen A fu₀.dev c) (Cmd.Triple.gets fun s h => h.2 c rfl) fun hdl => ?_
  refine Cmd.Triple.bind (R := fun _ => EarlyOpen A fu₀.dev c) ?_ fun magic => ?_
  · -- reading changes nothing
    intro s h
    have hread := readPartition_state (hdl.getD 0) 0 4 s.fu
    rcases hr : fwUpgradeReadPartition (hdl.getD 0) 0 4 s.fu with ⟨e | b, fu'⟩ <;> rw [hr] at hread <;>
      simp only [Cmd.orFail, onFu, Cmd.zoom, hr]
    · subst hread
      exact h.grown
    · subst hread
      exact h
  refine Cmd.Triple.bind (R := fun _ => EarlyOpen A fu₀.dev c) (Cmd.Triple.when ?_ fun _ h _ => h) fun _ => ?_
  · exact (EarlyOpen.eraseAll hL c).weaken (fun _ h => h.1) (fun _ _ h => h) fun _ _ h => h
  refine Cmd.Triple.bind (R := fun _ => Early A fu₀.dev) ?_ fun _ => Early.createHidden _ c
  exact Cmd.Triple.modify fun s h => h.toEarly.freePartitionHdl

theorem prepareFs_early {env : Env} (hL : Layout cfg fu₀ A) :
    Cmd.Triple (Early A fu₀.dev) (prepareFs env)
      (fun _ s => Early A fu₀.dev s ∧ s.cxt.state = .prepareConnect) (Failed A fu₀.dev) := by
  refine Cmd.Triple.bind (R := fun _ => Early A fu₀.dev) (Cmd.Triple.when ?_ fun _ h _ => h) fun _ => ?_
  · exact prepareFs2_early.weaken (fun _ h => h.1) (fun _ _ h => h) fun _ _ h => h
  refine Cmd.Triple.bind (prepareRamdump_early hL) fun _ => ?_
  refine Cmd.Triple.bind prepareUserdata_early fun _ => Cmd.Triple.modify fun s h => ?_
  exact ⟨h.setState _, rfl⟩

/-! ### After the header -/

/-- The context after the header: the trial memory that is left is enough for the images to be placed. -/
structure Placing (A : Area) (c : Cxt) : Prop where
  trial : c.trialFwdIdx = A.trial
  isFirst : c.isFirst = false
  total : c.totalImages = c.imageHdr.length
  lengths : ∀ h ∈ c.imageHdr, h.imageLength < 2 ^ 32
  sbl : ∀ h ∈ c.imageHdr, h.imageId = sblImgId → h.imageLength ≤ h.diskSize ∧ h.diskSize ≤ A.sbl.size
  sblStart : c.trialSblStart = A.sbl.start
  start_le : A.mem.start ≤ c.trialMemStart
  budget : c.trialMemStart + need c.downloadFlag c.imageIndex c.imageHdr ≤ A.mem.start + A.mem.size
  flags : c.format ≠ formatPartialUpgrade → ∀ i, c.downloadFlag i = true
  buffer : c.buffer.length ≤ fwUpgradeBufSize

/-- Every image before the current one that was downloaded and has bytes passed its hash check. -/
def Session.AllVerified (env : Env) (s : Session) : Prop :=
  ∀ i < s.cxt.imageIndex, ∀ h, s.cxt.imageHdr[i]? = some h → s.cxt.downloadFlag i = true → h.imageLength ≠ 0 →
    ∃ b, (i, b) ∈ s.verified ∧ h.hash = env.sha256 (b ++ List.replicate (s.cxt.hashPad h) 0xFF)

/-- A session that places images. -/
structure Busy (env : Env) (A : Area) (d₀ : Dev) (s : Session) : Prop where
  grown : Grown A d₀ s.fu.dev
  placing : Placing A s.cxt
  verified : s.AllVerified env

/-- The image at `imageIndex` is to be downloaded. -/
structure Downloading (c : Cxt) : Prop where
  index : c.imageIndex < c.totalImages
  flag : c.downloadFlag c.imageIndex = true

theorem Downloading.getElem? {c : Cxt} (hd : Downloading c) (hp : Placing A c) (env : Env) :
    c.imageHdr[c.imageIndex]? = some (c.hdrAt env c.imageIndex) := by
  have hi : c.imageIndex < c.imageHdr.length := hp.total ▸ hd.index
  rw [Cxt.hdrAt, List.getD_eq_getElem?_getD, List.getElem?_eq_getElem hi, Option.getD_some]

theorem Downloading.mem {c : Cxt} (hd : Downloading c) (hp : Placing A c) (env : Env) :
    c.hdrAt env c.imageIndex ∈ c.imageHdr := List.mem_of_getElem? (hd.getElem? hp env)

theorem Downloading.taken {c : Cxt} (hd : Downloading c) (hp : Placing A c) (env : Env) :
    (c.imageHdr.map ImageHdr.taken).getD c.imageIndex 0 = (c.hdrAt env c.imageIndex).taken := by
  rw [List.getD_eq_getElem?_getD, List.getElem?_map, hd.getElem? hp env]
  rfl

/-- The trial memory left is enough for the current image. -/
theorem Downloading.room {c : Cxt} (hd : Downloading c) (hp : Placing A c) (env : Env) :
    c.trialMemStart + (c.hdrAt env c.imageIndex).taken ≤ A.mem.start + A.mem.size := by
  have h := taken_le_need (show _ < c.imageHdr.length from hp.total ▸ hd.index) hd.flag
  rw [hd.taken hp env] at h
  have := hp.budget
  omega

/-- The partition of the current image is open and lies in the area. -/
structure Opened (A : Area) (s : Session) (h : ℕ) : Prop where
  hdl : s.cxt.partitionHdl = some h
  holds : A.Holds (s.fu.handles h)
  count : s.cxt.imageWrtCount ≤ s.cxt.imageWrtLength
  size : s.cxt.imageWrtCount ≤ (s.fu.handles h).imgSize
  length : s.cxt.imageWrtLength < 2 ^ 32
  sbl : (s.fu.handles h).imgId = sblImgId → s.cxt.imageWrtLength ≤ (s.fu.handles h).imgSize

/-- Unless the next image is still to be opened, one is open and not all of it written. -/
def Ongoing (A : Area) (s : Session) : Prop :=
  s.cxt.imageWrtLength ≠ 0 → s.cxt.imageWrtCount < s.cxt.imageWrtLength ∧ ∃ h, Opened A s h

/-! ### The header is accepted -/

theorem ImageHdr.taken_adjust {h : ImageHdr} (hb : h.placedSize < 2 ^ 32) : h.adjust.taken = h.placedSize := by
  simp only [ImageHdr.taken, ImageHdr.placedSize, ImageHdr.adjust_imageId] at *
  by_cases hid : h.imageId = fs1ImgId ∨ h.imageId = sblImgId
  · rw [if_pos hid, if_pos hid]
  · rw [if_neg hid] at hb ⊢
    rw [if_neg hid, ImageHdr.adjust_diskSize (fun hc => hid (.inr hc)), alignDiskSize_eq hb]

theorem imageHdrs_length_lt {b : Bytes} {n : ℕ} {h : ImageHdr} (hm : h ∈ imageHdrs b n) :
    h.imageLength < 2 ^ 32 := by
  obtain ⟨i, -, rfl⟩ := List.mem_map.mp hm
  exact wordAt_lt _ _

/-- An accepted header that fits leaves enough trial memory. -/
theorem placing_configured {env : Env} (hL : Layout env.cfg fu₀ A) {s : Session} {b : Bytes} (hE : Early A fu₀.dev s)
    (hfit : HeaderFits A b) (ha : s.Acceptable env b) {i start size : ℕ}
    (hsel : fwUpgradeSelectSblTrialFde env.cfg s.fu.dev.mem.fdt = some (i, start, size)) (flag : ℕ → Bool)
    (st : State) (hflag : s.cxt.format ≠ formatPartialUpgrade → ∀ i, flag i = true) :
    Placing A { (s.configured b i start size).cxt with isFirst := false, downloadFlag := flag, state := st } := by
  set hs := imageHdrs b (ImageSetHdr.decode b).numImages with hhs
  have hmem := hL.sane.data_lt A.mem (by simp [Area.data])
  have hsum : (hs.map ImageHdr.placedSize).sum ≤ A.mem.size := hfit.1
  have htaken : (hs.map ImageHdr.adjust).map ImageHdr.taken = hs.map ImageHdr.placedSize := by
    rw [List.map_map]
    apply List.map_congr_left
    intro x hx
    refine ImageHdr.taken_adjust ?_
    have := List.single_le_sum (l := hs.map ImageHdr.placedSize) (by simp) _ (List.mem_map_of_mem hx)
    omega
  refine ⟨hE.fresh.trial, rfl, ?_, ?_, ?_, ?_, ?_, ?_, hflag, hE.fresh.buffer⟩
  · simp [Session.configured, imageHdrs]
  · intro x hx
    obtain ⟨y, hy, rfl⟩ := List.mem_map.mp hx
    rw [ImageHdr.adjust_imageLength]
    exact imageHdrs_length_lt hy
  · intro x hx hid
    obtain ⟨y, hy, rfl⟩ := List.mem_map.mp hx
    rw [ImageHdr.adjust_imageId] at hid
    rw [ImageHdr.adjust_sbl hid]
    refine ⟨?_, hfit.2 y hy hid⟩
    have := ha.2.2.1 y hy
    simp only [ImageHdr.Incorrect, not_or, not_lt] at this
    exact this.2.2.2.2
  · show start = A.sbl.start
    rw [hE.grown.fdt] at hsel
    rw [hL.area.sblStart]
    simp only [sessionArea, sblSlot, hsel]
  · exact Nat.le_of_eq hE.fresh.memStart.symm
  · show s.cxt.trialMemStart + need flag s.cxt.imageIndex (hs.map ImageHdr.adjust) ≤ _
    rw [hE.fresh.index, need_zero, htaken, hE.fresh.memStart]
    exact Nat.add_le_add_left hfit.1 _

/-! ### The invariant of a session -/

/-- A session that has done nothing yet. -/
structure Session.Untouched (s : Session) (fu₀ : Fu) : Prop where
  fu : s.fu = fu₀
  isFirst : s.cxt.isFirst = true
  index : s.cxt.imageIndex = 0
  wrtLength : s.cxt.imageWrtLength = 0
  flags : ∀ i, s.cxt.downloadFlag i = true
  buffer : s.cxt.buffer = []
  configBuf : s.cxt.configBuf = none
  closed : s.cxt.partitionHdl = none
  verified : s.verified = []

/-- What holds of a session in the loop, by its state. -/
inductive Inv (env : Env) (A : Area) (fu₀ : Fu) (s : Session) : Prop
  /-- nothing has happened yet -/
  | start (hs : s.cxt.state = .notStart ∨ s.cxt.state = .getTrialInfo) (hu : s.Untouched fu₀)
  /-- the trial slot is chosen -/
  | chosen (hs : s.cxt.state = .eraseFwd) (hL : Layout env.cfg fu₀ A) (hdev : s.fu.dev = fu₀.dev)
    (hf : Fresh A s.cxt) (hv : s.verified = [])
  /-- up to the header -/
  | early (hs : s.cxt.state ∈ [State.eraseSecondFs, .prepareFs, .prepareConnect, .connectServer, .receiveData,
      .processConfigFile]) (hL : Layout env.cfg fu₀ A) (he : Early A fu₀.dev s)
  /-- between two images -/
  | between (hs : s.cxt.state = .prepareConnect ∨ s.cxt.state = .disconnectServer) (hL : Layout env.cfg fu₀ A)
    (hb : Busy env A fu₀.dev s) (hw : s.cxt.imageWrtLength = 0)
  /-- in or before an image -/
  | image (hs : s.cxt.state = .connectServer ∨ s.cxt.state = .receiveData ∨ s.cxt.state = .processImage)
    (hL : Layout env.cfg fu₀ A) (hb : Busy env A fu₀.dev s) (hd : Downloading s.cxt)
    (ho : Ongoing A s) (hn : s.cxt.state = .processImage → s.cxt.buffer ≠ [])
    (hc : s.cxt.state = .connectServer → s.cxt.imageWrtLength = 0)
  /-- all images have been downloaded -/
  | copies (hs : s.cxt.state = .duplicateImages) (hL : Layout env.cfg fu₀ A) (hb : Busy env A fu₀.dev s)
    (ht : s.cxt.totalImages ≤ s.cxt.imageIndex)
  /-- all images are in place -/
  | placed (hs : s.cxt.state = .duplicateFs ∨ s.cxt.state = .finish) (hL : Layout env.cfg fu₀ A)
    (hg : Grown A fu₀.dev s.fu.dev) (htr : s.cxt.trialFwdIdx = A.trial) (hv : s.AllVerified env)
    (ht : s.cxt.totalImages ≤ s.cxt.imageIndex) (hf : s.cxt.isFirst = false)

/-- The writes of a session, at any time before its end. -/
def Logged (env : Env) (A : Area) (fu₀ : Fu) (s : Session) : Prop :=
  s.fu.dev = fu₀.dev ∨ Layout env.cfg fu₀ A ∧ Grown A fu₀.dev s.fu.dev

theorem Inv.logged {env : Env} {s : Session} (h : Inv env A fu₀ s) : Logged env A fu₀ s := by
  cases h with
  | start hs hu => exact .inl (by rw [hu.fu])
  | chosen hs hL hdev => exact .inl hdev
  | early hs hL he => exact .inr ⟨hL, he.grown⟩
  | between hs hL hb => exact .inr ⟨hL, hb.grown⟩
  | image hs hL hb => exact .inr ⟨hL, hb.grown⟩
  | copies hs hL hb => exact .inr ⟨hL, hb.grown⟩
  | placed hs hL hg => exact .inr ⟨hL, hg⟩

/-- How a state of the machine can end: in a session with the invariant, or with an error. -/
abbrev Keeps (env : Env) (A : Area) (fu₀ : Fu) {α : Type} : Except FuStatus α × Session → Prop :=
  Cmd.Ends (fun _ => Inv env A fu₀) (fun _ => Logged env A fu₀)

theorem keeps_goOn {env : Env} {c : Cmd Session FuStatus Unit} {s : Session}
    (h : Keeps env A fu₀ (c s)) : Keeps env A fu₀ ((c >>= fun _ => pure true) s) := by
  rw [Cmd.bind_apply]
  rcases hc : c s with ⟨e | u, s'⟩ <;> rw [hc] at h <;> exact h

/-- From the header to the first image, or to the comparison with the active images. -/
theorem nextStage_keeps {env : Env} (hL : Layout env.cfg fu₀ A) {u : Session} (hg : Grown A fu₀.dev u.fu.dev)
    (hi : u.cxt.imageIndex = 0) (hw : u.cxt.imageWrtLength = 0) (ht : 0 < u.cxt.totalImages)
    (hfl : ∀ i, u.cxt.downloadFlag i = true)
    (hp : ∀ flag st, (u.cxt.format ≠ formatPartialUpgrade → ∀ i, flag i = true) →
      Placing A { u.cxt with isFirst := false, downloadFlag := flag, state := st }) :
    Keeps env A fu₀ (nextStage env u) := by
  rw [nextStage]
  by_cases hf : u.cxt.format ≠ formatPartialUpgrade
  · rw [if_pos hf]
    refine .image ?_ hL ⟨hg, hp _ _ fun _ => hfl, ?_⟩ ⟨?_, hfl _⟩ (fun h => absurd hw h) ?_ (fun _ => hw)
    · simp only [Session.setCxt]
      split
      · exact .inr (.inl rfl)
      · exact .inr (.inr rfl)
    · intro i hlt
      exact absurd (show i < u.cxt.imageIndex from hlt) (by omega)
    · show u.cxt.imageIndex < u.cxt.totalImages
      omega
    · simp only [Session.setCxt]
      intro hst hnil
      rw [hnil, List.length_nil, if_pos (Nat.zero_le _)] at hst
      cases hst
  · rw [if_neg hf]
    refine .between (.inr rfl) hL ⟨?_, hp _ _ fun h => absurd h hf, ?_⟩ hw
    · show Grown A fu₀.dev (downloadFlags env u.activeFwd u.cxt.imageHdr u.fu).2.dev
      rw [downloadFlags_dev]
      exact hg
    · intro i hlt
      exact absurd (show i < u.cxt.imageIndex from hlt) (by omega)

/-- The header, complete or not. -/
theorem processConfigFile_keeps {env : Env} (hL : Layout env.cfg fu₀ A) {s : Session} (hE : Early A fu₀.dev s)
    (hst : s.cxt.state = .processConfigFile) (hok : s.HeaderOk env A) :
    Keeps env A fu₀ (fwUpgradeProcessConfigFile env s) := by
  rcases receiveConfig_cases hE.fresh.collected with ⟨e, f, hrc⟩ | ⟨d, hrc, hcol, f, b, n, hd⟩ |
    ⟨d, hrc, hcomp, hcor, b, o, n, hd⟩
  · rw [fwUpgradeProcessConfigFile, hrc]
    exact .inr ⟨hL, hE.grown⟩
  · rw [fwUpgradeProcessConfigFile, hrc]
    refine .early (by rw [hd]; simp) hL ⟨hE.grown, ?_, hE.verified⟩
    refine ⟨?_, ?_, ?_, ?_, ?_, ?_, ?_, hcol⟩ <;> rw [hd]
    exacts [hE.fresh.trial, hE.fresh.memStart, hE.fresh.isFirst, hE.fresh.index, hE.fresh.wrtLength,
      hE.fresh.flags, hE.fresh.buffer]
  have hE' : Early A fu₀.dev { s with cxt := { d with configBuf := none } } := by
    refine ⟨hE.grown, ?_, hE.verified⟩
    rw [hd]
    exact ⟨hE.fresh.trial, hE.fresh.memStart, hE.fresh.isFirst, hE.fresh.index, hE.fresh.wrtLength,
      hE.fresh.flags, hE.fresh.buffer, ⟨fun b hb => by cases hb⟩⟩
  have htrial : d.trialFwdIdx = A.trial := by rw [hd]; exact hE.fresh.trial
  rcases processConfigFile_complete env hrc with ⟨-, e, c', ws, heq, hws⟩ | ⟨ha, i, start, size, hsel, -, heq⟩
  · rw [heq]
    refine .inr ⟨hL, hE.grown.writes ?_⟩
    intro w hw
    rw [htrial] at hws
    exact headWrites_later A _ _ w (hws.subset hw)
  · have hgrown : Grown A fu₀.dev ({ s with cxt := d }.configured s.cxt.header i start size).fu.dev := by
      refine hE.grown.writes ?_
      show ∀ w ∈ headWrites d.trialFwdIdx _ _, _
      rw [htrial]
      exact headWrites_later A _ _
    rw [heq]
    refine nextStage_keeps hL hgrown hE'.fresh.index hE'.fresh.wrtLength hcor.1.1 hE'.fresh.flags ?_
    intro flag st hflag
    have hfit : HeaderFits A s.cxt.header := hok hst hcomp (by rw [hd] at ha; exact ha)
    exact placing_configured hL hE' hfit ha hsel flag st hflag

end

end Qcc730.Upgrade
